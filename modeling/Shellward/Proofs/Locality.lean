import Shellward.Proofs.Acceptance

/-!
# Parsers that do not look further

On some tokens a parser may do the same whatever follows them: it gives the same value,
reports the same problems and leaves the same of the tokens.  A loop passes some tokens
if it goes on after them as another loop that starts there.

Main results:

- Theorems `Parser.RunsOn.bind_some` and `Parser.RunsOn.bind_none`: a sequence of parsers
  that do not look further does not look further.
- Theorem `Parser.Passes.round`: a loop passes the tokens of a round and then those that
  the rest of the loop passes.
- Theorem `Parser.Total.iterate`: a loop of rounds that never fail never fails.
-/

namespace Shellward
namespace Parser

variable {α β σ : Type}

/-- Whatever follows the tokens `ts`, a parser has the outcome `o` on them, reports
`problems` and leaves the tokens `left` of them. -/
def RunsOn (p : Parser α) (ts : List Token) (o : Option α) (problems : List (Problem Span))
    (left : List Token) : Prop :=
  ∀ ⦃c : Cursor⦄ ⦃rest : List Token⦄, c.Proper → rest ≠ [] → c.upcoming = ts ++ rest →
    ∃ c', p c = ⟨o, problems, c'⟩ ∧ c'.Proper ∧ c'.upcoming = left ++ rest

namespace RunsOn

variable {p : Parser α} {g : α → Parser β} {ts middle left : List Token}
variable {problems problems' : List (Problem Span)} {t : Token} {a : α} {b : Option β}

theorem pure : RunsOn (Pure.pure a) ts (some a) [] ts :=
  fun c _ hc _ hinput => ⟨c, rfl, hc, hinput⟩

theorem fail {fault : Fault} {s : Span} :
    RunsOn (Parser.fail fault s : Parser α) ts none [⟨fault, s⟩] ts :=
  fun c _ hc _ hinput => ⟨c, rfl, hc, hinput⟩

/-- Looking at the next token leaves it. -/
theorem peek : RunsOn Parser.peek (t :: ts) (some t) [] (t :: ts) := by
  intro c rest hc _ hinput
  refine ⟨c, ?_, hc, hinput⟩
  rw [peek_apply, Cursor.peek_eq_of_upcoming hinput]

/-- Looking at the token after the next one leaves both. -/
theorem peekNext {u : Token} :
    RunsOn Parser.peekNext (t :: u :: ts) (some u) [] (t :: u :: ts) := by
  intro c rest hc _ hinput
  refine ⟨c, ?_, hc, hinput⟩
  rw [Parser.peekNext, Cursor.peekNext_eq_of_upcoming hinput]

/-- A token that is no end mark is taken. -/
theorem take (ht : t.kind ≠ .eof) : RunsOn Parser.take (t :: ts) (some t) [] ts := by
  intro c rest hc _ hinput
  refine ⟨c.advance, ?_, hc.advance, hc.upcoming_advance hinput ht⟩
  rw [take_apply, Cursor.peek_eq_of_upcoming hinput]

/-- Passing over tokens ends at the first one that fails the test. -/
theorem skipWhile {test : Token → Bool} {skipped : List Token}
    (hskipped : ∀ u ∈ skipped, test u = true) (ht : test t = false) :
    RunsOn (Parser.skipWhile test) (skipped ++ t :: ts) (some ()) [] (t :: ts) := by
  intro c rest hc hrest hinput
  refine ⟨c.skipWhile test, rfl, hc.skipWhile test, ?_⟩
  -- The end mark is not among the tokens, since more tokens follow them.
  rcases List.eq_nil_or_concat rest with rfl | ⟨front, final, rfl⟩
  · exact absurd rfl hrest
  · have hsplit : c.ahead = skipped ++ t :: (ts ++ front) ∧ c.final = final := by
      rw [Cursor.upcoming, List.concat_eq_append, ← List.append_assoc] at hinput
      rcases List.append_inj' hinput rfl with ⟨hahead, hfinal⟩
      refine ⟨by rw [hahead]; simp, (List.cons.inj hfinal).1⟩
    have hdrop : (c.skipWhile test).ahead = t :: (ts ++ front) := by
      rw [Cursor.skipWhile, hsplit.1, List.dropWhile_append_of_pos hskipped,
        List.dropWhile_cons_of_neg (by simp [ht])]
    have hfinal : (c.skipWhile test).final = final := hsplit.2
    rw [Cursor.upcoming, hdrop, hfinal]
    simp

/-- A sequence goes on after a success with what the first part leaves. -/
theorem bind_some (hp : RunsOn p ts (some a) problems middle)
    (hg : RunsOn (g a) middle b problems' left) :
    RunsOn (p >>= g) ts b (problems ++ problems') left := by
  intro c rest hc hrest hinput
  rcases hp hc hrest hinput with ⟨c₁, h₁, hc₁, hmiddle⟩
  rcases hg hc₁ hrest hmiddle with ⟨c₂, h₂, hc₂, hleft⟩
  refine ⟨c₂, ?_, hc₂, hleft⟩
  rw [bind_of_some (by rw [h₁]), h₁]
  simp only [h₂]

/-- A sequence stops at a failure of its first part. -/
theorem bind_none (hp : RunsOn p ts none problems left) :
    RunsOn (p >>= g) ts none problems left := by
  intro c rest hc hrest hinput
  rcases hp hc hrest hinput with ⟨c₁, h₁, hc₁, hleft⟩
  refine ⟨c₁, ?_, hc₁, hleft⟩
  rw [bind_of_none (by rw [h₁]), h₁]

/-- An attempt has the outcome of the parser as its value. -/
theorem attempt {o : Option α} (hp : RunsOn p ts o problems left) :
    RunsOn (Parser.attempt p) ts (some o) problems left := by
  intro c rest hc hrest hinput
  rcases hp hc hrest hinput with ⟨c₁, h₁, hc₁, hleft⟩
  refine ⟨c₁, ?_, hc₁, hleft⟩
  simp only [Parser.attempt, h₁]

section Loops

variable {step : σ → Parser (Option σ)} {s s' : σ} {o : Option σ}

/-- The lengths of what is ahead differ by the tokens left. -/
theorem length_ahead_lt_iff {c c' : Cursor} {rest : List Token} (hc : c.upcoming = ts ++ rest)
    (hc' : c'.upcoming = left ++ rest) :
    c'.ahead.length < c.ahead.length ↔ left.length < ts.length := by
  have hlength := congrArg List.length hc
  have hlength' := congrArg List.length hc'
  rw [Cursor.length_upcoming, List.length_append] at hlength hlength'
  omega

/-- A loop fails with its first round. -/
theorem iterate_none (h : RunsOn (step s) ts none problems left) :
    RunsOn (iterate step s) ts none problems left := by
  intro c rest hc hrest hinput
  rcases h hc hrest hinput with ⟨c₁, h₁, hc₁, hleft⟩
  refine ⟨c₁, ?_, hc₁, hleft⟩
  rw [iterate]
  simp only [h₁]

/-- A loop is done when a round says so. -/
theorem iterate_done (h : RunsOn (step s) ts (some none) problems left) :
    RunsOn (iterate step s) ts (some s) problems left := by
  intro c rest hc hrest hinput
  rcases h hc hrest hinput with ⟨c₁, h₁, hc₁, hleft⟩
  refine ⟨c₁, ?_, hc₁, hleft⟩
  rw [iterate]
  simp only [h₁]

/-- A loop ends after a round that takes nothing. -/
theorem iterate_stuck (h : RunsOn (step s) ts (some (some s')) problems left)
    (hle : ts.length ≤ left.length) : RunsOn (iterate step s) ts (some s') problems left := by
  intro c rest hc hrest hinput
  rcases h hc hrest hinput with ⟨c₁, h₁, hc₁, hleft⟩
  refine ⟨c₁, ?_, hc₁, hleft⟩
  have hstuck : ¬ c₁.ahead.length < c.ahead.length := by
    rw [length_ahead_lt_iff hinput hleft]
    omega
  rw [iterate]
  simp only [h₁, hstuck, if_false]

/-- A loop goes on after a round that takes a token. -/
theorem iterate_next (h : RunsOn (step s) ts (some (some s')) problems middle)
    (hlt : middle.length < ts.length)
    (hloop : RunsOn (iterate step s') middle o problems' left) :
    RunsOn (iterate step s) ts o (problems ++ problems') left := by
  intro c rest hc hrest hinput
  rcases h hc hrest hinput with ⟨c₁, h₁, hc₁, hmiddle⟩
  rcases hloop hc₁ hrest hmiddle with ⟨c₂, h₂, hc₂, hleft⟩
  refine ⟨c₂, ?_, hc₂, hleft⟩
  have hahead := (length_ahead_lt_iff hinput hmiddle).mpr hlt
  rw [iterate_eq (by rw [h₁]) (by rw [h₁]; exact hahead), h₁]
  simp only [h₂]

end Loops
end RunsOn

/-! ### Loops that go on after some tokens -/

/-- Whatever follows the tokens `ts`, a loop from `s` reports `problems` on them and goes on
after them as the loop from `s'`. -/
def Passes (step : σ → Parser (Option σ)) (s : σ) (ts : List Token) (s' : σ)
    (problems : List (Problem Span)) : Prop :=
  ∀ ⦃c : Cursor⦄ ⦃rest : List Token⦄, c.Proper → rest ≠ [] → c.upcoming = ts ++ rest →
    ∃ c', c'.Proper ∧ c'.upcoming = rest ∧
      iterate step s c = ⟨(iterate step s' c').value,
        problems ++ (iterate step s' c').problems, (iterate step s' c').rest⟩

namespace Passes

variable {step : σ → Parser (Option σ)} {s s₁ s' : σ} {ts left more : List Token}
variable {problems problems' : List (Problem Span)}

/-- A loop passes no tokens without a round. -/
theorem nil : Passes step s [] s [] := by
  intro c rest hc _ hinput
  exact ⟨c, hc, hinput, rfl⟩

/-- A loop passes the tokens of a round, if the rest of the loop passes those that the round
leaves and those after them. -/
theorem round (h : RunsOn (step s) ts (some (some s₁)) problems left)
    (hlt : left.length < ts.length) (hloop : Passes step s₁ (left ++ more) s' problems') :
    Passes step s (ts ++ more) s' (problems ++ problems') := by
  intro c rest hc hrest hinput
  rw [List.append_assoc] at hinput
  have hmore : more ++ rest ≠ [] := List.append_ne_nil_of_right_ne_nil more hrest
  rcases h hc hmore hinput with ⟨c₁, h₁, hc₁, hleft⟩
  rw [← List.append_assoc] at hleft
  rcases hloop hc₁ hrest hleft with ⟨c', hc', hrest', hiterate⟩
  refine ⟨c', hc', hrest', ?_⟩
  rw [List.append_assoc] at hleft
  have hahead := (RunsOn.length_ahead_lt_iff hinput hleft).mpr hlt
  rw [iterate_eq (by rw [h₁]) (by rw [h₁]; exact hahead), h₁]
  simp only [hiterate, List.append_assoc]

end Passes

/-! ### Parsers that never fail -/

/-- A parser that always gives a value. -/
def Total (p : Parser α) : Prop :=
  ∀ c, ∃ a, (p c).value = some a

namespace Total

theorem pure (a : α) : Total (Pure.pure a) :=
  fun _ => ⟨a, rfl⟩

theorem peek : Total Parser.peek :=
  fun c => ⟨c.peek, rfl⟩

theorem take : Total Parser.take :=
  fun c => ⟨c.peek, rfl⟩

theorem skipWhile (test : Token → Bool) : Total (Parser.skipWhile test) :=
  fun _ => ⟨(), rfl⟩

theorem attempt (p : Parser α) : Total (Parser.attempt p) :=
  fun c => ⟨(p c).value, rfl⟩

/-- A sequence always gives a value if its parts do. -/
theorem bind {p : Parser α} {g : α → Parser β} (hp : Total p) (hg : ∀ a, Total (g a)) :
    Total (p >>= g) := by
  intro c
  rcases hp c with ⟨a, ha⟩
  rcases hg a (p c).rest with ⟨b, hb⟩
  refine ⟨b, ?_⟩
  rw [bind_of_some ha]
  exact hb

/-- A loop always gives a value if its rounds do. -/
theorem iterate {step : σ → Parser (Option σ)} (hstep : ∀ s, Total (step s)) (s : σ) :
    Total (iterate step s) := by
  intro c
  induction hn : c.ahead.length using Nat.strongRecOn generalizing s c with
  | ind n ih =>
      rcases hstep s c with ⟨o, ho⟩
      cases o with
      | none => exact ⟨s, by rw [Parser.iterate]; simp only [ho]⟩
      | some s' =>
          by_cases hlt : (step s c).rest.ahead.length < c.ahead.length
          · rw [iterate_eq ho hlt]
            exact ih _ (hn ▸ hlt) s' _ rfl
          · exact ⟨s', by rw [Parser.iterate]; simp only [ho, hlt, if_false]⟩

end Total
end Parser
end Shellward
