import Shellward.Token.Parser

/-!
# What parsers yield

A parser makes its values from tokens, also when it fails or goes on after a
mistake.  If a property of the tokens ahead makes all its values satisfy another
one, the parser is said to yield such values.  The combinators keep this.

Main results:

- Theorem `Parser.Yields.bind`: a sequence yields what its second part yields from
  the values of the first.
- Theorem `Parser.Yields.iterate`: a loop yields what every round keeps.
-/

namespace Shellward

/-! ### The tokens ahead of a cursor -/

namespace Cursor

variable {S : Token → Prop} {c : Cursor}

/-- Every token ahead satisfies a property, and so does the end mark. -/
def All (S : Token → Prop) (c : Cursor) : Prop :=
  (∀ t ∈ c.ahead, S t) ∧ S c.final

/-- The next token has the property. -/
theorem All.peek (h : c.All S) : S c.peek := by
  unfold Cursor.peek
  cases hahead : c.ahead with
  | nil => exact h.2
  | cons t ts => exact h.1 t (by simp [hahead])

/-- The token after the next one has the property. -/
theorem All.peekNext (h : c.All S) : S c.peekNext := by
  unfold Cursor.peekNext
  cases htail : c.ahead.tail with
  | nil => exact h.2
  | cons t ts =>
      have hmem : t ∈ c.ahead.tail := by simp [htail]
      exact h.1 t (List.mem_of_mem_tail hmem)

/-- After moving on, all tokens ahead have the property. -/
theorem All.advance (h : c.All S) : c.advance.All S := by
  unfold Cursor.advance
  split
  · exact h
  · rename_i t ts hahead
    split
    · exact h
    · refine ⟨?_, h.2⟩
      intro u hu
      exact h.1 u (by simp [hahead, hu])

/-- After skipping, all tokens ahead have the property. -/
theorem All.skipWhile (h : c.All S) (test : Token → Bool) : (c.skipWhile test).All S := by
  refine ⟨?_, h.2⟩
  intro t ht
  exact h.1 t ((List.dropWhile_suffix test).mem ht)

end Cursor

namespace Parser

variable {α β σ : Type} {S : Token → Prop}

/-! ### Yielding parsers -/

/-- From tokens with a property, every value that a parser gives satisfies `Q`, and
the tokens it leaves ahead have the property still. -/
def Yields (S : Token → Prop) (p : Parser α) (Q : α → Prop) : Prop :=
  ∀ c : Cursor, c.All S → (p c).rest.All S ∧ ∀ a, (p c).value = some a → Q a

/-- The same for cursors whose next token is known. -/
def YieldsAt (S : Token → Prop) (t : Token) (p : Parser α) (Q : α → Prop) : Prop :=
  ∀ c : Cursor, c.All S → c.peek = t → (p c).rest.All S ∧ ∀ a, (p c).value = some a → Q a

variable {p : Parser α} {f : α → Parser β} {Q : α → Prop} {R : β → Prop}

/-- The token taken is the next one. -/
theorem YieldsAt.take {t : Token} {Q : Token → Prop} (h : Q t) :
    YieldsAt S t Parser.take Q := by
  intro c hc hpeek
  refine ⟨hc.advance, ?_⟩
  intro u hu
  rw [← Option.some.inj hu, hpeek]
  exact h

namespace Yields

/-- What holds for all next tokens holds for each of them. -/
theorem at_token (h : Yields S p Q) (t : Token) : YieldsAt S t p Q := by
  intro c hc _
  exact h c hc

theorem pure {a : α} (h : Q a) : Yields S (Pure.pure a) Q := by
  intro c hc
  refine ⟨hc, ?_⟩
  intro b hb
  simp only [pure_apply, Option.some.injEq] at hb
  rw [← hb]
  exact h

theorem fail (fault : Fault) (span : Span) : Yields S (Parser.fail fault span) Q := by
  intro c hc
  refine ⟨hc, ?_⟩
  intro a ha
  simp at ha

theorem peek : Yields S Parser.peek S := by
  intro c hc
  refine ⟨hc, ?_⟩
  intro t ht
  simp only [peek_apply, Option.some.injEq] at ht
  rw [← ht]
  exact hc.peek

theorem peekNext : Yields S Parser.peekNext S := by
  intro c hc
  refine ⟨hc, ?_⟩
  intro t ht
  simp only [Parser.peekNext, Option.some.injEq] at ht
  rw [← ht]
  exact hc.peekNext

theorem take : Yields S Parser.take S := by
  intro c hc
  refine ⟨hc.advance, ?_⟩
  intro t ht
  simp only [take_apply, Option.some.injEq] at ht
  rw [← ht]
  exact hc.peek

theorem skipWhile (test : Token → Bool) :
    Yields S (Parser.skipWhile test) (fun _ => True) := by
  intro c hc
  exact ⟨hc.skipWhile test, fun _ _ => trivial⟩

/-- A sequence yields what its second part yields from the values of the first. -/
theorem bind (hp : Yields S p Q) (hf : ∀ a, Q a → Yields S (f a) R) :
    Yields S (p >>= f) R := by
  intro c hc
  rcases hp c hc with ⟨hrest, hvalue⟩
  cases hcase : (p c).value with
  | none =>
      rw [bind_of_none hcase]
      refine ⟨hrest, ?_⟩
      intro b hb
      simp at hb
  | some a =>
      rw [bind_of_some hcase]
      exact hf a (hvalue a hcase) _ hrest

/-- What is computed from a value satisfies what follows from the value. -/
theorem map {g : α → β} (hp : Yields S p Q) (hg : ∀ a, Q a → R (g a)) :
    Yields S (g <$> p) R :=
  hp.bind fun a ha => pure (hg a ha)

/-- A token that is looked at stays the next one. -/
theorem look {f : Token → Parser β} (h : ∀ t, S t → YieldsAt S t (f t) R) :
    Yields S (Parser.peek >>= f) R := by
  intro c hc
  have hpeek : (Parser.peek c).value = some c.peek := rfl
  rw [bind_of_some hpeek]
  exact h c.peek hc.peek c hc rfl

/-- A required token is of the kind asked for. -/
theorem require (kind : Token.Kind) (fault : Found → Fault) :
    Yields S (Parser.require kind fault) (fun t => t.kind = kind) := by
  apply look
  intro t _
  split
  · rename_i hkind
    exact .take hkind
  · exact (fail _ _).at_token t

/-- The value of an attempt satisfies what the parser promises, if there is one. -/
theorem attempt (hp : Yields S p Q) :
    Yields S (Parser.attempt p) (fun o => ∀ a, o = some a → Q a) := by
  intro c hc
  rcases hp c hc with ⟨hrest, hvalue⟩
  refine ⟨hrest, ?_⟩
  intro o ho a ha
  simp only [Parser.attempt, Option.some.injEq] at ho
  exact hvalue a (ho.trans ha)

/-- A loop yields what every round keeps. -/
theorem iterate {step : σ → Parser (Option σ)} {Inv : σ → Prop}
    (hstep : ∀ s, Inv s → Yields S (step s) (fun o => ∀ s', o = some s' → Inv s'))
    {s : σ} (hs : Inv s) : Yields S (Parser.iterate step s) Inv := by
  intro c hc
  induction hn : c.ahead.length using Nat.strongRecOn generalizing s c with
  | _ n ih =>
      subst hn
      rcases hstep s hs c hc with ⟨hrest, hvalue⟩
      rw [Parser.iterate]
      split
      · exact ⟨hrest, fun _ h => by simp at h⟩
      · refine ⟨hrest, ?_⟩
        intro a ha
        rw [← Option.some.inj ha]
        exact hs
      · rename_i s' hs'
        have hinv : Inv s' := hvalue _ hs' s' rfl
        split
        · rename_i hlt
          exact ih _ hlt hinv _ hrest rfl
        · refine ⟨hrest, ?_⟩
          intro a ha
          rw [← Option.some.inj ha]
          exact hinv

end Yields
end Parser
end Shellward
