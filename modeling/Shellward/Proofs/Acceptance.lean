import Shellward.Token.Parser

/-!
# What parsers accept

A parser accepts when it succeeds and reports nothing.  Acceptance is looked at
in two ways: from cursor to cursor, to take an accepting run apart, and from the
tokens to come before to those to come after, to put one together.

Main results:

- Theorem `Parser.accepts_bind`: a sequence accepts exactly if its parts accept
  one after the other.
- Theorem `Parser.Accepts.rounds`: a loop that accepts is a sequence of rounds,
  the last of which answers that it is done.
- Theorems `Parser.Reads.bind` and `Parser.Reads.iterate_next`: readings of the
  parts make a reading of the sequence and of the loop.
- Theorem `Parser.Honest.bind`: a sequence of parsers that report their failures
  reports its failures.
-/

namespace Shellward

/-! ### The tokens to come -/

namespace Cursor

/-- The tokens to come, the end mark included. -/
def upcoming (c : Cursor) : List Token :=
  c.ahead ++ [c.final]

/-- The end mark is one, and no token before it is. -/
structure Proper (c : Cursor) : Prop where
  final : c.final.kind = .eof
  ahead : ∀ t ∈ c.ahead, t.kind ≠ .eof

/-- The end mark is to come after the tokens ahead. -/
@[simp]
theorem length_upcoming (c : Cursor) : c.upcoming.length = c.ahead.length + 1 := by
  simp [upcoming]

/-- The next token is the first one to come. -/
theorem upcoming_eq_peek_cons (c : Cursor) : c.upcoming = c.peek :: c.upcoming.tail := by
  cases hahead : c.ahead <;> simp [upcoming, peek, hahead]

/-- The next token is the first of those to come. -/
theorem peek_eq_of_upcoming {c : Cursor} {t : Token} {ts : List Token}
    (h : c.upcoming = t :: ts) : c.peek = t := by
  rw [upcoming_eq_peek_cons] at h
  exact (List.cons.inj h).1

/-- The token after the next one is the second one to come. -/
theorem peekNext_eq_of_upcoming {c : Cursor} {t u : Token} {ts : List Token}
    (h : c.upcoming = t :: u :: ts) : c.peekNext = u := by
  cases hahead : c.ahead with
  | nil => simp [upcoming, hahead] at h
  | cons v vs =>
      cases vs <;> simp_all [upcoming, peekNext]

namespace Proper

variable {c : Cursor}

/-- Moving past a token that is no end mark leaves the tokens after it. -/
theorem upcoming_eq (h : c.Proper) (hpeek : c.peek.kind ≠ .eof) :
    c.upcoming = c.peek :: c.advance.upcoming := by
  cases hahead : c.ahead with
  | nil =>
      rw [peek, hahead] at hpeek
      exact absurd h.final hpeek
  | cons t ts =>
      have ht : t.isEnd = false := by
        simpa [Token.isEnd] using h.ahead t (by simp [hahead])
      simp [upcoming, peek, advance, hahead, ht]

/-- Past a token that is no end mark, the next token is the one after it. -/
theorem peek_advance (h : c.Proper) (hpeek : c.peek.kind ≠ .eof) :
    c.advance.peek = c.peekNext := by
  have heq := h.upcoming_eq hpeek
  rw [c.advance.upcoming_eq_peek_cons] at heq
  exact (peekNext_eq_of_upcoming heq).symm

/-- At the end mark nothing else is to come. -/
theorem upcoming_of_eof (h : c.Proper) (hpeek : c.peek.kind = .eof) :
    c.upcoming = [c.peek] := by
  cases hahead : c.ahead with
  | nil => simp [upcoming, peek, hahead]
  | cons t ts =>
      rw [peek, hahead] at hpeek
      exact absurd hpeek (h.ahead t (by simp [hahead]))

/-- Moving past a token leaves the others to come. -/
theorem upcoming_advance (h : c.Proper) {t : Token} {ts : List Token}
    (hc : c.upcoming = t :: ts) (ht : t.kind ≠ .eof) : c.advance.upcoming = ts := by
  have hpeek : c.peek = t := peek_eq_of_upcoming hc
  have heq := h.upcoming_eq (hpeek ▸ ht)
  rw [hc] at heq
  exact (List.cons.inj heq).2.symm

/-- Moving on keeps a cursor proper. -/
theorem advance (h : c.Proper) : c.advance.Proper := by
  refine ⟨by simpa using h.final, ?_⟩
  intro t ht
  unfold Cursor.advance at ht
  split at ht
  · exact h.ahead t ht
  · rename_i u us hahead
    split at ht
    · exact h.ahead t ht
    · exact h.ahead t (by simp [hahead, show t ∈ us from ht])

/-- Skipping keeps a cursor proper. -/
theorem skipWhile (h : c.Proper) (test : Token → Bool) : (c.skipWhile test).Proper :=
  ⟨h.final, fun t ht => h.ahead t ((List.dropWhile_sublist test).mem ht)⟩

end Proper
end Cursor

namespace Parser

variable {α β σ : Type}

/-! ### Accepting runs -/

/-- From one cursor to another, a parser accepts with a value. -/
def Accepts (p : Parser α) (c : Cursor) (a : α) (c' : Cursor) : Prop :=
  p c = ⟨some a, [], c'⟩

/-- A parser that gives a value and reports nothing accepts. -/
theorem accepts_of_value {p : Parser α} {c : Cursor} {a : α} (hvalue : (p c).value = some a)
    (hproblems : (p c).problems = []) : Accepts p c a (p c).rest := by
  rw [Accepts, ← hvalue, ← hproblems]

/-- A value that is given is accepted where it is, and nothing is taken. -/
theorem accepts_pure {a b : α} {c c' : Cursor} :
    Accepts (pure a) c b c' ↔ b = a ∧ c = c' := by
  simp [Accepts, eq_comm]

/-- A sequence is accepted if its parts are, one after the other. -/
theorem accepts_bind {p : Parser α} {f : α → Parser β} {c c'' : Cursor} {b : β} :
    Accepts (p >>= f) c b c'' ↔ ∃ a c', Accepts p c a c' ∧ Accepts (f a) c' b c'' := by
  constructor
  · intro h
    cases hvalue : (p c).value with
    | none =>
        rw [Accepts, bind_of_none hvalue] at h
        simp at h
    | some a =>
        rw [Accepts, bind_of_some hvalue] at h
        simp only [Outcome.mk.injEq, List.append_eq_nil_iff] at h
        rcases h with ⟨hnext, ⟨hfirst, hsecond⟩, hrest⟩
        refine ⟨a, (p c).rest, ?_, ?_⟩
        · exact accepts_of_value hvalue hfirst
        · rw [Accepts, ← hnext, ← hsecond, ← hrest]
  · rintro ⟨a, c', hp, hf⟩
    have hvalue : (p c).value = some a := by rw [hp]
    rw [Accepts, bind_of_some hvalue, hp]
    simp only [List.nil_append]
    rw [hf]

/-- A value that is computed is accepted where what it is computed from is. -/
theorem accepts_map {p : Parser α} {f : α → β} {c c' : Cursor} {b : β} :
    Accepts (f <$> p) c b c' ↔ ∃ a, Accepts p c a c' ∧ b = f a := by
  have heq : (f <$> p) = (p >>= fun a => pure (f a)) := rfl
  rw [heq, accepts_bind]
  simp only [accepts_pure]
  constructor
  · rintro ⟨a, c₁, hp, rfl, rfl⟩
    exact ⟨a, hp, rfl⟩
  · rintro ⟨a, hp, rfl⟩
    exact ⟨a, c', hp, rfl, rfl⟩

/-- A failure is never accepted. -/
theorem not_accepts_fail {fault : Fault} {span : Span} {c c' : Cursor} {a : α} :
    ¬ Accepts (fail fault span) c a c' := by
  simp [Accepts]

theorem accepts_peek {c c' : Cursor} {t : Token} :
    Accepts peek c t c' ↔ t = c.peek ∧ c = c' := by
  simp [Accepts, eq_comm]

theorem accepts_peekNext {c c' : Cursor} {t : Token} :
    Accepts peekNext c t c' ↔ t = c.peekNext ∧ c = c' := by
  simp [Accepts, peekNext, eq_comm]

/-- Taking a token is always accepted. -/
theorem accepts_take {c c' : Cursor} {t : Token} :
    Accepts take c t c' ↔ t = c.peek ∧ c' = c.advance := by
  simp [Accepts, eq_comm]

/-- Skipping tokens is always accepted. -/
theorem accepts_skipWhile {test : Token → Bool} {c c' : Cursor} :
    Accepts (skipWhile test) c () c' ↔ c' = c.skipWhile test := by
  simp [Accepts, skipWhile, eq_comm]

/-- A token of a kind is accepted exactly where the next token is of that kind. -/
theorem accepts_require {kind : Token.Kind} {fault : Found → Fault} {c c' : Cursor} {t : Token} :
    Accepts (require kind fault) c t c' ↔ c.peek.kind = kind ∧ t = c.peek ∧ c' = c.advance := by
  unfold require
  simp only [accepts_bind, accepts_peek]
  constructor
  · rintro ⟨u, c₁, ⟨rfl, rfl⟩, h⟩
    split at h
    · rename_i hkind
      exact ⟨hkind, accepts_take.mp h⟩
    · exact absurd h not_accepts_fail
  · rintro ⟨hkind, rfl, rfl⟩
    exact ⟨c.peek, c, ⟨rfl, rfl⟩, by rw [if_pos hkind]; exact accepts_take.mpr ⟨rfl, rfl⟩⟩

/-- An attempt is accepted if it reports nothing, even if it fails. -/
theorem accepts_attempt {p : Parser α} {c c' : Cursor} {a : Option α} :
    Accepts (attempt p) c a c' ↔ p c = ⟨a, [], c'⟩ := by
  simp only [Accepts, attempt, Outcome.mk.injEq, Option.some.injEq]
  constructor
  · rintro ⟨rfl, hproblems, rfl⟩
    rw [← hproblems]
  · intro h
    simp [h]

/-! ### Loops -/

/-- The rounds of a loop that accepts, up to the one that answers that it is done. -/
inductive Rounds (step : σ → Parser (Option σ)) : σ → Cursor → σ → Cursor → Prop where
  | done {s : σ} {c c' : Cursor} : Accepts (step s) c none c' → Rounds step s c s c'
  | next {s s₁ s' : σ} {c c₁ c' : Cursor} :
      Accepts (step s) c (some s₁) c₁ → Rounds step s₁ c₁ s' c' → Rounds step s c s' c'

/-- If every round keeps an invariant and takes a token, a loop that accepts goes
on until a round is done. -/
theorem Accepts.rounds {step : σ → Parser (Option σ)} (Inv : σ → Cursor → Prop)
    (round : ∀ {s s₁ : σ} {c c₁ : Cursor}, Inv s c → Accepts (step s) c (some s₁) c₁ →
      Inv s₁ c₁ ∧ c₁.upcoming.length < c.upcoming.length)
    {s s' : σ} {c c' : Cursor} (h : Accepts (iterate step s) c s' c') (hinv : Inv s c) :
    Rounds step s c s' c' := by
  induction hn : c.ahead.length using Nat.strongRecOn generalizing s c with
  | _ n ih =>
      subst hn
      rw [Accepts, iterate] at h
      split at h
      · simp at h
      · rename_i hnone
        simp only [Outcome.mk.injEq, Option.some.injEq] at h
        rcases h with ⟨rfl, hproblems, hrest⟩
        exact .done (by rw [Accepts, ← hnone, ← hproblems, ← hrest])
      · rename_i s₁ hsome
        have haccept : (step s c).problems = [] → Accepts (step s) c (some s₁) (step s c).rest :=
          accepts_of_value hsome
        split at h
        · rename_i hlt
          simp only [Outcome.mk.injEq, List.append_eq_nil_iff] at h
          rcases h with ⟨hvalue, ⟨hfirst, hlater⟩, hrest⟩
          have hloop : Accepts (iterate step s₁) (step s c).rest s' c' := by
            rw [Accepts, ← hvalue, ← hlater, ← hrest]
          have hnext := (round hinv (haccept hfirst)).1
          exact .next (haccept hfirst) (ih _ hlt hloop hnext rfl)
        · rename_i hnlt
          simp only [Outcome.mk.injEq] at h
          have hlt := (round hinv (haccept h.2.1)).2
          simp only [Cursor.length_upcoming] at hlt
          omega

/-! ### Readings -/

/-- On the tokens `input` a parser accepts with a value and leaves `rest`. -/
def Reads (p : Parser α) (input : List Token) (a : α) (rest : List Token) : Prop :=
  ∀ c : Cursor, c.Proper → c.upcoming = input →
    ∃ c', Accepts p c a c' ∧ c'.Proper ∧ c'.upcoming = rest

namespace Reads

variable {p : Parser α} {f : α → Parser β} {step : σ → Parser (Option σ)} {a : α} {b : β}
variable {s s' final : σ} {t : Token} {input middle rest : List Token}

theorem pure : Reads (Pure.pure a) input a input :=
  fun c hc hinput => ⟨c, accepts_pure.mpr ⟨rfl, rfl⟩, hc, hinput⟩

/-- A sequence reads what its parts read. -/
theorem bind (hp : Reads p input a middle) (hf : Reads (f a) middle b rest) :
    Reads (p >>= f) input b rest := by
  intro c hc hinput
  rcases hp c hc hinput with ⟨c₁, h₁, hc₁, hmiddle⟩
  rcases hf c₁ hc₁ hmiddle with ⟨c₂, h₂, hc₂, hrest⟩
  exact ⟨c₂, accepts_bind.mpr ⟨a, c₁, h₁, h₂⟩, hc₂, hrest⟩

/-- A value that is computed is read off the same tokens. -/
theorem map {g : α → β} (hp : Reads p input a rest) : Reads (g <$> p) input (g a) rest := by
  intro c hc hinput
  rcases hp c hc hinput with ⟨c₁, h₁, hc₁, hrest⟩
  exact ⟨c₁, accepts_map.mpr ⟨a, h₁, rfl⟩, hc₁, hrest⟩

/-- Looking ahead reads the next token and leaves it. -/
theorem peek : Reads peek (t :: rest) t (t :: rest) := by
  intro c hc hinput
  exact ⟨c, accepts_peek.mpr ⟨(Cursor.peek_eq_of_upcoming hinput).symm, rfl⟩, hc, hinput⟩

/-- Looking two tokens ahead leaves both; after the end mark there is only the end mark. -/
theorem peekNext : Reads peekNext (t :: rest) (rest.headD t) (t :: rest) := by
  intro c hc hinput
  refine ⟨c, accepts_peekNext.mpr ⟨?_, rfl⟩, hc, hinput⟩
  cases rest with
  | nil =>
      have hahead : c.ahead = [] := by
        have hlength := congrArg List.length hinput
        simpa using hlength
      simp_all [Cursor.upcoming, Cursor.peekNext]
  | cons u us => exact (Cursor.peekNext_eq_of_upcoming hinput).symm

/-- A token that is no end mark is taken. -/
theorem take (ht : t.kind ≠ .eof) : Reads take (t :: rest) t rest := by
  intro c hc hinput
  have hpeek : c.peek = t := Cursor.peek_eq_of_upcoming hinput
  exact ⟨c.advance, accepts_take.mpr ⟨hpeek.symm, rfl⟩, hc.advance, hc.upcoming_advance hinput ht⟩

/-- A token of the kind that is asked for is taken. -/
theorem require {kind : Token.Kind} {fault : Found → Fault} (ht : t.kind = kind)
    (hkind : kind ≠ .eof) : Reads (require kind fault) (t :: rest) t rest := by
  intro c hc hinput
  have hpeek : c.peek = t := Cursor.peek_eq_of_upcoming hinput
  exact ⟨c.advance, accepts_require.mpr ⟨hpeek ▸ ht, hpeek.symm, rfl⟩, hc.advance,
    hc.upcoming_advance hinput (ht ▸ hkind)⟩

/-- An attempt reads what the parser reads. -/
theorem attempt (hp : Reads p input a rest) : Reads (attempt p) input (some a) rest := by
  intro c hc hinput
  rcases hp c hc hinput with ⟨c', h, hc', hrest⟩
  refine ⟨c', ?_, hc', hrest⟩
  rw [Accepts] at h
  simp [Accepts, Parser.attempt, h]

/-- A loop whose round is done is done. -/
theorem iterate_done (h : Reads (step s) input none rest) :
    Reads (iterate step s) input s rest := by
  intro c hc hinput
  rcases h c hc hinput with ⟨c₁, h₁, hc₁, hrest⟩
  refine ⟨c₁, ?_, hc₁, hrest⟩
  rw [Accepts] at h₁
  rw [Accepts, iterate]
  simp [h₁]

/-- A loop goes on after a round that takes a token. -/
theorem iterate_next (h : Reads (step s) input (some s') middle)
    (hlt : middle.length < input.length) (hloop : Reads (iterate step s') middle final rest) :
    Reads (iterate step s) input final rest := by
  intro c hc hinput
  rcases h c hc hinput with ⟨c₁, h₁, hc₁, hmiddle⟩
  rcases hloop c₁ hc₁ hmiddle with ⟨c₂, h₂, hc₂, hrest⟩
  refine ⟨c₂, ?_, hc₂, hrest⟩
  have hahead : c₁.ahead.length < c.ahead.length := by
    have hlen : c₁.upcoming.length < c.upcoming.length := by rw [hmiddle, hinput]; exact hlt
    simpa using hlen
  rw [Accepts] at h₁ h₂
  have hvalue : (step s c).value = some (some s') := by rw [h₁]
  rw [Accepts, iterate_eq hvalue (by rw [h₁]; exact hahead), h₁]
  simp [h₂]

end Reads

/-! ### Failures are reported -/

/-- A parser that reports a problem whenever it fails. -/
def Honest (p : Parser α) : Prop :=
  ∀ c, (p c).value = none → (p c).problems ≠ []

namespace Honest

theorem pure (a : α) : Honest (Pure.pure a) := by
  intro c h
  simp at h

/-- A failure reports its reason. -/
theorem fail (fault : Fault) (span : Span) : Honest (fail fault span : Parser α) := by
  intro c _
  simp

theorem peek : Honest peek := by
  intro c h
  simp at h

theorem peekNext : Honest peekNext := by
  intro c h
  simp [Parser.peekNext] at h

theorem take : Honest take := by
  intro c h
  simp at h

theorem skipWhile (test : Token → Bool) : Honest (skipWhile test) := by
  intro c h
  simp [Parser.skipWhile] at h

/-- A sequence of parsers that report their failures reports its failures. -/
theorem bind {p : Parser α} {f : α → Parser β} (hp : Honest p) (hf : ∀ a, Honest (f a)) :
    Honest (p >>= f) := by
  intro c h
  cases hvalue : (p c).value with
  | none =>
      rw [bind_of_none hvalue]
      exact hp c hvalue
  | some a =>
      rw [bind_of_some hvalue] at h ⊢
      have hlater := hf a _ h
      intro hnil
      exact hlater (List.append_eq_nil_iff.mp hnil).2

/-- An attempt does not fail. -/
theorem attempt {p : Parser α} : Honest (attempt p) := by
  intro c h
  simp [Parser.attempt] at h

/-- A loop reports its failures if each round does. -/
theorem iterate {step : σ → Parser (Option σ)} (hstep : ∀ s, Honest (step s)) (s : σ) :
    Honest (iterate step s) := by
  intro c
  induction hn : c.ahead.length using Nat.strongRecOn generalizing s c with
  | _ n ih =>
      subst hn
      intro h
      rw [Parser.iterate] at h ⊢
      split at h
      · rename_i hnone
        simpa [hnone] using hstep s c hnone
      · simp at h
      · rename_i next hsome
        split at h
        · rename_i hlt
          have hlater := ih _ hlt next (step s c).rest rfl h
          simp only [hlt, if_true]
          intro hnil
          exact hlater (List.append_eq_nil_iff.mp hnil).2
        · simp at h

end Honest
end Parser
end Shellward
