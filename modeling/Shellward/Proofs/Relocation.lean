import Mathlib.Data.List.Forall2
import Shellward.Token.Parser

/-!
# Tokens that differ in their places

A parser looks at the kinds and the texts of tokens, and carries their spans along.  So
from tokens that are alike but for their spans, two runs of a parser go the same way,
and what they give is alike but for the places.  Parsers that keep this are said to move
along with a function on spans; the combinators keep it.

Main results:

- Theorem `Parser.Moves.bind`: a sequence moves along if its parts do.
- Theorem `Parser.Moves.iterate`: a loop moves along if its rounds do.
-/

namespace Shellward

variable {f : Span → Span}

/-! ### Tokens and cursors -/

/-- Two tokens of one kind, the second of which stands where `f` moves the first.  They
have the same text, unless they are line ends, whose text is never told. -/
structure Token.Moved (f : Span → Span) (t u : Token) : Prop where
  kind : u.kind = t.kind
  span : u.span = f t.span
  lexeme : t.kind ≠ .newLine → u.lexeme = t.lexeme

/-- A moved token is told of like the token. -/
theorem Token.Moved.found {t u : Token} (h : Moved f t u) : u.found = t.found := by
  unfold Token.found
  rw [h.kind]
  by_cases hline : t.kind = .newLine
  · rw [hline]
  · rw [h.lexeme hline]

/-- An end mark stays one when it is moved. -/
theorem Token.Moved.isEnd {t u : Token} (h : Moved f t u) : u.isEnd = t.isEnd := by
  rw [Token.isEnd, h.kind, Token.isEnd]

/-- The first of some tokens is moved with them. -/
theorem Token.Moved.headD {ts us : List Token} {t u : Token}
    (h : List.Forall₂ (Token.Moved f) ts us) (htu : Token.Moved f t u) :
    Token.Moved f (ts.headD t) (us.headD u) := by
  cases h with
  | nil => exact htu
  | cons hhead _ => exact hhead

namespace Cursor

/-- The tokens ahead of two cursors are alike but for their places. -/
structure Moved (f : Span → Span) (c d : Cursor) : Prop where
  ahead : List.Forall₂ (Token.Moved f) c.ahead d.ahead
  final : Token.Moved f c.final d.final

namespace Moved

variable {c d : Cursor}

/-- As many tokens are ahead of a moved cursor. -/
theorem length_ahead (h : Moved f c d) : d.ahead.length = c.ahead.length :=
  h.ahead.length_eq.symm

/-- The next token is moved with the cursor. -/
theorem peek (h : Moved f c d) : Token.Moved f c.peek d.peek :=
  Token.Moved.headD h.ahead h.final

/-- The token after the next one is moved with the cursor. -/
theorem peekNext (h : Moved f c d) : Token.Moved f c.peekNext d.peekNext := by
  apply Token.Moved.headD _ h.final
  have hahead := h.ahead
  generalize c.ahead = ts, d.ahead = us at hahead
  cases hahead with
  | nil => exact .nil
  | cons _ htail => exact htail

/-- Moving on keeps cursors alike. -/
theorem advance (h : Moved f c d) : Moved f c.advance d.advance := by
  have hahead := h.ahead
  unfold Cursor.advance
  cases hc : c.ahead with
  | nil =>
      rw [hc, List.forall₂_nil_left_iff] at hahead
      rw [hahead]
      exact h
  | cons t ts =>
      rw [hc] at hahead
      rcases List.forall₂_cons_left_iff.mp hahead with ⟨u, us, htoken, htokens, hd⟩
      rw [hd]
      simp only [htoken.isEnd]
      split
      · exact h
      · exact ⟨htokens, h.final⟩

/-- A test that looks at kinds passes over the same tokens. -/
theorem skipWhile (h : Moved f c d) {test : Token → Bool}
    (htest : ∀ {t u : Token}, u.kind = t.kind → test u = test t) :
    Moved f (c.skipWhile test) (d.skipWhile test) := by
  refine ⟨?_, h.final⟩
  have hahead := h.ahead
  simp only [Cursor.skipWhile]
  generalize c.ahead = ts, d.ahead = us at hahead
  induction hahead with
  | nil => exact .nil
  | @cons t u ts us htoken htokens ih =>
      rw [List.dropWhile_cons, List.dropWhile_cons, htest htoken.kind]
      split
      · exact ih
      · exact .cons htoken htokens

end Moved
end Cursor

/-! ### Parsers -/

variable {α β γ δ σ τ : Type}

/-- What two runs leave behind is alike: their values are related, the problems are the
same at other places, and so are the tokens still ahead. -/
structure Outcome.Moved (f : Span → Span) (R : α → β → Prop) (o : Outcome α)
    (o' : Outcome β) : Prop where
  value : Option.Rel R o.value o'.value
  problems : o'.problems = o.problems.map (Problem.map f)
  rest : Cursor.Moved f o.rest o'.rest

namespace Parser

/-- Two parsers do alike on tokens that are alike. -/
def Moves (f : Span → Span) (R : α → β → Prop) (p : Parser α) (q : Parser β) : Prop :=
  ∀ ⦃c d : Cursor⦄, Cursor.Moved f c d → Outcome.Moved f R (p c) (q d)

/-- The same for cursors whose next tokens are known. -/
def MovesAt (f : Span → Span) (t u : Token) (R : α → β → Prop) (p : Parser α)
    (q : Parser β) : Prop :=
  ∀ ⦃c d : Cursor⦄, Cursor.Moved f c d → c.peek = t → d.peek = u →
    Outcome.Moved f R (p c) (q d)

namespace Moves

variable {R : α → β → Prop} {S : γ → δ → Prop}

/-- Parsers that do alike do so whatever the next tokens are. -/
theorem at_tokens {p : Parser α} {q : Parser β} (h : Moves f R p q) (t u : Token) :
    MovesAt f t u R p q :=
  fun _ _ hcd _ _ => h hcd

/-- Values that are related are given alike. -/
theorem pure {a : α} {b : β} (h : R a b) :
    Moves f R (Pure.pure a : Parser α) (Pure.pure b : Parser β) :=
  fun _ _ hcd => ⟨.some h, rfl, hcd⟩

/-- Failures at moved places are alike. -/
theorem fail {fault : Fault} {s s' : Span} (h : s' = f s) :
    Moves f R (Parser.fail fault s) (Parser.fail fault s') :=
  fun _ _ hcd => ⟨.none, by rw [h]; rfl, hcd⟩

theorem peek : Moves f (Token.Moved f) Parser.peek Parser.peek :=
  fun _ _ hcd => ⟨.some hcd.peek, rfl, hcd⟩

theorem peekNext : Moves f (Token.Moved f) Parser.peekNext Parser.peekNext :=
  fun _ _ hcd => ⟨.some hcd.peekNext, rfl, hcd⟩

theorem take : Moves f (Token.Moved f) Parser.take Parser.take :=
  fun _ _ hcd => ⟨.some hcd.peek, rfl, hcd.advance⟩

/-- Tokens of the same kinds are skipped. -/
theorem skipWhile {test : Token → Bool}
    (htest : ∀ {t u : Token}, u.kind = t.kind → test u = test t) :
    Moves f (fun _ _ => True) (Parser.skipWhile test) (Parser.skipWhile test) :=
  fun _ _ hcd => ⟨.some trivial, rfl, hcd.skipWhile htest⟩

theorem skipLineEnds :
    Moves f (fun _ _ => True) Parser.skipLineEnds Parser.skipLineEnds :=
  skipWhile fun hkind => by rw [hkind]

/-- A sequence moves along if its parts do. -/
theorem bind {p : Parser α} {q : Parser β} {g : α → Parser γ} {k : β → Parser δ}
    (hp : Moves f R p q) (hg : ∀ a b, R a b → Moves f S (g a) (k b)) :
    Moves f S (p >>= g) (q >>= k) := by
  intro c d hcd
  rcases hp hcd with ⟨hvalue, hproblems, hrest⟩
  generalize ha : (p c).value = x, hb : (q d).value = y at hvalue
  cases hvalue with
  | none =>
      rw [bind_of_none ha, bind_of_none hb]
      exact ⟨.none, hproblems, hrest⟩
  | @some a b hab =>
      rcases hg a b hab hrest with ⟨hvalue, hproblems', hrest'⟩
      rw [bind_of_some ha, bind_of_some hb]
      exact ⟨hvalue, by rw [hproblems, hproblems', List.map_append], hrest'⟩

/-- Tokens that are looked at stay the next ones. -/
theorem look {g : Token → Parser γ} {k : Token → Parser δ}
    (h : ∀ t u, Token.Moved f t u → MovesAt f t u S (g t) (k u)) :
    Moves f S (Parser.peek >>= g) (Parser.peek >>= k) := by
  intro c d hcd
  have hpeek : ∀ c : Cursor, (Parser.peek c).value = some c.peek := fun _ => rfl
  rw [bind_of_some (hpeek c), bind_of_some (hpeek d)]
  exact h c.peek d.peek hcd.peek hcd rfl rfl

/-- Values that are computed from related ones are related. -/
theorem map {p : Parser α} {q : Parser β} {g : α → γ} {k : β → δ} (hp : Moves f R p q)
    (hg : ∀ a b, R a b → S (g a) (k b)) : Moves f S (g <$> p) (k <$> q) :=
  hp.bind fun a b hab => .pure (hg a b hab)

/-- A token that is asked for is taken from both, or from neither. -/
theorem require (kind : Token.Kind) (fault : Found → Fault) :
    Moves f (Token.Moved f) (Parser.require kind fault) (Parser.require kind fault) := by
  apply peek.bind
  intro t u htu
  rw [htu.kind, htu.found]
  split
  · exact take
  · exact .fail htu.span

/-- Attempts of parsers that do alike do alike. -/
theorem attempt {p : Parser α} {q : Parser β} (hp : Moves f R p q) :
    Moves f (Option.Rel R) (Parser.attempt p) (Parser.attempt q) := by
  intro c d hcd
  rcases hp hcd with ⟨hvalue, hproblems, hrest⟩
  exact ⟨.some hvalue, hproblems, hrest⟩

/-- A loop moves along if its rounds do, from related states to related states. -/
theorem iterate {R : σ → τ → Prop} {step : σ → Parser (Option σ)}
    {step' : τ → Parser (Option τ)}
    (hstep : ∀ s s', R s s' → Moves f (Option.Rel R) (step s) (step' s'))
    {s : σ} {s' : τ} (hs : R s s') :
    Moves f R (Parser.iterate step s) (Parser.iterate step' s') := by
  intro c d hcd
  induction hn : c.ahead.length using Nat.strongRecOn generalizing s s' c d with
  | _ n ih =>
      subst hn
      rcases hstep s s' hs hcd with ⟨hvalue, hproblems, hrest⟩
      rw [Parser.iterate, Parser.iterate]
      generalize (step s c).value = x, (step' s' d).value = y at hvalue
      cases hvalue with
      | none => exact ⟨.none, hproblems, hrest⟩
      | some hnext =>
          cases hnext with
          | none => exact ⟨.some hs, hproblems, hrest⟩
          | some hnext =>
              simp only [hrest.length_ahead, hcd.length_ahead]
              split
              · rename_i hlt
                rcases ih _ hlt hnext hrest rfl with ⟨hvalue, hproblems', hrest'⟩
                exact ⟨hvalue, by rw [hproblems, hproblems', List.map_append], hrest'⟩
              · exact ⟨.some hnext, hproblems, hrest⟩

end Moves

/-- The tokens taken are the next ones. -/
theorem MovesAt.take {t u : Token} {R : Token → Token → Prop} (h : R t u) :
    MovesAt f t u R Parser.take Parser.take := by
  intro c d hcd hc hd
  refine ⟨.some ?_, rfl, hcd.advance⟩
  rw [hc, hd]
  exact h

/-- After the next tokens are taken, the sequence goes on with them. -/
theorem MovesAt.take_bind {t u : Token} {S : γ → δ → Prop} {g : Token → Parser γ}
    {k : Token → Parser δ} (h : Moves f S (g t) (k u)) :
    MovesAt f t u S (Parser.take >>= g) (Parser.take >>= k) := by
  intro c d hcd hc hd
  have htake : ∀ c : Cursor, (Parser.take c).value = some c.peek := fun _ => rfl
  rw [bind_of_some (htake c), bind_of_some (htake d), hc, hd]
  exact h hcd.advance

end Parser
end Shellward
