import Shellward.Proofs.Acceptance
import Shellward.Proofs.Hereditary

/-!
# Parsers that move forward

A parser takes tokens from the front and never puts one back, whether it succeeds or fails.
So a place that it leaves is later than the one it starts from, among the same tokens.

Main results:

- Theorem `Parser.forward_hereditary`: the combinators keep moving forward.
- Theorem `Parser.Forward.take_bind`: what begins by taking a token leaves a place after it.
-/

namespace Shellward

/-! ### Later places -/

namespace Cursor

/-- Among the same tokens, the second place is that of the first one or a later one. -/
structure Later (c c' : Cursor) : Prop where
  tokens : c'.tokens = c.tokens
  final : c'.final = c.final
  ahead : c'.ahead <:+ c.ahead

namespace Later

variable {c c₁ c₂ : Cursor}

theorem refl (c : Cursor) : c.Later c :=
  ⟨rfl, rfl, List.suffix_rfl⟩

/-- A place later than a later one is later. -/
theorem trans (h : c.Later c₁) (h₁ : c₁.Later c₂) : c.Later c₂ :=
  ⟨h₁.tokens.trans h.tokens, h₁.final.trans h.final, h₁.ahead.trans h.ahead⟩

/-- Moving on leads to a later place. -/
theorem advance (c : Cursor) : c.Later c.advance := by
  refine ⟨c.tokens_advance, c.final_advance, ?_⟩
  unfold Cursor.advance
  split
  · exact List.suffix_rfl
  · rename_i t ts hahead
    split
    · exact List.suffix_rfl
    · rw [hahead]
      exact List.suffix_cons t ts

/-- Skipping leads to a later place. -/
theorem skipWhile (test : Token → Bool) (c : Cursor) : c.Later (c.skipWhile test) :=
  ⟨c.tokens_skipWhile test, rfl, List.dropWhile_suffix test⟩

/-- What is to come at a later place is to come at an earlier one. -/
theorem upcoming (h : c.Later c₁) : c₁.upcoming <:+ c.upcoming := by
  rcases h.ahead with ⟨front, hfront⟩
  exact ⟨front, by rw [Cursor.upcoming, Cursor.upcoming, h.final, ← hfront, List.append_assoc]⟩

/-- No end mark stands among the tokens at a later place, if none does at an earlier one. -/
theorem proper (h : c.Later c₁) (hc : c.Proper) : c₁.Proper :=
  ⟨h.final ▸ hc.final, fun t ht => hc.ahead t (h.ahead.mem ht)⟩

end Later
end Cursor

/-! ### Parsers -/

namespace Parser

variable {α β σ : Type} {p : Parser α} {f : α → Parser β}

/-- A parser that never goes back. -/
def Forward (p : Parser α) : Prop :=
  ∀ c : Cursor, c.Later (p c).rest

namespace Forward

/-- A sequence of parsers that never go back never goes back. -/
theorem bind (hp : Forward p) (hf : ∀ a, Forward (f a)) : Forward (p >>= f) := by
  intro c
  cases hvalue : (p c).value with
  | none =>
      rw [bind_of_none hvalue]
      exact hp c
  | some a =>
      rw [bind_of_some hvalue]
      exact (hp c).trans (hf a _)

/-- A loop never goes back if its rounds do not. -/
theorem iterate {step : σ → Parser (Option σ)} (hstep : ∀ s, Forward (step s)) (s : σ) :
    Forward (Parser.iterate step s) := by
  intro c
  induction hn : c.ahead.length using Nat.strongRecOn generalizing s c with
  | _ n ih =>
      subst hn
      rw [Parser.iterate]
      split
      · exact hstep s c
      · exact hstep s c
      · rename_i s' _
        split
        · rename_i hlt
          exact (hstep s c).trans (ih _ hlt s' _ rfl)
        · exact hstep s c

/-- What begins by taking a token leaves a place after it. -/
theorem take_bind {f : Token → Parser β} (hf : ∀ t, Forward (f t)) (c : Cursor) :
    c.advance.Later ((take >>= f) c).rest := by
  have htake : (take c).value = some c.peek := rfl
  rw [bind_of_some htake]
  exact hf c.peek c.advance

end Forward

/-- The combinators make no parser that goes back. -/
theorem forward_hereditary : Hereditary @Forward where
  pure _ c := .refl c
  fail _ _ c := .refl c
  peek c := .refl c
  peekNext c := .refl c
  take c := .advance c
  skipWhile test c := .skipWhile test c
  bind := Forward.bind
  attempt hp c := hp c
  iterate := Forward.iterate

end Parser
end Shellward
