import Shellward.Fault
import Shellward.Token.Cursor

/-!
# Parsers over tokens

A parser moves a cursor and reports problems.  It may fail, which leaves the
cursor where the failure was found; the problems reported before are kept.

Main results:

- Theorems `Parser.bind_of_some` and `Parser.bind_of_none`: a sequence goes on
  after success and stops at a failure, and problems add up in order.
- Theorem `Parser.iterate_eq`: a loop is one round followed by the loop.
-/

namespace Shellward

/-- What a parser leaves behind: its value, unless it failed, the problems it
reported and the place it reached. -/
structure Outcome (α : Type) where
  value : Option α
  problems : List (Problem Span)
  rest : Cursor

/-- A parser for values of type `α`. -/
def Parser (α : Type) : Type :=
  Cursor → Outcome α

namespace Parser

variable {α β σ : Type}

/-- Succeed with a value and take nothing. -/
def succeed (a : α) : Parser α := fun c =>
  ⟨some a, [], c⟩

/-- Run a parser and, if it succeeds, go on with what its value asks for. -/
def andThen (p : Parser α) (f : α → Parser β) : Parser β := fun c =>
  let first := p c
  match first.value with
  | none => ⟨none, first.problems, first.rest⟩
  | some a =>
      let next := f a first.rest
      ⟨next.value, first.problems ++ next.problems, next.rest⟩

instance : Monad Parser where
  pure := succeed
  bind := andThen

/-- Fail for one reason at one place. -/
def fail (fault : Fault) (span : Span) : Parser α := fun c =>
  ⟨none, [⟨fault, span⟩], c⟩

/-- The next token, which stays ahead. -/
def peek : Parser Token := fun c =>
  ⟨some c.peek, [], c⟩

/-- The token after the next one, which stays ahead. -/
def peekNext : Parser Token := fun c =>
  ⟨some c.peekNext, [], c⟩

/-- Take the next token. -/
def take : Parser Token := fun c =>
  ⟨some c.peek, [], c.advance⟩

/-- Take the tokens that satisfy a test, up to the first that does not. -/
def skipWhile (test : Token → Bool) : Parser Unit := fun c =>
  ⟨some (), [], c.skipWhile test⟩

/-- Take the line ends ahead. -/
def skipLineEnds : Parser Unit :=
  skipWhile (·.kind == .newLine)

/-- Take a token of one kind, or fail at the token found instead. -/
def require (kind : Token.Kind) (fault : Found → Fault) : Parser Token := do
  let t ← peek
  if t.kind = kind then take else fail (fault t.found) t.span

/-- Turn failure into the answer `none`; the problems stay reported. -/
def attempt (p : Parser α) : Parser (Option α) := fun c =>
  let outcome := p c
  ⟨some outcome.value, outcome.problems, outcome.rest⟩

/-- Run `step` on a state again and again.  The loop ends when `step` answers
`none`, when it fails, and after a round that takes no token. -/
def iterate (step : σ → Parser (Option σ)) (state : σ) : Parser σ := fun c =>
  let round := step state c
  match round.value with
  | none => ⟨none, round.problems, round.rest⟩
  | some none => ⟨some state, round.problems, round.rest⟩
  | some (some state') =>
      if round.rest.ahead.length < c.ahead.length then
        let next := iterate step state' round.rest
        ⟨next.value, round.problems ++ next.problems, next.rest⟩
      else ⟨some state', round.problems, round.rest⟩
termination_by c => c.ahead.length

/-! ### Sequences -/

theorem bind_eq (p : Parser α) (f : α → Parser β) : (p >>= f) = p.andThen f :=
  rfl

@[simp]
theorem pure_apply (a : α) (c : Cursor) : (pure a : Parser α) c = ⟨some a, [], c⟩ :=
  rfl

@[simp]
theorem fail_apply (fault : Fault) (span : Span) (c : Cursor) :
    (fail fault span : Parser α) c = ⟨none, [⟨fault, span⟩], c⟩ :=
  rfl

@[simp]
theorem peek_apply (c : Cursor) : peek c = ⟨some c.peek, [], c⟩ :=
  rfl

@[simp]
theorem take_apply (c : Cursor) : take c = ⟨some c.peek, [], c.advance⟩ :=
  rfl

/-- After a first part that succeeds, the second part goes on where it left off. -/
theorem bind_of_some {p : Parser α} {c : Cursor} {a : α} (h : (p c).value = some a)
    (f : α → Parser β) :
    (p >>= f) c =
      ⟨(f a (p c).rest).value, (p c).problems ++ (f a (p c).rest).problems,
        (f a (p c).rest).rest⟩ := by
  simp [bind_eq, andThen, h]

/-- A sequence fails where its first part fails, and takes nothing more. -/
theorem bind_of_none {p : Parser α} {c : Cursor} (h : (p c).value = none) (f : α → Parser β) :
    (p >>= f) c = ⟨none, (p c).problems, (p c).rest⟩ := by
  simp [bind_eq, andThen, h]

/-! ### Loops -/

/-- A round that takes a token and asks for more is followed by the loop. -/
theorem iterate_eq {step : σ → Parser (Option σ)} {state next : σ} {c : Cursor}
    (h : (step state c).value = some (some next))
    (hlt : (step state c).rest.ahead.length < c.ahead.length) :
    iterate step state c =
      ⟨(iterate step next (step state c).rest).value,
        (step state c).problems ++ (iterate step next (step state c).rest).problems,
        (iterate step next (step state c).rest).rest⟩ := by
  rw [iterate]
  simp [h, hlt]

end Parser
end Shellward
