import Shellward.Token.Basic

/-!
# A cursor over tokens

A cursor stands between the tokens already taken and those still ahead.  The
end mark is kept apart: it is what the cursor sees when nothing is ahead, and it
is never taken.

Main results:

- Theorem `Cursor.tokens_advance`: moving on keeps the tokens of the script.
- Theorem `Cursor.tokens_skipWhile`: so does skipping tokens.
-/

namespace Shellward

/-- A place among the tokens of a script. -/
structure Cursor where
  /-- The tokens taken, the latest first. -/
  past : List Token
  /-- The tokens still to come. -/
  ahead : List Token
  /-- The end mark. -/
  final : Token
deriving DecidableEq, Repr

namespace Cursor

/-- The cursor before the first of some tokens.  If no end mark closes them, one
is set where the last token stops. -/
def ofTokens (tokens : List Token) : Cursor :=
  match tokens.getLast? with
  | none => ⟨[], [], Token.endMark 0⟩
  | some t => if t.isEnd then ⟨[], tokens.dropLast, t⟩ else ⟨[], tokens, Token.endMark t.span.stop⟩

/-- The next token. -/
def peek (c : Cursor) : Token :=
  c.ahead.headD c.final

/-- The token after the next one. -/
def peekNext (c : Cursor) : Token :=
  c.ahead.tail.headD c.final

/-- The number of tokens taken. -/
def position (c : Cursor) : Nat :=
  c.past.length

/-- The span of the token taken last; at the beginning, the empty span there. -/
def previousSpan (c : Cursor) : Span :=
  match c.past with
  | [] => Span.empty 0
  | t :: _ => t.span

/-- Move past the next token; an end mark stays ahead. -/
def advance (c : Cursor) : Cursor :=
  match c.ahead with
  | [] => c
  | t :: ts => if t.isEnd then c else { c with past := t :: c.past, ahead := ts }

/-- Move past the tokens that satisfy a test. -/
def skipWhile (test : Token → Bool) (c : Cursor) : Cursor :=
  { c with
    past := (c.ahead.takeWhile test).reverse ++ c.past
    ahead := c.ahead.dropWhile test }

/-- The tokens of the script, the end mark apart. -/
def tokens (c : Cursor) : List Token :=
  c.past.reverse ++ c.ahead

/-! ### What moving keeps -/

/-- Moving on keeps the tokens of the script. -/
@[simp]
theorem tokens_advance (c : Cursor) : c.advance.tokens = c.tokens := by
  unfold advance
  split
  · rfl
  · rename_i t ts h
    split <;> simp [tokens, h]

/-- Moving on keeps the end mark. -/
@[simp]
theorem final_advance (c : Cursor) : c.advance.final = c.final := by
  unfold advance
  split
  · rfl
  · split <;> rfl

/-- Skipping keeps the tokens of the script. -/
@[simp]
theorem tokens_skipWhile (test : Token → Bool) (c : Cursor) :
    (c.skipWhile test).tokens = c.tokens := by
  simp [tokens, skipWhile]

end Cursor
end Shellward
