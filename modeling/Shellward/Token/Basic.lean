import Shellward.Utf8
import Shellward.Span

/-!
# Tokens

A token is a piece of a script with a kind.  It carries the bytes it was read
from, so whatever follows works on tokens alone.
-/

namespace Shellward

/-- The kinds of token. -/
inductive Token.Kind where
  | invalid
  | eof
  | newLine
  | comment
  | identifier
  | number
  | string
  | pattern
  | atom
  | letWord
  | ifWord
  | elseWord
  | leftParen
  | rightParen
  | leftBrace
  | rightBrace
  | comma
  | assign
  | equal
  | notEqual
  | less
  | lessEqual
  | greater
  | greaterEqual
  | plus
  | minus
  | star
  | slash
  | percent
deriving DecidableEq, Repr, Inhabited

/-- A piece of a script: its kind, where it stands and the bytes it is made of. -/
structure Token where
  kind : Token.Kind
  span : Span
  bytes : Source
deriving DecidableEq, Repr, Inhabited

namespace Token

/-- The words that are not names. -/
def keywords : List (String × Kind) :=
  [("let", .letWord), ("if", .ifWord), ("else", .elseWord)]

/-- The text of a token. -/
def lexeme (t : Token) : String :=
  Utf8.decode t.bytes

/-- The token that marks the end of a script. -/
def endMark (offset : Nat) : Token :=
  ⟨.eof, Span.empty offset, []⟩

/-- Whether a token marks the end of a script. -/
def isEnd (t : Token) : Bool :=
  t.kind == .eof

end Token
end Shellward
