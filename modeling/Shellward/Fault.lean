import Shellward.Diagnostic
import Shellward.Token.Basic

/-!
# What can be wrong with a script

A fault is the cause of a diagnostic.  Parsing and compiling name causes; the
heading, the wording and the advice of each are settled here.
-/

namespace Shellward

/-- What stands where something else was expected. -/
inductive Found where
  | endOfLine
  | endOfFile
  | text (lexeme : String)
deriving DecidableEq, Repr

/-- The token that was found, as it is told to the reader. -/
def Token.found (t : Token) : Found :=
  match t.kind with
  | .newLine => .endOfLine
  | .eof => .endOfFile
  | _ => .text t.lexeme

/-- The wording of what was found. -/
def Found.phrase : Found → String
  | .endOfLine => "end of line"
  | .endOfFile => "end of file"
  | .text lexeme => "'" ++ lexeme ++ "'"

/-- The parts of a script that end with their line. -/
inductive Clause where
  | comment
  | assignment
  | conditional
  | expression
deriving DecidableEq, Repr

/-- The wording of a clause. -/
def Clause.phrase : Clause → String
  | .comment => "a comment"
  | .assignment => "an assignment"
  | .conditional => "'\x7d'"
  | .expression => "an expression"

/-- The causes of diagnostics. -/
inductive Fault where
  /-- A string that its line does not close. -/
  | unclosedString
  /-- A pattern that its line does not close. -/
  | unclosedPattern
  /-- A pattern with a character that patterns may not hold. -/
  | illegalPattern
  /-- A colon that begins no atom. -/
  | malformedAtom (text : String)
  /-- A name that does not start with a letter. -/
  | malformedName (text : String)
  /-- A number with something else than digits. -/
  | malformedNumber (text : String)
  /-- Bytes that begin no token. -/
  | unrecognized (text : String)
  /-- A line end is missing; `keyword` is a keyword that may have been meant. -/
  | lineEndExpected (after : Clause) (found : Found) (keyword : Option String)
  /-- No name follows `let`. -/
  | nameExpected (found : Found)
  /-- No equals sign follows the name of an assignment. -/
  | assignExpected (name : String) (found : Found)
  /-- An assignment begins with its name. -/
  | letExpected (name : String)
  /-- No statement begins like this. -/
  | statementExpected (found : Found)
  /-- No block is opened. -/
  | blockExpected (found : Found)
  /-- The line of an opening brace goes on. -/
  | blockLineExpected (found : Found)
  /-- A block is not closed. -/
  | blockUnclosed
  /-- Blocks within blocks exceed the limit. -/
  | blockTooDeep
  /-- No expression begins like this. -/
  | expressionExpected (found : Found)
  /-- A group is not closed. -/
  | groupUnclosed (found : Found)
  /-- Expressions within expressions exceed the limit. -/
  | expressionTooDeep
  /-- Arguments follow something else than a name. -/
  | notCallable
  /-- The script ends inside a call. -/
  | callUnclosed (name : String)
  /-- Two arguments of a call are not separated. -/
  | separatorExpected (name : String) (found : Found)
  /-- The value of a builtin is not used. -/
  | valueUnused (name : String)
  /-- A builtin has the wrong number of arguments. -/
  | wrongArity (name : String) (expected found : Nat)
  /-- The first argument of a builtin is not a name. -/
  | variableExpected (name : String)
  /-- An argument of a builtin is not a single word of the shell. -/
  | wordExpected (name : String) (position : Nat)
  /-- No expansion of the shell takes the words of a builtin. -/
  | expansionUnknown (name : String)
deriving DecidableEq, Repr

namespace Fault

/-- The heading of a fault. -/
def title : Fault → Title
  | .unclosedString | .unclosedPattern | .illegalPattern | .malformedAtom _ | .malformedName _
  | .malformedNumber _ | .unrecognized _ => .invalidToken
  | .lineEndExpected .. | .nameExpected _ | .assignExpected .. | .letExpected _ => .invalidStatement
  | .statementExpected _ => .unknownToken
  | .blockExpected _ | .blockLineExpected _ | .blockUnclosed | .blockTooDeep => .invalidBlock
  | .expressionExpected _ | .groupUnclosed _ | .expressionTooDeep | .notCallable | .callUnclosed _
  | .separatorExpected .. => .invalidExpression
  | .valueUnused _ | .wrongArity .. | .variableExpected _ | .wordExpected ..
  | .expansionUnknown _ => .invalidCall

/-- The wording of a fault. -/
def message : Fault → String
  | .unclosedString => "unterminated string literal"
  | .unclosedPattern => "unterminated pattern literal"
  | .illegalPattern => "pattern literals may only contain letters, digits and ! * ? [ - ]"
  | .malformedAtom text =>
      "malformed atom '" ++ text ++ "': atoms may only contain letters, digits and / . _ ( )"
  | .malformedName text => "'" ++ text ++ "' is not a valid name: names must start with a letter"
  | .malformedNumber text => "malformed number '" ++ text ++ "'"
  | .unrecognized text => "unrecognized input '" ++ text ++ "'"
  | .lineEndExpected after found _ =>
      "expected a new line after " ++ after.phrase ++ ", found " ++ found.phrase
  | .nameExpected found => "expected a name after 'let', found " ++ found.phrase
  | .assignExpected name found =>
      "expected '=' after 'let " ++ name ++ "', found " ++ found.phrase
  | .letExpected name => "assignment to '" ++ name ++ "' is missing 'let'"
  | .statementExpected found => found.phrase ++ " is not a valid way to start a statement"
  | .blockExpected found => "expected '\x7b' to open a block, found " ++ found.phrase
  | .blockLineExpected found => "expected a new line after '\x7b', found " ++ found.phrase
  | .blockUnclosed => "this block is never closed"
  | .blockTooDeep => "block nested too deeply"
  | .expressionExpected found => "expected an expression, found " ++ found.phrase
  | .groupUnclosed found => "expected ')' to close the group, found " ++ found.phrase
  | .expressionTooDeep => "expression nested too deeply"
  | .notCallable => "only a name can be called"
  | .callUnclosed name => "missing ')' to close the call to '" ++ name ++ "'"
  | .separatorExpected name found =>
      "expected ',' or ')' in the call to '" ++ name ++ "', found " ++ found.phrase
  | .valueUnused name => name ++ "() produces a value and cannot be used as a statement"
  | .wrongArity name expected found =>
      name ++ "() takes " ++ toString expected ++ " argument" ++
        (if expected = 1 then "" else "s") ++ ", found " ++ toString found
  | .variableExpected name => "the first argument of " ++ name ++ "() must be a variable name"
  | .wordExpected name position =>
      "argument " ++ toString position ++ " of " ++ name ++ "() must be a literal or a command"
  | .expansionUnknown name => name ++ "() cannot be lowered"

/-- The advice that goes with a fault. -/
def help : Fault → Option String
  | .letExpected name => some ("write 'let " ++ name ++ " = ...'")
  | .lineEndExpected _ _ (some keyword) => some ("did you mean '" ++ keyword ++ "'?")
  | _ => none

/-- What is wrong with an invalid token, judged by how its text begins and ends. -/
def ofInvalidLexeme (text : String) : Fault :=
  match text.toList with
  | '\x22' :: _ => .unclosedString
  | '\x27' :: rest => if rest.getLast? = some '\x27' then .illegalPattern else .unclosedPattern
  | ':' :: _ => .malformedAtom text
  | '_' :: _ => .malformedName text
  | c :: _ => if c.isDigit then .malformedNumber text else .unrecognized text
  | [] => .unrecognized text

end Fault

/-- A fault at a place. -/
structure Problem (π : Type) where
  fault : Fault
  place : π
deriving DecidableEq, Repr

namespace Problem

/-- Move a problem to another place. -/
def map {π κ : Type} (f : π → κ) (p : Problem π) : Problem κ :=
  ⟨p.fault, f p.place⟩

/-- The diagnostic of a problem. -/
def diagnostic {π : Type} (p : Problem π) : Diagnostic π :=
  ⟨p.fault.title, p.place, p.fault.message, p.fault.help⟩

end Problem
end Shellward
