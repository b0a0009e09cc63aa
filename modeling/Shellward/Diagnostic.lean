import Shellward.LineMap

/-!
# Diagnostics

A diagnostic tells what is wrong at a place of a script.  The place is a
parameter, so that what is said can be compared apart from where it is said.
-/

namespace Shellward

/-- The headings of diagnostics. -/
inductive Title where
  | invalidStatement
  | invalidExpression
  | invalidBlock
  | invalidToken
  | unknownToken
  | invalidCall
deriving DecidableEq, Repr

/-- All headings. -/
def Title.all : List Title :=
  [.invalidStatement, .invalidExpression, .invalidBlock, .invalidToken, .unknownToken, .invalidCall]

/-- The text of a heading. -/
def Title.text : Title → String
  | .invalidStatement => "INVALID STATEMENT"
  | .invalidExpression => "INVALID EXPRESSION"
  | .invalidBlock => "INVALID BLOCK"
  | .invalidToken => "INVALID TOKEN"
  | .unknownToken => "UNKNOWN TOKEN"
  | .invalidCall => "INVALID CALL"

/-- The heading with a given text. -/
def Title.ofText? (text : String) : Option Title :=
  Title.all.find? (·.text == text)

/-- What is wrong at a place of type `π`, with an optional piece of advice. -/
structure Diagnostic (π : Type) where
  title : Title
  place : π
  message : String
  help : Option String
deriving DecidableEq, Repr

namespace Diagnostic

/-- Move a diagnostic to another place. -/
def map {π κ : Type} (f : π → κ) (d : Diagnostic π) : Diagnostic κ :=
  ⟨d.title, f d.place, d.message, d.help⟩

/-- The heading and the message on one line. -/
def summary {π : Type} (d : Diagnostic π) : String :=
  d.title.text ++ ": " ++ d.message

/-- The line and column of a diagnostic. -/
def position (d : Diagnostic Span) (m : LineMap) : Nat × Nat :=
  m.position d.place.start

/-- The summary after its line and column, and the advice on a line of its own. -/
def render (d : Diagnostic Span) (m : LineMap) : String :=
  let (line, column) := d.position m
  let head := toString line ++ ":" ++ toString column ++ ": " ++ d.summary
  match d.help with
  | some help => head ++ "\nhelp: " ++ help
  | none => head

end Diagnostic
end Shellward
