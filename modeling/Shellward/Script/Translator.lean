import Shellward.Script.ToShell

/-!
# Translators

A translator expresses scripts in the shell one after another.  It walks through each
script with a state: where it stands, which tells how an operation is written, and the
problems it has found so far.  After each script it is ready for the next one, also after
a script that the shell cannot express.
-/

namespace Shellward

variable {π α : Type}

/-- Where a translator stands. -/
structure Standing where
  /-- The number of operations around, up to the statement or the condition. -/
  depth : Nat
  /-- Whether it is in a condition. -/
  inTest : Bool
  /-- Whether it is in an arithmetic expansion. -/
  inArithmetic : Bool
deriving DecidableEq, Repr

namespace Standing

/-- Outside of all operations and conditions. -/
def outside : Standing :=
  ⟨0, false, false⟩

/-- What an operation is put into; `arithmetic` tells whether it computes a number. -/
def wrapping (arithmetic : Bool) (standing : Standing) : Wrapping :=
  if standing.inArithmetic then .bare
  else
    match standing.inTest, standing.depth with
    | true, 0 => .test
    | false, 0 => .arithmetic
    | true, 1 => if arithmetic then .arithmetic else .bare
    | _, _ => .bare

/-- Where the parts of an operation stand. -/
def inside (arithmetic : Bool) (standing : Standing) : Standing where
  depth := standing.depth + 1
  inTest := standing.inTest
  inArithmetic := standing.inArithmetic || standing.wrapping arithmetic == .arithmetic

/-- Whether variables are quoted. -/
def quotes (standing : Standing) : Bool :=
  standing.inTest && !standing.inArithmetic

/-- The spelling of an operator. -/
def spelling (op : Operator) (standing : Standing) : String :=
  if standing.inArithmetic then op.spelling else op.testSpelling

end Standing

/-- A translator between two steps of its work. -/
structure Translator (π : Type) where
  standing : Standing
  /-- The problems of the script that it works on. -/
  problems : List (Problem π)
deriving DecidableEq, Repr

/-- A translator before its first script. -/
def Translator.start : Translator π :=
  ⟨.outside, []⟩

/-- A step of the work of a translator. -/
abbrev Translate (π α : Type) : Type :=
  StateM (Translator π) α

namespace Translate

/-- Where the translator stands. -/
def standing : Translate π Standing := do
  return (← get).standing

/-- Go to stand somewhere else. -/
def stand (move : Standing → Standing) : Translate π Unit :=
  modify fun t => { t with standing := move t.standing }

/-- Note down the problems of a value. -/
def note (checked : Checked π α) : Translate π α := do
  modify fun t => { t with problems := t.problems ++ checked.problems }
  return checked.value

/-- Write an operation one level deeper and put it into its wrapping. -/
def operation (arithmetic : Bool) (build : Translate π Shell.Expr) : Translate π Shell.Expr := do
  let before ← standing
  stand (·.inside arithmetic)
  let inner ← build
  stand fun s => { s with depth := s.depth - 1, inArithmetic := before.inArithmetic }
  return (before.wrapping arithmetic).apply inner

/-- Write the arguments of a command, which stand outside of what the command is in. -/
def arguments (build : Translate π α) : Translate π α := do
  let before ← standing
  stand fun _ => .outside
  let values ← build
  stand fun _ => before
  return values

/-- Write a condition: what stands between the brackets of its test. -/
def test (build : Translate π Shell.Expr) : Translate π Shell.Expr := do
  stand ({ · with inTest := true })
  let condition ← build
  stand ({ · with inTest := false })
  match condition with
  | .test inner => return inner
  | other => return other

end Translate

namespace Expr

open Translate

mutual

/-- Write an expression in the shell. -/
def translate : Expr π → Translate π Shell.Expr
  | .literal kind text _ => return .text (kind.shellText text)
  | .name text _ => return .value (Text.upper text) (← standing).quotes
  | .call form callee _ values p => do
      let call ←
        match Expansion.ofName? callee with
        | none => do
            let values ← arguments (translateAll values)
            pure (.ofCall callee values)
        | some x =>
            if values.length = x.arity then
              match values with
              | [] => note (Checked.report (.expansionUnknown callee) p .missing)
              | target :: words =>
                  match target.name? with
                  | none => note (Checked.report (.variableExpected callee) target.place .missing)
                  | some parameter => do
                      let words ← translateWords callee 2 words
                      note (x.toShell callee (Text.upper parameter) p words)
            else note (Checked.report (.wrongArity callee x.arity values.length) p .missing)
      return form.apply call
  | .binary op left right _ =>
      operation op.isArithmetic do
        let left ← left.translate
        let spelling := (← standing).spelling op
        let right ← right.translate
        return .binary spelling left right
  | .group inner _ =>
      operation inner.isArithmetic do
        return .group (← inner.translate)
  | .negate inner _ =>
      match inner.number? with
      | some number => return .text ("-" ++ number)
      | none =>
          operation true do
            return .binary "-" (.text "0") (← inner.translate)

/-- Write several expressions. -/
def translateAll : List (Expr π) → Translate π (List Shell.Expr)
  | [] => return []
  | e :: es => do
      let e ← e.translate
      let es ← translateAll es
      return e :: es

/-- Write the words of an expansion from a position on, up to the first argument that is
no word. -/
def translateWords (callee : String) (position : Nat) :
    List (Expr π) → Translate π (Option (List Shell.Expr))
  | [] => return some []
  | e :: es => do
      let word ← e.translate
      if word.isWord then
        let words ← translateWords callee (position + 1) es
        return words.map (word :: ·)
      else note (Checked.report (.wordExpected callee position) e.place none)

end

end Expr

open Translate

mutual

/-- Write a statement in the shell. -/
def Stmt.translate : Stmt π → Translate π Shell.Stmt
  | .comment text _ => return .comment text
  | .blank _ => return .blank
  | .assign target _ value _ => return .assign (Text.upper target) (← value.translate)
  | .run value _ =>
      match value.expansionName? with
      | some callee => note (Checked.report (.valueUnused callee) value.place (.run .missing))
      | none => return .run (← value.translate)
  | .cond condition body _ alternative _ => do
      let condition ← test condition.translate
      let body ← Stmt.translateAll body
      let alternative ← alternative.translate
      return .cond condition body alternative

/-- Write several statements in the shell. -/
def Stmt.translateAll : List (Stmt π) → Translate π (List Shell.Stmt)
  | [] => return []
  | s :: ss => do
      let s ← s.translate
      let ss ← Stmt.translateAll ss
      return s :: ss

/-- Write what follows the body of a conditional in the shell. -/
def Else.translate : Else π → Translate π Shell.Else
  | .absent => return .absent
  | .block body _ => return .block (← Stmt.translateAll body)
  | .elseIf condition body _ rest => do
      let condition ← test condition.translate
      let body ← Stmt.translateAll body
      let rest ← rest.translate
      return .elseIf condition body rest

end

/-- Express a script in the shell, or hand over all problems if there are any. -/
def Translator.express (translator : Translator π) (script : Script π) :
    Except (List (Problem π)) Shell.Script × Translator π :=
  let (statements, translator) := (Stmt.translateAll script.statements).run translator
  if translator.problems.isEmpty then (.ok ⟨statements⟩, translator)
  else (.error translator.problems, { translator with problems := [] })

end Shellward
