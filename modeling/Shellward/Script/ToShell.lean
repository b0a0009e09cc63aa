import Shellward.Checked
import Shellward.Script.Basic
import Shellward.Script.Context
import Shellward.Text

/-!
# From scripts to shell scripts

Each expression of a script becomes a shell expression that fits the context it
stands in, and each statement a shell statement.  Builtins that are called in a
way the shell cannot express are reported, all of them at once.
-/

namespace Shellward

variable {π : Type}

/-- The expression that stands for one that could not be made. -/
def Shell.Expr.missing : Shell.Expr :=
  .text ""

/-- Whether an expression is a single word of the shell. -/
def Shell.Expr.isWord : Shell.Expr → Bool
  | .text _ | .substitution _ | .length _ | .replace .. | .remove .. => true
  | _ => false

/-- The text of a literal in the shell: patterns lose their quotes, and atoms
are quoted instead of having a colon. -/
def Literal.shellText (text : String) : Literal → String
  | .string | .number => text
  | .pattern => Text.trim (· == '\x27') text
  | .atom => "\"" ++ Text.trimStart (· == ':') text ++ "\""

/-- The command that a call runs. -/
def Shell.Expr.ofCall (callee : String) (arguments : List Shell.Expr) : Shell.Expr :=
  match CommandBuiltin.ofName? callee with
  | some b => .command b.command arguments (if b.toStderr then [.toStderr] else [])
  | none => .command callee arguments []

/-- The expansion of a variable with the words that it takes, if there are enough. -/
def Expansion.ofWords? (name : String) : Expansion → List Shell.Expr → Option Shell.Expr
  | .length, _ => some (.length name)
  | .replace everywhere, pattern :: replacement :: _ =>
      some (.replace name everywhere pattern replacement)
  | .remove side, pattern :: _ => some (.remove name side pattern)
  | _, _ => none

/-- The expansion of a variable that a call at a place asks for.  Words that could
not be made are reported already. -/
def Expansion.toShell (callee name : String) (place : π) (x : Expansion) :
    Option (List Shell.Expr) → Checked π Shell.Expr
  | none => pure .missing
  | some words =>
      match x.ofWords? name words with
      | some expansion => pure expansion
      | none => Checked.report (.expansionUnknown callee) place .missing

/-- The value of a call: what it expands to, or its output if it is nested. -/
def CallForm.apply (call : Shell.Expr) : CallForm → Shell.Expr
  | .plain => call
  | .nested _ => .substitution call

namespace Expr

/-- The name of an expression that is a name. -/
def name? : Expr π → Option String
  | .name text _ => some text
  | _ => none

/-- The number of an expression that is a number literal. -/
def number? : Expr π → Option String
  | .literal .number text _ => some text
  | _ => none

/-- The name of the expansion that an expression calls as it is written. -/
def expansionName? : Expr π → Option String
  | .call .plain callee _ _ _ => if (Expansion.ofName? callee).isSome then some callee else none
  | _ => none

mutual

/-- The shell expression for an expression that stands in a context.  The words
of an expansion stand where the expansion stands; the arguments of a command are
values of their own. -/
def toShell (context : Context) : Expr π → Checked π Shell.Expr
  | .literal kind text _ => pure (.text (kind.shellText text))
  | .name text _ => pure (.value (Text.upper text) context.quotes)
  | .call form callee _ arguments p => do
      let call ←
        match Expansion.ofName? callee with
        | none => do
            let arguments ← allToShell arguments
            pure (.ofCall callee arguments)
        | some x =>
            if arguments.length = x.arity then
              match arguments with
              | [] => Checked.report (.expansionUnknown callee) p .missing
              | target :: words =>
                  match target.name? with
                  | none => Checked.report (.variableExpected callee) target.place .missing
                  | some parameter => do
                      let words ← wordsToShell context callee 2 words
                      x.toShell callee (Text.upper parameter) p words
            else Checked.report (.wrongArity callee x.arity arguments.length) p .missing
      pure (form.apply call)
  | .binary op left right _ => do
      let inside := context.inside op.isArithmetic
      let left ← left.toShell inside
      let right ← right.toShell inside
      pure ((context.wrapping op.isArithmetic).apply (.binary (inside.spelling op) left right))
  | .group inner _ => do
      let body ← inner.toShell (context.inside inner.isArithmetic)
      pure ((context.wrapping inner.isArithmetic).apply (.group body))
  | .negate inner _ =>
      match inner.number? with
      | some number => pure (.text ("-" ++ number))
      | none => do
          let body ← inner.toShell (context.inside true)
          pure ((context.wrapping true).apply (.binary "-" (.text "0") body))

/-- The shell expressions for the arguments of a command. -/
def allToShell : List (Expr π) → Checked π (List Shell.Expr)
  | [] => pure []
  | e :: es => do
      let e ← e.toShell .value
      let es ← allToShell es
      pure (e :: es)

/-- The words of an expansion from a position on, up to the first argument that
is no word, which is reported. -/
def wordsToShell (context : Context) (callee : String) (position : Nat) :
    List (Expr π) → Checked π (Option (List Shell.Expr))
  | [] => pure (some [])
  | e :: es => do
      let word ← e.toShell context
      if word.isWord then
        let words ← wordsToShell context callee (position + 1) es
        pure (words.map (word :: ·))
      else Checked.report (.wordExpected callee position) e.place none

end

/-- The shell expression between the brackets of a test for a condition. -/
def testToShell (e : Expr π) : Checked π Shell.Expr := do
  match ← e.toShell .condition with
  | .test inner => pure inner
  | other => pure other

end Expr

mutual

/-- The shell statement for a statement. -/
def Stmt.toShell : Stmt π → Checked π Shell.Stmt
  | .comment text _ => pure (.comment text)
  | .blank _ => pure .blank
  | .assign target _ value _ => do
      let value ← value.toShell .value
      pure (.assign (Text.upper target) value)
  | .run value _ =>
      match value.expansionName? with
      | some callee => Checked.report (.valueUnused callee) value.place (.run .missing)
      | none => do
          let value ← value.toShell .value
          pure (.run value)
  | .cond test body _ alternative _ => do
      let test ← test.testToShell
      let body ← Stmt.allToShell body
      let alternative ← alternative.toShell
      pure (.cond test body alternative)

/-- The shell statements for several statements. -/
def Stmt.allToShell : List (Stmt π) → Checked π (List Shell.Stmt)
  | [] => pure []
  | s :: ss => do
      let s ← s.toShell
      let ss ← Stmt.allToShell ss
      pure (s :: ss)

/-- What follows the body of a conditional in the shell. -/
def Else.toShell : Else π → Checked π Shell.Else
  | .absent => pure .absent
  | .block body _ => do
      let body ← Stmt.allToShell body
      pure (.block body)
  | .elseIf test body _ rest => do
      let test ← test.testToShell
      let body ← Stmt.allToShell body
      let rest ← rest.toShell
      pure (.elseIf test body rest)

end

namespace Script

/-- The shell script for a script, or all problems if there are any. -/
def toShell (s : Script π) : Except (List (Problem π)) Shell.Script :=
  let checked := Stmt.allToShell s.statements
  if checked.problems.isEmpty then .ok ⟨checked.value⟩ else .error checked.problems

end Script
end Shellward
