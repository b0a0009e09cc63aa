import Shellward.Builtin

/-!
# Shell scripts

The tree of a shell script: words, commands, tests and expansions.  It has no
places, for nothing can go wrong with it any more.
-/

namespace Shellward
namespace Shell

/-- A redirection of one file descriptor, standard output by default, to another. -/
structure Redirect where
  source : Option Nat
  target : Nat
deriving DecidableEq, Repr

/-- The redirection of standard output to standard error. -/
def Redirect.toStderr : Redirect :=
  ⟨none, 2⟩

/-- Shell expressions. -/
inductive Expr where
  /-- Text as it is written. -/
  | text (text : String)
  /-- The value of a variable, in double quotes if `quoted`. -/
  | value (name : String) (quoted : Bool)
  /-- A command with its arguments and redirections. -/
  | command (name : String) (arguments : List Expr) (redirects : List Redirect)
  | binary (operator : String) (left right : Expr)
  | group (inner : Expr)
  /-- An arithmetic expansion. -/
  | arithmetic (inner : Expr)
  /-- A test command. -/
  | test (inner : Expr)
  /-- A command substitution. -/
  | substitution (inner : Expr)
  /-- The length of a variable's value. -/
  | length (name : String)
  /-- The value of a variable with a pattern replaced once or everywhere. -/
  | replace (name : String) (everywhere : Bool) (pattern replacement : Expr)
  /-- The value of a variable without a pattern at one end. -/
  | remove (name : String) (side : TextEnd) (pattern : Expr)
deriving Repr

mutual

/-- Shell statements; the test of a conditional is what stands between the brackets. -/
inductive Stmt where
  | comment (text : String)
  | blank
  | assign (target : String) (value : Expr)
  | run (value : Expr)
  | cond (test : Expr) (body : List Stmt) (alternative : Else)

/-- What follows the body of a conditional. -/
inductive Else where
  | absent
  | block (body : List Stmt)
  | elseIf (test : Expr) (body : List Stmt) (rest : Else)

end

/-- A shell script is a list of statements. -/
structure Script where
  statements : List Stmt

/-- The alternatives that try tests in order and end in `last`. -/
def Else.ofBranches (last : Else) : List (Expr × List Stmt) → Else
  | [] => last
  | (test, body) :: rest => .elseIf test body (Else.ofBranches last rest)

end Shell
end Shellward
