import Shellward.Operator
import Shellward.Shell.Basic

/-!
# Where an expression stands

How an operation is written in the shell depends on where it stands: it is an
arithmetic expansion in value position, a test command as a condition, and bare
inside either.  In a condition, arithmetic gets an expansion of its own only as
a direct part of the condition.
-/

namespace Shellward

/-- Where an expression stands. -/
inductive Context where
  /-- A value: the right side of an assignment, an argument or a statement. -/
  | value
  /-- A whole condition. -/
  | condition
  /-- A direct part of a condition. -/
  | operand
  /-- A deeper part of a condition. -/
  | part
  /-- Inside an arithmetic expansion. -/
  | arithmetic
deriving DecidableEq, Repr

/-- What an operation is put into. -/
inductive Wrapping where
  | test
  | arithmetic
  | bare
deriving DecidableEq, Repr

/-- Put an expression into its wrapping. -/
def Wrapping.apply (inner : Shell.Expr) : Wrapping → Shell.Expr
  | .test => .test inner
  | .arithmetic => .arithmetic inner
  | .bare => inner

namespace Context

/-- What an operation is put into; `arithmetic` tells whether it computes a number. -/
def wrapping : Context → (arithmetic : Bool) → Wrapping
  | .value, _ => .arithmetic
  | .condition, _ => .test
  | .operand, true => .arithmetic
  | .operand, false => .bare
  | .part, _ => .bare
  | .arithmetic, _ => .bare

/-- Where the parts of an operation stand. -/
def inside : Context → (arithmetic : Bool) → Context
  | .value, _ => .arithmetic
  | .condition, _ => .operand
  | .operand, true => .arithmetic
  | .operand, false => .part
  | .part, _ => .part
  | .arithmetic, _ => .arithmetic

/-- Whether variables are quoted: in the parts of a test, where a value must stay one word. -/
def quotes : Context → Bool
  | .condition | .operand | .part => true
  | .value | .arithmetic => false

/-- The spelling of an operator whose operands stand in a context. -/
def spelling (op : Operator) : Context → String
  | .arithmetic => op.spelling
  | _ => op.testSpelling

end Context

end Shellward
