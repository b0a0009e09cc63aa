import Shellward.Token.Basic

/-!
# Binary operators

Comparisons and arithmetic, how they are spelt in scripts and in the shell, and
how strongly they bind.
-/

namespace Shellward

/-- The binary operators. -/
inductive Operator where
  | equal
  | notEqual
  | less
  | lessEqual
  | greater
  | greaterEqual
  | add
  | subtract
  | multiply
  | divide
  | remainder
deriving DecidableEq, Repr

namespace Operator

/-- All operators. -/
def all : List Operator :=
  [.equal, .notEqual, .less, .lessEqual, .greater, .greaterEqual, .add, .subtract, .multiply,
    .divide, .remainder]

/-- The operator that a token stands for. -/
def ofKind? : Token.Kind → Option Operator
  | .equal => some .equal
  | .notEqual => some .notEqual
  | .less => some .less
  | .lessEqual => some .lessEqual
  | .greater => some .greater
  | .greaterEqual => some .greaterEqual
  | .plus => some .add
  | .minus => some .subtract
  | .star => some .multiply
  | .slash => some .divide
  | .percent => some .remainder
  | _ => none

/-- The spelling of an operator in scripts, which shell arithmetic shares. -/
def spelling : Operator → String
  | .equal => "=="
  | .notEqual => "!="
  | .less => "<"
  | .lessEqual => "<="
  | .greater => ">"
  | .greaterEqual => ">="
  | .add => "+"
  | .subtract => "-"
  | .multiply => "*"
  | .divide => "/"
  | .remainder => "%"

/-- The operator with a given spelling. -/
def ofSpelling? (text : String) : Option Operator :=
  all.find? (·.spelling == text)

/-- The spelling of an operator in a shell test. -/
def testSpelling : Operator → String
  | .equal => "="
  | .notEqual => "!="
  | .less => "-lt"
  | .lessEqual => "-le"
  | .greater => "-gt"
  | .greaterEqual => "-ge"
  | op => op.spelling

/-- Whether an operator computes a number rather than compares. -/
def isArithmetic : Operator → Bool
  | .add | .subtract | .multiply | .divide | .remainder => true
  | _ => false

/-- How strongly an operator binds its operands. -/
def strength : Operator → Nat
  | .equal | .notEqual => 1
  | .less | .lessEqual | .greater | .greaterEqual => 2
  | .add | .subtract => 3
  | .multiply | .divide | .remainder => 4

/-- The strength below that of every operator. -/
def loosest : Nat := 0

/-- The strength of a minus sign in front of its operand, above that of every operator. -/
def negationStrength : Nat := 5

/-- The list of all operators misses none. -/
theorem mem_all (op : Operator) : op ∈ all := by
  cases op <;> decide

/-- How the operators are spelt in scripts, and how they are spelt in tests. -/
theorem exists_spellings_iff {script test : String} :
    (∃ op : Operator, op.spelling = script ∧ op.testSpelling = test) ↔
      (script, test) ∈ [("==", "="), ("!=", "!="), ("<", "-lt"), ("<=", "-le"), (">", "-gt"),
        (">=", "-ge"), ("+", "+"), ("-", "-"), ("*", "*"), ("/", "/"), ("%", "%")] := by
  have htable : all.map (fun op => (op.spelling, op.testSpelling)) =
      [("==", "="), ("!=", "!="), ("<", "-lt"), ("<=", "-le"), (">", "-gt"), (">=", "-ge"),
        ("+", "+"), ("-", "-"), ("*", "*"), ("/", "/"), ("%", "%")] := rfl
  rw [← htable, List.mem_map]
  constructor
  · rintro ⟨op, rfl, rfl⟩
    exact ⟨op, mem_all op, rfl⟩
  · rintro ⟨op, _, heq⟩
    cases heq
    exact ⟨op, rfl, rfl⟩

/-- Two operators are spelt alike only if they are the same. -/
theorem ofSpelling?_spelling (op : Operator) : ofSpelling? op.spelling = some op := by
  cases op <;> decide

end Operator
end Shellward
