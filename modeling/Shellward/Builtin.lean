/-!
# Builtin functions

Some calls are not run as commands under their own name.  An expansion becomes a
parameter expansion of the shell; a command builtin becomes another command.
-/

namespace Shellward

/-- The end of a text at which something is removed. -/
inductive TextEnd where
  | front
  | back
deriving DecidableEq, Repr

/-- The calls that become parameter expansions. -/
inductive Expansion where
  /-- The length of a variable's value. -/
  | length
  /-- The value with a pattern replaced once or everywhere. -/
  | replace (everywhere : Bool)
  /-- The value without a pattern at one end. -/
  | remove (side : TextEnd)
deriving DecidableEq, Repr

namespace Expansion

/-- All expansions. -/
def all : List Expansion :=
  [.length, .replace false, .replace true, .remove .front, .remove .back]

/-- The name by which scripts call an expansion. -/
def name : Expansion → String
  | .length => "len"
  | .replace false => "replace"
  | .replace true => "replace_all"
  | .remove .front => "remove_prefix"
  | .remove .back => "remove_suffix"

/-- The expansion of a given name. -/
def ofName? (name : String) : Option Expansion :=
  all.find? (·.name == name)

/-- The number of arguments: the variable, then the words. -/
def arity : Expansion → Nat
  | .length => 1
  | .replace _ => 3
  | .remove _ => 2

/-- Whether words follow the variable. -/
def takesWords (x : Expansion) : Bool :=
  1 < x.arity

/-- An expansion is found by its name. -/
theorem ofName?_name (x : Expansion) : ofName? x.name = some x := by
  rcases x with _ | b | s
  · decide
  · cases b <;> decide
  · cases s <;> decide

/-- A name stands for the expansion that scripts call by it. -/
theorem ofName?_eq_some_iff {name : String} {x : Expansion} :
    ofName? name = some x ↔ x.name = name := by
  constructor
  · intro h
    have hname := List.find?_some (show all.find? (·.name == name) = some x from h)
    exact beq_iff_eq.mp hname
  · rintro rfl
    exact ofName?_name x

/-- The names of the expansions, and how many arguments each of them takes. -/
theorem exists_arity_iff {name : String} {arguments : Nat} :
    (∃ x, ofName? name = some x ∧ x.arity = arguments) ↔
      (name, arguments) ∈ [("len", 1), ("replace", 3), ("replace_all", 3), ("remove_prefix", 2),
        ("remove_suffix", 2)] := by
  have htable : all.map (fun x => (x.name, x.arity)) =
      [("len", 1), ("replace", 3), ("replace_all", 3), ("remove_prefix", 2),
        ("remove_suffix", 2)] := rfl
  rw [← htable, List.mem_map]
  constructor
  · rintro ⟨x, hname, rfl⟩
    exact ⟨x, List.mem_of_find?_eq_some hname, by rw [ofName?_eq_some_iff.mp hname]⟩
  · rintro ⟨x, _, heq⟩
    cases heq
    exact ⟨x, ofName?_name x, rfl⟩

end Expansion

/-- A call that runs another command than the one it names. -/
structure CommandBuiltin where
  name : String
  command : String
  toStderr : Bool
deriving DecidableEq, Repr

namespace CommandBuiltin

/-- All command builtins. -/
def all : List CommandBuiltin :=
  [⟨"print", "echo", true⟩]

/-- The command builtin of a given name. -/
def ofName? (name : String) : Option CommandBuiltin :=
  all.find? (·.name == name)

end CommandBuiltin
end Shellward
