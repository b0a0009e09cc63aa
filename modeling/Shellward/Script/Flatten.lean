import Shellward.Script.Basic
import Shellward.Builtin

/-!
# Flattening

The shell expands only variables, and the output of a command is a value only
as a substitution.  Flattening gives a name to each value that must stand in a
variable: an assignment to a fresh temporary is put before the statement.  Calls
in value position are marked as nested.

A temporary's name begins with an underscore, as no name of a script does.
-/

namespace Shellward

variable {π α β : Type}

/-- The result of flattening a part of a statement: the part, the assignments
that must come before the statement, and the number of temporaries named so far. -/
structure Flattened (π α : Type) where
  value : α
  before : List (Stmt π)
  temporaries : Nat

/-- Flattening, given the number of temporaries named before. -/
def Flatten (π α : Type) : Type :=
  Nat → Flattened π α

namespace Flatten

/-- Flatten to a value without naming anything. -/
def succeed (a : α) : Flatten π α := fun n =>
  ⟨a, [], n⟩

/-- Flatten one part and then another; assignments keep their order. -/
def andThen (p : Flatten π α) (f : α → Flatten π β) : Flatten π β := fun n =>
  let first := p n
  let next := f first.value first.temporaries
  ⟨next.value, first.before ++ next.before, next.temporaries⟩

instance : Monad (Flatten π) where
  pure := succeed
  bind := andThen

@[simp]
theorem pure_apply (a : α) (n : Nat) : (pure a : Flatten π α) n = ⟨a, [], n⟩ :=
  rfl

/-- A sequence puts the assignments of its first part first, and counts temporaries on. -/
theorem bind_apply (p : Flatten π α) (f : α → Flatten π β) (n : Nat) :
    (p >>= f) n =
      ⟨(f (p n).value (p n).temporaries).value,
        (p n).before ++ (f (p n).value (p n).temporaries).before,
        (f (p n).value (p n).temporaries).temporaries⟩ :=
  rfl

/-- The name of the temporary with a number. -/
def temporary (number : Nat) : String :=
  "_TMP" ++ toString number

/-- Assign a value to a fresh temporary and use the temporary instead. -/
def lift (value : Expr π) (place : π) : Flatten π (Expr π) := fun n =>
  let name := temporary (n + 1)
  ⟨.name name place, [.assign name place value place], n + 1⟩

end Flatten

namespace Expr

/-- Whether an expression is a name. -/
def isName : Expr π → Bool
  | .name .. => true
  | _ => false

/-- The call whose output is the value of a variable. -/
def echo (depth : Nat) (holder : Expr π) (place : π) : Expr π :=
  .call (.nested depth) "echo" place [.literal .string "\"-n\"" place, holder] place

/-- Make an expression a variable, where `flat` flattens it. -/
def toVariable (e : Expr π) (flat : Flatten π (Expr π)) : Flatten π (Expr π) :=
  if e.isName then pure e
  else do
    let value ← flat
    Flatten.lift value e.place

/-- Make an expression a literal or a call, where `flat` flattens it. -/
def toWord (depth : Nat) (e : Expr π) (flat : Flatten π (Expr π)) : Flatten π (Expr π) :=
  match e with
  | .literal .. | .call (.nested _) .. => pure e
  | .call .plain .. => flat
  | _ => do
      let holder ← e.toVariable flat
      pure (echo depth holder e.place)

/-- The form of a call inside `depth` expressions. -/
def formAt (depth : Nat) : CallForm :=
  if depth = 0 then .plain else .nested depth

mutual

/-- Flatten an expression inside `depth` others.  A builtin with the wrong number
of arguments is left as it is. -/
def flatten (depth : Nat) : Expr π → Flatten π (Expr π)
  | .call .plain callee cp arguments p =>
      match Expansion.ofName? callee with
      | some x =>
          if arguments.length = x.arity then
            match arguments with
            | [] => pure (.call .plain callee cp [] p)
            | target :: words => do
                let target ← target.toVariable (target.flatten (depth + 1))
                let words ← flattenWords (depth + 1) words
                pure (.call .plain callee cp (target :: words) p)
          else pure (.call .plain callee cp arguments p)
      | none => do
          let arguments ← flattenAll (depth + 1) arguments
          pure (.call (formAt depth) callee cp arguments p)
  | .binary op left right p => do
      let left ← left.flatten (depth + 1)
      let right ← right.flatten (depth + 1)
      pure (.binary op left right p)
  | .negate inner p => do
      let inner ← inner.flatten (depth + 1)
      pure (.negate inner p)
  | .group inner p => do
      let inner ← inner.flatten (depth + 1)
      pure (.group inner p)
  | .literal kind text p => pure (.literal kind text p)
  | .name text p => pure (.name text p)
  | .call (.nested d) callee cp arguments p => pure (.call (.nested d) callee cp arguments p)

/-- Flatten the arguments of a command. -/
def flattenAll (depth : Nat) : List (Expr π) → Flatten π (List (Expr π))
  | [] => pure []
  | e :: es => do
      let e ← e.flatten depth
      let es ← flattenAll depth es
      pure (e :: es)

/-- Flatten the words of an expansion. -/
def flattenWords (depth : Nat) : List (Expr π) → Flatten π (List (Expr π))
  | [] => pure []
  | e :: es => do
      let e ← e.toWord depth (e.flatten depth)
      let es ← flattenWords depth es
      pure (e :: es)

end

end Expr

mutual

/-- Flatten a statement, given the number of temporaries named before: the
assignments it needs, then the statement.  The assignments that the conditions
of a conditional need come before all of it. -/
def Stmt.flatten (n : Nat) : Stmt π → List (Stmt π) × Nat
  | .assign target tp value p =>
      let r := value.flatten 1 n
      (r.before ++ [.assign target tp r.value p], r.temporaries)
  | .run value p =>
      let r := value.flatten 0 n
      (r.before ++ [.run r.value p], r.temporaries)
  | .cond test body bp alternative p =>
      let t := test.flatten 1 n
      let b := Stmt.flattenAll t.temporaries body
      let a := alternative.flatten b.2
      (t.before ++ a.before ++ [.cond t.value b.1 bp a.value p], a.temporaries)
  | .comment text p => ([.comment text p], n)
  | .blank p => ([.blank p], n)

/-- Flatten statements in order. -/
def Stmt.flattenAll (n : Nat) : List (Stmt π) → List (Stmt π) × Nat
  | [] => ([], n)
  | s :: ss =>
      let first := s.flatten n
      let rest := Stmt.flattenAll first.2 ss
      (first.1 ++ rest.1, rest.2)

/-- Flatten what follows the body of a conditional. -/
def Else.flatten (n : Nat) : Else π → Flattened π (Else π)
  | .absent => ⟨.absent, [], n⟩
  | .block body bp =>
      let b := Stmt.flattenAll n body
      ⟨.block b.1 bp, [], b.2⟩
  | .elseIf test body bp rest =>
      let t := test.flatten 1 n
      let b := Stmt.flattenAll t.temporaries body
      let r := rest.flatten b.2
      ⟨.elseIf t.value b.1 bp r.value, t.before ++ r.before, r.temporaries⟩

end

namespace Script

/-- Flatten a script after `n` temporaries have been named, and count on. -/
def flattenFrom (n : Nat) (s : Script π) : Script π × Nat :=
  let r := Stmt.flattenAll n s.statements
  (⟨r.1⟩, r.2)

/-- Flatten a script. -/
def flatten (s : Script π) : Script π :=
  (s.flattenFrom 0).1

end Script
end Shellward
