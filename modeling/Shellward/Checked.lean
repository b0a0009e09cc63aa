import Shellward.Fault

/-!
# Values with problems

A computation that goes on after a problem gives a value and all the problems
found on the way to it.

Main results:

- Theorems `Checked.value_bind` and `Checked.problems_bind`: collecting problems
  does not change values, and problems keep their order.
-/

namespace Shellward

variable {π α β : Type}

/-- A value and the problems found on the way to it. -/
structure Checked (π α : Type) where
  value : α
  problems : List (Problem π)

namespace Checked

instance : Monad (Checked π) where
  pure a := ⟨a, []⟩
  bind c f :=
    let next := f c.value
    ⟨next.value, c.problems ++ next.problems⟩

/-- Report a problem and go on with a value. -/
def report (fault : Fault) (place : π) (value : α) : Checked π α :=
  ⟨value, [⟨fault, place⟩]⟩

@[simp]
theorem value_pure (a : α) : (pure a : Checked π α).value = a :=
  rfl

@[simp]
theorem problems_pure (a : α) : (pure a : Checked π α).problems = [] :=
  rfl

/-- A sequence has the value of its second part. -/
@[simp]
theorem value_bind (c : Checked π α) (f : α → Checked π β) :
    (c >>= f).value = (f c.value).value :=
  rfl

/-- A sequence has the problems of both parts, in order. -/
@[simp]
theorem problems_bind (c : Checked π α) (f : α → Checked π β) :
    (c >>= f).problems = c.problems ++ (f c.value).problems :=
  rfl

end Checked

end Shellward
