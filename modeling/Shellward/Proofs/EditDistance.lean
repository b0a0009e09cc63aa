import Mathlib.Data.Nat.Basic
import Mathlib.Order.Basic
import Mathlib.Order.Bounds.Defs
import Shellward.Suggestion

/-!
# The distance of two texts

The distance of two texts is computed row by row, from the distances of one text to all endings
of the other.  It is the least number of single edits that lead from one text to the other: an
edit changes the distance to any text by at most one, and as many edits as the distance says
are enough.

Main results:

- Theorem `Suggestion.tail_row`: the row of an ending is the rest of the row.
- Theorem `Suggestion.charDistance_cons_cons`: the distance by its first characters.
- Theorem `Suggestion.isLeast_distance`: the distance is the least number of edits.
-/

namespace Shellward
namespace Suggestion

/-! ### Edits -/

/-- One character is inserted, deleted or replaced. -/
inductive Edit : List Char → List Char → Prop where
  | insert (front : List Char) (c : Char) (back : List Char) :
      Edit (front ++ back) (front ++ c :: back)
  | delete (front : List Char) (c : Char) (back : List Char) :
      Edit (front ++ c :: back) (front ++ back)
  | replace (front : List Char) (c d : Char) (back : List Char) :
      Edit (front ++ c :: back) (front ++ d :: back)

/-- A text becomes another by a number of edits, one after the other. -/
inductive Edits : Nat → List Char → List Char → Prop where
  | done (xs : List Char) : Edits 0 xs xs
  | next {n : Nat} {xs ys zs : List Char} : Edit xs ys → Edits n ys zs → Edits (n + 1) xs zs

/-- An edit may be made behind another character. -/
theorem Edit.cons {xs ys : List Char} (h : Edit xs ys) (x : Char) : Edit (x :: xs) (x :: ys) := by
  cases h with
  | insert front c back => exact .insert (x :: front) c back
  | delete front c back => exact .delete (x :: front) c back
  | replace front c d back => exact .replace (x :: front) c d back

/-- Edits can be made behind a first character. -/
theorem Edits.cons {n : Nat} {xs ys : List Char} (h : Edits n xs ys) (x : Char) :
    Edits n (x :: xs) (x :: ys) := by
  induction h with
  | done xs => exact .done (x :: xs)
  | next hedit _ ih => exact .next (hedit.cons x) ih

/-! ### The distance by its first characters -/

/-- The distance of two lists of characters. -/
def charDistance (xs ys : List Char) : Nat :=
  (row ys xs).headD 0

/-- The cost of putting one character in the place of another. -/
def replacing (x y : Char) : Nat :=
  if x = y then 0 else 1

/-- The distances to the endings of an ending are the rest of those to all endings. -/
theorem tail_row (y : Char) (ys xs : List Char) : (row (y :: ys) xs).tail = row ys xs := by
  induction xs with
  | nil => rw [row, row, List.length_cons, List.range_succ, List.reverse_concat, List.tail_cons]
  | cons x xs ih => rw [row, extendRow, List.tail_cons, ih, row]

/-- From nothing, all characters are inserted. -/
@[simp]
theorem charDistance_nil (ys : List Char) : charDistance [] ys = ys.length := by
  rw [charDistance, row, List.range_succ, List.reverse_concat, List.headD_cons]

/-- To nothing, all characters are deleted. -/
@[simp]
theorem charDistance_cons_nil (x : Char) (xs : List Char) :
    charDistance (x :: xs) [] = charDistance xs [] + 1 :=
  rfl

/-- The first character is deleted, or one is inserted before it, or it is replaced. -/
theorem charDistance_cons_cons (x y : Char) (xs ys : List Char) :
    charDistance (x :: xs) (y :: ys) =
      min (min (charDistance xs (y :: ys) + 1) (charDistance (x :: xs) ys + 1))
        (charDistance xs ys + replacing x y) := by
  rw [charDistance, row, extendRow, List.headD_cons, tail_row]
  rfl

/-- A text has no distance to itself. -/
theorem charDistance_self (xs : List Char) : charDistance xs xs = 0 := by
  induction xs with
  | nil => rfl
  | cons x xs ih => simp [charDistance_cons_cons, ih, replacing]

/-- The first character may be deleted. -/
theorem charDistance_cons_left_le (x : Char) (xs ys : List Char) :
    charDistance (x :: xs) ys ≤ charDistance xs ys + 1 := by
  cases ys with
  | nil => exact Nat.le_refl _
  | cons y ys =>
      rw [charDistance_cons_cons]
      omega

/-- A character may be inserted in front. -/
theorem charDistance_cons_right_le (xs : List Char) (y : Char) (ys : List Char) :
    charDistance xs (y :: ys) ≤ charDistance xs ys + 1 := by
  cases xs with
  | nil => simp
  | cons x xs =>
      rw [charDistance_cons_cons]
      omega

theorem replacing_le_one (x y : Char) : replacing x y ≤ 1 := by
  unfold replacing
  split <;> omega

/-! ### An edit changes the distance by at most one -/

/-- Deleting the first character. -/
theorem charDistance_le_cons_left (x : Char) (xs ys : List Char) :
    charDistance xs ys ≤ charDistance (x :: xs) ys + 1 := by
  induction ys with
  | nil =>
      rw [charDistance_cons_nil]
      omega
  | cons y ys ih =>
      have hinsert := charDistance_cons_right_le xs y ys
      rw [charDistance_cons_cons]
      omega

/-- Replacing the first character. -/
theorem charDistance_replace_le (c d : Char) (xs ys : List Char) :
    charDistance (c :: xs) ys ≤ charDistance (d :: xs) ys + 1 := by
  induction ys with
  | nil =>
      rw [charDistance_cons_nil, charDistance_cons_nil]
      omega
  | cons y ys ih =>
      have hcost := replacing_le_one c y
      rw [charDistance_cons_cons, charDistance_cons_cons]
      omega

/-- What changes the distances of two lists by at most one does so behind other characters. -/
theorem charDistance_append_le {xs xs' : List Char}
    (h : ∀ zs, charDistance xs zs ≤ charDistance xs' zs + 1) (front zs : List Char) :
    charDistance (front ++ xs) zs ≤ charDistance (front ++ xs') zs + 1 := by
  induction front generalizing zs with
  | nil => exact h zs
  | cons c front ih =>
      rw [List.cons_append, List.cons_append]
      induction zs with
      | nil =>
          have hfront := ih []
          rw [charDistance_cons_nil, charDistance_cons_nil]
          omega
      | cons z zs hzs =>
          have hdelete := ih (z :: zs)
          have hreplace := ih zs
          rw [charDistance_cons_cons, charDistance_cons_cons]
          omega

/-- After an edit, a text is nearer to another one by at most one. -/
theorem Edit.charDistance_le {xs ys : List Char} (h : Edit xs ys) (zs : List Char) :
    charDistance xs zs ≤ charDistance ys zs + 1 := by
  cases h with
  | insert front c back =>
      exact charDistance_append_le (charDistance_le_cons_left c back) front zs
  | delete front c back =>
      exact charDistance_append_le (charDistance_cons_left_le c back) front zs
  | replace front c d back =>
      exact charDistance_append_le (charDistance_replace_le c d back) front zs

/-- No fewer edits than the distance lead from one list to another. -/
theorem Edits.charDistance_le {n : Nat} {xs ys : List Char} (h : Edits n xs ys) :
    charDistance xs ys ≤ n := by
  induction h with
  | done xs => exact Nat.le_of_eq (charDistance_self xs)
  | next hedit _ ih => exact Nat.le_trans (hedit.charDistance_le _) (Nat.succ_le_succ ih)

/-! ### The distance is reached -/

/-- The edits that the distance counts lead from one list to the other. -/
theorem edits_charDistance (xs ys : List Char) : Edits (charDistance xs ys) xs ys := by
  induction xs generalizing ys with
  | nil =>
      induction ys with
      | nil => exact .done []
      | cons y ys ih =>
          rw [charDistance_nil] at ih ⊢
          exact .next (.insert [] y []) (ih.cons y)
  | cons x xs ih =>
      induction ys with
      | nil => exact .next (.delete [] x xs) (ih [])
      | cons y ys ihs =>
          have hdelete : Edits (charDistance xs (y :: ys) + 1) (x :: xs) (y :: ys) :=
            .next (.delete [] x xs) (ih (y :: ys))
          have hinsert : Edits (charDistance (x :: xs) ys + 1) (x :: xs) (y :: ys) :=
            .next (.insert [] y (x :: xs)) (ihs.cons y)
          have hreplace : Edits (charDistance xs ys + replacing x y) (x :: xs) (y :: ys) := by
            unfold replacing
            split
            · rename_i hxy
              exact hxy ▸ (ih ys).cons x
            · exact .next (.replace [] x y xs) ((ih ys).cons y)
          rw [charDistance_cons_cons]
          have hfirst := min_rec' (Edits · (x :: xs) (y :: ys)) hdelete hinsert
          exact min_rec' (Edits · (x :: xs) (y :: ys)) hfirst hreplace

/-- The distance of two texts is the least number of edits from one to the other. -/
theorem isLeast_distance (a b : String) :
    IsLeast {n | Edits n a.toList b.toList} (distance a b) :=
  ⟨edits_charDistance a.toList b.toList, fun _ h => h.charDistance_le⟩

end Suggestion
end Shellward
