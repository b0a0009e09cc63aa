import Mathlib.Data.List.DropRight
import Mathlib.Data.Prod.Lex
import Shellward.Proofs.LineMap

/-!
# Positions grow with the offset

The line and the column of an offset are read off the bytes before it: the line counts their
line feeds, and the column counts the characters after the last one.  Bytes that are added never
take a character away, even if they are cut inside one, since the character under way counts as
one already.

Main results:

- Theorem `Utf8.length_decodeChars_le_append`: more bytes have at least as many characters.
- Theorem `LineMap.position_exact`: the line and column of every offset, which grow with it.
-/

namespace Shellward

/-! ### More bytes have more characters -/

namespace Utf8

/-- A byte completes the character under way, goes on with it or begins another. -/
theorem length_flush_le_step (s : State) (b : UInt8) :
    s.flush.length ≤ (step s b).1.length + (step s b).2.flush.length := by
  cases s with
  | ready => exact Nat.zero_le _
  | pending value more lo hi =>
      have hone : (State.pending value more lo hi).flush.length = 1 := rfl
      by_cases hin : lo.toNat ≤ b.toNat ∧ b.toNat ≤ hi.toNat
      · cases more with
        | zero =>
            rw [step_last hin.1 hin.2, hone]
            exact Nat.le_add_right 1 _
        | succ more =>
            rw [step_more hin.1 hin.2, hone]
            exact Nat.le_refl 1
      · rw [step_outside (by omega), List.length_cons, hone]
        omega

/-- The characters that are owed are read, whatever bytes follow. -/
theorem length_flush_le_decodeFrom (s : State) (bytes : Source) :
    s.flush.length ≤ (decodeFrom s bytes).length := by
  induction bytes generalizing s with
  | nil => exact Nat.le_refl _
  | cons b bs ih =>
      rw [decodeFrom_cons, List.length_append]
      calc s.flush.length
          ≤ (step s b).1.length + (step s b).2.flush.length := length_flush_le_step s b
        _ ≤ (step s b).1.length + (decodeFrom (step s b).2 bs).length :=
            Nat.add_le_add_left (ih _) _

/-- Bytes that are added take no character away. -/
theorem length_decodeChars_le_append (xs ys : Source) :
    (decodeChars xs).length ≤ (decodeChars (xs ++ ys)).length := by
  rw [decodeChars, decodeChars, decodeFrom_append, decodeFrom, List.length_append,
    List.length_append]
  exact Nat.add_le_add_left (length_flush_le_decodeFrom _ ys) _

end Utf8

/-! ### The line and column after some bytes -/

namespace LineMap

open Token (Stopped WholeLines)

/-- The bytes after the last line feed. -/
def lastLine (bytes : Source) : Source :=
  bytes.rtakeWhile (· != lineFeed)

/-- The line and column of what follows some bytes. -/
def positionAfter (bytes : Source) : Nat × Nat :=
  (1 + bytes.count lineFeed, 1 + (Utf8.decodeChars (lastLine bytes)).length)

/-- After whole lines and a piece without a line feed, the piece is the last line. -/
theorem lastLine_append {before left : Source} (hbefore : WholeLines before)
    (hleft : lineFeed ∉ left) : lastLine (before ++ left) = left := by
  have hstopped : Stopped (· != lineFeed) before.reverse := by
    intro b hb
    rw [List.head?_reverse] at hb
    rw [hbefore b hb]
    rfl
  have hall : ∀ b ∈ left.reverse, (b != lineFeed) = true := by
    intro b hb
    rw [List.mem_reverse] at hb
    exact bne_iff_ne.mpr (ne_of_mem_of_not_mem hb hleft)
  rw [lastLine, List.rtakeWhile, List.reverse_append,
    Token.takeWhile_append_of_stopped hall hstopped, List.reverse_reverse]

/-- The position of an offset is told by the bytes before it. -/
theorem position_eq_positionAfter (source : Source) (offset : Nat) :
    (ofSource source).position offset =
      positionAfter (source.take (min offset source.length)) := by
  rcases exists_cut (Nat.min_le_right offset source.length) with ⟨c⟩
  have hposition : (ofSource source).position (min offset source.length) =
      (ofSource source).position offset := position_clamp _ offset
  rw [← hposition, c.position_eq, c.take_eq, positionAfter,
    lastLine_append c.wholeLines c.left_line, List.count_append,
    List.count_eq_zero.mpr c.left_line, Nat.add_zero, Nat.add_comm 1, Nat.add_comm 1]

/-- The position after more bytes is the same or a later one. -/
theorem positionAfter_le_append (xs ys : Source) :
    toLex (positionAfter xs) ≤ toLex (positionAfter (xs ++ ys)) := by
  rw [Prod.Lex.toLex_le_toLex, positionAfter, positionAfter, List.count_append]
  by_cases hline : lineFeed ∈ ys
  · -- A line feed was passed, so the line is a later one.
    have hcount := List.count_pos_iff.mpr hline
    exact .inl (by omega)
  · rcases exists_wholeLines_append xs with ⟨before, left, rfl, hbefore, hleft⟩
    have hlonger : lineFeed ∉ left ++ ys := by
      rw [List.mem_append]
      exact not_or.mpr ⟨hleft, hline⟩
    refine .inr ⟨by rw [List.count_eq_zero.mpr hline, Nat.add_zero], ?_⟩
    rw [lastLine_append hbefore hleft, List.append_assoc, lastLine_append hbefore hlonger]
    exact Nat.add_le_add_left (Utf8.length_decodeChars_le_append left ys) 1

/-- The line of an offset is one more than the number of line feeds before it, and its column one
more than the number of characters between the last of these and the offset; an offset past the
end counts as the end.  A later offset has the same or a later position. -/
theorem position_exact (source : Source) :
    (∀ offset, (ofSource source).position offset =
      (1 + (source.take (min offset source.length)).count lineFeed,
        1 + (Utf8.decodeChars (lastLine (source.take (min offset source.length)))).length)) ∧
    Monotone fun offset => toLex ((ofSource source).position offset) := by
  refine ⟨position_eq_positionAfter source, ?_⟩
  intro offset offset' hle
  have hmin : min offset source.length ≤ min offset' source.length := by
    omega
  rcases List.take_prefix_take_left hmin (l := source) with ⟨ys, hys⟩
  simp only [position_eq_positionAfter]
  rw [← hys]
  exact positionAfter_le_append _ ys

end LineMap
end Shellward
