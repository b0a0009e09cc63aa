import Shellward.LineMap
import Shellward.Proofs.Token.Lines
import Shellward.Proofs.Utf8

/-!
# Lines, columns and excerpts

A script is cut at an offset into the lines before it, the line it lies on, from its start
to the offset and from there to its end, and the rest.  What a line map says about the
offset is read off these parts.

Main results:

- Theorem `LineMap.Cut.position_eq`: the line is counted by the line feeds before the offset,
  and the column by the characters of the line before it.
- Theorem `LineMap.Cut.excerpt_eq`: an excerpt is the text of the line and carets below it.
-/

namespace Shellward

/-! ### Characters around an ASCII byte -/

namespace Utf8

/-- Inside a character, only a byte beyond ASCII goes on with it. -/
def State.AwaitsHigh : State → Prop
  | .ready => True
  | .pending _ _ lo _ => 0x80 ≤ lo.toNat

/-- After the first byte of a character, only bytes beyond ASCII go on with it. -/
theorem awaitsHigh_lead (b : UInt8) : (lead b).2.AwaitsHigh := by
  by_cases hascii : b < 0x80
  · rw [lead_ascii hascii]
    trivial
  · have hhigh : 0x80 ≤ b.toNat := by
      rw [lt_ascii_iff] at hascii
      omega
    rcases lead_high hhigh with hlead | ⟨value, more, lo, hi, hlead, hlo, _⟩
    · rw [hlead]
      trivial
    · rw [hlead]
      exact hlo

/-- After any byte, only bytes beyond ASCII go on with a character. -/
theorem awaitsHigh_step (s : State) (b : UInt8) : (step s b).2.AwaitsHigh := by
  cases s with
  | ready => exact awaitsHigh_lead b
  | pending value more lo hi =>
      by_cases hin : lo.toNat ≤ b.toNat ∧ b.toNat ≤ hi.toNat
      · cases more with
        | zero =>
            rw [step_last hin.1 hin.2]
            trivial
        | succ more =>
            rw [step_more hin.1 hin.2]
            exact Nat.le_refl _
      · rw [step_outside (by omega)]
        exact awaitsHigh_lead b

/-- After any bytes, only bytes beyond ASCII go on with a character. -/
theorem awaitsHigh_run {s : State} (h : s.AwaitsHigh) (bytes : Source) :
    (run s bytes).AwaitsHigh := by
  induction bytes generalizing s with
  | nil => exact h
  | cons b bs ih => exact ih (awaitsHigh_step s b)

/-- An ASCII byte ends the character under way and is a character by itself. -/
theorem decodeFrom_ascii {s : State} (h : s.AwaitsHigh) {b : UInt8} (hb : b < 0x80)
    (bs : Source) : decodeFrom s (b :: bs) = s.flush ++ Char.ofNat b.toNat :: decodeChars bs := by
  rw [decodeFrom_cons]
  cases s with
  | ready =>
      have hstep : step .ready b = lead b := rfl
      rw [hstep, lead_ascii hb]
      rfl
  | pending value more lo hi =>
      have hlo : 0x80 ≤ lo.toNat := h
      have hb' := lt_ascii_iff.mp hb
      rw [step_outside (by omega), lead_ascii hb]
      rfl

/-- An ASCII byte is a character of its own, and what stands around it is read apart. -/
theorem decodeChars_append_ascii {b : UInt8} (hb : b < 0x80) (xs ys : Source) :
    decodeChars (xs ++ b :: ys) = decodeChars xs ++ Char.ofNat b.toNat :: decodeChars ys := by
  have hstate : (run .ready xs).AwaitsHigh := @awaitsHigh_run .ready trivial xs
  rw [decodeChars, decodeFrom_append, decodeFrom_ascii hstate hb, ← List.append_assoc]
  rfl

end Utf8

/-! ### Where lines start and stop -/

namespace LineMap

open Token (WholeLines)

/-- The lines that start in two pieces are those of the first and, further on, those of the
second. -/
theorem startsAfter_append (offset : Nat) (xs ys : Source) :
    startsAfter offset (xs ++ ys) =
      startsAfter offset xs ++ startsAfter (offset + xs.length) ys := by
  induction xs generalizing offset with
  | nil => simp [startsAfter]
  | cons b bs ih =>
      have hoffset : offset + 1 + bs.length = offset + (b :: bs).length := by
        rw [List.length_cons]
        omega
      rw [List.cons_append, startsAfter, startsAfter, ih, hoffset]
      split
      · rw [List.cons_append]
      · rfl

/-- As many lines start in a piece as it has line feeds. -/
theorem length_startsAfter (offset : Nat) (bytes : Source) :
    (startsAfter offset bytes).length = bytes.count lineFeed := by
  induction bytes generalizing offset with
  | nil => rfl
  | cons b bs ih =>
      rw [startsAfter, List.count_cons]
      split
      · rename_i hb
        simp [hb, ih]
      · rename_i hb
        simp [hb, ih]

/-- A line that starts in a piece starts after one of its bytes. -/
theorem mem_startsAfter {offset start : Nat} {bytes : Source}
    (h : start ∈ startsAfter offset bytes) : offset < start ∧ start ≤ offset + bytes.length := by
  induction bytes generalizing offset with
  | nil => simp [startsAfter] at h
  | cons b bs ih =>
      rw [List.length_cons]
      rw [startsAfter] at h
      split at h
      · rcases List.mem_cons.mp h with rfl | h
        · omega
        · have := ih h
          omega
      · have := ih h
        omega

/-- Without a line feed no line starts. -/
theorem startsAfter_of_notMem {bytes : Source} (h : lineFeed ∉ bytes) (offset : Nat) :
    startsAfter offset bytes = [] := by
  rw [← List.length_eq_zero_iff, length_startsAfter, List.count_eq_zero]
  exact h

/-- The starts of the lines of a script in two parts. -/
theorem starts_append (xs ys : Source) :
    (ofSource (xs ++ ys)).starts = (0 :: startsAfter 0 xs) ++ startsAfter xs.length ys := by
  rw [ofSource, startsAfter_append, Nat.zero_add]
  rfl

/-- The line of an offset is counted by the line feeds before it. -/
theorem lineOf_eq (xs ys : Source) :
    (ofSource (xs ++ ys)).lineOf xs.length = xs.count lineFeed + 1 := by
  have hclamp : (ofSource (xs ++ ys)).clamp xs.length = xs.length := by
    simp [clamp, ofSource]
  have hbefore : ∀ start ∈ 0 :: startsAfter 0 xs, decide (start ≤ xs.length) = true := by
    intro start hstart
    rcases List.mem_cons.mp hstart with rfl | hstart
    · simp
    · simpa using (mem_startsAfter hstart).2
  have hafter : (startsAfter xs.length ys).takeWhile
      (fun start => decide (start ≤ xs.length)) = [] := by
    cases hstarts : startsAfter xs.length ys with
    | nil => rfl
    | cons start starts =>
        have hlt := (mem_startsAfter (hstarts ▸ List.mem_cons_self : start ∈ _)).1
        rw [List.takeWhile_cons_of_neg (by simpa using hlt)]
  rw [lineOf, hclamp, starts_append, List.takeWhile_append_of_pos hbefore, hafter,
    List.append_nil, List.length_cons, length_startsAfter]

/-- After whole lines a line starts. -/
theorem lineStart?_eq {before : Source} (hbefore : WholeLines before) (rest : Source) :
    (ofSource (before ++ rest)).lineStart? (before.count lineFeed + 1) = some before.length := by
  have hlast : (0 :: startsAfter 0 before).getLast? = some before.length := by
    rcases List.eq_nil_or_concat before with rfl | ⟨xs, b, rfl⟩
    · rfl
    · have hb : b = lineFeed := hbefore b (by simp)
      rw [List.concat_eq_append, startsAfter_append, hb, ← List.cons_append,
        List.getLast?_append]
      simp [startsAfter]
  have hindex : before.count lineFeed = (0 :: startsAfter 0 before).length - 1 := by
    rw [List.length_cons, length_startsAfter, Nat.add_sub_cancel]
  rw [lineStart?, starts_append, List.getElem?_append_left
    (by rw [List.length_cons, length_startsAfter]; omega), hindex,
    ← List.getLast?_eq_getElem?, hlast]

/-- A line stops at its line feed or at the end of the script. -/
theorem lineStop_eq (before : Source) {line rest : Source} (hline : lineFeed ∉ line)
    (hrest : ∀ b ∈ rest.head?, b = lineFeed) :
    (ofSource (before ++ (line ++ rest))).lineStop (before.count lineFeed + 1) =
      before.length + line.length := by
  have hstart : (ofSource (before ++ (line ++ rest))).lineStart? (before.count lineFeed + 2) =
      (startsAfter (before.length + line.length) rest).head? := by
    rw [lineStart?, starts_append, startsAfter_append, startsAfter_of_notMem hline,
      List.nil_append, List.getElem?_append_right
        (by rw [List.length_cons, length_startsAfter]),
      List.length_cons, length_startsAfter, Nat.sub_self, List.head?_eq_getElem?]
  rw [lineStop, hstart]
  cases rest with
  | nil => simp [startsAfter, ofSource]
  | cons b bs => simp [startsAfter, hrest b rfl]

/-! ### Scripts cut at an offset -/

/-- A script cut at an offset: the lines before the one that the offset lies on, that line up
to the offset and from there on, and the rest of the script from the line feed on. -/
structure Cut (source : Source) (offset : Nat) where
  before : Source
  left : Source
  right : Source
  rest : Source
  source_eq : source = before ++ (left ++ (right ++ rest))
  offset_eq : offset = before.length + left.length
  wholeLines : WholeLines before
  left_line : lineFeed ∉ left
  right_line : lineFeed ∉ right
  rest_head : ∀ b ∈ rest.head?, b = lineFeed

/-- Bytes are whole lines and the beginning of one more. -/
theorem exists_wholeLines_append (bytes : Source) :
    ∃ before left, bytes = before ++ left ∧ WholeLines before ∧ lineFeed ∉ left := by
  induction bytes with
  | nil => exact ⟨[], [], rfl, by simp [WholeLines], by simp⟩
  | cons b bs ih =>
      rcases ih with ⟨before, left, rfl, hbefore, hleft⟩
      cases before with
      | nil =>
          by_cases hb : b = lineFeed
          · refine ⟨[b], left, rfl, ?_, hleft⟩
            intro c hc
            rw [List.getLast?_singleton, Option.mem_some_iff] at hc
            exact hc ▸ hb
          · exact ⟨[], b :: left, rfl, hbefore, by simp [hleft, Ne.symm hb]⟩
      | cons c cs => exact ⟨b :: c :: cs, left, rfl, hbefore, hleft⟩

/-- A script can be cut at each of its offsets. -/
theorem exists_cut {source : Source} {offset : Nat} (h : offset ≤ source.length) :
    Nonempty (Cut source offset) := by
  rcases exists_wholeLines_append (source.take offset) with ⟨before, left, htake, hbefore, hleft⟩
  refine ⟨⟨before, left, (source.drop offset).takeWhile (· != lineFeed),
    (source.drop offset).dropWhile (· != lineFeed), ?_, ?_, hbefore, hleft, ?_, ?_⟩⟩
  · rw [List.takeWhile_append_dropWhile, ← List.append_assoc, ← htake, List.take_append_drop]
  · rw [← List.length_append, ← htake, List.length_take, Nat.min_eq_left h]
  · intro hmem
    have hne := List.all_eq_true.mp List.all_takeWhile _ hmem
    simp at hne
  · intro b hb
    have hhead := List.head?_dropWhile_not (· != lineFeed) (source.drop offset)
    rw [hb] at hhead
    simpa using hhead

/-- The slice between the ends of two pieces is the second piece. -/
theorem slice_eq (xs ys zs : Source) :
    (ofSource (xs ++ (ys ++ zs))).slice xs.length (xs.length + ys.length) = ys := by
  simp [slice, ofSource]

theorem clamp_of_le {m : LineMap} {offset : Nat} (h : offset ≤ m.source.length) :
    m.clamp offset = offset :=
  Nat.min_eq_left h

/-- An offset that is brought into the script once is not moved again. -/
theorem clamp_clamp (m : LineMap) (offset : Nat) : m.clamp (m.clamp offset) = m.clamp offset := by
  simp [clamp]

/-- An offset past the end has the position of the end. -/
theorem position_clamp (m : LineMap) (offset : Nat) :
    m.position (m.clamp offset) = m.position offset := by
  simp only [position, lineOf, clamp_clamp]

namespace Cut

variable {source : Source} {offset : Nat} (c : Cut source offset)
include c

/-- A script is cut at one of its offsets. -/
theorem offset_le : offset ≤ source.length := by
  have hlength := congrArg List.length c.source_eq
  simp only [List.length_append] at hlength
  have := c.offset_eq
  omega

theorem clamp_eq : (ofSource source).clamp offset = offset :=
  clamp_of_le c.offset_le

/-- Before the offset stand whole lines and its line up to there. -/
theorem take_eq : source.take offset = c.before ++ c.left := by
  have htake := @List.take_left _ (c.before ++ c.left) (c.right ++ c.rest)
  rwa [List.append_assoc, ← c.source_eq, List.length_append, ← c.offset_eq] at htake

/-- After the cut come the rest of the line and the rest of the script. -/
theorem drop_eq : source.drop offset = c.right ++ c.rest := by
  have hdrop := @List.drop_left _ (c.before ++ c.left) (c.right ++ c.rest)
  rwa [List.append_assoc, ← c.source_eq, List.length_append, ← c.offset_eq] at hdrop

/-- The line of the offset is counted by the line feeds before it. -/
theorem lineOf_eq : (ofSource source).lineOf offset = c.before.count lineFeed + 1 := by
  have hline := LineMap.lineOf_eq (c.before ++ c.left) (c.right ++ c.rest)
  rw [List.append_assoc, ← c.source_eq, List.length_append, ← c.offset_eq, List.count_append,
    List.count_eq_zero.mpr c.left_line] at hline
  exact hline

/-- The line of the cut starts after the lines before it. -/
theorem lineStart?_eq :
    (ofSource source).lineStart? (c.before.count lineFeed + 1) = some c.before.length := by
  have hstart := LineMap.lineStart?_eq c.wholeLines (c.left ++ (c.right ++ c.rest))
  rwa [← c.source_eq] at hstart

/-- The line of the cut stops before the line feed, or at the end of the script. -/
theorem lineStop_eq : (ofSource source).lineStop (c.before.count lineFeed + 1) =
    offset + c.right.length := by
  have hline : lineFeed ∉ c.left ++ c.right := by
    simp [c.left_line, c.right_line]
  have hstop := LineMap.lineStop_eq c.before hline c.rest_head
  rw [List.append_assoc, ← c.source_eq, List.length_append, ← Nat.add_assoc, ← c.offset_eq] at hstop
  exact hstop

/-- The line is counted by the line feeds before the offset, and the column by the
characters of the line before it. -/
theorem position_eq : (ofSource source).position offset =
    (c.before.count lineFeed + 1, (Utf8.decodeChars c.left).length + 1) := by
  have hslice : (ofSource source).slice c.before.length offset = c.left := by
    have hcut := slice_eq c.before c.left (c.right ++ c.rest)
    rwa [← c.source_eq, ← c.offset_eq] at hcut
  simp only [position, c.lineOf_eq, c.lineStart?_eq, Option.getD_some, c.clamp_eq, chars, hslice]

/-- The text of the line of the offset. -/
theorem line_eq : (ofSource source).line (c.before.count lineFeed + 1) =
    String.ofList (dropReturns (Utf8.decodeChars (c.left ++ c.right))) := by
  have hslice : (ofSource source).slice c.before.length (offset + c.right.length) =
      c.left ++ c.right := by
    have hcut := slice_eq c.before (c.left ++ c.right) c.rest
    rwa [List.append_assoc, ← c.source_eq, List.length_append, ← Nat.add_assoc,
      ← c.offset_eq] at hcut
  simp only [line, c.lineStart?_eq, c.lineStop_eq, chars, hslice]

/-- A span covers what it has of the line from the offset on. -/
theorem width_eq (stop : Nat) : (ofSource source).width ⟨offset, stop⟩ =
    (dropReturns (Utf8.decodeChars (c.right.take (stop - offset)))).length := by
  have hlength : max (min stop (offset + c.right.length)) offset - offset =
      min (stop - offset) c.right.length := by
    omega
  have hslice : (ofSource source).slice offset (max (min stop (offset + c.right.length)) offset) =
      c.right.take (stop - offset) := by
    rw [slice, hlength]
    simp only [ofSource, c.drop_eq]
    rw [List.take_append_of_le_length (Nat.min_le_right _ _), ← List.take_take, List.take_length]
  simp only [width, c.clamp_eq, c.lineOf_eq, c.lineStop_eq, chars, hslice]

/-- An excerpt is the text of the line, and below it carets under the span. -/
theorem excerpt_eq (stop : Nat) : (ofSource source).excerpt ⟨offset, stop⟩ =
    String.ofList (dropReturns (Utf8.decodeChars (c.left ++ c.right))) ++ "\n" ++
      Text.replicate (Utf8.decodeChars c.left).length ' ' ++
      Text.replicate
        (max (dropReturns (Utf8.decodeChars (c.right.take (stop - offset)))).length 1) '^' := by
  simp only [excerpt, c.position_eq, c.line_eq, c.width_eq, Nat.add_sub_cancel]

end Cut
end LineMap
end Shellward
