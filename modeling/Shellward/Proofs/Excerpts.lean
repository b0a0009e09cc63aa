import Shellward.Proofs.Positions
import Shellward.Proofs.Token.Tiling

/-!
# Excerpts underline their span

An excerpt shows the line on which a span starts, and carets below it.  In a well-formed text
the carets stand under the characters of the span: the columns before the span count the
characters of the line up to it, and what is trimmed at the end of the line comes after it.

Main results:

- Theorem `Utf8.decodeChars_append_of_ready`: bytes that end between two characters are read
  apart from those after them.
- Theorem `LineMap.excerpt_underlines`: the characters above the carets are those of the span.
- Theorem `LineMap.excerpt_drops_return`: a carriage return at the end of a line is not shown,
  even if no line feed follows it.
-/

namespace Shellward

/-! ### Bytes that end between two characters -/

namespace Utf8

/-- Bytes that end between two characters are read apart from those after them. -/
theorem decodeChars_append_of_ready {xs : Source} (h : run .ready xs = .ready) (ys : Source) :
    decodeChars (xs ++ ys) = decodeChars xs ++ decodeChars ys := by
  have hxs : decodeChars xs = completed .ready xs := by
    rw [decodeChars, decodeFrom, h]
    exact List.append_nil _
  rw [hxs, decodeChars, decodeFrom_append, h]
  rfl

/-- An ASCII byte ends between two characters, whatever stands before it. -/
theorem run_concat_ascii {b : UInt8} (hb : b < 0x80) (xs : Source) :
    run .ready (xs ++ [b]) = .ready := by
  have hstate : (run .ready xs).AwaitsHigh := @awaitsHigh_run .ready trivial xs
  rw [run_append, run_cons, run_nil]
  cases hrun : run .ready xs with
  | ready => exact congrArg Prod.snd (lead_ascii hb)
  | pending value more lo hi =>
      rw [hrun] at hstate
      have hlo : 0x80 ≤ lo.toNat := hstate
      have hb' := lt_ascii_iff.mp hb
      rw [step_outside (by omega), lead_ascii hb]

end Utf8

namespace LineMap

open Token (WholeLines)

/-! ### Spans of well-formed texts -/

/-- An offset of the bytes of a text that lies between two characters. -/
def Boundary (text : String) (offset : Nat) : Prop :=
  ∃ front back, text.toList = front ++ back ∧ offset = (Utf8.encodeChars front).length

/-- Between two such offsets stand the bytes of some characters. -/
theorem exists_chars_between {text : String} {span : Span} (hstart : Boundary text span.start)
    (hstop : Boundary text span.stop) (hlt : span.start < span.stop) :
    ∃ front mid back, text.toList = front ++ (mid ++ back) ∧ mid ≠ [] ∧
      span.start = (Utf8.encodeChars front).length ∧
      span.stop = (Utf8.encodeChars front).length + (Utf8.encodeChars mid).length := by
  rcases hstart with ⟨front, rest, hfront, hstart⟩
  rcases hstop with ⟨front', rest', hfront', hstop⟩
  rcases List.append_eq_append_iff.mp (hfront.symm.trans hfront') with
    ⟨mid, rfl, rfl⟩ | ⟨mid, rfl, rfl⟩
  · rw [Utf8.encodeChars_append, List.length_append] at hstop
    refine ⟨front, mid, rest', hfront, ?_, hstart, hstop⟩
    rintro rfl
    have hnil : (Utf8.encodeChars []).length = 0 := rfl
    omega
  · -- The span would end before it starts.
    rw [Utf8.encodeChars_append, List.length_append] at hstart
    omega

/-- A carriage return is written with its own byte. -/
theorem return_notMem {chars : List Char} (h : 0x0d ∉ Utf8.encodeChars chars) : '\r' ∉ chars := by
  intro hmem
  exact h (List.mem_flatMap.mpr ⟨'\r', hmem, by decide⟩)

/-! ### The line of a span -/

/-- Carriage returns are trimmed behind the last other character only. -/
theorem dropReturns_append {xs : List Char} (h : xs.getLast? ≠ some '\r') (ys : List Char) :
    dropReturns (xs ++ ys) = xs ++ dropReturns ys := by
  refine Text.trimEndChars_append ?_ ys
  intro c hc
  rw [beq_eq_false_iff_ne]
  rintro rfl
  exact h hc

/-- The text of the line that an offset lies on, without its line feed and without the carriage
returns at its end. -/
def LineText (source : Source) (offset : Nat) (line : String) : Prop :=
  ∃ before bytes rest, source = before ++ (bytes ++ rest) ∧
    WholeLines before ∧ lineFeed ∉ bytes ∧ (∀ b ∈ rest.head?, b = lineFeed) ∧
    before.length ≤ offset ∧ offset ≤ before.length + bytes.length ∧
    ∃ returns, Utf8.decodeChars bytes = line.toList ++ List.replicate returns '\r' ∧
      line.toList.getLast? ≠ some '\r'

namespace Cut

variable {source : Source} {offset : Nat} (c : Cut source offset)
include c

/-- The line that is cut at an offset, without the carriage returns at its end, is the text of its
line. -/
theorem lineText : LineText source offset
    (String.ofList (dropReturns (Utf8.decodeChars (c.left ++ c.right)))) := by
  have hline : lineFeed ∉ c.left ++ c.right := by
    simp [c.left_line, c.right_line]
  have hoffset := c.offset_eq
  refine ⟨c.before, c.left ++ c.right, c.rest, ?_, c.wholeLines, hline, c.rest_head, by omega,
    ?_, ?_⟩
  · rw [List.append_assoc]
    exact c.source_eq
  · rw [List.length_append]
    omega
  · rw [String.toList_ofList]
    rcases Text.exists_trimEndChars_append (· == '\r') (Utf8.decodeChars (c.left ++ c.right)) with
      ⟨dropped, hchars, hdropped⟩
    refine ⟨dropped.length, ?_, ?_⟩
    · rw [← List.eq_replicate_of_mem fun d hd => beq_iff_eq.mp (hdropped d hd)]
      exact hchars.symm
    · intro hlast
      exact absurd (Text.drop_getLast_trimEndChars hlast) (by decide)

/-- In a text cut between two characters, the line up to the cut is characters. -/
theorem run_left (h : Utf8.run .ready (source.take offset) = .ready) :
    Utf8.run .ready c.left = .ready := by
  have hbefore : Utf8.run .ready c.before = .ready := by
    rcases List.eq_nil_or_concat c.before with hnil | ⟨xs, b, hconcat⟩
    · rw [hnil]
      rfl
    · have hb : b = lineFeed := c.wholeLines b (by simp [hconcat])
      rw [hconcat, List.concat_eq_append, hb]
      exact Utf8.run_concat_ascii (by decide) xs
  rwa [c.take_eq, Utf8.run_append, hbefore] at h

/-- The bytes after the cut that hold no line feed belong to the line. -/
theorem exists_right {mid back : Source} (hsource : source.drop offset = mid ++ back)
    (hmid : lineFeed ∉ mid) : ∃ right, c.right = mid ++ right := by
  rcases List.append_eq_append_iff.mp (hsource.symm.trans c.drop_eq) with
    ⟨right, hright, _⟩ | ⟨extra, hright, hrest⟩
  · exact ⟨right, hright⟩
  · -- What the line lacks of the bytes would begin with its line feed.
    rcases extra with _ | ⟨b, bs⟩
    · exact ⟨[], by rw [List.append_nil, hright, List.append_nil]⟩
    · have hb : b = lineFeed := c.rest_head b (by rw [hrest]; rfl)
      rw [hright, hb] at hmid
      exact absurd (List.mem_append_right _ List.mem_cons_self) hmid

/-- The line shows the characters before the cut, those after it that hold no line end, and
what else the line has. -/
theorem exists_line_chars {mid : List Char} {back : Source}
    (hrun : Utf8.run .ready (source.take offset) = .ready)
    (hsource : source.drop offset = Utf8.encodeChars mid ++ back)
    (hline : lineFeed ∉ Utf8.encodeChars mid) (hne : mid ≠ []) (hreturn : '\r' ∉ mid) :
    ∃ after, dropReturns (Utf8.decodeChars (c.left ++ c.right)) =
      Utf8.decodeChars c.left ++ (mid ++ after) := by
  rcases c.exists_right hsource hline with ⟨right, hright⟩
  have hlast : (Utf8.decodeChars c.left ++ mid).getLast? ≠ some '\r' := by
    rw [List.getLast?_append_of_ne_nil _ hne]
    exact fun hlast => hreturn (List.mem_of_getLast? hlast)
  refine ⟨dropReturns (Utf8.decodeChars right), ?_⟩
  rw [hright, Utf8.decodeChars_append_of_ready (c.run_left hrun),
    Utf8.decodeChars_append_of_ready (Utf8.run_encodeChars mid), Utf8.decodeChars_encodeChars,
    ← List.append_assoc, dropReturns_append hlast, List.append_assoc]

end Cut

/-- The excerpt of a span of a well-formed text that holds no line feed and no carriage return:
the text of the line on which the span starts, without the carriage returns at its end, and below
it spaces and carets.  The characters of the line above the carets are those of the span. -/
theorem excerpt_underlines {text : String} {span : Span} (hstart : Boundary text span.start)
    (hstop : Boundary text span.stop) (hlt : span.start < span.stop)
    (hplain : ∀ b ∈ span.slice (Utf8.encode text), b ≠ 0x0a ∧ b ≠ 0x0d) :
    ∃ line k n, (ofSource (Utf8.encode text)).excerpt span =
        line ++ "\n" ++ Text.replicate k ' ' ++ Text.replicate n '^' ∧
      LineText (Utf8.encode text) span.start line ∧ k + n ≤ line.toList.length ∧
      (line.toList.drop k).take n = Utf8.decodeChars (span.slice (Utf8.encode text)) := by
  rcases exists_chars_between hstart hstop hlt with ⟨front, mid, back, htext, hne, hfrom, hto⟩
  have hsource : Utf8.encode text =
      Utf8.encodeChars front ++ (Utf8.encodeChars mid ++ Utf8.encodeChars back) := by
    rw [← Utf8.encodeChars_append, ← Utf8.encodeChars_append, ← htext]
    rfl
  have htake : (Utf8.encode text).take span.start = Utf8.encodeChars front := by
    rw [hsource, hfrom, List.take_left]
  have hdrop : (Utf8.encode text).drop span.start =
      Utf8.encodeChars mid ++ Utf8.encodeChars back := by
    rw [hsource, hfrom, List.drop_left]
  have hslice : span.slice (Utf8.encode text) = Utf8.encodeChars mid := by
    rw [hsource]
    exact Span.slice_append hfrom hto
  rw [hslice] at hplain ⊢
  have hline : lineFeed ∉ Utf8.encodeChars mid := fun hmem => (hplain _ hmem).1 rfl
  have hreturn : '\r' ∉ mid := return_notMem fun hmem => (hplain _ hmem).2 rfl
  have hle : span.start ≤ (Utf8.encode text).length := by
    rw [hsource, List.length_append, hfrom]
    omega
  rcases exists_cut hle with ⟨c⟩
  rcases c.exists_line_chars (by rw [htake, Utf8.run_encodeChars]) hdrop hline hne hreturn with
    ⟨after, hafter⟩
  have hwidth : dropReturns (Utf8.decodeChars (c.right.take (span.stop - span.start))) = mid := by
    rcases c.exists_right hdrop hline with ⟨right, hright⟩
    have hmid := @dropReturns_append mid (fun hlast => hreturn (List.mem_of_getLast? hlast)) []
    rw [List.append_nil] at hmid
    rw [hright, hto, hfrom, Nat.add_sub_cancel_left, List.take_left, Utf8.decodeChars_encodeChars,
      hmid]
    exact List.append_nil mid
  refine ⟨_, (Utf8.decodeChars c.left).length, mid.length, ?_, c.lineText, ?_, ?_⟩
  · have hcarets : max mid.length 1 = mid.length :=
      Nat.max_eq_left (List.length_pos_iff.mpr hne)
    have hexcerpt := c.excerpt_eq span.stop
    rwa [hwidth, hcarets] at hexcerpt
  · rw [String.toList_ofList, hafter]
    simp only [List.length_append]
    omega
  · rw [String.toList_ofList, hafter, List.drop_left, List.take_left,
      Utf8.decodeChars_encodeChars]

/-- Two lines with characters of more than one byte before and inside the span, and carriage
returns after it. -/
def excerptSample : String :=
  "é\nß = (été)\r\r\n"

theorem excerpt_underlines_excerptSample :
    (ofSource (Utf8.encode excerptSample)).excerpt ⟨9, 14⟩ = "ß = (été)\n     ^^^" ∧
    ∃ line k n, (ofSource (Utf8.encode excerptSample)).excerpt ⟨9, 14⟩ =
        line ++ "\n" ++ Text.replicate k ' ' ++ Text.replicate n '^' ∧
      LineText (Utf8.encode excerptSample) 9 line ∧ k + n ≤ line.toList.length ∧
      (line.toList.drop k).take n = ['é', 't', 'é'] := by
  have hstart : Boundary excerptSample 9 :=
    ⟨"é\nß = (".toList, "été)\r\r\n".toList, by decide +kernel, by decide +kernel⟩
  have hstop : Boundary excerptSample 14 :=
    ⟨"é\nß = (été".toList, ")\r\r\n".toList, by decide +kernel, by decide +kernel⟩
  have hslice : Span.slice (Utf8.encode excerptSample) ⟨9, 14⟩ = Utf8.encode "été" := by
    decide +kernel
  have hplain : ∀ b ∈ Span.slice (Utf8.encode excerptSample) ⟨9, 14⟩, b ≠ 0x0a ∧ b ≠ 0x0d := by
    rw [hslice]
    decide +kernel
  have hchars : Utf8.decodeChars (Span.slice (Utf8.encode excerptSample) ⟨9, 14⟩) =
      ['é', 't', 'é'] := by
    decide +kernel
  refine ⟨by decide +kernel, ?_⟩
  have hexcerpt := @excerpt_underlines excerptSample ⟨9, 14⟩ hstart hstop (by decide) hplain
  rwa [hchars] at hexcerpt

/-- The text of the line that an offset lies on, without the line end that scripts are cut at: a
line feed, with the carriage return directly before it if there is one. -/
def EndedLineText (source : Source) (offset : Nat) (line : String) : Prop :=
  ∃ before bytes ending rest, source = before ++ (bytes ++ (ending ++ rest)) ∧
    WholeLines before ∧ lineFeed ∉ bytes ∧
    (ending = [0x0d, lineFeed] ∨ ending = [lineFeed] ∧ bytes.getLast? ≠ some 0x0d ∨
      ending = [] ∧ rest = []) ∧
    before.length ≤ offset ∧ offset ≤ before.length + bytes.length ∧
    Utf8.decodeChars bytes = line.toList

/-- A line with a carriage return that belongs to no line end. -/
def returnSample : String :=
  "a\r"

/-- The line of the sample is all of it. -/
theorem EndedLineText.eq_returnSample {offset : Nat} {line : String}
    (h : EndedLineText (Utf8.encode returnSample) offset line) : line = returnSample := by
  rcases h with ⟨before, bytes, ending, rest, hsource, hbefore, _, hending, _, _, hline⟩
  have hfeed : lineFeed ∉ before ++ (bytes ++ (ending ++ rest)) := by
    rw [← hsource]
    decide +kernel
  simp only [List.mem_append, not_or] at hfeed
  have hnil : before = [] := by
    cases before with
    | nil => rfl
    | cons b bs => exact absurd hbefore.lineFeed_mem hfeed.1
  have hlast : ending = [] ∧ rest = [] := by
    rcases hending with rfl | ⟨rfl, _⟩ | hlast
    · simp at hfeed
    · simp at hfeed
    · exact hlast
  rw [hnil, hlast.1, hlast.2, List.nil_append, List.append_nil, List.append_nil] at hsource
  rw [← hsource] at hline
  have hchars : Utf8.decodeChars (Utf8.encode returnSample) = returnSample.toList := by
    decide +kernel
  rw [hchars] at hline
  exact (String.toList_inj.mp hline).symm

/-- A carriage return that belongs to no line end is part of its line, but the excerpt does not
show it. -/
theorem excerpt_drops_return :
    (ofSource (Utf8.encode returnSample)).excerpt ⟨0, 1⟩ = "a\n^" ∧
    EndedLineText (Utf8.encode returnSample) 0 returnSample ∧
    ¬ ∃ line k n, (ofSource (Utf8.encode returnSample)).excerpt ⟨0, 1⟩ =
        line ++ "\n" ++ Text.replicate k ' ' ++ Text.replicate n '^' ∧
      EndedLineText (Utf8.encode returnSample) 0 line := by
  have hexcerpt : (ofSource (Utf8.encode returnSample)).excerpt ⟨0, 1⟩ = "a\n^" := by
    decide +kernel
  refine ⟨hexcerpt, ?_, ?_⟩
  · refine ⟨[], Utf8.encode returnSample, [], [], by simp, by simp [WholeLines], ?_⟩
    exact ⟨by decide +kernel, .inr (.inr ⟨rfl, rfl⟩), by simp, by simp, by decide +kernel⟩
  · rintro ⟨line, k, n, hline, hends⟩
    rw [hexcerpt, hends.eq_returnSample] at hline
    have hreturn : '\r' ∈ "a\n^".toList := by
      rw [hline]
      simp [returnSample]
    exact absurd hreturn (by decide)

end LineMap
end Shellward
