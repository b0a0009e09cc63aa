import Shellward.Proofs.LineMap
import Shellward.Proofs.Script.Places
import Shellward.Proofs.Token.Returns

/-!
# The style of line endings does not matter

A script whose lines end with a carriage return and a line feed is read as the same script
with line feeds alone: the trees differ in their places only, and so do the problems.  What
is shown of a problem, its line and column and the excerpt of the script, does not differ.

Main results:

- Theorem `LineMap.excerpt_withReturns`: excerpts do not show carriage returns.
- Theorem `withReturns_sameOutcome`: both scripts compile and format to the same text, or
  have the same problems as their readers see them.
-/

namespace Shellward

/-! ### Reading -/

/-- A script with carriage returns is read as the script, with its places moved. -/
theorem Script.read_withReturns {source : Source} (h : 0x0d ∉ source) :
    (read (withReturns source)).1 = (read source).1.map (Span.withReturns source) ∧
      (read (withReturns source)).2 =
        (read source).2.map (Problem.map (Span.withReturns source)) := by
  have hmoved := Stmt.parseAll_moves (Span.keepsMerge_withReturns source) maxNesting false
    (Cursor.moved_withReturns h)
  refine ⟨?_, hmoved.problems⟩
  have hvalue := hmoved.value
  simp only [read, ofTokens]
  generalize (Stmt.parseAll maxNesting false (Cursor.ofTokens (Token.ofSource source))).value = o,
    (Stmt.parseAll maxNesting false
      (Cursor.ofTokens (Token.ofSource (withReturns source)))).value = o' at hvalue
  cases hvalue with
  | none => rfl
  | some heq =>
      rw [heq]
      rfl

/-! ### Lines and columns -/

namespace LineMap

/-- Carriage returns add no line feed. -/
theorem count_withReturns (bytes : Source) :
    (withReturns bytes).count lineFeed = bytes.count lineFeed := by
  induction bytes with
  | nil => rfl
  | cons b bs ih =>
      by_cases hb : b = lineFeed
      · subst hb
        rw [lineFeed, withReturns_lineFeed, List.count_cons_of_ne (by decide), List.count_cons_self,
          List.count_cons_self]
        exact congrArg (· + 1) ih
      · rw [withReturns_cons hb, List.count_cons_of_ne hb, List.count_cons_of_ne hb, ih]

/-- Whole lines are still whole with carriage returns at their ends. -/
theorem wholeLines_withReturns {bytes : Source} (h : Token.WholeLines bytes) :
    Token.WholeLines (withReturns bytes) := by
  rcases List.eq_nil_or_concat bytes with rfl | ⟨xs, b, rfl⟩
  · exact h
  · have hb : b = 0x0a := h b (by simp)
    rw [List.concat_eq_append, withReturns_append, hb, withReturns_lineFeed]
    intro c hc
    simpa using hc.symm

/-- The line of an offset with carriage returns: if it is ended, it has one more byte. -/
theorem Cut.exists_withReturns {source : Source} {offset : Nat} (c : Cut source offset) :
    ∃ c' : Cut (withReturns source) (returnsOffset source offset),
      c'.before = withReturns c.before ∧ c'.left = c.left ∧
        (c.rest = [] ∧ c'.right = c.right ∨ c'.right = c.right ++ [0x0d]) := by
  have hleft : withReturns c.left = c.left := withReturns_of_notMem c.left_line
  have hright : withReturns c.right = c.right := withReturns_of_notMem c.right_line
  have hsource : withReturns source =
      withReturns c.before ++ (c.left ++ (c.right ++ withReturns c.rest)) := by
    have hparts := congrArg withReturns c.source_eq
    rwa [withReturns_append, withReturns_append, withReturns_append, hleft, hright] at hparts
  have hoffset : returnsOffset source offset = (withReturns c.before).length + c.left.length := by
    have hcut := returnsOffset_append (c.before ++ c.left) (c.right ++ c.rest)
    rwa [List.append_assoc, ← c.source_eq, List.length_append, ← c.offset_eq, withReturns_append,
      hleft, List.length_append] at hcut
  cases hrest : c.rest with
  | nil =>
      rw [hrest, withReturns_nil] at hsource
      exact ⟨⟨withReturns c.before, c.left, c.right, [], hsource, hoffset,
        wholeLines_withReturns c.wholeLines, c.left_line, c.right_line, by simp⟩,
        rfl, rfl, .inl ⟨rfl, rfl⟩⟩
  | cons b bs =>
      have hb : b = 0x0a := c.rest_head b (by rw [hrest]; rfl)
      rw [hrest, hb, withReturns_lineFeed] at hsource
      refine ⟨⟨withReturns c.before, c.left, c.right ++ [0x0d], 0x0a :: withReturns bs, ?_, hoffset,
        wholeLines_withReturns c.wholeLines, c.left_line, ?_, ?_⟩, rfl, rfl, .inr rfl⟩
      · rw [hsource, List.append_assoc, List.singleton_append]
      · rw [List.mem_append, not_or]
        exact ⟨c.right_line, by decide⟩
      · intro d hd
        exact (Option.some.inj hd).symm

/-- A carriage return at the end of a line is not shown. -/
theorem dropReturns_append_return (bytes : Source) :
    dropReturns (Utf8.decodeChars (bytes ++ [0x0d])) = dropReturns (Utf8.decodeChars bytes) := by
  rw [Utf8.decodeChars_append_ascii (by decide)]
  simp [dropReturns, Text.trimEndChars, Utf8.decodeChars, Utf8.decodeFrom, Utf8.completed,
    Utf8.State.flush]

/-- Offsets move apart, if at all. -/
theorem sub_le_returnsOffset_sub (source : Source) {m n : Nat} (h : m ≤ n) :
    n - m ≤ returnsOffset source n - returnsOffset source m := by
  have hprefix : (source.take m).Sublist (source.take n) := List.take_sublist_take_left h
  have hcount := hprefix.count_le 0x0a
  simp only [returnsOffset]
  omega

/-- Within a line offsets keep their distance. -/
theorem Cut.returnsOffset_add {source : Source} {offset : Nat} (c : Cut source offset) {n : Nat}
    (hn : n ≤ c.right.length) :
    returnsOffset source (offset + n) = returnsOffset source offset + n := by
  have hstop := returnsOffset_append (c.before ++ (c.left ++ c.right.take n))
    (c.right.drop n ++ c.rest)
  have hstart := returnsOffset_append (c.before ++ c.left) (c.right ++ c.rest)
  have hsource : c.before ++ (c.left ++ c.right.take n) ++ (c.right.drop n ++ c.rest) = source := by
    rw [List.append_assoc, List.append_assoc, ← List.append_assoc (c.right.take n),
      List.take_append_drop]
    exact c.source_eq.symm
  have hline : 0x0a ∉ c.left ++ c.right.take n := by
    rw [List.mem_append, not_or]
    exact ⟨c.left_line, fun hmem => c.right_line (List.mem_of_mem_take hmem)⟩
  rw [hsource, withReturns_append, withReturns_of_notMem hline] at hstop
  rw [List.append_assoc, ← c.source_eq, withReturns_append,
    withReturns_of_notMem c.left_line] at hstart
  simp only [List.length_append, List.length_take, Nat.min_eq_left hn, ← Nat.add_assoc,
    ← c.offset_eq] at hstop hstart
  rw [hstop, hstart]

/-- What a span has of its line is shown alike. -/
theorem Cut.dropReturns_take {source : Source} {offset : Nat} (c : Cut source offset)
    {right : Source} (hright : c.rest = [] ∧ right = c.right ∨ right = c.right ++ [0x0d])
    (stop : Nat) :
    dropReturns (Utf8.decodeChars
        (right.take (returnsOffset source stop - returnsOffset source offset))) =
      dropReturns (Utf8.decodeChars (c.right.take (stop - offset))) := by
  by_cases hle : stop ≤ offset + c.right.length
  · -- The span stops on the line, at the same distance.
    have hdistance : returnsOffset source stop - returnsOffset source offset = stop - offset := by
      by_cases hstart : offset ≤ stop
      · have hadd := c.returnsOffset_add (n := stop - offset) (by omega)
        rw [Nat.add_sub_cancel' hstart] at hadd
        omega
      · have := returnsOffset_monotone source (Nat.le_of_not_le hstart)
        omega
    rw [hdistance]
    rcases hright with ⟨_, rfl⟩ | rfl
    · rfl
    · rw [List.take_append_of_le_length (by omega)]
  · -- The span has the rest of the line.
    have hdistance := sub_le_returnsOffset_sub source (by omega : offset ≤ stop)
    rw [List.take_of_length_le (by omega : c.right.length ≤ stop - offset)]
    rcases hright with ⟨_, rfl⟩ | rfl
    · rw [List.take_of_length_le (by omega)]
    · rw [List.take_of_length_le (by rw [List.length_append, List.length_singleton]; omega),
        dropReturns_append_return]

section Clamping

variable {source : Source} (m : LineMap)

/-- An excerpt is the same if its start is brought into the script first. -/
theorem excerpt_clamp (start stop : Nat) :
    m.excerpt ⟨m.clamp start, stop⟩ = m.excerpt ⟨start, stop⟩ := by
  simp only [excerpt, position_clamp, width, lineOf, clamp_clamp]

/-- Bringing an offset into the script and moving it past the carriage returns may be done in
either order. -/
theorem clamp_withReturns (offset : Nat) :
    (ofSource (withReturns source)).clamp (returnsOffset source offset) =
      returnsOffset source ((ofSource source).clamp offset) := by
  have hend := returnsOffset_append source []
  rw [List.append_nil] at hend
  simp only [clamp, ofSource, (returnsOffset_monotone source).map_min, hend]

end Clamping

/-- A byte keeps its line and column. -/
theorem position_withReturns (source : Source) (offset : Nat) :
    (ofSource (withReturns source)).position (returnsOffset source offset) =
      (ofSource source).position offset := by
  rw [← position_clamp, clamp_withReturns, ← position_clamp (ofSource source) offset]
  rcases @exists_cut source ((ofSource source).clamp offset) (Nat.min_le_right _ _) with ⟨c⟩
  rcases c.exists_withReturns with ⟨c', hbefore, hleft, _⟩
  rw [c.position_eq, c'.position_eq, hbefore, hleft, count_withReturns]

/-- A span keeps its excerpt. -/
theorem excerpt_withReturns (source : Source) (span : Span) :
    (ofSource (withReturns source)).excerpt (span.withReturns source) =
      (ofSource source).excerpt span := by
  rw [Span.withReturns, ← excerpt_clamp, clamp_withReturns, ← excerpt_clamp (ofSource source)]
  rcases @exists_cut source ((ofSource source).clamp span.start) (Nat.min_le_right _ _) with ⟨c⟩
  rcases c.exists_withReturns with ⟨c', _, hleft, hright⟩
  have hline : dropReturns (Utf8.decodeChars (c'.left ++ c'.right)) =
      dropReturns (Utf8.decodeChars (c.left ++ c.right)) := by
    rcases hright with ⟨_, hright⟩ | hright
    · rw [hleft, hright]
    · rw [hleft, hright, ← List.append_assoc, dropReturns_append_return]
  rw [c.excerpt_eq, c'.excerpt_eq, hline, hleft, c.dropReturns_take hright]

end LineMap

/-! ### Outcomes -/

/-- Two diagnostics say the same, and their readers see them at the same line and column with
the same excerpt, each in its own script. -/
structure Diagnostic.SeenAlike (source source' : Source) (d d' : Diagnostic Span) : Prop where
  title : d'.title = d.title
  message : d'.message = d.message
  help : d'.help = d.help
  position : d'.position (.ofSource source') = d.position (.ofSource source)
  excerpt : (LineMap.ofSource source').excerpt d'.place = (LineMap.ofSource source).excerpt d.place

/-- Two scripts have the same result, or fail for the same reason with diagnostics that are
seen alike. -/
inductive SameOutcome {α : Type} (source source' : Source) :
    Except CompileError α → Except CompileError α → Prop where
  | ok (a : α) : SameOutcome source source' (.ok a) (.ok a)
  | malformed {problems problems' : List (Problem Span)} :
      List.Forall₂ (Diagnostic.SeenAlike source source')
        (CompileError.malformed problems).diagnostics
        (CompileError.malformed problems').diagnostics →
      SameOutcome source source' (.error (.malformed problems)) (.error (.malformed problems'))
  | inexpressible {problems problems' : List (Problem Span)} :
      List.Forall₂ (Diagnostic.SeenAlike source source')
        (CompileError.inexpressible problems).diagnostics
        (CompileError.inexpressible problems').diagnostics →
      SameOutcome source source' (.error (.inexpressible problems))
        (.error (.inexpressible problems'))

/-- A diagnostic that is moved past the carriage returns is seen alike. -/
theorem Diagnostic.seenAlike_withReturns (source : Source) (d : Diagnostic Span) :
    SeenAlike source (withReturns source) d (d.map (Span.withReturns source)) :=
  ⟨rfl, rfl, rfl, LineMap.position_withReturns source d.place.start,
    LineMap.excerpt_withReturns source d.place⟩

/-- A result whose problems are moved past the carriage returns is the same outcome. -/
theorem sameOutcome_withReturns {α : Type} (source : Source) (r : Except CompileError α) :
    SameOutcome source (withReturns source) r
      (r.mapError (CompileError.map (Span.withReturns source))) := by
  have hseen : ∀ problems : List (Problem Span),
      List.Forall₂ (Diagnostic.SeenAlike source (withReturns source))
        (problems.map Problem.diagnostic)
        ((problems.map (Problem.map (Span.withReturns source))).map Problem.diagnostic) := by
    intro problems
    rw [List.map_map, List.forall₂_map_left_iff, List.forall₂_map_right_iff, List.forall₂_same]
    intro problem _
    exact Diagnostic.seenAlike_withReturns source problem.diagnostic
  cases r with
  | ok a => exact .ok a
  | error e =>
      cases e with
      | malformed problems => exact .malformed (hseen problems)
      | inexpressible problems => exact .inexpressible (hseen problems)

/-- A script without carriage returns and the same script with one before every line feed
have the same tree apart from places.  They compile to the same text and are formatted to
the same text, or fail for the same reason, and then their diagnostics agree in all that
their readers see. -/
theorem withReturns_sameOutcome {source : Source} (h : 0x0d ∉ source) :
    (Script.read (withReturns source)).1.erase = (Script.read source).1.erase ∧
      (∀ width, SameOutcome source (withReturns source) (compile source width)
        (compile (withReturns source) width)) ∧
      SameOutcome source (withReturns source) (format source) (format (withReturns source)) := by
  rcases Script.read_withReturns h with ⟨hscript, hproblems⟩
  refine ⟨?_, fun width => ?_, ?_⟩
  · rw [hscript]
    simp only [Script.erase, Script.map, Stmt.mapAll_mapAll]
    rfl
  · rw [compile_map hscript hproblems]
    exact sameOutcome_withReturns source _
  · rw [format_map hscript hproblems]
    exact sameOutcome_withReturns source _

/-- Three lines with two mistakes, the second of which is found at the end. -/
def lineEndingSample : Source :=
  Utf8.encode "\"é\" )\nx\nf(1,\n"

/-- The sample fails alike with either line ending, when compiled and when formatted. -/
theorem withReturns_sameOutcome_sample :
    0x0d ∉ lineEndingSample ∧
      withReturns lineEndingSample = Utf8.encode "\"é\" )\r\nx\r\nf(1,\r\n" ∧
      (Script.read lineEndingSample).2.length = 2 ∧
      (Script.read (withReturns lineEndingSample)).1.erase =
        (Script.read lineEndingSample).1.erase ∧
      SameOutcome lineEndingSample (withReturns lineEndingSample) (compile lineEndingSample 2)
        (compile (withReturns lineEndingSample) 2) ∧
      SameOutcome lineEndingSample (withReturns lineEndingSample) (format lineEndingSample)
        (format (withReturns lineEndingSample)) := by
  have hreturn : 0x0d ∉ lineEndingSample := by decide +kernel
  have hsame := withReturns_sameOutcome hreturn
  exact ⟨hreturn, by decide +kernel, by decide +kernel, hsame.1, hsame.2.1 2, hsame.2.2⟩

end Shellward
