import Shellward.Proofs.Grammar.Lines
import Shellward.Proofs.Grammar.Phrases
import Shellward.Proofs.Grammar.Recovery
import Shellward.Proofs.Grammar.Relocation
import Shellward.Proofs.Grammar.Scripts
import Shellward.Proofs.Token.Lines

/-!
# Reading a script line by line

Whole lines in front of a script are read as they would be by themselves, and the script
after them is read as it would be by itself, with its places moved on.  This holds for
lines without a mistake, and for lines in which no parenthesis and no brace opens, whatever
mistakes they have.

Main results:

- Theorem `Script.read_append`: the statements and the problems of whole lines and of what
  follows them are those of the lines followed by those of the rest.
-/

namespace Shellward

open Shellward.Parser

/-! ### Tokens that stand further on -/

/-- Tokens scanned from a later offset on are the same tokens further on. -/
theorem Token.moved_tokensFrom (n offset : Nat) (bytes : Source) :
    List.Forall₂ (Token.Moved (Span.shift n)) (tokensFrom offset bytes)
      (tokensFrom (offset + n) bytes) := by
  fun_induction tokensFrom offset bytes with
  | case1 offset =>
      rw [tokensFrom_nil]
      exact .nil
  | case2 offset b bs hspace ih =>
      rw [tokensFrom_space hspace, Nat.add_right_comm]
      exact ih
  | case3 offset b bs hspace kind body hscan ih =>
      rw [tokensFrom_cons (by simpa using hspace), hscan, Nat.add_right_comm]
      exact .cons ⟨rfl, rfl, fun _ => rfl⟩ ih

/-- The end mark is moved by the length of what stands before. -/
theorem Token.moved_endMark (n offset : Nat) :
    Token.Moved (Span.shift n) (endMark offset) (endMark (offset + n)) :=
  ⟨rfl, rfl, fun _ => rfl⟩

/-- Moving spans keeps merges. -/
theorem Span.keepsMerge_shift (n : Nat) : Span.KeepsMerge (Span.shift n) :=
  fun s t => (merge_shift n s t).symm

/-- A cursor before tokens that stand further on is moved. -/
theorem Cursor.moved_of_upcoming {source : Source} {n : Nat} {c : Cursor}
    (h : c.upcoming = Token.tokensFrom n source ++ [Token.endMark (source.length + n)]) :
    Cursor.Moved (Span.shift n) (ofTokens (Token.ofSource source)) c := by
  rcases List.append_inj' h rfl with ⟨hahead, hfinal⟩
  rw [ofTokens_ofSource]
  constructor
  · rw [hahead]
    simpa using Token.moved_tokensFrom n 0 source
  · rw [(List.cons.inj hfinal).1]
    exact Token.moved_endMark n source.length

/-! ### The loop that reads statements -/

namespace Stmt

/-- A statement is read moved from moved tokens, with any room. -/
theorem statementWithin_moves {f : Span → Span} (hf : Span.KeepsMerge f) (room : Nat) :
    MovesStmt f (statementWithin room) := by
  refine parse_moves hf (Expr.parse_moves hf _ _) ?_
  cases room with
  | zero => exact refuseBlock_moves
  | succ room => exact parseAll_moves hf room true

end Stmt

namespace Script

/-- The loop that reads the statements of a script. -/
def readLoop (before : List (Stmt Span)) : Parser (List (Stmt Span)) :=
  iterate (Stmt.parseNext false (Stmt.statementWithin maxNesting)) before

/-- The loop that reads the statements of a script never fails. -/
theorem readLoop_total (before : List (Stmt Span)) : Total (readLoop before) :=
  .iterate (Stmt.parseNext_total false _) before

/-- A script is read by the loop from its first token on. -/
theorem read_eq_of_value {source : Source} {ss : List (Stmt Span)}
    (h : (readLoop [] (Cursor.ofTokens (Token.ofSource source))).value = some ss) :
    read source =
      (⟨ss.reverse⟩, (readLoop [] (Cursor.ofTokens (Token.ofSource source))).problems) := by
  have hall : Stmt.parseAll maxNesting false = (readLoop [] >>= fun ss => pure ss.reverse) :=
    Stmt.parseAll_eq maxNesting false
  rw [read, ofTokens, hall, bind_of_some h]
  simp

/-- Lines that the loop passes are read as the loop passes them. -/
theorem read_of_passes {lines : Source} {ss : List (Stmt Span)} {problems : List (Problem Span)}
    (h : Passes (Stmt.parseNext false (Stmt.statementWithin maxNesting)) []
      (Token.tokensFrom 0 lines) ss problems) : read lines = (⟨ss.reverse⟩, problems) := by
  rcases h (Cursor.proper_ofTokens_ofSource lines) (List.cons_ne_nil _ _)
    (Cursor.upcoming_ofTokens_ofSource lines) with ⟨c, hc, hend, hloop⟩
  have hends : Stmt.Ends false [Token.endMark lines.length] := ⟨_, _, rfl, rfl⟩
  rcases Stmt.reads_end ss hends c hc hend with ⟨_, hdone, _⟩
  rw [hdone, List.append_nil] at hloop
  have hread := read_eq_of_value (congrArg Outcome.value hloop)
  rw [hread]
  exact congrArg (Prod.mk _) (congrArg Outcome.problems hloop)

/-- After lines that the loop passes, the rest of a script is read as by itself. -/
theorem read_append_of_passes {lines : Source} (hlines : Token.WholeLines lines)
    {ss : List (Stmt Span)} {problems : List (Problem Span)}
    (h : Passes (Stmt.parseNext false (Stmt.statementWithin maxNesting)) []
      (Token.tokensFrom 0 lines) ss problems) (rest : Source) :
    read (lines ++ rest) =
      (⟨ss.reverse ++ ((read rest).1.map (Span.shift lines.length)).statements⟩,
        problems ++ (read rest).2.map (Problem.map (Span.shift lines.length))) := by
  have htokens : (Cursor.ofTokens (Token.ofSource (lines ++ rest))).upcoming =
      Token.tokensFrom 0 lines ++ (Token.tokensFrom lines.length rest ++
        [Token.endMark (rest.length + lines.length)]) := by
    rw [Cursor.upcoming_ofTokens_ofSource, Token.ofSource, Token.tokensFrom_append hlines,
      List.append_assoc, Nat.zero_add, List.length_append, Nat.add_comm rest.length]
  rcases h (Cursor.proper_ofTokens_ofSource _)
    (List.append_ne_nil_of_right_ne_nil _ (List.cons_ne_nil _ _)) htokens with
    ⟨c, _, hupcoming, hloop⟩
  -- The loop goes on with the statements of the lines in front of those of the rest.
  have hmoves := Stmt.iterate_parseNext_moves false
    (Stmt.statementWithin_moves (Span.keepsMerge_shift lines.length) maxNesting) ss
    (Cursor.moved_of_upcoming hupcoming)
  rcases readLoop_total [] (Cursor.ofTokens (Token.ofSource rest)) with ⟨more, hmore⟩
  rcases readLoop_total ss c with ⟨all, hall⟩
  have hall_eq : all = Stmt.mapAll (Span.shift lines.length) more ++ ss := by
    have hrel := hmoves.value
    rw [← readLoop, ← readLoop, hmore, hall] at hrel
    cases hrel with
    | some heq => exact heq
  have hvalue : (readLoop [] (Cursor.ofTokens (Token.ofSource (lines ++ rest)))).value =
      some (Stmt.mapAll (Span.shift lines.length) more ++ ss) := by
    rw [readLoop, hloop, ← hall_eq]
    exact hall
  rw [read_eq_of_value hvalue, read_eq_of_value hmore, readLoop, hloop, hmoves.problems]
  simp [Script.map, Stmt.mapAll_eq_map]

/-- Lines that are read without a report are passed by the loop. -/
theorem exists_passes_of_read {lines : Source} (hlines : Token.WholeLines lines)
    (h : (read lines).2 = []) : ∃ ss problems,
      Passes (Stmt.parseNext false (Stmt.statementWithin maxNesting)) []
        (Token.tokensFrom 0 lines) ss problems := by
  rcases derives_of_read (Prod.ext rfl h) with ⟨⟨mark, _, hderives⟩, hwithin⟩
  have hmark : mark = Token.endMark lines.length := by
    rcases hderives.suffix with ⟨front, hfront⟩
    exact (List.cons.inj (List.append_inj' hfront rfl).2).1
  rw [hmark] at hderives
  have hfree := hderives.of_wholeLines (Token.kind_of_mem_getLast?_tokensFrom hlines 0)
  exact ⟨_, _, Stmt.DerivesAll.passes false hfree (Nat.zero_add maxNesting) hwithin []⟩

/-- Whole lines that have no mistake, or in which no parenthesis and no brace opens, are
read by themselves: the statements and the problems of the lines and of what follows them
are those of the lines, followed by those of the rest further on. -/
theorem read_append (lines rest : Source) (hlines : lines.getLast? = some 0x0a)
    (hlocal : (read lines).2 = [] ∨
      ∀ t ∈ Token.ofSource lines, t.kind ≠ .leftParen ∧ t.kind ≠ .leftBrace) :
    (read (lines ++ rest)).1.statements =
        (read lines).1.statements ++ ((read rest).1.map (Span.shift lines.length)).statements ∧
      (read (lines ++ rest)).2 =
        (read lines).2 ++ (read rest).2.map (Problem.map (Span.shift lines.length)) ∧
      (read (lines ++ rest)).2.map Problem.diagnostic =
        (read lines).2.map Problem.diagnostic ++
          ((read rest).2.map Problem.diagnostic).map
            (Diagnostic.map (Span.shift lines.length)) := by
  have hwhole : Token.WholeLines lines := by
    intro b hb
    rw [hlines, Option.mem_some_iff] at hb
    exact hb.symm
  have hpasses : ∃ ss problems, Passes (Stmt.parseNext false (Stmt.statementWithin maxNesting)) []
      (Token.tokensFrom 0 lines) ss problems := by
    rcases hlocal with hread | hbare
    · exact exists_passes_of_read hwhole hread
    · refine Stmt.exists_passes maxNesting [] (.of_getLast? (fun t ht => ⟨?_, ?_⟩) ?_)
      · exact (Token.spelling_of_mem_tokensFrom ht).kind_ne_eof
      · exact hbare t (List.mem_append_left _ ht)
      · exact Token.kind_of_mem_getLast?_tokensFrom hwhole 0
  rcases hpasses with ⟨ss, problems, hpasses⟩
  rw [read_append_of_passes hwhole hpasses rest, read_of_passes hpasses]
  refine ⟨rfl, rfl, ?_⟩
  rw [List.map_append, List.map_map, List.map_map]
  rfl

/-- Lines with several mistakes, none of which opens anything. -/
def mistakenLines : Source :=
  Utf8.encode "let = 1 if x\n) y\nz\n"

/-- The problems of two pieces with mistakes are reported together. -/
theorem read_append_mistakenLines :
    (read mistakenLines).2.length = 3 ∧ (read (Utf8.encode "y\nf(\n")).2.length = 1 ∧
      (read (mistakenLines ++ Utf8.encode "y\nf(\n")).1.statements =
        (read mistakenLines).1.statements ++
          ((read (Utf8.encode "y\nf(\n")).1.map (Span.shift mistakenLines.length)).statements ∧
      (read (mistakenLines ++ Utf8.encode "y\nf(\n")).2 =
        (read mistakenLines).2 ++
          (read (Utf8.encode "y\nf(\n")).2.map
            (Problem.map (Span.shift mistakenLines.length)) := by
  have hbare : ∀ t ∈ Token.ofSource mistakenLines, t.kind ≠ .leftParen ∧ t.kind ≠ .leftBrace := by
    decide +kernel
  have hread := read_append mistakenLines (Utf8.encode "y\nf(\n") (by decide +kernel) (.inr hbare)
  exact ⟨by decide +kernel, by decide +kernel, hread.1, hread.2.1⟩

end Script
end Shellward
