import Shellward.Compile
import Shellward.Proofs.Grammar.Statements
import Shellward.Proofs.Token.Spelling

/-!
# Reading scripts

A script is read without a report exactly if its tokens are derived by the grammar
and its nesting stays within the limit, and then the tree read is the one derived.

Main results:

- Theorem `Script.read_eq_iff`: reading gives a tree and no report exactly if the
  grammar derives that tree within the limit of nesting.
- Theorem `Script.read_reports_nothing_iff_derivable`: the same, said of the
  report and of the tree.
-/

namespace Shellward

open Shellward.Parser

/-! ### The cursor before a script -/

namespace Cursor

/-- Reading begins before all tokens of the script. -/
theorem upcoming_ofTokens_ofSource (source : Source) :
    (ofTokens (Token.ofSource source)).upcoming = Token.ofSource source := by
  rw [ofTokens_ofSource]
  rfl

/-- No end mark stands among the tokens before the last one. -/
theorem proper_ofTokens_ofSource (source : Source) :
    (ofTokens (Token.ofSource source)).Proper := by
  rw [ofTokens_ofSource]
  constructor
  · rfl
  · intro t ht
    exact (Token.spelling_of_mem_tokensFrom ht).kind_ne_eof

end Cursor

namespace Script

/-! ### Reading and the grammar -/

/-- Parsing succeeds with a tree if it is read without a report. -/
theorem parse_eq_ok_iff {source : Source} {s : Script Span} :
    parse source = .ok s ↔ read source = (s, []) := by
  rw [parse]
  rcases read source with ⟨script, problems⟩
  cases problems <;> simp

/-- A script that is read without a report is derived by the grammar. -/
theorem derives_of_read {source : Source} {s : Script Span} (h : read source = (s, [])) :
    Derives (Token.ofSource source) s ∧ s.Within maxNesting := by
  rcases Prod.mk.inj h with ⟨hscript, hproblems⟩
  cases hvalue : (Stmt.parseAll maxNesting false
      (Cursor.ofTokens (Token.ofSource source))).value with
  | none => exact absurd hproblems (Stmt.parseAll_honest maxNesting false _ hvalue)
  | some ss =>
      have hstatements : s.statements = ss := by
        rw [← hscript, hvalue]
        rfl
      have haccepts := accepts_of_value hvalue hproblems
      rcases Stmt.parseAll_sound (Nat.zero_add _) haccepts
        (Cursor.proper_ofTokens_ofSource source) with ⟨hproper, hderives, hwithin, hends⟩
      simp only [Stmt.endsList, Bool.false_and, Bool.or_false, beq_iff_eq] at hends
      rw [Cursor.upcoming_ofTokens_ofSource, hproper.upcoming_of_eof hends] at hderives
      rw [← hstatements] at hderives hwithin
      exact ⟨⟨_, hends, hderives⟩, hwithin⟩

/-- A script that the grammar derives within the limit is read without a report. -/
theorem read_of_derives {source : Source} {s : Script Span}
    (h : Derives (Token.ofSource source) s) (hwithin : s.Within maxNesting) :
    read source = (s, []) := by
  rcases h with ⟨t, ht, hderives⟩
  have hends : Stmt.Ends false [t] := ⟨t, [], rfl, by simp [Stmt.endsList, ht]⟩
  have hreads := hderives.reads_parseAll (Nat.zero_add maxNesting) hwithin hends
  rcases hreads _ (Cursor.proper_ofTokens_ofSource source)
    (Cursor.upcoming_ofTokens_ofSource source) with ⟨c, haccepts, _⟩
  rw [read, ofTokens, haccepts]
  rfl

/-- Reading gives a tree and reports nothing exactly if the grammar derives that
tree within the limit of nesting. -/
theorem read_eq_iff {source : Source} {s : Script Span} :
    read source = (s, []) ↔
      Derives (Token.ofSource source) s ∧ s.Within maxNesting := by
  constructor
  · exact derives_of_read
  · rintro ⟨hderives, hwithin⟩
    exact read_of_derives hderives hwithin

/-- Reading reports nothing exactly if the grammar derives some tree in which no
more than 256 blocks and expressions stand inside one another, and then it reads
that tree. -/
theorem read_reports_nothing_iff_derivable (source : Source) :
    ((read source).2 = [] ↔ ∃ s, Derives (Token.ofSource source) s ∧ s.Within 256) ∧
      ∀ s, read source = (s, []) ↔ Derives (Token.ofSource source) s ∧ s.Within 256 := by
  constructor
  · constructor
    · intro h
      exact ⟨(read source).1, read_eq_iff.mp (Prod.ext rfl h)⟩
    · rintro ⟨s, hs⟩
      rw [read_eq_iff.mpr hs]
  · intro s
    exact read_eq_iff

end Script
end Shellward
