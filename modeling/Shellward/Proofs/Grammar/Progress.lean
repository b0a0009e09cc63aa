import Shellward.Proofs.Grammar.Salvage
import Shellward.Proofs.Script.Parts

/-!
# Reading makes progress

Every turn of a loop over statements takes a token, whether a statement is read or given up.
So reading goes through the whole script, and what it leaves behind, statements and problems
together, is no more than the tokens of the script.

Main results:

- Theorem `Stmt.DerivesAll.length_allParts`: statements have a token each, whatever stands
  inside them.
- Theorem `Script.reading_progresses`: the turns, the end and the yield of reading a script.
-/

namespace Shellward

open Shellward.Parser

/-- Where fewer tokens are to come, more tokens were taken. -/
theorem Cursor.Later.position_lt {c c' : Cursor} (h : c.Later c')
    (hlt : c'.upcoming.length < c.upcoming.length) : c.position < c'.position := by
  have htokens := congrArg List.length h.tokens
  simp only [Cursor.tokens, List.length_append, List.length_reverse] at htokens
  simp only [Cursor.length_upcoming] at hlt
  simp only [Cursor.position]
  omega

/-! ### Statements and their tokens -/

mutual

/-- A statement has a token for each statement in it. -/
theorem Stmt.Derives.length_parts : ∀ {input rest : List Token} {s : Stmt Span},
    Stmt.Derives input s rest → s.parts.length + rest.length ≤ input.length
  | _, _, _, .comment hkind hend => by
      have hendLength := hend.length_le
      simp only [Stmt.parts, List.length_cons, List.length_nil]
      omega
  | _, _, _, .blank _ => by
      simp only [Stmt.parts, List.length_cons, List.length_nil]
      omega
  | _, _, _, .assign _ _ _ hvalue hend => by
      have hvalueLength := hvalue.length_lt
      have hendLength := hend.length_le
      simp only [Stmt.parts, List.length_cons, List.length_nil]
      omega
  | _, _, _, .cond _ htest hbody halternative hend => by
      have htestLength := htest.length_lt
      have hbodyLength := hbody.length_allParts
      have halternativeLength := halternative.length_parts
      have hendLength := hend.length_le
      simp only [Stmt.parts, List.length_cons, List.length_append]
      omega
  | _, _, _, .run hvalue hend => by
      have hvalueLength := hvalue.length_lt
      have hendLength := hend.length_le
      simp only [Stmt.parts, List.length_cons, List.length_nil]
      omega

/-- Statements have a token for each statement in them. -/
theorem Stmt.DerivesAll.length_allParts : ∀ {input rest : List Token} {ss : List (Stmt Span)},
    Stmt.DerivesAll input ss rest → (Stmt.allParts ss).length + rest.length ≤ input.length
  | _, _, _, .nil => by simp [Stmt.allParts]
  | _, _, _, .cons h hmore => by
      have hfirstLength := h.length_parts
      have hmoreLength := hmore.length_allParts
      simp only [Stmt.allParts, List.length_append]
      omega

/-- A block has a token for each statement in it. -/
theorem Stmt.DerivesBlock.length_allParts : ∀ {input rest : List Token}
    {body : List (Stmt Span)} {place : Span}, Stmt.DerivesBlock input body place rest →
      (Stmt.allParts body).length + rest.length ≤ input.length
  | _, _, _, _, .braces _ _ hbody _ => by
      have hbodyLength := hbody.length_allParts
      simp only [List.length_cons] at *
      omega

/-- What follows the body of a conditional has a token for each statement in it. -/
theorem Else.Derives.length_parts : ∀ {input rest : List Token} {a : Else Span},
    Else.Derives input a rest → a.parts.length + rest.length ≤ input.length
  | _, _, _, .absent => by simp [Else.parts]
  | _, _, _, .block _ hbody => by
      have hbodyLength := hbody.length_allParts
      simp only [Else.parts, List.length_cons]
      omega
  | _, _, _, .elseIf _ _ htest hbody hrest => by
      have htestLength := htest.length_lt
      have hbodyLength := hbody.length_allParts
      have hrestLength := hrest.length_parts
      simp only [Else.parts, List.length_cons, List.length_append]
      omega

end

/-- The tokens of a script but for its end mark. -/
theorem Token.filter_ofSource (source : Source) :
    (ofSource source).filter (·.kind != .eof) = tokensFrom 0 source := by
  have hfront : (tokensFrom 0 source).filter (·.kind != .eof) = tokensFrom 0 source := by
    refine List.filter_eq_self.mpr fun t ht => ?_
    simpa using (spelling_of_mem_tokensFrom ht).kind_ne_eof
  rw [ofSource, List.filter_append, hfront]
  exact List.append_nil _

namespace Script

/-! ### Reading a script -/

/-- Each turn of the loops over statements that is not at the end of its list goes on, from a
place further on.  Reading ends before the end mark.  The problems and the statements of the
script, at all levels, are no more than its tokens. -/
theorem reading_progresses (source : Source) :
    (∀ {room : Nat} {inBlock : Bool} {c : Cursor}, Stmt.Turns source room inBlock c →
        Stmt.endsList inBlock c.peek = false → ∀ before : List (Stmt Span),
          (∃ next, (Stmt.parseNext inBlock (Stmt.statementWithin room) before c).value =
            some (some next)) ∧
          c.position <
            (Stmt.parseNext inBlock (Stmt.statementWithin room) before c).rest.position) ∧
      (Stmt.parseAll maxNesting false (Cursor.ofTokens (Token.ofSource source))).rest.upcoming =
        [Token.endMark source.length] ∧
      (read source).2.length + (read source).1.allStatements.length ≤
        ((Token.ofSource source).filter (·.kind != .eof)).length := by
  refine ⟨?_, ?_, ?_⟩
  · intro room inBlock c hturn hends before
    have hc := (start_in source).later hturn.later
    have hattempts := Stmt.statementWithin_attempts hc (Stmt.contentsWithin_salvaged room)
    have hforward := forward_hereditary.next inBlock (Stmt.statementWithin_forward room) before c
    refine ⟨?_, hforward.position_lt (Stmt.parseNext_progress hattempts hends before)⟩
    cases hvalue : (Stmt.statementWithin room c).value with
    | none => exact ⟨before, by rw [Stmt.parseNext_of_none hends hvalue]⟩
    | some s => exact ⟨s :: before, by rw [Stmt.parseNext_of_some hends hvalue]⟩
  · rcases exists_outcome source with ⟨_, _, _, c', houtcome, _, _, hend⟩
    rw [houtcome]
    exact hend
  · rcases exists_kept source with ⟨kept, _, hle, hderives, _⟩
    have hparts := hderives.length_allParts
    rw [Token.filter_ofSource, allStatements]
    simp only [List.length_append, List.length_singleton] at hparts
    omega

def unclosedBlockSample : Source :=
  Utf8.encode "if a \x7b\n)"

/-- The place where the block of the sample begins. -/
def unclosedBlockStart : Cursor :=
  (Cursor.ofTokens (Token.ofSource unclosedBlockSample)).advance.advance.advance.advance

/-- A statement that cannot be read, in a block that is not closed: the turn in the block ends
further on. -/
theorem reading_progresses_unclosedBlock :
    Stmt.Turns unclosedBlockSample 255 true unclosedBlockStart ∧
      Stmt.endsList true unclosedBlockStart.peek = false ∧
      (Stmt.statementWithin 255 unclosedBlockStart).value.isNone ∧
      unclosedBlockStart.position <
        (Stmt.parseNext true (Stmt.statementWithin 255) [] unclosedBlockStart).rest.position ∧
      (read unclosedBlockSample).2.length = 2 := by
  have hopens : Stmt.Opens (Expr.parse 256 Operator.loosest) (Stmt.parseAll 255 true)
      (Cursor.ofTokens (Token.ofSource unclosedBlockSample)) unclosedBlockStart :=
    ⟨by decide +kernel, .inl ⟨by decide +kernel, by decide +kernel, by decide +kernel,
      by decide +kernel⟩⟩
  have hturn : Stmt.Turns unclosedBlockSample 255 true unclosedBlockStart := .block .start hopens
  have hends : Stmt.endsList true unclosedBlockStart.peek = false := by decide +kernel
  exact ⟨hturn, hends, by decide +kernel,
    ((reading_progresses unclosedBlockSample).1 hturn hends []).2, by decide +kernel⟩

end Script
end Shellward
