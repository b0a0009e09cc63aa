import Shellward.Proofs.Grammar.Statements
import Shellward.Proofs.Locality

/-!
# Statements that stay on their lines

Only an opening parenthesis or an opening brace lets a statement go on past the end of its
line.  On a line without them every parser stays: it looks at no token after the line end,
and a statement takes the line end or fails before it.  Parsing after a mistake goes on
within the line or after it.

Main results:

- Theorem `Expr.parse_confined`: an expression stays on its line.
- Theorem `Stmt.parse_confined`: a statement takes its line or fails on it.
- Theorem `Stmt.exists_passes`: the loop that reads statements passes such lines, whatever
  follows them.
-/

namespace Shellward

open Shellward.Parser

/-- A token that neither ends a line nor lets a statement go on past one. -/
def Token.Bare (t : Token) : Prop :=
  t.kind ≠ .newLine ∧ t.kind ≠ .eof ∧ t.kind ≠ .leftParen ∧ t.kind ≠ .leftBrace

/-- A line, or the rest of one, in which nothing opens. -/
inductive BareLine : List Token → Prop where
  | stop {t : Token} : t.kind = .newLine → BareLine [t]
  | cons {t : Token} {ts : List Token} : t.Bare → BareLine ts → BareLine (t :: ts)

/-- Lines in which nothing opens. -/
inductive BareLines : List Token → Prop where
  | nil : BareLines []
  | cons {line ts : List Token} : BareLine line → BareLines ts → BareLines (line ++ ts)

/-- A line goes on after its first token, unless that is the line end. -/
theorem BareLine.tail {t : Token} {ts : List Token} (h : BareLine (t :: ts)) :
    ts = [] ∨ BareLine ts := by
  cases h with
  | stop _ => exact .inl rfl
  | cons _ hts => exact .inr hts

/-- No end mark stands on a line in which nothing opens. -/
theorem BareLine.kind_ne_eof {t : Token} {ts : List Token} (h : BareLine (t :: ts)) :
    t.kind ≠ .eof := by
  cases h with
  | stop ht => simp [ht]
  | cons ht _ => exact ht.2.1

/-- Tokens in which nothing opens are lines, if the last one ends a line. -/
theorem BareLines.of_getLast? {ts : List Token}
    (hts : ∀ t ∈ ts, t.kind ≠ .eof ∧ t.kind ≠ .leftParen ∧ t.kind ≠ .leftBrace)
    (hlast : ∀ t ∈ ts.getLast?, t.kind = .newLine) : BareLines ts := by
  induction ts with
  | nil => exact .nil
  | cons t ts ih =>
      have htail : BareLines ts := by
        refine ih (fun u hu => hts u (List.mem_cons_of_mem t hu)) fun u hu => hlast u ?_
        rw [List.getLast?_cons, Option.mem_def.mp hu]
        rfl
      by_cases ht : t.kind = .newLine
      · exact .cons (.stop ht) htail
      · cases htail with
        | nil => exact absurd (hlast t (by simp)) ht
        | cons hline hmore => exact .cons (.cons ⟨ht, hts t (by simp)⟩ hline) hmore

/-! ### Parsers that stay on a line -/

namespace Parser

variable {α β σ : Type} {p : Parser α} {t : Token} {ts : List Token}
variable {Done Done' : List Token → Prop}

/-- Whatever follows these tokens of a line, a parser succeeds and leaves of them what
satisfies `Done`, or fails and leaves the rest of the line. -/
def Confined (Done : List Token → Prop) (p : Parser α) (ts : List Token) : Prop :=
  (∃ a problems left, Done left ∧ left.length ≤ ts.length ∧ RunsOn p ts (some a) problems left) ∨
    ∃ problems left, BareLine left ∧ left.length ≤ ts.length ∧ RunsOn p ts none problems left

namespace Confined

theorem pure (a : α) (h : Done ts) : Confined Done (Pure.pure a) ts :=
  .inl ⟨a, _, ts, h, Nat.le_refl _, RunsOn.pure⟩

/-- A parser that fails leaves the rest of the line. -/
theorem fail (fault : Fault) (s : Span) (h : BareLine ts) :
    Confined Done (Parser.fail fault s : Parser α) ts :=
  .inr ⟨_, ts, h, Nat.le_refl _, RunsOn.fail⟩

/-- A token of the line is taken. -/
theorem take (ht : t.kind ≠ .eof) (h : Done ts) : Confined Done Parser.take (t :: ts) :=
  .inl ⟨t, _, ts, h, Nat.le_succ _, RunsOn.take ht⟩

/-- A sequence goes on with what its first part leaves after a success. -/
theorem bind {g : α → Parser β} (hp : Confined Done p ts)
    (hg : ∀ a {left}, Done left → Confined Done' (g a) left) : Confined Done' (p >>= g) ts := by
  rcases hp with ⟨a, problems, middle, hmiddle, hle, hruns⟩ | ⟨problems, left, hleft, hle, hruns⟩
  · rcases hg a hmiddle with ⟨b, problems', left, hleft, hle', hruns'⟩ |
      ⟨problems', left, hleft, hle', hruns'⟩
    · exact .inl ⟨b, _, left, hleft, Nat.le_trans hle' hle, hruns.bind_some hruns'⟩
    · exact .inr ⟨_, left, hleft, Nat.le_trans hle' hle, hruns.bind_some hruns'⟩
  · exact .inr ⟨_, left, hleft, hle, hruns.bind_none⟩

/-- After a part that always fails nothing else matters. -/
theorem bind_of_fails {g : α → Parser β} (hp : Confined (fun _ => False) p ts) :
    Confined Done (p >>= g) ts :=
  hp.bind fun _ _ h => h.elim

/-- Looking at the next token takes nothing of the line. -/
theorem peek_bind {g : Token → Parser β} (hg : Confined Done (g t) (t :: ts)) :
    Confined Done (Parser.peek >>= g) (t :: ts) := by
  rcases hg with ⟨b, problems, left, hleft, hle, hruns⟩ | ⟨problems, left, hleft, hle, hruns⟩
  · exact .inl ⟨b, _, left, hleft, hle, RunsOn.peek.bind_some hruns⟩
  · exact .inr ⟨_, left, hleft, hle, RunsOn.peek.bind_some hruns⟩

/-- Looking at the token after the next one takes nothing of the line. -/
theorem peekNext_bind {u : Token} {g : Token → Parser β}
    (hg : Confined Done (g u) (t :: u :: ts)) :
    Confined Done (Parser.peekNext >>= g) (t :: u :: ts) := by
  rcases hg with ⟨b, problems, left, hleft, hle, hruns⟩ | ⟨problems, left, hleft, hle, hruns⟩
  · exact .inl ⟨b, _, left, hleft, hle, RunsOn.peekNext.bind_some hruns⟩
  · exact .inr ⟨_, left, hleft, hle, RunsOn.peekNext.bind_some hruns⟩

/-- After a token of the line, a parser stays on the rest of the line. -/
theorem take_bind {g : Token → Parser β} (ht : t.kind ≠ .eof) (hg : Confined Done (g t) ts) :
    Confined Done (Parser.take >>= g) (t :: ts) := by
  rcases hg with ⟨b, problems, left, hleft, hle, hruns⟩ | ⟨problems, left, hleft, hle, hruns⟩
  · exact .inl ⟨b, _, left, hleft, Nat.le_succ_of_le hle, (RunsOn.take ht).bind_some hruns⟩
  · exact .inr ⟨_, left, hleft, Nat.le_succ_of_le hle, (RunsOn.take ht).bind_some hruns⟩

/-- A loop stays on a line if its rounds do. -/
theorem iterate {step : σ → Parser (Option σ)}
    (hstep : ∀ s {ts}, BareLine ts → Confined BareLine (step s) ts) (s : σ) (hts : BareLine ts) :
    Confined BareLine (iterate step s) ts := by
  induction hn : ts.length using Nat.strongRecOn generalizing s ts with
  | ind n ih =>
      rcases hstep s hts with ⟨o, problems, left, hleft, hle, hruns⟩ |
        ⟨problems, left, hleft, hle, hruns⟩
      · cases o with
        | none => exact .inl ⟨s, _, left, hleft, hle, hruns.iterate_done⟩
        | some s' =>
            by_cases hlt : left.length < ts.length
            · rcases ih left.length (hn ▸ hlt) s' hleft rfl with
                ⟨s'', problems', left', hleft', hle', hruns'⟩ |
                ⟨problems', left', hleft', hle', hruns'⟩
              · exact .inl ⟨s'', _, left', hleft', Nat.le_trans hle' hle,
                  hruns.iterate_next hlt hruns'⟩
              · exact .inr ⟨_, left', hleft', Nat.le_trans hle' hle,
                  hruns.iterate_next hlt hruns'⟩
            · exact .inl ⟨s', _, left, hleft, hle, hruns.iterate_stuck (by omega)⟩
      · exact .inr ⟨_, left, hleft, hle, hruns.iterate_none⟩

/-- A token is taken within the line, or it is missing there. -/
theorem require {kind : Token.Kind} (hkind : kind ≠ .newLine) (fault : Found → Fault)
    (hts : BareLine ts) : Confined BareLine (Parser.require kind fault) ts := by
  unfold Parser.require
  cases hts with
  | @stop t ht =>
      refine .peek_bind ?_
      rw [if_neg (by rw [ht]; exact hkind.symm)]
      exact .fail _ _ (.stop ht)
  | @cons t ts ht hts =>
      refine .peek_bind ?_
      split
      · exact .take ht.2.1 hts
      · exact .fail _ _ (.cons ht hts)

end Confined
end Parser

/-! ### Expressions -/

namespace Expr

variable {inner : Nat → Parser (Expr Span)} {ts : List Token}

section Parts

variable (hinner : ∀ floor {ts}, BareLine ts → Confined BareLine (inner floor) ts)
include hinner

/-- An operand is read on a line if what is read inside it is. -/
theorem parseOperand_confined (hts : BareLine ts) :
    Confined BareLine (parseOperand inner) ts := by
  unfold parseOperand
  cases hts with
  | @stop t ht =>
      refine .peek_bind ?_
      simp only [ofToken?, ht]
      exact .fail _ _ (.stop ht)
  | @cons t ts ht hts =>
      refine .peek_bind ?_
      split
      · exact .take_bind ht.2.1 (.pure _ hts)
      · split
        · exact .take_bind ht.2.1 ((hinner _ hts).bind fun _ => .pure _)
        · rename_i hkind
          exact absurd hkind ht.2.2.1
        · exact .fail _ _ (.cons ht hts)
        · exact .fail _ _ (.cons ht hts)

/-- An expression is continued on its line only. -/
theorem parseContinuation_confined (floor : Nat) (left : Expr Span) (hts : BareLine ts) :
    Confined BareLine (parseContinuation inner floor left) ts := by
  unfold parseContinuation
  cases hts with
  | @stop t ht =>
      refine .peek_bind ?_
      simp only [ht]
      exact .pure _ (.stop ht)
  | @cons t ts ht hts =>
      refine .peek_bind ?_
      rw [if_neg ht.2.2.1]
      split
      · split
        · exact .bind (.take_bind ht.2.1 ((hinner _ hts).bind fun _ => .pure _)) fun _ => .pure _
        · exact .pure _ (.cons ht hts)
      · exact .pure _ (.cons ht hts)

end Parts

/-- An expression stays on its line. -/
theorem parse_confined (room : Nat) :
    ∀ floor {ts}, BareLine ts → Confined BareLine (parse room floor) ts := by
  induction room with
  | zero =>
      intro floor ts hts
      cases hts with
      | stop ht => exact .peek_bind (.fail _ _ (.stop ht))
      | cons ht hts => exact .peek_bind (.fail _ _ (.cons ht hts))
  | succ room ih =>
      intro floor ts hts
      exact (parseOperand_confined ih hts).bind fun left _ hleft =>
        .iterate (fun left _ hleft => parseContinuation_confined ih floor left hleft) left hleft

end Expr

/-! ### Statements -/

namespace Stmt

variable {expression : Parser (Expr Span)} {contents : Parser (List (Stmt Span))}
variable {t : Token} {ts : List Token}

/-- The end of a clause takes the end of the line. -/
theorem parseLineEnd_confined (after : Clause) (keyword : Option String) (hts : BareLine ts) :
    Confined (· = []) (parseLineEnd after keyword) ts := by
  unfold parseLineEnd
  cases hts with
  | @stop t ht =>
      refine .peek_bind ?_
      simp only [ht]
      exact .take_bind (by simp [ht]) (.pure _ rfl)
  | @cons t ts ht hts =>
      refine .peek_bind ?_
      split
      · rename_i hkind
        exact absurd hkind ht.1
      · rename_i hkind
        exact absurd hkind ht.2.1
      · exact .fail _ _ (.cons ht hts)

/-- The target of an assignment is read on a line. -/
theorem parseTarget_confined (hts : BareLine ts) : Confined BareLine parseTarget ts := by
  unfold parseTarget
  cases hts with
  | @stop t ht =>
      refine .peek_bind ?_
      simp only [ht]
      exact .fail _ _ (.stop ht)
  | @cons t ts ht hts =>
      refine .peek_bind ?_
      split
      · exact .take ht.2.1 hts
      · exact .fail _ _ (.cons ht hts)
      · exact .fail _ _ (.cons ht hts)

/-- Where nothing opens there is no block. -/
theorem parseBlock_fails (hts : BareLine ts) :
    Confined (fun _ => False) (parseBlock contents) ts := by
  refine .bind_of_fails ?_
  unfold Parser.require
  cases hts with
  | @stop t ht =>
      refine .peek_bind ?_
      rw [if_neg (by simp [ht])]
      exact .fail _ _ (.stop ht)
  | @cons t ts ht hts =>
      refine .peek_bind ?_
      rw [if_neg ht.2.2.2]
      exact .fail _ _ (.cons ht hts)

section Parts

variable (hexpression : ∀ {ts}, BareLine ts → Confined BareLine expression ts)
include hexpression

/-- An assignment takes all of its line. -/
theorem parseAssign_confined (ht : t.Bare) (hts : BareLine ts) :
    Confined (· = []) (parseAssign expression) (t :: ts) := by
  refine .take_bind ht.2.1 ((parseTarget_confined hts).bind fun target _ hleft => ?_)
  refine (Confined.require (by simp) _ hleft).bind fun _ _ hleft => ?_
  refine (hexpression hleft).bind fun value _ hleft => ?_
  exact (parseLineEnd_confined _ _ hleft).bind fun _ _ hnil => .pure _ hnil

/-- A conditional has a block, so on a line where nothing opens it fails. -/
theorem parseCond_confined (ht : t.Bare) (hts : BareLine ts) :
    Confined (· = []) (parseCond expression contents) (t :: ts) := by
  refine .take_bind ht.2.1 (.bind_of_fails ?_)
  exact (hexpression hts).bind fun test _ hleft => (parseBlock_fails hleft).bind_of_fails

/-- An expression on a line of its own takes all of the line. -/
theorem parseRun_confined (ht : t.Bare) (hts : BareLine ts) :
    Confined (· = []) (parseRun expression) (t :: ts) := by
  have hline : BareLine (t :: ts) := .cons ht hts
  have hnext : ∃ u us, ts = u :: us := by
    cases hts with
    | stop _ => exact ⟨_, _, rfl⟩
    | cons _ _ => exact ⟨_, _, rfl⟩
  rcases hnext with ⟨u, us, rfl⟩
  refine .peek_bind (.peekNext_bind ?_)
  split
  · exact .fail _ _ hline
  · split
    · exact .fail _ _ hline
    · refine (hexpression hline).bind fun value _ hleft => ?_
      exact (parseLineEnd_confined _ _ hleft).bind fun _ _ hnil => .pure _ hnil

/-- A statement takes its line or fails on it. -/
theorem parse_confined (hts : BareLine ts) :
    Confined (· = []) (parse expression contents) ts := by
  unfold parse
  cases hts with
  | @stop t ht =>
      refine .peek_bind ?_
      simp only [ht]
      exact .take_bind (by simp [ht]) (.pure _ rfl)
  | @cons t ts ht hts =>
      refine .peek_bind ?_
      split
      · exact .take_bind ht.2.1 ((parseLineEnd_confined _ _ hts).bind fun _ _ hnil => .pure _ hnil)
      · rename_i hkind
        exact absurd hkind ht.1
      · exact parseAssign_confined hexpression ht hts
      · exact parseCond_confined hexpression ht hts
      · exact parseRun_confined hexpression ht hts

end Parts

/-- A statement on a line in which nothing opens takes all of the line. -/
theorem statementWithin_confined (room : Nat) (hts : BareLine ts) :
    Confined (· = []) (statementWithin room) ts :=
  parse_confined (Expr.parse_confined room _) hts

/-! ### Going on after a mistake -/

/-- On every line there is a token that is not passed over after a mistake. -/
theorem exists_not_isSkipped (hts : BareLine ts) : ∃ skipped t left, ts = skipped ++ t :: left ∧
    (∀ u ∈ skipped, isSkipped false u = true) ∧ isSkipped false t = false ∧
      BareLine (t :: left) := by
  induction hts with
  | @stop t ht => exact ⟨[], t, [], rfl, by simp, by simp [isSkipped, ht], .stop ht⟩
  | @cons t ts ht hts ih =>
      by_cases hskipped : isSkipped false t = true
      · rcases ih with ⟨skipped, u, left, rfl, hall, hu, hline⟩
        refine ⟨t :: skipped, u, left, rfl, ?_, hu, hline⟩
        intro v hv
        rcases List.mem_cons.mp hv with rfl | hv
        · exact hskipped
        · exact hall v hv
      · exact ⟨[], t, ts, rfl, by simp, by simpa using hskipped, .cons ht hts⟩

/-- After a mistake parsing goes on within the line or after it. -/
theorem exists_resume (hts : BareLine ts) : ∃ left, RunsOn (resume false) ts (some ()) [] left ∧
    left.length < ts.length ∧ (left = [] ∨ BareLine left) := by
  rcases exists_not_isSkipped hts with ⟨skipped, t, left, rfl, hall, ht, hline⟩
  have hskip : RunsOn (Parser.skipWhile (isSkipped false)) (skipped ++ t :: left) (some ()) []
      (t :: left) := RunsOn.skipWhile hall ht
  have htake : RunsOn (Parser.take >>= fun _ => pure ()) (t :: left) (some ()) [] left :=
    (RunsOn.take hline.kind_ne_eof).bind_some RunsOn.pure
  cases skipped with
  | nil =>
      refine ⟨left, ?_, by simp, hline.tail⟩
      refine RunsOn.peek.bind_some (hskip.bind_some (RunsOn.peek.bind_some ?_))
      rw [if_pos (.inr ⟨by simp [ht], by simp [endsList, hline.kind_ne_eof]⟩)]
      exact htake
  | cons u skipped =>
      by_cases hkind : t.kind = .newLine
      · refine ⟨left, ?_, by grind, hline.tail⟩
        refine RunsOn.peek.bind_some (hskip.bind_some (RunsOn.peek.bind_some ?_))
        rw [if_pos (.inl hkind)]
        exact htake
      · refine ⟨t :: left, ?_, by grind, .inr hline⟩
        refine RunsOn.peek.bind_some (hskip.bind_some (RunsOn.peek.bind_some ?_))
        rw [if_neg (by simp [hkind, hall u (by simp)])]
        exact RunsOn.pure

/-- Each round of the loop that reads statements takes some of a line. -/
theorem exists_parseNext (room : Nat) (before : List (Stmt Span)) (hts : BareLine ts) :
    ∃ after problems left,
      RunsOn (parseNext false (statementWithin room) before) ts (some (some after)) problems left ∧
        left.length < ts.length ∧ (left = [] ∨ BareLine left) := by
  cases ts with
  | nil => cases hts
  | cons t ts =>
      have hend : ¬endsList false t = true := by simp [endsList, hts.kind_ne_eof]
      rcases statementWithin_confined room hts with ⟨s, problems, left, rfl, _, hruns⟩ |
        ⟨problems, middle, hmiddle, hle, hruns⟩
      · refine ⟨s :: before, _, [], RunsOn.peek.bind_some (by
          rw [if_neg hend]
          exact hruns.attempt.bind_some RunsOn.pure), by simp, .inl rfl⟩
      · rcases exists_resume hmiddle with ⟨left, hresume, hlt, hleft⟩
        refine ⟨before, _, left, RunsOn.peek.bind_some (by
          rw [if_neg hend]
          exact hruns.attempt.bind_some (hresume.bind_some RunsOn.pure)),
          Nat.lt_of_lt_of_le hlt hle, hleft⟩

/-- The loop that reads statements passes lines in which nothing opens. -/
theorem exists_passes (room : Nat) (before : List (Stmt Span)) (hts : BareLines ts) :
    ∃ after problems, Passes (parseNext false (statementWithin room)) before ts after problems := by
  induction hn : ts.length using Nat.strongRecOn generalizing before ts with
  | ind n ih =>
      cases hts with
      | nil => exact ⟨before, [], .nil⟩
      | @cons line more hline hmore =>
          rcases exists_parseNext room before hline with ⟨next, problems, left, hruns, hlt, hleft⟩
          have hlines : BareLines (left ++ more) := by
            rcases hleft with rfl | hleft
            · exact hmore
            · exact .cons hleft hmore
          have hlength : (left ++ more).length < n := by
            rw [← hn, List.length_append, List.length_append]
            omega
          rcases ih _ hlength next hlines rfl with ⟨after, problems', hpasses⟩
          exact ⟨after, _, .round hruns hlt hpasses⟩

end Stmt
end Shellward
