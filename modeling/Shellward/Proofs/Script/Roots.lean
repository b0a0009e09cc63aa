import Mathlib.Data.List.Forall2
import Shellward.Proofs.Script.Expressing
import Shellward.Proofs.Shell.Occurrences

/-!
# The roots of scripts

The expressions that the statements of a script hold, in order: values and tests.  If
nothing is reported about a script, they become the roots of its shell script one by one.

Main results:

- Theorem `Stmt.allExpressions_eq_roots`: the expressions of a script are those in its roots.
- Theorem `Script.forall₂_roots`: each root of a script becomes one of the shell script, a
  value as in value position, and a test as a condition without its brackets.
-/

namespace Shellward

variable {π : Type}

mutual

/-- The expressions that a statement holds, and what they are read as. -/
def Stmt.roots : Stmt π → List (Shell.Scope × Expr π)
  | .comment .. | .blank _ => []
  | .assign _ _ value _ | .run value _ => [(.plain, value)]
  | .cond test body _ alternative _ => (.test, test) :: (Stmt.allRoots body ++ alternative.roots)

/-- The expressions that several statements hold. -/
def Stmt.allRoots : List (Stmt π) → List (Shell.Scope × Expr π)
  | [] => []
  | s :: ss => s.roots ++ Stmt.allRoots ss

/-- The expressions that stand in what follows the body of a conditional. -/
def Else.roots : Else π → List (Shell.Scope × Expr π)
  | .absent => []
  | .block body _ => Stmt.allRoots body
  | .elseIf test body _ rest => (.test, test) :: (Stmt.allRoots body ++ rest.roots)

end

/-- The expressions that the statements of a script hold, and what they are read as. -/
def Script.roots (s : Script π) : List (Shell.Scope × Expr π) :=
  Stmt.allRoots s.statements

mutual

/-- The expressions in a statement are those in its roots. -/
theorem Stmt.expressions_eq_roots : ∀ s : Stmt π,
    s.expressions = s.roots.flatMap fun root => root.2.parts
  | .comment .. | .blank _ => rfl
  | .assign .. | .run .. => (List.append_nil _).symm
  | .cond test body _ alternative _ => by
      rw [Stmt.expressions, Stmt.roots, List.flatMap_cons, List.flatMap_append,
        Stmt.allExpressions_eq_roots body, Else.expressions_eq_roots alternative]

/-- The expressions in several statements are those in what the statements hold. -/
theorem Stmt.allExpressions_eq_roots : ∀ ss : List (Stmt π),
    Stmt.allExpressions ss = (Stmt.allRoots ss).flatMap fun root => root.2.parts
  | [] => rfl
  | s :: ss => by
      rw [Stmt.allExpressions, Stmt.allRoots, List.flatMap_append, Stmt.expressions_eq_roots s,
        Stmt.allExpressions_eq_roots ss]

/-- The expressions after the body of a conditional are those in what stands there. -/
theorem Else.expressions_eq_roots : ∀ a : Else π,
    a.expressions = a.roots.flatMap fun root => root.2.parts
  | .absent => rfl
  | .block body _ => Stmt.allExpressions_eq_roots body
  | .elseIf test body _ rest => by
      rw [Else.expressions, Else.roots, List.flatMap_cons, List.flatMap_append,
        Stmt.allExpressions_eq_roots body, Else.expressions_eq_roots rest]

end

/-- How the shell expresses a root. -/
inductive Expr.ExpressedRoot : Shell.Scope × Expr π → Shell.Scope × Shell.Expr → Prop where
  | value {e : Expr π} {shell : Shell.Expr} (h : Expressed .value e shell) :
      ExpressedRoot (.plain, e) (.plain, shell)
  | test {e : Expr π} {shell : Shell.Expr} (h : Expressed .condition e shell) :
      ExpressedRoot (.test, e) (.test, shell.unbracketed)

/-- A test without problems is expressed as a root. -/
theorem Expr.expressedRoot_test {e : Expr π} (h : e.testToShell.problems = []) :
    ExpressedRoot (.test, e) (.test, e.testToShell.value) := by
  rw [problems_testToShell] at h
  rw [value_testToShell]
  exact .test (expressed_of_problems h)

mutual

/-- If nothing is reported about a statement, each of its roots becomes one in the shell. -/
theorem Stmt.forall₂_roots : ∀ s : Stmt π, s.toShell.problems = [] →
    List.Forall₂ Expr.ExpressedRoot s.roots s.toShell.value.roots
  | .comment .., _ | .blank _, _ => by
      rw [Stmt.toShell]
      exact .nil
  | .assign target tp value p, h => by
      rw [Stmt.toShell] at h ⊢
      simp only [Checked.problems_bind, Checked.problems_pure, List.append_nil] at h
      exact .cons (.value (Expr.expressed_of_problems h)) .nil
  | .run value p, h => by
      rw [Stmt.toShell] at h ⊢
      cases hcallee : value.expansionName? with
      | some callee => simp [hcallee, Checked.report] at h
      | none =>
          simp only [hcallee, Checked.problems_bind, Checked.problems_pure, List.append_nil] at h
          exact .cons (.value (Expr.expressed_of_problems h)) .nil
  | .cond test body bp alternative p, h => by
      rw [Stmt.toShell] at h ⊢
      simp only [Checked.problems_bind, Checked.problems_pure, List.append_nil,
        List.append_eq_nil_iff] at h
      rcases h with ⟨htest, hbody, halternative⟩
      exact .cons (Expr.expressedRoot_test htest)
        (List.rel_append (Stmt.forall₂_allRoots body hbody)
          (Else.forall₂_roots alternative halternative))

/-- What several statements hold is expressed by what the shell statements hold, in order. -/
theorem Stmt.forall₂_allRoots : ∀ ss : List (Stmt π), (Stmt.allToShell ss).problems = [] →
    List.Forall₂ Expr.ExpressedRoot (Stmt.allRoots ss)
      (Shell.Stmt.allRoots (Stmt.allToShell ss).value)
  | [], _ => by
      rw [Stmt.allToShell]
      exact .nil
  | s :: ss, h => by
      rw [Stmt.allToShell] at h ⊢
      simp only [Checked.problems_bind, Checked.problems_pure, List.append_nil,
        List.append_eq_nil_iff] at h
      exact List.rel_append (Stmt.forall₂_roots s h.1) (Stmt.forall₂_allRoots ss h.2)

/-- What stands after the body of a conditional is expressed by what stands there in the shell, in
order. -/
theorem Else.forall₂_roots : ∀ a : Else π, a.toShell.problems = [] →
    List.Forall₂ Expr.ExpressedRoot a.roots a.toShell.value.roots
  | .absent, _ => by
      rw [Else.toShell]
      exact .nil
  | .block body bp, h => by
      rw [Else.toShell] at h ⊢
      simp only [Checked.problems_bind, Checked.problems_pure, List.append_nil] at h
      exact Stmt.forall₂_allRoots body h
  | .elseIf test body bp rest, h => by
      rw [Else.toShell] at h ⊢
      simp only [Checked.problems_bind, Checked.problems_pure, List.append_nil,
        List.append_eq_nil_iff] at h
      rcases h with ⟨htest, hbody, hrest⟩
      exact .cons (Expr.expressedRoot_test htest)
        (List.rel_append (Stmt.forall₂_allRoots body hbody) (Else.forall₂_roots rest hrest))

end

/-- Each root of a script that the shell expresses becomes one of the shell script. -/
theorem Script.forall₂_roots {s : Script π} {shell : Shell.Script} (h : s.toShell = .ok shell) :
    List.Forall₂ Expr.ExpressedRoot s.roots shell.roots := by
  rcases Script.of_toShell h with ⟨hproblems, rfl⟩
  exact Stmt.forall₂_allRoots s.statements hproblems

theorem exists_mem_of_forall₂ {α β : Type} {R : α → β → Prop} {as : List α} {bs : List β} {b : β}
    (h : List.Forall₂ R as bs) (hb : b ∈ bs) : ∃ a ∈ as, R a b := by
  induction h with
  | nil => exact absurd hb List.not_mem_nil
  | @cons a b' _ _ hfirst _ ih =>
      rcases List.mem_cons.mp hb with rfl | hrest
      · exact ⟨a, List.mem_cons_self, hfirst⟩
      · rcases ih hrest with ⟨a', ha', h⟩
        exact ⟨a', List.mem_cons_of_mem _ ha', h⟩

/-- Each root of the shell script is what a root of the script becomes. -/
theorem Script.exists_expressedRoot {s : Script π} {shell : Shell.Script}
    (h : s.toShell = .ok shell) {root : Shell.Scope × Shell.Expr} (hroot : root ∈ shell.roots) :
    ∃ r : Shell.Scope × Expr π, Expr.ExpressedRoot r root := by
  rcases exists_mem_of_forall₂ (forall₂_roots h) hroot with ⟨r, _, hr⟩
  exact ⟨r, hr⟩

end Shellward
