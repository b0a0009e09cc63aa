import Mathlib.Data.List.Forall2
import Shellward.Proofs.Script.Places
import Shellward.Script.Equality

/-!
# Scripts that differ in their places only

Two scripts that are equal once their places are erased are written, flattened and
expressed alike.  Each of these passes commutes with replacing places, so what it gives
for a script without places is what it gives for either of them.

Main results:

- Theorems `Script.flattenFrom_erase` and `Script.toShell_eq_or`: flattening and expressing
  scripts that differ in their places only.
- Theorem `Script.outputs_eq_of_erase_eq`: all that is made of such scripts is the same, and
  so is what is said about their problems.
-/

namespace Shellward

variable {π : Type}

/-- Two diagnostics say the same, whatever their places are. -/
structure Diagnostic.SaysSame (d d' : Diagnostic π) : Prop where
  title : d.title = d'.title
  message : d.message = d'.message
  help : d.help = d'.help

/-- What is said about problems tells their faults only. -/
theorem Problem.saysSame_of_map_eq {p q : Problem π} {f : π → π} (h : p.map f = q.map f) :
    p.diagnostic.SaysSame q.diagnostic := by
  have hfault : (p.map f).fault = (q.map f).fault := congrArg Problem.fault h
  constructor
  · exact congrArg Fault.title hfault
  · exact congrArg Fault.message hfault
  · exact congrArg Fault.help hfault

/-- Problems that are equal but for their places say the same, one by one. -/
theorem Problem.forall₂_saysSame {ps qs : List (Problem π)} {f : π → π}
    (h : ps.map (Problem.map f) = qs.map (Problem.map f)) :
    List.Forall₂ Diagnostic.SaysSame (ps.map Problem.diagnostic) (qs.map Problem.diagnostic) := by
  have hpairs : List.Forall₂ (fun p q => Problem.map f p = Problem.map f q) ps qs := by
    rw [← List.forall₂_eq_eq_eq, List.forall₂_map_left_iff, List.forall₂_map_right_iff] at h
    exact h
  rw [List.forall₂_map_left_iff, List.forall₂_map_right_iff]
  exact hpairs.imp fun _ _ => saysSame_of_map_eq

namespace Script

variable [Inhabited π] {s t : Script π}

/-- The layout of a script does not depend on its places. -/
theorem layout_erase (s : Script π) : s.erase.layout = s.layout :=
  layout_map _ s

/-- Flattening a script without places gives the flattened script without places. -/
theorem flattenFrom_erase (n : Nat) (s : Script π) :
    s.erase.flattenFrom n = ((s.flattenFrom n).1.erase, (s.flattenFrom n).2) := by
  simp only [erase, Script.map, flattenFrom, Stmt.flattenAll_map]

/-- Scripts that differ in their places only have the same shell script, or problems that are
equal without their places. -/
theorem toShell_eq_or (h : s.erase = t.erase) :
    (∃ shell, s.toShell = .ok shell ∧ t.toShell = .ok shell) ∨
      ∃ ps qs, s.toShell = .error ps ∧ t.toShell = .error qs ∧
        ps.map (Problem.map fun _ => (default : π)) =
          qs.map (Problem.map fun _ => (default : π)) := by
  have hs := toShell_map (fun _ => (default : π)) s
  have ht := toShell_map (fun _ => (default : π)) t
  rw [← erase] at hs ht
  rw [h, ht] at hs
  cases hshell : s.toShell with
  | ok shell =>
      cases hshell' : t.toShell with
      | ok shell' =>
          rw [hshell, hshell'] at hs
          cases hs
          exact .inl ⟨shell, rfl, rfl⟩
      | error qs =>
          rw [hshell, hshell'] at hs
          cases hs
  | error ps =>
      cases hshell' : t.toShell with
      | ok shell' =>
          rw [hshell, hshell'] at hs
          cases hs
      | error qs =>
          rw [hshell, hshell'] at hs
          exact .inr ⟨ps, qs, rfl, rfl, (Except.error.inj hs).symm⟩

/-- Scripts that differ in their places only have the same layout.  However many temporaries
were named before, they are flattened to scripts that differ in their places only and name as
many temporaries.  Both have the same shell script, and so the same text for every width, or
both have none, and then what is said about their problems is the same in the same order. -/
theorem outputs_eq_of_erase_eq {s t : Script Span} (h : s.erase = t.erase) :
    s.layout = t.layout ∧
    (∀ n, (s.flattenFrom n).1.erase = (t.flattenFrom n).1.erase ∧
      (s.flattenFrom n).2 = (t.flattenFrom n).2) ∧
    ((∃ shell, s.express = .ok shell ∧ t.express = .ok shell ∧
        ∀ width, s.compile width = .ok (shell.layout width) ∧
          t.compile width = .ok (shell.layout width)) ∨
      ∃ e e', s.express = .error e ∧ t.express = .error e' ∧
        List.Forall₂ Diagnostic.SaysSame e.diagnostics e'.diagnostics) := by
  refine ⟨?_, ?_, ?_⟩
  · rw [← layout_erase s, h, layout_erase]
  · intro n
    have hflat := flattenFrom_erase n s
    rw [h, flattenFrom_erase n t] at hflat
    rcases Prod.mk.inj hflat with ⟨hscript, hcount⟩
    exact ⟨hscript.symm, hcount.symm⟩
  · rcases toShell_eq_or h with ⟨shell, hs, ht⟩ | ⟨ps, qs, hs, ht, hproblems⟩
    · have hexpress : s.express = .ok shell ∧ t.express = .ok shell := by
        rw [express, express, hs, ht]
        exact ⟨rfl, rfl⟩
      refine .inl ⟨shell, hexpress.1, hexpress.2, ?_⟩
      intro width
      rw [Script.compile, Script.compile, hexpress.1, hexpress.2]
      exact ⟨rfl, rfl⟩
    · refine .inr ⟨.inexpressible ps, .inexpressible qs, ?_, ?_, ?_⟩
      · rw [express, hs]
        rfl
      · rw [express, ht]
        rfl
      · exact Problem.forall₂_saysSame hproblems

/-- Two sources with the same misuses of a builtin, laid out in different ways. -/
def misuseLayouts : Source × Source :=
  (Utf8.encode "let x = len()\nif replace(x) == f(1,\n2) \x7b\n\x7d\n",
    Utf8.encode "let  x=len( )\nif replace( x )==f(1, 2)\x7b\n  \x7d")

/-- Two layouts of the same misuses are reported in the same words. -/
theorem outputs_eq_of_erase_eq_misuseLayouts :
    let s := (read misuseLayouts.1).1
    let t := (read misuseLayouts.2).1
    s ≠ t ∧ s.erase = t.erase ∧ s.layout = t.layout ∧
      (∀ n, (s.flattenFrom n).1.erase = (t.flattenFrom n).1.erase ∧
        (s.flattenFrom n).2 = (t.flattenFrom n).2) ∧
      ∃ e e', s.express = .error e ∧ t.express = .error e' ∧
        List.Forall₂ Diagnostic.SaysSame e.diagnostics e'.diagnostics := by
  intro s t
  have herase : s.erase = t.erase := by decide +kernel
  have hfails : s.express.isOk = false := by decide +kernel
  rcases outputs_eq_of_erase_eq herase with ⟨hlayout, hflatten, hexpress⟩
  refine ⟨by decide +kernel, herase, hlayout, hflatten, ?_⟩
  rcases hexpress with ⟨shell, hs, _⟩ | hproblems
  · rw [hs] at hfails
    contradiction
  · exact hproblems

end Script
end Shellward
