import Mathlib.Data.List.Basic
import Shellward.Proofs.Script.Expressing
import Shellward.Proofs.Script.FlatForm
import Shellward.Script.Equality

/-!
# Scripts that the shell cannot express

A script that is read has no shell script exactly if it misuses a builtin: it calls an
expansion with a wrong number of arguments, or it does not use the value of one.
Everything else that could go wrong with a call is mended by flattening, which makes
the first argument of every expansion a variable and the others words.

The proof has three steps.  On flat scripts, what is reported is read off the tree
(`Stmt.misuses`).  Flattening keeps what is read off expressions, though it moves parts
of them to statements of their own.  And what is read off a tree tells whether there is
a misuse in it, at any depth.

Main results:

- Theorem `Stmt.problems_allToShell`: what is reported about flat statements.
- Theorem `Expr.flatten_keeps`: flattening keeps the misuses of an expression.
- Theorem `compile_inexpressible_iff_misused`: when a script has no shell script, and what
  is reported then.
-/

namespace Shellward

variable {π α β : Type}

/-! ### Misused builtins -/

/-- The ways in which builtins are misused among some expressions and statements. -/
inductive Misuse (es : List (Expr π)) (ss : List (Stmt π)) : Problem π → Prop where
  /-- A builtin has a wrong number of arguments. -/
  | arity {form : CallForm} {callee : String} {cp p : π} {arguments : List (Expr π)}
      {x : Expansion} (hmem : .call form callee cp arguments p ∈ es)
      (hcallee : Expansion.ofName? callee = some x) (harity : arguments.length ≠ x.arity) :
      Misuse es ss ⟨.wrongArity callee x.arity arguments.length, p⟩
  /-- A builtin is called by a statement that does not use its value. -/
  | unused {callee : String} {cp p q : π} {arguments : List (Expr π)} {x : Expansion}
      (hmem : .run (.call .plain callee cp arguments p) q ∈ ss)
      (hcallee : Expansion.ofName? callee = some x) :
      Misuse es ss ⟨.valueUnused callee, p⟩

/-- The ways in which a script misuses builtins, at any depth. -/
def Script.Misused (s : Script π) (problem : Problem π) : Prop :=
  Misuse s.expressions s.allStatements problem

/-- What is misused among some expressions and statements is misused among more. -/
theorem Misuse.mono {es es' : List (Expr π)} {ss ss' : List (Stmt π)} (hes : es ⊆ es')
    (hss : ss ⊆ ss') {q : Problem π} (h : Misuse es ss q) : Misuse es' ss' q := by
  cases h with
  | arity hmem hcallee harity => exact .arity (hes hmem) hcallee harity
  | unused hmem hcallee => exact .unused (hss hmem) hcallee

/-- Misuses among two parts are those of either part. -/
theorem misuse_append {es es' : List (Expr π)} {ss ss' : List (Stmt π)} {q : Problem π} :
    Misuse (es ++ es') (ss ++ ss') q ↔ Misuse es ss q ∨ Misuse es' ss' q := by
  constructor
  · intro h
    cases h with
    | arity hmem hcallee harity =>
        rcases List.mem_append.mp hmem with hmem | hmem
        · exact .inl (.arity hmem hcallee harity)
        · exact .inr (.arity hmem hcallee harity)
    | unused hmem hcallee =>
        rcases List.mem_append.mp hmem with hmem | hmem
        · exact .inl (.unused hmem hcallee)
        · exact .inr (.unused hmem hcallee)
  · rintro (h | h)
    · exact h.mono (List.subset_append_left _ _) (List.subset_append_left _ _)
    · exact h.mono (List.subset_append_right _ _) (List.subset_append_right _ _)

/-- An expression that is no builtin with a wrong number of arguments. -/
def Expr.Fits : Expr π → Prop
  | .call _ callee _ arguments _ =>
      ∀ x, Expansion.ofName? callee = some x → arguments.length = x.arity
  | _ => True

/-- Such an expression adds no misuse to those of its parts. -/
theorem misuse_cons {e : Expr π} (h : e.Fits) {es : List (Expr π)} {ss : List (Stmt π)}
    {q : Problem π} : Misuse (e :: es) ss q ↔ Misuse es ss q := by
  constructor
  · intro hq
    cases hq with
    | arity hmem hcallee harity =>
        rcases List.mem_cons.mp hmem with rfl | hmem
        · exact absurd (h _ hcallee) harity
        · exact .arity hmem hcallee harity
    | unused hmem hcallee => exact .unused hmem hcallee
  · intro hq
    exact hq.mono (List.subset_cons_self e es) (List.Subset.refl ss)

theorem not_misuse_nil {q : Problem π} : ¬ Misuse [] [] q := by
  intro hq
  cases hq with
  | arity hmem | unused hmem => exact absurd hmem List.not_mem_nil

/-- A statement that calls no builtin adds no misuse to those of its expressions. -/
theorem misuse_singleton {es : List (Expr π)} {s : Stmt π}
    (h : ∀ value p, s = .run value p → value.expansionName? = none) {q : Problem π} :
    Misuse es [s] q ↔ Misuse es [] q := by
  constructor
  · intro hq
    cases hq with
    | arity hmem hcallee harity => exact .arity hmem hcallee harity
    | unused hmem hcallee =>
        have hnone := h _ _ (List.mem_singleton.mp hmem).symm
        simp [Expr.expansionName?, hcallee] at hnone
  · intro hq
    exact hq.mono (List.Subset.refl _) (List.nil_subset _)

/-- A report says nothing but what is so, and it says something if anything is so. -/
structure Tells (report : List (Problem π)) (P : Problem π → Prop) : Prop where
  sound : ∀ q ∈ report, P q
  complete : ∀ q, P q → report ≠ []

namespace Tells

variable {r r' : List (Problem π)} {P P' : Problem π → Prop}

/-- Two reports together tell what both tell. -/
theorem append (h : Tells r P) (h' : Tells r' P') : Tells (r ++ r') fun q => P q ∨ P' q := by
  constructor
  · intro q hq
    rcases List.mem_append.mp hq with hq | hq
    · exact .inl (h.sound q hq)
    · exact .inr (h'.sound q hq)
  · rintro q (hq | hq) hnil
    · exact h.complete q hq (List.append_eq_nil_iff.mp hnil).1
    · exact h'.complete q hq (List.append_eq_nil_iff.mp hnil).2

/-- What a report tells depends neither on its order nor on repetitions. -/
theorem congr (h : Tells r P) (hr : ∀ q, q ∈ r' ↔ q ∈ r) (hP : ∀ q, P' q ↔ P q) :
    Tells r' P' := by
  constructor
  · intro q hq
    exact (hP q).mpr (h.sound q ((hr q).mp hq))
  · intro q hq hnil
    rcases List.exists_mem_of_ne_nil r (h.complete q ((hP q).mp hq)) with ⟨q', hq'⟩
    have hmem := (hr q').mpr hq'
    rw [hnil] at hmem
    exact absurd hmem List.not_mem_nil

/-- An empty report tells that nothing is so. -/
theorem nil (h : ∀ q, ¬ P q) : Tells [] P := by
  constructor
  · intro q hq
    exact absurd hq List.not_mem_nil
  · intro q hq
    exact absurd hq (h q)

end Tells

/-! ### What is read off a tree -/

namespace Expr

mutual

/-- The builtins with a wrong number of arguments, as they are reported: nothing is
said about the arguments of such a call. -/
def misuses : Expr π → List (Problem π)
  | .literal .. | .name .. => []
  | .call _ callee _ arguments p =>
      match Expansion.ofName? callee with
      | none => allMisuses arguments
      | some x =>
          if arguments.length = x.arity then allMisuses arguments
          else [⟨.wrongArity callee x.arity arguments.length, p⟩]
  | .binary _ left right _ => left.misuses ++ right.misuses
  | .negate inner _ | .group inner _ => inner.misuses

/-- The builtins with a wrong number of arguments in several expressions. -/
def allMisuses : List (Expr π) → List (Problem π)
  | [] => []
  | e :: es => e.misuses ++ allMisuses es

end

/-- The misuses in several expressions are those of each, in order. -/
theorem allMisuses_eq (es : List (Expr π)) : allMisuses es = es.flatMap misuses := by
  induction es with
  | nil => rw [allMisuses, List.flatMap_nil]
  | cons e es ih => rw [allMisuses, ih, List.flatMap_cons]

section

variable {callee : String} {cp p : π} {arguments : List (Expr π)} {x : Expansion}

/-- The misuses in the call of a command are those in its arguments. -/
theorem misuses_command (hcallee : Expansion.ofName? callee = none) (form : CallForm) :
    (Expr.call form callee cp arguments p).misuses = allMisuses arguments := by
  rw [misuses, hcallee]

/-- The misuses in a builtin with the right number of arguments are those in them. -/
theorem misuses_expansion (hcallee : Expansion.ofName? callee = some x)
    (harity : arguments.length = x.arity) (form : CallForm) :
    (Expr.call form callee cp arguments p).misuses = allMisuses arguments := by
  rw [misuses, hcallee]
  exact if_pos harity

/-- A builtin with a wrong number of arguments is reported itself, and nothing inside it. -/
theorem misuses_misused (hcallee : Expansion.ofName? callee = some x)
    (harity : arguments.length ≠ x.arity) (form : CallForm) :
    (Expr.call form callee cp arguments p).misuses =
      [⟨.wrongArity callee x.arity arguments.length, p⟩] := by
  rw [misuses, hcallee]
  exact if_neg harity

end

/-- What is read off the arguments of a call tells whether there is a misuse in them. -/
theorem tells_allMisuses {arguments : List (Expr π)}
    (h : ∀ e ∈ arguments, Tells e.misuses (Misuse e.parts [])) :
    Tells (allMisuses arguments) (Misuse (allParts arguments) []) := by
  induction arguments with
  | nil =>
      rw [allMisuses, allParts]
      exact .nil fun q => not_misuse_nil
  | cons e es ih =>
      rcases List.forall_mem_cons.mp h with ⟨he, hes⟩
      rw [allMisuses, allParts]
      apply (he.append (ih hes)).congr (fun q => Iff.rfl)
      intro q
      rw [← misuse_append, List.append_nil]

/-- What is read off an expression tells whether there is a misuse in it. -/
theorem tells_misuses (e : Expr π) : Tells e.misuses (Misuse e.parts []) := by
  induction e using Expr.induction with
  | literal kind text p | name text p =>
      rw [misuses, parts]
      apply Tells.nil
      intro q hq
      exact not_misuse_nil ((misuse_cons (by trivial)).mp hq)
  | call form callee cp arguments p ih =>
      have harguments := tells_allMisuses ih
      rw [parts]
      cases hcallee : Expansion.ofName? callee with
      | none =>
          have hfits : (Expr.call form callee cp arguments p).Fits := by
            intro x hx
            rw [hcallee] at hx
            contradiction
          rw [misuses_command hcallee]
          exact harguments.congr (fun q => Iff.rfl) fun q => misuse_cons hfits
      | some x =>
          by_cases harity : arguments.length = x.arity
          · have hfits : (Expr.call form callee cp arguments p).Fits := by
              intro y hy
              rw [← Option.some.inj (hcallee.symm.trans hy)]
              exact harity
            rw [misuses_expansion hcallee harity]
            exact harguments.congr (fun q => Iff.rfl) fun q => misuse_cons hfits
          · rw [misuses_misused hcallee harity]
            constructor
            · intro q hq
              rw [List.mem_singleton.mp hq]
              exact .arity List.mem_cons_self hcallee harity
            · intro q _
              exact List.cons_ne_nil _ _
  | binary op left right p ihleft ihright =>
      rw [misuses, parts]
      apply (ihleft.append ihright).congr (fun q => Iff.rfl)
      intro q
      rw [← misuse_append, List.append_nil]
      exact misuse_cons (by trivial)
  | negate inner p ih | group inner p ih =>
      rw [misuses, parts]
      exact ih.congr (fun q => Iff.rfl) fun q => misuse_cons (by trivial)

end Expr

mutual

/-- The misused builtins of a statement, as they are reported: nothing is said about
the arguments of a builtin whose value is not used. -/
def Stmt.misuses : Stmt π → List (Problem π)
  | .comment .. | .blank _ => []
  | .assign _ _ value _ => value.misuses
  | .run value _ =>
      match value.expansionName? with
      | some callee => [⟨.valueUnused callee, value.place⟩]
      | none => value.misuses
  | .cond test body _ alternative _ =>
      test.misuses ++ (Stmt.allMisuses body ++ alternative.misuses)

/-- The misused builtins of several statements. -/
def Stmt.allMisuses : List (Stmt π) → List (Problem π)
  | [] => []
  | s :: ss => s.misuses ++ Stmt.allMisuses ss

/-- The misused builtins in what follows the body of a conditional. -/
def Else.misuses : Else π → List (Problem π)
  | .absent => []
  | .block body _ => Stmt.allMisuses body
  | .elseIf test body _ rest => test.misuses ++ (Stmt.allMisuses body ++ rest.misuses)

end

/-- The misuses in statements are those in the first ones and then those in the others. -/
theorem Stmt.allMisuses_append (ss ts : List (Stmt π)) :
    Stmt.allMisuses (ss ++ ts) = Stmt.allMisuses ss ++ Stmt.allMisuses ts := by
  induction ss with
  | nil => rw [Stmt.allMisuses, List.nil_append, List.nil_append]
  | cons s ss ih => rw [List.cons_append, Stmt.allMisuses, Stmt.allMisuses, ih, List.append_assoc]

/-! ### What is reported about flat scripts -/

namespace Expr

/-- What is reported about a flat expression is read off it, and a word of an expansion
becomes a word of the shell. -/
theorem Flat.problems_toShell {e : Expr π} (h : e.Flat fun _ => False) (context : Context) :
    (e.toShell context).problems = e.misuses ∧
      (e.isWord = true → (e.toShell context).value.isWord = true) := by
  induction h generalizing context with
  | literal kind text p =>
      rw [toShell, misuses]
      exact ⟨rfl, fun _ => rfl⟩
  | name text p =>
      rw [toShell, misuses]
      exact ⟨rfl, by simp [isWord]⟩
  | given h => exact h.elim
  | command hcallee _ ih =>
      rw [toShell_command hcallee, misuses_command hcallee, allMisuses_eq]
      exact ⟨List.flatMap_congr fun e he => (ih e he .value).1, fun _ => rfl⟩
  | misused hcallee harity =>
      rw [toShell_misused hcallee harity, misuses_misused hcallee harity]
      exact ⟨rfl, fun _ => rfl⟩
  | expansion hcallee harity hforms _ ih =>
      have hwords := fun e he => (ih e he context).2 (hforms e he)
      rcases toShell_expansion hcallee harity hwords .plain with ⟨expansion, htakes, heq⟩
      rw [heq, misuses_expansion hcallee harity, allMisuses, misuses, List.nil_append,
        allMisuses_eq]
      exact ⟨List.flatMap_congr fun e he => (ih e he context).1, fun _ => htakes.isWord⟩
  | binary _ _ ihleft ihright =>
      rw [toShell, misuses]
      simp only [Checked.problems_bind, Checked.problems_pure, List.append_nil, (ihleft _).1,
        (ihright _).1]
      exact ⟨trivial, by simp [isWord]⟩
  | @negate inner p _ ih =>
      cases hnumber : inner.number? with
      | some text =>
          rcases eq_literal_of_number? hnumber with ⟨q, rfl⟩
          rw [toShell, hnumber, misuses, misuses]
          exact ⟨rfl, by simp [isWord]⟩
      | none =>
          rw [toShell, hnumber, misuses]
          simp only [Checked.problems_bind, Checked.problems_pure, List.append_nil, (ih _).1]
          exact ⟨trivial, by simp [isWord]⟩
  | group _ ih =>
      rw [toShell, misuses]
      simp only [Checked.problems_bind, Checked.problems_pure, List.append_nil, (ih _).1]
      exact ⟨trivial, by simp [isWord]⟩

/-- What is reported about a flat statement of an expression that is no builtin is read
off the expression. -/
theorem FlatLine.problems_toShell {e : Expr π} (h : e.FlatLine fun _ => False) :
    (e.toShell .value).problems = e.misuses := by
  cases h with
  | value h => exact (h.problems_toShell .value).1
  | command hcallee harguments =>
      rw [toShell_command hcallee, misuses_command hcallee, allMisuses_eq]
      exact List.flatMap_congr fun e he => ((harguments e he).problems_toShell .value).1

end Expr

mutual

/-- What is reported about a flat statement is read off it. -/
theorem Stmt.problems_toShell : ∀ {s : Stmt π}, s.Flat (fun _ => False) →
    s.toShell.problems = s.misuses
  | .comment .., _ | .blank _, _ => by
      rw [Stmt.toShell, Stmt.misuses]
      rfl
  | .assign _ _ value _, h => by
      have hvalue := (Expr.Flat.problems_toShell (e := value) h .value).1
      rw [Stmt.toShell, Stmt.misuses, Checked.problems_bind, hvalue]
      exact List.append_nil _
  | .run value _, h => by
      rw [Stmt.toShell, Stmt.misuses]
      cases value.expansionName? with
      | some callee => rfl
      | none =>
          have hvalue := Expr.FlatLine.problems_toShell (e := value) h
          simp only [Checked.problems_bind, Checked.problems_pure, List.append_nil, hvalue]
  | .cond test _ _ _ _, ⟨htest, hbody, halternative⟩ => by
      rw [Stmt.toShell, Stmt.misuses]
      simp only [Checked.problems_bind, Checked.problems_pure, List.append_nil,
        test.problems_testToShell, (htest.problems_toShell .condition).1,
        Stmt.problems_allToShell hbody, Else.problems_toShell halternative]

/-- What is reported about flat statements is read off them. -/
theorem Stmt.problems_allToShell : ∀ {ss : List (Stmt π)}, Stmt.AllFlat (fun _ => False) ss →
    (Stmt.allToShell ss).problems = Stmt.allMisuses ss
  | [], _ => by
      rw [Stmt.allToShell, Stmt.allMisuses]
      rfl
  | _ :: _, ⟨hs, hss⟩ => by
      rw [Stmt.allToShell, Stmt.allMisuses]
      simp only [Checked.problems_bind, Checked.problems_pure, List.append_nil,
        Stmt.problems_toShell hs, Stmt.problems_allToShell hss]

/-- About what follows the body of a conditional, once flat, its misuses are reported. -/
theorem Else.problems_toShell : ∀ {a : Else π}, a.Flat (fun _ => False) →
    a.toShell.problems = a.misuses
  | .absent, _ => by
      rw [Else.toShell, Else.misuses]
      rfl
  | .block body _, h => by
      have hbody : (Stmt.allToShell body).problems = Stmt.allMisuses body :=
        Stmt.problems_allToShell h
      rw [Else.toShell, Else.misuses]
      simp only [Checked.problems_bind, Checked.problems_pure, List.append_nil, hbody]
  | .elseIf test _ _ _, ⟨htest, hbody, hrest⟩ => by
      rw [Else.toShell, Else.misuses]
      simp only [Checked.problems_bind, Checked.problems_pure, List.append_nil,
        test.problems_testToShell, (htest.problems_toShell .condition).1,
        Stmt.problems_allToShell hbody, Else.problems_toShell hrest]

end

/-! ### Flattening keeps misuses -/

namespace Flatten

variable {P R : Problem π → Prop} {report : α → List (Problem π)}
  {report' : β → List (Problem π)}

/-- However many temporaries are named before, `P` are the misuses of the statements put
before and those that `report` reads off the value. -/
def Keeps (P : Problem π → Prop) (report : α → List (Problem π)) (f : Flatten π α) : Prop :=
  ∀ n q, q ∈ Stmt.allMisuses (f n).before ∨ q ∈ report (f n).value ↔ P q

/-- A value that is given puts no misuse before. -/
theorem Keeps.pure {a : α} (h : ∀ q, q ∈ report a ↔ P q) :
    Keeps P report (Pure.pure a : Flatten π α) := by
  intro n q
  rw [pure_apply, Stmt.allMisuses, ← h q]
  simp

/-- A second part that keeps what is read off the value of the first one. -/
theorem Keeps.andThen {f : Flatten π α} {g : α → Flatten π β} (hf : Keeps P report f)
    (hg : ∀ n, Keeps (fun q => q ∈ report (f n).value) report' (g (f n).value)) :
    Keeps P report' (f >>= g) := by
  intro n q
  rw [bind_apply, Stmt.allMisuses_append, List.mem_append, or_assoc, hg n, hf n]

/-- A value made of two parts keeps the misuses of both. -/
theorem Keeps.both {γ : Type} {report'' : γ → List (Problem π)} {f : Flatten π α}
    {g : Flatten π β} {h : α → β → γ} (hf : Keeps P report f) (hg : Keeps R report' g)
    (hreport : ∀ m n q, q ∈ report'' (h (f m).value (g n).value) ↔
      q ∈ report (f m).value ∨ q ∈ report' (g n).value) :
    Keeps (fun q => P q ∨ R q) report'' (do
      let a ← f
      let b ← g
      Pure.pure (h a b)) := by
  intro n q
  simp only [bind_apply, pure_apply, List.append_nil, Stmt.allMisuses_append, List.mem_append]
  rw [hreport, or_or_or_comm, hf n, hg]

/-- What is said about the misuses may be put in equivalent words. -/
theorem Keeps.congr {P' : Problem π → Prop} {f : Flatten π α} (hf : Keeps P report f)
    (h : ∀ q, P' q ↔ P q) : Keeps P' report f := by
  intro n q
  rw [hf n q, h q]

/-- A value that is assigned to a temporary keeps its misuses. -/
theorem Keeps.lift (value : Expr π) (place : π) :
    Keeps (fun q => q ∈ value.misuses) Expr.misuses (Flatten.lift value place) := by
  intro n q
  simp [Flatten.lift, Stmt.allMisuses, Stmt.misuses, Expr.misuses]

end Flatten

namespace Expr

open Flatten

variable {e : Expr π} {flat : Flatten π (Expr π)}

/-- Misuses stay when a value is put into a variable. -/
theorem toVariable_keeps (h : Keeps (fun q => q ∈ e.misuses) misuses flat) :
    Keeps (fun q => q ∈ e.misuses) misuses (e.toVariable flat) := by
  unfold toVariable
  split
  · exact .pure fun q => Iff.rfl
  · apply h.andThen
    intro n
    exact .lift _ _

/-- A call that gives the value of a variable misuses no builtin itself. -/
theorem misuses_echo (depth : Nat) (holder : Expr π) (place : π) :
    (echo depth holder place).misuses = holder.misuses := by
  rw [echo, misuses_command ofName?_echo, allMisuses_eq]
  simp [misuses]

/-- Misuses stay when a value becomes a word of an expansion. -/
theorem toWord_keeps (depth : Nat) (h : Keeps (fun q => q ∈ e.misuses) misuses flat) :
    Keeps (fun q => q ∈ e.misuses) misuses (e.toWord depth flat) := by
  unfold toWord
  split
  · exact .pure fun q => Iff.rfl
  · exact .pure fun q => Iff.rfl
  · exact h
  · apply (toVariable_keeps h).andThen
    intro n
    apply Keeps.pure
    intro q
    rw [misuses_echo]

/-- Misuses stay among arguments if they stay in each of them. -/
theorem flattenAll_keeps {es : List (Expr π)} {depth : Nat}
    (h : ∀ e ∈ es, Keeps (fun q => q ∈ e.misuses) misuses (e.flatten depth)) :
    Keeps (fun q => q ∈ allMisuses es) allMisuses (flattenAll depth es) := by
  induction es with
  | nil =>
      rw [flattenAll]
      exact .pure fun q => Iff.rfl
  | cons e es ih =>
      rcases List.forall_mem_cons.mp h with ⟨he, hes⟩
      rw [flattenAll]
      apply (he.both (ih hes) _).congr
      · intro q
        rw [allMisuses, List.mem_append]
      · intro m n q
        rw [allMisuses, List.mem_append]

/-- Misuses stay among the words of an expansion if they stay in each of them. -/
theorem flattenWords_keeps {es : List (Expr π)} {depth : Nat}
    (h : ∀ e ∈ es, Keeps (fun q => q ∈ e.misuses) misuses (e.flatten depth)) :
    Keeps (fun q => q ∈ allMisuses es) allMisuses (flattenWords depth es) := by
  induction es with
  | nil =>
      rw [flattenWords]
      exact .pure fun q => Iff.rfl
  | cons e es ih =>
      rcases List.forall_mem_cons.mp h with ⟨he, hes⟩
      rw [flattenWords]
      apply ((toWord_keeps depth he).both (ih hes) _).congr
      · intro q
        rw [allMisuses, List.mem_append]
      · intro m n q
        rw [allMisuses, List.mem_append]

/-- The words of an expansion are flattened to as many words. -/
theorem length_flattenWords (es : List (Expr π)) (depth n : Nat) :
    (flattenWords depth es n).value.length = es.length := by
  induction es generalizing n with
  | nil =>
      rw [flattenWords]
      rfl
  | cons e es ih =>
      rw [flattenWords]
      simp only [Flatten.bind_apply, Flatten.pure_apply, List.length_cons, ih]

/-- Flattening keeps the misuses of an expression. -/
theorem flatten_keeps (e : Expr π) (depth : Nat) :
    Keeps (fun q => q ∈ e.misuses) misuses (e.flatten depth) := by
  induction e using Expr.induction generalizing depth with
  | literal kind text p | name text p =>
      rw [flatten]
      exact .pure fun q => Iff.rfl
  | call form callee cp arguments p ih =>
      have hflat := fun e he => ih e he (depth + 1)
      cases form with
      | nested d =>
          rw [flatten]
          exact .pure fun q => Iff.rfl
      | plain =>
          cases hcallee : Expansion.ofName? callee with
          | none =>
              rw [flatten_command hcallee, misuses_command hcallee]
              apply (flattenAll_keeps hflat).andThen
              intro n
              apply Keeps.pure
              intro q
              rw [misuses_command hcallee]
          | some x =>
              by_cases harity : arguments.length = x.arity
              · cases arguments with
                | nil => exact absurd harity.symm x.arity_ne_zero
                | cons target words =>
                    rcases List.forall_mem_cons.mp hflat with ⟨htarget, hwords⟩
                    rw [flatten_expansion hcallee depth cp p harity,
                      misuses_expansion hcallee harity]
                    apply ((toVariable_keeps htarget).both (flattenWords_keeps hwords) _).congr
                    · intro q
                      rw [allMisuses, List.mem_append]
                    · intro m n q
                      rw [misuses_expansion hcallee, allMisuses, List.mem_append]
                      rw [List.length_cons, length_flattenWords, ← harity, List.length_cons]
              · rw [flatten_misused hcallee depth cp p harity]
                exact .pure fun q => Iff.rfl
  | binary op left right p ihleft ihright =>
      rw [flatten]
      apply ((ihleft (depth + 1)).both (ihright (depth + 1)) _).congr
      · intro q
        rw [misuses, List.mem_append]
      · intro m n q
        rw [misuses, List.mem_append]
  | negate inner p ih | group inner p ih =>
      rw [flatten, misuses]
      apply (ih (depth + 1)).andThen
      intro n
      apply Keeps.pure
      intro q
      rw [misuses]

/-- What is read off a flattened expression and the assignments put before it tells
whether there is a misuse in the expression. -/
theorem tells_flatten (e : Expr π) (depth n : Nat) :
    Tells (Stmt.allMisuses (e.flatten depth n).before ++ (e.flatten depth n).value.misuses)
      (Misuse e.parts []) := by
  apply e.tells_misuses.congr
  · intro q
    rw [List.mem_append]
    exact e.flatten_keeps depth n q
  · intro q
    exact Iff.rfl

/-- Flattening keeps which builtin an expression calls, and where. -/
theorem expansionName?_flatten (e : Expr π) (depth n : Nat) :
    (e.flatten depth n).value.expansionName? = e.expansionName? ∧
      (e.flatten depth n).value.place = e.place := by
  cases e with
  | call form callee cp arguments p =>
      cases form with
      | nested d =>
          rw [flatten]
          exact ⟨rfl, rfl⟩
      | plain =>
          cases hcallee : Expansion.ofName? callee with
          | none =>
              rw [flatten_command hcallee, Flatten.bind_apply, Flatten.pure_apply]
              by_cases hdepth : depth = 0 <;>
                simp [formAt, hdepth, expansionName?, hcallee, place]
          | some x =>
              by_cases harity : arguments.length = x.arity
              · cases arguments with
                | nil => exact absurd harity.symm x.arity_ne_zero
                | cons target words =>
                    rw [flatten_expansion hcallee depth cp p harity]
                    exact ⟨rfl, rfl⟩
              · rw [flatten_misused hcallee depth cp p harity]
                exact ⟨rfl, rfl⟩
  | literal | name | binary | negate | group =>
      rw [flatten]
      exact ⟨rfl, rfl⟩

/-- An expression that calls a builtin as it is written. -/
theorem exists_of_expansionName? {e : Expr π} {callee : String}
    (h : e.expansionName? = some callee) :
    ∃ cp arguments p x, e = .call .plain callee cp arguments p ∧
      Expansion.ofName? callee = some x := by
  unfold expansionName? at h
  split at h
  next name cp arguments p =>
    by_cases hsome : (Expansion.ofName? name).isSome = true
    · rw [if_pos hsome] at h
      rcases Option.isSome_iff_exists.mp hsome with ⟨x, hx⟩
      rw [← Option.some.inj h]
      exact ⟨cp, arguments, p, x, rfl, hx⟩
    · rw [if_neg hsome] at h
      contradiction
  next => contradiction

end Expr

mutual

/-- What is read off a flattened statement tells whether there is a misuse in the
statement. -/
theorem Stmt.tells_flatten : ∀ (s : Stmt π) (n : Nat),
    Tells (Stmt.allMisuses (s.flatten n).1) (Misuse s.expressions s.parts)
  | .comment .., _ | .blank _, _ =>
      .nil fun _ hq => not_misuse_nil ((misuse_singleton (by simp)).mp hq)
  | .assign _ _ value _, n => by
      apply (value.tells_flatten 1 n).congr
      · intro q
        simp [Stmt.flatten, Stmt.allMisuses_append, Stmt.allMisuses, Stmt.misuses]
      · intro q
        exact misuse_singleton (by simp)
  | .run value p, n => by
      rcases value.expansionName?_flatten 0 n with ⟨hname, hplace⟩
      have hvalue := value.tells_flatten 0 n
      rw [Stmt.flatten, Stmt.allMisuses_append, Stmt.allMisuses, Stmt.misuses, hname, hplace,
        Stmt.allMisuses, List.append_nil]
      cases hexpansion : value.expansionName? with
      | none =>
          apply hvalue.congr
          · intro q
            exact Iff.rfl
          · intro q
            exact misuse_singleton (by simp_all)
      | some callee =>
          -- Misuses that were moved to assignments are reported besides the call itself.
          rcases Expr.exists_of_expansionName? hexpansion with ⟨cp, arguments, p', x, rfl, hx⟩
          constructor
          · intro q hq
            rcases List.mem_append.mp hq with hq | hq
            · have hmisuse := hvalue.sound q (List.mem_append_left _ hq)
              exact hmisuse.mono (List.Subset.refl _) (List.nil_subset _)
            · rw [List.mem_singleton.mp hq]
              exact .unused List.mem_cons_self hx
          · intro q _ hnil
            exact absurd (List.append_eq_nil_iff.mp hnil).2 (List.cons_ne_nil _ _)
  | .cond test body bp alternative p, n => by
      have htest := test.tells_flatten 1 n
      have hbody := Stmt.tells_flattenAll body (test.flatten 1 n).temporaries
      have halternative := Else.tells_flatten alternative
        (Stmt.flattenAll (test.flatten 1 n).temporaries body).2
      apply (htest.append (hbody.append halternative)).congr
      · intro q
        simp only [Stmt.flatten, Stmt.allMisuses_append, Stmt.allMisuses, Stmt.misuses,
          List.append_nil, List.mem_append]
        grind
      · intro q
        rw [Stmt.expressions, Stmt.parts, ← List.singleton_append, misuse_append, misuse_append,
          misuse_singleton (by simp)]

/-- What is read off flattened statements tells whether there is a misuse in the
statements. -/
theorem Stmt.tells_flattenAll : ∀ (ss : List (Stmt π)) (n : Nat),
    Tells (Stmt.allMisuses (Stmt.flattenAll n ss).1)
      (Misuse (Stmt.allExpressions ss) (Stmt.allParts ss))
  | [], _ => .nil fun _ => not_misuse_nil
  | s :: ss, n => by
      have hs := Stmt.tells_flatten s n
      have hss := Stmt.tells_flattenAll ss (s.flatten n).2
      rw [Stmt.flattenAll, Stmt.allMisuses_append]
      apply (hs.append hss).congr (fun q => Iff.rfl)
      intro q
      rw [Stmt.allExpressions, Stmt.allParts, misuse_append]

/-- What is read off a flattened alternative and the assignments put before it tells
whether there is a misuse in the alternative. -/
theorem Else.tells_flatten : ∀ (a : Else π) (n : Nat),
    Tells (Stmt.allMisuses (a.flatten n).before ++ (a.flatten n).value.misuses)
      (Misuse a.expressions a.parts)
  | .absent, _ => .nil fun _ => not_misuse_nil
  | .block body _, n => Stmt.tells_flattenAll body n
  | .elseIf test body _ rest, n => by
      have htest := test.tells_flatten 1 n
      have hbody := Stmt.tells_flattenAll body (test.flatten 1 n).temporaries
      have hrest := Else.tells_flatten rest
        (Stmt.flattenAll (test.flatten 1 n).temporaries body).2
      apply (htest.append (hbody.append hrest)).congr
      · intro q
        simp only [Else.flatten, Stmt.allMisuses_append, Else.misuses, List.mem_append]
        grind
      · intro q
        rw [Else.expressions, Else.parts, ← misuse_append, ← misuse_append, List.nil_append]

end

/-! ### The wording of reports -/

/-- A text that begins with the name of a builtin begins with one of two letters. -/
theorem Expansion.head?_name_append (x : Expansion) (rest : String) :
    (x.name ++ rest).toList.head? = some 'l' ∨ (x.name ++ rest).toList.head? = some 'r' := by
  rw [String.toList_append, List.head?_append]
  rcases x with _ | everywhere | side
  · exact .inl rfl
  · cases everywhere <;> exact .inr rfl
  · cases side <;> exact .inr rfl

namespace Fault

theorem head?_variableExpected (name : String) :
    (variableExpected name).message.toList.head? = some 't' := by
  change ("the first argument of " ++ name ++ "() must be a variable name").toList.head? = _
  rw [String.append_assoc, String.toList_append, List.head?_append]
  rfl

theorem head?_wordExpected (name : String) (position : Nat) :
    (wordExpected name position).message.toList.head? = some 'a' := by
  change ("argument " ++ toString position ++ " of " ++ name ++
    "() must be a literal or a command").toList.head? = _
  simp only [String.append_assoc]
  rw [String.toList_append, List.head?_append]
  rfl

theorem getLast?_expansionUnknown (name : String) :
    (expansionUnknown name).message.toList.getLast? = some 'd' := by
  change (name ++ "() cannot be lowered").toList.getLast? = _
  rw [String.toList_append, List.getLast?_append]
  rfl

theorem getLast?_valueUnused (name : String) :
    (valueUnused name).message.toList.getLast? = some 't' := by
  change (name ++ "() produces a value and cannot be used as a statement").toList.getLast? = _
  rw [String.toList_append, List.getLast?_append]
  rfl

/-- A report on a wrong number of arguments ends with the number that was found. -/
theorem getLast?_wrongArity (name : String) (expected found : Nat) :
    (wrongArity name expected found).message.toList.getLast? =
      (Nat.toDigits 10 found).getLast? := by
  change (name ++ "() takes " ++ toString expected ++ " argument" ++
    (if expected = 1 then "" else "s") ++ ", found " ++ toString found).toList.getLast? = _
  have hfound : (toString found).toList = Nat.toDigits 10 found := by
    rw [Nat.toString_eq_repr, Nat.toList_repr]
  rw [String.toList_append, hfound, List.getLast?_append_of_ne_nil _ Nat.toDigits_ne_nil]

end Fault

namespace Misuse

variable {es : List (Expr π)} {ss : List (Stmt π)} {problem : Problem π}

/-- A report on a misuse begins with the name of a builtin. -/
theorem head?_message (h : Misuse es ss problem) :
    problem.fault.message.toList.head? = some 'l' ∨
      problem.fault.message.toList.head? = some 'r' := by
  cases h with
  | @arity _ callee _ _ arguments x _ hcallee =>
      rw [← Expansion.ofName?_eq_some_iff.mp hcallee]
      have hmessage : (Fault.wrongArity x.name x.arity arguments.length).message =
          x.name ++ ("() takes " ++ toString x.arity ++ " argument" ++
            (if x.arity = 1 then "" else "s") ++ ", found " ++ toString arguments.length) := by
        simp only [← String.append_assoc]
        rfl
      rw [hmessage]
      exact x.head?_name_append _
  | @unused callee _ _ _ _ x _ hcallee =>
      rw [← Expansion.ofName?_eq_some_iff.mp hcallee]
      exact x.head?_name_append _

/-- A report on a misuse ends with a digit or with the word `statement`. -/
theorem getLast?_message_ne (h : Misuse es ss problem) :
    problem.fault.message.toList.getLast? ≠ some 'd' := by
  cases h with
  | arity =>
      rw [Fault.getLast?_wrongArity]
      intro hlast
      have hdigit := Nat.isDigit_of_mem_toDigits (by decide) (by decide)
        (List.mem_of_getLast? hlast)
      exact absurd hdigit (by decide)
  | unused =>
      rw [Fault.getLast?_valueUnused]
      decide

/-- No report on a misuse has the wording of another report on a call. -/
theorem message_ne (h : Misuse es ss problem) (callee : String) (position : Nat) :
    problem.fault.message ≠ (Fault.variableExpected callee).message ∧
      problem.fault.message ≠ (Fault.wordExpected callee position).message ∧
      problem.fault.message ≠ (Fault.expansionUnknown callee).message := by
  have hhead := h.head?_message
  have hlast := h.getLast?_message_ne
  refine ⟨?_, ?_, ?_⟩
  · intro heq
    rw [heq, Fault.head?_variableExpected] at hhead
    exact absurd hhead (by decide)
  · intro heq
    rw [heq, Fault.head?_wordExpected] at hhead
    exact absurd hhead (by decide)
  · intro heq
    rw [heq, Fault.getLast?_expansionUnknown] at hlast
    exact hlast rfl

end Misuse

/-! ### Compiling -/

/-- What is reported about a script that is read is what is read off the flattened
script. -/
theorem compile_eq_inexpressible_iff {source : Source} {script : Script Span}
    (hparse : Script.parse source = .ok script) (width : Nat) (problems : List (Problem Span)) :
    compile source width = .error (.inexpressible problems) ↔
      problems = Stmt.allMisuses script.flatten.statements ∧ problems ≠ [] := by
  have hflat : Stmt.AllFlat (fun _ => False) script.flatten.statements := by
    apply Stmt.flattenAll_flat
    intro e he hnested
    rw [Script.plain_of_parse hparse e he] at hnested
    contradiction
  have hcompile : compile source width = script.flatten.compile width := by
    rw [compile, hparse]
    rfl
  rw [hcompile, Script.compile, Script.express, Script.toShell, ← Stmt.problems_allToShell hflat]
  cases (Stmt.allToShell script.flatten.statements).problems with
  | nil => simp [Except.mapError, bind, Except.bind, pure, Except.pure]
  | cons problem rest =>
      change (Except.error (.inexpressible (problem :: rest)) : Except CompileError String) =
        .error (.inexpressible problems) ↔ _
      constructor
      · intro h
        cases h
        exact ⟨rfl, List.cons_ne_nil _ _⟩
      · rintro ⟨rfl, _⟩
        rfl

/-- A script that is read has no shell script exactly if it misuses a builtin: at any
depth, it calls one with a wrong number of arguments, or it has a statement that does not
use the value of one.  Then only such misuses are reported, and never that an argument
is no variable or no word, or that there is no such expansion. -/
theorem compile_inexpressible_iff_misused {source : Source} {script : Script Span}
    (hparse : Script.parse source = .ok script) (width : Nat) :
    ((∃ problems, compile source width = .error (.inexpressible problems)) ↔
        ∃ problem, script.Misused problem) ∧
      ∀ problems, compile source width = .error (.inexpressible problems) →
        ∀ problem ∈ problems, script.Misused problem ∧ ∀ callee position,
          problem.fault.message ≠ (Fault.variableExpected callee).message ∧
            problem.fault.message ≠ (Fault.wordExpected callee position).message ∧
            problem.fault.message ≠ (Fault.expansionUnknown callee).message := by
  have htells : Tells (Stmt.allMisuses script.flatten.statements) script.Misused :=
    Stmt.tells_flattenAll script.statements 0
  have hiff := compile_eq_inexpressible_iff hparse width
  constructor
  · constructor
    · rintro ⟨problems, hcompile⟩
      rcases (hiff problems).mp hcompile with ⟨rfl, hne⟩
      rcases List.exists_mem_of_ne_nil _ hne with ⟨problem, hmem⟩
      exact ⟨problem, htells.sound problem hmem⟩
    · rintro ⟨problem, hmisused⟩
      exact ⟨_, (hiff _).mpr ⟨rfl, htells.complete problem hmisused⟩⟩
  · intro problems hcompile problem hmem
    rcases (hiff problems).mp hcompile with ⟨rfl, _⟩
    have hmisused := htells.sound problem hmem
    exact ⟨hmisused, hmisused.message_ne⟩

/-- Every builtin with a wrong number of arguments, below another call, and one that is a
statement. -/
def misuseSample : Source :=
  Utf8.encode ("f(g(len()), replace(x), replace_all(x), remove_prefix(x),\n" ++
    "remove_suffix(x))\nlen(x)\n")

/-- The sample is not compiled, and every misuse that is reported is in it. -/
theorem compile_inexpressible_iff_misused_nested :
    ∃ script problems, Script.parse misuseSample = .ok script ∧
      compile misuseSample 2 = .error (.inexpressible problems) ∧
      problems.map Problem.fault = [.wrongArity "len" 1 0, .wrongArity "replace" 3 1,
        .wrongArity "replace_all" 3 1, .wrongArity "remove_prefix" 2 1,
        .wrongArity "remove_suffix" 2 1, .valueUnused "len"] ∧
      (∃ problem, script.Misused problem) ∧
      ∀ problem ∈ problems, script.Misused problem ∧ ∀ callee position,
        problem.fault.message ≠ (Fault.variableExpected callee).message ∧
          problem.fault.message ≠ (Fault.wordExpected callee position).message ∧
          problem.fault.message ≠ (Fault.expansionUnknown callee).message := by
  have hread : Script.read misuseSample = ((Script.read misuseSample).1, []) :=
    Prod.ext rfl (by decide +kernel)
  have herror : compile misuseSample 2 = .error (.inexpressible
      [⟨.wrongArity "len" 1 0, ⟨4, 9⟩⟩, ⟨.wrongArity "replace" 3 1, ⟨12, 22⟩⟩,
        ⟨.wrongArity "replace_all" 3 1, ⟨24, 38⟩⟩, ⟨.wrongArity "remove_prefix" 2 1, ⟨40, 56⟩⟩,
        ⟨.wrongArity "remove_suffix" 2 1, ⟨58, 74⟩⟩, ⟨.valueUnused "len", ⟨76, 82⟩⟩]) := by
    decide +kernel
  have hparse := Script.parse_eq_ok_iff.mpr hread
  have hcompile := compile_inexpressible_iff_misused hparse 2
  exact ⟨_, _, hparse, herror, rfl, hcompile.1.mp ⟨_, herror⟩, hcompile.2 _ herror⟩

end Shellward
