import Shellward.Proofs.Script.FlatForm

/-!
# What flattening leaves in a script

Flattening moves parts of expressions to assignments of their own and marks calls as nested.
A property of single nodes that is blind to this holds of a node of the flattened script
exactly if it holds of a node of the script.

Main results:

- Theorem `Expr.flatten_leaves`: flattening an expression keeps whether a node is marked.
- Theorem `Script.marked_flatten`: so does flattening a script.
- Theorem `Script.readings_flatten`: flattening keeps what is read off the statements that are
  no assignments and no conditionals.
-/

namespace Shellward

variable {π α β γ : Type}

/-! ### Marks -/

namespace Expr

/-- The kind and the text of a literal. -/
def literal? : Expr π → Option (Literal × String)
  | .literal kind text _ => some (kind, text)
  | _ => none

/-- A property of nodes that is blind to flattening: only literals and calls have it, no call
has it for its form, and the call of a command has it for the literals among its arguments
only. -/
structure Lasting (mark : Expr π → Prop) : Prop where
  name : ∀ text p, ¬ mark (.name text p)
  binary : ∀ op left right p, ¬ mark (.binary op left right p)
  negate : ∀ inner p, ¬ mark (.negate inner p)
  group : ∀ inner p, ¬ mark (.group inner p)
  option : ∀ p, ¬ mark (.literal .string "\"-n\"" p)
  echo : ∀ depth holder place, holder.isName = true → ¬ mark (echo depth holder place)
  command : ∀ {form form' callee cp p arguments arguments'}, Expansion.ofName? callee = none →
    arguments'.map literal? = arguments.map literal? →
      (mark (.call form' callee cp arguments' p) ↔ mark (.call form callee cp arguments p))
  expansion : ∀ {form callee cp p arguments arguments' x}, Expansion.ofName? callee = some x →
    (mark (.call form callee cp arguments' p) ↔ mark (.call form callee cp arguments p))

end Expr

/-- One of several nodes is marked. -/
def Marked (mark : Expr π → Prop) (es : List (Expr π)) : Prop :=
  ∃ e ∈ es, mark e

section Marked

variable {mark : Expr π → Prop}

theorem not_marked_nil : ¬ Marked mark [] := by
  rintro ⟨e, he, _⟩
  exact absurd he List.not_mem_nil

/-- One of several nodes is marked exactly if the first one is or one of the others. -/
theorem marked_cons {e : Expr π} {es : List (Expr π)} :
    Marked mark (e :: es) ↔ mark e ∨ Marked mark es := by
  simp [Marked]

/-- One of the nodes of two lists is marked exactly if one of either list is. -/
theorem marked_append {es es' : List (Expr π)} :
    Marked mark (es ++ es') ↔ Marked mark es ∨ Marked mark es' := by
  simp only [Marked, List.mem_append, or_and_right, exists_or]

/-- The expressions in statements are those in the first ones and then those in the others. -/
theorem Stmt.allExpressions_append (ss ts : List (Stmt π)) :
    Stmt.allExpressions (ss ++ ts) = Stmt.allExpressions ss ++ Stmt.allExpressions ts := by
  induction ss with
  | nil => rfl
  | cons s ss ih => rw [List.cons_append, Stmt.allExpressions, ih, Stmt.allExpressions,
      List.append_assoc]

end Marked

/-! ### Flattening -/

namespace Flatten

variable {mark : Expr π → Prop} {P R : Prop} {report : α → Prop} {report' : β → Prop}

/-- However many temporaries are named before, `P` says whether a node of the statements put
before is marked or `report` holds of the value. -/
def Leaves (mark : Expr π → Prop) (P : Prop) (report : α → Prop) (f : Flatten π α) : Prop :=
  ∀ n, Marked mark (Stmt.allExpressions (f n).before) ∨ report (f n).value ↔ P

/-- A value that is given puts no node before. -/
theorem Leaves.pure {a : α} (h : report a ↔ P) :
    Leaves mark P report (Pure.pure a : Flatten π α) := by
  intro n
  rw [pure_apply, Stmt.allExpressions, ← h]
  simp [not_marked_nil]

/-- A sequence leaves marked what its parts leave marked. -/
theorem Leaves.andThen {f : Flatten π α} {g : α → Flatten π β} (hf : Leaves mark P report f)
    (hg : ∀ n, Leaves mark (report (f n).value) report' (g (f n).value)) :
    Leaves mark P report' (f >>= g) := by
  intro n
  rw [bind_apply, Stmt.allExpressions_append, marked_append, or_assoc, hg n, hf n]

/-- A value made of two parts. -/
theorem Leaves.both {report'' : γ → Prop} {f : Flatten π α} {g : Flatten π β} {h : α → β → γ}
    (hf : Leaves mark P report f) (hg : Leaves mark R report' g)
    (hreport : ∀ m n, report'' (h (f m).value (g n).value) ↔
      report (f m).value ∨ report' (g n).value) :
    Leaves mark (P ∨ R) report'' (do
      let a ← f
      let b ← g
      Pure.pure (h a b)) := by
  intro n
  simp only [bind_apply, pure_apply, List.append_nil, Stmt.allExpressions_append, marked_append]
  rw [hreport, or_or_or_comm, hf n, hg]

/-- What holds anyhow may be said besides. -/
theorem Leaves.or_left {f : Flatten π α} (hf : Leaves mark P report f) (Q : Prop) :
    Leaves mark (Q ∨ P) (fun a => Q ∨ report a) f := by
  intro n
  rw [or_left_comm, hf n]

/-- What is said about the marks may be put in equivalent words. -/
theorem Leaves.congr {P' : Prop} {f : Flatten π α} (hf : Leaves mark P report f)
    (h : P' ↔ P) : Leaves mark P' report f := by
  intro n
  rw [hf n, h]

end Flatten

namespace Expr

open Flatten

variable {mark : Expr π → Prop} {e : Expr π} {flat : Flatten π (Expr π)}

/-- The nodes of an expression that is moved to an assignment stay marked. -/
theorem lift_leaves (hmark : Lasting mark) (value : Expr π) (place : π) :
    Leaves mark (Marked mark value.parts) (fun v => Marked mark v.parts)
      (Flatten.lift value place) := by
  intro n
  simp [Flatten.lift, Stmt.allExpressions, Stmt.expressions, parts, Marked, hmark.name]

/-- Marks stay when a value is put into a variable. -/
theorem toVariable_leaves (hmark : Lasting mark)
    (h : Leaves mark (Marked mark e.parts) (fun v => Marked mark v.parts) flat) :
    Leaves mark (Marked mark e.parts) (fun v => Marked mark v.parts) (e.toVariable flat) := by
  unfold toVariable
  split
  · exact .pure Iff.rfl
  · apply h.andThen
    intro n
    exact lift_leaves hmark _ _

/-- What an expansion is applied to becomes a variable. -/
theorem isName_toVariable (e : Expr π) (flat : Flatten π (Expr π)) (n : Nat) :
    (e.toVariable flat n).value.isName = true := by
  unfold toVariable
  split
  next h => exact h
  next => rfl

/-- A call that gives the value of a variable has no marks of its own. -/
theorem marked_parts_echo (hmark : Lasting mark) (depth : Nat) {holder : Expr π}
    (hholder : holder.isName = true) (place : π) :
    Marked mark (echo depth holder place).parts ↔ Marked mark holder.parts := by
  have hecho := hmark.echo depth holder place hholder
  rw [echo] at hecho ⊢
  simp [parts, allParts, marked_cons, hecho, hmark.option]

/-- Marks stay when a value becomes a word of an expansion. -/
theorem toWord_leaves (hmark : Lasting mark) (depth : Nat)
    (h : Leaves mark (Marked mark e.parts) (fun v => Marked mark v.parts) flat) :
    Leaves mark (Marked mark e.parts) (fun v => Marked mark v.parts) (e.toWord depth flat) := by
  unfold toWord
  split
  · exact .pure Iff.rfl
  · exact .pure Iff.rfl
  · exact h
  · apply (toVariable_leaves hmark h).andThen
    intro n
    exact .pure (marked_parts_echo hmark depth (isName_toVariable _ _ n) _)

/-- What several expressions are flattened to one after the other. -/
theorem leaves_list {es : List (Expr π)} {each : Expr π → Flatten π (Expr π)}
    {all : List (Expr π) → Flatten π (List (Expr π))} (hnil : all [] = pure [])
    (hcons : ∀ e es, all (e :: es) = do
      let v ← each e
      let vs ← all es
      pure (v :: vs))
    (h : ∀ e ∈ es, Leaves mark (Marked mark e.parts) (fun v => Marked mark v.parts) (each e)) :
    Leaves mark (Marked mark (allParts es)) (fun vs => Marked mark (allParts vs)) (all es) := by
  induction es with
  | nil =>
      rw [hnil]
      exact .pure Iff.rfl
  | cons e es ih =>
      rcases List.forall_mem_cons.mp h with ⟨he, hes⟩
      rw [hcons]
      apply (he.both (ih hes) _).congr
      · rw [allParts, marked_append]
      · intro m n
        rw [allParts, marked_append]

/-- Marks stay among arguments if they stay in each of them. -/
theorem flattenAll_leaves {es : List (Expr π)} {depth : Nat}
    (h : ∀ e ∈ es, Leaves mark (Marked mark e.parts) (fun v => Marked mark v.parts)
      (e.flatten depth)) :
    Leaves mark (Marked mark (allParts es)) (fun vs => Marked mark (allParts vs))
      (flattenAll depth es) := by
  refine leaves_list ?_ ?_ h
  · rw [flattenAll]
  · intro e es
    rw [flattenAll]

/-- Marks stay among the words of an expansion if they stay in each of them. -/
theorem flattenWords_leaves (hmark : Lasting mark) {es : List (Expr π)} {depth : Nat}
    (h : ∀ e ∈ es, Leaves mark (Marked mark e.parts) (fun v => Marked mark v.parts)
      (e.flatten depth)) :
    Leaves mark (Marked mark (allParts es)) (fun vs => Marked mark (allParts vs))
      (flattenWords depth es) := by
  refine leaves_list ?_ ?_ fun e he => toWord_leaves hmark depth (h e he)
  · rw [flattenWords]
  · intro e es
    rw [flattenWords]

/-- Flattening keeps literals. -/
theorem literal?_flatten (e : Expr π) (depth n : Nat) :
    (e.flatten depth n).value.literal? = e.literal? := by
  cases e with
  | call form callee cp arguments p =>
      cases form with
      | nested d =>
          rw [flatten]
          rfl
      | plain =>
          rcases flatten_call depth callee cp arguments p with heq | ⟨target, words, rfl, heq⟩ | heq
          all_goals
            rw [heq]
            rfl
  | literal | name | binary | negate | group =>
      rw [flatten]
      rfl

/-- Flattening keeps the literals among arguments where they are. -/
theorem map_literal?_flattenAll (es : List (Expr π)) (depth n : Nat) :
    (flattenAll depth es n).value.map literal? = es.map literal? := by
  induction es generalizing n with
  | nil =>
      rw [flattenAll]
      rfl
  | cons e es ih =>
      rw [flattenAll]
      simp only [Flatten.bind_apply, Flatten.pure_apply, List.map_cons, ih, literal?_flatten]

/-- Flattening an expression keeps whether one of its nodes is marked. -/
theorem flatten_leaves (hmark : Lasting mark) (e : Expr π) (depth : Nat) :
    Leaves mark (Marked mark e.parts) (fun v => Marked mark v.parts) (e.flatten depth) := by
  induction e using Expr.induction generalizing depth with
  | literal kind text p | name text p =>
      rw [flatten]
      exact .pure Iff.rfl
  | call form callee cp arguments p ih =>
      have hflat := fun e he => ih e he (depth + 1)
      cases form with
      | nested d =>
          rw [flatten]
          exact .pure Iff.rfl
      | plain =>
          cases hcallee : Expansion.ofName? callee with
          | none =>
              rw [flatten_command hcallee]
              apply (((flattenAll_leaves hflat).or_left _).congr marked_cons).andThen
              intro n
              apply Leaves.pure
              rw [parts, marked_cons, hmark.command hcallee (map_literal?_flattenAll arguments _ n)]
          | some x =>
              by_cases harity : arguments.length = x.arity
              · cases arguments with
                | nil => exact absurd harity.symm x.arity_ne_zero
                | cons target words =>
                    rcases List.forall_mem_cons.mp hflat with ⟨htarget, hwords⟩
                    have hvariable := (toVariable_leaves hmark htarget).or_left
                      (mark (.call .plain callee cp (target :: words) p))
                    rw [flatten_expansion hcallee depth cp p harity]
                    apply (hvariable.both (flattenWords_leaves hmark hwords) _).congr
                    · rw [parts, allParts, marked_cons, marked_append, or_assoc]
                    · intro m n
                      rw [parts, allParts, marked_cons, marked_append, hmark.expansion hcallee,
                        or_assoc]
              · rw [flatten_misused hcallee depth cp p harity]
                exact .pure Iff.rfl
  | binary op left right p ihleft ihright =>
      rw [flatten]
      apply ((ihleft (depth + 1)).both (ihright (depth + 1)) _).congr
      · simp [parts, marked_cons, marked_append, hmark.binary]
      · intro m n
        simp [parts, marked_cons, marked_append, hmark.binary]
  | negate inner p ih =>
      rw [flatten]
      apply ((ih (depth + 1)).congr _).andThen
      · intro n
        exact .pure (by simp [parts, marked_cons, hmark.negate])
      · simp [parts, marked_cons, hmark.negate]
  | group inner p ih =>
      rw [flatten]
      apply ((ih (depth + 1)).congr _).andThen
      · intro n
        exact .pure (by simp [parts, marked_cons, hmark.group])
      · simp [parts, marked_cons, hmark.group]

end Expr

/-! ### Statements -/

section

variable {mark : Expr π → Prop}

mutual

/-- A statement has a marked node exactly if what it is flattened to has one. -/
theorem Stmt.marked_flatten (hmark : Expr.Lasting mark) : ∀ (s : Stmt π) (n : Nat),
    Marked mark (Stmt.allExpressions (s.flatten n).1) ↔ Marked mark s.expressions
  | .comment .., _ | .blank _, _ => by
      simp [Stmt.flatten, Stmt.allExpressions, Stmt.expressions]
  | .assign _ _ value _, n => by
      have hvalue := value.flatten_leaves hmark 1 n
      simp only [Stmt.flatten, Stmt.allExpressions_append, Stmt.allExpressions, Stmt.expressions,
        List.append_nil, marked_append]
      exact hvalue
  | .run value _, n => by
      have hvalue := value.flatten_leaves hmark 0 n
      simp only [Stmt.flatten, Stmt.allExpressions_append, Stmt.allExpressions, Stmt.expressions,
        List.append_nil, marked_append]
      exact hvalue
  | .cond test body _ alternative _, n => by
      have htest := test.flatten_leaves hmark 1 n
      have hbody := Stmt.marked_flattenAll hmark body (test.flatten 1 n).temporaries
      have halternative := Else.marked_flatten hmark alternative
        (Stmt.flattenAll (test.flatten 1 n).temporaries body).2
      simp only [Stmt.flatten, Stmt.allExpressions_append, Stmt.allExpressions, Stmt.expressions,
        List.append_nil, marked_append]
      rw [← htest, ← hbody, ← halternative]
      grind

/-- Several statements have a marked node exactly if what they are flattened to has one. -/
theorem Stmt.marked_flattenAll (hmark : Expr.Lasting mark) : ∀ (ss : List (Stmt π)) (n : Nat),
    Marked mark (Stmt.allExpressions (Stmt.flattenAll n ss).1) ↔
      Marked mark (Stmt.allExpressions ss)
  | [], _ => by simp [Stmt.flattenAll]
  | s :: ss, n => by
      simp only [Stmt.flattenAll, Stmt.allExpressions_append, Stmt.allExpressions, marked_append]
      rw [Stmt.marked_flatten hmark s n, Stmt.marked_flattenAll hmark ss (s.flatten n).2]

/-- What follows the body of a conditional has a marked node exactly if its flattened form has
one, or what is put before. -/
theorem Else.marked_flatten (hmark : Expr.Lasting mark) : ∀ (a : Else π) (n : Nat),
    Marked mark (Stmt.allExpressions (a.flatten n).before) ∨
      Marked mark (a.flatten n).value.expressions ↔ Marked mark a.expressions
  | .absent, _ => by simp [Else.flatten, Stmt.allExpressions, Else.expressions]
  | .block body _, n => by
      have hbody := Stmt.marked_flattenAll hmark body n
      simp only [Else.flatten, Stmt.allExpressions, Else.expressions, not_marked_nil, false_or]
      exact hbody
  | .elseIf test body _ rest, n => by
      have htest := test.flatten_leaves hmark 1 n
      have hbody := Stmt.marked_flattenAll hmark body (test.flatten 1 n).temporaries
      have hrest := Else.marked_flatten hmark rest
        (Stmt.flattenAll (test.flatten 1 n).temporaries body).2
      simp only [Else.flatten, Stmt.allExpressions_append, Else.expressions, marked_append]
      rw [← htest, ← hbody, ← hrest]
      grind

end

/-- Flattening a script keeps whether one of its nodes is marked. -/
theorem Script.marked_flatten (hmark : Expr.Lasting mark) (s : Script π) :
    Marked mark s.flatten.expressions ↔ Marked mark s.expressions :=
  Stmt.marked_flattenAll hmark s.statements 0

end

/-! ### What is read off statements -/

namespace Flatten

/-- A property of flattenings that naming a temporary has and sequences keep. -/
structure Hereditary (K : ∀ {α : Type}, Flatten π α → Prop) : Prop where
  pure : ∀ {α : Type} (a : α), K (Pure.pure a : Flatten π α)
  bind : ∀ {α β : Type} {f : Flatten π α} {g : α → Flatten π β}, K f → (∀ a, K (g a)) →
    K (f >>= g)
  lift : ∀ (value : Expr π) (place : π), K (Flatten.lift value place)

namespace Hereditary

variable {K : ∀ {α : Type}, Flatten π α → Prop} (hK : Hereditary K)
include hK

/-- Putting a value into a variable has the property if flattening the value has it. -/
theorem toVariable (e : Expr π) {flat : Flatten π (Expr π)} (h : K flat) :
    K (e.toVariable flat) := by
  unfold Expr.toVariable
  split
  · exact hK.pure _
  · exact hK.bind h fun _ => hK.lift _ _

/-- Making a value a word of an expansion has the property if flattening the value has it. -/
theorem toWord (depth : Nat) (e : Expr π) {flat : Flatten π (Expr π)} (h : K flat) :
    K (e.toWord depth flat) := by
  unfold Expr.toWord
  split
  · exact hK.pure _
  · exact hK.pure _
  · exact h
  · exact hK.bind (hK.toVariable e h) fun _ => hK.pure _

/-- Flattening arguments has the property if flattening each of them has it. -/
theorem flattenAll {es : List (Expr π)} {depth : Nat} (h : ∀ e ∈ es, K (e.flatten depth)) :
    K (Expr.flattenAll depth es) := by
  induction es with
  | nil =>
      rw [Expr.flattenAll]
      exact hK.pure _
  | cons e es ih =>
      rcases List.forall_mem_cons.mp h with ⟨he, hes⟩
      rw [Expr.flattenAll]
      exact hK.bind he fun _ => hK.bind (ih hes) fun _ => hK.pure _

/-- Flattening the words of an expansion has the property if flattening each of them has it. -/
theorem flattenWords {es : List (Expr π)} {depth : Nat} (h : ∀ e ∈ es, K (e.flatten depth)) :
    K (Expr.flattenWords depth es) := by
  induction es with
  | nil =>
      rw [Expr.flattenWords]
      exact hK.pure _
  | cons e es ih =>
      rcases List.forall_mem_cons.mp h with ⟨he, hes⟩
      rw [Expr.flattenWords]
      exact hK.bind (hK.toWord depth e he) fun _ => hK.bind (ih hes) fun _ => hK.pure _

/-- Such a property holds of flattening an expression. -/
theorem flatten (e : Expr π) (depth : Nat) : K (e.flatten depth) := by
  induction e using Expr.induction generalizing depth with
  | literal kind text p | name text p =>
      rw [Expr.flatten]
      exact hK.pure _
  | call form callee cp arguments p ih =>
      have hflat := fun e he => ih e he (depth + 1)
      cases form with
      | nested d =>
          rw [Expr.flatten]
          exact hK.pure _
      | plain =>
          rcases Expr.flatten_call depth callee cp arguments p with
            heq | ⟨target, words, rfl, heq⟩ | heq
          · rw [heq]
            exact hK.bind (hK.flattenAll hflat) fun _ => hK.pure _
          · rcases List.forall_mem_cons.mp hflat with ⟨htarget, hwords⟩
            rw [heq]
            exact hK.bind (hK.toVariable target htarget) fun _ =>
              hK.bind (hK.flattenWords hwords) fun _ => hK.pure _
          · rw [heq]
            exact hK.pure _
  | binary op left right p ihleft ihright =>
      rw [Expr.flatten]
      exact hK.bind (ihleft _) fun _ => hK.bind (ihright _) fun _ => hK.pure _
  | negate inner p ih | group inner p ih =>
      rw [Expr.flatten]
      exact hK.bind (ih _) fun _ => hK.pure _

end Hereditary
end Flatten

/-- What is read off statements and not changed by flattening: nothing off assignments and
conditionals themselves, and off a value that is run the same as off what it is flattened to. -/
structure Stmt.Lasting (reading : Stmt π → Option γ) : Prop where
  assign : ∀ target tp value p, reading (.assign target tp value p) = none
  run : ∀ value p n, reading (.run (value.flatten 0 n).value p) = reading (.run value p)
  cond : ∀ test body bp alternative p, reading (.cond test body bp alternative p) = none

/-- Nothing is read off some statements and the statements in them. -/
def Stmt.Silent (reading : Stmt π → Option γ) (ss : List (Stmt π)) : Prop :=
  (Stmt.allParts ss).filterMap reading = []

/-- The statements in statements are those in the first ones and then those in the others. -/
theorem Stmt.allParts_append (ss ts : List (Stmt π)) :
    Stmt.allParts (ss ++ ts) = Stmt.allParts ss ++ Stmt.allParts ts := by
  induction ss with
  | nil => rfl
  | cons s ss ih => rw [List.cons_append, Stmt.allParts, ih, Stmt.allParts, List.append_assoc]

section Readings

variable {reading : Stmt π → Option γ}

/-- The combinators of flattening put before only statements off which nothing is read. -/
theorem Flatten.silent_hereditary (hreading : Stmt.Lasting reading) :
    Hereditary fun {α : Type} (f : Flatten π α) => ∀ n, Stmt.Silent reading (f n).before where
  pure _ _ := rfl
  bind := by
    intro α β f g hf hg n
    rw [Stmt.Silent, bind_apply, Stmt.allParts_append, List.filterMap_append, hf n, hg _ _]
    rfl
  lift _ _ _ := List.filterMap_cons_none (hreading.assign _ _ _ _)

/-- The statements put before a statement are assignments, so nothing is read off them. -/
theorem Expr.silent_before (hreading : Stmt.Lasting reading) (e : Expr π) (depth n : Nat) :
    Stmt.Silent reading (e.flatten depth n).before :=
  (Flatten.silent_hereditary hreading).flatten e depth n

mutual

/-- The same is read off a statement and off what it is flattened to. -/
theorem Stmt.readings_flatten (hreading : Stmt.Lasting reading) : ∀ (s : Stmt π) (n : Nat),
    (Stmt.allParts (s.flatten n).1).filterMap reading = s.parts.filterMap reading
  | .comment .., _ | .blank _, _ => by simp [Stmt.flatten, Stmt.allParts, Stmt.parts]
  | .assign _ _ value _, n => by
      have hbefore := value.silent_before hreading 1 n
      rw [Stmt.flatten, Stmt.allParts_append, List.filterMap_append, hbefore]
      simp only [Stmt.allParts, Stmt.parts, List.append_nil, List.nil_append, List.filterMap_cons,
        hreading.assign]
  | .run value _, n => by
      have hbefore := value.silent_before hreading 0 n
      rw [Stmt.flatten, Stmt.allParts_append, List.filterMap_append, hbefore]
      simp only [Stmt.allParts, Stmt.parts, List.append_nil, List.nil_append, List.filterMap_cons,
        hreading.run]
  | .cond test body _ alternative _, n => by
      have htest := test.silent_before hreading 1 n
      have hbody := Stmt.readings_flattenAll hreading body (test.flatten 1 n).temporaries
      have halternative := Else.readings_flatten hreading alternative
        (Stmt.flattenAll (test.flatten 1 n).temporaries body).2
      rw [Stmt.flatten, Stmt.allParts_append, Stmt.allParts_append, List.filterMap_append,
        List.filterMap_append, htest, halternative.1]
      simp only [Stmt.allParts, Stmt.parts, List.append_nil, List.nil_append, List.filterMap_cons,
        List.filterMap_append, hreading.cond, hbody, halternative.2]

/-- The same is read off several statements and off what they are flattened to. -/
theorem Stmt.readings_flattenAll (hreading : Stmt.Lasting reading) :
    ∀ (ss : List (Stmt π)) (n : Nat),
      (Stmt.allParts (Stmt.flattenAll n ss).1).filterMap reading =
        (Stmt.allParts ss).filterMap reading
  | [], _ => rfl
  | s :: ss, n => by
      rw [Stmt.flattenAll, Stmt.allParts_append, List.filterMap_append, Stmt.allParts,
        List.filterMap_append, Stmt.readings_flatten hreading s n,
        Stmt.readings_flattenAll hreading ss (s.flatten n).2]

/-- The same is read off what follows the body of a conditional and off its flattened form, and
nothing off what is put before. -/
theorem Else.readings_flatten (hreading : Stmt.Lasting reading) : ∀ (a : Else π) (n : Nat),
    Stmt.Silent reading (a.flatten n).before ∧
      (a.flatten n).value.parts.filterMap reading = a.parts.filterMap reading
  | .absent, _ => ⟨rfl, rfl⟩
  | .block body _, n => ⟨rfl, Stmt.readings_flattenAll hreading body n⟩
  | .elseIf test body _ rest, n => by
      have htest := test.silent_before hreading 1 n
      have hbody := Stmt.readings_flattenAll hreading body (test.flatten 1 n).temporaries
      have hrest := Else.readings_flatten hreading rest
        (Stmt.flattenAll (test.flatten 1 n).temporaries body).2
      constructor
      · rw [Else.flatten, Stmt.Silent, Stmt.allParts_append, List.filterMap_append, htest,
          hrest.1]
        rfl
      · simp [Else.flatten, Else.parts, hbody, hrest.2]

end

/-- Flattening a script keeps what is read off its statements. -/
theorem Script.readings_flatten (hreading : Stmt.Lasting reading) (s : Script π) :
    s.flatten.allStatements.filterMap reading = s.allStatements.filterMap reading :=
  Stmt.readings_flattenAll hreading s.statements 0

end Readings

/-- The literal that a statement is. -/
def Stmt.literal? : Stmt π → Option (Literal × String)
  | .run value _ => value.literal?
  | _ => none

/-- Flattening keeps the literals that are statements. -/
theorem Stmt.literal?_lasting : Stmt.Lasting (Stmt.literal? (π := π)) where
  assign _ _ _ _ := rfl
  run value _ n := value.literal?_flatten 0 n
  cond _ _ _ _ _ := rfl

end Shellward
