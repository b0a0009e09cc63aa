import Shellward.Proofs.Script.Expressing
import Shellward.Script.Translator

/-!
# The work of translators

A translator changes where it stands while it walks through a script.  Each step comes back
to where it began, also if it finds problems, and what it writes is what the context says
that the place it stands in is.

Main results:

- Theorem `Expr.translate_gives`: in a place that a context describes, an expression is
  written as in that context, and the translator stands as before.
- Theorem `Translator.express_start`: a translator that is ready expresses a script as it
  would be expressed alone, and is ready again.
-/

namespace Shellward

variable {π α β : Type}

/-! ### Contexts and standings -/

/-- The standings that a context describes. -/
inductive Context.Describes : Context → Standing → Prop where
  | value : Describes .value .outside
  | condition : Describes .condition ⟨0, true, false⟩
  | operand : Describes .operand ⟨1, true, false⟩
  | part (depth : Nat) : Describes .part ⟨depth + 2, true, false⟩
  | arithmetic (depth : Nat) (inTest : Bool) : Describes .arithmetic ⟨depth, inTest, true⟩

namespace Context.Describes

variable {context : Context} {standing : Standing}

/-- A standing puts operations into what its context does. -/
theorem wrapping (h : context.Describes standing) (arithmetic : Bool) :
    standing.wrapping arithmetic = context.wrapping arithmetic := by
  cases h <;> cases arithmetic <;> rfl

/-- A standing quotes variables where its context does. -/
theorem quotes (h : context.Describes standing) : standing.quotes = context.quotes := by
  cases h with
  | arithmetic depth inTest => exact Bool.and_false inTest
  | value | condition | operand | part => rfl

/-- A standing spells operators as its context does. -/
theorem spelling (h : context.Describes standing) (op : Operator) :
    standing.spelling op = context.spelling op := by
  cases h <;> rfl

/-- Inside an operation a translator stands where the parts of the operation do. -/
theorem inside (h : context.Describes standing) (arithmetic : Bool) :
    (context.inside arithmetic).Describes (standing.inside arithmetic) := by
  cases h with
  | value => exact .arithmetic 1 false
  | condition => exact .operand
  | operand =>
      cases arithmetic with
      | true => exact .arithmetic 2 true
      | false => exact .part 0
  | part depth => exact .part (depth + 1)
  | arithmetic depth inTest => exact .arithmetic (depth + 1) inTest

end Context.Describes

/-! ### Steps that come back -/

namespace Translate

theorem run_bind (m : Translate π α) (f : α → Translate π β) (t : Translator π) :
    (m >>= f).run t = (f (m.run t).1).run (m.run t).2 :=
  rfl

theorem run_pure (a : α) (t : Translator π) : (pure a : Translate π α).run t = (a, t) :=
  rfl

theorem run_standing (t : Translator π) : StateT.run standing t = (t.standing, t) :=
  rfl

theorem run_stand (move : Standing → Standing) (t : Translator π) :
    StateT.run (stand move) t = ((), ⟨move t.standing, t.problems⟩) :=
  rfl

/-- From a standing, a step gives a value, notes down its problems after those found before,
and comes back to the standing. -/
def Gives (standing : Standing) (m : Translate π α) (c : Checked π α) : Prop :=
  ∀ problems, m.run ⟨standing, problems⟩ = (c.value, ⟨standing, problems ++ c.problems⟩)

namespace Gives

variable {s : Standing}

theorem pure (a : α) : Gives s (Pure.pure a : Translate π α) (Pure.pure a) := by
  intro problems
  rw [Checked.problems_pure, List.append_nil]
  rfl

/-- Noting down a checked value gives the value and its problems. -/
theorem note (c : Checked π α) : Gives s (note c) c := by
  intro problems
  rfl

/-- A sequence gives what its parts give, one after the other. -/
theorem bind {m : Translate π α} {c : Checked π α} {f : α → Translate π β}
    {g : α → Checked π β} (hm : Gives s m c) (hf : Gives s (f c.value) (g c.value)) :
    Gives s (m >>= f) (c >>= g) := by
  intro problems
  rw [run_bind, hm problems, hf, Checked.value_bind, Checked.problems_bind, List.append_assoc]

/-- A step may look where it stands. -/
theorem standing {f : Standing → Translate π α} {c : Checked π α} (h : Gives s (f s) c) :
    Gives s (Translate.standing >>= f) c := by
  intro problems
  exact h problems

/-- A value may be changed after its problems are noted down. -/
theorem map {m : Translate π α} {c : Checked π α} (hm : Gives s m c) (f : α → β) :
    Gives s (m >>= fun a => Pure.pure (f a)) ⟨f c.value, c.problems⟩ := by
  intro problems
  rw [run_bind, hm problems]
  rfl

/-- An operation is put into its wrapping, and the step comes back out of it. -/
theorem operation {arithmetic : Bool} {build : Translate π Shell.Expr}
    {c : Checked π Shell.Expr} (h : Gives (s.inside arithmetic) build c) :
    Gives s (operation arithmetic build)
      ⟨(s.wrapping arithmetic).apply c.value, c.problems⟩ := by
  intro problems
  simp only [Translate.operation, run_bind, run_standing, run_stand, run_pure, h problems]
  rfl

/-- The arguments of a command stand outside, and the step comes back in. -/
theorem arguments {build : Translate π α} {c : Checked π α} (h : Gives .outside build c) :
    Gives s (arguments build) c := by
  intro problems
  simp only [Translate.arguments, run_bind, run_standing, run_stand, run_pure, h problems]

/-- A condition is written without the brackets of its test, and the step comes back out of
it. -/
theorem test {build : Translate π Shell.Expr} {e : Expr π}
    (h : Gives ⟨0, true, false⟩ build (e.toShell .condition)) :
    Gives .outside (test build) e.testToShell := by
  intro problems
  simp only [Translate.test, Standing.outside, run_bind, run_stand, h problems]
  rw [Expr.value_testToShell, Expr.problems_testToShell]
  cases (e.toShell .condition).value <;> rfl

end Gives
end Translate

/-! ### Expressions -/

namespace Expr

open Translate

/-- An operation with two operands is put into its wrapping. -/
theorem toShell_binary (op : Operator) (left right : Expr π) (p : π) (context : Context) :
    (Expr.binary op left right p).toShell context =
      ⟨(context.wrapping op.isArithmetic).apply
          (.binary ((context.inside op.isArithmetic).spelling op)
            (left.toShell (context.inside op.isArithmetic)).value
            (right.toShell (context.inside op.isArithmetic)).value),
        (left.toShell (context.inside op.isArithmetic)).problems ++
          (right.toShell (context.inside op.isArithmetic)).problems⟩ := by
  rw [toShell]
  simp only [bind, pure, List.append_nil]

/-- A group is expressed as a group, put into what its context asks for. -/
theorem toShell_group (inner : Expr π) (p : π) (context : Context) :
    (Expr.group inner p).toShell context =
      ⟨(context.wrapping inner.isArithmetic).apply
          (.group (inner.toShell (context.inside inner.isArithmetic)).value),
        (inner.toShell (context.inside inner.isArithmetic)).problems⟩ := by
  rw [toShell]
  simp only [bind, pure, List.append_nil]

/-- A sign in front of anything but a number is expressed as a subtraction from zero. -/
theorem toShell_negate {inner : Expr π} (h : inner.number? = none) (p : π) (context : Context) :
    (Expr.negate inner p).toShell context =
      ⟨(context.wrapping true).apply
          (.binary "-" (.text "0") (inner.toShell (context.inside true)).value),
        (inner.toShell (context.inside true)).problems⟩ := by
  rw [toShell, h]
  simp only [bind, pure, List.append_nil]

mutual

/-- In a place that a context describes, an expression is written as in that context. -/
theorem translate_gives : ∀ (e : Expr π) {context : Context} {s : Standing},
    context.Describes s → Gives s e.translate (e.toShell context)
  | .literal kind text p, _, _, _ => by
      rw [translate, toShell]
      exact .pure _
  | .name text p, _, _, h => by
      rw [translate, toShell, ← h.quotes]
      exact .standing (.pure _)
  | .call form callee cp arguments p, context, s, h => by
      rw [translate.eq_def, toShell.eq_def]
      simp only
      cases Expansion.ofName? callee with
      | none =>
          apply (Gives.arguments (translateAll_gives arguments)).bind
          exact (Gives.pure _).bind (.pure _)
      | some x =>
          simp only
          by_cases harity : arguments.length = x.arity
          · rw [if_pos harity, if_pos harity]
            cases arguments with
            | nil => exact (Gives.note _).bind (.pure _)
            | cons target words =>
                simp only
                cases target.name? with
                | none => exact (Gives.note _).bind (.pure _)
                | some parameter =>
                    apply (translateWords_gives words h callee 2).bind
                    exact (Gives.note _).bind (.pure _)
          · rw [if_neg harity, if_neg harity]
            exact (Gives.note _).bind (.pure _)
  | .binary op left right p, context, s, h => by
      have hinside := h.inside op.isArithmetic
      have hleft := translate_gives left hinside
      have hright := translate_gives right hinside
      rw [translate, toShell_binary, ← h.wrapping, ← hinside.spelling]
      apply Gives.operation (c := ⟨_, _⟩)
      apply hleft.bind (g := fun _ => ⟨_, _⟩)
      exact .standing (hright.map _)
  | .group inner p, context, s, h => by
      have hinner := translate_gives inner (h.inside inner.isArithmetic)
      rw [translate, toShell_group, ← h.wrapping]
      exact .operation (hinner.map _)
  | .negate inner p, context, s, h => by
      cases hnumber : inner.number? with
      | some number =>
          rw [translate, toShell, hnumber]
          exact .pure _
      | none =>
          have hinner := translate_gives inner (h.inside true)
          rw [translate, hnumber, toShell_negate hnumber, ← h.wrapping]
          exact .operation (hinner.map _)

/-- Arguments are translated as they are expressed, outside of all operations. -/
theorem translateAll_gives : ∀ es : List (Expr π),
    Gives .outside (translateAll es) (allToShell es)
  | [] => by
      rw [translateAll, allToShell]
      exact .pure _
  | e :: es => by
      rw [translateAll, allToShell]
      apply (translate_gives e .value).bind
      apply (translateAll_gives es).bind
      exact .pure _

/-- The words of an expansion are translated as they are expressed. -/
theorem translateWords_gives : ∀ (es : List (Expr π)) {context : Context} {s : Standing},
    context.Describes s → ∀ (callee : String) (position : Nat),
      Gives s (translateWords callee position es) (wordsToShell context callee position es)
  | [], _, _, _, _, _ => by
      rw [translateWords, wordsToShell]
      exact .pure _
  | e :: es, context, s, h, callee, position => by
      rw [translateWords, wordsToShell]
      apply (translate_gives e h).bind
      split
      · apply (translateWords_gives es h callee (position + 1)).bind
        exact .pure _
      · exact .note _

end

/-- A condition is written as a test. -/
theorem translate_test_gives (e : Expr π) : Gives .outside (test e.translate) e.testToShell :=
  .test (e.translate_gives .condition)

end Expr

/-! ### Statements -/

open Translate

mutual

/-- A statement is translated as it is expressed. -/
theorem Stmt.translate_gives : ∀ s : Stmt π, Gives .outside s.translate s.toShell
  | .comment text p | .blank p => by
      rw [Stmt.translate, Stmt.toShell]
      exact .pure _
  | .assign target tp value p => by
      rw [Stmt.translate, Stmt.toShell]
      exact (value.translate_gives .value).bind (.pure _)
  | .run value p => by
      rw [Stmt.translate, Stmt.toShell]
      cases value.expansionName? with
      | some callee => exact .note _
      | none => exact (value.translate_gives .value).bind (.pure _)
  | .cond condition body bp alternative p => by
      rw [Stmt.translate, Stmt.toShell]
      apply condition.translate_test_gives.bind
      apply (Stmt.translateAll_gives body).bind
      exact (Else.translate_gives alternative).bind (.pure _)

/-- Statements are written as they would be alone, and the translator stands outside again. -/
theorem Stmt.translateAll_gives : ∀ ss : List (Stmt π),
    Gives .outside (Stmt.translateAll ss) (Stmt.allToShell ss)
  | [] => by
      rw [Stmt.translateAll, Stmt.allToShell]
      exact .pure _
  | s :: ss => by
      rw [Stmt.translateAll, Stmt.allToShell]
      apply (Stmt.translate_gives s).bind
      exact (Stmt.translateAll_gives ss).bind (.pure _)

/-- What follows the body of a conditional is translated as it is expressed. -/
theorem Else.translate_gives : ∀ a : Else π, Gives .outside a.translate a.toShell
  | .absent => by
      rw [Else.translate, Else.toShell]
      exact .pure _
  | .block body bp => by
      rw [Else.translate, Else.toShell]
      exact (Stmt.translateAll_gives body).bind (.pure _)
  | .elseIf condition body bp rest => by
      rw [Else.translate, Else.toShell]
      apply condition.translate_test_gives.bind
      apply (Stmt.translateAll_gives body).bind
      exact (Else.translate_gives rest).bind (.pure _)

end

/-! ### Scripts -/

/-- A translator that is ready expresses a script as it would be expressed alone, and is
ready again, whether the script has problems or not. -/
theorem Translator.express_start (s : Script π) :
    Translator.start.express s = (s.toShell, .start) := by
  have hrun := Stmt.translateAll_gives s.statements []
  rw [List.nil_append] at hrun
  rw [Translator.express, Script.toShell, Translator.start, hrun]
  cases (Stmt.allToShell s.statements).problems with
  | nil => rfl
  | cons problem problems => rfl

end Shellward
