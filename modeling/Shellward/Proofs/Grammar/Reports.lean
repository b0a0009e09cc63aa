import Shellward.Proofs.Grammar.Recovery

/-!
# One report for each failure

Only the loop over statements goes on after a mistake.  Every reader inside a line stops at
its first mistake and reports it once, at the token where it stopped; and when it gives a
value it has reported nothing.

Main results:

- Theorem `Expr.parse_terse`: expressions are read in this way.
- Theorems `Stmt.parseComment_terse`, `Stmt.parseBlank_terse`, `Stmt.parseAssign_terse` and
  `Stmt.parseRun_terse`: so are the statements that have no blocks.
-/

namespace Shellward

open Shellward.Parser

/-- A value comes without a report.  A failure comes with one, at the next token. -/
inductive Outcome.Terse {α : Type} : Outcome α → Prop where
  | value (a : α) (c : Cursor) : Terse ⟨some a, [], c⟩
  | fault (fault : Fault) (c : Cursor) : Terse ⟨none, [⟨fault, c.peek.span⟩], c⟩

/-- A failure has one problem. -/
theorem Outcome.Terse.length_problems {α : Type} {o : Outcome α} (h : o.Terse)
    (hnone : o.value = none) : o.problems.length = 1 := by
  cases h with
  | value => simp at hnone
  | fault => rfl

namespace Parser

variable {α β σ : Type}

/-- A parser that stops at its first mistake and reports it there. -/
def Terse (p : Parser α) : Prop :=
  ∀ c, (p c).Terse

/-- The same where the next token is known. -/
def TerseAt (t : Token) (p : Parser α) : Prop :=
  ∀ c, c.peek = t → (p c).Terse

/-- A token that was looked at is the next one, so a failure may be reported at it. -/
theorem TerseAt.fail (t : Token) (fault : Fault) :
    TerseAt t (Parser.fail fault t.span : Parser α) := by
  rintro c rfl
  exact .fault fault c

/-- A look at the token after the next one changes nothing about reports. -/
theorem TerseAt.peekNext {t : Token} {f : Token → Parser β} (h : ∀ u, TerseAt t (f u)) :
    TerseAt t (Parser.peekNext >>= f) := by
  intro c hpeek
  rw [peekNext_bind_apply]
  exact h c.peekNext c hpeek

namespace Terse

/-- What stops at its first mistake does so whatever the next token is. -/
theorem at_token {p : Parser α} (hp : Terse p) (t : Token) : TerseAt t p :=
  fun c _ => hp c

theorem pure (a : α) : Terse (Pure.pure a) :=
  fun c => .value a c

theorem take : Terse Parser.take :=
  fun c => .value c.peek c.advance

theorem skipWhile (test : Token → Bool) : Terse (Parser.skipWhile test) :=
  fun c => .value () (c.skipWhile test)

/-- A sequence stops at the first mistake of its parts. -/
theorem bind {p : Parser α} {f : α → Parser β} (hp : Terse p) (hf : ∀ a, Terse (f a)) :
    Terse (p >>= f) := by
  intro c
  generalize ho : p c = o
  cases ho ▸ hp c with
  | value a c' =>
      rw [bind_of_some (by rw [ho]), ho]
      exact hf a c'
  | fault fault c' =>
      rw [bind_of_none (by rw [ho]), ho]
      exact .fault fault c'

/-- A value that is computed is reported on like what it is computed from. -/
theorem map {p : Parser α} (g : α → β) (hp : Terse p) : Terse (g <$> p) :=
  hp.bind fun a => pure (g a)

/-- After a look at the next token, mistakes may be reported at it. -/
theorem look {f : Token → Parser β} (h : ∀ t, TerseAt t (f t)) : Terse (Parser.peek >>= f) := by
  intro c
  rw [peek_bind_apply]
  exact h c.peek c rfl

/-- A token that is missing is reported at the token found instead. -/
theorem require (kind : Token.Kind) (fault : Found → Fault) :
    Terse (Parser.require kind fault) := by
  refine look fun t => ?_
  split
  · exact take.at_token t
  · exact .fail t _

/-- A loop stops at the first mistake of its rounds. -/
theorem iterate {step : σ → Parser (Option σ)} (hstep : ∀ s, Terse (step s)) (s : σ) :
    Terse (iterate step s) := by
  intro c
  induction hn : c.ahead.length using Nat.strongRecOn generalizing s c with
  | ind n ih =>
      generalize ho : step s c = o
      rw [Parser.iterate]
      cases ho ▸ hstep s c with
      | fault fault c' =>
          simp only [ho]
          exact .fault fault c'
      | value next c' =>
          simp only [ho]
          cases next with
          | none => exact .value s c'
          | some s' =>
              by_cases hlt : c'.ahead.length < c.ahead.length
              · simp only [hlt, if_true]
                exact ih _ (hn ▸ hlt) s' c' rfl
              · simp only [hlt, if_false]
                exact .value s' c'

end Terse
end Parser

/-! ### Expressions -/

namespace Expr

section Parts

variable {inner : Nat → Parser (Expr Span)} (hinner : ∀ floor, Terse (inner floor))
include hinner

/-- An operand stops at its first mistake. -/
theorem parseOperand_terse : Terse (parseOperand inner) := by
  refine .look fun t => ?_
  split
  · exact (Terse.take.bind fun _ => .pure _).at_token t
  · split
    · exact (Terse.take.bind fun _ => (hinner _).bind fun _ => .pure _).at_token t
    · exact (Terse.take.bind fun _ => (hinner _).bind fun _ =>
        (Terse.require _ _).bind fun _ => .pure _).at_token t
    · exact .fail t _
    · exact .fail t _

/-- An argument stops at its first mistake. -/
theorem parseArgument_terse (callee : String) (arguments : List (Expr Span)) :
    Terse (parseArgument inner callee arguments) := by
  refine .look fun t => ?_
  split
  · exact (Terse.pure _).at_token t
  · refine ((hinner _).bind fun _ => (Terse.skipWhile _).bind fun _ =>
      .look fun separator => ?_).at_token t
    split
    · exact (Terse.pure _).at_token separator
    · exact (Terse.take.bind fun _ => (Terse.skipWhile _).bind fun _ => .pure _).at_token separator
    · exact .fail separator _
    · exact .fail separator _

/-- A call stops at its first mistake. -/
theorem parseCall_terse (callee : Expr Span) : Terse (parseCall inner callee) := by
  unfold parseCall
  split
  · exact Terse.take.bind fun _ => (Terse.skipWhile _).bind fun _ =>
      (Terse.iterate (parseArgument_terse hinner _) _).bind fun _ =>
        Terse.take.bind fun _ => .pure _
  · exact .look fun t => .fail t _

/-- What continues an expression stops at its first mistake. -/
theorem parseContinuation_terse (floor : Nat) (left : Expr Span) :
    Terse (parseContinuation inner floor left) := by
  refine .look fun t => ?_
  split
  · exact ((parseCall_terse hinner left).map _).at_token t
  · split
    · split
      · exact ((Terse.take.bind fun _ => (hinner _).bind fun _ => .pure _).map _).at_token t
      · exact (Terse.pure _).at_token t
    · exact (Terse.pure _).at_token t

end Parts

/-- Reading an expression stops at the first mistake. -/
theorem parse_terse (room floor : Nat) : Terse (parse room floor) := by
  induction room generalizing floor with
  | zero => exact .look fun t => .fail t _
  | succ room ih =>
      exact (parseOperand_terse ih).bind fun left =>
        .iterate (parseContinuation_terse ih floor) left

end Expr

/-! ### Statements without blocks -/

namespace Stmt

/-- A line end that is missing is reported at the token found instead. -/
theorem parseLineEnd_terse (after : Clause) (keyword : Option String) :
    Terse (parseLineEnd after keyword) := by
  refine .look fun t => ?_
  split
  · exact (Terse.take.bind fun _ => .pure _).at_token t
  · exact (Terse.pure _).at_token t
  · exact .fail t _

/-- A target that is missing or invalid is reported at the token found instead. -/
theorem parseTarget_terse : Terse parseTarget := by
  refine .look fun t => ?_
  split
  · exact Terse.take.at_token t
  · exact .fail t _
  · exact .fail t _

theorem parseComment_terse : Terse parseComment :=
  Terse.take.bind fun _ => (parseLineEnd_terse _ _).bind fun _ => .pure _

theorem parseBlank_terse : Terse parseBlank :=
  Terse.take.bind fun _ => .pure _

/-- A block for which there is no room is reported at the next token. -/
theorem refuseBlock_terse : Terse refuseBlock :=
  .look fun t => .fail t _

section Parts

variable {expression : Parser (Expr Span)} (hexpression : Terse expression)
include hexpression

/-- An assignment stops at its first mistake. -/
theorem parseAssign_terse : Terse (parseAssign expression) :=
  Terse.take.bind fun _ => parseTarget_terse.bind fun _ => (Terse.require _ _).bind fun _ =>
    hexpression.bind fun _ => (parseLineEnd_terse _ _).bind fun _ => .pure _

/-- An expression on a line of its own stops at its first mistake. -/
theorem parseRun_terse : Terse (parseRun expression) := by
  refine .look fun t => .peekNext fun next => ?_
  split
  · exact .fail t _
  · split
    · exact .fail t _
    · exact (hexpression.bind fun _ => (parseLineEnd_terse _ _).bind fun _ => .pure _).at_token t

end Parts
end Stmt
end Shellward
