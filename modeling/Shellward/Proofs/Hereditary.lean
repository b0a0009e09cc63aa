import Shellward.Grammar.Stmt

/-!
# What all readers have in common

The readers of the grammar are put together from a few combinators.  So a property of
parsers that the combinators keep is a property of every reader.

Main results:

- Theorem `Parser.Hereditary.expression`: such a property holds of the reader of
  expressions.
- Theorem `Parser.Hereditary.statements`: it holds of the reader of statements.
-/

namespace Shellward
namespace Parser

/-- A property of parsers that the combinators keep. -/
structure Hereditary (K : ∀ {α : Type}, Parser α → Prop) : Prop where
  pure : ∀ {α : Type} (a : α), K (Pure.pure a : Parser α)
  fail : ∀ {α : Type} (fault : Fault) (span : Span), K (Parser.fail fault span : Parser α)
  peek : K Parser.peek
  peekNext : K Parser.peekNext
  take : K Parser.take
  skipWhile : ∀ test : Token → Bool, K (Parser.skipWhile test)
  bind : ∀ {α β : Type} {p : Parser α} {f : α → Parser β}, K p → (∀ a, K (f a)) → K (p >>= f)
  attempt : ∀ {α : Type} {p : Parser α}, K p → K (Parser.attempt p)
  iterate : ∀ {σ : Type} {step : σ → Parser (Option σ)}, (∀ s, K (step s)) →
    ∀ s, K (Parser.iterate step s)

namespace Hereditary

variable {α β : Type} {K : ∀ {α : Type}, Parser α → Prop} (hK : Hereditary K)
include hK

/-- A value that is computed keeps the property of what it is computed from. -/
theorem map {p : Parser α} (g : α → β) (hp : K p) : K (g <$> p) :=
  hK.bind hp fun a => hK.pure (g a)

/-- Asking for a token has the property. -/
theorem require (kind : Token.Kind) (fault : Found → Fault) : K (Parser.require kind fault) := by
  refine hK.bind hK.peek fun t => ?_
  split
  · exact hK.take
  · exact hK.fail _ _

/-! ### Expressions -/

section Expressions

variable {inner : Nat → Parser (Expr Span)} (hinner : ∀ floor, K (inner floor))
include hinner

/-- Operands have the property if what is read inside them has it. -/
theorem operand : K (Expr.parseOperand inner) := by
  refine hK.bind hK.peek fun t => ?_
  split
  · exact hK.bind hK.take fun _ => hK.pure _
  · split
    · exact hK.bind hK.take fun _ => hK.bind (hinner _) fun _ => hK.pure _
    · exact hK.bind hK.take fun _ => hK.bind (hinner _) fun _ =>
        hK.bind (hK.require _ _) fun _ => hK.pure _
    · exact hK.fail _ _
    · exact hK.fail _ _

/-- Arguments have the property if what is read inside them has it. -/
theorem argument (callee : String) (arguments : List (Expr Span)) :
    K (Expr.parseArgument inner callee arguments) := by
  refine hK.bind hK.peek fun t => ?_
  split
  · exact hK.pure _
  · refine hK.bind (hinner _) fun _ => hK.bind (hK.skipWhile _) fun _ =>
      hK.bind hK.peek fun separator => ?_
    split
    · exact hK.pure _
    · exact hK.bind hK.take fun _ => hK.bind (hK.skipWhile _) fun _ => hK.pure _
    · exact hK.fail _ _
    · exact hK.fail _ _

/-- Calls have the property if their arguments have it. -/
theorem call (callee : Expr Span) : K (Expr.parseCall inner callee) := by
  unfold Expr.parseCall
  split
  · exact hK.bind hK.take fun _ => hK.bind (hK.skipWhile _) fun _ =>
      hK.bind (hK.iterate (hK.argument hinner _) _) fun _ =>
        hK.bind hK.take fun _ => hK.pure _
  · exact hK.bind hK.peek fun _ => hK.fail _ _

/-- What continues an expression has the property if what is read inside it has it. -/
theorem continuation (floor : Nat) (left : Expr Span) :
    K (Expr.parseContinuation inner floor left) := by
  refine hK.bind hK.peek fun t => ?_
  split
  · exact hK.map _ (hK.call hinner left)
  · split
    · split
      · exact hK.map _ (hK.bind hK.take fun _ => hK.bind (hinner _) fun _ => hK.pure _)
      · exact hK.pure _
    · exact hK.pure _

end Expressions

/-- A property that the combinators keep holds of the reader of expressions. -/
theorem expression (room floor : Nat) : K (Expr.parse room floor) := by
  induction room generalizing floor with
  | zero => exact hK.bind hK.peek fun _ => hK.fail _ _
  | succ room ih =>
      exact hK.bind (hK.operand ih) fun left => hK.iterate (hK.continuation ih floor) left

/-! ### Statements -/

/-- The end of a clause has the property. -/
theorem lineEnd (after : Clause) (keyword : Option String) :
    K (Stmt.parseLineEnd after keyword) := by
  refine hK.bind hK.peek fun t => ?_
  split
  · exact hK.bind hK.take fun _ => hK.pure _
  · exact hK.pure _
  · exact hK.fail _ _

theorem target : K Stmt.parseTarget := by
  refine hK.bind hK.peek fun t => ?_
  split
  · exact hK.take
  · exact hK.fail _ _
  · exact hK.fail _ _

/-- Going on after a mistake has the property. -/
theorem resume (inBlock : Bool) : K (Stmt.resume inBlock) := by
  refine hK.bind hK.peek fun found => hK.bind (hK.skipWhile _) fun _ =>
    hK.bind hK.peek fun t => ?_
  split
  · exact hK.bind hK.take fun _ => hK.pure _
  · exact hK.pure _

section Statements

variable {expression : Parser (Expr Span)} {contents : Parser (List (Stmt Span))}

/-- Assignments have the property if expressions have it. -/
theorem assign (hexpression : K expression) : K (Stmt.parseAssign expression) :=
  hK.bind hK.take fun _ => hK.bind hK.target fun _ => hK.bind (hK.require _ _) fun _ =>
    hK.bind hexpression fun _ => hK.bind (hK.lineEnd _ _) fun _ => hK.pure _

/-- Expressions on lines of their own have the property if expressions have it. -/
theorem run (hexpression : K expression) : K (Stmt.parseRun expression) := by
  refine hK.bind hK.peek fun t => hK.bind hK.peekNext fun next => ?_
  split
  · exact hK.fail _ _
  · split
    · exact hK.fail _ _
    · exact hK.bind hexpression fun _ => hK.bind (hK.lineEnd _ _) fun _ => hK.pure _

/-- Blocks have the property if their contents have it. -/
theorem block (hcontents : K contents) : K (Stmt.parseBlock contents) := by
  refine hK.bind (hK.require _ _) fun start => hK.bind (hK.require _ _) fun _ =>
    hK.bind hcontents fun body => hK.bind hK.peek fun t => ?_
  split
  · exact hK.bind hK.take fun _ => hK.pure _
  · exact hK.fail _ _

/-- Conditions with their blocks have the property if the parts have it. -/
theorem branch (hexpression : K expression) (hcontents : K contents) :
    K (Stmt.parseBranch expression contents) :=
  hK.bind hexpression fun _ => hK.bind (hK.block hcontents) fun _ => hK.pure _

/-- Further branches have the property if the parts have it. -/
theorem elseIf (hexpression : K expression) (hcontents : K contents)
    (branches : List (Expr Span × List (Stmt Span) × Span)) :
    K (Stmt.parseElseIf expression contents branches) := by
  refine hK.bind hK.peek fun first => hK.bind hK.peekNext fun second => ?_
  split
  · exact hK.bind hK.take fun _ => hK.bind hK.take fun _ =>
      hK.bind (hK.branch hexpression hcontents) fun _ => hK.pure _
  · exact hK.pure _

/-- Last blocks have the property if their contents have it. -/
theorem otherwise (hcontents : K contents) : K (Stmt.parseOtherwise contents) := by
  refine hK.bind hK.peek fun t => ?_
  split
  · exact hK.bind hK.take fun _ => hK.bind (hK.block hcontents) fun _ => hK.pure _
  · exact hK.pure _

/-- Conditionals have the property if their parts have it. -/
theorem cond (hexpression : K expression) (hcontents : K contents) :
    K (Stmt.parseCond expression contents) :=
  hK.bind hK.take fun _ => hK.bind (hK.branch hexpression hcontents) fun _ =>
    hK.bind (hK.iterate (hK.elseIf hexpression hcontents) _) fun _ =>
      hK.bind (hK.otherwise hcontents) fun _ =>
        hK.bind (hK.lineEnd _ _) fun _ => hK.pure _

/-- Statements have the property if expressions and the contents of blocks have it. -/
theorem statement (hexpression : K expression) (hcontents : K contents) :
    K (Stmt.parse expression contents) := by
  refine hK.bind hK.peek fun t => ?_
  split
  · exact hK.bind hK.take fun _ => hK.bind (hK.lineEnd _ _) fun _ => hK.pure _
  · exact hK.bind hK.take fun _ => hK.pure _
  · exact hK.assign hexpression
  · exact hK.cond hexpression hcontents
  · exact hK.run hexpression

/-- A turn of the loop over statements has the property if statements have it. -/
theorem next (inBlock : Bool) {statement : Parser (Stmt Span)} (hstatement : K statement)
    (statements : List (Stmt Span)) : K (Stmt.parseNext inBlock statement statements) := by
  refine hK.bind hK.peek fun t => ?_
  split
  · exact hK.pure _
  · refine hK.bind (hK.attempt hstatement) fun s => ?_
    split
    · exact hK.pure _
    · exact hK.bind (hK.resume inBlock) fun _ => hK.pure _

/-- The loop over statements has the property if statements have it. -/
theorem list (inBlock : Bool) {statement : Parser (Stmt Span)} (hstatement : K statement) :
    K (Stmt.parseList inBlock statement) :=
  hK.bind (hK.iterate (hK.next inBlock hstatement) _) fun _ => hK.pure _

end Statements

/-- A property that the combinators keep holds of the reader of statements. -/
theorem statements (room : Nat) (inBlock : Bool) : K (Stmt.parseAll room inBlock) := by
  induction room generalizing inBlock with
  | zero =>
      have hrefuse : K Stmt.refuseBlock := hK.bind hK.peek fun _ => hK.fail _ _
      exact hK.list inBlock (hK.statement (hK.expression _ _) hrefuse)
  | succ room ih => exact hK.list inBlock (hK.statement (hK.expression _ _) (ih true))

end Hereditary
end Parser
end Shellward
