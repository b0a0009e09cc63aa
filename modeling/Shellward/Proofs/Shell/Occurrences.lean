import Mathlib.Data.List.Basic
import Shellward.Shell.Layout

/-!
# The nodes of shell scripts

The expressions that the statements of a shell script hold are its roots.  Each node of
a root has nodes around it, and the nearest of these that starts a text of its own says
what the node is read as: part of a test, of an arithmetic expansion, or a plain value.

Main results:

- Theorem `Expr.childInduction`: what passes from the children of an expression to the
  expression holds of every expression.
- Theorem `Expr.mem_occurrences`: the nodes of an expression are the expression itself and
  the nodes of its children.
- Theorem `Expr.isInfix_layout`: the text of a node is part of the text of the expression.
- Theorem `Script.isInfix_layout_of_test`: the text of a test is part of the text of the script.
-/

namespace Shellward
namespace Shell

/-- What a text is read as. -/
inductive Scope where
  | plain
  | test
  | arithmetic
deriving DecidableEq, Repr

/-- A node of an expression, and the nodes around it with the nearest one first. -/
structure Occurrence where
  around : List Expr
  node : Expr

/-! ### Expressions -/

namespace Expr

/-- What the parts of an expression are read as, if that is not what the expression
itself is read as. -/
def opens? : Expr → Option Scope
  | .command .. => some .plain
  | .test _ => some .test
  | .arithmetic _ => some .arithmetic
  | _ => none

/-- The expressions directly in an expression, in order. -/
def children : Expr → List Expr
  | .text _ | .value .. | .length _ => []
  | .command _ arguments _ => arguments
  | .binary _ left right => [left, right]
  | .group inner | .arithmetic inner | .test inner | .substitution inner => [inner]
  | .replace _ _ pattern replacement => [pattern, replacement]
  | .remove _ _ pattern => [pattern]

mutual

/-- The nodes of an expression that stands in others, each before its own parts. -/
def occurrences (around : List Expr) (e : Expr) : List Occurrence :=
  ⟨around, e⟩ ::
    match e with
    | .text _ | .value .. | .length _ => []
    | .command name arguments redirects =>
        allOccurrences (.command name arguments redirects :: around) arguments
    | .binary operator left right =>
        left.occurrences (.binary operator left right :: around) ++
          right.occurrences (.binary operator left right :: around)
    | .group inner => inner.occurrences (.group inner :: around)
    | .arithmetic inner => inner.occurrences (.arithmetic inner :: around)
    | .test inner => inner.occurrences (.test inner :: around)
    | .substitution inner => inner.occurrences (.substitution inner :: around)
    | .replace name everywhere pattern replacement =>
        pattern.occurrences (.replace name everywhere pattern replacement :: around) ++
          replacement.occurrences (.replace name everywhere pattern replacement :: around)
    | .remove name side pattern => pattern.occurrences (.remove name side pattern :: around)

/-- The nodes of several expressions that stand in others. -/
def allOccurrences (around : List Expr) : List Expr → List Occurrence
  | [] => []
  | e :: es => e.occurrences around ++ allOccurrences around es

end

theorem allOccurrences_eq (around es : List Expr) :
    allOccurrences around es = es.flatMap (occurrences around) := by
  induction es with
  | nil => rw [allOccurrences, List.flatMap_nil]
  | cons e es ih => rw [allOccurrences, List.flatMap_cons, ih]

/-- The nodes of an expression are the expression itself and then those of its children. -/
theorem occurrences_eq (around : List Expr) (e : Expr) :
    e.occurrences around = ⟨around, e⟩ :: e.children.flatMap (occurrences (e :: around)) := by
  cases e <;> simp [occurrences, children, allOccurrences_eq]

/-- A node of an expression is the expression or a node of one directly in it. -/
theorem mem_occurrences {around : List Expr} {e : Expr} {o : Occurrence} :
    o ∈ e.occurrences around ↔
      o = ⟨around, e⟩ ∨ ∃ c ∈ e.children, o ∈ c.occurrences (e :: around) := by
  rw [occurrences_eq, List.mem_cons, List.mem_flatMap]

/-- What passes from the children of an expression to the expression holds of every
expression. -/
@[elab_as_elim]
theorem childInduction {P : Expr → Prop} (step : ∀ e, (∀ c ∈ e.children, P c) → P e) (e : Expr) :
    P e := by
  have leaf : ∀ e : Expr, e.children = [] → P e := by
    intro e he
    apply step
    rw [he]
    exact List.forall_mem_nil _
  have single : ∀ e c : Expr, e.children = [c] → P c → P e := by
    intro e c he hc
    apply step
    rw [he]
    exact List.forall_mem_singleton.mpr hc
  have pair : ∀ e c d : Expr, e.children = [c, d] → P c → P d → P e := by
    intro e c d he hc hd
    apply step
    rw [he]
    exact List.forall_mem_cons.mpr ⟨hc, List.forall_mem_singleton.mpr hd⟩
  apply @Expr.rec P (fun es => ∀ e ∈ es, P e)
  case text => exact fun _ => leaf _ rfl
  case value => exact fun _ _ => leaf _ rfl
  case length => exact fun _ => leaf _ rfl
  case command => exact fun _ _ _ harguments => step _ harguments
  case binary => exact fun _ _ _ => pair _ _ _ rfl
  case replace => exact fun _ _ _ _ => pair _ _ _ rfl
  case group | arithmetic | test | substitution => exact fun _ => single _ _ rfl
  case remove => exact fun _ _ _ => single _ _ rfl
  case nil => exact List.forall_mem_nil _
  case cons => exact fun _ _ he hes => List.forall_mem_cons.mpr ⟨he, hes⟩

/-! ### The text of a node -/

theorem isInfix_append (before text after : String) :
    text.toList <:+: (before ++ text ++ after).toList := by
  rw [String.toList_append, String.toList_append]
  exact List.infix_append _ _ _

/-- The text of an argument is part of the text of the arguments. -/
theorem isInfix_layoutArguments {e : Expr} {es : List Expr} (h : e ∈ es) :
    (e.layout false).toList <:+: (layoutArguments es).toList := by
  induction es with
  | nil => exact absurd h List.not_mem_nil
  | cons first rest ih =>
      rw [layoutArguments]
      rcases List.mem_cons.mp h with rfl | h
      · exact isInfix_append _ _ _
      · rw [String.toList_append]
        exact (ih h).trans (List.suffix_append _ _).isInfix

/-- The text of a child is part of the text of an expression. -/
theorem isInfix_layout_of_mem_children {e c : Expr} (h : c ∈ e.children) (inTest : Bool) :
    ∃ inTest', (c.layout inTest').toList <:+: (e.layout inTest).toList := by
  cases e with
  | text | value | length => exact absurd h List.not_mem_nil
  | command name arguments redirects =>
      rw [layout]
      exact ⟨false, (isInfix_layoutArguments h).trans (isInfix_append _ _ _)⟩
  | binary operator left right =>
      rw [layout]
      rcases List.mem_pair.mp h with rfl | rfl
      · simp only [String.append_assoc, String.toList_append]
        exact ⟨inTest, (List.prefix_append _ _).isInfix⟩
      · rw [String.toList_append]
        exact ⟨inTest, (List.suffix_append _ _).isInfix⟩
  | group inner =>
      rw [List.mem_singleton.mp h, layout]
      split
      · exact ⟨inTest, isInfix_append _ _ _⟩
      · exact ⟨inTest, isInfix_append _ _ _⟩
  | arithmetic inner | substitution inner =>
      rw [List.mem_singleton.mp h, layout]
      exact ⟨false, isInfix_append _ _ _⟩
  | test inner =>
      rw [List.mem_singleton.mp h, layout]
      exact ⟨true, isInfix_append _ _ _⟩
  | replace name everywhere pattern replacement =>
      rw [layout]
      rcases List.mem_pair.mp h with rfl | rfl
      · rw [String.append_assoc, String.append_assoc]
        exact ⟨false, isInfix_append _ _ _⟩
      · exact ⟨false, isInfix_append _ _ _⟩
  | remove name side pattern =>
      rw [List.mem_singleton.mp h, layout]
      exact ⟨false, isInfix_append _ _ _⟩

/-- The text of a node is part of the text of an expression. -/
theorem isInfix_layout {e : Expr} {around : List Expr} {o : Occurrence}
    (h : o ∈ e.occurrences around) (inTest : Bool) :
    ∃ inTest', (o.node.layout inTest').toList <:+: (e.layout inTest).toList := by
  induction e using childInduction generalizing around inTest with
  | step e ih =>
      rcases mem_occurrences.mp h with rfl | ⟨c, hc, ho⟩
      · exact ⟨inTest, List.infix_rfl⟩
      · rcases isInfix_layout_of_mem_children hc inTest with ⟨childInTest, hchild⟩
        rcases ih c hc ho childInTest with ⟨inTest', hnode⟩
        exact ⟨inTest', hnode.trans hchild⟩

end Expr

/-- What stands in some nodes of a root is read as: what the nearest of them that says so
tells, or else what the root is read as. -/
def Scope.inside (root : Scope) (around : List Expr) : Scope :=
  (around.findSome? Expr.opens?).getD root

/-- The nearest node around tells what a node is read as, if it says so. -/
theorem Scope.inside_cons (root : Scope) (e : Expr) (around : List Expr) :
    root.inside (e :: around) = e.opens?.getD (root.inside around) := by
  rw [inside, List.findSome?_cons]
  cases e.opens? <;> rfl

/-! ### Statements -/

mutual

/-- The expressions that a statement holds, and what they are read as. -/
def Stmt.roots : Stmt → List (Scope × Expr)
  | .comment _ | .blank => []
  | .assign _ value | .run value => [(.plain, value)]
  | .cond test body alternative => (.test, test) :: (Stmt.allRoots body ++ alternative.roots)

/-- The expressions that several statements hold. -/
def Stmt.allRoots : List Stmt → List (Scope × Expr)
  | [] => []
  | s :: ss => s.roots ++ Stmt.allRoots ss

/-- The expressions that stand in what follows the body of a conditional. -/
def Else.roots : Else → List (Scope × Expr)
  | .absent => []
  | .block body => Stmt.allRoots body
  | .elseIf test body rest => (.test, test) :: (Stmt.allRoots body ++ rest.roots)

end

/-- The expressions that the statements of a script hold, and what they are read as. -/
def Script.roots (s : Script) : List (Scope × Expr) :=
  Stmt.allRoots s.statements

/-! ### The text of a test -/

theorem mem_bodyLines {depth : Nat} {body : List Stmt} {lines : List Line} {line : Line}
    (h : line ∈ lines) : line ∈ bodyLines depth body lines := by
  rw [bodyLines]
  split
  · exact h
  · exact List.mem_append_left _ h

/-- The text of an expression is part of one of the lines. -/
def WrittenIn (lines : List Line) (e : Expr) : Prop :=
  ∃ line ∈ lines, (e.layout false).toList <:+: line.text.toList

/-- A text that is part of one of some lines is part of one of more lines. -/
theorem WrittenIn.mono {lines lines' : List Line} {e : Expr} (h : WrittenIn lines e)
    (hlines : lines ⊆ lines') : WrittenIn lines' e := by
  rcases h with ⟨line, hline, htext⟩
  exact ⟨line, hlines hline, htext⟩

/-- The tests of a branch and of what follows it are written on their lines. -/
theorem writtenIn_branch {test head : Expr} {roots roots' : List (Scope × Expr)} {depth : Nat}
    {body : List Stmt} {lines lines' : List Line} (keyword : String)
    (h : (Scope.test, test) ∈ (Scope.test, head) :: (roots ++ roots'))
    (hbody : (Scope.test, test) ∈ roots → WrittenIn lines (.test test))
    (hrest : (Scope.test, test) ∈ roots' → WrittenIn lines' (.test test)) :
    WrittenIn (⟨depth, keyword ++ (Expr.test head).layout false ++ "; then"⟩ ::
      bodyLines (depth + 1) body lines ++ lines') (.test test) := by
  rcases List.mem_cons.mp h with heq | h
  · cases heq
    exact ⟨_, List.mem_cons_self, Expr.isInfix_append _ _ _⟩
  · rcases List.mem_append.mp h with h | h
    · apply (hbody h).mono
      intro line hline
      exact List.mem_cons_of_mem _ (List.mem_append_left _ (mem_bodyLines hline))
    · apply (hrest h).mono
      intro line hline
      exact List.mem_cons_of_mem _ (List.mem_append_right _ hline)

mutual

/-- The test of a conditional in a statement is written on one of its lines. -/
theorem Stmt.writtenIn_layout {test : Expr} : ∀ (s : Stmt) (depth : Nat),
    (.test, test) ∈ s.roots → WrittenIn (s.layout depth) (.test test)
  | .comment _, _, h | .blank, _, h => absurd h List.not_mem_nil
  | .assign .., _, h | .run _, _, h => by
      cases List.mem_singleton.mp h
  | .cond _ body alternative, depth, h => by
      rw [Stmt.layout]
      exact writtenIn_branch "if " h (Stmt.writtenIn_layoutAll body (depth + 1))
        (Else.writtenIn_layout alternative depth)

/-- The tests in several statements are written in their lines. -/
theorem Stmt.writtenIn_layoutAll {test : Expr} : ∀ (ss : List Stmt) (depth : Nat),
    (.test, test) ∈ Stmt.allRoots ss → WrittenIn (Stmt.layoutAll depth ss) (.test test)
  | [], _, h => absurd h List.not_mem_nil
  | s :: ss, depth, h => by
      rw [Stmt.layoutAll]
      rcases List.mem_append.mp h with hs | hss
      · exact (Stmt.writtenIn_layout s depth hs).mono (List.subset_append_left _ _)
      · exact (Stmt.writtenIn_layoutAll ss depth hss).mono (List.subset_append_right _ _)

/-- The tests after the body of a conditional are written in the lines there. -/
theorem Else.writtenIn_layout {test : Expr} : ∀ (a : Else) (depth : Nat),
    (.test, test) ∈ a.roots → WrittenIn (a.layout depth) (.test test)
  | .absent, _, h => absurd h List.not_mem_nil
  | .block body, depth, h => by
      rw [Else.layout]
      apply (Stmt.writtenIn_layoutAll body (depth + 1) h).mono
      intro line hline
      exact List.mem_cons_of_mem _ (List.mem_append_left _ (mem_bodyLines hline))
  | .elseIf _ body rest, depth, h => by
      rw [Else.layout]
      exact writtenIn_branch "elif " h (Stmt.writtenIn_layoutAll body (depth + 1))
        (Else.writtenIn_layout rest depth)

end

/-- A line is part of the text of several lines. -/
theorem isInfix_renderAll {line : Line} {lines : List Line} (h : line ∈ lines) (width : Nat) :
    line.text.toList <:+: (Line.renderAll width lines).toList := by
  rw [Line.renderAll]
  induction lines with
  | nil => exact absurd h List.not_mem_nil
  | cons first rest ih =>
      rw [List.map_cons, String.join_cons, String.toList_append]
      rcases List.mem_cons.mp h with rfl | h
      · exact (Expr.isInfix_append _ _ _).trans (List.prefix_append _ _).isInfix
      · exact (ih h).trans (List.suffix_append _ _).isInfix

/-- The text of a test is part of the text of the script. -/
theorem Script.isInfix_layout_of_test {s : Script} {test : Expr} (h : (.test, test) ∈ s.roots)
    (width : Nat) : ((Expr.test test).layout false).toList <:+: (s.layout width).toList := by
  rcases Stmt.writtenIn_layoutAll s.statements 0 h with ⟨line, hline, htext⟩
  have hmem : line ∈ s.lines := List.mem_cons_of_mem _ (List.mem_cons_of_mem _ hline)
  exact htext.trans (isInfix_renderAll hmem width)

end Shell
end Shellward
