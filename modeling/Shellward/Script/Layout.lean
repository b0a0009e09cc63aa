import Shellward.Script.Basic
import Shellward.Line

/-!
# The layout of scripts

A script is written one statement a line, with single spaces around operators
and four spaces of indentation a block.  Comments and blank lines are kept.
Places have no part in it.

Main results:

- Theorem `Script.layout_map`: replacing the places of a script does not change
  its layout.
-/

namespace Shellward

variable {π κ : Type}

namespace Expr

mutual

/-- The text of an expression. -/
def layout : Expr π → String
  | .literal _ text _ => text
  | .name text _ => text
  | .call _ callee _ arguments _ => callee ++ "(" ++ layoutArguments arguments ++ ")"
  | .binary op left right _ => left.layout ++ " " ++ op.spelling ++ " " ++ right.layout
  | .negate inner _ => "-" ++ inner.layout
  | .group inner _ => "(" ++ inner.layout ++ ")"

/-- The text of arguments, with commas between them. -/
def layoutArguments : List (Expr π) → String
  | [] => ""
  | e :: es => e.layout ++ layoutMore es

/-- The text of arguments that follow others. -/
def layoutMore : List (Expr π) → String
  | [] => ""
  | e :: es => ", " ++ e.layout ++ layoutMore es

end

mutual

/-- The text of an expression does not depend on its places. -/
theorem layout_map (f : π → κ) : ∀ e : Expr π, (e.map f).layout = e.layout
  | .literal .. | .name .. => by simp [map, layout]
  | .call _ _ _ arguments _ => by simp [map, layout, layoutArguments_mapAll f arguments]
  | .binary _ left right _ => by simp [map, layout, layout_map f left, layout_map f right]
  | .negate inner _ | .group inner _ => by simp [map, layout, layout_map f inner]

/-- The text of arguments does not depend on their places. -/
theorem layoutArguments_mapAll (f : π → κ) :
    ∀ es : List (Expr π), layoutArguments (mapAll f es) = layoutArguments es
  | [] => by simp [mapAll, layoutArguments]
  | e :: es => by simp [mapAll, layoutArguments, layout_map f e, layoutMore_mapAll f es]

/-- The text of arguments that follow others does not depend on their places. -/
theorem layoutMore_mapAll (f : π → κ) :
    ∀ es : List (Expr π), layoutMore (mapAll f es) = layoutMore es
  | [] => by simp [mapAll, layoutMore]
  | e :: es => by simp [mapAll, layoutMore, layout_map f e, layoutMore_mapAll f es]

end

end Expr

mutual

/-- The lines of a statement inside `depth` blocks. -/
def Stmt.layout (depth : Nat) : Stmt π → List Line
  | .comment text _ => [⟨depth, Text.trimEnd Text.isBlank text⟩]
  | .blank _ => [Line.blank]
  | .assign target _ value _ => [⟨depth, "let " ++ target ++ " = " ++ value.layout⟩]
  | .run value _ => [⟨depth, value.layout⟩]
  | .cond test body _ alternative _ =>
      ⟨depth, "if " ++ test.layout ++ " \x7b"⟩ :: Stmt.layoutAll (depth + 1) body ++
        alternative.layout depth

/-- The lines of several statements. -/
def Stmt.layoutAll (depth : Nat) : List (Stmt π) → List Line
  | [] => []
  | s :: ss => s.layout depth ++ Stmt.layoutAll depth ss

/-- The lines from the end of a block of a conditional on. -/
def Else.layout (depth : Nat) : Else π → List Line
  | .absent => [⟨depth, "\x7d"⟩]
  | .block body _ =>
      ⟨depth, "\x7d else \x7b"⟩ :: Stmt.layoutAll (depth + 1) body ++ [⟨depth, "\x7d"⟩]
  | .elseIf test body _ rest =>
      ⟨depth, "\x7d else if " ++ test.layout ++ " \x7b"⟩ :: Stmt.layoutAll (depth + 1) body ++
        rest.layout depth

end

mutual

/-- The lines of a statement do not depend on its places. -/
theorem Stmt.layout_map (f : π → κ) (depth : Nat) :
    ∀ s : Stmt π, (s.map f).layout depth = s.layout depth
  | .comment .. | .blank _ => by simp [Stmt.map, Stmt.layout]
  | .assign .. | .run .. => by simp [Stmt.map, Stmt.layout, Expr.layout_map]
  | .cond _ body _ alternative _ => by
      simp [Stmt.map, Stmt.layout, Expr.layout_map, Stmt.layoutAll_mapAll f _ body,
        Else.layout_map f _ alternative]

/-- The lines of several statements do not depend on their places. -/
theorem Stmt.layoutAll_mapAll (f : π → κ) (depth : Nat) :
    ∀ ss : List (Stmt π), Stmt.layoutAll depth (Stmt.mapAll f ss) = Stmt.layoutAll depth ss
  | [] => by simp [Stmt.mapAll, Stmt.layoutAll]
  | s :: ss => by
      simp [Stmt.mapAll, Stmt.layoutAll, Stmt.layout_map f _ s, Stmt.layoutAll_mapAll f _ ss]

/-- The lines from the end of a block on do not depend on their places. -/
theorem Else.layout_map (f : π → κ) (depth : Nat) :
    ∀ a : Else π, (a.map f).layout depth = a.layout depth
  | .absent => by simp [Else.map, Else.layout]
  | .block body _ => by simp [Else.map, Else.layout, Stmt.layoutAll_mapAll f _ body]
  | .elseIf _ body _ rest => by
      simp [Else.map, Else.layout, Expr.layout_map, Stmt.layoutAll_mapAll f _ body,
        Else.layout_map f _ rest]

end

namespace Script

/-- The number of spaces a block is indented by. -/
def indentWidth : Nat := 4

/-- The lines of a script. -/
def lines (s : Script π) : List Line :=
  Stmt.layoutAll 0 s.statements

/-- The text of a script. -/
def layout (s : Script π) : String :=
  Line.renderAll indentWidth s.lines

/-- The layout of a script does not depend on its places. -/
theorem layout_map (f : π → κ) (s : Script π) : (s.map f).layout = s.layout := by
  simp [layout, lines, map, Stmt.layoutAll_mapAll]

end Script
end Shellward
