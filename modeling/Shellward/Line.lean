import Shellward.Text

/-!
# Indented lines

Printed scripts are made of lines that know how deep they stand; how wide one
step of indentation is, is settled when the lines are put together.
-/

namespace Shellward

/-- A line inside `depth` blocks. -/
structure Line where
  depth : Nat
  text : String
deriving DecidableEq, Repr

namespace Line

/-- The line without any text, which is not indented. -/
def blank : Line :=
  ⟨0, ""⟩

/-- The text of a line, indented by `width` spaces a block and ended. -/
def render (width : Nat) (line : Line) : String :=
  Text.replicate (line.depth * width) ' ' ++ line.text ++ "\n"

/-- The text of several lines. -/
def renderAll (width : Nat) (lines : List Line) : String :=
  String.join (lines.map (render width))

end Line
end Shellward
