import Shellward.Utf8
import Shellward.Text
import Shellward.Span

/-!
# Lines and columns

A line map answers where a byte offset lies in a script as its reader sees it:
lines and columns count from one, and a column counts characters.  It also cuts
out the line of a span and underlines the span.
-/

namespace Shellward

/-- A script together with the offsets at which its lines start. -/
structure LineMap where
  source : Source
  starts : List Nat
deriving Repr

namespace LineMap

/-- The byte that ends a line. -/
def lineFeed : UInt8 := 0x0a

/-- The offsets just after the line feeds, where `offset` is that of the first byte. -/
def startsAfter (offset : Nat) : Source → List Nat
  | [] => []
  | b :: bs =>
      if b = lineFeed then (offset + 1) :: startsAfter (offset + 1) bs
      else startsAfter (offset + 1) bs

/-- The line map of a script; the first line starts at offset zero. -/
def ofSource (source : Source) : LineMap :=
  ⟨source, 0 :: startsAfter 0 source⟩

/-- The bytes between two offsets. -/
def slice (m : LineMap) (start stop : Nat) : Source :=
  (m.source.drop start).take (stop - start)

/-- The characters between two offsets. -/
def chars (m : LineMap) (start stop : Nat) : List Char :=
  Utf8.decodeChars (m.slice start stop)

/-- The nearest offset that lies in the script or at its end. -/
def clamp (m : LineMap) (offset : Nat) : Nat :=
  min offset m.source.length

/-- The number of the line that an offset lies on. -/
def lineOf (m : LineMap) (offset : Nat) : Nat :=
  let place := m.clamp offset
  (m.starts.takeWhile (· ≤ place)).length

/-- The offset at which a line starts, for lines that exist. -/
def lineStart? (m : LineMap) (line : Nat) : Option Nat :=
  match line with
  | 0 => none
  | i + 1 => m.starts[i]?

/-- The offset at which a line ends, its line feed apart. -/
def lineStop (m : LineMap) (line : Nat) : Nat :=
  match m.lineStart? (line + 1) with
  | some next => next - 1
  | none => m.source.length

/-- The line and column of an offset.  An offset past the end counts as the end. -/
def position (m : LineMap) (offset : Nat) : Nat × Nat :=
  let line := m.lineOf offset
  (line, (m.chars ((m.lineStart? line).getD 0) (m.clamp offset)).length + 1)

/-- Characters without the carriage returns at their end. -/
def dropReturns (chars : List Char) : List Char :=
  Text.trimEndChars (· == '\r') chars

/-- The text of a line without its line ending; lines that do not exist are empty. -/
def line (m : LineMap) (number : Nat) : String :=
  match m.lineStart? number with
  | some start => String.ofList (dropReturns (m.chars start (m.lineStop number)))
  | none => ""

/-- The number of columns that a span covers on the line where it starts. -/
def width (m : LineMap) (span : Span) : Nat :=
  let start := m.clamp span.start
  let stop := max (min span.stop (m.lineStop (m.lineOf span.start))) start
  (dropReturns (m.chars start stop)).length

/-- The line on which a span starts and, below it, carets under the span; an
empty span has one caret. -/
def excerpt (m : LineMap) (span : Span) : String :=
  let (number, column) := m.position span.start
  m.line number ++ "\n" ++ Text.replicate (column - 1) ' ' ++
    Text.replicate (max (m.width span) 1) '^'

end LineMap
end Shellward
