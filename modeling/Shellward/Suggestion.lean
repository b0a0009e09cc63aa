/-!
# Suggestions for misspelt words

The distance of two texts is the least number of characters to insert, delete
or replace to turn one into the other.  A suggestion is the nearest candidate
within a small distance; of equally near candidates the first in order wins.
-/

namespace Shellward
namespace Suggestion

/-- From the distances of one text to all suffixes of `ys`, longest first,
compute those of that text with `x` put in front. -/
def extendRow (x : Char) : List Char → List Nat → List Nat
  | [], below => [below.headD 0 + 1]
  | y :: ys, below =>
      let rest := extendRow x ys below.tail
      let replaced := below.tail.headD 0 + if x = y then 0 else 1
      min (min (below.headD 0 + 1) (rest.headD 0 + 1)) replaced :: rest

/-- The distances of `xs` to all suffixes of `ys`, the longest suffix first. -/
def row (ys : List Char) : List Char → List Nat
  | [] => (List.range (ys.length + 1)).reverse
  | x :: xs => extendRow x ys (row ys xs)

/-- The least number of characters to insert, delete or replace. -/
def distance (a b : String) : Nat :=
  (row b.toList a.toList).headD 0

/-- The largest distance of a suggestion: half the bytes of the input, but at
least one and at most two. -/
def reach (input : String) : Nat :=
  max 1 (min 2 (input.utf8ByteSize / 2))

/-- Whether a candidate is near the input without being the input. -/
def isNear (input candidate : String) : Bool :=
  let d := distance input candidate
  0 < d && d ≤ reach input

/-- Whether `a` is a better suggestion than `b`: nearer, or as near and before it. -/
def isBetter (input a b : String) : Bool :=
  let da := distance input a
  let db := distance input b
  da < db || (da == db && decide (a < b))

/-- The better of the best candidate so far and another one. -/
def better (input : String) (best : Option String) (candidate : String) : Option String :=
  match best with
  | none => some candidate
  | some b => if isBetter input candidate b then some candidate else some b

end Suggestion

/-- The nearest of the candidates that are near the input. -/
def suggest? (input : String) (candidates : List String) : Option String :=
  (candidates.filter (Suggestion.isNear input)).foldl (Suggestion.better input) none

end Shellward
