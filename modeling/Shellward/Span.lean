/-!
# Spans

A span is a half-open range of byte offsets of a script.
-/

namespace Shellward

/-- The byte offsets from `start` up to and without `stop`. -/
structure Span where
  start : Nat
  stop : Nat
deriving DecidableEq, Repr, Inhabited

namespace Span

/-- The span at `offset` that holds no byte. -/
def empty (offset : Nat) : Span :=
  ⟨offset, offset⟩

/-- The number of bytes of a span. -/
def length (s : Span) : Nat :=
  s.stop - s.start

/-- Whether a span ends where it starts. -/
def isEmpty (s : Span) : Bool :=
  s.start == s.stop

/-- The smallest span around two spans. -/
def merge (s t : Span) : Span :=
  ⟨min s.start t.start, max s.stop t.stop⟩

/-- The span moved `distance` bytes to the right. -/
def shift (distance : Nat) (s : Span) : Span :=
  ⟨s.start + distance, s.stop + distance⟩

/-! ### Laws of the merge -/

@[simp]
theorem merge_start (s t : Span) : (s.merge t).start = min s.start t.start :=
  rfl

@[simp]
theorem merge_stop (s t : Span) : (s.merge t).stop = max s.stop t.stop :=
  rfl

/-- A common shift of two spans shifts their merge. -/
theorem merge_shift (n : Nat) (s t : Span) :
    (s.shift n).merge (t.shift n) = (s.merge t).shift n := by
  simp only [merge, shift, Span.mk.injEq]
  omega

end Span
end Shellward
