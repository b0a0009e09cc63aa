import Mathlib.Order.MinMax
import Shellward.Proofs.Grammar.Relocation
import Shellward.Proofs.Token.Lines

/-!
# Lines that end with a carriage return

A line feed may have a carriage return before it.  A script in which every line feed gets
one has the same tokens, each of which stands as many bytes further on as there are line
feeds before it.

Main results:

- Theorem `Cursor.moved_withReturns`: the tokens of a script with carriage returns are those
  of the script, moved.
-/

namespace Shellward

/-- The script with a carriage return before every line feed. -/
def withReturns (source : Source) : Source :=
  source.flatMap fun b => if b = 0x0a then [0x0d, 0x0a] else [b]

/-- Where a byte of a script stands once there are carriage returns. -/
def returnsOffset (source : Source) (offset : Nat) : Nat :=
  offset + (source.take offset).count 0x0a

/-- Where a span of a script stands once there are carriage returns. -/
def Span.withReturns (source : Source) (s : Span) : Span :=
  ⟨returnsOffset source s.start, returnsOffset source s.stop⟩

@[simp]
theorem withReturns_nil : withReturns [] = [] :=
  rfl

theorem withReturns_lineFeed (bs : Source) :
    withReturns (0x0a :: bs) = 0x0d :: 0x0a :: withReturns bs := by
  simp [withReturns]

theorem withReturns_cons {b : UInt8} (hb : b ≠ 0x0a) (bs : Source) :
    withReturns (b :: bs) = b :: withReturns bs := by
  simp [withReturns, hb]

/-- Carriage returns are put into two pieces one after the other. -/
theorem withReturns_append (xs ys : Source) :
    withReturns (xs ++ ys) = withReturns xs ++ withReturns ys := by
  simp [withReturns]

/-- Where there is no line feed nothing changes. -/
theorem withReturns_of_notMem {bytes : Source} (h : 0x0a ∉ bytes) : withReturns bytes = bytes := by
  induction bytes with
  | nil => rfl
  | cons b bs ih =>
      rw [List.mem_cons, not_or] at h
      rw [withReturns_cons (Ne.symm h.1), ih h.2]

/-- A script grows by as many bytes as it has line feeds. -/
theorem length_withReturns (bytes : Source) :
    (withReturns bytes).length = bytes.length + bytes.count 0x0a := by
  induction bytes with
  | nil => rfl
  | cons b bs ih =>
      by_cases hb : b = 0x0a
      · subst hb
        rw [withReturns_lineFeed, List.length_cons, List.length_cons, List.length_cons, ih,
          List.count_cons_self]
        omega
      · rw [withReturns_cons hb, List.length_cons, List.length_cons, ih, List.count_cons_of_ne hb]
        omega

/-- The end of a piece is moved to the end of the piece with its carriage returns. -/
theorem returnsOffset_append (xs ys : Source) :
    returnsOffset (xs ++ ys) xs.length = (withReturns xs).length := by
  rw [returnsOffset, List.take_left, length_withReturns]

/-- A span of some bytes spans the same bytes with their carriage returns. -/
theorem Span.withReturns_append (before bytes after : Source) :
    Span.withReturns (before ++ (bytes ++ after))
        ⟨before.length, before.length + bytes.length⟩ =
      ⟨(Shellward.withReturns before).length,
        (Shellward.withReturns before).length + (Shellward.withReturns bytes).length⟩ := by
  have hstop := returnsOffset_append (before ++ bytes) after
  rw [List.append_assoc, List.length_append, Shellward.withReturns_append,
    List.length_append] at hstop
  rw [Span.withReturns, returnsOffset_append, hstop]

/-- Offsets stay in order when they are moved. -/
theorem returnsOffset_monotone (source : Source) : Monotone (returnsOffset source) := by
  intro m n h
  have hprefix : (source.take m).Sublist (source.take n) := List.take_sublist_take_left h
  have hcount := hprefix.count_le 0x0a
  simp only [returnsOffset]
  omega

/-- Carriage returns keep the order of offsets, so the span around two spans stays so. -/
theorem Span.keepsMerge_withReturns (source : Source) : KeepsMerge (Span.withReturns source) := by
  intro s t
  simp only [Span.withReturns, Span.merge, (returnsOffset_monotone source).map_min,
    (returnsOffset_monotone source).map_max]

namespace Token

/-! ### The same tokens -/

/-- The rest of a line is the same. -/
theorem takeUntil_withReturns {bytes : Source} (h : 0x0d ∉ bytes) :
    takeUntil atLineEnd (withReturns bytes) = takeUntil atLineEnd bytes := by
  induction bytes with
  | nil => rfl
  | cons b bs ih =>
      rw [List.mem_cons, not_or] at h
      by_cases hb : b = 0x0a
      · subst hb
        rw [withReturns_lineFeed]
        rfl
      · have hline : ∀ rest, atLineEnd (b :: rest) = false :=
          atLineEnd_of_ne hb (Ne.symm h.1)
        rw [withReturns_cons hb, takeUntil_of_not_stop (hline _), takeUntil_of_not_stop (hline _),
          ih h.2]

/-- A token that is not a line end is scanned alike. -/
theorem scan_withReturns {b : UInt8} {bs : Source} (hb : b ≠ 0x0a) (h : 0x0d ∉ b :: bs) :
    scan b (withReturns bs) = scan b bs := by
  rw [List.mem_cons, not_or] at h
  have hline : ∀ rest, atLineEnd (b :: rest) = false := atLineEnd_of_ne hb (Ne.symm h.1)
  rw [← scan_takeUntil (hline _), takeUntil_withReturns h.2, scan_takeUntil (hline _)]

/-- The bytes after a token that is not a line end get their carriage returns. -/
theorem drop_withReturns {b : UInt8} {bs : Source} (hline : atLineEnd (b :: bs) = false) :
    withReturns (scan b bs).2 = (scan b bs).2 ∧
      (withReturns bs).drop (scan b bs).2.length = withReturns (bs.drop (scan b bs).2.length) := by
  have hbody : withReturns (scan b bs).2 = (scan b bs).2 :=
    withReturns_of_notMem fun hmem =>
      lineFeed_notMem_takeUntil bs ((scan_isPrefix_takeUntil hline).subset hmem)
  refine ⟨hbody, ?_⟩
  have hsplit := congrArg withReturns (scan_append_drop b bs)
  rw [withReturns_append, hbody] at hsplit
  rw [← hsplit, List.drop_left]

/-- The tokens of a script with carriage returns, after some of its bytes. -/
theorem moved_tokensFrom_withReturns {source bytes : Source} {offset : Nat} (h : 0x0d ∉ bytes)
    (before : Source) (hsource : source = before ++ bytes) (hoffset : offset = before.length) :
    List.Forall₂ (Token.Moved (Span.withReturns source)) (tokensFrom offset bytes)
      (tokensFrom (withReturns before).length (withReturns bytes)) := by
  fun_induction tokensFrom offset bytes generalizing before with
  | case1 offset =>
      rw [withReturns_nil, tokensFrom_nil]
      exact .nil
  | case2 offset b bs hspace ih =>
      have hb : b ≠ 0x0a := by
        rintro rfl
        simp [isSpace] at hspace
      have hrest := ih (List.not_mem_of_not_mem_cons h) (before ++ [b]) (by simp [hsource])
        (by simp [hoffset])
      rw [withReturns_append, withReturns_cons hb, List.length_append] at hrest
      rw [withReturns_cons hb, tokensFrom_space hspace]
      exact hrest
  | case3 offset b bs hspace kind body hscan ih =>
      have hbs : 0x0d ∉ bs := List.not_mem_of_not_mem_cons h
      have hsplit : source = before ++ ((b :: body) ++ bs.drop body.length) := by
        have hdrop := scan_append_drop b bs
        rw [hscan] at hdrop
        rw [hsource, List.cons_append, hdrop]
      have hspan := Span.withReturns_append before (b :: body) (bs.drop body.length)
      rw [← hsplit, List.length_cons, Nat.add_comm body.length, ← hoffset] at hspan
      have hrest := ih (fun hmem => hbs (List.mem_of_mem_drop hmem)) (before ++ b :: body)
        (by rw [hsplit, List.append_assoc]) (by simp [hoffset]; omega)
      rw [withReturns_append, List.length_append] at hrest
      by_cases hb : b = 0x0a
      · subst hb
        rw [scan_lineFeed] at hscan
        rcases Prod.mk.inj hscan with ⟨rfl, rfl⟩
        rw [withReturns_lineFeed, tokensFrom_cons (by decide), scan_return]
        exact .cons ⟨rfl, hspan.symm, fun hkind => absurd rfl hkind⟩ hrest
      · have hline : atLineEnd (b :: bs) = false :=
          atLineEnd_of_ne hb (fun heq => h (heq ▸ List.mem_cons_self)) bs
        rcases drop_withReturns hline with ⟨hbody, hdrop⟩
        rw [hscan] at hbody hdrop
        rw [withReturns_cons hb, hbody, List.length_cons, Nat.add_comm body.length] at hspan hrest
        rw [withReturns_cons hb, tokensFrom_cons (by simpa using hspace), scan_withReturns hb h,
          hscan, hdrop]
        exact .cons ⟨rfl, hspan.symm, fun _ => rfl⟩ hrest

end Token

/-- The tokens of a script with carriage returns are those of the script, moved. -/
theorem Cursor.moved_withReturns {source : Source} (h : 0x0d ∉ source) :
    Cursor.Moved (Span.withReturns source) (ofTokens (Token.ofSource source))
      (ofTokens (Token.ofSource (withReturns source))) := by
  rw [ofTokens_ofSource, ofTokens_ofSource]
  constructor
  · exact Token.moved_tokensFrom_withReturns h [] rfl rfl
  · have hoffset := returnsOffset_append source []
    rw [List.append_nil] at hoffset
    refine ⟨rfl, ?_, fun _ => rfl⟩
    simp only [Token.endMark, Span.empty, Span.withReturns, hoffset]

end Shellward
