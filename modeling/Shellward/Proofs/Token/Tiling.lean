import Shellward.Proofs.Token.Spelling

/-!
# Tokens tile their script

A scanner takes bytes from the front of those ahead, at least one of them and never
more than there are.  So the tokens of a script and the blanks between them make up
the script without a gap or an overlap.

Main results:

- Theorem `Token.scan_isPrefix`: the bytes of a token after its first one are the next
  bytes of the script.
- Theorem `Token.tiling_tokensFrom`: the tokens of some bytes tile them.
- Theorem `Token.ofSource_tiles`: the tokens of a script, with the blanks before them,
  are the script.
-/

namespace Shellward

/-- The bytes of a script that a span covers. -/
def Span.slice (source : Source) (s : Span) : Source :=
  (source.drop s.start).take s.length

/-- A span covers the bytes between those before it and those after it. -/
theorem Span.slice_append {before bytes after : Source} {s : Span}
    (hstart : s.start = before.length) (hstop : s.stop = before.length + bytes.length) :
    s.slice (before ++ (bytes ++ after)) = bytes := by
  rw [slice, length, hstart, hstop, List.drop_left, Nat.add_sub_cancel_left, List.take_left]

namespace Token

/-! ### Scanners take the next bytes -/

/-- A string takes the next bytes. -/
theorem stringBody_isPrefix (bs : Source) : (stringBody bs).1 <+: bs := by
  fun_induction stringBody bs with
  | case1 | case2 => exact List.nil_prefix
  | case3 | case4 | case5 => simp
  | case6 c cs =>
      rename_i ih
      exact (List.prefix_cons_inj _).mpr ((List.prefix_cons_inj c).mpr ih)
  | case7 b bs =>
      rename_i ih
      exact (List.prefix_cons_inj b).mpr ih

/-- An atom takes the next bytes. -/
theorem atomBody_isPrefix (depth : Nat) (bs : Source) : atomBody depth bs <+: bs := by
  fun_induction atomBody depth bs with
  | case1 | case2 | case4 => exact List.nil_prefix
  | case3 | case5 | case6 =>
      rename_i ih
      exact (List.prefix_cons_inj _).mpr ih

theorem scanSymbol_isPrefix {b : UInt8} {bs body : Source} {kind : Kind}
    (h : scanSymbol b bs = some (kind, body)) : body <+: bs := by
  simp only [scanSymbol, Option.map_eq_some_iff] at h
  rcases h with ⟨⟨bytes, kind'⟩, hfind, heq⟩
  have hfront := List.find?_some hfind
  rw [List.isPrefixOf_iff_prefix] at hfront
  rw [← (Prod.mk.inj heq).2]
  rcases bytes with _ | ⟨c, cs⟩
  · exact List.nil_prefix
  · exact (List.cons_prefix_cons.mp hfront).2

theorem scanPattern_isPrefix {b : UInt8} {bs body : Source} {kind : Kind}
    (h : scanPattern b bs = some (kind, body)) : body <+: bs := by
  simp only [scanPattern] at h
  split at h
  · have hinside := takeUntil_isPrefix
      (fun ahead => atLineEnd ahead || ahead.head? == some singleQuote) bs
    split at h
    · rename_i hclosed
      simp only [Option.some.injEq, Prod.mk.injEq] at h
      rcases List.head?_eq_some_iff.mp hclosed with ⟨rest, hrest⟩
      have hsplit := List.prefix_iff_eq_append.mp hinside
      rw [hrest] at hsplit
      rw [← h.2]
      exact ⟨rest, by rw [List.append_assoc]; exact hsplit⟩
    · simp only [Option.some.injEq, Prod.mk.injEq] at h
      rw [← h.2]
      exact hinside
  · simp at h

/-- The bytes of a token after its first one are the next bytes of the script. -/
theorem scan_isPrefix (b : UInt8) (bs : Source) : (scan b bs).2 <+: bs := by
  unfold scan
  split
  · rename_i found hfound
    rcases List.exists_of_findSome?_eq_some hfound with ⟨scanner, hmem, hscanner⟩
    simp only [scanners, List.mem_cons, List.not_mem_nil, or_false] at hmem
    rcases hmem with rfl | rfl | rfl | rfl | rfl | rfl | rfl
    · exact scanSymbol_isPrefix hscanner
    · simp only [scanWord] at hscanner
      split at hscanner <;> simp only [Option.some.injEq, reduceCtorEq] at hscanner
      rw [← hscanner]
      exact List.takeWhile_prefix _
    · simp only [scanNumber] at hscanner
      split at hscanner <;> simp only [Option.some.injEq, reduceCtorEq] at hscanner
      rw [← hscanner]
      exact List.takeWhile_prefix _
    · exact scanPattern_isPrefix hscanner
    · simp only [scanString] at hscanner
      split at hscanner <;> simp only [Option.some.injEq, reduceCtorEq] at hscanner
      rw [← hscanner]
      exact stringBody_isPrefix bs
    · simp only [scanAtom] at hscanner
      split at hscanner <;> simp only [Option.some.injEq, reduceCtorEq] at hscanner
      rw [← hscanner]
      exact atomBody_isPrefix 0 bs
    · simp only [scanComment] at hscanner
      split at hscanner <;> simp only [Option.some.injEq, reduceCtorEq] at hscanner
      rw [← hscanner]
      exact takeUntil_isPrefix atLineEnd bs
  · exact List.takeWhile_prefix _

/-- The bytes ahead are those of the next token and those after it. -/
theorem scan_append_drop (b : UInt8) (bs : Source) :
    (scan b bs).2 ++ bs.drop (scan b bs).2.length = bs :=
  List.prefix_iff_eq_append.mp (scan_isPrefix b bs)

/-! ### Tilings -/

/-- From an offset on, tokens tile some bytes: each of them stands after some blanks and
holds the bytes that follow these, at least one, and the end mark stands where the
bytes end. -/
inductive Tiling : Nat → Source → List Token → Prop where
  | last {offset : Nat} {blanks : Source} : (∀ b ∈ blanks, isSpace b = true) →
      Tiling offset blanks [endMark (offset + blanks.length)]
  | next {offset : Nat} {blanks rest : Source} {t : Token} {ts : List Token} :
      (∀ b ∈ blanks, isSpace b = true) → t.kind ≠ .eof → t.bytes ≠ [] →
      t.span.start = offset + blanks.length → t.span.stop = t.span.start + t.bytes.length →
      Tiling t.span.stop rest ts → Tiling offset (blanks ++ (t.bytes ++ rest)) (t :: ts)

/-- A blank in front keeps a tiling. -/
theorem Tiling.cons_space {offset : Nat} {b : UInt8} {bytes : Source} {ts : List Token}
    (hb : isSpace b = true) (h : Tiling (offset + 1) bytes ts) : Tiling offset (b :: bytes) ts := by
  cases h with
  | last hblanks =>
      have hlength : offset + 1 + bytes.length = offset + (b :: bytes).length := by
        rw [List.length_cons]
        omega
      rw [hlength]
      exact .last (List.forall_mem_cons.mpr ⟨hb, hblanks⟩)
  | next hblanks hkind hbytes hstart hstop hrest =>
      rw [← List.cons_append]
      refine .next (List.forall_mem_cons.mpr ⟨hb, hblanks⟩) hkind hbytes ?_ hstop hrest
      rw [hstart, List.length_cons]
      omega

/-- The tokens of some bytes tile them. -/
theorem tiling_tokensFrom (offset : Nat) (bytes : Source) :
    Tiling offset bytes (tokensFrom offset bytes ++ [endMark (offset + bytes.length)]) := by
  fun_induction tokensFrom offset bytes with
  | case1 offset => exact .last (List.forall_mem_nil _)
  | case2 offset b bs hspace ih =>
      have hlength : offset + (b :: bs).length = offset + 1 + bs.length := by
        rw [List.length_cons]
        omega
      rw [hlength]
      exact ih.cons_space hspace
  | case3 offset b bs hspace kind body hscan ih =>
      have hkind := (spelling_scan b bs).kind_ne_eof
      have hrest := scan_append_drop b bs
      rw [hscan] at hkind hrest
      simp only at hrest
      have hlength := congrArg List.length hrest
      have hend : offset + (1 + body.length) + (bs.drop body.length).length =
          offset + (b :: bs).length := by
        rw [List.length_append] at hlength
        rw [List.length_cons]
        omega
      rw [hend] at ih
      have hnext := Tiling.next (t := ⟨kind, ⟨offset, offset + (1 + body.length)⟩, b :: body⟩)
        (List.forall_mem_nil _) hkind (List.cons_ne_nil b body) rfl
        (by simp only [List.length_cons]; omega) ih
      rw [List.nil_append, List.cons_append, hrest] at hnext
      exact hnext

/-! ### What a tiling tells -/

section Tiling

variable {offset : Nat} {bytes : Source} {ts : List Token}

/-- Only the last token of a tiling is an end mark, and only it is empty. -/
theorem Tiling.exists_last (h : Tiling offset bytes ts) :
    ∃ front, ts = front ++ [endMark (offset + bytes.length)] ∧
      ∀ t ∈ front, t.kind ≠ .eof ∧ t.span.start < t.span.stop := by
  induction h with
  | last _ => exact ⟨[], rfl, List.forall_mem_nil _⟩
  | @next offset blanks rest t ts _ hkind hbytes hstart hstop _ ih =>
      rcases ih with ⟨front, rfl, hfront⟩
      have hpos := List.length_pos_iff.mpr hbytes
      refine ⟨t :: front, ?_, ?_⟩
      · simp only [List.length_append, List.cons_append]
        rw [hstop, hstart]
        simp only [Nat.add_assoc]
      · rw [List.forall_mem_cons]
        exact ⟨⟨hkind, by omega⟩, hfront⟩

/-- A token of a tiling stops as many bytes after its start as it has. -/
theorem Tiling.stop_eq (h : Tiling offset bytes ts) :
    ∀ t ∈ ts, t.span.stop = t.span.start + t.bytes.length := by
  induction h with
  | last _ => simp [endMark, Span.empty]
  | next _ _ _ _ hstop _ ih => exact List.forall_mem_cons.mpr ⟨hstop, ih⟩

/-- No token of a tiling starts before the offset. -/
theorem Tiling.le_start (h : Tiling offset bytes ts) : ∀ t ∈ ts, offset ≤ t.span.start := by
  induction h with
  | last _ => simp [endMark, Span.empty]
  | next _ _ _ hstart hstop _ ih =>
      rw [List.forall_mem_cons]
      refine ⟨by omega, ?_⟩
      intro u hu
      have hle := ih u hu
      omega

/-- A token of a tiling starts where those before it stop, or later. -/
theorem Tiling.pairwise (h : Tiling offset bytes ts) :
    ts.Pairwise fun t u => t.span.stop ≤ u.span.start := by
  induction h with
  | last _ => exact List.pairwise_singleton _ _
  | next _ _ _ _ _ hrest ih => exact List.pairwise_cons.mpr ⟨hrest.le_start, ih⟩

/-- A tiling has no more tokens than bytes, the end mark apart. -/
theorem Tiling.length_le (h : Tiling offset bytes ts) : ts.length ≤ bytes.length + 1 := by
  induction h with
  | last _ => simp
  | next _ _ hbytes _ _ _ ih =>
      have hpos := List.length_pos_iff.mpr hbytes
      simp only [List.length_cons, List.length_append]
      omega

end Tiling

/-- The bytes before each token, from where the token before it stops. -/
def gaps (source : Source) : Nat → List Token → List Source
  | _, [] => []
  | offset, t :: ts => Span.slice source ⟨offset, t.span.start⟩ :: gaps source t.span.stop ts

/-- Only blanks stand between the tokens of a tiling, the tokens hold the bytes that they
cover, and with the blanks these are all bytes. -/
theorem Tiling.gaps_eq {offset : Nat} {bytes : Source} {ts : List Token}
    (h : Tiling offset bytes ts) {before : Source} (hbefore : before.length = offset) :
    (∀ gap ∈ gaps (before ++ bytes) offset ts, ∀ b ∈ gap, isSpace b = true) ∧
      (∀ t ∈ ts, t.span.slice (before ++ bytes) = t.bytes) ∧
      (List.zipWith (fun gap t => gap ++ t.span.slice (before ++ bytes))
        (gaps (before ++ bytes) offset ts) ts).flatten = bytes := by
  induction h generalizing before with
  | @last offset blanks hblanks =>
      have hgap : Span.slice (before ++ blanks) ⟨offset, offset + blanks.length⟩ = blanks := by
        have hslice := @Span.slice_append before blanks [] ⟨offset, offset + blanks.length⟩
          hbefore.symm (by rw [hbefore])
        rwa [List.append_nil] at hslice
      have hend : Span.slice (before ++ blanks) ⟨offset + blanks.length, offset + blanks.length⟩ =
          [] := by
        simp [Span.slice, Span.length]
      refine ⟨?_, ?_, ?_⟩
      · simpa [gaps, endMark, Span.empty, hgap] using hblanks
      · simpa [endMark, Span.empty] using hend
      · simp [gaps, endMark, Span.empty, hgap, hend]
  | @next offset blanks rest t ts hblanks _ _ hstart hstop _ ih =>
      have hgap : Span.slice (before ++ (blanks ++ (t.bytes ++ rest))) ⟨offset, t.span.start⟩ =
          blanks :=
        Span.slice_append hbefore.symm (by rw [hbefore]; exact hstart)
      have hlength : (before ++ blanks).length = t.span.start := by
        rw [List.length_append, hbefore, hstart]
      have htoken : t.span.slice (before ++ (blanks ++ (t.bytes ++ rest))) = t.bytes := by
        rw [← List.append_assoc before]
        exact Span.slice_append hlength.symm (by rw [hlength]; exact hstop)
      have hbefore' : (before ++ (blanks ++ t.bytes)).length = t.span.stop := by
        rw [← List.append_assoc, List.length_append, hlength, hstop]
      rcases ih hbefore' with ⟨hgaps, hbytes, hflatten⟩
      simp only [List.append_assoc] at hgaps hbytes hflatten
      refine ⟨?_, ?_, ?_⟩
      · rw [gaps, hgap]
        exact List.forall_mem_cons.mpr ⟨hblanks, hgaps⟩
      · exact List.forall_mem_cons.mpr ⟨htoken, hbytes⟩
      · rw [gaps, hgap, List.zipWith_cons_cons, List.flatten_cons, htoken, hflatten,
          List.append_assoc]

/-- The tokens of a script tile it.  The last one is an empty end mark where the script
ends, and no other token is an end mark or empty.  No two tokens overlap, between two of
them stand only spaces and tabs, and a token carries the bytes that it covers; with the
bytes between them the tokens are the script.  So there is at most one token a byte,
besides the end mark. -/
theorem ofSource_tiles (source : Source) :
    (∃ front last, ofSource source = front ++ [last] ∧
      last.kind = .eof ∧ last.span = Span.empty source.length ∧
      ∀ t ∈ front, t.kind ≠ .eof ∧ t.span.start < t.span.stop) ∧
    (ofSource source).Pairwise (fun t u => t.span.stop ≤ u.span.start) ∧
    (∀ gap ∈ gaps source 0 (ofSource source), ∀ b ∈ gap, b = 0x20 ∨ b = 0x09) ∧
    (∀ t ∈ ofSource source, t.span.slice source = t.bytes) ∧
    (List.zipWith (fun gap t => gap ++ t.span.slice source)
      (gaps source 0 (ofSource source)) (ofSource source)).flatten = source ∧
    (ofSource source).length ≤ source.length + 1 := by
  have htiling : Tiling 0 source (ofSource source) := by
    have htiling := tiling_tokensFrom 0 source
    rwa [Nat.zero_add] at htiling
  rcases htiling.exists_last with ⟨front, hfront, htokens⟩
  rcases @Tiling.gaps_eq 0 source _ htiling [] rfl with ⟨hgaps, hbytes, hflatten⟩
  rw [Nat.zero_add] at hfront
  refine ⟨⟨front, _, hfront, rfl, rfl, htokens⟩, htiling.pairwise, ?_, hbytes, hflatten,
    htiling.length_le⟩
  intro gap hgap b hb
  have hspace := hgaps gap hgap b hb
  simpa [isSpace] using hspace

end Token
end Shellward
