import Mathlib.Data.List.Find
import Shellward.Proofs.Token.Rescan
import Shellward.Proofs.Token.Tiling

/-!
# Tokens lie within their lines

No token but a line end goes on past the end of its line, and no scanner looks further
than that.  So a token is scanned from the bytes of its line alone, and the tokens of
whole lines do not depend on the bytes after them.

Main results:

- Theorem `Token.scan_takeUntil`: a token is scanned from the rest of its line.
- Theorem `Token.tokensFrom_append`: the tokens of whole lines followed by other bytes are
  those of the lines followed by those of the other bytes.
-/

namespace Shellward
namespace Token

/-! ### The rest of a line -/

theorem takeUntil_of_stop {stop : Source → Bool} {b : UInt8} {bs : Source}
    (h : stop (b :: bs) = true) : takeUntil stop (b :: bs) = [] := by
  rw [takeUntil, if_pos h]

theorem takeUntil_of_not_stop {stop : Source → Bool} {b : UInt8} {bs : Source}
    (h : stop (b :: bs) = false) : takeUntil stop (b :: bs) = b :: takeUntil stop bs := by
  rw [takeUntil, if_neg (by simp [h])]

/-- A line ends with a line feed, before which there may be a carriage return. -/
theorem atLineEnd_cons_iff {b : UInt8} {bs : Source} :
    atLineEnd (b :: bs) = true ↔ b = 0x0a ∨ b = 0x0d ∧ bs.head? = some 0x0a := by
  constructor
  · intro h
    unfold atLineEnd at h
    split at h
    · rename_i heq
      exact .inl (List.cons.inj heq).1
    · rename_i heq
      rcases List.cons.inj heq with ⟨rfl, rfl⟩
      exact .inr ⟨rfl, rfl⟩
    · simp at h
  · rintro (rfl | ⟨rfl, hhead⟩)
    · rfl
    · rcases List.head?_eq_some_iff.mp hhead with ⟨cs, rfl⟩
      rfl

/-- The bytes of a class that has no byte of line ends do not end a line. -/
theorem atLineEnd_eq_false {p : UInt8 → Bool} (hline : p 0x0a = false) (hreturn : p 0x0d = false)
    {b : UInt8} (hb : p b = true) (bs : Source) : atLineEnd (b :: bs) = false := by
  rw [Bool.eq_false_iff]
  intro h
  rcases atLineEnd_cons_iff.mp h with rfl | ⟨rfl, _⟩
  · simp [hline] at hb
  · simp [hreturn] at hb

/-- What ends no line ends none before the rest of the line. -/
theorem atLineEnd_cons_takeUntil {b : UInt8} {bs : Source} (h : atLineEnd (b :: bs) = false) :
    atLineEnd (b :: takeUntil atLineEnd bs) = false := by
  rw [Bool.eq_false_iff] at h ⊢
  intro hline
  exact h (atLineEnd_of_isPrefix ((List.prefix_cons_inj b).mpr (takeUntil_isPrefix _ bs)) hline)

/-! ### Scanners stay within the line -/

/-- A run of bytes that are no line ends stays within the line. -/
theorem takeWhile_takeUntil {p : UInt8 → Bool} (hline : p 0x0a = false) (hreturn : p 0x0d = false)
    (bs : Source) : (takeUntil atLineEnd bs).takeWhile p = bs.takeWhile p := by
  induction bs with
  | nil => rfl
  | cons b bs ih =>
      by_cases hb : p b = true
      · rw [takeUntil_of_not_stop (atLineEnd_eq_false hline hreturn hb bs),
          List.takeWhile_cons_of_pos hb, List.takeWhile_cons_of_pos hb, ih]
      · rw [List.takeWhile_cons_of_neg hb, takeUntil]
        split
        · rfl
        · exact List.takeWhile_cons_of_neg hb

/-- Where a pattern ends, or its line. -/
abbrev endsPattern (ahead : Source) : Bool :=
  atLineEnd ahead || ahead.head? == some singleQuote

/-- A pattern stays within its line. -/
theorem takeUntil_endsPattern (bs : Source) :
    takeUntil endsPattern (takeUntil atLineEnd bs) = takeUntil endsPattern bs := by
  induction bs with
  | nil => rfl
  | cons b bs ih =>
      by_cases hline : atLineEnd (b :: bs) = true
      · rw [takeUntil_of_stop hline, takeUntil_of_stop (by rw [endsPattern, hline]; rfl)]
        rfl
      · rw [Bool.not_eq_true] at hline
        have hrest := atLineEnd_cons_takeUntil hline
        rw [takeUntil_of_not_stop hline, takeUntil, takeUntil, ih]
        simp only [endsPattern, hline, hrest, List.head?_cons]

/-- A string stays within its line. -/
theorem stringBody_takeUntil (bs : Source) :
    stringBody (takeUntil atLineEnd bs) = stringBody bs := by
  fun_induction stringBody bs with
  | case1 => rfl
  | case2 b bs hline =>
      rw [takeUntil_of_stop hline]
      rfl
  | case3 bs hline =>
      rw [takeUntil_of_not_stop (by simpa using hline)]
      exact stringBody_quote _
  | case4 => rfl
  | case5 c cs hnext hquote hline =>
      rw [takeUntil_of_not_stop (by simpa using hline), takeUntil_of_stop hnext]
      rfl
  | case6 c cs hnext rest hquote hline ih =>
      rw [Bool.not_eq_true] at hline hnext
      rw [takeUntil_of_not_stop hline, takeUntil_of_not_stop hnext,
        stringBody_escape (atLineEnd_cons_takeUntil hnext), ih]
  | case7 b bs hline hquote hback =>
      rename_i ih
      rw [Bool.not_eq_true] at hline
      rw [takeUntil_of_not_stop hline,
        stringBody_plain (atLineEnd_cons_takeUntil hline) hquote hback, ih]

/-- An atom stays within its line. -/
theorem atomBody_takeUntil (depth : Nat) (bs : Source) :
    atomBody depth (takeUntil atLineEnd bs) = atomBody depth bs := by
  have hkeep : ∀ {b : UInt8} {bs : Source}, ¬isDelimiter b = true →
      takeUntil atLineEnd (b :: bs) = b :: takeUntil atLineEnd bs := by
    intro b bs hb
    have hinside : (!isDelimiter b) = true := by simpa using hb
    exact takeUntil_of_not_stop
      (atLineEnd_eq_false (p := fun b => !isDelimiter b) rfl rfl hinside bs)
  fun_induction atomBody depth bs with
  | case1 => simp [takeUntil, atomBody]
  | case2 depth b bs hdelimiter =>
      rw [takeUntil]
      split
      · simp [atomBody]
      · simp [atomBody, hdelimiter]
  | case3 depth bs hdelimiter ih => simp [hkeep hdelimiter, atomBody, hdelimiter, ih]
  | case4 bs hdelimiter hopen => simp [hkeep hdelimiter, atomBody, hdelimiter, hopen]
  | case5 bs depth hdelimiter hopen ih => simp [hkeep hdelimiter, atomBody, hdelimiter, hopen, ih]
  | case6 _ _ _ hdelimiter hopen hclose ih =>
      simp [hkeep hdelimiter, atomBody, hdelimiter, hopen, hclose, ih]

/-- After the bytes up to a place stand bytes that satisfy the test, or none. -/
theorem exists_takeUntil_append (stop : Source → Bool) (bs : Source) :
    ∃ rest, takeUntil stop bs ++ rest = bs ∧ (rest = [] ∨ stop rest = true) := by
  induction bs with
  | nil => exact ⟨[], rfl, .inl rfl⟩
  | cons b bs ih =>
      by_cases hstop : stop (b :: bs) = true
      · exact ⟨b :: bs, by rw [takeUntil_of_stop hstop, List.nil_append], .inr hstop⟩
      · rw [Bool.not_eq_true] at hstop
        rcases ih with ⟨rest, hrest, hend⟩
        exact ⟨rest, by rw [takeUntil_of_not_stop hstop, List.cons_append, hrest], hend⟩

theorem scanPattern_takeUntil (b : UInt8) (bs : Source) :
    scanPattern b (takeUntil atLineEnd bs) = scanPattern b bs := by
  have hbody := takeUntil_endsPattern bs
  have hclosed : ((takeUntil atLineEnd bs).drop (takeUntil endsPattern bs).length).head? =
      some singleQuote ↔ (bs.drop (takeUntil endsPattern bs).length).head? = some singleQuote := by
    have hlength : (takeUntil endsPattern bs).length ≤ (takeUntil atLineEnd bs).length := by
      rw [← hbody]
      exact (takeUntil_isPrefix _ _).length_le
    rcases exists_takeUntil_append atLineEnd bs with ⟨rest, hrest, hend⟩
    have hdrop := congrArg (List.drop (takeUntil endsPattern bs).length) hrest
    rw [List.drop_append_of_le_length hlength] at hdrop
    rw [← hdrop]
    rcases (takeUntil atLineEnd bs).drop (takeUntil endsPattern bs).length with _ | ⟨c, cs⟩
    · -- A quote after the rest of the line would stand where the line ends.
      rcases rest with _ | ⟨c, cs⟩
      · rfl
      · have hline : c ≠ singleQuote := by
          rcases atLineEnd_cons_iff.mp (hend.resolve_left (List.cons_ne_nil c cs)) with
            rfl | ⟨rfl, _⟩ <;> decide
        simp [hline]
    · rfl
  simp only [scanPattern, hbody, hclosed]

/-- A symbol is one byte, or two of which the second is an equals sign, or the longer line
end. -/
theorem symbol_cases {symbol : Source × Kind} (h : symbol ∈ symbols) :
    (∃ x, symbol.1 = [x]) ∨ (∃ x, symbol.1 = [x, 0x3d]) ∨ symbol.1 = [0x0d, 0x0a] := by
  simp only [symbols, List.mem_cons, List.not_mem_nil, or_false] at h
  rcases h with rfl | rfl | rfl | rfl | rfl | rfl | rfl | rfl | rfl | rfl | rfl | rfl | rfl | rfl |
    rfl | rfl | rfl | rfl | rfl <;> simp

/-- A symbol that is not a line end does not go on past the end of its line. -/
theorem isPrefixOf_takeUntil {symbol : Source × Kind} (h : symbol ∈ symbols) {b : UInt8}
    {bs : Source} (hline : atLineEnd (b :: bs) = false) :
    symbol.1.isPrefixOf (b :: takeUntil atLineEnd bs) = symbol.1.isPrefixOf (b :: bs) := by
  rcases bs with _ | ⟨c, cs⟩
  · rfl
  · by_cases hnext : atLineEnd (c :: cs) = true
    · have hequals : (0x3d == c) = false := by
        rcases atLineEnd_cons_iff.mp hnext with rfl | ⟨rfl, _⟩ <;> decide
      have hreturn : (0x0d == b && 0x0a == c) = false := by
        rw [Bool.eq_false_iff]
        intro hboth
        simp only [Bool.and_eq_true, beq_iff_eq] at hboth
        rw [← hboth.1, ← hboth.2] at hline
        simp [atLineEnd] at hline
      rw [takeUntil_of_stop hnext]
      rcases symbol_cases h with ⟨x, hx⟩ | ⟨x, hx⟩ | hx
      · simp [hx, List.isPrefixOf]
      · simp [hx, List.isPrefixOf, hequals]
      · simpa [hx, List.isPrefixOf] using hreturn
    · rw [takeUntil_of_not_stop (by simpa using hnext)]
      rcases symbol_cases h with ⟨x, hx⟩ | ⟨x, hx⟩ | hx <;> simp [hx, List.isPrefixOf]

theorem scanSymbol_takeUntil {b : UInt8} {bs : Source} (hline : atLineEnd (b :: bs) = false) :
    scanSymbol b (takeUntil atLineEnd bs) = scanSymbol b bs := by
  rw [scanSymbol, scanSymbol, List.find?_congr]
  intro symbol hsymbol
  exact isPrefixOf_takeUntil hsymbol hline

/-- A token that is not a line end is scanned from the rest of its line. -/
theorem scan_takeUntil {b : UInt8} {bs : Source} (hline : atLineEnd (b :: bs) = false) :
    scan b (takeUntil atLineEnd bs) = scan b bs := by
  have hword := takeWhile_takeUntil (p := isWordByte) rfl rfl bs
  have hunknown := takeWhile_takeUntil (p := fun c => !isDelimiter c) rfl rfl bs
  simp only [scan, scanners, List.findSome?_cons, List.findSome?_nil, scanSymbol_takeUntil hline,
    scanPattern_takeUntil, scanWord, scanNumber, scanString, scanAtom, scanComment, hword,
    hunknown, stringBody_takeUntil, atomBody_takeUntil, takeUntil_atLineEnd_idem]

/-! ### Line ends -/

theorem scan_lineFeed (bs : Source) : scan 0x0a bs = (.newLine, []) :=
  @scan_symbol 0x0a [] .newLine (by simp [symbols]) bs (by simp [extendable])

theorem scan_return (bs : Source) : scan 0x0d (0x0a :: bs) = (.newLine, [0x0a]) :=
  @scan_symbol 0x0d [0x0a] .newLine (by simp [symbols]) bs (by simp [extendable])

/-- A token that is not a line end lies within its line. -/
theorem scan_isPrefix_takeUntil {b : UInt8} {bs : Source} (hline : atLineEnd (b :: bs) = false) :
    (scan b bs).2 <+: takeUntil atLineEnd bs := by
  rw [← scan_takeUntil hline]
  exact scan_isPrefix b _

/-! ### Whole lines -/

/-- Some bytes are whole lines: they end with a line feed, or there are none. -/
def WholeLines (bytes : Source) : Prop :=
  ∀ b ∈ bytes.getLast?, b = 0x0a

theorem WholeLines.lineFeed_mem {b : UInt8} {bs : Source} (h : WholeLines (b :: bs)) :
    0x0a ∈ b :: bs := by
  have hlast := List.getLast?_eq_some_getLast (List.cons_ne_nil b bs)
  rw [← h _ hlast]
  exact List.getLast_mem _

/-- What is left of whole lines is whole lines. -/
theorem WholeLines.drop {bytes : Source} (h : WholeLines bytes) (n : Nat) :
    WholeLines (bytes.drop n) := by
  intro b hb
  rw [List.getLast?_drop] at hb
  split at hb
  · simp at hb
  · exact h b hb

theorem WholeLines.tail {b : UInt8} {bs : Source} (h : WholeLines (b :: bs)) : WholeLines bs :=
  h.drop 1

/-- The rest of a line does not depend on what follows the line end. -/
theorem takeUntil_atLineEnd_append_of_mem {xs : Source} (h : 0x0a ∈ xs) (ys : Source) :
    takeUntil atLineEnd (xs ++ ys) = takeUntil atLineEnd xs := by
  induction xs with
  | nil => simp at h
  | cons b bs ih =>
      by_cases hb : b = 0x0a
      · subst hb
        rfl
      · have hmem : 0x0a ∈ bs := (List.mem_cons.mp h).resolve_left (Ne.symm hb)
        have hhead : (bs ++ ys).head? = bs.head? := by
          rcases bs with _ | ⟨c, cs⟩
          · simp at hmem
          · rfl
        rw [List.cons_append, takeUntil, takeUntil, atLineEnd_congr hhead, ih hmem]

/-- The token at the front of some bytes with a line feed among them does not depend on
what follows. -/
theorem scan_append {b : UInt8} {bs : Source} (h : 0x0a ∈ b :: bs) (rest : Source) :
    scan b (bs ++ rest) = scan b bs := by
  by_cases hline : atLineEnd (b :: bs) = true
  · rcases atLineEnd_cons_iff.mp hline with rfl | ⟨rfl, hhead⟩
    · rw [scan_lineFeed, scan_lineFeed]
    · rcases List.head?_eq_some_iff.mp hhead with ⟨cs, rfl⟩
      rw [List.cons_append, scan_return, scan_return]
  · rw [Bool.not_eq_true] at hline
    have hmem : 0x0a ∈ bs :=
      (List.mem_cons.mp h).resolve_left (ne_newLine_of_not_atLineEnd hline).symm
    have hhead : (bs ++ rest).head? = bs.head? := by
      rcases bs with _ | ⟨c, cs⟩
      · simp at hmem
      · rfl
    have hline' : atLineEnd (b :: (bs ++ rest)) = false := by
      rw [atLineEnd_congr hhead, hline]
    rw [← scan_takeUntil hline', takeUntil_atLineEnd_append_of_mem hmem, scan_takeUntil hline]

/-- The tokens of whole lines followed by other bytes are those of the lines followed by
those of the other bytes. -/
theorem tokensFrom_append {lines : Source} (h : WholeLines lines) (offset : Nat) (rest : Source) :
    tokensFrom offset (lines ++ rest) =
      tokensFrom offset lines ++ tokensFrom (offset + lines.length) rest := by
  fun_induction tokensFrom offset lines with
  | case1 offset => rfl
  | case2 offset b bs hspace ih =>
      rw [List.cons_append, tokensFrom_space hspace, ih h.tail, List.length_cons]
      congr 2
      omega
  | case3 offset b bs hspace kind body hscan ih =>
      have hbody := scan_append_drop b bs
      rw [hscan] at hbody
      have hlength := congrArg List.length hbody
      rw [List.length_append] at hlength
      have hle : body.length ≤ bs.length := by
        simp only at hlength
        omega
      rw [List.cons_append, tokensFrom_cons (by simpa using hspace),
        scan_append h.lineFeed_mem, hscan]
      simp only
      rw [List.drop_append_of_le_length hle, ih (h.tail.drop _), List.cons_append]
      congr 3
      simp only [List.length_cons]
      simp only at hlength
      omega

/-! ### The last token of a line -/

/-- The rest of a line has no line feed. -/
theorem lineFeed_notMem_takeUntil (bs : Source) : 0x0a ∉ takeUntil atLineEnd bs := by
  induction bs with
  | nil => simp [takeUntil]
  | cons b bs ih =>
      cases hline : atLineEnd (b :: bs) with
      | true => simp [takeUntil_of_stop hline]
      | false =>
          rw [takeUntil_of_not_stop hline, List.mem_cons, not_or]
          exact ⟨(ne_newLine_of_not_atLineEnd hline).symm, ih⟩

/-- Bytes that are not all blank have a token. -/
theorem tokensFrom_ne_nil {b : UInt8} {bytes : Source} (hb : isSpace b = false) (h : b ∈ bytes)
    (offset : Nat) : tokensFrom offset bytes ≠ [] := by
  fun_induction tokensFrom offset bytes with
  | case1 offset => simp at h
  | case2 offset c cs hspace ih =>
      refine ih ((List.mem_cons.mp h).resolve_left ?_)
      rintro rfl
      simp [hb] at hspace
  | case3 offset c cs hspace kind body hscan ih => simp

/-- A token that takes all of a line, the line feed included, is a line end. -/
theorem kind_scan_of_lineFeed_mem {b : UInt8} {bs : Source} (h : 0x0a ∈ b :: (scan b bs).2) :
    (scan b bs).1 = .newLine := by
  cases hline : atLineEnd (b :: bs) with
  | true =>
      rcases atLineEnd_cons_iff.mp hline with rfl | ⟨rfl, hhead⟩
      · rw [scan_lineFeed]
      · rcases List.head?_eq_some_iff.mp hhead with ⟨cs, rfl⟩
        rw [scan_return]
  | false =>
      have hmem : 0x0a ∈ (scan b bs).2 :=
        (List.mem_cons.mp h).resolve_left (ne_newLine_of_not_atLineEnd hline).symm
      exact absurd ((scan_isPrefix_takeUntil hline).subset hmem) (lineFeed_notMem_takeUntil bs)

/-- The last token of whole lines is a line end. -/
theorem kind_of_mem_getLast?_tokensFrom {lines : Source} (h : WholeLines lines) (offset : Nat) :
    ∀ t ∈ (tokensFrom offset lines).getLast?, t.kind = .newLine := by
  fun_induction tokensFrom offset lines with
  | case1 offset => simp
  | case2 offset b bs hspace ih => exact ih h.tail
  | case3 offset b bs hspace kind body hscan ih =>
      intro t ht
      rw [List.getLast?_cons, Option.mem_some_iff] at ht
      cases hlast : (tokensFrom (offset + (1 + body.length)) (bs.drop body.length)).getLast? with
      | some u =>
          rw [hlast, Option.getD_some] at ht
          exact ih (h.tail.drop _) t (ht ▸ hlast)
      | none =>
          -- Nothing is left of the lines, so the token has their line feed.
          rw [hlast, Option.getD_none] at ht
          have hnil : bs.drop body.length = [] := by
            cases hdrop : bs.drop body.length with
            | nil => rfl
            | cons c cs =>
                have hwhole : WholeLines (c :: cs) := hdrop ▸ h.tail.drop _
                rw [List.getLast?_eq_none_iff, hdrop] at hlast
                exact absurd hlast (tokensFrom_ne_nil (by decide) hwhole.lineFeed_mem _)
          have hbody := scan_append_drop b bs
          rw [hscan] at hbody
          simp only [hnil, List.append_nil] at hbody
          have hkind := @kind_scan_of_lineFeed_mem b bs (by
            rw [hscan, hbody]
            exact h.lineFeed_mem)
          rw [← ht]
          rwa [hscan] at hkind

end Token
end Shellward
