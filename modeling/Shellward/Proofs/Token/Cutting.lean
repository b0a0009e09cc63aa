import Shellward.Proofs.Token.Lines

/-!
# Tokens of a piece of a script

A scanner reads no further than to see where its token ends, and the end of the bytes is
as good an end as any.  So bytes that are cut short after a token have the same tokens up
to there, and the bytes that some neighbouring tokens cover have just these tokens.

Main results:

- Theorem `Token.scan_cut`: a token is scanned alike when the bytes after it are cut short,
  provided that the cut does not part a line end.
- Theorem `Token.exists_split`: bytes can be parted between any two of their tokens.
- Theorem `Token.exists_bytes`: the bytes that neighbouring tokens of a script cover have
  these tokens and no others.
-/

namespace Shellward
namespace Token

/-! ### Scanners and cut bytes -/

/-- Bytes are others cut short, and the cut does not part a line end in front. -/
structure CutFrom (cut rest : Source) : Prop where
  /-- Nothing is changed before the cut. -/
  front : cut <+: rest
  /-- A line end in front stays, unless nothing does. -/
  line : atLineEnd rest = true → cut = [] ∨ atLineEnd cut = true

section Cut

variable {cut rest : Source} (hcut : CutFrom cut rest)

include hcut

/-- A token with the bytes after it cut short is the front of it with all of them. -/
theorem CutFrom.append_isPrefix (body : Source) {bs : Source} (hbs : body ++ rest = bs) :
    body ++ cut <+: bs := by
  rw [← hbs]
  exact (List.prefix_append_right_inj body).mpr hcut.front

theorem CutFrom.stopped {p : UInt8 → Bool} (h : Stopped p rest) : Stopped p cut := by
  intro c hc
  rcases List.head?_eq_some_iff.mp hc with ⟨cs, rfl⟩
  rcases hcut.front with ⟨back, rfl⟩
  exact h c rfl

theorem takeWhile_cut {p : UInt8 → Bool} {bs : Source} (hbs : bs.takeWhile p ++ rest = bs) :
    (bs.takeWhile p ++ cut).takeWhile p = bs.takeWhile p := by
  have hrest : rest = bs.dropWhile p := by
    rw [← List.append_right_inj (bs.takeWhile p), hbs, List.takeWhile_append_dropWhile]
  refine takeWhile_append_of_stopped (List.all_eq_true.mp List.all_takeWhile) (hcut.stopped ?_)
  intro c hc
  have hhead := List.head?_dropWhile_not p bs
  rw [← hrest, hc] at hhead
  simpa using hhead

/-- Bytes up to a test are the same when those after them are cut short, if a test that
holds of some bytes holds of longer ones, and holds where they are cut. -/
theorem takeUntil_cut {stop : Source → Bool}
    (hmono : ∀ {xs ys : Source}, xs <+: ys → stop xs = true → stop ys = true)
    (hstop : stop rest = true → cut = [] ∨ stop cut = true) {body : Source}
    (hbody : takeUntil stop (body ++ rest) = body) : takeUntil stop (body ++ cut) = body := by
  induction body with
  | nil =>
      have hend : cut = [] ∨ stop cut = true := by
        cases rest with
        | nil => exact .inl (List.prefix_nil.mp hcut.front)
        | cons b bs =>
            apply hstop
            by_contra hgo
            rw [List.nil_append, takeUntil_of_not_stop (by simpa using hgo)] at hbody
            simp at hbody
      rcases cut with _ | ⟨c, cs⟩
      · rfl
      · exact takeUntil_of_stop (hend.resolve_left (List.cons_ne_nil c cs))
  | cons b body ih =>
      have hgo : stop (b :: (body ++ rest)) = false := by
        rw [Bool.eq_false_iff]
        intro h
        rw [List.cons_append, takeUntil_of_stop h] at hbody
        simp at hbody
      have hgo' : stop (b :: (body ++ cut)) = false := by
        rw [Bool.eq_false_iff] at hgo ⊢
        intro h
        exact hgo (hmono (hcut.append_isPrefix (b :: body) rfl) h)
      rw [List.cons_append, takeUntil_of_not_stop hgo, List.cons.injEq] at hbody
      rw [List.cons_append, takeUntil_of_not_stop hgo', ih hbody.2]

theorem atLineEnd_cut {b : UInt8} {body : Source} (h : atLineEnd (b :: (body ++ rest)) = false) :
    atLineEnd (b :: (body ++ cut)) = false := by
  rw [Bool.eq_false_iff] at h ⊢
  intro hline
  exact h (atLineEnd_of_isPrefix (hcut.append_isPrefix (b :: body) rfl) hline)

/-- A string is scanned alike from bytes that are cut short after it. -/
theorem stringBody_cut {bs : Source} (hbs : (stringBody bs).1 ++ rest = bs) :
    stringBody ((stringBody bs).1 ++ cut) = stringBody bs := by
  fun_induction stringBody bs with
  | case1 =>
      rw [List.nil_append] at hbs
      subst hbs
      rw [List.prefix_nil.mp hcut.front]
      rfl
  | case2 b bs hline =>
      rw [List.nil_append] at hbs
      subst hbs
      rcases hcut.line hline with rfl | hcutline
      · rfl
      · rcases cut with _ | ⟨c, cs⟩
        · rfl
        · rw [List.nil_append, stringBody.eq_def]
          simp [hcutline]
  | case3 => exact stringBody_quote _
  | case4 =>
      have hnil : rest = [] := by simpa using hbs
      subst hnil
      rw [List.prefix_nil.mp hcut.front]
      rfl
  | case5 c cs hnext hquote hline =>
      have hrest : rest = c :: cs := by simpa using hbs
      subst hrest
      have hback : atLineEnd (backslash :: ([] ++ cut)) = false :=
        atLineEnd_cut hcut (by simpa using hline)
      rw [List.nil_append] at hback
      rcases cut with _ | ⟨d, ds⟩
      · rfl
      · have hcutline := (hcut.line hnext).resolve_left (List.cons_ne_nil d ds)
        rw [List.singleton_append, stringBody.eq_def]
        simp [hback, hcutline, hquote]
  | case6 c cs hnext found hquote hline ih =>
      simp only [List.cons_append, List.cons.injEq, true_and] at hbs
      have hnext' : atLineEnd (c :: (found.1 ++ cut)) = false := by
        refine atLineEnd_cut hcut ?_
        rw [hbs]
        simpa using hnext
      rw [List.cons_append, List.cons_append, stringBody_escape hnext', ih hbs]
  | case7 b bs hline hquote hback found ih =>
      simp only [List.cons_append, List.cons.injEq, true_and] at hbs
      have hline' : atLineEnd (b :: (found.1 ++ cut)) = false := by
        refine atLineEnd_cut hcut ?_
        rw [hbs]
        simpa using hline
      rw [List.cons_append, stringBody_plain hline' hquote hback, ih hbs]

/-- An atom is scanned alike from bytes that are cut short after it. -/
theorem atomBody_cut {depth : Nat} {bs : Source} (hbs : atomBody depth bs ++ rest = bs) :
    atomBody depth (atomBody depth bs ++ cut) = atomBody depth bs := by
  -- Where the atom ends, the bytes are at an end or go on with the same byte.
  have hend : ∀ {depth : Nat} {b : UInt8} {bs : Source},
      (∀ cs, atomBody depth (b :: cs) = []) → [] ++ rest = b :: bs →
        atomBody depth ([] ++ cut) = [] := by
    intro depth b bs hstop hrest
    rcases cut with _ | ⟨c, cs⟩
    · simp [atomBody]
    · rcases hcut.front with ⟨back, rfl⟩
      rw [List.nil_append, List.cons_append, List.cons.injEq] at hrest
      rw [List.nil_append, hrest.1]
      exact hstop cs
  fun_induction atomBody depth bs with
  | case1 =>
      rw [List.nil_append] at hbs
      subst hbs
      rw [List.prefix_nil.mp hcut.front]
      simp [atomBody]
  | case2 depth b bs hdelimiter =>
      exact hend (fun cs => by simp [atomBody, hdelimiter]) hbs
  | case3 depth bs hdelimiter ih =>
      simp only [List.cons_append, List.cons.injEq, true_and] at hbs ⊢
      simp [atomBody, hdelimiter, ih hbs]
  | case4 bs hdelimiter hopen =>
      exact hend (fun cs => by simp [atomBody, hdelimiter, hopen]) hbs
  | case5 bs depth hdelimiter hopen ih =>
      simp only [List.cons_append, List.cons.injEq, true_and] at hbs ⊢
      simp [atomBody, hdelimiter, hopen, ih hbs]
  | case6 depth b bs hdelimiter hopen hclose ih =>
      simp only [List.cons_append, List.cons.injEq, true_and] at hbs ⊢
      simp [atomBody, hdelimiter, hopen, hclose, ih hbs]

end Cut

/-- A scanner reads no further than its token: it answers alike on fewer bytes, as long as
they hold the token, and no more often. -/
structure Scanner.Local (s : Scanner) : Prop where
  /-- What begins no token on some bytes begins none on fewer. -/
  none : ∀ {b : UInt8} {front bs : Source}, front <+: bs → s b bs = none → s b front = none
  /-- A token is the same when the bytes after it are cut short. -/
  some : ∀ {b : UInt8} {bs cut rest : Source} {found : Kind × Source}, CutFrom cut rest →
    found.2 ++ rest = bs → s b bs = some found → s b (found.2 ++ cut) = some found

/-- The first answer to a test that holds less often is the same, if the test still holds
of it. -/
theorem find?_eq_of_imp {α : Type} {p q : α → Bool} {xs : List α} (h : ∀ x ∈ xs, q x → p x)
    (hfirst : ∀ x, xs.find? p = some x → q x = true) : xs.find? q = xs.find? p := by
  induction xs with
  | nil => rfl
  | cons x xs ih =>
      rw [List.forall_mem_cons] at h
      by_cases hp : p x = true
      · rw [List.find?_cons_of_pos hp] at hfirst ⊢
        rw [List.find?_cons_of_pos (hfirst x rfl)]
      · rw [List.find?_cons_of_neg hp] at hfirst ⊢
        rw [List.find?_cons_of_neg (fun hq => hp (h.1 hq)), ih h.2 hfirst]

/-- The symbols that some bytes begin with are among those that longer bytes begin with. -/
theorem isPrefixOf_of_isPrefix {symbol front bs : Source} {b : UInt8} (hfront : front <+: bs)
    (h : symbol.isPrefixOf (b :: front) = true) : symbol.isPrefixOf (b :: bs) = true := by
  rw [List.isPrefixOf_iff_prefix] at h ⊢
  exact h.trans ((List.prefix_cons_inj b).mpr hfront)

/-- The scanner of symbols reads no further than its token. -/
theorem local_scanSymbol : scanSymbol.Local where
  none := by
    intro b front bs hfront h
    simp only [scanSymbol, Option.map_eq_none_iff, List.find?_eq_none] at h ⊢
    intro symbol hmem hsymbol
    exact h symbol hmem (isPrefixOf_of_isPrefix hfront hsymbol)
  some := by
    intro b bs cut rest found hcut hbs h
    have hfront := hcut.append_isPrefix _ hbs
    rw [← h, scanSymbol, scanSymbol, find?_eq_of_imp]
    · exact fun symbol _ => isPrefixOf_of_isPrefix hfront
    · intro symbol hfirst
      simp only [scanSymbol, hfirst, Option.map_some, Option.some.injEq] at h
      -- The symbol is the first byte and the bytes that it takes, so it is still there.
      have hsymbol := List.find?_some hfirst
      rw [List.isPrefixOf_iff_prefix] at hsymbol ⊢
      rw [← h]
      rcases symbol with ⟨_ | ⟨c, cs⟩, kind⟩
      · exact List.nil_prefix
      · rw [(List.cons_prefix_cons.mp hsymbol).1]
        exact (List.prefix_cons_inj b).mpr (List.prefix_append cs cut)

theorem local_scanWord : scanWord.Local where
  none := by
    intro b front bs _ h
    simpa [scanWord] using h
  some := by
    intro b bs cut rest found hcut hbs h
    simp only [scanWord, Option.ite_none_right_eq_some, Option.some.injEq] at h ⊢
    rcases h with ⟨hletter, rfl⟩
    rw [takeWhile_cut hcut hbs]
    exact ⟨hletter, rfl⟩

theorem local_scanNumber : scanNumber.Local where
  none := by
    intro b front bs _ h
    simpa [scanNumber] using h
  some := by
    intro b bs cut rest found hcut hbs h
    simp only [scanNumber, Option.ite_none_right_eq_some, Option.some.injEq] at h ⊢
    rcases h with ⟨hdigit, rfl⟩
    rw [takeWhile_cut hcut hbs]
    exact ⟨hdigit, rfl⟩

theorem endsPattern_of_isPrefix {xs ys : Source} (h : xs <+: ys) (hxs : endsPattern xs = true) :
    endsPattern ys = true := by
  simp only [endsPattern, Bool.or_eq_true, beq_iff_eq] at hxs ⊢
  rcases hxs with hline | hhead
  · exact .inl (atLineEnd_of_isPrefix h hline)
  · rcases List.head?_eq_some_iff.mp hhead with ⟨cs, rfl⟩
    rcases h with ⟨back, rfl⟩
    exact .inr rfl

/-- A pattern takes the bytes up to a quote with the quote, and those up to a line end
alone. -/
theorem scanPattern_singleQuote (bs : Source) :
    scanPattern singleQuote bs =
      if (bs.drop (takeUntil endsPattern bs).length).head? = some singleQuote then
        some (if (takeUntil endsPattern bs).all isPatternByte then .pattern else .invalid,
          takeUntil endsPattern bs ++ [singleQuote])
      else some (.invalid, takeUntil endsPattern bs) :=
  rfl

/-- The scanner of patterns reads no further than its token. -/
theorem local_scanPattern : scanPattern.Local where
  none := by
    intro b front bs _ h
    simp only [scanPattern] at h ⊢
    split at h
    · split at h <;> simp at h
    · rename_i hb
      rw [if_neg hb]
  some := by
    intro b bs cut rest found hcut hbs h
    have hquote : b = singleQuote := by
      by_contra hb
      simp [scanPattern, hb] at h
    subst hquote
    rw [scanPattern_singleQuote] at h
    split at h
    · rename_i hclosed
      rw [Option.some.injEq] at h
      subst h
      simp only [List.append_assoc, List.singleton_append] at hbs ⊢
      have hcut' : CutFrom (singleQuote :: cut) (singleQuote :: rest) :=
        ⟨(List.prefix_cons_inj _).mpr hcut.front, fun hline => by
          simp [atLineEnd, singleQuote] at hline⟩
      have htake : takeUntil endsPattern (takeUntil endsPattern bs ++ singleQuote :: cut) =
          takeUntil endsPattern bs :=
        takeUntil_cut hcut' endsPattern_of_isPrefix (fun _ => .inr rfl) (by rw [hbs])
      rw [scanPattern_singleQuote, htake, List.drop_left, List.head?_cons, if_pos rfl]
    · rename_i hunclosed
      rw [Option.some.injEq] at h
      subst h
      simp only at hbs ⊢
      have hrest := congrArg (List.drop (takeUntil endsPattern bs).length) hbs
      rw [List.drop_left] at hrest
      rw [← hrest] at hunclosed
      have htake : takeUntil endsPattern (takeUntil endsPattern bs ++ cut) =
          takeUntil endsPattern bs := by
        refine takeUntil_cut hcut endsPattern_of_isPrefix ?_ (by rw [hbs])
        intro hend
        have hline : atLineEnd rest = true := by simpa [endsPattern, hunclosed] using hend
        rcases hcut.line hline with hnil | hcutline
        · exact .inl hnil
        · exact .inr (by rw [endsPattern, hcutline]; rfl)
      have hopen : cut.head? ≠ some singleQuote := by
        intro hhead
        rcases List.head?_eq_some_iff.mp hhead with ⟨cs, rfl⟩
        rcases hcut.front with ⟨back, rfl⟩
        exact hunclosed rfl
      rw [scanPattern_singleQuote, htake, List.drop_left, if_neg hopen]

/-- The scanner of strings reads no further than its token. -/
theorem local_scanString : scanString.Local where
  none := by
    intro b front bs _ h
    simpa [scanString] using h
  some := by
    intro b bs cut rest found hcut hbs h
    simp only [scanString, Option.ite_none_right_eq_some, Option.some.injEq] at h ⊢
    rcases h with ⟨hquote, rfl⟩
    rw [stringBody_cut hcut hbs]
    exact ⟨hquote, rfl⟩

/-- The scanner of atoms reads no further than its token. -/
theorem local_scanAtom : scanAtom.Local where
  none := by
    intro b front bs _ h
    simpa [scanAtom] using h
  some := by
    intro b bs cut rest found hcut hbs h
    simp only [scanAtom, Option.ite_none_right_eq_some, Option.some.injEq] at h ⊢
    rcases h with ⟨hcolon, rfl⟩
    rw [atomBody_cut hcut hbs]
    exact ⟨hcolon, rfl⟩

theorem local_scanComment : scanComment.Local where
  none := by
    intro b front bs _ h
    simpa [scanComment] using h
  some := by
    intro b bs cut rest found hcut hbs h
    simp only [scanComment, Option.ite_none_right_eq_some, Option.some.injEq] at h ⊢
    rcases h with ⟨hsign, rfl⟩
    rw [takeUntil_cut hcut atLineEnd_of_isPrefix hcut.line (by rw [hbs])]
    exact ⟨hsign, rfl⟩

/-- No scanner reads further than its token. -/
theorem local_of_mem_scanners {s : Scanner} (h : s ∈ scanners) : s.Local := by
  simp only [scanners, List.mem_cons, List.not_mem_nil, or_false] at h
  rcases h with rfl | rfl | rfl | rfl | rfl | rfl | rfl
  · exact local_scanSymbol
  · exact local_scanWord
  · exact local_scanNumber
  · exact local_scanPattern
  · exact local_scanString
  · exact local_scanAtom
  · exact local_scanComment

/-- So neither does the first that answers. -/
theorem local_findSome? {ss : List Scanner} (h : ∀ s ∈ ss, s.Local) :
    Scanner.Local fun b bs => ss.findSome? fun s => s b bs := by
  constructor
  · intro b front bs hfront hnone
    rw [List.findSome?_eq_none_iff] at hnone ⊢
    exact fun s hs => (h s hs).none hfront (hnone s hs)
  · intro b bs cut rest found hcut hbs hsome
    induction ss with
    | nil => simp at hsome
    | cons s ss ih =>
        rw [List.forall_mem_cons] at h
        simp only [List.findSome?_cons] at hsome ⊢
        cases hs : s b bs with
        | some first =>
            rw [hs, Option.some.injEq] at hsome
            subst hsome
            rw [h.1.some hcut hbs hs]
        | none =>
            rw [hs] at hsome
            rw [h.1.none (hcut.append_isPrefix _ hbs) hs]
            exact ih h.2 hsome

/-- A token is scanned alike when the bytes after it are cut short. -/
theorem scan_cut {b : UInt8} {bs cut rest : Source} (hbs : (scan b bs).2 ++ rest = bs)
    (hcut : CutFrom cut rest) : scan b ((scan b bs).2 ++ cut) = scan b bs := by
  have hlocal := local_findSome? fun s hs => @local_of_mem_scanners s hs
  cases hfound : scanners.findSome? fun s => s b bs with
  | some found =>
      have hscan : scan b bs = found := by rw [scan, hfound]
      rw [hscan] at hbs ⊢
      rw [scan, hlocal.some hcut hbs hfound]
  | none =>
      have hscan : scan b bs = (.invalid, bs.takeWhile fun c => !isDelimiter c) := by
        rw [scan, hfound]
      rw [hscan] at hbs ⊢
      rw [scan, hlocal.none (hcut.append_isPrefix _ hbs) hfound]
      exact congrArg (Prod.mk Kind.invalid) (takeWhile_cut hcut hbs)

/-! ### Parting bytes between tokens -/

/-- Where the last of some tokens stops, or an offset if there are none. -/
def endOf : Nat → List Token → Nat
  | offset, [] => offset
  | _, t :: ts => endOf t.span.stop ts

/-- Blanks before tokens only move them. -/
theorem tokensFrom_blanks {blanks : Source} (h : ∀ b ∈ blanks, isSpace b = true) (offset : Nat)
    (bs : Source) :
    tokensFrom offset (blanks ++ bs) = tokensFrom (offset + blanks.length) bs := by
  induction blanks generalizing offset with
  | nil => rfl
  | cons b blanks ih =>
      rw [List.forall_mem_cons] at h
      rw [List.cons_append, tokensFrom_space h.1, ih h.2, List.length_cons]
      congr 1
      omega

/-- The first token of some bytes stands after blanks, and is scanned from there. -/
theorem exists_blanks {offset : Nat} {bytes : Source} {t : Token} {ts : List Token}
    (h : tokensFrom offset bytes = t :: ts) :
    ∃ blanks b bs, bytes = blanks ++ b :: bs ∧ (∀ c ∈ blanks, isSpace c = true) ∧
      isSpace b = false ∧ t.span.start = offset + blanks.length ∧
      t = ⟨(scan b bs).1, ⟨t.span.start, t.span.start + (1 + (scan b bs).2.length)⟩,
        b :: (scan b bs).2⟩ ∧
      tokensFrom t.span.stop (bs.drop (scan b bs).2.length) = ts := by
  fun_induction tokensFrom offset bytes with
  | case1 offset => simp at h
  | case2 offset b bs hspace ih =>
      rcases ih h with ⟨blanks, c, cs, rfl, hblanks, hc, hstart, ht, hts⟩
      refine ⟨b :: blanks, c, cs, rfl, List.forall_mem_cons.mpr ⟨hspace, hblanks⟩, hc, ?_, ht, hts⟩
      rw [hstart, List.length_cons]
      omega
  | case3 offset b bs hspace kind body hscan ih =>
      rw [List.cons.injEq] at h
      rcases h with ⟨rfl, hts⟩
      refine ⟨[], b, bs, rfl, List.forall_mem_nil _, by simpa using hspace, rfl, ?_, ?_⟩
      · rw [hscan]
      · rw [hscan]
        exact hts

/-- Bytes whose tokens go on after those of a front of them are not cut within a line end. -/
theorem cutFrom_of_tokensFrom {offset : Nat} {front rest : Source} {ts : List Token}
    (h : tokensFrom offset (front ++ rest) = tokensFrom offset front ++ ts) :
    CutFrom front (front ++ rest) := by
  refine ⟨List.prefix_append front rest, ?_⟩
  intro hline
  rcases front with _ | ⟨b, bs⟩
  · exact .inl rfl
  · refine .inr ?_
    rw [List.cons_append, atLineEnd_cons_iff] at hline
    rw [atLineEnd_cons_iff]
    rcases hline with hfeed | ⟨rfl, hhead⟩
    · exact .inl hfeed
    · rcases bs with _ | ⟨c, cs⟩
      · -- A carriage return alone is no line end, but with what follows it is.
        rcases List.head?_eq_some_iff.mp hhead with ⟨after, hafter⟩
        rw [List.nil_append] at hafter
        subst hafter
        rw [List.cons_append, List.nil_append, tokensFrom_cons (by decide), scan_return,
          tokensFrom_cons (by decide)] at h
        have hkind : Kind.newLine = (scan 0x0d []).1 := congrArg Token.kind (List.cons.inj h).1
        exact absurd hkind (by decide)
      · exact .inr ⟨rfl, hhead⟩

/-- Bytes can be parted after any of their tokens: those before have the tokens up to
there, and those after have the others. -/
theorem exists_split {offset : Nat} {bytes : Source} {ts later : List Token}
    (h : tokensFrom offset bytes = ts ++ later) :
    ∃ front rest, bytes = front ++ rest ∧ tokensFrom offset front = ts ∧
      offset + front.length = endOf offset ts ∧ tokensFrom (endOf offset ts) rest = later := by
  induction ts generalizing offset bytes with
  | nil => exact ⟨[], bytes, rfl, tokensFrom_nil offset, rfl, h⟩
  | cons t ts ih =>
      rw [List.cons_append] at h
      rcases exists_blanks h with ⟨blanks, b, bs, rfl, hblanks, hb, hstart, ht, hts⟩
      rcases ih hts with ⟨front, rest, hsplit, hfront, hend, hrest⟩
      have hbs := scan_append_drop b bs
      rw [hsplit] at hbs hts
      have htokens : tokensFrom t.span.stop (front ++ rest) =
          tokensFrom t.span.stop front ++ later := by
        rw [hts, hfront]
      have hcut := cutFrom_of_tokensFrom htokens
      have hscan := scan_cut hbs hcut
      have hstop : t.span.stop = t.span.start + (1 + (scan b bs).2.length) :=
        congrArg (fun u => u.span.stop) ht
      refine ⟨blanks ++ b :: ((scan b bs).2 ++ front), rest, ?_, ?_, ?_, hrest⟩
      · rw [List.append_assoc, List.cons_append, List.append_assoc, hbs]
      · rw [tokensFrom_blanks hblanks, tokensFrom_cons hb, hscan, List.drop_left, ← hstart,
          ← hstop, hfront, hstop, ← ht]
      · rw [endOf, ← hend, hstop, hstart]
        simp only [List.length_append, List.length_cons]
        omega

/-- The bytes that neighbouring tokens of a script cover have these tokens and no others. -/
theorem exists_bytes {source : Source} {before ts later : List Token} {t : Token}
    (h : tokensFrom 0 source = before ++ (t :: ts ++ later)) :
    ∃ front bytes back, source = front ++ (bytes ++ back) ∧ bytes ≠ [] ∧
      t.span.start = front.length ∧ endOf t.span.stop ts = front.length + bytes.length ∧
      tokensFrom t.span.start bytes = t :: ts := by
  rcases exists_split h with ⟨front, rest, rfl, -, hend, hrest⟩
  rcases exists_blanks hrest with ⟨blanks, b, bs, rfl, hblanks, -, hstart, -, -⟩
  rw [tokensFrom_blanks hblanks, ← hstart] at hrest
  rcases exists_split hrest with ⟨bytes, back, hbytes, htokens, hstop, -⟩
  have hlength : t.span.start = (front ++ blanks).length := by
    rw [List.length_append, hstart]
    omega
  refine ⟨front ++ blanks, bytes, back, ?_, ?_, hlength, ?_, htokens⟩
  · rw [hbytes, List.append_assoc]
  · rintro rfl
    simp at htokens
  · rw [← hlength]
    exact hstop.symm

end Token
end Shellward
