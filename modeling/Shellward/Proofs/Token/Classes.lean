import Mathlib.Data.Nat.Find
import Mathlib.Order.Bounds.Defs
import Shellward.Proofs.Token.Cutting
import Shellward.Proofs.Token.Parentheses

/-!
# The kinds of tokens

What makes a token a name, a keyword, a number, a string, a pattern, a comment or a line end,
and where it stops, said by the bytes of the script around it.  A token that begins with a
quote is followed byte by byte: it goes on until a byte closes it or its line ends.

Main results:

- Theorem `Token.exists_site`: a token is what is scanned at the place where it starts.
- Theorem `Token.ends_stringBody`: a string goes on to a quote that is not escaped, or to the
  end of its line.
- Theorem `Token.exactKind_of_mem_ofSource`: the kinds of the tokens of a script.
-/

namespace Shellward
namespace Token

/-! ### Line ends and escaped quotes -/

/-- A line of a script ends at an offset: before a line feed, before a carriage return and a
line feed, or with the script. -/
def LineEndAt (source : Source) (offset : Nat) : Prop :=
  offset = source.length ∨ source[offset]? = some 0x0a ∨
    source[offset]? = some 0x0d ∧ source[offset + 1]? = some 0x0a

/-- The first line end after an offset. -/
def NextLineEnd (source : Source) (offset stop : Nat) : Prop :=
  IsLeast {i | offset < i ∧ LineEndAt source i} stop

/-- The number of backslashes at the end of some bytes. -/
def backslashes (bytes : Source) : Nat :=
  (bytes.reverse.takeWhile (· == backslash)).length

/-- A double quote that is not escaped: the number of backslashes directly before it is even. -/
def PlainQuoteAt (source : Source) (offset : Nat) : Prop :=
  source[offset]? = some doubleQuote ∧ backslashes (source.take offset) % 2 = 0

/-- After some bytes, a line ends exactly if the script does or a line end follows. -/
theorem lineEndAt_append_iff {front bs : Source} :
    LineEndAt (front ++ bs) front.length ↔ bs = [] ∨ atLineEnd bs = true := by
  rcases bs with _ | ⟨b, bs⟩
  · simp [LineEndAt]
  · have hnext : (front ++ b :: bs)[front.length + 1]? = bs.head? := by
      rw [List.getElem?_append_right (Nat.le_add_right _ 1), Nat.add_sub_cancel_left,
        List.getElem?_cons_succ, List.head?_eq_getElem?]
    rw [atLineEnd_cons_iff, LineEndAt, hnext]
    simp

/-- After every byte of a script there is a line end. -/
theorem exists_nextLineEnd {source : Source} {offset : Nat} (h : offset < source.length) :
    ∃ stop, NextLineEnd source offset stop := by
  classical
  have hexists : ∃ i, offset < i ∧ LineEndAt source i := ⟨source.length, h, .inl rfl⟩
  exact ⟨Nat.find hexists, Nat.find_spec hexists, fun _ hi => Nat.find_min' hexists hi⟩

theorem backslashes_concat (bytes : Source) (b : UInt8) :
    backslashes (bytes ++ [b]) = if b = backslash then backslashes bytes + 1 else 0 := by
  rw [backslashes, List.reverse_append, List.reverse_singleton, List.singleton_append,
    List.takeWhile_cons]
  split <;> simp_all [backslashes]

/-- After some bytes, a quote is not escaped exactly if they end with an even number of
backslashes. -/
theorem plainQuoteAt_append_iff {front bs : Source} :
    PlainQuoteAt (front ++ bs) front.length ↔
      bs.head? = some doubleQuote ∧ backslashes front % 2 = 0 := by
  rw [PlainQuoteAt, List.getElem?_append_right (Nat.le_refl _), Nat.sub_self, List.take_left,
    List.head?_eq_getElem?]

/-! ### Tokens between quotes -/

/-- From an offset on, a token between quotes goes on up to another offset: to the first byte
that closes it, which belongs to it, or to the end of its line. -/
inductive Ends (source : Source) (closes : Nat → Prop) : Nat → Nat → Bool → Prop where
  | closed {i : Nat} : ¬ LineEndAt source i → closes i → Ends source closes i (i + 1) true
  | lineEnd {i : Nat} : LineEndAt source i → Ends source closes i i false
  | more {i stop : Nat} {closed : Bool} : ¬ LineEndAt source i → ¬ closes i →
      Ends source closes (i + 1) stop closed → Ends source closes i stop closed

section Ends

variable {source : Source} {closes : Nat → Prop} {start stop : Nat}

/-- What closes a token is the first byte that may, and stands before the end of its line. -/
theorem Ends.exists_close {closed : Bool} (h : Ends source closes start stop closed)
    (hclosed : closed = true) :
    ∃ i, stop = i + 1 ∧ start ≤ i ∧ closes i ∧ (∀ j, start ≤ j → j ≤ i → ¬ LineEndAt source j) ∧
      ∀ j, start ≤ j → j < i → ¬ closes j := by
  induction h with
  | @closed i hline hcloses =>
      refine ⟨i, rfl, Nat.le_refl i, hcloses, ?_, ?_⟩
      · intro j hij hji
        rwa [Nat.le_antisymm hji hij]
      · intro j hij hji
        omega
  | lineEnd => exact absurd hclosed Bool.false_ne_true
  | @more i stop closed hline hcloses _ ih =>
      rcases ih hclosed with ⟨k, hstop, hik, hk, hlines, hfirst⟩
      refine ⟨k, hstop, by omega, hk, ?_, ?_⟩
      · intro j hij hjk
        rcases Nat.eq_or_lt_of_le hij with rfl | hlt
        · exact hline
        · exact hlines j hlt hjk
      · intro j hij hjk
        rcases Nat.eq_or_lt_of_le hij with rfl | hlt
        · exact hcloses
        · exact hfirst j hlt hjk

/-- A token that nothing closes goes on to the end of its line. -/
theorem Ends.of_not_closed {closed : Bool} (h : Ends source closes start stop closed)
    (hclosed : closed = false) :
    start ≤ stop ∧ LineEndAt source stop ∧
      ∀ j, start ≤ j → j < stop → ¬ LineEndAt source j ∧ ¬ closes j := by
  induction h with
  | closed => exact absurd hclosed.symm Bool.false_ne_true
  | @lineEnd i hline =>
      refine ⟨Nat.le_refl i, hline, ?_⟩
      intro j hij hji
      omega
  | @more i stop closed hline hcloses _ ih =>
      rcases ih hclosed with ⟨hle, hstop, hopen⟩
      refine ⟨by omega, hstop, ?_⟩
      intro j hij hji
      rcases Nat.eq_or_lt_of_le hij with rfl | hlt
      · exact ⟨hline, hcloses⟩
      · exact hopen j hlt hji

/-- A token that is not closed goes on to the next line end. -/
theorem Ends.nextLineEnd (h : Ends source closes (start + 1) stop false) :
    NextLineEnd source start stop := by
  rcases h.of_not_closed rfl with ⟨hle, hstop, hopen⟩
  refine ⟨⟨hle, hstop⟩, ?_⟩
  rintro i ⟨hi, hline⟩
  by_contra hlt
  exact (hopen i hi (Nat.lt_of_not_le hlt)).1 hline

end Ends

/-- A token that begins with a quote.  If a byte closes it before the next line end, the token
ends with the first such byte, and its kind is told by the bytes inside.  Otherwise it is invalid
and goes on to the line end. -/
def Quoted (source : Source) (closes : Nat → Prop) (kind : Source → Kind) (t : Token) : Prop :=
  ∃ lineEnd, NextLineEnd source t.span.start lineEnd ∧
    ((∃ i < lineEnd, IsLeast {j | t.span.start < j ∧ closes j} i ∧ t.span.stop = i + 1 ∧
        t.kind = kind (Span.slice source ⟨t.span.start + 1, i⟩)) ∨
      (∀ i, t.span.start < i → i < lineEnd → ¬ closes i) ∧ t.span.stop = lineEnd ∧
        t.kind = .invalid)

section Quoted

variable {source : Source} {closes : Nat → Prop} {kind : Source → Kind} {t : Token}

/-- A token that a byte closes is as one between quotes should be if the bytes inside tell its
kind. -/
theorem quoted_of_closed (hstart : t.span.start < source.length)
    (h : Ends source closes (t.span.start + 1) t.span.stop true)
    (hkind : t.kind = kind (Span.slice source ⟨t.span.start + 1, t.span.stop - 1⟩)) :
    Quoted source closes kind t := by
  rcases h.exists_close rfl with ⟨i, hstop, hle, hcloses, hlines, hfirst⟩
  rcases exists_nextLineEnd hstart with ⟨lineEnd, hend⟩
  refine ⟨lineEnd, hend, .inl ⟨i, ?_, ⟨⟨hle, hcloses⟩, ?_⟩, hstop, ?_⟩⟩
  · by_contra hlt
    exact hlines lineEnd hend.1.1 (Nat.le_of_not_lt hlt) hend.1.2
  · rintro j ⟨hj, hcloses'⟩
    by_contra hlt
    exact hfirst j hj (Nat.lt_of_not_le hlt) hcloses'
  · rwa [hstop, Nat.add_sub_cancel] at hkind

/-- A token that no byte closes is as one between quotes should be if it is invalid. -/
theorem quoted_of_not_closed (h : Ends source closes (t.span.start + 1) t.span.stop false)
    (hkind : t.kind = .invalid) : Quoted source closes kind t := by
  refine ⟨t.span.stop, h.nextLineEnd, .inr ⟨?_, rfl, hkind⟩⟩
  intro i hi hstop
  exact ((h.of_not_closed rfl).2.2 i hi hstop).2

end Quoted

/-! ### Following a scanner through its token -/

section Follow

variable {source front bs : Source} {closes : Nat → Prop} {last : Nat} {closed : Bool}

/-- A byte that neither ends the line nor closes the token belongs to it. -/
theorem Ends.cons {b : UInt8} (hsource : source = front ++ b :: bs)
    (hline : ¬ atLineEnd (b :: bs) = true) (hcloses : ¬ closes front.length)
    (h : Ends source closes (front ++ [b]).length last closed) :
    Ends source closes front.length last closed := by
  rw [List.length_append, List.length_singleton] at h
  refine .more ?_ hcloses h
  rw [hsource, lineEndAt_append_iff]
  simpa using hline

/-- The bytes up to a place at which a token may end belong to it. -/
theorem ends_takeUntil {stop : Source → Bool}
    (hgo : ∀ {front b bs}, source = front ++ b :: bs → stop (b :: bs) = false →
      ¬ atLineEnd (b :: bs) = true ∧ ¬ closes front.length)
    (hsource : source = front ++ bs)
    (hrest : Ends source closes (front ++ takeUntil stop bs).length last closed) :
    Ends source closes front.length last closed := by
  induction bs generalizing front with
  | nil =>
      rw [takeUntil, List.append_nil] at hrest
      exact hrest
  | cons b bs ih =>
      cases hstop : stop (b :: bs) with
      | true =>
          rw [takeUntil_of_stop hstop, List.append_nil] at hrest
          exact hrest
      | false =>
          rw [takeUntil_of_not_stop hstop, List.append_cons] at hrest
          rcases hgo hsource hstop with ⟨hline, hcloses⟩
          rw [List.append_cons] at hsource
          exact .cons (hsource.trans (List.append_cons ..).symm) hline hcloses (ih hsource hrest)

/-- A string goes on to the first double quote that is not escaped, or to the end of its line.
An escape takes two bytes, so an even number of backslashes stands before the byte ahead. -/
theorem ends_stringBody (hsource : source = front ++ bs) (heven : backslashes front % 2 = 0) :
    Ends source (PlainQuoteAt source) front.length (front ++ (stringBody bs).1).length
      (stringBody bs).2 := by
  have hback : ∀ {front bs : Source}, source = front ++ backslash :: bs →
      ¬ PlainQuoteAt source front.length := by
    intro front bs hsource hquote
    rw [hsource, plainQuoteAt_append_iff] at hquote
    exact absurd (Option.some.inj hquote.1) (by decide)
  fun_induction stringBody bs generalizing front with
  | case1 =>
      rw [List.append_nil]
      exact .lineEnd (hsource ▸ lineEndAt_append_iff.mpr (.inl rfl))
  | case2 b bs hline =>
      rw [List.append_nil]
      exact .lineEnd (hsource ▸ lineEndAt_append_iff.mpr (.inr hline))
  | case3 bs hline =>
      rw [List.length_append]
      refine .closed ?_ ?_
      · rw [hsource, lineEndAt_append_iff]
        simpa using hline
      · rw [hsource, plainQuoteAt_append_iff]
        exact ⟨rfl, heven⟩
  | case4 _ hline =>
      refine .cons hsource hline (hback hsource) (.lineEnd ?_)
      exact .inl (congrArg List.length hsource).symm
  | case5 c cs hend _ hline =>
      refine .cons hsource hline (hback hsource) (.lineEnd ?_)
      rw [hsource, List.append_cons]
      exact lineEndAt_append_iff.mpr (.inr hend)
  | case6 c cs hescaped _ _ hline =>
      rename_i ih
      have hsource' := hsource.trans (List.append_cons ..)
      refine .cons hsource hline (hback hsource) (.cons hsource' hescaped ?_ ?_)
      · -- The byte after the backslash is escaped.
        rw [hsource', plainQuoteAt_append_iff, backslashes_concat, if_pos rfl]
        omega
      · have hrest := ih (hsource'.trans (List.append_cons ..)) (by
          rw [backslashes_concat, backslashes_concat, if_pos rfl]
          split <;> omega)
        simpa using hrest
  | case7 b bs hline hquote hslash =>
      rename_i ih
      refine .cons hsource hline ?_ ?_
      · rw [hsource, plainQuoteAt_append_iff]
        simp [hquote]
      · have hrest := ih (hsource.trans (List.append_cons ..)) (by
          rw [backslashes_concat, if_neg hslash])
        simpa using hrest

end Follow

/-! ### Words and numbers -/

/-- A letter, then letters, digits and underscores. -/
def IsWord (bytes : Source) : Prop :=
  ∃ b body, bytes = b :: body ∧ isLetter b = true ∧ ∀ c ∈ body, isWordByte c = true

/-- The kinds of words: names and the three keywords. -/
def wordKinds : List Kind :=
  [.identifier, .letWord, .ifWord, .elseWord]

/-- A word is a keyword if it spells one, and a name otherwise. -/
theorem wordKind_eq (word : Source) :
    wordKind word = if word = Utf8.encode "let" then .letWord
      else if word = Utf8.encode "if" then .ifWord
      else if word = Utf8.encode "else" then .elseWord
      else .identifier := by
  by_cases hlet : word = Utf8.encode "let"
  · subst hlet
    decide
  · by_cases hif : word = Utf8.encode "if"
    · subst hif
      decide
    · by_cases helse : word = Utf8.encode "else"
      · subst helse
        decide
      · have hother : ∀ k ∈ keywords, (Utf8.encode k.1 == word) = false := by
          simp only [keywords, List.forall_mem_cons, beq_eq_false_iff_ne]
          exact ⟨Ne.symm hlet, Ne.symm hif, Ne.symm helse, List.forall_mem_nil _⟩
        have hfind : (keywords.find? fun k => Utf8.encode k.1 == word) = none := by
          simpa [List.find?_eq_none] using hother
        rw [if_neg hlet, if_neg hif, if_neg helse, wordKind, hfind]

/-- A word is a name exactly if it is no keyword. -/
theorem wordKind_eq_identifier_iff {word : Source} : wordKind word = .identifier ↔
    word ∉ [Utf8.encode "let", Utf8.encode "if", Utf8.encode "else"] := by
  rw [wordKind_eq]
  split_ifs <;> simp_all

/-- A word is a keyword exactly if it is spelt as the keyword. -/
theorem wordKind_eq_iff {word : String} {kind : Kind} (h : (word, kind) ∈ keywords)
    {bytes : Source} : wordKind bytes = kind ↔ bytes = Utf8.encode word := by
  simp only [keywords, List.mem_cons, Prod.mk.injEq, List.not_mem_nil, or_false] at h
  constructor
  · intro hkind
    rw [wordKind_eq] at hkind
    rcases h with ⟨rfl, rfl⟩ | ⟨rfl, rfl⟩ | ⟨rfl, rfl⟩ <;> split_ifs at hkind <;> assumption
  · rintro rfl
    rcases h with ⟨rfl, rfl⟩ | ⟨rfl, rfl⟩ | ⟨rfl, rfl⟩ <;> decide

theorem isWord_keyword {word : String} {kind : Kind} (h : (word, kind) ∈ keywords) :
    IsWord (Utf8.encode word) := by
  simp only [keywords, List.mem_cons, Prod.mk.injEq, List.not_mem_nil, or_false] at h
  rcases h with ⟨rfl, rfl⟩ | ⟨rfl, rfl⟩ | ⟨rfl, rfl⟩
  all_goals exact ⟨_, _, rfl, by decide, List.all_eq_true.mp (by decide)⟩

/-- Names and keywords are words of the kind that their bytes tell. -/
theorem Spelling.of_wordKinds {kind : Kind} {bytes : Source} (h : Spelling kind bytes)
    (hkind : kind ∈ wordKinds) : IsWord bytes ∧ kind = wordKind bytes := by
  cases h with
  | symbol hmem =>
      have hdisjoint : (symbols.all fun s => !wordKinds.contains s.2) = true := by decide
      have hsymbol := List.all_eq_true.mp hdisjoint _ hmem
      simp [hkind] at hsymbol
  | @word b body hletter hbody => exact ⟨⟨b, body, rfl, hletter, hbody⟩, rfl⟩
  | number | pattern | string | atom | comment | invalid => simp [wordKinds] at hkind

/-- A line end has a line feed. -/
theorem Spelling.lineFeed_mem {kind : Kind} {bytes : Source} (h : Spelling kind bytes)
    (hkind : kind = .newLine) : 0x0a ∈ bytes := by
  cases h with
  | symbol hmem =>
      have hall : (symbols.all fun s => s.2 != .newLine || s.1.contains 0x0a) = true := by decide
      have hsymbol := List.all_eq_true.mp hall _ hmem
      simpa [hkind] using hsymbol
  | word => exact absurd hkind (wordKind_ne (by decide) (by decide) _)
  | number | pattern | string | atom | comment | invalid => simp at hkind

/-! ### The place of a token -/

/-- The token that is scanned after some bytes of a script. -/
def scanAt (before : Source) (b : UInt8) (bs : Source) : Token :=
  ⟨(scan b bs).1, ⟨before.length, before.length + (1 + (scan b bs).2.length)⟩, b :: (scan b bs).2⟩

/-- A token is what is scanned at the place where it starts. -/
theorem exists_site {t : Token} {source : Source} (h : t ∈ tokensFrom 0 source) :
    ∃ before b bs, source = before ++ b :: bs ∧ t = scanAt before b bs := by
  rcases exists_scan_of_mem_tokensFrom h with ⟨n, b, bs, hstart, hdrop, hkind, hbytes⟩
  have hstop := (tiling_tokensFrom 0 source).stop_eq t (List.mem_append_left _ h)
  have hn : n ≤ source.length := by
    by_contra hlt
    rw [List.drop_of_length_le (Nat.le_of_not_le hlt)] at hdrop
    exact absurd hdrop.symm (List.cons_ne_nil b bs)
  refine ⟨source.take n, b, bs, ?_, ?_⟩
  · rw [← hdrop, List.take_append_drop]
  · rcases t with ⟨kind, ⟨start, stop⟩, bytes⟩
    simp only at hstart hkind hbytes hstop
    rw [Nat.zero_add] at hstart
    rw [scanAt, List.length_take, Nat.min_eq_left hn, hkind, hbytes, hstop, hstart, hbytes,
      List.length_cons, Nat.add_comm 1]

section Site

variable {before bs : Source} {b : UInt8}

theorem start_scanAt : (scanAt before b bs).span.start + 1 = (before ++ [b]).length := by
  rw [List.length_append, List.length_singleton]
  rfl

theorem stop_scanAt :
    (scanAt before b bs).span.stop = (before ++ [b] ++ (scan b bs).2).length := by
  rw [List.length_append, List.length_append, List.length_singleton, Nat.add_assoc]
  rfl

/-- A token holds the bytes of the script at its place. -/
theorem slice_scanAt : (scanAt before b bs).span.slice (before ++ b :: bs) =
    (scanAt before b bs).bytes := by
  have hsplit : before ++ b :: bs =
      before ++ ((b :: (scan b bs).2) ++ bs.drop (scan b bs).2.length) := by
    rw [List.cons_append, scan_append_drop]
  rw [hsplit]
  exact Span.slice_append rfl (by rw [scanAt, List.length_cons, Nat.add_comm 1])

/-- What stands after a token comes after its bytes. -/
theorem getElem?_stop_scanAt : (before ++ b :: bs)[(scanAt before b bs).span.stop]? =
    (bs.drop (scan b bs).2.length).head? := by
  rw [scanAt, List.getElem?_append_right (Nat.le_add_right _ _), Nat.add_sub_cancel_left,
    Nat.add_comm 1, List.getElem?_cons_succ, List.head?_drop]

/-- No word byte stands after a run of them. -/
theorem isWordByte_after_scanAt (hbody : (scan b bs).2 = bs.takeWhile isWordByte) {c : UInt8}
    (hc : (before ++ b :: bs)[(scanAt before b bs).span.stop]? = some c) :
    isWordByte c = false := by
  have hdrop := @List.drop_left _ (bs.takeWhile isWordByte) (bs.dropWhile isWordByte)
  rw [List.takeWhile_append_dropWhile] at hdrop
  have hhead := List.head?_dropWhile_not isWordByte bs
  rw [getElem?_stop_scanAt, hbody, hdrop] at hc
  rw [hc] at hhead
  simpa using hhead

theorem scan_doubleQuote (bs : Source) : scan doubleQuote bs =
    (if (stringBody bs).2 then .string else .invalid, (stringBody bs).1) :=
  scan_of_mark (by decide) bs rfl

theorem scan_numberSign (bs : Source) : scan 0x23 bs = (.comment, takeUntil atLineEnd bs) :=
  scan_of_mark (by decide) bs rfl

theorem scan_singleQuote (bs : Source) : scan singleQuote bs =
    if (bs.drop (takeUntil endsPattern bs).length).head? = some singleQuote then
      (if (takeUntil endsPattern bs).all isPatternByte then .pattern else .invalid,
        takeUntil endsPattern bs ++ [singleQuote])
    else (.invalid, takeUntil endsPattern bs) := by
  apply scan_of_mark (by decide)
  rw [List.findSome?_cons, scanPattern_singleQuote, ← apply_ite some]

/-- A comment goes on to the end of its line. -/
theorem nextLineEnd_comment : NextLineEnd (before ++ 0x23 :: bs)
    (scanAt before 0x23 bs).span.start (scanAt before 0x23 bs).span.stop := by
  have hsource := List.append_cons before 0x23 bs
  rcases exists_takeUntil_append atLineEnd bs with ⟨rest, hrest, hend⟩
  have hline : LineEndAt (before ++ 0x23 :: bs)
      (before ++ [0x23] ++ takeUntil atLineEnd bs).length := by
    rw [← lineEndAt_append_iff, List.append_assoc _ _ rest, hrest, ← hsource] at hend
    exact hend
  have hends := @ends_takeUntil _ _ _ (fun _ => False) _ _ atLineEnd
    (fun _ hgo => ⟨by simp [hgo], not_false⟩) hsource (.lineEnd hline)
  rw [← @start_scanAt before bs] at hends
  rw [stop_scanAt, scan_numberSign]
  exact hends.nextLineEnd

/-- A double quote begins a string. -/
theorem quoted_string : Quoted (before ++ doubleQuote :: bs)
    (PlainQuoteAt (before ++ doubleQuote :: bs)) (fun _ => .string)
    (scanAt before doubleQuote bs) := by
  have hends := ends_stringBody (List.append_cons before doubleQuote bs) (by
    rw [backslashes_concat, if_neg (by decide)])
  have hstop := @stop_scanAt before bs doubleQuote
  rw [scan_doubleQuote] at hstop
  rw [← hstop, ← @start_scanAt before bs] at hends
  cases hclosed : (stringBody bs).2 with
  | true =>
      rw [hclosed] at hends
      exact quoted_of_closed (by simp [scanAt]) hends (by simp [scanAt, scan_doubleQuote, hclosed])
  | false =>
      rw [hclosed] at hends
      exact quoted_of_not_closed hends (by simp [scanAt, scan_doubleQuote, hclosed])

/-- The kind of a closed pattern with some bytes between its quotes. -/
def patternKind (inside : Source) : Kind :=
  if inside.all isPatternByte then .pattern else .invalid

/-- A single quote stands at an offset of a script. -/
def SingleQuoteAt (source : Source) (offset : Nat) : Prop :=
  source[offset]? = some singleQuote

theorem singleQuoteAt_append_iff {front bs : Source} :
    SingleQuoteAt (front ++ bs) front.length ↔ bs.head? = some singleQuote := by
  rw [SingleQuoteAt, List.getElem?_append_right (Nat.le_refl _), Nat.sub_self,
    List.head?_eq_getElem?]

/-- Neither a line end nor a quote stands inside a pattern. -/
theorem ends_patternBody {last : Nat} {closed : Bool}
    (h : Ends (before ++ singleQuote :: bs) (SingleQuoteAt (before ++ singleQuote :: bs))
      (before ++ [singleQuote] ++ takeUntil endsPattern bs).length last closed) :
    Ends (before ++ singleQuote :: bs) (SingleQuoteAt (before ++ singleQuote :: bs))
      ((scanAt before singleQuote bs).span.start + 1) last closed := by
  rw [start_scanAt]
  refine ends_takeUntil ?_ (List.append_cons before singleQuote bs) h
  intro front b bs' hsource hends
  rw [hsource, singleQuoteAt_append_iff]
  simpa [endsPattern] using hends

/-- A single quote begins a pattern. -/
theorem quoted_pattern : Quoted (before ++ singleQuote :: bs)
    (SingleQuoteAt (before ++ singleQuote :: bs)) patternKind (scanAt before singleQuote bs) := by
  rcases exists_takeUntil_append endsPattern bs with ⟨rest, hrest, hend⟩
  have hsplit : before ++ singleQuote :: bs =
      before ++ [singleQuote] ++ takeUntil endsPattern bs ++ rest := by
    rw [List.append_assoc _ _ rest, hrest, ← List.append_cons]
  have hdrop := @List.drop_left _ (takeUntil endsPattern bs) rest
  rw [hrest] at hdrop
  have hscan := scan_singleQuote bs
  have hstop := @stop_scanAt before bs singleQuote
  rw [hdrop] at hscan
  by_cases hquote : rest.head? = some singleQuote
  · rw [if_pos hquote] at hscan
    rw [hscan, ← List.append_assoc, List.length_append, List.length_singleton] at hstop
    have hinside : Span.slice (before ++ singleQuote :: bs)
        ⟨(scanAt before singleQuote bs).span.start + 1,
          (scanAt before singleQuote bs).span.stop - 1⟩ = takeUntil endsPattern bs := by
      rw [hsplit, List.append_assoc]
      refine Span.slice_append start_scanAt ?_
      rw [hstop, List.length_append, Nat.add_sub_cancel]
    refine quoted_of_closed (by simp [scanAt]) (ends_patternBody ?_) ?_
    · rw [hstop]
      refine .closed ?_ ?_
      · rw [hsplit, lineEndAt_append_iff]
        rcases List.head?_eq_some_iff.mp hquote with ⟨cs, rfl⟩
        simp [atLineEnd, singleQuote]
      · rw [hsplit, singleQuoteAt_append_iff]
        exact hquote
    · rw [hinside, patternKind, scanAt, hscan]
  · rw [if_neg hquote] at hscan
    rw [hscan] at hstop
    refine quoted_of_not_closed (ends_patternBody ?_) (by rw [scanAt, hscan])
    rw [hstop]
    refine .lineEnd ?_
    rw [hsplit, lineEndAt_append_iff]
    simpa [endsPattern, hquote] using hend

end Site

/-! ### The kinds of the tokens of a script -/

/-- The kind of a token agrees with the bytes of the script around it. -/
structure ExactKind (source : Source) (t : Token) : Prop where
  /-- A token has the bytes that it covers. -/
  covers : t.span.slice source = t.bytes
  /-- Names are the words that are no keywords. -/
  identifier : t.kind = .identifier ↔
    IsWord t.bytes ∧ t.bytes ∉ [Utf8.encode "let", Utf8.encode "if", Utf8.encode "else"]
  letWord : t.kind = .letWord ↔ t.bytes = Utf8.encode "let"
  ifWord : t.kind = .ifWord ↔ t.bytes = Utf8.encode "if"
  elseWord : t.kind = .elseWord ↔ t.bytes = Utf8.encode "else"
  /-- Numbers are runs of digits. -/
  number : t.kind = .number ↔ t.bytes ≠ [] ∧ ∀ b ∈ t.bytes, isDigit b = true
  /-- No letter, digit or underscore stands directly after a word or a number. -/
  apart : t.kind ∈ .number :: wordKinds →
    ∀ b, source[t.span.stop]? = some b → isWordByte b = false
  /-- A double quote begins a string, which ends with the next one that is not escaped. -/
  string : t.bytes.head? = some doubleQuote →
    Quoted source (PlainQuoteAt source) (fun _ => .string) t
  /-- A single quote begins a pattern, which ends with the next one. -/
  pattern : t.bytes.head? = some singleQuote →
    Quoted source (SingleQuoteAt source) patternKind t
  /-- Only tokens that begin with a quote are strings and patterns. -/
  quoted : (t.kind = .string → t.bytes.head? = some doubleQuote) ∧
    (t.kind = .pattern → t.bytes.head? = some singleQuote)
  /-- Comments begin with a number sign and go on to the end of their line. -/
  comment : t.kind = .comment ↔ t.bytes.head? = some 0x23
  comment_stop : t.kind = .comment → NextLineEnd source t.span.start t.span.stop
  /-- Only line ends have a line feed. -/
  newLine : t.kind = .newLine ↔ 0x0a ∈ t.bytes

section Site

variable (before : Source) (b : UInt8) (bs : Source)

/-- Words are scanned as the names and keywords that they spell, and nothing else is. -/
theorem kind_scan_iff {kind : Kind} (hkind : kind ∈ wordKinds) :
    (scan b bs).1 = kind ↔
      IsWord (b :: (scan b bs).2) ∧ wordKind (b :: (scan b bs).2) = kind := by
  constructor
  · rintro rfl
    have hword := (spelling_scan b bs).of_wordKinds hkind
    exact ⟨hword.1, hword.2.symm⟩
  · rintro ⟨⟨c, body, hbytes, hletter, _⟩, hword⟩
    rw [← (List.cons.inj hbytes).1] at hletter
    rw [scan_of_letter hletter] at hword ⊢
    exact hword

/-- A token is a keyword exactly if its bytes spell the keyword. -/
theorem kind_scan_keyword_iff {word : String} {kind : Kind} (h : (word, kind) ∈ keywords) :
    (scan b bs).1 = kind ↔ b :: (scan b bs).2 = Utf8.encode word := by
  have hkind : kind ∈ wordKinds :=
    List.mem_cons_of_mem Kind.identifier (List.mem_map_of_mem (f := Prod.snd) h)
  rw [kind_scan_iff b bs hkind, wordKind_eq_iff h]
  constructor
  · exact And.right
  · intro hbytes
    exact ⟨hbytes ▸ isWord_keyword h, hbytes⟩

/-- A token is a number exactly if all its bytes are digits. -/
theorem kind_scan_number_iff :
    (scan b bs).1 = .number ↔ ∀ c ∈ b :: (scan b bs).2, isDigit c = true := by
  constructor
  · intro hkind
    rcases (spelling_scan b bs).of_number hkind with ⟨c, body, hbytes, hdigit, hbody⟩
    rw [hbytes, List.forall_mem_cons]
    exact ⟨hdigit, hbody⟩
  · intro hall
    rw [List.forall_mem_cons] at hall
    rw [scan_of_digit hall.1] at hall ⊢
    exact if_pos (List.all_eq_true.mpr hall.2)

/-- A word or a number is a run of word bytes that goes on as far as it can. -/
theorem body_scan_eq (hkind : (scan b bs).1 ∈ .number :: wordKinds) :
    (scan b bs).2 = bs.takeWhile isWordByte := by
  rcases List.mem_cons.mp hkind with hnumber | hword
  · have hdigit := (kind_scan_number_iff b bs).mp hnumber b List.mem_cons_self
    rw [scan_of_digit hdigit]
  · rcases (spelling_scan b bs).of_wordKinds hword with ⟨⟨c, body, hbytes, hletter, _⟩, _⟩
    rw [← (List.cons.inj hbytes).1] at hletter
    rw [scan_of_letter hletter]

/-- A token is a comment exactly if it begins with a number sign. -/
theorem kind_scan_comment_iff : (scan b bs).1 = .comment ↔ b = 0x23 := by
  constructor
  · intro hkind
    rcases (spelling_scan b bs).of_comment hkind with ⟨body, hbytes, _⟩
    exact (List.cons.inj hbytes).1
  · rintro rfl
    rw [scan_numberSign]

/-- A token is a line end exactly if it holds a line feed. -/
theorem kind_scan_newLine_iff : (scan b bs).1 = .newLine ↔ 0x0a ∈ b :: (scan b bs).2 := by
  constructor
  · intro hkind
    exact (spelling_scan b bs).lineFeed_mem hkind
  · exact kind_scan_of_lineFeed_mem

/-- The kind of a token that is scanned agrees with the bytes around it. -/
theorem exactKind_scanAt : ExactKind (before ++ b :: bs) (scanAt before b bs) where
  covers := slice_scanAt
  identifier := by
    rw [← wordKind_eq_identifier_iff]
    exact kind_scan_iff b bs (by decide)
  letWord := kind_scan_keyword_iff b bs (by decide)
  ifWord := kind_scan_keyword_iff b bs (by decide)
  elseWord := kind_scan_keyword_iff b bs (by decide)
  number := (kind_scan_number_iff b bs).trans
    ⟨fun hall => ⟨List.cons_ne_nil _ _, hall⟩, And.right⟩
  apart := fun hkind c hc => isWordByte_after_scanAt (body_scan_eq b bs hkind) hc
  string := by
    intro hhead
    rcases Option.some.inj hhead with rfl
    exact quoted_string
  pattern := by
    intro hhead
    rcases Option.some.inj hhead with rfl
    exact quoted_pattern
  quoted := by
    constructor
    · intro hkind
      rcases (spelling_scan b bs).of_string hkind with ⟨body, hbytes, _⟩
      rw [(List.cons.inj hbytes).1]
      rfl
    · intro hkind
      rcases (spelling_scan b bs).of_pattern hkind with ⟨body, hbytes, _⟩
      rw [(List.cons.inj hbytes).1]
      rfl
  comment := (kind_scan_comment_iff b bs).trans Option.some_inj.symm
  comment_stop := by
    intro hkind
    rcases (kind_scan_comment_iff b bs).mp hkind with rfl
    exact nextLineEnd_comment
  newLine := kind_scan_newLine_iff b bs

end Site

/-- The end mark has no bytes, and its kind is that of no other token. -/
theorem exactKind_endMark (source : Source) : ExactKind source (endMark source.length) where
  covers := by simp [endMark, Span.slice, Span.length, Span.empty]
  identifier := by simp [endMark, IsWord]
  letWord := iff_of_false (by simp [endMark]) (by simp only [endMark]; decide)
  ifWord := iff_of_false (by simp [endMark]) (by simp only [endMark]; decide)
  elseWord := iff_of_false (by simp [endMark]) (by simp only [endMark]; decide)
  number := by simp [endMark]
  apart := by simp [endMark, wordKinds]
  string := by simp [endMark]
  pattern := by simp [endMark]
  quoted := by simp [endMark]
  comment := by simp [endMark]
  comment_stop := by simp [endMark]
  newLine := by simp [endMark]

/-- The kind of every token of a script is exact.  Names, keywords and numbers are the tokens
that are spelt so, and no letter, digit or underscore follows them.  A double quote begins a
string up to the next double quote that is not escaped, a single quote a pattern up to the next
single quote, and without one on the line the token is invalid and goes on to the line end.
Comments go from a number sign to the line end, and only line ends have a line feed. -/
theorem exactKind_of_mem_ofSource {source : Source} {t : Token} (h : t ∈ ofSource source) :
    ExactKind source t := by
  rw [ofSource, List.mem_append, List.mem_singleton] at h
  rcases h with h | rfl
  · rcases exists_site h with ⟨before, b, bs, rfl, rfl⟩
    exact exactKind_scanAt before b bs
  · exact exactKind_endMark source

/-- A keyword, a name, a number, a pattern and a comment; then a string with an escaped quote, a
pattern with a blank in it, and a string that is not closed although a backslash stands before
the line end. -/
def quoteSample : Source :=
  Utf8.encode "let x_1 20 '?' #n\n\"a\\\"b\" 'c d' \"e\\\r\n"

/-- Tokens of the sample whose kinds agree with the bytes around them. -/
theorem exactKind_quoteSample :
    (∃ t ∈ ofSource quoteSample, t.kind = .letWord ∧ t.lexeme = "let" ∧
      ExactKind quoteSample t) ∧
    (∃ t ∈ ofSource quoteSample, t.kind = .identifier ∧ t.lexeme = "x_1" ∧
      ExactKind quoteSample t) ∧
    (∃ t ∈ ofSource quoteSample, t.kind = .number ∧ t.lexeme = "20" ∧
      ExactKind quoteSample t) ∧
    (∃ t ∈ ofSource quoteSample, t.kind = .pattern ∧ t.lexeme = "'?'" ∧
      ExactKind quoteSample t) ∧
    (∃ t ∈ ofSource quoteSample, t.kind = .comment ∧ t.lexeme = "#n" ∧
      ExactKind quoteSample t) ∧
    (∃ t ∈ ofSource quoteSample, t.kind = .string ∧ t.lexeme = "\"a\\\"b\"" ∧
      ExactKind quoteSample t) ∧
    (∃ t ∈ ofSource quoteSample, t.kind = .invalid ∧ t.lexeme = "'c d'" ∧
      ExactKind quoteSample t) ∧
    ∃ t ∈ ofSource quoteSample, t.kind = .invalid ∧ t.lexeme = "\"e\\" ∧
      ExactKind quoteSample t := by
  have hexact : ∀ {kind : Kind} {text : String} (t : Token), t ∈ ofSource quoteSample →
      t.kind = kind → t.lexeme = text →
      ∃ t ∈ ofSource quoteSample, t.kind = kind ∧ t.lexeme = text ∧ ExactKind quoteSample t :=
    fun t ht hkind htext => ⟨t, ht, hkind, htext, exactKind_of_mem_ofSource ht⟩
  refine ⟨hexact ⟨.letWord, ⟨0, 3⟩, Utf8.encode "let"⟩ ?_ rfl ?_,
    hexact ⟨.identifier, ⟨4, 7⟩, Utf8.encode "x_1"⟩ ?_ rfl ?_,
    hexact ⟨.number, ⟨8, 10⟩, Utf8.encode "20"⟩ ?_ rfl ?_,
    hexact ⟨.pattern, ⟨11, 14⟩, Utf8.encode "'?'"⟩ ?_ rfl ?_,
    hexact ⟨.comment, ⟨15, 17⟩, Utf8.encode "#n"⟩ ?_ rfl ?_,
    hexact ⟨.string, ⟨18, 24⟩, Utf8.encode "\"a\\\"b\""⟩ ?_ rfl ?_,
    hexact ⟨.invalid, ⟨25, 30⟩, Utf8.encode "'c d'"⟩ ?_ rfl ?_,
    hexact ⟨.invalid, ⟨31, 34⟩, Utf8.encode "\"e\\"⟩ ?_ rfl ?_⟩
  all_goals decide +kernel

end Token
end Shellward
