import Shellward.Token.Cursor
import Shellward.Token.Scan

/-!
# The spelling of tokens

What the bytes of a token of each kind look like, said without the bytes around
it.  Every token of a script is spelt as its kind asks.

Main results:

- Theorem `Token.spelling_scan`: the token at the front of some bytes is spelt as
  its kind asks.
- Theorem `Token.spelling_of_mem_tokensFrom`: so is every token of a script.
- Theorems `Token.isLetter_iff_mem`, `Token.isDigit_iff_mem`, `Token.isWordByte_iff_mem`,
  `Token.isPatternByte_iff_mem` and `Token.isAtomByte_iff_mem`: the classes of bytes,
  each written out as a text.
-/

namespace Shellward
namespace Token

/-- The bytes that a token of some kind may consist of. -/
inductive Spelling : Kind → Source → Prop
  | symbol {kind : Kind} {bytes : Source} :
      (bytes, kind) ∈ symbols → Spelling kind bytes
  | word {b : UInt8} {body : Source} :
      isLetter b = true → (∀ c ∈ body, isWordByte c = true) →
        Spelling (wordKind (b :: body)) (b :: body)
  | number {b : UInt8} {body : Source} :
      isDigit b = true → (∀ c ∈ body, isDigit c = true) → Spelling .number (b :: body)
  | pattern {body : Source} :
      (∀ c ∈ body, isPatternByte c = true) →
        Spelling .pattern (singleQuote :: (body ++ [singleQuote]))
  | string {body : Source} :
      stringBody body = (body, true) → Spelling .string (doubleQuote :: body)
  | atom {body : Source} :
      body ≠ [] → (∀ c ∈ body, isAtomByte c = true) → atomBody 0 body = body →
        Spelling .atom (0x3a :: body)
  | comment {body : Source} :
      takeUntil atLineEnd body = body → Spelling .comment (0x23 :: body)
  | invalid {bytes : Source} : Spelling .invalid bytes

/-! ### Classes of bytes -/

/-- The ASCII digits. -/
def digits : String :=
  "0123456789"

/-- The ASCII letters in upper case. -/
def capitals : String :=
  "ABCDEFGHIJKLMNOPQRSTUVWXYZ"

/-- The ASCII letters in lower case. -/
def smallLetters : String :=
  "abcdefghijklmnopqrstuvwxyz"

/-- The bytes that pass a test are those of a text if the text lists them in order. -/
theorem eq_true_iff_mem {test : UInt8 → Bool} {text : String}
    (h : ((List.range 256).map UInt8.ofNat).filter test = Utf8.encode text) {b : UInt8} :
    test b = true ↔ b ∈ Utf8.encode text := by
  have hb : b ∈ (List.range 256).map UInt8.ofNat :=
    List.mem_map.mpr ⟨b.toNat, List.mem_range.mpr b.toNat_lt, UInt8.ofNat_toNat⟩
  rw [← h, List.mem_filter, and_iff_right hb]

/-- The bytes that may begin a word. -/
theorem isLetter_iff_mem {b : UInt8} :
    isLetter b = true ↔ b ∈ Utf8.encode (capitals ++ smallLetters) :=
  eq_true_iff_mem (by decide +kernel)

/-- The bytes of a number. -/
theorem isDigit_iff_mem {b : UInt8} : isDigit b = true ↔ b ∈ Utf8.encode digits :=
  eq_true_iff_mem (by decide +kernel)

/-- The bytes of a word. -/
theorem isWordByte_iff_mem {b : UInt8} :
    isWordByte b = true ↔ b ∈ Utf8.encode (digits ++ capitals ++ "_" ++ smallLetters) :=
  eq_true_iff_mem (by decide +kernel)

/-- The bytes between the quotes of a pattern. -/
theorem isPatternByte_iff_mem {b : UInt8} : isPatternByte b = true ↔
    b ∈ Utf8.encode ("!*-" ++ digits ++ "?" ++ capitals ++ "[]" ++ smallLetters) :=
  eq_true_iff_mem (by decide +kernel)

/-- The bytes after the colon of an atom. -/
theorem isAtomByte_iff_mem {b : UInt8} : isAtomByte b = true ↔
    b ∈ Utf8.encode ("()./" ++ digits ++ capitals ++ "_" ++ smallLetters) :=
  eq_true_iff_mem (by decide +kernel)

/-- The letters are two ranges of bytes. -/
theorem isLetter_iff {b : UInt8} :
    isLetter b = true ↔
      (65 ≤ b.toNat ∧ b.toNat ≤ 90) ∨ (97 ≤ b.toNat ∧ b.toNat ≤ 122) := by
  simp [isLetter, UInt8.le_iff_toNat_le]

/-- The digits are a range of bytes. -/
theorem isDigit_iff {b : UInt8} : isDigit b = true ↔ 48 ≤ b.toNat ∧ b.toNat ≤ 57 := by
  simp [isDigit, UInt8.le_iff_toNat_le]

/-! ### Line ends, strings and atoms -/

/-- Whether a line ends at some bytes shows in the first two of them. -/
theorem atLineEnd_congr {b : UInt8} {xs ys : Source} (h : xs.head? = ys.head?) :
    atLineEnd (b :: xs) = atLineEnd (b :: ys) := by
  rcases xs with _ | ⟨x, xs⟩
  · rcases ys with _ | ⟨y, ys⟩
    · rfl
    · simp at h
  · rcases ys with _ | ⟨y, ys⟩
    · simp at h
    · simp only [List.head?_cons, Option.some.injEq] at h
      rw [h]
      unfold atLineEnd
      split <;> split <;> simp_all

/-- A line end among fewer bytes is one among more. -/
theorem atLineEnd_of_isPrefix {xs ys : Source} (h : xs <+: ys) (hxs : atLineEnd xs = true) :
    atLineEnd ys = true := by
  rcases h with ⟨rest, rfl⟩
  unfold atLineEnd at hxs
  split at hxs
  · rfl
  · rfl
  · simp at hxs

/-- What is taken up to a stop comes first. -/
theorem takeUntil_isPrefix (stop : Source → Bool) (bs : Source) : takeUntil stop bs <+: bs := by
  induction bs with
  | nil => exact List.nil_prefix
  | cons b bs ih =>
      rw [takeUntil]
      split
      · exact List.nil_prefix
      · exact (List.prefix_cons_inj b).mpr ih

/-- The rest of a line contains no line end. -/
theorem takeUntil_atLineEnd_idem (bs : Source) :
    takeUntil atLineEnd (takeUntil atLineEnd bs) = takeUntil atLineEnd bs := by
  induction bs with
  | nil => rfl
  | cons b bs ih =>
      by_cases hstop : atLineEnd (b :: bs) = true
      · simp [takeUntil, hstop]
      · have hfront : b :: takeUntil atLineEnd bs <+: b :: bs :=
          (List.prefix_cons_inj b).mpr (takeUntil_isPrefix _ bs)
        have hrest : ¬atLineEnd (b :: takeUntil atLineEnd bs) = true := fun h =>
          hstop (atLineEnd_of_isPrefix hfront h)
        rw [takeUntil, if_neg hstop, takeUntil, if_neg hrest, ih]

/-- A double quote closes a string. -/
theorem stringBody_quote (rest : Source) :
    stringBody (doubleQuote :: rest) = ([doubleQuote], true) := by
  rw [stringBody.eq_def]
  simp [doubleQuote, atLineEnd]

/-- A backslash takes the next byte of its line into the string. -/
theorem stringBody_escape {c : UInt8} {rest : Source} (hline : atLineEnd (c :: rest) = false) :
    stringBody (backslash :: c :: rest) =
      (backslash :: c :: (stringBody rest).1, (stringBody rest).2) := by
  have hback : atLineEnd (backslash :: c :: rest) = false := by
    simp [atLineEnd, backslash]
  have hquote : backslash ≠ doubleQuote := by
    decide
  rw [stringBody.eq_def]
  simp [hback, hquote, hline]

/-- A byte that neither closes a string nor escapes another one belongs to it. -/
theorem stringBody_plain {b : UInt8} {rest : Source} (hline : atLineEnd (b :: rest) = false)
    (hquote : b ≠ doubleQuote) (hback : b ≠ backslash) :
    stringBody (b :: rest) = (b :: (stringBody rest).1, (stringBody rest).2) := by
  rw [stringBody.eq_def]
  simp [hline, hquote, hback]

/-- The body of a closed string begins like the bytes it is taken from. -/
theorem stringBody_closed_head {bs body : Source} (h : stringBody bs = (body, true)) :
    body ≠ [] ∧ body.head? = bs.head? := by
  fun_induction stringBody bs with
  | case1 | case2 | case4 | case5 => simp at h
  | case3 =>
      simp only [Prod.mk.injEq, and_true] at h
      simp [← h]
  | case6 | case7 =>
      simp only [Prod.mk.injEq] at h
      simp [← h.1]

/-- Whether a line ends before a closed string is told by the string alone. -/
theorem atLineEnd_cons_stringBody {b : UInt8} {bs body : Source}
    (h : stringBody bs = (body, true)) (rest : Source) :
    atLineEnd (b :: (body ++ rest)) = atLineEnd (b :: bs) := by
  rcases stringBody_closed_head h with ⟨hne, hhead⟩
  apply atLineEnd_congr
  rcases body with _ | ⟨c, cs⟩
  · exact absurd rfl hne
  · exact hhead

/-- A closed string is closed whatever follows it. -/
theorem stringBody_append {bs body : Source} (h : stringBody bs = (body, true))
    (rest : Source) : stringBody (body ++ rest) = (body, true) := by
  fun_induction stringBody bs generalizing body with
  | case1 | case2 | case4 | case5 => simp at h
  | case3 bs =>
      simp only [Prod.mk.injEq, and_true] at h
      rw [← h]
      exact stringBody_quote rest
  | case6 c cs hline =>
      rename_i ih
      rcases Prod.mk.inj h with ⟨rfl, hclosed⟩
      have hcs : stringBody cs = ((stringBody cs).1, true) := Prod.ext rfl hclosed
      rw [← atLineEnd_cons_stringBody hcs rest] at hline
      simp only [List.cons_append]
      rw [stringBody_escape (by simpa using hline), ih hcs]
  | case7 b bs hline hquote hback =>
      rename_i ih
      rcases Prod.mk.inj h with ⟨rfl, hclosed⟩
      have hbs : stringBody bs = ((stringBody bs).1, true) := Prod.ext rfl hclosed
      rw [← atLineEnd_cons_stringBody hbs rest] at hline
      simp only [List.cons_append]
      rw [stringBody_plain (by simpa using hline) hquote hback, ih hbs]

/-- What ends an atom is not part of it. -/
theorem atomBody_idem (depth : Nat) (bs : Source) :
    atomBody depth (atomBody depth bs) = atomBody depth bs := by
  fun_induction atomBody depth bs <;> simp_all [atomBody]

/-! ### What a scanner takes is spelt as it should be -/

/-- The scanner of symbols takes bytes that are spelt as a symbol. -/
theorem spelling_of_scanSymbol {b : UInt8} {bs body : Source} {kind : Kind}
    (h : scanSymbol b bs = some (kind, body)) : Spelling kind (b :: body) := by
  simp only [scanSymbol, Option.map_eq_some_iff] at h
  rcases h with ⟨⟨bytes, kind'⟩, hfind, heq⟩
  have hmem : (bytes, kind') ∈ symbols := List.mem_of_find?_eq_some hfind
  have hhead := List.find?_some hfind
  rcases Prod.mk.inj heq with ⟨rfl, rfl⟩
  rcases bytes with _ | ⟨c, cs⟩
  · simp [symbols] at hmem
  · simp only [List.isPrefixOf_cons_cons, Bool.and_eq_true, beq_iff_eq] at hhead
    rw [← hhead.1]
    exact .symbol hmem

/-- The scanner of words takes bytes that are spelt as a name or a keyword. -/
theorem spelling_of_scanWord {b : UInt8} {bs body : Source} {kind : Kind}
    (h : scanWord b bs = some (kind, body)) : Spelling kind (b :: body) := by
  simp only [scanWord] at h
  split at h
  · rename_i hletter
    simp only [Option.some.injEq, Prod.mk.injEq] at h
    rcases h with ⟨rfl, rfl⟩
    exact .word hletter fun c hc => List.all_eq_true.mp List.all_takeWhile c hc
  · simp at h

/-- The scanner of numbers takes bytes that are spelt as the kind it tells. -/
theorem spelling_of_scanNumber {b : UInt8} {bs body : Source} {kind : Kind}
    (h : scanNumber b bs = some (kind, body)) : Spelling kind (b :: body) := by
  simp only [scanNumber] at h
  split at h
  · rename_i hdigit
    simp only [Option.some.injEq, Prod.mk.injEq] at h
    rcases h with ⟨rfl, rfl⟩
    split
    · rename_i hall
      exact .number hdigit (List.all_eq_true.mp hall)
    · exact .invalid
  · simp at h

/-- The scanner of patterns takes bytes that are spelt as the kind it tells. -/
theorem spelling_of_scanPattern {b : UInt8} {bs body : Source} {kind : Kind}
    (h : scanPattern b bs = some (kind, body)) : Spelling kind (b :: body) := by
  simp only [scanPattern] at h
  split at h
  · rename_i hquote
    subst hquote
    split at h
    · simp only [Option.some.injEq, Prod.mk.injEq] at h
      rcases h with ⟨rfl, rfl⟩
      split
      · rename_i hall
        exact .pattern (List.all_eq_true.mp hall)
      · exact .invalid
    · simp only [Option.some.injEq, Prod.mk.injEq] at h
      rw [← h.1]
      exact .invalid
  · simp at h

/-- The scanner of strings takes bytes that are spelt as the kind it tells. -/
theorem spelling_of_scanString {b : UInt8} {bs body : Source} {kind : Kind}
    (h : scanString b bs = some (kind, body)) : Spelling kind (b :: body) := by
  simp only [scanString] at h
  split at h
  · rename_i hquote
    subst hquote
    simp only [Option.some.injEq, Prod.mk.injEq] at h
    rcases h with ⟨rfl, rfl⟩
    split
    · rename_i hclosed
      have hbody : stringBody bs = ((stringBody bs).1, true) := Prod.ext rfl hclosed
      have happend := stringBody_append hbody []
      rw [List.append_nil] at happend
      exact .string happend
    · exact .invalid
  · simp at h

/-- The scanner of atoms takes bytes that are spelt as the kind it tells. -/
theorem spelling_of_scanAtom {b : UInt8} {bs body : Source} {kind : Kind}
    (h : scanAtom b bs = some (kind, body)) : Spelling kind (b :: body) := by
  simp only [scanAtom] at h
  split at h
  · rename_i hcolon
    subst hcolon
    simp only [Option.some.injEq, Prod.mk.injEq] at h
    rcases h with ⟨rfl, rfl⟩
    split
    · rename_i hatom
      simp only [Bool.and_eq_true, Bool.not_eq_true', List.isEmpty_eq_false_iff] at hatom
      exact .atom hatom.1 (List.all_eq_true.mp hatom.2) (atomBody_idem 0 bs)
    · exact .invalid
  · simp at h

theorem spelling_of_scanComment {b : UInt8} {bs body : Source} {kind : Kind}
    (h : scanComment b bs = some (kind, body)) : Spelling kind (b :: body) := by
  simp only [scanComment] at h
  split at h
  · rename_i hsign
    subst hsign
    simp only [Option.some.injEq, Prod.mk.injEq] at h
    rcases h with ⟨rfl, rfl⟩
    exact .comment (takeUntil_atLineEnd_idem bs)
  · simp at h

/-- The token at the front of some bytes is spelt as its kind asks. -/
theorem spelling_scan (b : UInt8) (bs : Source) :
    Spelling (scan b bs).1 (b :: (scan b bs).2) := by
  unfold scan
  split
  · rename_i found hfound
    rcases List.exists_of_findSome?_eq_some hfound with ⟨scanner, hmem, hscanner⟩
    simp only [scanners, List.mem_cons, List.not_mem_nil, or_false] at hmem
    rcases hmem with rfl | rfl | rfl | rfl | rfl | rfl | rfl
    · exact spelling_of_scanSymbol hscanner
    · exact spelling_of_scanWord hscanner
    · exact spelling_of_scanNumber hscanner
    · exact spelling_of_scanPattern hscanner
    · exact spelling_of_scanString hscanner
    · exact spelling_of_scanAtom hscanner
    · exact spelling_of_scanComment hscanner
  · exact .invalid

/-- Every token of a script is spelt as its kind asks. -/
theorem spelling_of_mem_tokensFrom {t : Token} {offset : Nat} {source : Source}
    (h : t ∈ tokensFrom offset source) : Spelling t.kind t.bytes := by
  fun_induction tokensFrom offset source with
  | case1 => simp at h
  | case2 offset b bs hspace ih => exact ih h
  | case3 offset b bs hspace kind body hscan ih =>
      rcases List.mem_cons.mp h with rfl | h
      · have hspelling := spelling_scan b bs
        rw [hscan] at hspelling
        exact hspelling
      · exact ih h

/-- Every token of a script but the end mark is spelt as its kind asks. -/
theorem spelling_of_mem_ofSource {t : Token} {source : Source} (h : t ∈ ofSource source)
    (heof : t.kind ≠ .eof) : Spelling t.kind t.bytes := by
  rw [ofSource, List.mem_append, List.mem_singleton] at h
  rcases h with h | rfl
  · exact spelling_of_mem_tokensFrom h
  · exact absurd rfl heof

/-! ### What the kind of a token tells -/

/-- A word is a name or a keyword. -/
theorem wordKind_cases (word : Source) :
    wordKind word = .identifier ∨ wordKind word ∈ keywords.map (·.2) := by
  unfold wordKind
  split
  · rename_i k hk
    exact .inr (List.mem_map_of_mem (List.mem_of_find?_eq_some hk))
  · exact .inl rfl

theorem wordKind_ne {kind : Kind} (hname : kind ≠ .identifier)
    (hkeyword : kind ∉ keywords.map (·.2)) (word : Source) : wordKind word ≠ kind := by
  rcases wordKind_cases word with hword | hword
  · rw [hword]
    exact hname.symm
  · intro heq
    rw [heq] at hword
    exact hkeyword hword

theorem symbol_ne {kind kind' : Kind} {bytes : Source} (h : (bytes, kind) ∈ symbols)
    (hsymbol : kind' ∉ symbols.map (·.2)) : kind ≠ kind' := by
  rintro rfl
  exact hsymbol (List.mem_map_of_mem (f := Prod.snd) h)

/-- No token of a script has the kind of the end mark. -/
theorem Spelling.kind_ne_eof {kind : Kind} {bytes : Source} (h : Spelling kind bytes) :
    kind ≠ .eof := by
  cases h with
  | symbol hmem => exact symbol_ne hmem (by decide)
  | word => exact wordKind_ne (by decide) (by decide) _
  | number | pattern | string | atom | comment | invalid => simp

/-- A name is a letter followed by letters, digits and underscores. -/
theorem Spelling.of_identifier {kind : Kind} {bytes : Source} (h : Spelling kind bytes)
    (hkind : kind = .identifier) :
    ∃ b body, bytes = b :: body ∧ isLetter b = true ∧ (∀ c ∈ body, isWordByte c = true) ∧
      wordKind (b :: body) = .identifier := by
  cases h with
  | symbol hmem => exact absurd hkind (symbol_ne hmem (by decide))
  | @word b body hletter hbody => exact ⟨b, body, rfl, hletter, hbody, hkind⟩
  | number | pattern | string | atom | comment | invalid => simp at hkind

/-- A number is a run of digits. -/
theorem Spelling.of_number {kind : Kind} {bytes : Source} (h : Spelling kind bytes)
    (hkind : kind = .number) :
    ∃ b body, bytes = b :: body ∧ isDigit b = true ∧ ∀ c ∈ body, isDigit c = true := by
  cases h with
  | symbol hmem => exact absurd hkind (symbol_ne hmem (by decide))
  | word => exact absurd hkind (wordKind_ne (by decide) (by decide) _)
  | @number b body hdigit hbody => exact ⟨b, body, rfl, hdigit, hbody⟩
  | pattern | string | atom | comment | invalid => simp at hkind

/-- A pattern is a run of pattern bytes between single quotes. -/
theorem Spelling.of_pattern {kind : Kind} {bytes : Source} (h : Spelling kind bytes)
    (hkind : kind = .pattern) :
    ∃ body, bytes = singleQuote :: (body ++ [singleQuote]) ∧
      ∀ c ∈ body, isPatternByte c = true := by
  cases h with
  | symbol hmem => exact absurd hkind (symbol_ne hmem (by decide))
  | word => exact absurd hkind (wordKind_ne (by decide) (by decide) _)
  | @pattern body hbody => exact ⟨body, rfl, hbody⟩
  | number | string | atom | comment | invalid => simp at hkind

/-- A string is a double quote followed by bytes up to the one that closes it. -/
theorem Spelling.of_string {kind : Kind} {bytes : Source} (h : Spelling kind bytes)
    (hkind : kind = .string) :
    ∃ body, bytes = doubleQuote :: body ∧ stringBody body = (body, true) := by
  cases h with
  | symbol hmem => exact absurd hkind (symbol_ne hmem (by decide))
  | word => exact absurd hkind (wordKind_ne (by decide) (by decide) _)
  | @string body hbody => exact ⟨body, rfl, hbody⟩
  | number | pattern | atom | comment | invalid => simp at hkind

/-- A comment is a number sign followed by bytes of one line. -/
theorem Spelling.of_comment {kind : Kind} {bytes : Source} (h : Spelling kind bytes)
    (hkind : kind = .comment) :
    ∃ body, bytes = 0x23 :: body ∧ takeUntil atLineEnd body = body := by
  cases h with
  | symbol hmem => exact absurd hkind (symbol_ne hmem (by decide))
  | word => exact absurd hkind (wordKind_ne (by decide) (by decide) _)
  | @comment body hbody => exact ⟨body, rfl, hbody⟩
  | number | pattern | string | atom | invalid => simp at hkind

end Token

/-- Reading a script begins before its first token, and the end mark is kept apart. -/
theorem Cursor.ofTokens_ofSource (source : Source) :
    ofTokens (Token.ofSource source) =
      ⟨[], Token.tokensFrom 0 source, Token.endMark source.length⟩ := by
  simp [ofTokens, Token.ofSource, Token.isEnd, Token.endMark]

end Shellward
