import Shellward.Proofs.Token.Spelling
import Shellward.Proofs.Utf8
import Shellward.Text

/-!
# Tokens that are written and scanned again

The text of a token, written before a byte that ends tokens, is scanned as a token
of the same kind.  This holds also of strings whose bytes are no well-formed text.

Main results:

- Theorem `Token.scan_symbol`: a symbol is scanned as itself unless an equals sign
  follows that makes it another.
- Theorem `Token.Spelling.rescans`: the text of a name or a literal is scanned as a
  token of its kind.
- Theorem `Token.scan_trimmed_comment`: so is a comment without the white space at its
  end.
-/

namespace Shellward
namespace Token

/-! ### Which scanner answers -/

/-- No symbol begins with a byte of a class that holds of none of their first bytes. -/
theorem scanSymbol_eq_none {p : UInt8 → Bool}
    (hp : (symbols.all fun s => (s.1.head?.map p) == some false) = true) {b : UInt8}
    (hb : p b = true) (bs : Source) : scanSymbol b bs = none := by
  simp only [scanSymbol, Option.map_eq_none_iff, List.find?_eq_none]
  rintro ⟨bytes, kind⟩ hmem hfront
  have hhead := List.all_eq_true.mp hp _ hmem
  rcases bytes with _ | ⟨c, cs⟩
  · simp at hhead
  · simp only [List.isPrefixOf_cons_cons, Bool.and_eq_true, beq_iff_eq] at hfront
    rw [hfront.1] at hhead
    simp [hb] at hhead

theorem isLetter_eq_false_of_isDigit {b : UInt8} (h : isDigit b = true) : isLetter b = false := by
  rw [isDigit_iff] at h
  rw [Bool.eq_false_iff]
  intro hletter
  rw [isLetter_iff] at hletter
  omega

/-- From a letter on, a word is scanned. -/
theorem scan_of_letter {b : UInt8} (h : isLetter b = true) (bs : Source) :
    scan b bs = (wordKind (b :: bs.takeWhile isWordByte), bs.takeWhile isWordByte) := by
  have hsymbol := scanSymbol_eq_none (p := isLetter) (by decide) h bs
  simp [scan, scanners, hsymbol, scanWord, h]

/-- From a digit on, a number is scanned, which is invalid if other bytes of words are in it. -/
theorem scan_of_digit {b : UInt8} (h : isDigit b = true) (bs : Source) :
    scan b bs =
      (if (bs.takeWhile isWordByte).all isDigit then .number else .invalid,
        bs.takeWhile isWordByte) := by
  have hsymbol := scanSymbol_eq_none (p := isDigit) (by decide) h bs
  simp [scan, scanners, hsymbol, scanWord, scanNumber, h, isLetter_eq_false_of_isDigit h]

/-- The bytes that begin patterns, strings, atoms and comments. -/
def marks : List UInt8 :=
  [singleQuote, doubleQuote, 0x3a, 0x23]

/-- A mark begins no symbol, word or number. -/
theorem scan_of_mark {b : UInt8} (h : marks.contains b = true) (bs : Source)
    {found : Kind × Source}
    (hfound : ([scanPattern, scanString, scanAtom, scanComment].findSome? fun s => s b bs) =
      some found) :
    scan b bs = found := by
  have hsymbol := scanSymbol_eq_none (p := marks.contains) (by decide) h bs
  have hword : isLetter b = false ∧ isDigit b = false := by
    revert h
    simp only [marks, List.contains_cons, List.contains_nil, Bool.or_false, Bool.or_eq_true,
      beq_iff_eq]
    rintro (rfl | rfl | rfl | rfl) <;> decide
  rw [scan, scanners, List.findSome?_cons, hsymbol]
  simp only [List.findSome?_cons, scanWord, scanNumber, hword.1, hword.2, Bool.false_eq_true,
    if_false]
  simp only [List.findSome?_cons] at hfound
  rw [hfound]

/-- The symbols that an equals sign makes another symbol. -/
def extendable : List Kind :=
  [.assign, .less, .greater]

/-- A symbol is scanned as itself, unless an equals sign follows that makes it another. -/
theorem scan_symbol {b : UInt8} {body : Source} {kind : Kind} (h : (b :: body, kind) ∈ symbols)
    {rest : Source} (hrest : kind ∈ extendable → rest.head? ≠ some 0x3d) :
    scan b (body ++ rest) = (kind, body) := by
  have hnext : kind ∈ extendable → List.isPrefixOf [0x3d] rest = false := by
    intro hkind
    have hhead := hrest hkind
    rcases rest with _ | ⟨c, cs⟩
    · rfl
    · simp only [List.head?_cons, ne_eq, Option.some.injEq] at hhead
      simp [List.isPrefixOf, Ne.symm hhead]
  have hscan : scanSymbol b (body ++ rest) = some (kind, body) := by
    simp only [symbols, List.mem_cons, Prod.mk.injEq, List.cons.injEq, List.not_mem_nil,
      or_false] at h
    simp only [extendable, List.mem_cons, List.not_mem_nil, or_false] at hnext
    rcases h with h | h | h | h | h | h | h | h | h | h | h | h | h | h | h | h | h | h | h <;>
      rcases h with ⟨⟨rfl, rfl⟩, rfl⟩ <;>
      simp [scanSymbol, symbols, List.isPrefixOf, openParen, closeParen, hnext]
  rw [scan, scanners, List.findSome?_cons, hscan]

/-! ### Where tokens end -/

/-- The bytes that end a name or a literal: a space, a comma, a closing parenthesis
and a line end. -/
def closers : List UInt8 :=
  [0x20, 0x2c, closeParen, 0x0a]

/-- Some bytes begin with one that ends names and literals. -/
def Closes (after : Source) : Prop :=
  ∃ c rest, after = c :: rest ∧ c ∈ closers

/-- Some bytes do not go on with a byte of a class. -/
def Stopped (p : UInt8 → Bool) (after : Source) : Prop :=
  ∀ c, after.head? = some c → p c = false

theorem Closes.stopped {p : UInt8 → Bool} (hp : ∀ c ∈ closers, p c = false) {after : Source}
    (h : Closes after) : Stopped p after := by
  rcases h with ⟨c, rest, rfl, hc⟩
  intro d hd
  rw [← Option.some.inj hd]
  exact hp c hc

/-- A run of bytes of a class ends where other bytes follow. -/
theorem takeWhile_append_of_stopped {p : UInt8 → Bool} {xs after : Source}
    (hxs : ∀ c ∈ xs, p c = true) (hafter : Stopped p after) :
    (xs ++ after).takeWhile p = xs := by
  rw [List.takeWhile_append_of_pos hxs]
  rcases after with _ | ⟨c, cs⟩
  · simp
  · rw [List.takeWhile_cons_of_neg (by simp [hafter c rfl]), List.append_nil]

/-- A word is scanned as itself before a byte that does not belong to words. -/
theorem scan_word {b : UInt8} {body after : Source} (hletter : isLetter b = true)
    (hbody : ∀ c ∈ body, isWordByte c = true) (hafter : Stopped isWordByte after) :
    scan b (body ++ after) = (wordKind (b :: body), body) := by
  rw [scan_of_letter hletter, takeWhile_append_of_stopped hbody hafter]

theorem isWordByte_of_isLetter {b : UInt8} (h : isLetter b = true) : isWordByte b = true := by
  simp [isWordByte, isAlphanumeric, h]

theorem isWordByte_of_isDigit {b : UInt8} (h : isDigit b = true) : isWordByte b = true := by
  simp [isWordByte, isAlphanumeric, h]

/-- Digits are scanned as a number if no byte of a word follows. -/
theorem scan_number {b : UInt8} {body after : Source} (hdigit : isDigit b = true)
    (hbody : ∀ c ∈ body, isDigit c = true) (hafter : Stopped isWordByte after) :
    scan b (body ++ after) = (.number, body) := by
  have hword : ∀ c ∈ body, isWordByte c = true := fun c hc => isWordByte_of_isDigit (hbody c hc)
  rw [scan_of_digit hdigit, takeWhile_append_of_stopped hword hafter,
    if_pos (List.all_eq_true.mpr hbody)]

theorem isPatternByte_props {b : UInt8} (h : isPatternByte b = true) :
    b ≠ singleQuote ∧ b ≠ 0x0a ∧ b ≠ 0x0d := by
  refine ⟨?_, ?_, ?_⟩ <;> rintro rfl <;> exact absurd h (by decide)

theorem atLineEnd_of_ne {b : UInt8} (h : b ≠ 0x0a) (h' : b ≠ 0x0d) (bs : Source) :
    atLineEnd (b :: bs) = false := by
  simp [atLineEnd, h, h']

/-- Bytes of patterns between single quotes are scanned as a pattern, whatever follows. -/
theorem scan_pattern {body : Source} (hbody : ∀ c ∈ body, isPatternByte c = true)
    (after : Source) :
    scan singleQuote (body ++ [singleQuote] ++ after) = (.pattern, body ++ [singleQuote]) := by
  have htake : takeUntil (fun ahead => atLineEnd ahead || ahead.head? == some singleQuote)
      (body ++ singleQuote :: after) = body := by
    induction body with
    | nil => simp [takeUntil]
    | cons c cs ih =>
        rcases isPatternByte_props (hbody c List.mem_cons_self) with ⟨hquote, hline, hreturn⟩
        rw [List.cons_append, takeUntil, atLineEnd_of_ne hline hreturn]
        simp only [List.head?_cons, Bool.false_or, beq_iff_eq, Option.some.injEq, hquote,
          if_false]
        rw [ih fun d hd => hbody d (List.mem_cons_of_mem c hd)]
  apply scan_of_mark (by decide)
  have hscan : scanPattern singleQuote (body ++ [singleQuote] ++ after) =
      some (.pattern, body ++ [singleQuote]) := by
    rw [List.append_assoc, List.singleton_append]
    simp only [scanPattern, if_true, htake]
    simp [List.all_eq_true.mpr hbody]
  rw [List.findSome?_cons, hscan]

/-- A closed string is scanned as one, whatever follows. -/
theorem scan_string {body : Source} (hbody : stringBody body = (body, true)) (after : Source) :
    scan doubleQuote (body ++ after) = (.string, body) := by
  apply scan_of_mark (by decide)
  have hpattern : scanPattern doubleQuote (body ++ after) = none := rfl
  have hscan : scanString doubleQuote (body ++ after) = some (.string, body) := by
    simp [scanString, stringBody_append hbody after]
  rw [List.findSome?_cons, hpattern, List.findSome?_cons, hscan]

/-- Some bytes close as many parentheses as they open. -/
def BalancedParens (bytes : Source) : Prop :=
  bytes.count openParen = bytes.count closeParen

/-- An atom that closes all its parentheses ends before any byte that ends literals. -/
theorem atomBody_append {depth : Nat} {body after : Source} (hbody : atomBody depth body = body)
    (hbalanced : depth + body.count openParen = body.count closeParen) (hafter : Closes after) :
    atomBody depth (body ++ after) = body := by
  induction body generalizing depth with
  | nil =>
      rcases hafter with ⟨c, rest, rfl, hc⟩
      have hdepth : depth = 0 := by simpa using hbalanced
      simp only [closers, List.mem_cons, List.not_mem_nil, or_false] at hc
      rw [hdepth, List.nil_append]
      rcases hc with rfl | rfl | rfl | rfl <;> simp [atomBody, isDelimiter, closeParen, openParen]
  | cons b bs ih =>
      rw [List.cons_append]
      have hdelimiter : isDelimiter b = false := by
        rw [Bool.eq_false_iff]
        intro h
        simp [atomBody, h] at hbody
      by_cases hopen : b = openParen
      · subst hopen
        have hcount : depth + 1 + bs.count openParen = bs.count closeParen := by
          have hne : openParen ≠ closeParen := by decide
          rw [List.count_cons_self, List.count_cons_of_ne hne] at hbalanced
          omega
        simp only [atomBody, hdelimiter, Bool.false_eq_true, if_false, if_true,
          List.cons.injEq, true_and] at hbody ⊢
        exact ih hbody hcount
      · by_cases hclose : b = closeParen
        · subst hclose
          have hne : closeParen ≠ openParen := by decide
          cases depth with
          | zero => simp [atomBody, hdelimiter, hopen] at hbody
          | succ depth =>
              have hcount : depth + bs.count openParen = bs.count closeParen := by
                rw [List.count_cons_self, List.count_cons_of_ne hne] at hbalanced
                omega
              simp only [atomBody, hdelimiter, Bool.false_eq_true, if_false, hopen, if_true,
                List.cons.injEq, true_and] at hbody ⊢
              exact ih hbody hcount
        · have hcount : depth + bs.count openParen = bs.count closeParen := by
            rw [List.count_cons_of_ne hopen, List.count_cons_of_ne hclose] at hbalanced
            exact hbalanced
          simp only [atomBody, hdelimiter, Bool.false_eq_true, if_false, hopen, hclose,
            List.cons.injEq, true_and] at hbody ⊢
          exact ih hbody hcount

/-- An atom with balanced parentheses is scanned as one before a byte that ends literals. -/
theorem scan_atom {body after : Source} (hne : body ≠ [])
    (hall : ∀ c ∈ body, isAtomByte c = true) (hbody : atomBody 0 body = body)
    (hbalanced : BalancedParens body) (hafter : Closes after) :
    scan 0x3a (body ++ after) = (.atom, body) := by
  have htake : atomBody 0 (body ++ after) = body :=
    atomBody_append hbody (by rw [Nat.zero_add, hbalanced]) hafter
  apply scan_of_mark (by decide)
  have hpattern : scanPattern 0x3a (body ++ after) = none := rfl
  have hstring : scanString 0x3a (body ++ after) = none := rfl
  have hscan : scanAtom 0x3a (body ++ after) = some (.atom, body) := by
    simp [scanAtom, htake, hne, List.all_eq_true.mpr hall]
  rw [List.findSome?_cons, hpattern, List.findSome?_cons, hstring, List.findSome?_cons, hscan]

/-- A comment is scanned up to the end of its line. -/
theorem scan_comment {body after : Source} (hbody : takeUntil atLineEnd (body ++ after) = body) :
    scan 0x23 (body ++ after) = (.comment, body) := by
  apply scan_of_mark (by decide)
  have hpattern : scanPattern 0x23 (body ++ after) = none := rfl
  have hstring : scanString 0x23 (body ++ after) = none := rfl
  have hatom : scanAtom 0x23 (body ++ after) = none := rfl
  rw [List.findSome?_cons, hpattern, List.findSome?_cons, hstring, List.findSome?_cons, hatom]
  simp [scanComment, hbody]

/-! ### Strings whose bytes are no text -/

/-- The bytes of a string after its opening quote, up to the closing one. -/
def ClosedString (bytes : Source) : Prop :=
  stringBody bytes = (bytes, true)

theorem high_props {b : UInt8} (h : 0x80 ≤ b.toNat) :
    b ≠ 0x0a ∧ b ≠ 0x0d ∧ b ≠ doubleQuote ∧ b ≠ backslash := by
  refine ⟨?_, ?_, ?_, ?_⟩ <;> rintro rfl <;> exact absurd h (by decide)

/-- A plain byte in front changes nothing about where a string is closed. -/
theorem closedString_plain_iff {b : UInt8} {bs : Source} (hline : atLineEnd (b :: bs) = false)
    (hquote : b ≠ doubleQuote) (hback : b ≠ backslash) :
    ClosedString (b :: bs) ↔ ClosedString bs := by
  rw [ClosedString, stringBody_plain hline hquote hback]
  simp [ClosedString, Prod.ext_iff]

/-- An escaped byte in front changes nothing about where a string is closed. -/
theorem closedString_escape_iff {c : UInt8} {bs : Source} (hline : atLineEnd (c :: bs) = false) :
    ClosedString (backslash :: c :: bs) ↔ ClosedString bs := by
  rw [ClosedString, stringBody_escape hline]
  simp [ClosedString, Prod.ext_iff]

/-- A plain quote closes the string, so nothing comes after it. -/
theorem closedString_quote_iff {bs : Source} : ClosedString (doubleQuote :: bs) ↔ bs = [] := by
  rw [ClosedString, stringBody_quote]
  simp [eq_comm]

/-- Bytes beyond ASCII neither close a string nor escape anything. -/
theorem closedString_high_iff {hs bs : Source} (hhs : ∀ b ∈ hs, 0x80 ≤ b.toNat) :
    ClosedString (hs ++ bs) ↔ ClosedString bs := by
  induction hs with
  | nil => exact Iff.rfl
  | cons b hs ih =>
      rcases high_props (hhs b List.mem_cons_self) with ⟨hline, hreturn, hquote, hback⟩
      rw [List.cons_append, closedString_plain_iff (atLineEnd_of_ne hline hreturn _) hquote hback]
      exact ih fun c hc => hhs c (List.mem_cons_of_mem b hc)

/-- A string that is closed does not end its line, and a backslash in it escapes a byte
of the line. -/
theorem ClosedString.not_atLineEnd {b : UInt8} {bs : Source} (h : ClosedString (b :: bs)) :
    atLineEnd (b :: bs) = false := by
  rw [Bool.eq_false_iff]
  intro hline
  rw [ClosedString, stringBody.eq_def] at h
  simp [hline] at h

theorem ClosedString.escaped {bs : Source} (h : ClosedString (backslash :: bs)) :
    ∃ c cs, bs = c :: cs ∧ atLineEnd (c :: cs) = false := by
  have hline := h.not_atLineEnd
  have hquote : backslash ≠ doubleQuote := by decide
  rw [ClosedString, stringBody.eq_def] at h
  rcases bs with _ | ⟨c, cs⟩
  · simp [hline, hquote] at h
  · refine ⟨c, cs, rfl, ?_⟩
    rw [Bool.eq_false_iff]
    intro hcs
    simp [hline, hquote, hcs] at h

theorem atLineEnd_cons_cons {b c : UInt8} (hb : b ≠ 0x0a) (hc : c ≠ 0x0a) (cs : Source) :
    atLineEnd (b :: c :: cs) = false := by
  unfold atLineEnd
  split <;> simp_all

theorem ne_newLine_of_not_atLineEnd {b : UInt8} {bs : Source}
    (h : atLineEnd (b :: bs) = false) : b ≠ 0x0a := by
  rintro rfl
  simp [atLineEnd] at h

/-- Writing a text again makes no line end. -/
theorem atLineEnd_transcribed {b : UInt8} {xs ys : Source} (h : Utf8.Transcribed xs ys)
    (hline : atLineEnd (b :: xs) = false) : atLineEnd (b :: ys) = false := by
  cases h with
  | nil => exact hline
  | @ascii c xs ys _ _ =>
      rw [← hline]
      exact atLineEnd_congr rfl
  | @run hs ks xs ys _ hks _ =>
      rcases ks with _ | ⟨k, ks⟩
      · exact absurd rfl hks.ne_nil
      · have hk := (high_props (hks.high k List.mem_cons_self)).1
        exact atLineEnd_cons_cons (ne_newLine_of_not_atLineEnd hline) hk _

/-- A string stays closed when its text is written again. -/
theorem closedString_transcribed {xs ys : Source} (h : Utf8.Transcribed xs ys)
    (hxs : ClosedString xs) : ClosedString ys := by
  -- A backslash and the byte it escapes are passed in one step.
  induction hn : xs.length using Nat.strongRecOn generalizing xs ys with
  | _ n ih =>
      subst hn
      cases h with
      | nil => exact hxs
      | @run hs ks xs ys hhs hks h =>
          have hlt : xs.length < (hs ++ xs).length := by
            have hpos := List.length_pos_iff.mpr hhs.ne_nil
            rw [List.length_append]
            omega
          rw [closedString_high_iff hhs.high] at hxs
          rw [closedString_high_iff hks.high]
          exact ih _ hlt h hxs rfl
      | @ascii b xs ys hb h =>
          by_cases hquote : b = doubleQuote
          · subst hquote
            rw [closedString_quote_iff] at hxs ⊢
            exact h.eq_nil hxs
          · by_cases hback : b = backslash
            · subst hback
              rcases hxs.escaped with ⟨c, cs, hcs, hline⟩
              rw [hcs, closedString_escape_iff hline] at hxs
              cases h with
              | nil => simp at hcs
              | @ascii c' xs ys _ h =>
                  rcases List.cons.inj hcs with ⟨rfl, rfl⟩
                  rw [closedString_escape_iff (atLineEnd_transcribed h hline)]
                  have hlt : xs.length < (backslash :: c' :: xs).length :=
                    Nat.lt_succ_of_lt (Nat.lt_succ_self _)
                  exact ih _ hlt h hxs rfl
              | @run hs ks xs ys hhs hks h =>
                  rcases hs with _ | ⟨b, hs⟩
                  · exact absurd rfl hhs.ne_nil
                  · rw [List.cons_append] at hcs
                    rcases List.cons.inj hcs with ⟨_, rfl⟩
                    rcases ks with _ | ⟨k, ks⟩
                    · exact absurd rfl hks.ne_nil
                    · have hk := high_props (hks.high k List.mem_cons_self)
                      have hhs' : ∀ b ∈ hs, 0x80 ≤ b.toNat := fun b hb =>
                        hhs.high b (List.mem_cons_of_mem _ hb)
                      have hks' : ∀ b ∈ ks, 0x80 ≤ b.toNat := fun b hb =>
                        hks.high b (List.mem_cons_of_mem _ hb)
                      rw [closedString_high_iff hhs'] at hxs
                      rw [List.cons_append,
                        closedString_escape_iff (atLineEnd_of_ne hk.1 hk.2.1 _),
                        closedString_high_iff hks']
                      have hlt : xs.length < (backslash :: (b :: hs ++ xs)).length := by
                        simp only [List.length_cons, List.length_append]
                        omega
                      exact ih _ hlt h hxs rfl
            · have hline := hxs.not_atLineEnd
              rw [closedString_plain_iff hline hquote hback] at hxs
              rw [closedString_plain_iff (atLineEnd_transcribed h hline) hquote hback]
              exact ih _ (Nat.lt_succ_self _) h hxs rfl

/-! ### Names and literals -/

/-- The kinds of the tokens that are expressions by themselves. -/
def leafKinds : List Kind :=
  [.identifier, .number, .string, .pattern, .atom]

theorem lt_ascii_of_isAlphanumeric {b : UInt8} (h : isAlphanumeric b = true) : b < 0x80 := by
  simp only [isAlphanumeric, Bool.or_eq_true, isLetter_iff, isDigit_iff] at h
  rw [Utf8.lt_ascii_iff]
  omega

theorem lt_ascii_of_isWordByte {b : UInt8} (h : isWordByte b = true) : b < 0x80 := by
  simp only [isWordByte, Bool.or_eq_true, beq_iff_eq] at h
  rcases h with h | rfl
  · exact lt_ascii_of_isAlphanumeric h
  · decide

theorem lt_ascii_of_word {b : UInt8} {body : Source} (hletter : isLetter b = true)
    (hbody : ∀ c ∈ body, isWordByte c = true) : ∀ c ∈ b :: body, c < 0x80 := by
  rw [List.forall_mem_cons]
  refine ⟨lt_ascii_of_isWordByte (isWordByte_of_isLetter hletter), ?_⟩
  intro c hc
  exact lt_ascii_of_isWordByte (hbody c hc)

theorem lt_ascii_of_digits {b : UInt8} {body : Source} (hdigit : isDigit b = true)
    (hbody : ∀ c ∈ body, isDigit c = true) : ∀ c ∈ b :: body, c < 0x80 := by
  rw [List.forall_mem_cons]
  refine ⟨lt_ascii_of_isWordByte (isWordByte_of_isDigit hdigit), ?_⟩
  intro c hc
  exact lt_ascii_of_isWordByte (isWordByte_of_isDigit (hbody c hc))

theorem lt_ascii_of_isPatternByte {b : UInt8} (h : isPatternByte b = true) : b < 0x80 := by
  simp only [isPatternByte, Bool.or_eq_true] at h
  rcases h with h | h
  · exact lt_ascii_of_isAlphanumeric h
  · revert h
    simp only [List.contains_cons, List.contains_nil, Bool.or_false, Bool.or_eq_true, beq_iff_eq]
    rintro (rfl | rfl | rfl | rfl | rfl | rfl) <;> decide

theorem lt_ascii_of_isAtomByte {b : UInt8} (h : isAtomByte b = true) : b < 0x80 := by
  simp only [isAtomByte, Bool.or_eq_true] at h
  rcases h with h | h
  · exact lt_ascii_of_isAlphanumeric h
  · revert h
    simp only [List.contains_cons, List.contains_nil, Bool.or_false, Bool.or_eq_true, beq_iff_eq]
    rintro (rfl | rfl | rfl | rfl | rfl) <;> decide

/-- Some bytes are scanned as a token of a kind before every byte that ends literals. -/
def Rescans (kind : Kind) (bytes : Source) : Prop :=
  ∃ b body, bytes = b :: body ∧ isSpace b = false ∧
    ∀ after, Closes after → scan b (body ++ after) = (kind, body)

theorem isSpace_eq_false_of_isWordByte {b : UInt8} (h : isWordByte b = true) :
    isSpace b = false := by
  rw [Bool.eq_false_iff]
  intro hspace
  simp only [isSpace, Bool.or_eq_true, beq_iff_eq] at hspace
  rcases hspace with rfl | rfl <;> exact absurd h (by decide)

theorem closes_stopped_wordByte {after : Source} (h : Closes after) :
    Stopped isWordByte after := by
  have hall : closers.all (fun c => !isWordByte c) = true := by decide
  apply h.stopped
  intro c hc
  simpa using List.all_eq_true.mp hall c hc

/-- The text of a name or a literal is scanned as a token of its kind.  An atom must
close all its parentheses. -/
theorem Spelling.rescans {kind : Kind} {bytes : Source} (h : Spelling kind bytes)
    (hleaf : kind ∈ leafKinds) (hbalanced : kind = .atom → BalancedParens bytes) :
    Rescans kind (Utf8.encode (Utf8.decode bytes)) := by
  cases h with
  | symbol hmem =>
      have hkinds : ∀ k ∈ leafKinds, k ∉ symbols.map (·.2) := by decide
      exact absurd rfl (symbol_ne hmem (hkinds kind hleaf))
  | comment | invalid => simp [leafKinds] at hleaf
  | @word b body hletter hbody =>
      rw [Utf8.encode_decode_of_ascii (lt_ascii_of_word hletter hbody)]
      refine ⟨b, body, rfl, ?_, ?_⟩
      · exact isSpace_eq_false_of_isWordByte (isWordByte_of_isLetter hletter)
      · intro after hafter
        exact scan_word hletter hbody (closes_stopped_wordByte hafter)
  | @number b body hdigit hbody =>
      rw [Utf8.encode_decode_of_ascii (lt_ascii_of_digits hdigit hbody)]
      refine ⟨b, body, rfl, ?_, ?_⟩
      · exact isSpace_eq_false_of_isWordByte (isWordByte_of_isDigit hdigit)
      · intro after hafter
        exact scan_number hdigit hbody (closes_stopped_wordByte hafter)
  | @pattern body hbody =>
      have hascii : ∀ c ∈ singleQuote :: (body ++ [singleQuote]), c < 0x80 := by
        intro c hc
        simp only [List.mem_cons, List.mem_append, List.not_mem_nil, or_false] at hc
        rcases hc with rfl | hc | rfl
        · decide
        · exact lt_ascii_of_isPatternByte (hbody c hc)
        · decide
      rw [Utf8.encode_decode_of_ascii hascii]
      refine ⟨singleQuote, body ++ [singleQuote], rfl, by decide, ?_⟩
      intro after _
      exact scan_pattern hbody after
  | @string body hbody =>
      have hquote : doubleQuote < 0x80 := by decide
      rw [Utf8.encode_decode_cons hquote]
      refine ⟨doubleQuote, _, rfl, by decide, ?_⟩
      intro after _
      exact scan_string (closedString_transcribed (Utf8.transcribed_encode_decode body) hbody) after
  | @atom body hne hall hbody =>
      have hascii : ∀ c ∈ 0x3a :: body, c < 0x80 := by
        rw [List.forall_mem_cons]
        refine ⟨by decide, ?_⟩
        intro c hc
        exact lt_ascii_of_isAtomByte (hall c hc)
      have hcount : BalancedParens body := by
        have hcount := hbalanced rfl
        simpa [BalancedParens, openParen, closeParen] using hcount
      rw [Utf8.encode_decode_of_ascii hascii]
      refine ⟨0x3a, body, rfl, by decide, ?_⟩
      intro after hafter
      exact scan_atom hne hall hbody hcount hafter

end Token

/-! ### Trimmed texts -/

namespace Text

variable {drop : Char → Bool}

/-- What is trimmed are the characters to drop. -/
theorem exists_trimEndChars_append (drop : Char → Bool) (chars : List Char) :
    ∃ dropped, trimEndChars drop chars ++ dropped = chars ∧ ∀ c ∈ dropped, drop c = true := by
  refine ⟨(chars.reverse.takeWhile drop).reverse, ?_, ?_⟩
  · rw [trimEndChars, ← List.reverse_append, List.takeWhile_append_dropWhile,
      List.reverse_reverse]
  · intro c hc
    rw [List.mem_reverse] at hc
    exact List.all_eq_true.mp List.all_takeWhile c hc

/-- Trimming drops characters at the end only. -/
theorem trimEndChars_isPrefix (drop : Char → Bool) (chars : List Char) :
    trimEndChars drop chars <+: chars := by
  rcases exists_trimEndChars_append drop chars with ⟨dropped, hchars, _⟩
  exact ⟨dropped, hchars⟩

/-- The last character left is none of those dropped. -/
theorem drop_getLast_trimEndChars {chars : List Char} {c : Char}
    (h : (trimEndChars drop chars).getLast? = some c) : drop c = false := by
  have hhead := List.head?_dropWhile_not drop chars.reverse
  rw [trimEndChars, List.getLast?_reverse] at h
  rw [h] at hhead
  exact hhead

/-- Trimming leaves alone what ends with a character that is not dropped. -/
theorem trimEndChars_append {xs : List Char} (h : ∀ c ∈ xs.getLast?, drop c = false)
    (ys : List Char) : trimEndChars drop (xs ++ ys) = xs ++ trimEndChars drop ys := by
  have hkept : xs.reverse.dropWhile drop = xs.reverse := by
    rcases hxs : xs.reverse with _ | ⟨c, cs⟩
    · rfl
    · have hc : drop c = false := h c (by rw [← List.head?_reverse, hxs]; rfl)
      rw [List.dropWhile_cons_of_neg (Bool.eq_false_iff.mp hc)]
  rw [trimEndChars, trimEndChars, List.reverse_append, List.dropWhile_append]
  split
  · rename_i hempty
    rw [hkept, List.isEmpty_iff.mp hempty, List.reverse_reverse, List.reverse_nil,
      List.append_nil]
  · rw [List.reverse_append, List.reverse_reverse]

/-- A character that is not dropped keeps its place in front. -/
theorem trimEndChars_cons {c : Char} (h : drop c = false) (cs : List Char) :
    trimEndChars drop (c :: cs) = c :: trimEndChars drop cs :=
  @trimEndChars_append drop [c] (by simpa using h) cs

/-- Trimming twice is trimming once. -/
theorem trimEndChars_idem (drop : Char → Bool) (chars : List Char) :
    trimEndChars drop (trimEndChars drop chars) = trimEndChars drop chars := by
  have hlast : ∀ c ∈ (trimEndChars drop chars).getLast?, drop c = false :=
    fun _ hc => drop_getLast_trimEndChars hc
  have htwice := trimEndChars_append hlast []
  rw [List.append_nil] at htwice
  rw [htwice]
  exact List.append_nil _

end Text

namespace Token

/-! ### Comments -/

theorem takeUntil_atLineEnd_append {xs : Source} (hline : 0x0a ∉ xs)
    (hlast : xs.getLast? ≠ some 0x0d) (rest : Source) :
    takeUntil atLineEnd (xs ++ 0x0a :: rest) = xs := by
  induction xs with
  | nil => simp [takeUntil, atLineEnd]
  | cons b bs ih =>
      have hb : b ≠ 0x0a := fun h => hline (h ▸ List.mem_cons_self)
      have hstop : atLineEnd (b :: (bs ++ 0x0a :: rest)) = false := by
        rcases bs with _ | ⟨c, cs⟩
        · have hreturn : b ≠ 0x0d := by simpa using hlast
          exact atLineEnd_of_ne hb hreturn _
        · have hc : c ≠ 0x0a := fun h => hline (h ▸ List.mem_cons_of_mem b List.mem_cons_self)
          exact atLineEnd_cons_cons hb hc _
      have hlast' : bs.getLast? ≠ some 0x0d := by
        rcases bs with _ | ⟨c, cs⟩
        · simp
        · simpa using hlast
      rw [List.cons_append, takeUntil, hstop]
      simp only [Bool.false_eq_true, if_false]
      rw [ih (fun h => hline (List.mem_cons_of_mem b h)) hlast']

/-- The rest of a line holds no line end. -/
theorem newLine_not_mem_of_takeUntil {bs : Source} (h : takeUntil atLineEnd bs = bs) :
    0x0a ∉ bs := by
  induction bs with
  | nil => simp
  | cons b bs ih =>
      rw [takeUntil] at h
      split at h
      · simp at h
      · rename_i hstop
        have hb : b ≠ 0x0a := ne_newLine_of_not_atLineEnd (by simpa using hstop)
        simp only [List.cons.injEq, true_and] at h
        simp only [List.mem_cons, not_or]
        exact ⟨Ne.symm hb, ih h⟩

/-- A character whose bytes end in a carriage return is a carriage return. -/
theorem eq_return_of_getLast {c : Char} (h : (String.utf8EncodeChar c).getLast? = some 0x0d) :
    c = '\r' := by
  by_cases hascii : c.val.toNat < 0x80
  · unfold String.utf8EncodeChar at h
    simp only at h
    rw [if_pos (by omega)] at h
    have hbyte : UInt8.ofNat c.val.toNat = 0x0d := Option.some.inj h
    have hvalue : c.val.toNat = 13 := by
      rw [← Utf8.toNat_ofNat_of_lt (n := c.val.toNat) (by omega), hbyte]
      rfl
    have hchar : Char.ofNat c.val.toNat = c := Char.ofNat_toNat c
    rw [← hchar, hvalue]
  · have hrun := Utf8.highRun_encodeChar (c := c) (by omega)
    have hhigh := hrun.high _ (List.mem_of_getLast? h)
    exact absurd hhigh (by decide)

/-- A comment without the white space at its end is scanned as a comment. -/
theorem scan_trimmed_comment {body : Source} (hbody : takeUntil atLineEnd body = body) :
    ∃ body', Utf8.encode (Text.trimEnd Text.isBlank (Utf8.decode (0x23 :: body))) = 0x23 :: body' ∧
      ∀ rest, scan 0x23 (body' ++ 0x0a :: rest) = (.comment, body') := by
  have hsign : (0x23 : UInt8) < 0x80 := by decide
  have hblank : Text.isBlank (Char.ofNat (0x23 : UInt8).toNat) = false := by decide
  refine ⟨Utf8.encodeChars (Text.trimEndChars Text.isBlank (Utf8.decodeChars body)), ?_, ?_⟩
  · rw [Text.trimEnd, Utf8.decode, String.toList_ofList, Utf8.decode_ascii hsign,
      Text.trimEndChars_cons hblank, Utf8.encode, String.toList_ofList, List.flatMap_cons,
      Utf8.encodeChar_ascii hsign]
    rfl
  · intro rest
    apply scan_comment
    have hfront := Text.trimEndChars_isPrefix Text.isBlank (Utf8.decodeChars body)
    apply takeUntil_atLineEnd_append
    · intro hmem
      rcases hfront with ⟨dropped, hdropped⟩
      have hline : (0x0a : UInt8) ∈ Utf8.encode (Utf8.decode body) := by
        rw [Utf8.encode, Utf8.decode, String.toList_ofList, ← hdropped, List.flatMap_append]
        exact List.mem_append_left _ hmem
      have hbody' := (Utf8.transcribed_encode_decode body).mem_of_ascii (by decide) hline
      exact newLine_not_mem_of_takeUntil hbody hbody'
    · intro hlast
      rcases List.eq_nil_or_concat (Text.trimEndChars Text.isBlank (Utf8.decodeChars body)) with
        hnil | ⟨chars, c, hchars⟩
      · rw [hnil] at hlast
        simp [Utf8.encodeChars] at hlast
      · have hkept : Text.isBlank c = false := by
          have hgetLast : (Text.trimEndChars Text.isBlank (Utf8.decodeChars body)).getLast? =
              some c := by
            rw [hchars]
            simp
          exact Text.drop_getLast_trimEndChars hgetLast
        have hreturn : (String.utf8EncodeChar c).getLast? = some 0x0d := by
          rw [hchars, Utf8.encodeChars, List.concat_eq_append, List.flatMap_append,
            List.flatMap_singleton, List.getLast?_append] at hlast
          rcases hc : (String.utf8EncodeChar c).getLast? with _ | b
          · exact absurd (List.getLast?_eq_none_iff.mp hc) String.utf8EncodeChar_ne_nil
          · rw [hc] at hlast
            exact hlast
        rw [eq_return_of_getLast hreturn] at hkept
        exact absurd hkept (by decide)

/-! ### Tokens at the front of a source -/

/-- The token of some bytes that are scanned as a whole. -/
theorem tokensFrom_of_scan {b : UInt8} {body after : Source} {kind : Kind}
    (hspace : isSpace b = false) (hscan : scan b (body ++ after) = (kind, body)) (offset : Nat) :
    ∃ t offset', t.kind = kind ∧ t.bytes = b :: body ∧
      tokensFrom offset (b :: body ++ after) = t :: tokensFrom offset' after := by
  rw [List.cons_append, tokensFrom_cons hspace, hscan]
  exact ⟨_, _, rfl, rfl, by rw [List.drop_left]⟩

/-- A symbol in front of a source is its first token, unless an equals sign extends it. -/
theorem symbol_token {bytes after : Source} {kind : Kind} (h : (bytes, kind) ∈ symbols)
    (hafter : kind ∈ extendable → after.head? ≠ some 0x3d) (offset : Nat) :
    ∃ t offset', t.kind = kind ∧
      tokensFrom offset (bytes ++ after) = t :: tokensFrom offset' after := by
  have hspaces : ∀ s ∈ symbols, s.1.head?.map isSpace = some false := by decide
  have hspace := hspaces _ h
  rcases bytes with _ | ⟨b, body⟩
  · simp at hspace
  · have hb : isSpace b = false := by simpa using hspace
    rcases tokensFrom_of_scan hb (scan_symbol h hafter) offset with ⟨t, offset', hkind, _, htokens⟩
    exact ⟨t, offset', hkind, htokens⟩

/-- A keyword in front of a source is its first token, unless the word goes on. -/
theorem keyword_token {word : String} {after : Source} {kind : Kind}
    (h : (word, kind) ∈ keywords) (hafter : Stopped isWordByte after) (offset : Nat) :
    ∃ t offset', t.kind = kind ∧
      tokensFrom offset (Utf8.encode word ++ after) = t :: tokensFrom offset' after := by
  have hkeyword : ∃ b body, Utf8.encode word = b :: body ∧ isLetter b = true ∧
      body.all isWordByte = true ∧ wordKind (b :: body) = kind := by
    simp only [keywords, List.mem_cons, Prod.mk.injEq, List.not_mem_nil, or_false] at h
    rcases h with ⟨rfl, rfl⟩ | ⟨rfl, rfl⟩ | ⟨rfl, rfl⟩
    · exact ⟨0x6c, [0x65, 0x74], by decide⟩
    · exact ⟨0x69, [0x66], by decide⟩
    · exact ⟨0x65, [0x6c, 0x73, 0x65], by decide⟩
  rcases hkeyword with ⟨b, body, hbytes, hletter, hbody, hkind⟩
  have hspace := isSpace_eq_false_of_isWordByte (isWordByte_of_isLetter hletter)
  have hscan := scan_word hletter (List.all_eq_true.mp hbody) hafter
  rcases tokensFrom_of_scan hspace hscan offset with ⟨t, offset', hkind', _, htokens⟩
  rw [hbytes]
  exact ⟨t, offset', hkind'.trans hkind, htokens⟩

/-- Spaces in front of a source only move its tokens. -/
theorem tokensFrom_spaces (n offset : Nat) (after : Source) :
    ∃ offset', tokensFrom offset (List.replicate n 0x20 ++ after) = tokensFrom offset' after := by
  induction n generalizing offset with
  | zero => exact ⟨offset, rfl⟩
  | succ n ih =>
      rw [List.replicate_succ, List.cons_append, tokensFrom_space (by decide)]
      exact ih (offset + 1)

end Token
end Shellward
