import Shellward.Shell.Layout

/-!
# Replacements in the shell

The expansion that replaces a text has one or two slashes, the text, a slash and the
substitute.  Words keep their double quotes only where they need them, and a slash needs none.
So a slash in a word without quotes may be taken for one of those that stand between the words.

Main results:

- Theorem `Shell.split_words`: two words before slashes that are written alike are equal, or both
  are bare and one of them goes on after a slash.
- Theorem `Replacement.ambiguous_of_chars_eq`: only ambiguous replacements are written like
  others.
- Theorem `Replacement.exists_twin`: every ambiguous replacement is.
-/

namespace Shellward
namespace Shell

/-! ### Words -/

/-- Whether a character may stand in a word without quotes. -/
def isWordChar (c : Char) : Bool :=
  !(Text.isBlank c || specials.contains c)

/-- A plain word has characters, all of which may stand in a word without quotes. -/
theorem isPlainWord_iff {chars : List Char} :
    isPlainWord chars = true ↔ chars ≠ [] ∧ ∀ c ∈ chars, isWordChar c = true := by
  simp only [isPlainWord, isWordChar, Bool.and_eq_true, Bool.not_eq_true',
    List.isEmpty_eq_false_iff, List.all_eq_true]

theorem isWordChar_slash : isWordChar '/' = true := by decide

/-- The characters of a text as a word: without double quotes where they make no difference. -/
def wordChars (chars : List Char) : List Char :=
  if isPlainWord chars then chars else '\x22' :: (chars ++ ['\x22'])

theorem wordChars_of_plain {chars : List Char} (h : isPlainWord chars = true) :
    wordChars chars = chars :=
  if_pos h

theorem wordChars_of_not_plain {chars : List Char} (h : isPlainWord chars = false) :
    wordChars chars = '\x22' :: (chars ++ ['\x22']) :=
  if_neg (by simp [h])

theorem wordChars_ne_nil (chars : List Char) : wordChars chars ≠ [] := by
  cases h : isPlainWord chars with
  | true =>
      rw [wordChars_of_plain h]
      exact (isPlainWord_iff.mp h).1
  | false =>
      rw [wordChars_of_not_plain h]
      exact List.cons_ne_nil _ _

/-- A text in double quotes is written as a word. -/
theorem toList_bareText (chars : List Char) :
    (bareText (String.ofList ('\x22' :: (chars ++ ['\x22'])))).toList = wordChars chars := by
  have hunquote : unquote? ('\x22' :: (chars ++ ['\x22'])) = some chars := by
    simp [unquote?]
  rw [bareText, String.toList_ofList, hunquote]
  cases h : isPlainWord chars with
  | true => simp [h, wordChars]
  | false => simp [h, wordChars]

/-- A word without a double quote is bare. -/
theorem isPlainWord_of_wordChars {chars : List Char}
    (h : ∀ c ∈ wordChars chars, isWordChar c = true) : isPlainWord chars = true := by
  cases hplain : isPlainWord chars with
  | true => rfl
  | false =>
      rw [wordChars_of_not_plain hplain] at h
      exact absurd (h '\x22' List.mem_cons_self) (by decide)

/-- Words that are written alike are equal. -/
theorem wordChars_injective {f g : List Char} (h : wordChars f = wordChars g) : f = g := by
  have hmixed : ∀ {f g : List Char}, isPlainWord f = true → isPlainWord g = false →
      wordChars f ≠ wordChars g := by
    intro f g hf hg heq
    rw [wordChars_of_plain hf, wordChars_of_not_plain hg] at heq
    rw [heq] at hf
    exact absurd ((isPlainWord_iff.mp hf).2 '\x22' List.mem_cons_self) (by decide)
  cases hf : isPlainWord f with
  | true =>
      cases hg : isPlainWord g with
      | true => rwa [wordChars_of_plain hf, wordChars_of_plain hg] at h
      | false => exact absurd h (hmixed hf hg)
  | false =>
      cases hg : isPlainWord g with
      | true => exact absurd h.symm (hmixed hg hf)
      | false =>
          rw [wordChars_of_not_plain hf, wordChars_of_not_plain hg] at h
          exact List.append_cancel_right (List.cons.inj h).2

/-- Characters of a bare word and a slash do not begin with a double quote. -/
theorem append_slash_ne_quote {before u v : List Char}
    (hbefore : ∀ c ∈ before, isWordChar c = true) : before ++ '/' :: u ≠ '\x22' :: v := by
  intro h
  cases before with
  | nil => exact absurd (List.cons.inj h).1 (by decide)
  | cons c before =>
      have hc := hbefore c List.mem_cons_self
      rw [(List.cons.inj h).1] at hc
      exact absurd hc (by decide)

/-- A word that begins with characters of a bare one and a slash is bare itself, and so is the
word that ends it. -/
theorem plain_of_wordChars_eq {chars before last : List Char}
    (hbefore : ∀ c ∈ before, isWordChar c = true)
    (h : wordChars chars = before ++ '/' :: wordChars last) :
    isPlainWord chars = true ∧ isPlainWord last = true := by
  have hplain : isPlainWord chars = true := by
    cases hplain : isPlainWord chars with
    | true => rfl
    | false =>
        rw [wordChars_of_not_plain hplain] at h
        exact absurd h.symm (append_slash_ne_quote hbefore)
  refine ⟨hplain, isPlainWord_of_wordChars fun c hc => ?_⟩
  apply (isPlainWord_iff.mp hplain).2
  rw [wordChars_of_plain hplain] at h
  rw [h]
  exact List.mem_append_right _ (List.mem_cons_of_mem _ hc)

/-! ### Words before slashes -/

/-- What may stand in double quotes: all bare words may, and the text tells where the closing
quote is. -/
structure Contents (L : List Char → Prop) : Prop where
  plain : ∀ {chars : List Char}, isPlainWord chars = true → L chars
  closes : ∀ {f g u w : List Char}, L f → L g → f ++ '\x22' :: u = g ++ '\x22' :: w → f = g

variable {L : List Char → Prop}

/-- How two words before slashes can be written alike: they are equal, or both are bare and one
of them goes on after a slash. -/
inductive SameBefore (f u g w : List Char) : Prop where
  | equal : f = g → u = w → SameBefore f u g w
  | longer (more : List Char) : isPlainWord f = true → isPlainWord g = true →
      g = f ++ '/' :: more → u = more ++ '/' :: w → SameBefore f u g w
  | shorter (more : List Char) : isPlainWord f = true → isPlainWord g = true →
      f = g ++ '/' :: more → w = more ++ '/' :: u → SameBefore f u g w

/-- Two words that are written alike before slashes are the same, or are bare and one goes on
after a slash. -/
theorem split_words (hL : Contents L) {f g u w : List Char} (hf : L f) (hg : L g)
    (h : wordChars f ++ '/' :: u = wordChars g ++ '/' :: w) : SameBefore f u g w := by
  have hmixed : ∀ {f g u w : List Char}, isPlainWord f = true → isPlainWord g = false →
      wordChars f ++ '/' :: u ≠ wordChars g ++ '/' :: w := by
    intro f g u w hf hg heq
    rw [wordChars_of_plain hf, wordChars_of_not_plain hg] at heq
    exact append_slash_ne_quote (isPlainWord_iff.mp hf).2 heq
  cases hfplain : isPlainWord f with
  | false =>
      cases hgplain : isPlainWord g with
      | true => exact absurd h.symm (hmixed hgplain hfplain)
      | false =>
          rw [wordChars_of_not_plain hfplain, wordChars_of_not_plain hgplain] at h
          simp only [List.cons_append, List.append_assoc, List.nil_append, List.cons.injEq,
            true_and] at h
          have hfg := hL.closes hf hg h
          rw [hfg] at h
          have htails := List.append_cancel_left h
          exact .equal hfg (List.cons.inj (List.cons.inj htails).2).2
  | true =>
      cases hgplain : isPlainWord g with
      | false => exact absurd h (hmixed hfplain hgplain)
      | true =>
          rw [wordChars_of_plain hfplain, wordChars_of_plain hgplain] at h
          rcases List.append_eq_append_iff.mp h with ⟨more, hfg, hu⟩ | ⟨more, hfg, hu⟩
          · cases more with
            | nil => exact .equal (by simpa using hfg.symm) (List.cons.inj hu).2
            | cons c more =>
                rw [← (List.cons.inj hu).1] at hfg
                exact .longer more hfplain hgplain hfg (List.cons.inj hu).2
          · cases more with
            | nil => exact .equal (by simpa using hfg) (List.cons.inj hu).2.symm
            | cons c more =>
                rw [← (List.cons.inj hu).1] at hfg
                exact .shorter more hfplain hgplain hfg (List.cons.inj hu).2

end Shell

/-! ### Replacements -/

open Shell

variable {L : List Char → Prop}

/-- Texts and whether the first one is replaced by the other everywhere or once. -/
structure Replacement where
  everywhere : Bool
  find : List Char
  substitute : List Char
deriving DecidableEq

namespace Replacement

/-- What stands after the name of the variable. -/
def chars (c : Replacement) : List Char :=
  (if c.everywhere then ['/', '/'] else ['/']) ++
    (wordChars c.find ++ '/' :: wordChars c.substitute)

/-- The text that is replaced is bare, and it is replaced everywhere, or begins with a slash
and has more, or the substitute is bare and there is a slash in the text but at its front, or in
the substitute but at its end. -/
def Ambiguous (c : Replacement) : Prop :=
  isPlainWord c.find = true ∧
    (c.everywhere = true ∨ (c.find.head? = some '/' ∧ c.find ≠ ['/']) ∨
      (isPlainWord c.substitute = true ∧ ('/' ∈ c.find.tail ∨ '/' ∈ c.substitute.dropLast)))

instance : DecidablePred Ambiguous := fun c =>
  inferInstanceAs (Decidable (isPlainWord c.find = true ∧
    (c.everywhere = true ∨ (c.find.head? = some '/' ∧ c.find ≠ ['/']) ∨
      (isPlainWord c.substitute = true ∧
        ('/' ∈ c.find.tail ∨ '/' ∈ c.substitute.dropLast)))))

/-- Both texts may stand in double quotes. -/
def Holds (L : List Char → Prop) (c : Replacement) : Prop :=
  L c.find ∧ L c.substitute

theorem mem_dropLast_append {c : Char} {before last : List Char} (h : last ≠ []) :
    c ∈ (before ++ c :: last).dropLast := by
  rw [List.dropLast_append_of_ne_nil (List.cons_ne_nil _ _), List.dropLast_cons_of_ne_nil h]
  exact List.mem_append_right _ List.mem_cons_self

/-- Replacements that are both everywhere or both once, and are written alike. -/
theorem ambiguous_of_words_eq (hL : Contents L) {c c' : Replacement} (hc : c.Holds L)
    (hc' : c'.Holds L) (hne : ¬ (c.find = c'.find ∧ c.substitute = c'.substitute))
    (h : wordChars c.find ++ '/' :: wordChars c.substitute =
      wordChars c'.find ++ '/' :: wordChars c'.substitute) : c.Ambiguous := by
  cases split_words hL hc.1 hc'.1 h with
  | equal hfind hsubstitute => exact absurd ⟨hfind, wordChars_injective hsubstitute⟩ hne
  | longer more hfind hfind' hlonger hsubstitute =>
      have hmore : ∀ d ∈ more, isWordChar d = true := by
        intro d hd
        apply (isPlainWord_iff.mp hfind').2
        rw [hlonger]
        exact List.mem_append_right _ (List.mem_cons_of_mem _ hd)
      have hplain := (plain_of_wordChars_eq hmore hsubstitute).1
      refine ⟨hfind, .inr (.inr ⟨hplain, .inr ?_⟩)⟩
      rw [wordChars_of_plain hplain] at hsubstitute
      rw [hsubstitute]
      exact mem_dropLast_append (wordChars_ne_nil _)
  | shorter more hfind hfind' hshorter hsubstitute =>
      have hmore : ∀ d ∈ more, isWordChar d = true := by
        intro d hd
        apply (isPlainWord_iff.mp hfind).2
        rw [hshorter]
        exact List.mem_append_right _ (List.mem_cons_of_mem _ hd)
      refine ⟨hfind, .inr (.inr ⟨(plain_of_wordChars_eq hmore hsubstitute).2, .inl ?_⟩)⟩
      rw [hshorter, List.tail_append_of_ne_nil (isPlainWord_iff.mp hfind').1]
      exact List.mem_append_right _ List.mem_cons_self

/-- A word that is written after a slash begins with one itself if it is bare. -/
theorem exists_of_slash {f u w : List Char} (h : wordChars f ++ '/' :: u = '/' :: w) :
    ∃ rest, f = '/' :: rest ∧ isPlainWord f = true ∧ rest ++ '/' :: u = w := by
  cases hplain : isPlainWord f with
  | false =>
      rw [wordChars_of_not_plain hplain] at h
      exact absurd (List.cons.inj h).1 (by decide)
  | true =>
      rw [wordChars_of_plain hplain] at h
      cases f with
      | nil => exact absurd rfl (isPlainWord_iff.mp hplain).1
      | cons c rest =>
          rcases List.cons.inj h with ⟨rfl, hrest⟩
          exact ⟨rest, rfl, rfl, hrest⟩

/-- Only ambiguous replacements are written like others. -/
theorem ambiguous_of_chars_eq (hL : Contents L) {c c' : Replacement} (hc : c.Holds L)
    (hc' : c'.Holds L) (hne : c' ≠ c) (h : c'.chars = c.chars) : c.Ambiguous := by
  rcases c with ⟨everywhere, find, substitute⟩
  rcases c' with ⟨everywhere', find', substitute'⟩
  cases everywhere with
  | true =>
      cases everywhere' with
      | true =>
          apply ambiguous_of_words_eq hL hc hc'
          · rintro ⟨rfl, rfl⟩
            exact hne rfl
          · exact (List.cons.inj (List.cons.inj h).2).2.symm
      | false =>
          rcases exists_of_slash (List.cons.inj h).2 with ⟨rest, rfl, hfind', hrest⟩
          refine ⟨?_, .inl rfl⟩
          cases hfind : isPlainWord find with
          | true => rfl
          | false =>
              rw [wordChars_of_not_plain hfind] at hrest
              have hbefore := (List.forall_mem_cons.mp (isPlainWord_iff.mp hfind').2).2
              exact absurd hrest (append_slash_ne_quote hbefore)
  | false =>
      cases everywhere' with
      | false =>
          apply ambiguous_of_words_eq hL hc hc'
          · rintro ⟨rfl, rfl⟩
            exact hne rfl
          · exact (List.cons.inj h).2.symm
      | true =>
          rcases exists_of_slash (List.cons.inj h).2.symm with ⟨rest, rfl, hfind, hrest⟩
          refine ⟨hfind, .inr ?_⟩
          cases rest with
          | cons d rest => exact .inl ⟨rfl, by simp⟩
          | nil =>
              rcases exists_of_slash hrest.symm with ⟨rest', rfl, hfind', hrest'⟩
              have hbefore := (List.forall_mem_cons.mp (isPlainWord_iff.mp hfind').2).2
              have hplain := (plain_of_wordChars_eq hbefore hrest'.symm).1
              rw [wordChars_of_plain hplain] at hrest'
              refine .inr ⟨hplain, .inr ?_⟩
              rw [← hrest']
              exact mem_dropLast_append (wordChars_ne_nil _)

/-- Another replacement that is written alike. -/
def Twin (L : List Char → Prop) (c c' : Replacement) : Prop :=
  c' ≠ c ∧ c'.Holds L ∧ c'.chars = c.chars

/-- The second slash becomes the first character of the text. -/
theorem twin_of_everywhere (hL : Contents L) {find substitute : List Char}
    (hfind : isPlainWord find = true) (hsubstitute : L substitute) :
    Twin L ⟨true, find, substitute⟩ ⟨false, '/' :: find, substitute⟩ := by
  have hplain : isPlainWord ('/' :: find) = true := by
    rw [isPlainWord_iff, List.forall_mem_cons]
    exact ⟨List.cons_ne_nil _ _, isWordChar_slash, (isPlainWord_iff.mp hfind).2⟩
  refine ⟨by simp, ⟨hL.plain hplain, hsubstitute⟩, ?_⟩
  rw [chars, chars, wordChars_of_plain hplain, wordChars_of_plain hfind]
  rfl

/-- The first character of the text becomes the second slash. -/
theorem twin_of_head (hL : Contents L) {rest substitute : List Char} (hrest : rest ≠ [])
    (hfind : isPlainWord ('/' :: rest) = true) (hsubstitute : L substitute) :
    Twin L ⟨false, '/' :: rest, substitute⟩ ⟨true, rest, substitute⟩ := by
  have hplain : isPlainWord rest = true :=
    isPlainWord_iff.mpr ⟨hrest, (List.forall_mem_cons.mp (isPlainWord_iff.mp hfind).2).2⟩
  refine ⟨by simp, ⟨hL.plain hplain, hsubstitute⟩, ?_⟩
  rw [chars, chars, wordChars_of_plain hplain, wordChars_of_plain hfind]
  rfl

/-- Another slash of bare texts becomes the one between them. -/
theorem twin_of_inner (hL : Contents L) (everywhere : Bool) {first middle last : List Char}
    (hfirst : first ≠ []) (hlast : last ≠ [])
    (h : ∀ c ∈ first ++ '/' :: (middle ++ '/' :: last), isWordChar c = true) :
    Twin L ⟨everywhere, first ++ '/' :: middle, last⟩ ⟨everywhere, first, middle ++ '/' :: last⟩ ∧
      Twin L ⟨everywhere, first, middle ++ '/' :: last⟩
        ⟨everywhere, first ++ '/' :: middle, last⟩ := by
  have hplain : isPlainWord (first ++ '/' :: middle) = true ∧ isPlainWord last = true ∧
      isPlainWord first = true ∧ isPlainWord (middle ++ '/' :: last) = true := by
    simp only [isPlainWord_iff, List.forall_mem_append, List.forall_mem_cons] at h ⊢
    exact ⟨⟨by simp, h.1, h.2.1, h.2.2.1⟩, ⟨hlast, h.2.2.2.2⟩, ⟨hfirst, h.1⟩,
      ⟨by simp, h.2.2⟩⟩
  rcases hplain with ⟨hlong, hshort, hfirst, hlast⟩
  have hchars : chars ⟨everywhere, first, middle ++ '/' :: last⟩ =
      chars ⟨everywhere, first ++ '/' :: middle, last⟩ := by
    rw [chars, chars, wordChars_of_plain hlong, wordChars_of_plain hshort,
      wordChars_of_plain hfirst, wordChars_of_plain hlast, List.append_assoc, List.cons_append]
  have hne : (⟨everywhere, first, middle ++ '/' :: last⟩ : Replacement) ≠
      ⟨everywhere, first ++ '/' :: middle, last⟩ := by simp
  exact ⟨⟨hne, ⟨hL.plain hfirst, hL.plain hlast⟩, hchars⟩,
    ⟨hne.symm, ⟨hL.plain hlong, hL.plain hshort⟩, hchars.symm⟩⟩

/-- Bare texts have such a slash if one of them has a slash that is neither the first nor the
last character of both. -/
theorem exists_twin_of_inner (hL : Contents L) (everywhere : Bool) {find substitute : List Char}
    (hfind : isPlainWord find = true) (hsubstitute : isPlainWord substitute = true)
    (hslash : '/' ∈ find.tail ∨ '/' ∈ substitute.dropLast) :
    ∃ c', Twin L ⟨everywhere, find, substitute⟩ c' := by
  rw [isPlainWord_iff] at hfind hsubstitute
  have hall : ∀ c ∈ find ++ '/' :: substitute, isWordChar c = true :=
    List.forall_mem_append.mpr
      ⟨hfind.2, List.forall_mem_cons.mpr ⟨isWordChar_slash, hsubstitute.2⟩⟩
  rcases hslash with hslash | hslash
  · cases find with
    | nil => exact absurd rfl hfind.1
    | cons a rest =>
        rcases List.append_of_mem hslash with ⟨before, middle, hrest⟩
        have hrest : rest = before ++ '/' :: middle := hrest
        subst hrest
        have hall : ∀ c ∈ (a :: before) ++ '/' :: (middle ++ '/' :: substitute),
            isWordChar c = true := by
          simpa using hall
        exact ⟨_, (twin_of_inner hL everywhere (List.cons_ne_nil a before) hsubstitute.1 hall).1⟩
  · rcases List.append_of_mem hslash with ⟨middle, after, hdrop⟩
    have hsplit : substitute = middle ++ '/' :: (after ++ [substitute.getLast hsubstitute.1]) := by
      have hlast := List.dropLast_concat_getLast hsubstitute.1
      rw [hdrop] at hlast
      simpa using hlast.symm
    rw [hsplit] at hall ⊢
    exact ⟨_, (twin_of_inner hL everywhere hfind.1 (by simp) hall).2⟩

/-- Every ambiguous replacement is written like another one. -/
theorem exists_twin (hL : Contents L) {c : Replacement} (hc : c.Holds L) (h : c.Ambiguous) :
    ∃ c', Twin L c c' := by
  rcases c with ⟨everywhere, find, substitute⟩
  rcases h with ⟨hfind, hslash⟩
  cases everywhere with
  | true => exact ⟨_, twin_of_everywhere hL hfind hc.2⟩
  | false =>
      rcases hslash with heverywhere | ⟨hhead, hne⟩ | ⟨hsubstitute, hslash⟩
      · exact absurd heverywhere Bool.false_ne_true
      · rcases List.head?_eq_some_iff.mp hhead with ⟨rest, rfl⟩
        exact ⟨_, twin_of_head hL (by simpa using hne) hfind hc.2⟩
      · exact exists_twin_of_inner hL false hfind hsubstitute hslash

end Replacement
end Shellward
