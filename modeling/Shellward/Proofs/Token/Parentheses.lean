import Shellward.Proofs.Token.Rescan
import Shellward.Proofs.Token.Tiling

/-!
# Parentheses in atoms

An atom may hold parentheses, and a closing one that closes none of its own ends it.  So no
atom takes a closing parenthesis from around it.  Nothing asks that an atom closes all
parentheses that it opens, though: if the bytes up to the next delimiter leave one open, they
are all taken.

Main results:

- Theorem `Token.closesWithin_atomBody`: an atom closes only parentheses that it opens.
- Theorem `Token.atomBody_eq_untilDelimiter`: if the bytes up to the next delimiter close only
  their own parentheses, they are the atom.
- Theorem `Token.balanced_atomBody`: otherwise the atom closes all parentheses that it opens.
- Theorem `Token.atom_balanced_iff`: which atoms of a script are balanced.
-/

namespace Shellward
namespace Token

/-! ### Tokens and the bytes they begin at -/

/-- Every token is what is scanned at the place where it starts. -/
theorem exists_scan_of_mem_tokensFrom {t : Token} {offset : Nat} {bytes : Source}
    (h : t ∈ tokensFrom offset bytes) :
    ∃ n b bs, t.span.start = offset + n ∧ bytes.drop n = b :: bs ∧
      t.kind = (scan b bs).1 ∧ t.bytes = b :: (scan b bs).2 := by
  fun_induction tokensFrom offset bytes with
  | case1 => simp at h
  | case2 offset b bs hspace ih =>
      rcases ih h with ⟨n, c, cs, hstart, hdrop, hscan⟩
      exact ⟨n + 1, c, cs, by omega, by simpa using hdrop, hscan⟩
  | case3 offset b bs hspace kind body hscan ih =>
      rcases List.mem_cons.mp h with rfl | h
      · exact ⟨0, b, bs, rfl, rfl, by rw [hscan], by rw [hscan]⟩
      · rcases ih h with ⟨n, c, cs, hstart, hdrop, hscan⟩
        refine ⟨n + (1 + body.length), c, cs, by omega, ?_, hscan⟩
        rw [List.drop_drop] at hdrop
        rw [← hdrop, show n + (1 + body.length) = body.length + n + 1 by omega, List.drop_succ_cons]

/-- Only the scanner of atoms makes atoms. -/
theorem atomBody_of_scan {b : UInt8} {bs : Source} (h : (scan b bs).1 = .atom) :
    b = 0x3a ∧ (scan b bs).2 = atomBody 0 bs := by
  unfold scan at h ⊢
  split at h
  · rename_i found hfound
    rcases List.exists_of_findSome?_eq_some hfound with ⟨scanner, hmem, hscanner⟩
    simp only [scanners, List.mem_cons, List.not_mem_nil, or_false] at hmem
    rcases hmem with rfl | rfl | rfl | rfl | rfl | rfl | rfl
    · simp only [scanSymbol, Option.map_eq_some_iff] at hscanner
      rcases hscanner with ⟨⟨bytes, kind⟩, hfind, rfl⟩
      exact absurd h (symbol_ne (List.mem_of_find?_eq_some hfind) (by decide))
    · simp only [scanWord] at hscanner
      split at hscanner <;> simp only [Option.some.injEq, reduceCtorEq] at hscanner
      rw [← hscanner] at h
      exact absurd h (wordKind_ne (by decide) (by decide) _)
    · simp only [scanNumber] at hscanner
      split at hscanner <;> simp only [Option.some.injEq, reduceCtorEq] at hscanner
      rw [← hscanner] at h
      split at h <;> simp at h
    · simp only [scanPattern] at hscanner
      split at hscanner <;> try simp at hscanner
      split at hscanner <;> simp only [Option.some.injEq] at hscanner <;> rw [← hscanner] at h
      · split at h <;> simp at h
      · simp at h
    · simp only [scanString] at hscanner
      split at hscanner <;> simp only [Option.some.injEq, reduceCtorEq] at hscanner
      rw [← hscanner] at h
      split at h <;> simp at h
    · simp only [scanAtom] at hscanner
      split at hscanner <;> simp only [Option.some.injEq, reduceCtorEq] at hscanner
      rename_i hcolon
      rw [← hscanner]
      exact ⟨hcolon, rfl⟩
    · simp only [scanComment] at hscanner
      split at hscanner <;> simp only [Option.some.injEq, reduceCtorEq] at hscanner
      rw [← hscanner] at h
      simp at h
  · simp at h

/-- An atom is a colon followed by bytes that atoms may hold. -/
theorem Spelling.of_atom {kind : Kind} {bytes : Source} (h : Spelling kind bytes)
    (hkind : kind = .atom) :
    ∃ body, bytes = 0x3a :: body ∧ body ≠ [] ∧ ∀ b ∈ body, isAtomByte b = true := by
  cases h with
  | symbol hmem => exact absurd hkind (symbol_ne hmem (by decide))
  | word => exact absurd hkind (wordKind_ne (by decide) (by decide) _)
  | @atom body hne hall _ => exact ⟨body, rfl, hne, hall⟩
  | number | pattern | string | comment | invalid => simp at hkind

/-! ### Bytes inside open parentheses -/

/-- Inside `depth` open parentheses, no beginning of some bytes closes more parentheses than
are open. -/
def ClosesWithin (depth : Nat) (bytes : Source) : Prop :=
  ∀ front, front <+: bytes → front.count closeParen ≤ depth + front.count openParen

section ClosesWithin

variable {depth : Nat} {b : UInt8} {bytes : Source}

theorem closesWithin_nil (depth : Nat) : ClosesWithin depth [] := by
  intro front hfront
  simp [List.prefix_nil.mp hfront]

/-- The empty beginning closes nothing, so only the others count. -/
theorem closesWithin_cons_iff :
    ClosesWithin depth (b :: bytes) ↔
      ∀ front, front <+: bytes →
        (b :: front).count closeParen ≤ depth + (b :: front).count openParen := by
  constructor
  · intro h front hfront
    exact h _ ((List.prefix_cons_inj b).mpr hfront)
  · intro h front hfront
    rcases front with _ | ⟨c, front⟩
    · simp
    · rcases List.cons_prefix_cons.mp hfront with ⟨rfl, hrest⟩
      exact h front hrest

/-- A parenthesis that is opened may be closed after it. -/
theorem closesWithin_open_iff :
    ClosesWithin depth (openParen :: bytes) ↔ ClosesWithin (depth + 1) bytes := by
  have hne : openParen ≠ closeParen := by decide
  rw [closesWithin_cons_iff]
  refine forall₂_congr fun front _ => ?_
  rw [List.count_cons_self, List.count_cons_of_ne hne]
  omega

/-- A parenthesis that is closed was open before it. -/
theorem closesWithin_close_iff :
    ClosesWithin (depth + 1) (closeParen :: bytes) ↔ ClosesWithin depth bytes := by
  have hne : closeParen ≠ openParen := by decide
  rw [closesWithin_cons_iff]
  refine forall₂_congr fun front _ => ?_
  rw [List.count_cons_self, List.count_cons_of_ne hne]
  omega

theorem not_closesWithin_close : ¬ ClosesWithin 0 (closeParen :: bytes) := by
  intro h
  have hfirst := h [closeParen] ((List.prefix_cons_inj closeParen).mpr List.nil_prefix)
  revert hfirst
  decide

/-- Other bytes neither open nor close a parenthesis. -/
theorem closesWithin_other_iff (hopen : b ≠ openParen) (hclose : b ≠ closeParen) :
    ClosesWithin depth (b :: bytes) ↔ ClosesWithin depth bytes := by
  rw [closesWithin_cons_iff]
  refine forall₂_congr fun front _ => ?_
  rw [List.count_cons_of_ne hopen, List.count_cons_of_ne hclose]

end ClosesWithin

/-! ### Atoms -/

/-- The bytes up to the next delimiter. -/
def untilDelimiter (bytes : Source) : Source :=
  bytes.takeWhile fun b => !isDelimiter b

theorem untilDelimiter_of_delimiter {b : UInt8} {bytes : Source} (h : isDelimiter b = true) :
    untilDelimiter (b :: bytes) = [] := by
  simp [untilDelimiter, h]

theorem untilDelimiter_cons {b : UInt8} {bytes : Source} (h : ¬ isDelimiter b = true) :
    untilDelimiter (b :: bytes) = b :: untilDelimiter bytes := by
  simp [untilDelimiter, h]

/-- An atom closes only parentheses that it opens. -/
theorem closesWithin_atomBody (depth : Nat) (bytes : Source) :
    ClosesWithin depth (atomBody depth bytes) := by
  fun_induction atomBody depth bytes with
  | case1 | case2 | case4 => exact closesWithin_nil _
  | case3 depth bs _ ih => exact closesWithin_open_iff.mpr ih
  | case5 bs depth _ _ ih => exact closesWithin_close_iff.mpr ih
  | case6 depth b bs _ hopen hclose ih => exact (closesWithin_other_iff hopen hclose).mpr ih

/-- If the bytes up to the next delimiter close only their own parentheses, they are the
atom. -/
theorem atomBody_eq_untilDelimiter {depth : Nat} {bytes : Source}
    (h : ClosesWithin depth (untilDelimiter bytes)) :
    atomBody depth bytes = untilDelimiter bytes := by
  fun_induction atomBody depth bytes with
  | case1 => rfl
  | case2 depth b bs hdelimiter => rw [untilDelimiter_of_delimiter hdelimiter]
  | case3 depth bs hdelimiter ih =>
      rw [untilDelimiter_cons hdelimiter] at h ⊢
      rw [ih (closesWithin_open_iff.mp h)]
  | case4 bs hdelimiter _ =>
      rw [untilDelimiter_cons hdelimiter] at h
      exact absurd h not_closesWithin_close
  | case5 bs depth hdelimiter _ ih =>
      rw [untilDelimiter_cons hdelimiter] at h ⊢
      rw [ih (closesWithin_close_iff.mp h)]
  | case6 depth b bs hdelimiter hopen hclose ih =>
      rw [untilDelimiter_cons hdelimiter] at h ⊢
      rw [ih ((closesWithin_other_iff hopen hclose).mp h)]

/-- If the bytes up to the next delimiter close a parenthesis that they do not open, the atom
ends there and closes all parentheses that are open. -/
theorem balanced_atomBody {depth : Nat} {bytes : Source}
    (h : ¬ ClosesWithin depth (untilDelimiter bytes)) :
    depth + (atomBody depth bytes).count openParen = (atomBody depth bytes).count closeParen := by
  have hne : openParen ≠ closeParen := by decide
  fun_induction atomBody depth bytes with
  | case1 => exact absurd (closesWithin_nil _) h
  | case2 depth b bs hdelimiter =>
      rw [untilDelimiter_of_delimiter hdelimiter] at h
      exact absurd (closesWithin_nil _) h
  | case3 depth bs hdelimiter ih =>
      rw [untilDelimiter_cons hdelimiter] at h
      have hrest := ih fun hrest => h (closesWithin_open_iff.mpr hrest)
      rw [List.count_cons_self, List.count_cons_of_ne hne]
      omega
  | case4 => rfl
  | case5 bs depth hdelimiter _ ih =>
      rw [untilDelimiter_cons hdelimiter] at h
      have hrest := ih fun hrest => h (closesWithin_close_iff.mpr hrest)
      rw [List.count_cons_self, List.count_cons_of_ne hne.symm]
      omega
  | case6 depth b bs hdelimiter hopen hclose ih =>
      rw [untilDelimiter_cons hdelimiter] at h
      have hrest := ih fun hrest => h ((closesWithin_other_iff hopen hclose).mpr hrest)
      rw [List.count_cons_of_ne hopen, List.count_cons_of_ne hclose]
      exact hrest

/-- Some bytes close only parentheses that they open, but not all of them. -/
def LeavesOpen (bytes : Source) : Prop :=
  ClosesWithin 0 bytes ∧ bytes.count closeParen < bytes.count openParen

/-- An atom closes all parentheses that it opens, unless the bytes up to the next delimiter
leave one open. -/
theorem balanced_atomBody_iff (bytes : Source) :
    BalancedParens (atomBody 0 bytes) ↔ ¬ LeavesOpen (untilDelimiter bytes) := by
  by_cases hrun : ClosesWithin 0 (untilDelimiter bytes)
  · have hle := hrun (untilDelimiter bytes) List.prefix_rfl
    rw [atomBody_eq_untilDelimiter hrun, BalancedParens, LeavesOpen]
    constructor
    · rintro hbalanced ⟨_, hlt⟩
      omega
    · intro hopen
      have hge : ¬ (untilDelimiter bytes).count closeParen <
          (untilDelimiter bytes).count openParen :=
        fun hlt => hopen ⟨hrun, hlt⟩
      omega
  · have hbalanced := balanced_atomBody hrun
    rw [Nat.zero_add] at hbalanced
    exact ⟨fun _ hopen => hrun hopen.1, fun _ => hbalanced⟩

/-- An atom of a script is a colon and at least one letter, digit, `/`, `.`, `_` or
parenthesis, and no beginning of it closes more parentheses than it opens.  It closes all that
it opens unless the bytes after the colon, up to the next delimiter, leave one open. -/
theorem atom_balanced_iff {source : Source} {t : Token} (ht : t ∈ ofSource source)
    (hkind : t.kind = .atom) :
    ∃ body, t.bytes = 0x3a :: body ∧ body ≠ [] ∧ (∀ b ∈ body, isAtomByte b = true) ∧
      (∀ front, front <+: body → front.count closeParen ≤ front.count openParen) ∧
      (body.count openParen = body.count closeParen ↔
        ¬ LeavesOpen (untilDelimiter (source.drop (t.span.start + 1)))) := by
  rcases (spelling_of_mem_ofSource ht (by simp [hkind])).of_atom hkind with
    ⟨body, hbytes, hne, hall⟩
  have hmem : t ∈ tokensFrom 0 source := by
    rw [ofSource, List.mem_append, List.mem_singleton] at ht
    rcases ht with ht | rfl
    · exact ht
    · simp [endMark] at hkind
  rcases exists_scan_of_mem_tokensFrom hmem with ⟨n, b, bs, hstart, hdrop, hscan, htoken⟩
  rw [hkind] at hscan
  rcases atomBody_of_scan hscan.symm with ⟨rfl, hbody⟩
  rw [hbytes, hbody] at htoken
  rcases (List.cons.inj htoken).2 with rfl
  have hafter : source.drop (t.span.start + 1) = bs := by
    rw [hstart, Nat.zero_add, ← List.drop_drop, hdrop, List.drop_one, List.tail_cons]
  refine ⟨atomBody 0 bs, hbytes, hne, hall, ?_, ?_⟩
  · intro front hfront
    simpa using closesWithin_atomBody 0 bs front hfront
  · rw [hafter]
    exact balanced_atomBody_iff bs

/-- A call with two atoms: a comma ends the first one inside a parenthesis of its own, and the
parenthesis of the call ends the second one. -/
def openAtomSample : Source :=
  Utf8.encode "print(:f(x, :g(y))\n"

/-- An atom of the sample leaves a parenthesis open, and another one does not. -/
theorem atom_balanced_iff_openAtomSample :
    (∃ t ∈ ofSource openAtomSample, t.kind = .atom ∧ t.lexeme = ":f(x" ∧
      LeavesOpen (untilDelimiter (openAtomSample.drop (t.span.start + 1)))) ∧
    ∃ t ∈ ofSource openAtomSample, t.kind = .atom ∧ t.lexeme = ":g(y)" ∧
      ¬ LeavesOpen (untilDelimiter (openAtomSample.drop (t.span.start + 1))) := by
  have hopen : (⟨.atom, ⟨6, 10⟩, Utf8.encode ":f(x"⟩ : Token) ∈ ofSource openAtomSample := by
    decide +kernel
  have hclosed : (⟨.atom, ⟨12, 17⟩, Utf8.encode ":g(y)"⟩ : Token) ∈ ofSource openAtomSample := by
    decide +kernel
  refine ⟨⟨_, hopen, rfl, by decide +kernel, ?_⟩, _, hclosed, rfl, by decide +kernel, ?_⟩
  · rcases atom_balanced_iff hopen rfl with ⟨body, hbytes, _, _, _, hbalanced⟩
    rcases (List.cons.inj hbytes).2 with rfl
    exact Classical.not_not.mp (mt hbalanced.mpr (by decide +kernel))
  · rcases atom_balanced_iff hclosed rfl with ⟨body, hbytes, _, _, _, hbalanced⟩
    rcases (List.cons.inj hbytes).2 with rfl
    exact hbalanced.mp (by decide +kernel)

end Token
end Shellward
