import Mathlib.Data.List.Lex
import Shellward.Proofs.EditDistance
import Shellward.Proofs.Utf8

/-!
# The best suggestion

A suggestion is chosen by going through the candidates in reach and keeping the better of two.
Better is nearer, or as near and before in the order of texts, which is the order of their bytes.
So the choice is the best candidate in reach, whatever the order of the candidates.

Main results:

- Theorem `Utf8.lex_encode_of_lt`: the order of texts is the order of their bytes.
- Theorem `Suggestion.isBest_foldl`: going through candidates keeps the best of them.
- Theorem `Suggestion.suggest?_eq_foldl_sorted`: a suggestion is found by sorting the candidates.
- Theorem `Suggestion.suggests_nearest`: what is suggested.
-/

namespace Shellward

/-! ### Texts in the order of their bytes -/

namespace Utf8

/-- Bytes are in order if their first bytes are, and the others where these are the same. -/
theorem lex_cons_of_le {a b : Nat} {xs ys : Source} (ha : a < 256) (hb : b < 256) (hle : a ≤ b)
    (hrest : a = b → List.Lex (· < ·) xs ys) :
    List.Lex (· < ·) (UInt8.ofNat a :: xs) (UInt8.ofNat b :: ys) := by
  rcases Nat.eq_or_lt_of_le hle with rfl | hlt
  · exact .cons (hrest rfl)
  · refine .rel ?_
    rwa [UInt8.lt_iff_toNat_lt, toNat_ofNat_of_lt ha, toNat_ofNat_of_lt hb]

/-- The bytes of a smaller character come first, whatever follows them. -/
theorem lex_encodeChar {c d : Char} (h : c < d) (xs ys : Source) :
    List.Lex (· < ·) (String.utf8EncodeChar c ++ xs) (String.utf8EncodeChar d ++ ys) := by
  have hlt : c.val.toNat < d.val.toNat := UInt32.lt_iff_toNat_lt.mp h
  rcases encodeChar_cases c with ⟨hv, hc⟩ | ⟨hv, hc⟩ | ⟨hv, hc⟩ | ⟨hv, hc⟩ <;>
    rcases encodeChar_cases d with ⟨hw, hd⟩ | ⟨hw, hd⟩ | ⟨hw, hd⟩ | ⟨hw, hd⟩ <;> rw [hc, hd] <;>
    refine lex_cons_of_le (by omega) (by omega) (by omega) fun h₁ => ?_
  all_goals try omega
  -- Equal first bytes are left only for characters of equally many bytes.
  · exact lex_cons_of_le (by omega) (by omega) (by omega) fun h₂ => by omega
  · exact lex_cons_of_le (by omega) (by omega) (by omega) fun h₂ =>
      lex_cons_of_le (by omega) (by omega) (by omega) fun h₃ => by omega
  · exact lex_cons_of_le (by omega) (by omega) (by omega) fun h₂ =>
      lex_cons_of_le (by omega) (by omega) (by omega) fun h₃ =>
        lex_cons_of_le (by omega) (by omega) (by omega) fun h₄ => by omega

/-- Texts that are in order by their characters are in order by their bytes. -/
theorem lex_encodeChars {xs ys : List Char} (h : List.Lex (· < ·) xs ys) :
    List.Lex (· < ·) (encodeChars xs) (encodeChars ys) := by
  induction h with
  | @nil c cs =>
      rw [encodeChars_cons]
      rcases hbytes : String.utf8EncodeChar c with _ | ⟨b, bs⟩
      · exact absurd hbytes String.utf8EncodeChar_ne_nil
      · exact .nil
  | rel hlt =>
      rw [encodeChars_cons, encodeChars_cons]
      exact lex_encodeChar hlt _ _
  | cons _ ih =>
      rw [encodeChars_cons, encodeChars_cons]
      exact List.Lex.append_left _ ih _

/-- The order of texts is the order of their bytes. -/
theorem lex_encode_of_lt {a b : String} (h : a < b) :
    List.Lex (· < ·) (encode a) (encode b) :=
  lex_encodeChars (String.lt_iff.mp h)

/-- The size of a text is the number of its bytes. -/
theorem length_encode (text : String) : (encode text).length = text.utf8ByteSize := by
  have hbytes : text.toByteArray = (encode text).toByteArray := by
    rw [← String.utf8Encode_toList]
    rfl
  rw [String.utf8ByteSize, hbytes, List.size_toByteArray]

end Utf8

namespace Suggestion

/-! ### Better candidates -/

/-- A candidate is near the input without being the input: its distance is at most half the bytes
of the input, but one is always in reach and three never. -/
def InReach (input candidate : String) : Prop :=
  1 ≤ distance input candidate ∧
    distance input candidate ≤ max 1 (min 2 ((Utf8.encode input).length / 2))

section Better

variable {input : String}

/-- A candidate passes the test for nearness exactly if it is in reach. -/
theorem isNear_iff {c : String} : isNear input c = true ↔ InReach input c := by
  have hreach : reach input = max 1 (min 2 ((Utf8.encode input).length / 2)) := by
    rw [reach, Utf8.length_encode]
  simp only [isNear, InReach, ← hreach, Bool.and_eq_true, decide_eq_true_eq]
  rfl

/-- A better candidate is nearer, or as near and before the other one. -/
theorem isBetter_iff {a b : String} : isBetter input a b = true ↔
    distance input a < distance input b ∨ distance input a = distance input b ∧ a < b := by
  simp [isBetter]

/-- What is better than a better candidate is better. -/
theorem isBetter_trans {a b c : String} (hab : isBetter input a b = true)
    (hbc : isBetter input b c = true) : isBetter input a c = true := by
  rw [isBetter_iff] at hab hbc ⊢
  rcases hab with hab | ⟨hab, hlt⟩
  · left
    omega
  · rcases hbc with hbc | ⟨hbc, hlt'⟩
    · left
      omega
    · exact .inr ⟨by omega, String.lt_trans hlt hlt'⟩

/-- The best of some candidates: none of them is better.  There is none only if there are no
candidates. -/
def IsBest (input : String) (candidates : List String) : Option String → Prop
  | none => candidates = []
  | some s => s ∈ candidates ∧ ∀ c ∈ candidates, ¬ isBetter input c s = true

/-- No candidate is better than itself. -/
theorem isBetter_irrefl (a : String) : ¬ isBetter input a a = true := by
  rw [isBetter_iff]
  rintro (hlt | ⟨_, hlt⟩)
  · exact Nat.lt_irrefl _ hlt
  · exact String.lt_irrefl a hlt

/-- The better of the best candidate and another one is the best of them all. -/
theorem isBest_better {candidates : List String} {best : Option String}
    (h : IsBest input candidates best) (c : String) :
    IsBest input (candidates ++ [c]) (better input best c) := by
  cases best with
  | none =>
      rw [show candidates = [] from h]
      exact ⟨List.mem_singleton_self c, by simpa using isBetter_irrefl c⟩
  | some b =>
      rcases h with ⟨hmem, hbest⟩
      have hstep : better input (some b) c = if isBetter input c b then some c else some b := rfl
      rw [hstep]
      by_cases hbetter : isBetter input c b = true
      · rw [if_pos hbetter]
        refine ⟨List.mem_append_right _ (List.mem_singleton_self c), ?_⟩
        intro d hd hdc
        rcases List.mem_append.mp hd with hd | hd
        · exact hbest d hd (isBetter_trans hdc hbetter)
        · rw [List.mem_singleton.mp hd] at hdc
          exact isBetter_irrefl c hdc
      · rw [if_neg hbetter]
        refine ⟨List.mem_append_left _ hmem, ?_⟩
        intro d hd
        rcases List.mem_append.mp hd with hd | hd
        · exact hbest d hd
        · rw [List.mem_singleton.mp hd]
          exact hbetter

/-- Going through candidates keeps the best of them. -/
theorem isBest_foldl {before : List String} {best : Option String}
    (h : IsBest input before best) (candidates : List String) :
    IsBest input (before ++ candidates) (candidates.foldl (better input) best) := by
  induction candidates generalizing before best with
  | nil =>
      rw [List.append_nil]
      exact h
  | cons c cs ih =>
      rw [List.append_cons, List.foldl_cons]
      exact ih (isBest_better h c)

end Better

/-! ### What is suggested -/

/-- A suggestion: a candidate in reach that is nearest to the input, and of those as near the
first in the order of their bytes. -/
structure IsSuggestion (input : String) (candidates : List String) (s : String) : Prop where
  mem : s ∈ candidates
  inReach : InReach input s
  nearest : ∀ c ∈ candidates, InReach input c → distance input s ≤ distance input c
  first : ∀ c ∈ candidates, InReach input c → distance input c = distance input s →
    s = c ∨ List.Lex (· < ·) (Utf8.encode s) (Utf8.encode c)

section Suggested

variable {input : String} {candidates : List String}

/-- What is suggested is the best of the candidates that pass the test for nearness. -/
theorem isBest_suggest? : IsBest input (candidates.filter (isNear input))
    (suggest? input candidates) :=
  @isBest_foldl input [] none rfl _

/-- What is suggested is a candidate in reach, with none nearer and none as near before it. -/
theorem isSuggestion_of_suggest? {s : String} (h : suggest? input candidates = some s) :
    IsSuggestion input candidates s := by
  have hbest := @isBest_suggest? input candidates
  rw [h] at hbest
  rcases hbest with ⟨hmem, hbest⟩
  rw [List.mem_filter, isNear_iff] at hmem
  have hworse : ∀ c ∈ candidates, InReach input c →
      ¬ (distance input c < distance input s ∨
        distance input c = distance input s ∧ c < s) := by
    intro c hc hreach
    rw [← isBetter_iff]
    exact hbest c (List.mem_filter.mpr ⟨hc, isNear_iff.mpr hreach⟩)
  refine ⟨hmem.1, hmem.2, ?_, ?_⟩
  · intro c hc hreach
    exact Nat.le_of_not_lt fun hlt => hworse c hc hreach (.inl hlt)
  · intro c hc hreach hdistance
    have hge : ¬ c < s := fun hlt => hworse c hc hreach (.inr ⟨hdistance, hlt⟩)
    by_cases hlt : s < c
    · exact .inr (Utf8.lex_encode_of_lt hlt)
    · exact .inl (String.le_antisymm hge hlt)

/-- Two suggestions for the same input are the same. -/
theorem IsSuggestion.unique {s s' : String} (h : IsSuggestion input candidates s)
    (h' : IsSuggestion input candidates s') : s = s' := by
  have hdistance : distance input s = distance input s' :=
    Nat.le_antisymm (h.nearest s' h'.mem h'.inReach) (h'.nearest s h.mem h.inReach)
  rcases h.first s' h'.mem h'.inReach hdistance.symm with heq | hlex
  · exact heq
  · rcases h'.first s h.mem h.inReach hdistance with heq | hlex'
    · exact heq.symm
    · exact absurd hlex' (List.lt_asymm hlex)

/-- Nothing is suggested exactly if no candidate is in reach. -/
theorem suggest?_eq_none_iff :
    suggest? input candidates = none ↔ ∀ c ∈ candidates, ¬ InReach input c := by
  have hbest := @isBest_suggest? input candidates
  constructor
  · intro h c hc hreach
    rw [h] at hbest
    have hnil : candidates.filter (isNear input) = [] := hbest
    exact List.filter_eq_nil_iff.mp hnil c hc (isNear_iff.mpr hreach)
  · intro h
    cases hs : suggest? input candidates with
    | none => rfl
    | some s =>
        have hsuggestion := isSuggestion_of_suggest? hs
        exact absurd hsuggestion.inReach (h s hsuggestion.mem)

/-- A candidate is suggested exactly if it is the suggestion for the input. -/
theorem suggest?_eq_some_iff {s : String} :
    suggest? input candidates = some s ↔ IsSuggestion input candidates s := by
  constructor
  · exact isSuggestion_of_suggest?
  · intro h
    cases hs : suggest? input candidates with
    | none => exact absurd h.inReach (suggest?_eq_none_iff.mp hs s h.mem)
    | some s' => rw [(isSuggestion_of_suggest? hs).unique h]

/-- What is suggested does not depend on the order of the candidates. -/
theorem suggest?_perm {others : List String} (h : candidates.Perm others) :
    suggest? input others = suggest? input candidates := by
  refine Option.ext fun s => ?_
  rw [suggest?_eq_some_iff, suggest?_eq_some_iff]
  constructor
  · intro hs
    exact ⟨h.mem_iff.mpr hs.mem, hs.inReach, fun c hc => hs.nearest c (h.mem_iff.mp hc),
      fun c hc => hs.first c (h.mem_iff.mp hc)⟩
  · intro hs
    exact ⟨h.mem_iff.mp hs.mem, hs.inReach, fun c hc => hs.nearest c (h.mem_iff.mpr hc),
      fun c hc => hs.first c (h.mem_iff.mpr hc)⟩

/-- The nearer of the nearest candidate so far and another one; of two that are as near, the
earlier one. -/
def nearer (input : String) (nearest : Option String) (candidate : String) : Option String :=
  match nearest with
  | none => some candidate
  | some n => if distance input candidate < distance input n then some candidate else some n

/-- Among candidates in order, a later one is better only if it is nearer. -/
theorem better_eq_nearer {best : Option String} {c : String} (h : ∀ b ∈ best, b ≤ c) :
    better input best c = nearer input best c := by
  cases best with
  | none => rfl
  | some b =>
      have hnot : ¬ c < b := h b rfl
      have hiff : isBetter input c b = true ↔ distance input c < distance input b := by
        rw [isBetter_iff]
        exact ⟨fun hbetter => hbetter.resolve_right fun hlt => hnot hlt.2, .inl⟩
      simp only [better, nearer, hiff]

/-- What is kept is the candidate or what was kept before it. -/
theorem mem_or_eq_of_mem_nearer {nearest : Option String} {b c : String}
    (h : b ∈ nearer input nearest c) : b ∈ nearest ∨ b = c := by
  cases nearest with
  | none => exact .inr (Option.some.inj h).symm
  | some n =>
      simp only [nearer] at h
      split at h
      next => exact .inr (Option.some.inj h).symm
      next => exact .inl h

/-- Going through candidates in order, the best of them is the first of the nearest. -/
theorem foldl_better_eq_foldl_nearer {best : Option String}
    (hsorted : candidates.Pairwise (· ≤ ·)) (hbest : ∀ b ∈ best, ∀ c ∈ candidates, b ≤ c) :
    candidates.foldl (better input) best = candidates.foldl (nearer input) best := by
  induction candidates generalizing best with
  | nil => rfl
  | cons c cs ih =>
      rcases List.pairwise_cons.mp hsorted with ⟨hc, hcs⟩
      have hstep : better input best c = nearer input best c :=
        better_eq_nearer fun b hb => hbest b hb c List.mem_cons_self
      rw [List.foldl_cons, List.foldl_cons, hstep]
      refine ih hcs fun b hb d hd => ?_
      rcases mem_or_eq_of_mem_nearer hb with hb | rfl
      · exact hbest b hb d (List.mem_cons_of_mem c hd)
      · exact hc d hd

/-- A suggestion is found by sorting the candidates and keeping the first of the nearest. -/
theorem suggest?_eq_foldl_sorted : suggest? input candidates =
    (((candidates.mergeSort (· ≤ ·)).filter (isNear input)).foldl (nearer input) none) := by
  have htotal : ∀ a b : String, (decide (a ≤ b) || decide (b ≤ a)) = true := by
    intro a b
    simpa using String.le_total a b
  have htrans : ∀ a b c : String, decide (a ≤ b) = true → decide (b ≤ c) = true →
      decide (a ≤ c) = true := by
    intro a b c hab hbc
    exact decide_eq_true (String.le_trans (of_decide_eq_true hab) (of_decide_eq_true hbc))
  have hsorted : (candidates.mergeSort (· ≤ ·)).Pairwise (· ≤ ·) := by
    simpa using List.pairwise_mergeSort htrans htotal candidates
  rw [suggest?_perm (List.mergeSort_perm candidates (· ≤ ·)), suggest?]
  exact foldl_better_eq_foldl_nearer (hsorted.filter _) nofun

end Suggested

/-- What is suggested for an input, where the distance of a candidate is the least number of
characters to insert, delete or replace.  If no candidate is in reach, nothing is suggested.
Otherwise the suggestion is, among the candidates in reach that are nearest to the input, the
first in the order of bytes, and the order of the candidates does not matter. -/
theorem suggests_nearest (input : String) (candidates : List String) :
    (∀ c, IsLeast {n | Edits n input.toList c.toList} (distance input c)) ∧
    (suggest? input candidates = none ↔ ∀ c ∈ candidates, ¬ InReach input c) ∧
    (∀ s, suggest? input candidates = some s ↔ IsSuggestion input candidates s) ∧
    ∀ others, candidates.Perm others → suggest? input others = suggest? input candidates :=
  ⟨isLeast_distance input, suggest?_eq_none_iff, fun _ => suggest?_eq_some_iff,
    fun _ => suggest?_perm⟩

/-- Of two candidates that one edit leads to, the first in order is suggested. -/
example : suggest? "lot" ["let", "lit", "if"] = some "let" := by
  decide +kernel

end Suggestion
end Shellward
