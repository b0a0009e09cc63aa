import Shellward.Utf8

/-!
# Reading texts back from their bytes

The bytes of a text read as that text.  Bytes that are read as a text and written
again keep their ASCII bytes and the order of these; each run of other bytes gives
another such run, which may be a different one where the bytes were ill-formed.

Main results:

- Theorem `Utf8.decode_encode`: the bytes of a text read as the text.
- Theorem `Utf8.encode_decode_of_ascii`: ASCII bytes are read and written unchanged.
- Theorem `Utf8.transcribed_encode_decode`: reading and writing keeps ASCII bytes.
-/

namespace Shellward
namespace Utf8

/-! ### The bytes that begin and continue characters -/

theorem toNat_ofNat_of_lt {n : Nat} (h : n < 256) : (UInt8.ofNat n).toNat = n := by
  simp [Nat.mod_eq_of_lt h]

theorem lt_ascii_iff {b : UInt8} : b < 0x80 ↔ b.toNat < 128 := by
  rw [UInt8.lt_iff_toNat_lt]
  rfl

/-- An ASCII byte is a character. -/
theorem lead_ascii {b : UInt8} (h : b < 0x80) : lead b = ([Char.ofNat b.toNat], .ready) := by
  simp [lead, h]

/-- A byte that begins a character of two bytes. -/
theorem lead_two {b : UInt8} (h : 0xc2 ≤ b.toNat) (h' : b.toNat < 0xe0) :
    lead b = ([], .pending (b.toNat - 0xc0) 0 0x80 0xbf) := by
  unfold lead
  simp only [UInt8.lt_iff_toNat_lt, UInt8.reduceToNat]
  rw [if_neg (by omega), if_neg (by omega), if_pos h']

/-- A byte that begins a character of three bytes. -/
theorem lead_three {b : UInt8} (h : 0xe0 ≤ b.toNat) (h' : b.toNat < 0xf0) :
    lead b = ([], .pending (b.toNat - 0xe0) 1 (if b.toNat = 0xe0 then 0xa0 else 0x80)
      (if b.toNat = 0xed then 0x9f else 0xbf)) := by
  unfold lead
  simp only [UInt8.lt_iff_toNat_lt, ← UInt8.toNat_inj, UInt8.reduceToNat]
  rw [if_neg (by omega), if_neg (by omega), if_neg (by omega)]
  by_cases hlow : b.toNat = 0xe0
  · simp [hlow]
  · by_cases hgap : b.toNat = 0xed
    · simp [hgap]
    · rw [if_neg hlow, if_neg hgap, if_pos h', if_neg hlow, if_neg hgap]

/-- A byte that begins a character of four bytes. -/
theorem lead_four {b : UInt8} (h : 0xf0 ≤ b.toNat) (h' : b.toNat < 0xf5) :
    lead b = ([], .pending (b.toNat - 0xf0) 2 (if b.toNat = 0xf0 then 0x90 else 0x80)
      (if b.toNat = 0xf4 then 0x8f else 0xbf)) := by
  unfold lead
  simp only [UInt8.lt_iff_toNat_lt, ← UInt8.toNat_inj, UInt8.reduceToNat]
  rw [if_neg (by omega), if_neg (by omega), if_neg (by omega), if_neg (by omega),
    if_neg (by omega), if_neg (by omega)]
  by_cases hlow : b.toNat = 0xf0
  · simp [hlow]
  · by_cases hhigh : b.toNat = 0xf4
    · simp [hhigh]
    · rw [if_neg hlow, if_pos (by omega), if_neg hlow, if_neg hhigh]

/-- A byte beyond ASCII that begins no character. -/
theorem lead_ill {b : UInt8} (h : 0x80 ≤ b.toNat) (h' : b.toNat < 0xc2 ∨ 0xf5 ≤ b.toNat) :
    lead b = ([replacement], .ready) := by
  unfold lead
  simp only [UInt8.lt_iff_toNat_lt, ← UInt8.toNat_inj, UInt8.reduceToNat]
  rw [if_neg (by omega)]
  by_cases hlow : b.toNat < 0xc2
  · rw [if_pos hlow]
  · rw [if_neg hlow, if_neg (by omega), if_neg (by omega), if_neg (by omega), if_neg (by omega),
      if_neg (by omega), if_neg (by omega), if_neg (by omega)]

/-- A byte in the right range completes a character that lacks one byte. -/
theorem step_last {value : Nat} {lo hi b : UInt8} (hlo : lo.toNat ≤ b.toNat)
    (hhi : b.toNat ≤ hi.toNat) :
    step (.pending value 0 lo hi) b =
      ([Char.ofNat (value * 64 + (b.toNat - 0x80))], .ready) := by
  have hin : lo ≤ b ∧ b ≤ hi := ⟨UInt8.le_iff_toNat_le.mpr hlo, UInt8.le_iff_toNat_le.mpr hhi⟩
  simp [step, hin]

/-- A byte in the right range goes on with a character that lacks more. -/
theorem step_more {value more : Nat} {lo hi b : UInt8} (hlo : lo.toNat ≤ b.toNat)
    (hhi : b.toNat ≤ hi.toNat) :
    step (.pending value (more + 1) lo hi) b =
      ([], .pending (value * 64 + (b.toNat - 0x80)) more 0x80 0xbf) := by
  have hin : lo ≤ b ∧ b ≤ hi := ⟨UInt8.le_iff_toNat_le.mpr hlo, UInt8.le_iff_toNat_le.mpr hhi⟩
  simp [step, hin]

/-- Any other byte replaces the character under way and begins the next one. -/
theorem step_outside {value more : Nat} {lo hi b : UInt8}
    (h : b.toNat < lo.toNat ∨ hi.toNat < b.toNat) :
    step (.pending value more lo hi) b = (replacement :: (lead b).1, (lead b).2) := by
  have hout : ¬(lo ≤ b ∧ b ≤ hi) := by
    simp only [UInt8.le_iff_toNat_le]
    omega
  simp [step, hout]

/-! ### Reading the bytes of a character -/

/-- Some bytes are read as one character. -/
def Decodes (bytes : Source) (c : Char) : Prop :=
  completed .ready bytes = [c] ∧ run .ready bytes = .ready

/-- One byte is read as an ASCII character. -/
theorem decodes_one {b : UInt8} {c : Char} (h : b < 0x80) (hc : Char.ofNat b.toNat = c) :
    Decodes [b] c := by
  have hfirst : step .ready b = ([Char.ofNat b.toNat], .ready) := lead_ascii h
  simp [Decodes, completed, hfirst, hc]

theorem step_last_tail {value : Nat} {b : UInt8} (h : 0x80 ≤ b.toNat) (h' : b.toNat ≤ 0xbf) :
    step (.pending value 0 0x80 0xbf) b =
      ([Char.ofNat (value * 64 + (b.toNat - 0x80))], .ready) :=
  @step_last value 0x80 0xbf b h h'

/-- Two bytes in their ranges are read as one character. -/
theorem decodes_two {a b : UInt8} {c : Char} (ha : 0xc2 ≤ a.toNat) (ha' : a.toNat < 0xe0)
    (hb : 0x80 ≤ b.toNat) (hb' : b.toNat ≤ 0xbf)
    (hc : Char.ofNat ((a.toNat - 0xc0) * 64 + (b.toNat - 0x80)) = c) : Decodes [a, b] c := by
  have hfirst : step .ready a = _ := lead_two ha ha'
  simp [Decodes, completed, hfirst, step_last_tail hb hb', hc]

/-- Three bytes in their ranges are read as one character. -/
theorem decodes_three {a b d : UInt8} {c : Char} (ha : 0xe0 ≤ a.toNat) (ha' : a.toNat < 0xf0)
    (hb : (if a.toNat = 0xe0 then 0xa0 else 0x80) ≤ b.toNat)
    (hb' : b.toNat ≤ if a.toNat = 0xed then 0x9f else 0xbf)
    (hd : 0x80 ≤ d.toNat) (hd' : d.toNat ≤ 0xbf)
    (hc : Char.ofNat (((a.toNat - 0xe0) * 64 + (b.toNat - 0x80)) * 64 + (d.toNat - 0x80)) = c) :
    Decodes [a, b, d] c := by
  have hfirst : step .ready a = _ := lead_three ha ha'
  have hlo : (if a.toNat = 0xe0 then 0xa0 else 0x80 : UInt8).toNat ≤ b.toNat := by
    split <;> simp_all
  have hhi : b.toNat ≤ (if a.toNat = 0xed then 0x9f else 0xbf : UInt8).toNat := by
    split <;> simp_all
  simp [Decodes, completed, hfirst, step_more hlo hhi, step_last_tail hd hd', hc]

/-- Four bytes in their ranges are read as one character. -/
theorem decodes_four {a b d e : UInt8} {c : Char} (ha : 0xf0 ≤ a.toNat) (ha' : a.toNat < 0xf5)
    (hb : (if a.toNat = 0xf0 then 0x90 else 0x80) ≤ b.toNat)
    (hb' : b.toNat ≤ if a.toNat = 0xf4 then 0x8f else 0xbf)
    (hd : 0x80 ≤ d.toNat) (hd' : d.toNat ≤ 0xbf) (he : 0x80 ≤ e.toNat) (he' : e.toNat ≤ 0xbf)
    (hc : Char.ofNat ((((a.toNat - 0xf0) * 64 + (b.toNat - 0x80)) * 64 + (d.toNat - 0x80)) * 64 +
      (e.toNat - 0x80)) = c) :
    Decodes [a, b, d, e] c := by
  have hfirst : step .ready a = _ := lead_four ha ha'
  have hlo : (if a.toNat = 0xf0 then 0x90 else 0x80 : UInt8).toNat ≤ b.toNat := by
    split <;> simp_all
  have hhi : b.toNat ≤ (if a.toNat = 0xf4 then 0x8f else 0xbf : UInt8).toNat := by
    split <;> simp_all
  have hthird : ∀ value, step (.pending value 1 0x80 0xbf) d = _ := fun value =>
    @step_more value 0 0x80 0xbf d hd hd'
  simp [Decodes, completed, hfirst, step_more hlo hhi, hthird, step_last_tail he he', hc]

/-- A character is written with one to four bytes, by its size. -/
theorem encodeChar_cases (c : Char) :
    (c.val.toNat ≤ 0x7f ∧ String.utf8EncodeChar c = [UInt8.ofNat c.val.toNat]) ∨
    ((0x80 ≤ c.val.toNat ∧ c.val.toNat ≤ 0x7ff) ∧ String.utf8EncodeChar c =
      [UInt8.ofNat (c.val.toNat / 64 % 32 + 192), UInt8.ofNat (c.val.toNat % 64 + 128)]) ∨
    ((0x800 ≤ c.val.toNat ∧ c.val.toNat ≤ 0xffff) ∧ String.utf8EncodeChar c =
      [UInt8.ofNat (c.val.toNat / 4096 % 16 + 224), UInt8.ofNat (c.val.toNat / 64 % 64 + 128),
        UInt8.ofNat (c.val.toNat % 64 + 128)]) ∨
    ((0x10000 ≤ c.val.toNat ∧ c.val.toNat < 0x110000) ∧ String.utf8EncodeChar c =
      [UInt8.ofNat (c.val.toNat / 262144 % 8 + 240), UInt8.ofNat (c.val.toNat / 4096 % 64 + 128),
        UInt8.ofNat (c.val.toNat / 64 % 64 + 128), UInt8.ofNat (c.val.toNat % 64 + 128)]) := by
  have hvalid := c.valid
  simp only [UInt32.isValidChar, Nat.isValidChar] at hvalid
  unfold String.utf8EncodeChar
  grind

/-- The bytes of a character are read as that character. -/
theorem decodes_encodeChar (c : Char) : Decodes (String.utf8EncodeChar c) c := by
  have hc : Char.ofNat c.val.toNat = c := Char.ofNat_toNat c
  have hvalid := c.valid
  simp only [UInt32.isValidChar, Nat.isValidChar] at hvalid
  have hbytes := encodeChar_cases c
  generalize c.val.toNat = v at *
  have hbyte : ∀ n, n < 256 → (UInt8.ofNat n).toNat = n := fun n h => toNat_ofNat_of_lt h
  rcases hbytes with ⟨hv, hbytes⟩ | ⟨hv, hbytes⟩ | ⟨hv, hbytes⟩ | ⟨hv, hbytes⟩ <;> rw [hbytes]
  · have hb := hbyte v (by omega)
    apply decodes_one
    · rw [lt_ascii_iff, hb]
      omega
    · rw [hb, hc]
  · have ha := hbyte (v / 64 % 32 + 192) (by omega)
    have hb := hbyte (v % 64 + 128) (by omega)
    apply decodes_two
    · omega
    · omega
    · omega
    · omega
    · rw [← hc]
      exact congrArg Char.ofNat (by omega)
  · have ha := hbyte (v / 4096 % 16 + 224) (by omega)
    have hb := hbyte (v / 64 % 64 + 128) (by omega)
    have hd := hbyte (v % 64 + 128) (by omega)
    apply decodes_three
    · omega
    · omega
    · split <;> omega
    · split <;> omega
    · omega
    · omega
    · rw [← hc]
      exact congrArg Char.ofNat (by omega)
  · have ha := hbyte (v / 262144 % 8 + 240) (by omega)
    have hb := hbyte (v / 4096 % 64 + 128) (by omega)
    have hd := hbyte (v / 64 % 64 + 128) (by omega)
    have he := hbyte (v % 64 + 128) (by omega)
    apply decodes_four
    · omega
    · omega
    · split <;> omega
    · split <;> omega
    · omega
    · omega
    · omega
    · omega
    · rw [← hc]
      exact congrArg Char.ofNat (by omega)

/-! ### Reading the bytes of a text -/

/-- The bytes of some characters. -/
def encodeChars (chars : List Char) : Source :=
  chars.flatMap String.utf8EncodeChar

@[simp]
theorem encodeChars_cons (c : Char) (cs : List Char) :
    encodeChars (c :: cs) = String.utf8EncodeChar c ++ encodeChars cs := by
  simp [encodeChars]

theorem encodeChars_append (xs ys : List Char) :
    encodeChars (xs ++ ys) = encodeChars xs ++ encodeChars ys :=
  List.flatMap_append

/-- The bytes of characters end between two characters. -/
theorem run_encodeChars (chars : List Char) : run .ready (encodeChars chars) = .ready := by
  induction chars with
  | nil => rfl
  | cons c cs ih => rw [encodeChars_cons, run_append, (decodes_encodeChar c).2, ih]

/-- The bytes of characters are read as these characters. -/
theorem decodeChars_encodeChars (chars : List Char) :
    decodeChars (encodeChars chars) = chars := by
  induction chars with
  | nil => rfl
  | cons c cs ih =>
      rcases decodes_encodeChar c with ⟨hcompleted, hrun⟩
      rw [encodeChars_cons, decodeChars, decodeFrom_append, hcompleted, hrun]
      exact congrArg (c :: ·) ih

/-- The bytes of a text are read as the text. -/
theorem decode_encode (text : String) : decode (encode text) = text := by
  have hchars : decodeChars (encode text) = text.toList := decodeChars_encodeChars text.toList
  rw [decode, hchars, String.ofList_toList]

/-- The bytes of two texts are those of the texts one after the other. -/
@[simp]
theorem encode_append (s t : String) : encode (s ++ t) = encode s ++ encode t := by
  simp [encode]

/-! ### The bytes of ASCII characters -/

/-- An ASCII character has its own byte. -/
theorem encodeChar_ascii {b : UInt8} (h : b < 0x80) :
    String.utf8EncodeChar (Char.ofNat b.toNat) = [b] := by
  rw [lt_ascii_iff] at h
  have hvalid : b.toNat.isValidChar := .inl (by omega)
  have hval : (Char.ofNat b.toNat).val.toNat = b.toNat := by
    rw [Char.ofNat, dif_pos hvalid]
    rfl
  unfold String.utf8EncodeChar
  rw [hval]
  simp only
  rw [if_pos (by omega), UInt8.ofNat_toNat]

/-- An ASCII byte is read and written unchanged, whatever follows it. -/
theorem encode_decode_cons {b : UInt8} (h : b < 0x80) (bs : Source) :
    encode (decode (b :: bs)) = b :: encode (decode bs) := by
  simp only [encode, decode, String.toList_ofList]
  rw [decode_ascii h, List.flatMap_cons, encodeChar_ascii h, List.singleton_append]

/-- What holds of the first 128 bytes and characters holds of every ASCII byte. -/
theorem of_ascii (P : UInt8 → Char → Prop) (hall : ∀ n < 128, P (UInt8.ofNat n) (Char.ofNat n))
    {b : UInt8} (h : b < 0x80) : P b (Char.ofNat b.toNat) := by
  have hb := hall b.toNat (lt_ascii_iff.mp h)
  rw [UInt8.ofNat_toNat] at hb
  exact hb

/-- The characters of ASCII bytes are the bytes. -/
theorem decodeChars_of_ascii {bytes : Source} (h : ∀ b ∈ bytes, b < 0x80) :
    decodeChars bytes = bytes.map fun b => Char.ofNat b.toNat := by
  induction bytes with
  | nil => rfl
  | cons b bs ih =>
      rw [List.forall_mem_cons] at h
      rw [decode_ascii h.1, ih h.2, List.map_cons]

/-- ASCII bytes are read and written unchanged. -/
theorem encode_decode_of_ascii {bytes : Source} (h : ∀ b ∈ bytes, b < 0x80) :
    encode (decode bytes) = bytes := by
  induction bytes with
  | nil => rfl
  | cons b bs ih =>
      rw [encode_decode_cons (h b List.mem_cons_self),
        ih fun c hc => h c (List.mem_cons_of_mem b hc)]

/-! ### Runs of bytes beyond ASCII -/

/-- Bytes that all lie beyond ASCII, at least one of them. -/
structure HighRun (bytes : Source) : Prop where
  ne_nil : bytes ≠ []
  high : ∀ b ∈ bytes, 0x80 ≤ b.toNat

/-- The same ASCII bytes in the same order, where a run of other bytes may have been
replaced by another such run. -/
inductive Transcribed : Source → Source → Prop where
  | nil : Transcribed [] []
  | ascii {b : UInt8} {xs ys : Source} :
      b < 0x80 → Transcribed xs ys → Transcribed (b :: xs) (b :: ys)
  | run {hs ks xs ys : Source} :
      HighRun hs → HighRun ks → Transcribed xs ys → Transcribed (hs ++ xs) (ks ++ ys)

/-- No bytes are transcribed to no bytes. -/
theorem Transcribed.eq_nil {xs ys : Source} (h : Transcribed xs ys) (hxs : xs = []) :
    ys = [] := by
  cases h with
  | nil => rfl
  | ascii => simp at hxs
  | run hhs => exact absurd (List.append_eq_nil_iff.mp hxs).1 hhs.ne_nil

/-- ASCII bytes come from the same bytes. -/
theorem Transcribed.mem_of_ascii {xs ys : Source} (h : Transcribed xs ys) {b : UInt8}
    (hb : b < 0x80) (hmem : b ∈ ys) : b ∈ xs := by
  induction h with
  | nil => exact hmem
  | ascii _ _ ih =>
      rcases List.mem_cons.mp hmem with rfl | hmem
      · exact List.mem_cons_self
      · exact List.mem_cons_of_mem _ (ih hmem)
  | run _ hks _ ih =>
      rcases List.mem_append.mp hmem with hmem | hmem
      · have hhigh := hks.high b hmem
        rw [lt_ascii_iff] at hb
        omega
      · exact List.mem_append_right _ (ih hmem)

theorem HighRun.singleton {b : UInt8} (h : 0x80 ≤ b.toNat) : HighRun [b] := by
  constructor
  · simp
  · simpa using h

/-- A run of bytes beyond ASCII goes on with one more. -/
theorem HighRun.concat {hs : Source} (h : HighRun hs) {b : UInt8} (hb : 0x80 ≤ b.toNat) :
    HighRun (hs ++ [b]) := by
  constructor
  · simp
  · intro c hc
    rcases List.mem_append.mp hc with hc | hc
    · exact h.high c hc
    · rw [List.mem_singleton.mp hc]
      exact hb

/-- A character beyond ASCII is written with bytes beyond ASCII. -/
theorem highRun_encodeChar {c : Char} (h : 0x80 ≤ c.val.toNat) :
    HighRun (String.utf8EncodeChar c) := by
  refine ⟨String.utf8EncodeChar_ne_nil, ?_⟩
  have hbytes := encodeChar_cases c
  generalize c.val.toNat = v at *
  have hbyte : ∀ n, n < 256 → (UInt8.ofNat n).toNat = n := fun n h => toNat_ofNat_of_lt h
  intro b hb
  rcases hbytes with ⟨hv, hbytes⟩ | ⟨hv, hbytes⟩ | ⟨hv, hbytes⟩ | ⟨hv, hbytes⟩
  · omega
  · have h₁ := hbyte (v / 64 % 32 + 192) (by omega)
    have h₂ := hbyte (v % 64 + 128) (by omega)
    simp only [hbytes, List.mem_cons, List.not_mem_nil, or_false] at hb
    rcases hb with rfl | rfl <;> omega
  · have h₁ := hbyte (v / 4096 % 16 + 224) (by omega)
    have h₂ := hbyte (v / 64 % 64 + 128) (by omega)
    have h₃ := hbyte (v % 64 + 128) (by omega)
    simp only [hbytes, List.mem_cons, List.not_mem_nil, or_false] at hb
    rcases hb with rfl | rfl | rfl <;> omega
  · have h₁ := hbyte (v / 262144 % 8 + 240) (by omega)
    have h₂ := hbyte (v / 4096 % 64 + 128) (by omega)
    have h₃ := hbyte (v / 64 % 64 + 128) (by omega)
    have h₄ := hbyte (v % 64 + 128) (by omega)
    simp only [hbytes, List.mem_cons, List.not_mem_nil, or_false] at hb
    rcases hb with rfl | rfl | rfl | rfl <;> omega

/-- The replacement character lies beyond ASCII. -/
theorem highRun_replacement : HighRun (String.utf8EncodeChar replacement) :=
  highRun_encodeChar (by decide)

/-- Whatever bytes complete the character under way, between `lo` and `hi` the next
one, the character lies beyond ASCII. -/
def Beyond : (more value lo hi : Nat) → Prop
  | 0, value, lo, hi => ∀ b, lo ≤ b → b ≤ hi →
      0x80 ≤ value * 64 + (b - 0x80) ∧ (value * 64 + (b - 0x80)).isValidChar
  | more + 1, value, lo, hi => ∀ b, lo ≤ b → b ≤ hi →
      Beyond more (value * 64 + (b - 0x80)) 0x80 0xbf

/-- A character of two bytes lies beyond ASCII. -/
theorem beyond_two {n : Nat} (h : 0xc2 ≤ n) (h' : n < 0xe0) : Beyond 0 (n - 0xc0) 0x80 0xbf := by
  intro b hb hb'
  refine ⟨by omega, .inl (by omega)⟩

/-- A character of three bytes lies beyond ASCII. -/
theorem beyond_three {n : Nat} (h : 0xe0 ≤ n) (h' : n < 0xf0) :
    Beyond 1 (n - 0xe0) (if n = 0xe0 then 0xa0 else 0x80) (if n = 0xed then 0x9f else 0xbf) := by
  intro b hb hb' d hd hd'
  unfold Nat.isValidChar
  split at hb <;> split at hb' <;> omega

/-- A character of four bytes lies beyond ASCII. -/
theorem beyond_four {n : Nat} (h : 0xf0 ≤ n) (h' : n < 0xf5) :
    Beyond 2 (n - 0xf0) (if n = 0xf0 then 0x90 else 0x80) (if n = 0xf4 then 0x8f else 0xbf) := by
  intro b hb hb' d hd hd' e he he'
  unfold Nat.isValidChar
  split at hb <;> split at hb' <;> omega

/-- A byte beyond ASCII that begins a character is ill-formed by itself, or it opens a
character beyond ASCII. -/
theorem lead_high {b : UInt8} (h : 0x80 ≤ b.toNat) :
    lead b = ([replacement], .ready) ∨
      ∃ value more lo hi, lead b = ([], .pending value more lo hi) ∧ 0x80 ≤ lo.toNat ∧
        Beyond more value lo.toNat hi.toNat := by
  by_cases hill : b.toNat < 0xc2 ∨ 0xf5 ≤ b.toNat
  · exact .inl (lead_ill h hill)
  · right
    by_cases htwo : b.toNat < 0xe0
    · exact ⟨_, _, _, _, lead_two (by omega) htwo, Nat.le_refl _,
        beyond_two (by omega) htwo⟩
    · by_cases hthree : b.toNat < 0xf0
      · refine ⟨_, _, _, _, lead_three (by omega) hthree, ?_, ?_⟩
        · split <;> decide
        · have hbeyond := beyond_three (n := b.toNat) (by omega) hthree
          split <;> split <;> simp_all
      · refine ⟨_, _, _, _, lead_four (by omega) (by omega), ?_, ?_⟩
        · split <;> decide
        · have hbeyond := beyond_four (n := b.toNat) (by omega) (by omega)
          split <;> split <;> simp_all

/-- What is read are the characters that a byte completes and those of the bytes after it. -/
theorem decodeFrom_cons (s : State) (b : UInt8) (bs : Source) :
    decodeFrom s (b :: bs) = (step s b).1 ++ decodeFrom (step s b).2 bs := by
  simp [decodeFrom, completed]

/-- What is read between two characters, and what is read inside a character whose
first bytes are `hs`. -/
def TranscribesFrom (bytes : Source) : Prop :=
  Transcribed bytes (encodeChars (decodeFrom .ready bytes)) ∧
    ∀ value more lo hi hs, 0x80 ≤ lo.toNat → Beyond more value lo.toNat hi.toNat → HighRun hs →
      Transcribed (hs ++ bytes) (encodeChars (decodeFrom (.pending value more lo hi) bytes))

theorem transcribesFrom_nil : TranscribesFrom [] := by
  constructor
  · exact .nil
  · intro value more lo hi hs _ _ hhs
    exact .run hhs highRun_replacement .nil

/-- A byte read between two characters. -/
theorem transcribed_ready {b : UInt8} {bs : Source} (ih : TranscribesFrom bs) :
    Transcribed (b :: bs) (encodeChars (decodeFrom .ready (b :: bs))) := by
  rw [decodeFrom_cons]
  have hstep : step .ready b = lead b := rfl
  by_cases hascii : b < 0x80
  · rw [hstep, lead_ascii hascii]
    simp only [List.singleton_append, encodeChars_cons, encodeChar_ascii hascii]
    exact .ascii hascii ih.1
  · have hhigh : 0x80 ≤ b.toNat := by
      rw [lt_ascii_iff] at hascii
      omega
    rcases lead_high hhigh with hlead | ⟨value, more, lo, hi, hlead, hlo, hbeyond⟩
    · rw [hstep, hlead]
      simp only [List.singleton_append, encodeChars_cons]
      exact .run (.singleton hhigh) highRun_replacement ih.1
    · rw [hstep, hlead]
      exact ih.2 value more lo hi [b] hlo hbeyond (.singleton hhigh)

/-- One more byte is transcribed, between two characters and inside one. -/
theorem transcribesFrom_cons {b : UInt8} {bs : Source} (ih : TranscribesFrom bs) :
    TranscribesFrom (b :: bs) := by
  refine ⟨transcribed_ready ih, ?_⟩
  intro value more lo hi hs hlo hbeyond hhs
  by_cases hin : lo.toNat ≤ b.toNat ∧ b.toNat ≤ hi.toNat
  · have hhigh : 0x80 ≤ b.toNat := by omega
    rw [decodeFrom_cons]
    cases more with
    | zero =>
        rcases hbeyond b.toNat hin.1 hin.2 with ⟨hlarge, hvalid⟩
        have hval : (Char.ofNat (value * 64 + (b.toNat - 0x80))).val.toNat =
            value * 64 + (b.toNat - 0x80) := by
          rw [Char.ofNat, dif_pos hvalid]
          rfl
        have hrun : HighRun (String.utf8EncodeChar (Char.ofNat (value * 64 + (b.toNat - 0x80)))) :=
          highRun_encodeChar (by omega)
        rw [step_last hin.1 hin.2]
        simp only [List.singleton_append, encodeChars_cons]
        rw [List.append_cons]
        exact .run (hhs.concat hhigh) hrun ih.1
    | succ more =>
        rw [step_more hin.1 hin.2, List.append_cons]
        exact ih.2 _ more 0x80 0xbf _ (Nat.le_refl _) (hbeyond b.toNat hin.1 hin.2)
          (hhs.concat hhigh)
  · -- The byte replaces the character under way and is read afresh.
    have hready := transcribed_ready (b := b) ih
    rw [decodeFrom_cons] at hready ⊢
    rw [step_outside (by omega)]
    simp only [List.cons_append, encodeChars_cons]
    exact .run hhs highRun_replacement hready

/-- All bytes are transcribed, between two characters and inside one. -/
theorem transcribesFrom (bytes : Source) : TranscribesFrom bytes := by
  induction bytes with
  | nil => exact transcribesFrom_nil
  | cons b bs ih => exact transcribesFrom_cons ih

/-- Bytes that are read and written again keep their ASCII bytes in their order. -/
theorem transcribed_encode_decode (bytes : Source) :
    Transcribed bytes (encode (decode bytes)) := by
  have hbytes := (transcribesFrom bytes).1
  rwa [decode, encode, String.toList_ofList]

end Utf8
end Shellward
