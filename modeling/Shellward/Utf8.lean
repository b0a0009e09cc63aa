/-!
# UTF-8 text of a script

A script arrives as bytes and is shown as text.  Reading bytes as text never
fails: every maximal ill-formed run of bytes becomes one replacement character.
The reader is a machine with one state per place inside a character, so a text
is read one byte at a time.

Main results:

- Theorem `Utf8.decodeFrom_append`: reading a text in two parts gives the same
  characters as reading it at once.
- Theorem `Utf8.decode_ascii`: an ASCII byte between characters reads as itself.
-/

namespace Shellward

/-- The bytes of a script. -/
abbrev Source := List UInt8

namespace Utf8

/-- The character that stands for ill-formed bytes. -/
def replacement : Char := '\ufffd'

/-- A place in the bytes of a text. -/
inductive State where
  /-- Between two characters. -/
  | ready
  /-- Inside a character whose bits so far are `value`: the next byte must lie
  between `lo` and `hi`, and `more` bytes follow it. -/
  | pending (value more : Nat) (lo hi : UInt8)
deriving DecidableEq, Repr

/-- Read a byte that begins a character. -/
def lead (b : UInt8) : List Char × State :=
  if b < 0x80 then ([Char.ofNat b.toNat], .ready)
  else if b < 0xc2 then ([replacement], .ready)
  else if b < 0xe0 then ([], .pending (b.toNat - 0xc0) 0 0x80 0xbf)
  else if b = 0xe0 then ([], .pending 0 1 0xa0 0xbf)
  else if b = 0xed then ([], .pending 0xd 1 0x80 0x9f)
  else if b < 0xf0 then ([], .pending (b.toNat - 0xe0) 1 0x80 0xbf)
  else if b = 0xf0 then ([], .pending 0 2 0x90 0xbf)
  else if b < 0xf4 then ([], .pending (b.toNat - 0xf0) 2 0x80 0xbf)
  else if b = 0xf4 then ([], .pending 4 2 0x80 0x8f)
  else ([replacement], .ready)

/-- Read one byte: the characters it completes and the place it leads to.  A
byte that cannot continue the character under way replaces that character and
begins the next one. -/
def step : State → UInt8 → List Char × State
  | .ready, b => lead b
  | .pending value more lo hi, b =>
      if lo ≤ b ∧ b ≤ hi then
        let value := value * 64 + (b.toNat - 0x80)
        match more with
        | 0 => ([Char.ofNat value], .ready)
        | more + 1 => ([], .pending value more 0x80 0xbf)
      else (replacement :: (lead b).1, (lead b).2)

/-- The characters still owed when the bytes end. -/
def State.flush : State → List Char
  | .ready => []
  | .pending .. => [replacement]

/-- The place reached after some bytes. -/
def run (s : State) (bytes : Source) : State :=
  bytes.foldl (fun s b => (step s b).2) s

/-- The characters that some bytes complete, from a given place on. -/
def completed : State → Source → List Char
  | _, [] => []
  | s, b :: bs => (step s b).1 ++ completed (step s b).2 bs

/-- The characters of bytes read from a given place to their end. -/
def decodeFrom (s : State) (bytes : Source) : List Char :=
  completed s bytes ++ (run s bytes).flush

/-- The characters of a byte sequence. -/
def decodeChars (bytes : Source) : List Char :=
  decodeFrom .ready bytes

/-- The text of a byte sequence. -/
def decode (bytes : Source) : String :=
  String.ofList (decodeChars bytes)

/-- The bytes of a text. -/
def encode (text : String) : Source :=
  text.toList.flatMap String.utf8EncodeChar

/-! ### Reading in parts -/

@[simp]
theorem run_nil (s : State) : run s [] = s :=
  rfl

@[simp]
theorem run_cons (s : State) (b : UInt8) (bs : Source) :
    run s (b :: bs) = run (step s b).2 bs :=
  rfl

/-- The place after two pieces is reached from the place after the first. -/
theorem run_append (s : State) (xs ys : Source) :
    run s (xs ++ ys) = run (run s xs) ys := by
  simp [run]

/-- Two pieces complete the characters of the first, and then those of the second from the place
that the first one leads to. -/
theorem completed_append (s : State) (xs ys : Source) :
    completed s (xs ++ ys) = completed s xs ++ completed (run s xs) ys := by
  induction xs generalizing s with
  | nil => simp [completed]
  | cons b bs ih => simp [completed, ih]

/-- Reading a text in two parts gives the characters of the whole. -/
theorem decodeFrom_append (s : State) (xs ys : Source) :
    decodeFrom s (xs ++ ys) = completed s xs ++ decodeFrom (run s xs) ys := by
  simp [decodeFrom, completed_append, run_append]

/-- An ASCII byte between characters reads as itself. -/
theorem decode_ascii {b : UInt8} (h : b < 0x80) (bs : Source) :
    decodeChars (b :: bs) = Char.ofNat b.toNat :: decodeChars bs := by
  simp [decodeChars, decodeFrom, completed, step, lead, h]

end Utf8

end Shellward
