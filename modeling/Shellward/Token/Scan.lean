import Shellward.Token.Basic

/-!
# Cutting a script into tokens

Each class of token has a scanner that looks at the bytes ahead.  A scanner
answers with the kind of the token and with the bytes that belong to it after
its first one; the first scanner that answers decides.  Bytes that begin no
token form an invalid token up to the next delimiter, so scanning never fails.

Main results:

- Theorem `Token.tokensFrom_cons`: the tokens of a script are its first token
  followed by the tokens of the rest.
-/

namespace Shellward
namespace Token

/-! ### Classes of bytes -/

/-- The byte of a double quote. -/
def doubleQuote : UInt8 := 0x22

/-- The byte of a single quote. -/
def singleQuote : UInt8 := 0x27

/-- The byte of a backslash. -/
def backslash : UInt8 := 0x5c

/-- The byte of an opening parenthesis. -/
def openParen : UInt8 := 0x28

/-- The byte of a closing parenthesis. -/
def closeParen : UInt8 := 0x29

/-- Spaces and tabs separate tokens. -/
def isSpace (b : UInt8) : Bool :=
  b == 0x20 || b == 0x09

/-- The ASCII digits. -/
def isDigit (b : UInt8) : Bool :=
  0x30 ≤ b && b ≤ 0x39

/-- The ASCII letters. -/
def isLetter (b : UInt8) : Bool :=
  (0x41 ≤ b && b ≤ 0x5a) || (0x61 ≤ b && b ≤ 0x7a)

/-- Letters and digits. -/
def isAlphanumeric (b : UInt8) : Bool :=
  isLetter b || isDigit b

/-- The bytes of a name: letters, digits and the underscore. -/
def isWordByte (b : UInt8) : Bool :=
  isAlphanumeric b || b == 0x5f

/-- The bytes of a pattern: letters, digits and `! * ? [ - ]`. -/
def isPatternByte (b : UInt8) : Bool :=
  isAlphanumeric b || [0x21, 0x2a, 0x3f, 0x5b, 0x2d, 0x5d].contains b

/-- The bytes of an atom: letters, digits and `/ . _ ( )`. -/
def isAtomByte (b : UInt8) : Bool :=
  isAlphanumeric b || [0x2f, 0x2e, 0x5f, openParen, closeParen].contains b

/-- The bytes that end an atom or an unknown piece: blanks, line ends, quotes,
the number sign and the comma. -/
def isDelimiter (b : UInt8) : Bool :=
  [0x20, 0x09, 0x0a, 0x0d, doubleQuote, singleQuote, 0x23, 0x2c].contains b

/-- Whether the bytes ahead begin with a line end. -/
def atLineEnd : Source → Bool
  | 0x0a :: _ => true
  | 0x0d :: 0x0a :: _ => true
  | _ => false

/-- The bytes up to the first place where the bytes ahead satisfy a test. -/
def takeUntil (stop : Source → Bool) : Source → Source
  | [] => []
  | b :: bs => if stop (b :: bs) then [] else b :: takeUntil stop bs

/-! ### One scanner per class of token -/

/-- Looks at the first byte ahead and the bytes after it.  It answers `none` if
no token of its class begins there, and otherwise with the token's kind and
with those of the later bytes that belong to the token. -/
abbrev Scanner := UInt8 → Source → Option (Kind × Source)

/-- The operators, brackets and line ends; an earlier entry wins. -/
def symbols : List (Source × Kind) :=
  [([0x0d, 0x0a], .newLine),
   ([0x3d, 0x3d], .equal),
   ([0x21, 0x3d], .notEqual),
   ([0x3c, 0x3d], .lessEqual),
   ([0x3e, 0x3d], .greaterEqual),
   ([0x0a], .newLine),
   ([0x3d], .assign),
   ([0x3c], .less),
   ([0x3e], .greater),
   ([openParen], .leftParen),
   ([closeParen], .rightParen),
   ([0x7b], .leftBrace),
   ([0x7d], .rightBrace),
   ([0x2c], .comma),
   ([0x2b], .plus),
   ([0x2d], .minus),
   ([0x2a], .star),
   ([0x2f], .slash),
   ([0x25], .percent)]

/-- Scan a symbol of the table. -/
def scanSymbol : Scanner := fun b bs =>
  (symbols.find? fun s => s.1.isPrefixOf (b :: bs)).map fun s => (s.2, s.1.tail)

/-- The kind of a word: that of the keyword it spells, or a name. -/
def wordKind (word : Source) : Kind :=
  match keywords.find? fun k => Utf8.encode k.1 == word with
  | some k => k.2
  | none => .identifier

/-- Scan a name or keyword: a letter, then letters, digits and underscores. -/
def scanWord : Scanner := fun b bs =>
  if isLetter b then
    let rest := bs.takeWhile isWordByte
    some (wordKind (b :: rest), rest)
  else none

/-- Scan a number: a run of word bytes that starts with a digit, and is invalid
unless all of it is digits. -/
def scanNumber : Scanner := fun b bs =>
  if isDigit b then
    let rest := bs.takeWhile isWordByte
    some (if rest.all isDigit then .number else .invalid, rest)
  else none

/-- Scan a pattern between single quotes on one line. -/
def scanPattern : Scanner := fun b bs =>
  if b = singleQuote then
    let body := takeUntil (fun ahead => atLineEnd ahead || ahead.head? == some singleQuote) bs
    if (bs.drop body.length).head? = some singleQuote then
      some (if body.all isPatternByte then .pattern else .invalid, body ++ [singleQuote])
    else some (.invalid, body)
  else none

/-- The bytes of a string after its opening quote, and whether it is closed on
its line.  A backslash takes the next byte of the line with it. -/
def stringBody : Source → Source × Bool
  | [] => ([], false)
  | b :: bs =>
      if atLineEnd (b :: bs) then ([], false)
      else if b = doubleQuote then ([b], true)
      else if b = backslash then
        match bs with
        | [] => ([b], false)
        | c :: cs =>
            if atLineEnd (c :: cs) then ([b], false)
            else
              let rest := stringBody cs
              (b :: c :: rest.1, rest.2)
      else
        let rest := stringBody bs
        (b :: rest.1, rest.2)

/-- Scan a string between double quotes on one line. -/
def scanString : Scanner := fun b bs =>
  if b = doubleQuote then
    let (body, closed) := stringBody bs
    some (if closed then .string else .invalid, body)
  else none

/-- The bytes of an atom after its colon, inside `depth` open parentheses: it
ends before a delimiter and before a parenthesis that closes none of its own. -/
def atomBody : Nat → Source → Source
  | _, [] => []
  | depth, b :: bs =>
      if isDelimiter b then []
      else if b = openParen then b :: atomBody (depth + 1) bs
      else if b = closeParen then
        match depth with
        | 0 => []
        | depth + 1 => b :: atomBody depth bs
      else b :: atomBody depth bs

/-- Scan an atom, which begins with a colon. -/
def scanAtom : Scanner := fun b bs =>
  if b = 0x3a then
    let body := atomBody 0 bs
    some (if !body.isEmpty && body.all isAtomByte then .atom else .invalid, body)
  else none

/-- Scan a comment, which runs to the end of its line. -/
def scanComment : Scanner := fun b bs =>
  if b = 0x23 then some (.comment, takeUntil atLineEnd bs) else none

/-- The scanners in order. -/
def scanners : List Scanner :=
  [scanSymbol, scanWord, scanNumber, scanPattern, scanString, scanAtom, scanComment]

/-- The kind of the token ahead and its bytes after the first one. -/
def scan (b : UInt8) (bs : Source) : Kind × Source :=
  match scanners.findSome? fun s => s b bs with
  | some token => token
  | none => (.invalid, bs.takeWhile fun c => !isDelimiter c)

/-! ### Whole scripts -/

/-- The tokens of the bytes from `offset` on, the end mark apart. -/
def tokensFrom (offset : Nat) : Source → List Token
  | [] => []
  | b :: bs =>
      if isSpace b then tokensFrom (offset + 1) bs
      else
        let (kind, body) := scan b bs
        ⟨kind, ⟨offset, offset + (1 + body.length)⟩, b :: body⟩ ::
          tokensFrom (offset + (1 + body.length)) (bs.drop body.length)
termination_by bytes => bytes.length

/-- The tokens of a script, closed by the end mark. -/
def ofSource (source : Source) : List Token :=
  tokensFrom 0 source ++ [endMark source.length]

/-- There are no tokens in no bytes. -/
@[simp]
theorem tokensFrom_nil (offset : Nat) : tokensFrom offset [] = [] := by
  rw [tokensFrom]

/-- A blank before a token only moves it. -/
theorem tokensFrom_space {b : UInt8} (h : isSpace b = true) (offset : Nat) (bs : Source) :
    tokensFrom offset (b :: bs) = tokensFrom (offset + 1) bs := by
  rw [tokensFrom, if_pos h]

/-- The tokens are the first token and those of the bytes after it. -/
theorem tokensFrom_cons {b : UInt8} (h : isSpace b = false) (offset : Nat) (bs : Source) :
    tokensFrom offset (b :: bs) =
      ⟨(scan b bs).1, ⟨offset, offset + (1 + (scan b bs).2.length)⟩, b :: (scan b bs).2⟩ ::
        tokensFrom (offset + (1 + (scan b bs).2.length)) (bs.drop (scan b bs).2.length) := by
  rw [tokensFrom, if_neg (by simp [h])]

end Token
end Shellward
