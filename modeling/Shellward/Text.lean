/-!
# Operations on text

White space, trimming at one end, and upper case.  Each operation is a list
operation on the characters.
-/

namespace Shellward
namespace Text

/-- White space: the characters with the Unicode property `White_Space`. -/
def isBlank (c : Char) : Bool :=
  let n := c.toNat
  (0x09 ≤ n && n ≤ 0x0d) || n == 0x20 || n == 0x85 || n == 0xa0 || n == 0x1680 ||
    (0x2000 ≤ n && n ≤ 0x200a) || n == 0x2028 || n == 0x2029 || n == 0x202f ||
    n == 0x205f || n == 0x3000

/-- Drop the leading characters that satisfy a test. -/
def trimStart (drop : Char → Bool) (text : String) : String :=
  String.ofList (text.toList.dropWhile drop)

/-- Drop the trailing characters of a list that satisfy a test. -/
def trimEndChars (drop : Char → Bool) (chars : List Char) : List Char :=
  (chars.reverse.dropWhile drop).reverse

/-- Drop the trailing characters that satisfy a test. -/
def trimEnd (drop : Char → Bool) (text : String) : String :=
  String.ofList (trimEndChars drop text.toList)

/-- Drop the characters that satisfy a test at both ends. -/
def trim (drop : Char → Bool) (text : String) : String :=
  trimEnd drop (trimStart drop text)

/-- Put the ASCII letters in upper case. -/
def upper (text : String) : String :=
  String.ofList (text.toList.map Char.toUpper)

/-- A text of `n` equal characters. -/
def replicate (n : Nat) (c : Char) : String :=
  String.ofList (List.replicate n c)

end Text
end Shellward
