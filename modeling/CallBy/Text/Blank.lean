/-!
Blanks: the characters that separate words and stand around a setting's value.
-/

namespace CallBy.Text

/-- The code points of the blank characters: the ASCII layout controls, the four information
separators, the space and its Unicode relatives, and the line and paragraph separators. -/
def isBlankCode (n : Nat) : Bool :=
  (0x09 ≤ n && n ≤ 0x0D) || (0x1C ≤ n && n ≤ 0x20) || n == 0x85 || n == 0xA0 || n == 0x1680 ||
  (0x2000 ≤ n && n ≤ 0x200A) || n == 0x2028 || n == 0x2029 || n == 0x202F || n == 0x205F ||
  n == 0x3000

/-- The character is blank. -/
def isBlank (c : Char) : Bool := isBlankCode c.toNat

/-- The text without the blanks at its two ends. -/
def trim (s : String) : String :=
  String.ofList (((s.toList.dropWhile isBlank).reverse.dropWhile isBlank).reverse)

end CallBy.Text
