import CallBy.Text.Printable

/-!
Quoted texts, as messages show them: single quotes, or double quotes around a text that holds a
single quote and no double one; a backslash before a backslash and before the enclosing quote;
escapes for the characters that cannot be printed.
-/

namespace CallBy.Text

/-- The single quote. -/
def singleQuote : Char := '\x27'

/-- The double quote. -/
def doubleQuote : Char := '\x22'

/-- The backslash. -/
def backslash : Char := '\x5c'

/-- The lower-case hexadecimal digits of `n`, with zeros in front up to `width`. -/
def hexadecimal (width n : Nat) : List Char :=
  let ds := Nat.toDigits 16 n
  List.replicate (width - ds.length) '0' ++ ds

/-- The escape of a character by its code point, in two, four or eight digits by its size. -/
def escapeCode (n : Nat) : List Char :=
  if n < 0x100 then backslash :: 'x' :: hexadecimal 2 n
  else if n < 0x10000 then backslash :: 'u' :: hexadecimal 4 n
  else backslash :: 'U' :: hexadecimal 8 n

/-- One character of a text enclosed in the quote `q`. -/
def quotedChar (q c : Char) : List Char :=
  if c = q ∨ c = backslash then [backslash, c]
  else if c = '\t' then [backslash, 't']
  else if c = '\n' then [backslash, 'n']
  else if c = '\r' then [backslash, 'r']
  else if isPrintable c then [c]
  else escapeCode c.toNat

/-- The quote that encloses a text. -/
def enclosing (cs : List Char) : Char :=
  if cs.contains singleQuote && !cs.contains doubleQuote then doubleQuote else singleQuote

/-- The text between quotes. -/
def quoted (s : String) : String :=
  let q := enclosing s.toList
  String.ofList (q :: s.toList.flatMap (quotedChar q) ++ [q])

end CallBy.Text
