import CallBy.Text.Blank
import CallBy.Text.Digit
import CallBy.Text.Quoted
import CallBy.Token

/-!
The tokens of a program text. A text is read as gaps (blanks and comments) and lexemes in turn,
the longest lexeme each time. Reading stops at the first comment without an end and at the first
character that starts no lexeme; the tokens found up to there are kept.

* `skipGap` drops the gap at the front of a text;
* `lexeme?` takes the lexeme at the front of a text;
* `lex` reads a whole text.
-/

namespace CallBy

open Text

/-- Why no further token can be read; positions count characters from 0. -/
inductive LexError where
  | unterminatedComment (pos : Nat)
  | unexpectedChar (pos : Nat) (c : Char)
  deriving DecidableEq, Repr

/-- The wording of the failure. -/
def LexError.message : LexError → String
  | .unterminatedComment pos => "Unterminated comment starting at " ++ pos.repr
  | .unexpectedChar pos c =>
    "Unexpected char at " ++ pos.repr ++ ": " ++ quoted (String.ofList [c])

/-! ### Gaps -/

/-- Where the reader of a gap stands: between comments, in a comment that ends with the line, or in
a bracketed comment, which remembers the text from its opening on. -/
inductive Gap where
  | plain
  | line
  | block (opening : List Char)

/-- The text after the gap at its front. The failure is a bracketed comment without an end, given as
the text from its opening on. -/
def skipGap : Gap → List Char → Except (List Char) (List Char)
  | .plain, '/' :: '/' :: cs => skipGap .line cs
  | .plain, '/' :: '*' :: cs => skipGap (.block ('/' :: '*' :: cs)) cs
  | .plain, c :: cs => if isBlank c then skipGap .plain cs else .ok (c :: cs)
  | .plain, [] => .ok []
  | .line, '\n' :: cs => skipGap .plain cs
  | .line, _ :: cs => skipGap .line cs
  | .line, [] => .ok []
  | .block _, '*' :: '/' :: cs => skipGap .plain cs
  | .block opening, _ :: cs => skipGap (.block opening) cs
  | .block opening, [] => .error opening

/-- What follows a gap is an end of the text. -/
theorem suffix_of_skipGap {g : Gap} {cs rest : List Char} (h : skipGap g cs = .ok rest) :
    rest <:+ cs := by
  fun_induction skipGap g cs with
  | case1 cs ih => exact (ih h).trans ⟨['/', '/'], rfl⟩
  | case2 cs ih => exact (ih h).trans ⟨['/', '*'], rfl⟩
  | case3 c cs _ _ _ ih => exact (ih h).trans (List.suffix_cons c cs)
  | case4 c cs => cases h; exact List.suffix_refl _
  | case5 => cases h; exact List.suffix_refl _
  | case6 cs ih => exact (ih h).trans (List.suffix_cons _ cs)
  | case7 c cs _ ih => exact (ih h).trans (List.suffix_cons c cs)
  | case8 => cases h; exact List.suffix_refl _
  | case9 _ cs ih => exact (ih h).trans ⟨['*', '/'], rfl⟩
  | case10 _ c cs _ ih => exact (ih h).trans (List.suffix_cons c cs)
  | case11 => cases h

/-! ### Lexemes -/

/-- The character can start a name. -/
def isNameStart (c : Char) : Bool := c.isAlpha || c == '_' || c == '?'

/-- The character can continue a name. -/
def isNameChar (c : Char) : Bool := isNameStart c || c.isDigit

/-- The operators and delimiters of one character. -/
def simpleOps : List Char := ['-', '+', '*', '/', '=', '<', '>', '&', '|', '~', ';', ',', '(', ')']

/-- The characters that form an operator with a following `=`. -/
def compoundOps : List Char := [':', '!', '<', '>']

/-- The operator that a character and the text after it form, and what follows it. -/
def operator? (c : Char) : List Char → Option (Token × List Char)
  | '=' :: cs =>
    if c ∈ compoundOps then some (⟨.op, String.ofList [c, '=']⟩, cs)
    else if c ∈ simpleOps then some (⟨.op, String.ofList [c]⟩, '=' :: cs)
    else none
  | cs => if c ∈ simpleOps then some (⟨.op, String.ofList [c]⟩, cs) else none

/-- **The longest lexeme at the front of a text**, and what follows it. -/
def lexeme? : List Char → Option (Token × List Char)
  | [] => none
  | c :: cs =>
    if isDigit c then
      some (⟨.int, String.ofList (c :: cs.takeWhile isDigit)⟩, cs.dropWhile isDigit)
    else if isNameStart c then
      let name := String.ofList (c :: cs.takeWhile isNameChar)
      some (⟨Kind.ofName name, name⟩, cs.dropWhile isNameChar)
    else operator? c cs

/-- An operator and what follows it are the text it was found in. -/
theorem operator?_append {c : Char} {cs rest : List Char} {t : Token}
    (h : operator? c cs = some (t, rest)) : t.text.toList ++ rest = c :: cs := by
  unfold operator? at h
  split at h
  · split at h
    · cases h; simp
    · split at h
      · cases h; simp
      · cases h
  · split at h
    · cases h; simp
    · cases h

/-- A lexeme and what follows it are the text it was found in. -/
theorem lexeme?_append {cs rest : List Char} {t : Token} (h : lexeme? cs = some (t, rest)) :
    t.text.toList ++ rest = cs := by
  unfold lexeme? at h
  split at h
  · cases h
  · split at h
    · cases h; simp
    · split at h
      · cases h; simp
      · exact operator?_append h

theorem operator?_ne_nil {c : Char} {cs rest : List Char} {t : Token}
    (h : operator? c cs = some (t, rest)) : t.text.toList ≠ [] := by
  unfold operator? at h
  split at h
  · split at h
    · cases h; simp
    · split at h
      · cases h; simp
      · cases h
  · split at h
    · cases h; simp
    · cases h

/-- A lexeme has at least one character. -/
theorem lexeme?_ne_nil {cs rest : List Char} {t : Token} (h : lexeme? cs = some (t, rest)) :
    t.text.toList ≠ [] := by
  unfold lexeme? at h
  split at h
  · cases h
  · split at h
    · cases h; simp
    · split at h
      · cases h; simp
      · exact operator?_ne_nil h

theorem length_lt_of_lexeme? {cs rest : List Char} {t : Token} (h : lexeme? cs = some (t, rest)) :
    rest.length < cs.length := by
  have h1 := congrArg List.length (lexeme?_append h)
  have h2 := List.length_pos_iff.2 (lexeme?_ne_nil h)
  simp only [List.length_append] at h1
  omega

/-! ### Whole texts -/

/-- The tokens of a text, and why reading stopped before its end if it did. -/
structure Lexed where
  tokens : List Token
  failure : Option LexError
  deriving DecidableEq, Repr

/-- The tokens of the last characters of a text of `total` characters. -/
def lexFrom (total : Nat) (cs : List Char) : Lexed :=
  match hg : skipGap .plain cs with
  | .error opening => ⟨[], some (.unterminatedComment (total - opening.length))⟩
  | .ok [] => ⟨[], none⟩
  | .ok (c :: rest) =>
    match hl : lexeme? (c :: rest) with
    | none => ⟨[], some (.unexpectedChar (total - (c :: rest).length) c)⟩
    | some (t, after) =>
      have : after.length < cs.length :=
        Nat.lt_of_lt_of_le (length_lt_of_lexeme? hl) (suffix_of_skipGap hg).length_le
      let later := lexFrom total after
      ⟨t :: later.tokens, later.failure⟩
termination_by cs.length

/-- **The tokens of a program text.** -/
def lex (source : String) : Lexed := lexFrom source.length source.toList

end CallBy
