import CallBy.Token.Lexer

/-!
A stream of tokens with one token of look-ahead, the reasons a program text is rejected, and the
parsers that work on a stream.

The tokens still to come are handed out one by one. When they are used up and the text could not be
read to its end, the next request fails with the reader's own failure; after that the stream is at
its end. A parser keeps what it has taken from the stream also when it fails.
-/

namespace CallBy

open Text

/-- Why a program text is rejected. -/
inductive ParseError where
  /-- The text has no further token. -/
  | lexical (e : LexError)
  /-- Something else stands where a certain token is needed; `none` is the end of the text. -/
  | expected (wanted : String) (found : Option Token)
  /-- A token after a complete program. -/
  | afterEnd (t : Token)
  /-- The text ends where an expression is needed. -/
  | endOfInput
  /-- A token that starts no expression. -/
  | unexpected (t : Token)
  /-- A `let` without definitions. -/
  | emptyLet
  /-- A name bound twice by one construct. -/
  | duplicate (x construct : String)
  deriving DecidableEq, Repr

/-- The wording of the reason. -/
def ParseError.message : ParseError → String
  | .lexical e => e.message
  | .expected wanted none => "Expected " ++ wanted ++ " but found end of input"
  | .expected wanted (some t) => "Expected " ++ wanted ++ " but found " ++ quoted t.text
  | .afterEnd t => "Unexpected " ++ quoted t.text ++ " after end of program"
  | .endOfInput => "Unexpected end of input"
  | .unexpected t => "Unexpected token: " ++ t.kind.label ++ " " ++ quoted t.text
  | .emptyLet => "let requires at least one definition"
  | .duplicate x construct => "Duplicate variable " ++ x ++ " in " ++ construct

/-- A stream of tokens. -/
structure TokenStream where
  /-- The token that has been looked at and not taken. -/
  buffer : Option Token := none
  /-- The tokens to come after it. -/
  pending : List Token
  /-- The failure to report after the last token. -/
  failure : Option LexError := none
  deriving DecidableEq, Repr

/-- A parser takes tokens from a stream; the stream is kept when it fails. -/
abbrev Parser := EStateM ParseError TokenStream

namespace TokenStream

/-- The tokens of a program text as a stream. -/
def ofSource (source : String) : TokenStream :=
  { pending := (lex source).tokens, failure := (lex source).failure }

/-- The tokens that can still be taken, in order. -/
def toList (s : TokenStream) : List Token := s.buffer.toList ++ s.pending

/-- The number of tokens that can still be taken. -/
def remaining (s : TokenStream) : Nat := s.toList.length

/-- The next token that has not been looked at. -/
def pull : Parser (Option Token) := fun s =>
  match s.pending with
  | t :: ts => .ok (some t) { s with pending := ts }
  | [] =>
    match s.failure with
    | some e => .error (.lexical e) { s with failure := none }
    | none => .ok none s

/-- The next token, which stays in the stream; `none` at the end. -/
def peek : Parser (Option Token) := fun s =>
  match s.buffer with
  | some t => .ok (some t) s
  | none =>
    match pull s with
    | .ok t s => .ok t { s with buffer := t }
    | .error e s => .error e s

/-- Takes the next token; `none` at the end. -/
def advance : Parser (Option Token) := fun s =>
  match s.buffer with
  | some t => .ok (some t) { s with buffer := none }
  | none => pull s

/-- Looking at the next token takes nothing from the stream. -/
theorem toList_of_peek {s s' : TokenStream} {t : Option Token} (h : peek s = .ok t s') :
    s'.toList = s.toList ∧ t = s.toList.head? := by
  obtain ⟨buffer, pending, failure⟩ := s
  rcases buffer with _ | b
  · rcases pending with _ | ⟨p, ps⟩
    · rcases failure with _ | e <;> simp [peek, pull] at h
      obtain ⟨rfl, rfl⟩ := h
      exact ⟨rfl, rfl⟩
    · simp only [peek, pull, EStateM.Result.ok.injEq] at h
      obtain ⟨rfl, rfl⟩ := h
      exact ⟨rfl, rfl⟩
  · simp only [peek, EStateM.Result.ok.injEq] at h
    obtain ⟨rfl, rfl⟩ := h
    exact ⟨rfl, rfl⟩

/-- Taking a token takes the first one, and nothing at the end. -/
theorem toList_of_advance {s s' : TokenStream} {t : Option Token} (h : advance s = .ok t s') :
    s.toList = t.toList ++ s'.toList := by
  obtain ⟨buffer, pending, failure⟩ := s
  rcases buffer with _ | b
  · rcases pending with _ | ⟨p, ps⟩
    · rcases failure with _ | e <;> simp [advance, pull] at h
      obtain ⟨rfl, rfl⟩ := h
      rfl
    · simp only [advance, pull, EStateM.Result.ok.injEq] at h
      obtain ⟨rfl, rfl⟩ := h
      rfl
  · simp only [advance, EStateM.Result.ok.injEq] at h
    obtain ⟨rfl, rfl⟩ := h
    rfl

/-- The next token passes the test. -/
def sees (test : Token → Bool) : Parser Bool := do
  return (← peek).any test

/-- Takes the next token, whatever it is, and fails unless it passes the test. -/
def demand (test : Token → Bool) (wanted : String) : Parser String := do
  match ← advance with
  | none => throw (.expected wanted none)
  | some t => if test t then return t.text else throw (.expected wanted (some t))

/-- What a demand for a token says it wants: the text if there is one, else the kind. -/
def wanted (kind : Kind) (text? : Option String) : String :=
  match text? with
  | some s => quoted s
  | none => kind.label

/-- Takes a token of this kind and, if given, this text. -/
def expect (kind : Kind) (text? : Option String) : Parser String :=
  demand (Token.fits kind text?) (wanted kind text?)

end TokenStream

end CallBy
