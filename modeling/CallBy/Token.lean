import CallBy.Prim

/-!
Tokens: a kind and the text it was written with.
-/

namespace CallBy

/-- The kinds of token. -/
inductive Kind where
  | int | op | keyword | literal | prim | id
  deriving DecidableEq, Repr

namespace Kind

/-- The word for a kind, as messages use it. -/
def label : Kind → String
  | int => "int"
  | op => "op"
  | keyword => "keyword"
  | literal => "literal"
  | prim => "prim"
  | id => "id"

/-- All kinds. -/
def all : List Kind := [int, op, keyword, literal, prim, id]

/-- The kind that a word names. -/
def ofLabel? (s : String) : Option Kind := all.find? (·.label == s)

/-- The kind of a name: keywords, literals and primitives are reserved, every other name is an
identifier. -/
def ofName (s : String) : Kind :=
  if s ∈ ["if", "then", "else", "let", "in", "map", "to"] then keyword
  else if s ∈ ["true", "false", "null"] then literal
  else if (Prim.ofName? s).isSome then prim
  else id

end Kind

/-- A token of the program text. -/
structure Token where
  kind : Kind
  text : String
  deriving DecidableEq, Repr

namespace Token

/-- The token is of this kind and, if a text is asked for, has this text. -/
def fits (kind : Kind) (text? : Option String) (t : Token) : Bool :=
  t.kind == kind && text?.all (t.text == ·)

end Token

end CallBy
