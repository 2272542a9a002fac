import CallBy.Expr
import CallBy.Operator
import CallBy.Token.Stream

/-!
The expression that a stream of tokens spells, by precedence climbing.

Blocks (`if`, `let`, `map`) extend as far to the right as they can and may stand after an operator.
Every phrase that calls for another expression has taken a token before, so the parsers are built in
levels: `Phrases` collects those that a phrase may call once it has taken a token, `Phrases.next`
builds the parsers of one level from those of the level below, and a level as high as the number of
remaining tokens never runs out.
-/

namespace CallBy

open TokenStream

/-- The parsers of a level. -/
structure Phrases where
  /-- An expression. -/
  exp : Parser Expr
  /-- An operand of a unary operator other than a block. -/
  term : Parser Expr
  /-- Operands joined by operators that bind at least so tightly. -/
  binary : Nat → Parser Expr
  /-- What continues such a chain after its first operands. -/
  climb : Nat → Expr → Parser Expr
  /-- The argument lists after a function. -/
  calls : Expr → Parser Expr
  /-- The rest of an argument list after its opening parenthesis. -/
  args : Parser (List Expr)
  /-- The arguments after the first. -/
  moreArgs : Parser (List Expr)
  /-- The parameters after those given. -/
  moreParams : List String → Parser (List String)
  /-- The definitions after those of the given names. -/
  defs : List String → Parser (List (String × Expr))

namespace Phrases

variable (below : Phrases)

/-- The keyword with this text. -/
def keyword (s : String) : Token := ⟨.keyword, s⟩

/-- The operator or delimiter with this text. -/
def symbol (s : String) : Token := ⟨.op, s⟩

/-- The token opens a block. -/
def opensBlock (t : Token) : Bool := t == keyword "if" || t == keyword "let" || t == keyword "map"

/-- Fails if the name is among those the construct has bound already. -/
def fresh (construct x : String) (seen : List String) : Parser Unit :=
  if x ∈ seen then throw (.duplicate x construct) else pure ()

/-- A constant, a name, or an expression in parentheses. The first token is taken whatever it is.
The text of a number is a run of digits, and that of a primitive its name: no other tokens of these
kinds are yielded by the reader. -/
def factor : Parser Expr := do
  match ← advance with
  | none => throw .endOfInput
  | some t =>
    match t.kind with
    | .op =>
      if t.text = "(" then
        let e ← below.exp
        let _ ← expect .op (some ")")
        return e
      else throw (.unexpected t)
    | .int => return .int (Text.decimal t.text.toList)
    | .literal => return if t.text = "null" then .null else .bool (t.text = "true")
    | .prim =>
      match Prim.ofName? t.text with
      | some p => return .prim p
      | none => throw (.unexpected t)
    | .id => return .var t.text
    | .keyword => throw (.unexpected t)

/-- Applications of `e` to the argument lists that follow. -/
def callsNext (e : Expr) : Parser Expr := do
  if (← peek) = some (symbol "(") then
    let _ ← advance
    let as ← below.args
    below.calls (.app e as)
  else return e

/-- The operand of a unary operator: a block or a term. -/
def unaryOperand : Parser Expr := do
  if ← sees opensBlock then below.exp else below.term

/-- A unary operator with its operand, or a factor with the argument lists after it. -/
def termNext : Parser Expr := do
  match ← peek with
  | some ⟨.op, op⟩ =>
    if (UnaryOp.ofSymbol? op).isSome then
      let _ ← advance
      return .unary op (← below.unaryOperand)
    else below.callsNext (← below.factor)
  | _ => below.callsNext (← below.factor)

/-- The right operand of an operator: a block, or a chain that binds at least so tightly. -/
def operand (least : Nat) : Parser Expr := do
  if ← sees opensBlock then below.exp else below.binary least

/-- Joins operands to `left` as long as the operators bind at least so tightly. -/
def climbNext (least : Nat) (left : Expr) : Parser Expr := do
  match ← peek with
  | some ⟨.op, op⟩ =>
    match precedence? op with
    | some p =>
      if p < least then return left
      else
        let _ ← advance
        let right ← below.operand (p + 1)
        below.climb least (.binary op left right)
    | none => return left
  | _ => return left

/-- A chain of operands joined by operators that bind at least so tightly. -/
def binaryNext (least : Nat) : Parser Expr := do
  below.climbNext least (← below.termNext)

/-- The definitions of a `let` after those of the names `seen`. -/
def defsNext (seen : List String) : Parser (List (String × Expr)) := do
  match ← peek with
  | some ⟨.id, x⟩ =>
    let _ ← advance
    fresh "let" x seen
    let _ ← expect .op (some ":=")
    let e ← below.exp
    let _ ← expect .op (some ";")
    let later ← below.defs (seen ++ [x])
    return (x, e) :: later
  | _ => return []

/-- The parameters of a `map` after those in `seen`. -/
def moreParamsNext (seen : List String) : Parser (List String) := do
  if (← peek) = some (symbol ",") then
    let _ ← advance
    let x ← expect .id none
    fresh "map" x seen
    let later ← below.moreParams (seen ++ [x])
    return x :: later
  else return []

/-- The parameters of a `map`. -/
def params : Parser (List String) := do
  match ← peek with
  | some ⟨.id, x⟩ =>
    let _ ← advance
    let later ← below.moreParams [x]
    return x :: later
  | _ => return []

/-- A conditional after its `if`. -/
def conditional : Parser Expr := do
  let test ← below.exp
  let _ ← expect .keyword (some "then")
  let conseq ← below.exp
  let _ ← expect .keyword (some "else")
  let alt ← below.exp
  return .ite test conseq alt

/-- Definitions and their body after a `let`. -/
def definitions : Parser Expr := do
  let ds ← below.defs []
  if ds.isEmpty then throw .emptyLet
  let _ ← expect .keyword (some "in")
  let body ← below.exp
  return .letIn ds body

/-- A function after its `map`. -/
def function : Parser Expr := do
  let ps ← below.params
  let _ ← expect .keyword (some "to")
  let body ← below.exp
  return .map ps body

/-- An expression: a block, or a chain of operands. -/
def expNext : Parser Expr := do
  let next ← peek
  if next = some (keyword "if") then
    let _ ← advance
    below.conditional
  else if next = some (keyword "let") then
    let _ ← advance
    below.definitions
  else if next = some (keyword "map") then
    let _ ← advance
    below.function
  else below.binaryNext 1

/-- The arguments after the first, each after a comma. -/
def moreArgsNext : Parser (List Expr) := do
  if (← peek) = some (symbol ",") then
    let _ ← advance
    let e ← below.exp
    let later ← below.moreArgs
    return e :: later
  else return []

/-- The arguments up to the closing parenthesis, which is taken too. -/
def argsNext : Parser (List Expr) := do
  if (← peek) = some (symbol ")") then
    let _ ← advance
    return []
  else
    let e ← below.expNext
    let later ← below.moreArgsNext
    let _ ← expect .op (some ")")
    return e :: later

/-- The level above. -/
def next : Phrases where
  exp := below.expNext
  term := below.termNext
  binary := below.binaryNext
  climb := below.climbNext
  calls := below.callsNext
  args := below.argsNext
  moreArgs := below.moreArgsNext
  moreParams := below.moreParamsNext
  defs := below.defsNext

/-- The level that cannot take a token. -/
def bottom : Phrases where
  exp := throw .endOfInput
  term := throw .endOfInput
  binary _ := throw .endOfInput
  climb _ _ := throw .endOfInput
  calls _ := throw .endOfInput
  args := throw .endOfInput
  moreArgs := throw .endOfInput
  moreParams _ := throw .endOfInput
  defs _ := throw .endOfInput

/-- The parsers that are right on streams of fewer than `n` tokens. -/
def level : Nat → Phrases
  | 0 => bottom
  | n + 1 => (level n).next

/-- A phrase with enough levels below it for the tokens that remain. -/
def onStream {α : Type} (phrase : Phrases → Parser α) : Parser α := fun s =>
  phrase (level s.remaining) s

end Phrases

namespace Parser

/-- An expression. -/
def exp : Parser Expr := Phrases.onStream Phrases.expNext

/-- A chain of operands joined by operators that bind at least so tightly. -/
def binary (least : Nat) : Parser Expr := Phrases.onStream (Phrases.binaryNext · least)

/-- A unary operator with its operand, or a factor with the argument lists after it. -/
def term : Parser Expr := Phrases.onStream Phrases.termNext

/-- A constant, a name, or an expression in parentheses. -/
def factor : Parser Expr := Phrases.onStream Phrases.factor

/-- The arguments up to the closing parenthesis. -/
def args : Parser (List Expr) := Phrases.onStream Phrases.argsNext

/-- A whole program: an expression and nothing after it. -/
def program : Parser Expr := do
  let e ← exp
  match ← peek with
  | none => return e
  | some t => throw (.afterEnd t)

end Parser

/-- **The expression that a program text spells**, or why the text is rejected. -/
def Expr.parse (source : String) : Except ParseError Expr :=
  match Parser.program (TokenStream.ofSource source) with
  | .ok e _ => .ok e
  | .error e _ => .error e

end CallBy
