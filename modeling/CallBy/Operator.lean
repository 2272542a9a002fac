/-!
The operators of the language: their symbols, and how tightly the binary ones bind.
-/

namespace CallBy

/-- The unary operators. -/
inductive UnaryOp where
  | plus | minus | not
  deriving DecidableEq, Repr

/-- The two connectives, which may leave their right operand alone. -/
inductive Connective where
  | and | or
  deriving DecidableEq, Repr

/-- The binary operators that need the values of both operands. -/
inductive BinaryOp where
  | add | sub | mul | div | eq | ne | lt | gt | le | ge
  deriving DecidableEq, Repr

namespace UnaryOp

def symbol : UnaryOp → String
  | plus => "+"
  | minus => "-"
  | not => "~"

/-- The unary operator that a symbol stands for. -/
def ofSymbol? : String → Option UnaryOp
  | "+" => some plus
  | "-" => some minus
  | "~" => some not
  | _ => none

end UnaryOp

namespace Connective

def symbol : Connective → String
  | and => "&"
  | or => "|"

/-- The connective that a symbol stands for. -/
def ofSymbol? : String → Option Connective
  | "&" => some and
  | "|" => some or
  | _ => none

/-- The truth value of the left operand that settles the whole. -/
def settledBy : Connective → Bool
  | and => false
  | or => true

end Connective

namespace BinaryOp

def symbol : BinaryOp → String
  | add => "+"
  | sub => "-"
  | mul => "*"
  | div => "/"
  | eq => "="
  | ne => "!="
  | lt => "<"
  | gt => ">"
  | le => "<="
  | ge => ">="

/-- The binary operator that a symbol stands for. -/
def ofSymbol? : String → Option BinaryOp
  | "+" => some add
  | "-" => some sub
  | "*" => some mul
  | "/" => some div
  | "=" => some eq
  | "!=" => some ne
  | "<" => some lt
  | ">" => some gt
  | "<=" => some le
  | ">=" => some ge
  | _ => none

theorem symbol_of_ofSymbol? {s : String} {op : BinaryOp} (h : ofSymbol? s = some op) :
    op.symbol = s := by
  unfold ofSymbol? at h
  split at h <;> cases h <;> rfl

end BinaryOp

/-- How tightly the operator between two operands binds, from 1 for the loosest to 5; `none` for a
symbol that is no such operator. Operators of one strength group to the left. -/
def precedence? : String → Option Nat
  | "|" => some 1
  | "&" => some 2
  | "=" | "!=" | "<" | ">" | "<=" | ">=" => some 3
  | "+" | "-" => some 4
  | "*" | "/" => some 5
  | _ => none

/-- The symbols with a precedence are those of the connectives and the binary operators. -/
theorem isSome_precedence? (s : String) :
    (precedence? s).isSome =
      ((Connective.ofSymbol? s).isSome || (BinaryOp.ofSymbol? s).isSome) := by
  unfold precedence?
  split
  all_goals try rfl
  unfold Connective.ofSymbol? BinaryOp.ofSymbol?
  split <;> split <;> simp_all

end CallBy
