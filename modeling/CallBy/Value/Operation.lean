import CallBy.EvalError
import CallBy.Operator

/-!
What the operators and the primitives do with values. Operands are checked from left to right, and
an operator complains about the first operand that does not suit it.
-/

namespace CallBy

namespace Value

/-- The integer that the operator needs. -/
def asInt (op : String) : Value → Except EvalError Int
  | .int n => .ok n
  | v => .error (.needsInt op v)

/-- The truth value that the operator needs. -/
def asBool (op : String) : Value → Except EvalError Bool
  | .bool b => .ok b
  | v => .error (.needsBool op v)

end Value

/-- The result of a unary operator. -/
def UnaryOp.apply (op : UnaryOp) (v : Value) : Except EvalError Value :=
  match op with
  | .plus => do return .int (← v.asInt op.symbol)
  | .minus => do return .int (-(← v.asInt op.symbol))
  | .not => do return .bool (!(← v.asBool op.symbol))

namespace BinaryOp

/-- The result of an operator that works on two integers. -/
def onInts (op : BinaryOp) (a b : Value) (f : Int → Int → Except EvalError Value) :
    Except EvalError Value := do
  let m ← a.asInt op.symbol
  let n ← b.asInt op.symbol
  f m n

/-- The result of a binary operator. Division rounds toward zero. -/
def apply (op : BinaryOp) (a b : Value) : Except EvalError Value :=
  match op with
  | add => op.onInts a b fun m n => .ok (.int (m + n))
  | sub => op.onInts a b fun m n => .ok (.int (m - n))
  | mul => op.onInts a b fun m n => .ok (.int (m * n))
  | div => op.onInts a b fun m n =>
    if n = 0 then .error (.divisionByZero m) else .ok (.int (m.tdiv n))
  | eq => .ok (.bool (a.same b))
  | ne => .ok (.bool (!a.same b))
  | lt => op.onInts a b fun m n => .ok (.bool (m < n))
  | gt => op.onInts a b fun m n => .ok (.bool (n < m))
  | le => op.onInts a b fun m n => .ok (.bool (m ≤ n))
  | ge => op.onInts a b fun m n => .ok (.bool (n ≤ m))

end BinaryOp

/-- The result of the unary operator with this symbol. -/
def applyUnary (symbol : String) (v : Value) : Except EvalError Value :=
  match UnaryOp.ofSymbol? symbol with
  | some op => op.apply v
  | none => .error (.unknownUnary symbol)

/-- The result of the binary operator with this symbol. The connectives are not among them. -/
def applyBinary (symbol : String) (a b : Value) : Except EvalError Value :=
  match BinaryOp.ofSymbol? symbol with
  | some op => op.apply a b
  | none => .error (.unknownBinary symbol)

/-- The result of a primitive on its arguments. -/
def Prim.call : Prim → List Value → Except EvalError Value
  | .isNumber, [v] => .ok (.bool (v matches .int _))
  | .isFunction, [v] => .ok (.bool v.isFunction)
  | .isList, [v] => .ok (.bool v.isList)
  | .isNull, [v] => .ok (.bool (v matches .empty))
  | .isCons, [v] => .ok (.bool (v matches .cons _ _))
  | .arity, [.closure _ ps _ _] => .ok (.int ps.length)
  | .arity, [.prim p] => .ok (.int p.argCount)
  | .arity, [v] => .error (.arityOf v)
  | .cons, [a, r] => if r.isList then .ok (.cons a r) else .error (.consOnto r)
  | .first, [.cons a _] => .ok a
  | .first, [v] => .error (.firstOf v)
  | .rest, [.cons _ r] => .ok r
  | .rest, [v] => .error (.restOf v)
  | .tick, [v] => .ok v
  | p, vs => .error (.miscall p vs.length)

end CallBy
