import CallBy.Value.Render

/-!
What can go wrong in an evaluation, by cause, and the wording of each cause.
-/

namespace CallBy

/-- The kinds of evaluation error. -/
inductive ErrorKind where
  | unboundVariable | wrongType | wrongArity | arithmetic | selfReference | miscall
  deriving DecidableEq, Repr

/-- Why an evaluation fails. -/
inductive EvalError where
  /-- No frame binds the variable. -/
  | unbound (x : String)
  /-- The variable is bound, and its definition has not been reached. -/
  | undefined (x : String)
  /-- A shared computation needs its own result. -/
  | selfReference (x : String) (e : Expr)
  /-- The test of a conditional is no truth value. -/
  | testNotBool (conditional : Expr) (v : Value)
  /-- A datum was evaluated; the text is its structural one. -/
  | notExpression (inspected : String)
  /-- A value that is no function was applied. -/
  | notFunction (v : Value)
  /-- A closure was applied to a wrong number of arguments. -/
  | closureArity (fn : Value) (params given : Nat)
  /-- A primitive was applied to a wrong number of arguments. -/
  | primArity (p : Prim) (given : Nat)
  /-- An operator needs an integer. -/
  | needsInt (op : String) (v : Value)
  /-- An operator needs a truth value. -/
  | needsBool (op : String) (v : Value)
  /-- A division by zero, with its dividend. -/
  | divisionByZero (n : Int)
  /-- The symbol is no unary operator. -/
  | unknownUnary (op : String)
  /-- The symbol is no binary operator. -/
  | unknownBinary (op : String)
  /-- Only functions have an arity. -/
  | arityOf (v : Value)
  /-- A pair whose second part is no list. -/
  | consOnto (v : Value)
  /-- Only pairs have a first part. -/
  | firstOf (v : Value)
  /-- Only pairs have a rest. -/
  | restOf (v : Value)
  /-- The function of a primitive was called with a wrong number of values. -/
  | miscall (p : Prim) (given : Nat)
  deriving DecidableEq, Repr

namespace EvalError

/-- The kind of the error. -/
def kind : EvalError → ErrorKind
  | unbound _ | undefined _ => .unboundVariable
  | selfReference _ _ => .selfReference
  | closureArity _ _ _ | primArity _ _ => .wrongArity
  | divisionByZero _ => .arithmetic
  | miscall _ _ => .miscall
  | testNotBool _ _ | notExpression _ | notFunction _ | needsInt _ _ | needsBool _ _
  | unknownUnary _ | unknownBinary _ | arityOf _ | consOnto _ | firstOf _ | restOf _ => .wrongType

/-- What a message says about the numbers of arguments. -/
def countClause (expected given : Nat) : String :=
  " expects " ++ expected.repr ++ " argument(s); got " ++ given.repr

/-- The wording of the error. -/
def message : EvalError → String
  | unbound x => "Unbound variable " ++ x
  | undefined x => "Variable " ++ x ++ " referenced before its definition"
  | selfReference x e => "Binding of " ++ x ++ " forced while being computed: " ++ e.render
  | testNotBool e v => "Test of '" ++ e.render ++ "' is not a boolean: " ++ v.render
  | notExpression s => "Cannot evaluate " ++ s
  | notFunction v => "Cannot apply non-function " ++ v.render
  | closureArity fn params given => fn.render ++ countClause params given
  | primArity p given => "Primitive " ++ p.name ++ countClause p.argCount given
  | needsInt op v => "Operator " ++ op ++ " expects an integer; got " ++ v.render
  | needsBool op v => "Operator " ++ op ++ " expects a boolean; got " ++ v.render
  | divisionByZero n => "Division by zero: " ++ n.repr ++ " / 0"
  | unknownUnary op => "Unknown unary operator " ++ op
  | unknownBinary op => "Unknown binary operator " ++ op
  | arityOf v => "arity expects a function; got " ++ v.render
  | consOnto v => "cons expects a list as its second argument; got " ++ v.render
  | firstOf v => "first expects a non-empty list; got " ++ v.render
  | restOf v => "rest expects a non-empty list; got " ++ v.render
  | miscall p given => p.name ++ countClause p.argCount given

end EvalError

end CallBy
