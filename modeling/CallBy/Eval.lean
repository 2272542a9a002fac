import CallBy.Machine
import CallBy.Strategy
import CallBy.Value.Operation

/-!
Evaluation of expressions under the three strategies.

`step` evaluates an expression with the evaluation of its parts left to a function `run`; `eval`
closes the knot under a bound on the number of nested evaluations. What resolving a variable,
applying a function and building a binding mean is said on the way, each in terms of `run`. A
failing evaluation keeps the machine as it is at the failure, except that every shared computation
that it leaves unfinished is as if it had not begun.
-/

namespace CallBy

/-- Why an evaluation stops without a value: an error of the program, or too many nested
evaluations. -/
inductive Stop where
  | error (e : EvalError)
  | tooDeep
  deriving DecidableEq, Repr

/-- A computation on the machine. -/
abbrev Eval := EStateM Stop Machine

namespace Eval

/-! ### Operations of the machine -/

/-- Fails with an error of the program. -/
def fail {α : Type} (e : EvalError) : Eval α := throw (.error e)

/-- The result of an operation on values. -/
def lift {α : Type} : Except EvalError α → Eval α
  | .ok a => pure a
  | .error e => fail e

/-- Adds a binding; the result is its address. -/
def newBinding (b : Binding) : Eval BindingId := fun m => .ok m.bindings.size (m.addBinding b)

/-- Adds a frame; the result is its address. -/
def newFrame (f : Frame) : Eval FrameId := fun m => .ok m.frames.size (m.addFrame f)

/-- Makes a closure with an identity of its own. -/
def newClosure (params : List String) (body : Expr) (env : Env) : Eval Value := fun m =>
  .ok (.closure m.closures params body env) { m with closures := m.closures + 1 }

/-- Points a variable of a frame to a binding. -/
def setSlot (f : FrameId) (x : String) (i : BindingId) : Eval Unit := fun m =>
  .ok () (m.setSlot f x i)

/-- The address of the binding of a variable. -/
def lookup (env : Env) (x : String) : Eval BindingId := fun m =>
  match m.lookup? env x with
  | some i => .ok i m
  | none => .error (.error (.unbound x)) m

/-- The result of a primitive; the tick reports its argument. -/
def callPrim (p : Prim) (vs : List Value) : Eval Value := fun m =>
  match p, vs with
  | .tick, [v] => .ok v (m.report v)
  | p, vs => lift (p.call vs) m

/-! ### Evaluation in terms of the evaluation of parts -/

section Step

variable (d : Discipline) (run : Env → Expr → Eval Value)

/-- Computes a shared binding: it is marked as running, and in the end it holds the value, or on
failure the computation again. -/
def force (i : BindingId) (x : String) (e : Expr) (env : Env) : Eval Value := fun m =>
  match run env e (m.setBinding i (.need x (.running e env))) with
  | .ok v m => .ok v (m.setBinding i (.need x (.done v)))
  | .error s m => .error s (m.setBinding i (.need x (.pending e env)))

/-- The value of the variable bound at an address. -/
def resolve (i : BindingId) : Eval Value := fun m =>
  match m.binding i with
  | .undefined x => fail (.undefined x) m
  | .value _ v => .ok v m
  | .name _ e env => run env e m
  | .need x (.pending e env) => force run i x e env m
  | .need x (.running e _) => fail (.selfReference x e) m
  | .need _ (.done v) => .ok v m

/-- Binds a variable to an expression as the strategy says. -/
def bindVar (env : Env) (x : String) (e : Expr) : Eval BindingId :=
  match d.strategy with
  | .value => do newBinding (.value x (← run env e))
  | .name => newBinding (.name x e env)
  | .need => newBinding (.need x (.pending e env))

/-- Binds variables to expressions from left to right. -/
def bindAll (env : Env) : List (String × Expr) → Eval (List (String × BindingId))
  | [] => return []
  | (x, e) :: ds => do
    let i ← bindVar d run env x e
    let later ← bindAll env ds
    return (x, i) :: later

/-- Evaluates expressions from left to right. -/
def evalAll (env : Env) : List Expr → Eval (List Value)
  | [] => return []
  | e :: es => do
    let v ← run env e
    let later ← evalAll env es
    return v :: later

/-- Applies a value to argument expressions of the environment `env`. -/
def apply (env : Env) (head : Value) (args : List Expr) : Eval Value :=
  match head with
  | .closure _ params body captured =>
    if args.length = params.length then do
      let slots ← bindAll d run env (params.zip args)
      let f ← newFrame (Frame.ofSlots slots)
      run (f :: captured) body
    else fail (.closureArity head params.length args.length)
  | .prim p =>
    if args.length = p.argCount then do
      let vs ← evalAll run env args
      callPrim p vs
    else fail (.primArity p args.length)
  | v => fail (.notFunction v)

/-- An undefined binding for every definition. -/
def reserve : List (String × Expr) → Eval (List (String × BindingId))
  | [] => return []
  | (x, _) :: ds => do
    let i ← newBinding (.undefined x)
    let later ← reserve ds
    return (x, i) :: later

/-- Fills the slots of a frame from left to right, with definitions of the environment `env`. -/
def fill (f : FrameId) (env : Env) : List (String × Expr) → Eval Unit
  | [] => return ()
  | (x, e) :: ds => do
    let i ← bindVar d run env x e
    setSlot f x i
    fill f env ds

/-- The environment of the body of a `let`. With recursive definitions the frame is there first,
all undefined, and is filled while the definitions see it; without, the definitions are those of the
surrounding environment. -/
def define (env : Env) (ds : List (String × Expr)) : Eval Env :=
  if d.recursiveLet then do
    let slots ← reserve ds
    let f ← newFrame (Frame.ofSlots slots)
    fill d run f (f :: env) ds
    return f :: env
  else do
    let slots ← bindAll d run env ds
    let f ← newFrame (Frame.ofSlots slots)
    return f :: env

/-- The value of a connective, whose right operand is evaluated only if the left one leaves the
matter open. -/
def connect (op : Connective) (env : Env) (l r : Expr) : Eval Value := do
  let a ← run env l
  let b ← lift (a.asBool op.symbol)
  if b = op.settledBy then return .bool b
  let c ← run env r
  return .bool (← lift (c.asBool op.symbol))

/-- The value of a conditional. -/
def branch (env : Env) (t c a : Expr) : Eval Value := do
  match ← run env t with
  | .bool true => run env c
  | .bool false => run env a
  | v => fail (.testNotBool (.ite t c a) v)

/-- **One evaluation**, with nested evaluations left to `run`. -/
def step (env : Env) : Expr → Eval Value
  | .int n => return .int n
  | .bool b => return .bool b
  | .null => return .empty
  | .prim p => return .prim p
  | .var x => do resolve run (← lookup env x)
  | .unary op a => do lift (applyUnary op (← run env a))
  | .binary op l r =>
    match Connective.ofSymbol? op with
    | some c => connect run c env l r
    | none => do
      let a ← run env l
      let b ← run env r
      lift (applyBinary op a b)
  | .ite t c a => branch run env t c a
  | .map ps b => newClosure ps b env
  | .app f as => do apply d run env (← run env f) as
  | .letIn ds b => do run (← define d run env ds) b
  | .datum _ s => fail (.notExpression s)

end Step

/-- **Evaluation** of an expression in an environment with at most `n` nested evaluations. -/
def eval (d : Discipline) : Nat → Env → Expr → Eval Value
  | 0 => fun _ _ => throw .tooDeep
  | n + 1 => step d (eval d n)

/-- The bound on nested evaluations that programs are run with. -/
def nestingLimit : Nat := 2000

/-- The value of an expression in a new empty environment. -/
def evalClosed (d : Discipline) (n : Nat) (e : Expr) : Eval Value := do
  let f ← newFrame Frame.empty
  eval d n [f] e

end Eval

end CallBy
