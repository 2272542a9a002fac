import CallBy.Proofs.Bare
import CallBy.Proofs.Storeless

/-!
Call by name in which everything that is made has a name.

The expression of a variable is evaluated anew for every use, and still every use gives the same
value, identities of closures included: what a computation makes is named by the computation and
counted from zero, so computing again makes the same names again. This is how sharing is explained
without a store. A list of the bindings that are being computed tells a self-reference.

* `Name`: of a computation, and of what it makes. A name may hold a number for the attempt, since a
  computation that failed is begun again;
* `Cell`: a shared binding, as the expression, the scope and the name that it has;
* `Named.eval` starts from a machine, the base, whose bindings and closures have names of their own.
-/

namespace CallBy

namespace Named

/-- The name of a computation or of something that a computation has made. -/
inductive Name where
  /-- A binding or closure of the base. -/
  | base (i : Nat)
  /-- A whole run. -/
  | main (p : Nat)
  /-- An attempt to compute the binding. -/
  | attempt (c : Name) (s : Nat)
  /-- What the computation `o` has made after `k` other things. -/
  | event (o : Name) (k : Nat)
  deriving DecidableEq

/-- An environment without a store. The `k`th and the following things that the computation `o`
makes are the bindings of its innermost frame. -/
inductive Scope where
  /-- An environment of the base. -/
  | base (env : Env)
  /-- Definitions read in the scope `home`, in front of `outer`. -/
  | call (o : Name) (k : Nat) (defs : List (String × Expr)) (home outer : Scope)
  /-- Definitions read in this very scope, in front of `outer`. -/
  | letrec (o : Name) (k : Nat) (defs : List (String × Expr)) (outer : Scope)

/-- A shared binding: its name, its variable, and the expression with the scope it is read in. -/
structure Cell where
  name : Name
  var : String
  body : Expr
  home : Scope

/-- What a variable is bound to. -/
inductive Entry where
  /-- Nothing: a placeholder of the base. -/
  | undefined (x : String)
  /-- A value of the base. -/
  | given (v : Value)
  /-- An expression of the base that is computed anew for every use. -/
  | anew (e : Expr) (env : Env)
  /-- A shared binding. -/
  | cell (c : Cell)

/-- What a binding of the base is. -/
def Entry.ofBinding (i : Nat) : Binding → Entry
  | .undefined x => undefined x
  | .value _ v | .need _ (.done v) => given v
  | .name _ e env => anew e env
  | .need x (.pending e env) | .need x (.running e env) => cell ⟨.base i, x, e, .base env⟩

/-- The bindings of definitions, named in order. -/
def cells (o : Name) (home : Scope) : Nat → List (String × Expr) → List (String × Entry)
  | _, [] => []
  | k, (x, e) :: ds => (x, .cell ⟨.event o k, x, e, home⟩) :: cells o home (k + 1) ds

namespace Scope

/-- What the innermost frame binds a variable to. -/
def own? (base : Machine) (x : String) : Scope → Option Entry
  | .base env => (base.lookup? env x).map fun i => .ofBinding i (base.binding i)
  | .call o k ds home _ => lastOf? x (cells o home k ds)
  | .letrec o k ds outer => lastOf? x (cells o (.letrec o k ds outer) k ds)

/-- What a variable is bound to. -/
def lookup? (base : Machine) (x : String) : Scope → Option Entry
  | .base env => own? base x (.base env)
  | .call o k ds home outer => (own? base x (.call o k ds home outer)).or (lookup? base x outer)
  | .letrec o k ds outer => (own? base x (.letrec o k ds outer)).or (lookup? base x outer)

/-- The scope of the body of a `let`. -/
def define (recursiveLet : Bool) (o : Name) (k : Nat) (ds : List (String × Expr)) (σ : Scope) :
    Scope :=
  if recursiveLet then .letrec o k ds σ else .call o k ds σ σ

end Scope

/-- A value whose closures have names and hold scopes. -/
inductive Val where
  | int (n : Int)
  | bool (b : Bool)
  | empty
  | cons (first rest : Val)
  | closure (id : Name) (params : List String) (body : Expr) (scope : Scope)
  | prim (p : Prim)

namespace Val

/-- The value with nothing of its closures but parameters and body. -/
def bare : Val → Value
  | int n => .int n
  | bool b => .bool b
  | empty => .empty
  | cons a r => .cons a.bare r.bare
  | closure _ ps b _ => .closure 0 ps b []
  | prim p => .prim p

/-- A value of the base. -/
def ofValue : Value → Val
  | .int n => int n
  | .bool b => bool b
  | .empty => empty
  | .cons a r => cons (ofValue a) (ofValue r)
  | .closure i ps b env => closure (.base i) ps b (.base env)
  | .prim p => prim p

/-- Equality of the language: closures by their names. -/
def same : Val → Val → Bool
  | int m, int n => m == n
  | bool a, bool b => a == b
  | empty, empty => true
  | cons a r, cons b s => same a b && same r s
  | closure i _ _ _, closure j _ _ _ => i == j
  | prim p, prim q => p == q
  | _, _ => false

end Val

/-! ### Computations -/

/-- What a computation has done itself: the number of things made, the texts reported and the shared
bindings read. What is done to compute these is not counted. -/
structure Own where
  made : Nat := 0
  reports : List String := []
  reads : List Cell := []

/-- A computation. -/
abbrev Course := StateT Own (Except Stop)

/-- The circumstances of a computation: the attempt at which each shared binding is computed, and
the bindings that are being computed. -/
structure Context where
  stamp : Name → Nat
  under : List Name

namespace Course

/-- Ends with an error of the program. -/
def fail {α : Type} (e : EvalError) : Course α := fun _ => .error (.error e)

/-- The result of an operation on values. -/
def lift {α : Type} : Except EvalError α → Course α
  | .ok a => pure a
  | .error e => fail e

/-- Makes `n` things; the result is the number of the first one. -/
def make (n : Nat) : Course Nat := fun own => .ok (own.made, { own with made := own.made + n })

/-- Reports a text. -/
def report {α : Type} (s : String) (a : α) : Course α := fun own =>
  .ok (a, { own with reports := own.reports ++ [s] })

variable {α β : Type} {x : Course α} {f : α → Course β} {own own' : Own}

theorem bind_of_ok {a : α} (h : x own = .ok (a, own')) : (x >>= f) own = f a own' := by
  show (x own >>= fun p => f p.1 p.2) = _
  rw [h]
  rfl

theorem bind_of_error {s : Stop} (h : x own = .error s) : (x >>= f) own = .error s := by
  show (x own >>= fun p => f p.1 p.2) = _
  rw [h]
  rfl

end Course

/-! ### Evaluation -/

section Step

variable (base : Machine) (recursiveLet : Bool) (run : Context → Name → Scope → Expr → Course Val)

/-- Computes a shared binding on its own account. -/
def compute (C : Context) (c : Cell) : Course Val := fun own =>
  match run { C with under := c.name :: C.under } (.attempt c.name (C.stamp c.name)) c.home c.body
    {} with
  | .ok (v, _) => .ok (v, { own with reads := own.reads ++ [c] })
  | .error s => .error s

/-- The value of what a variable is bound to. -/
def read (C : Context) (o : Name) : Entry → Course Val
  | .undefined x => .fail (.undefined x)
  | .given v => return .ofValue v
  | .anew e env => run C o (.base env) e
  | .cell c =>
    if c.name ∈ C.under then .fail (.selfReference c.var c.body) else compute run C c

/-- The value of a variable. -/
def ofVar (C : Context) (o : Name) (σ : Scope) (x : String) : Course Val :=
  match σ.lookup? base x with
  | some t => read run C o t
  | none => .fail (.unbound x)

variable (part : Scope → Expr → Course Val) (o : Name) (σ : Scope)

/-- Evaluates expressions from left to right. -/
def evalAll : List Expr → Course (List Val)
  | [] => return []
  | e :: es => do
    let v ← part σ e
    let later ← evalAll es
    return v :: later

/-- The result of a binary operator. -/
def applyBinary (op : String) (a b : Val) : Except EvalError Val :=
  match BinaryOp.ofSymbol? op with
  | some .eq => .ok (.bool (a.same b))
  | some .ne => .ok (.bool (!a.same b))
  | _ => (CallBy.applyBinary op a.bare b.bare).map .ofValue

/-- The result of a primitive on its arguments. What is no part of an argument and no pair of
arguments holds no closure. -/
def call : Prim → List Val → Except EvalError Val
  | .cons, [a, .empty] => .ok (.cons a .empty)
  | .cons, [a, .cons b r] => .ok (.cons a (.cons b r))
  | .first, [.cons a _] => .ok a
  | .rest, [.cons _ r] => .ok r
  | p, vs => (p.call (vs.map Val.bare)).map Val.ofValue

/-- The result of a primitive; the tick reports its argument. -/
def callPrim : Prim → List Val → Course Val
  | .tick, [v] => .report v.bare.render v
  | p, vs => .lift (call p vs)

/-- Applies a value to argument expressions. -/
def apply (head : Val) (args : List Expr) : Course Val :=
  match head with
  | .closure _ params body captured =>
    if args.length = params.length then do
      let k ← Course.make (params.zip args).length
      part (.call o k (params.zip args) σ captured) body
    else .fail (.closureArity head.bare params.length args.length)
  | .prim p =>
    if args.length = p.argCount then do
      let vs ← evalAll part σ args
      callPrim p vs
    else .fail (.primArity p args.length)
  | v => .fail (.notFunction v.bare)

/-- The value of a connective. -/
def connect (op : Connective) (l r : Expr) : Course Val := do
  let a ← part σ l
  let b ← Course.lift (a.bare.asBool op.symbol)
  if b = op.settledBy then return .bool b
  let c ← part σ r
  return .bool (← Course.lift (c.bare.asBool op.symbol))

/-- The value of a conditional. -/
def branch (t c a : Expr) : Course Val := do
  match ← part σ t with
  | .bool true => part σ c
  | .bool false => part σ a
  | v => .fail (.testNotBool (.ite t c a) v.bare)

/-- One evaluation, with nested evaluations left to `run`. -/
def step (C : Context) (o : Name) (σ : Scope) : Expr → Course Val
  | .int n => return .int n
  | .bool b => return .bool b
  | .null => return .empty
  | .prim p => return .prim p
  | .var x => ofVar base run C o σ x
  | .unary op a => do
    let v ← run C o σ a
    Course.lift ((applyUnary op v.bare).map Val.ofValue)
  | .binary op l r =>
    match Connective.ofSymbol? op with
    | some c => connect (run C o) σ c l r
    | none => do
      let a ← run C o σ l
      let b ← run C o σ r
      Course.lift (applyBinary op a b)
  | .ite t c a => branch (run C o) σ t c a
  | .map ps b => do
    let k ← Course.make 1
    return .closure (.event o k) ps b σ
  | .app f as => do
    let v ← run C o σ f
    apply (run C o) o σ v as
  | .letIn ds b => do
    let k ← Course.make ds.length
    run C o (σ.define recursiveLet o k ds) b
  | .datum _ s => .fail (.notExpression s)

end Step

/-- **Call by name with names**, with at most `n` nested evaluations. -/
def eval (base : Machine) (recursiveLet : Bool) : Nat → Context → Name → Scope → Expr → Course Val
  | 0 => fun _ _ _ _ _ => .error .tooDeep
  | n + 1 => step base recursiveLet (eval base recursiveLet n)

end Named

end CallBy
