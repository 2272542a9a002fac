import CallBy.Proofs.Guard

/-!
Call by name without a store.

An environment is a `Scope`, a tree that holds the definitions of every frame together with the
scope they are read in; the frame of a recursive `let` reads them in itself, so no scope is cyclic.
A variable is evaluated anew for every use. Closures are never compared (`Eval.guardedBinary`).

* `Storeless.eval` evaluates with a bound on nested evaluations, and is a plain function: its
  `Course` says how the run ends and what it reports;
* `Storeless.eval_mono`: a higher bound changes nothing unless the bound was hit.
-/

namespace CallBy

/-- The last entry of a name in a list. -/
def lastOf? {α : Type} (x : String) : List (String × α) → Option α
  | [] => none
  | (y, a) :: ds => (lastOf? x ds).or (if y = x then some a else none)

namespace Storeless

/-- An environment without a store. -/
inductive Scope where
  /-- The scope of a whole program. -/
  | top
  /-- Definitions read in the scope `home`, in front of `outer`. -/
  | call (defs : List (String × Expr)) (home outer : Scope)
  /-- Definitions read in this very scope, in front of `outer`. -/
  | letrec (defs : List (String × Expr)) (outer : Scope)

namespace Scope

/-- The definition of a variable in the innermost frame, with the scope it is read in. -/
def own? (x : String) : Scope → Option (Expr × Scope)
  | top => none
  | call ds home _ => (lastOf? x ds).map (·, home)
  | letrec ds outer => (lastOf? x ds).map (·, letrec ds outer)

/-- The definition of a variable, with the scope it is read in. -/
def lookup? (x : String) : Scope → Option (Expr × Scope)
  | top => none
  | call ds home outer => (own? x (call ds home outer)).or (lookup? x outer)
  | letrec ds outer => (own? x (letrec ds outer)).or (lookup? x outer)

/-- The scope of the body of a `let`. -/
def define (recursiveLet : Bool) (ds : List (String × Expr)) (σ : Scope) : Scope :=
  if recursiveLet then letrec ds σ else call ds σ σ

end Scope

/-- A value whose closures hold scopes. -/
inductive Val where
  | int (n : Int)
  | bool (b : Bool)
  | empty
  | cons (first rest : Val)
  | closure (params : List String) (body : Expr) (scope : Scope)
  | prim (p : Prim)

namespace Val

/-- The value with nothing of its closures but parameters and body. -/
def bare : Val → Value
  | int n => .int n
  | bool b => .bool b
  | empty => .empty
  | cons a r => .cons a.bare r.bare
  | closure ps b _ => .closure 0 ps b []
  | prim p => .prim p

/-- The storeless form of a value without closures. -/
def ofValue : Value → Val
  | .int n => int n
  | .bool b => bool b
  | .empty => empty
  | .cons a r => cons (ofValue a) (ofValue r)
  | .closure _ ps b _ => closure ps b .top
  | .prim p => prim p

end Val

/-- How a run ends, and what it reports on the way. -/
structure Course (α : Type) where
  ends : Except Stop α
  trace : List String

namespace Course

instance : Monad Course where
  pure a := ⟨.ok a, []⟩
  bind c f :=
    match c.ends with
    | .ok a => ⟨(f a).ends, c.trace ++ (f a).trace⟩
    | .error s => ⟨.error s, c.trace⟩

/-- Ends with an error of the program. -/
def fail {α : Type} (e : EvalError) : Course α := ⟨.error (.error e), []⟩

/-- The result of an operation on values. -/
def lift {α : Type} : Except EvalError α → Course α
  | .ok a => pure a
  | .error e => fail e

/-- Reports a text. -/
def report {α : Type} (s : String) (a : α) : Course α := ⟨.ok a, [s]⟩

variable {α β : Type} {c : Course α} {f : α → Course β}

theorem bind_of_ok {a : α} (h : c.ends = .ok a) :
    c >>= f = ⟨(f a).ends, c.trace ++ (f a).trace⟩ := by
  show (match c.ends with
    | .ok a => (⟨(f a).ends, c.trace ++ (f a).trace⟩ : Course β)
    | .error s => ⟨.error s, c.trace⟩) = _
  rw [h]

theorem bind_of_error {s : Stop} (h : c.ends = .error s) : c >>= f = ⟨.error s, c.trace⟩ := by
  show (match c.ends with
    | .ok a => (⟨(f a).ends, c.trace ++ (f a).trace⟩ : Course β)
    | .error s => ⟨.error s, c.trace⟩) = _
  rw [h]

end Course

/-! ### Evaluation -/

section Step

variable (recursiveLet : Bool) (run : Scope → Expr → Course Val)

/-- The value of a variable. -/
def ofVar (σ : Scope) (x : String) : Course Val :=
  match σ.lookup? x with
  | some (e, home) => run home e
  | none => .fail (.unbound x)

/-- Evaluates expressions from left to right. -/
def evalAll (σ : Scope) : List Expr → Course (List Val)
  | [] => return []
  | e :: es => do
    let v ← run σ e
    let later ← evalAll σ es
    return v :: later

/-- The result of a primitive on its arguments. What is no part of an argument and no pair of
arguments holds no closure. -/
def call : Prim → List Val → Except EvalError Val
  | .cons, [a, .empty] => .ok (.cons a .empty)
  | .cons, [a, .cons b r] => .ok (.cons a (.cons b r))
  | .first, [.cons a _] => .ok a
  | .rest, [.cons _ r] => .ok r
  | p, vs => (p.call (vs.map Val.bare)).map Val.ofValue

/-- The result of a primitive; the tick reports its argument. -/
def callPrim : Prim → List Val → Course Val
  | .tick, [v] => .report v.bare.render v
  | p, vs => .lift (call p vs)

/-- Applies a value to argument expressions. -/
def apply (σ : Scope) (head : Val) (args : List Expr) : Course Val :=
  match head with
  | .closure params body captured =>
    if args.length = params.length then run (.call (params.zip args) σ captured) body
    else .fail (.closureArity head.bare params.length args.length)
  | .prim p =>
    if args.length = p.argCount then do
      let vs ← evalAll run σ args
      callPrim p vs
    else .fail (.primArity p args.length)
  | v => .fail (.notFunction v.bare)

/-- The value of a connective. -/
def connect (op : Connective) (σ : Scope) (l r : Expr) : Course Val := do
  let a ← run σ l
  let b ← Course.lift (a.bare.asBool op.symbol)
  if b = op.settledBy then return .bool b
  let c ← run σ r
  return .bool (← Course.lift (c.bare.asBool op.symbol))

/-- The value of a conditional. -/
def branch (σ : Scope) (t c a : Expr) : Course Val := do
  match ← run σ t with
  | .bool true => run σ c
  | .bool false => run σ a
  | v => .fail (.testNotBool (.ite t c a) v.bare)

/-- One evaluation, with nested evaluations left to `run`. -/
def step (σ : Scope) : Expr → Course Val
  | .int n => return .int n
  | .bool b => return .bool b
  | .null => return .empty
  | .prim p => return .prim p
  | .var x => ofVar run σ x
  | .unary op a => do
    let v ← run σ a
    Course.lift ((applyUnary op v.bare).map Val.ofValue)
  | .binary op l r =>
    match Connective.ofSymbol? op with
    | some c => connect run c σ l r
    | none => do
      let a ← run σ l
      let b ← run σ r
      Course.lift ((Eval.guardedBinary op a.bare b.bare).map Val.ofValue)
  | .ite t c a => branch run σ t c a
  | .map ps b => return .closure ps b σ
  | .app f as => do
    let v ← run σ f
    apply run σ v as
  | .letIn ds b => run (σ.define recursiveLet ds) b
  | .datum _ s => .fail (.notExpression s)

end Step

/-- **Call by name without a store**, with at most `n` nested evaluations. -/
def eval (recursiveLet : Bool) : Nat → Scope → Expr → Course Val
  | 0 => fun _ _ => ⟨.error .tooDeep, []⟩
  | n + 1 => step recursiveLet (eval recursiveLet n)

/-! ### More nesting -/

/-- Unless `c` hits the bound on nested evaluations, `c'` is `c`. -/
def Course.Le {α : Type} (c c' : Course α) : Prop := c.ends ≠ .error .tooDeep → c' = c

namespace Course.Le

variable {α β : Type}

theorem refl (c : Course α) : Le c c := fun _ => rfl

theorem bind {c c' : Course α} {f g : α → Course β} (h : Le c c') (hf : ∀ a, Le (f a) (g a)) :
    Le (c >>= f) (c' >>= g) := by
  intro hne
  cases hc : c.ends with
  | ok a =>
    rw [Course.bind_of_ok hc] at hne ⊢
    have hcc : c' = c := h (by rw [hc]; exact nofun)
    rw [Course.bind_of_ok (a := a) (by rw [hcc, hc]), hcc, hf a hne]
  | error s =>
    rw [Course.bind_of_error hc] at hne ⊢
    have hs : s ≠ .tooDeep := by rintro rfl; exact hne rfl
    have hcc : c' = c := h (by rw [hc]; simpa using hs)
    rw [Course.bind_of_error (s := s) (by rw [hcc, hc]), hcc]

section Step

variable {run run' : Scope → Expr → Course Val} (h : ∀ σ e, Le (run σ e) (run' σ e))

include h

theorem ofVar (σ : Scope) (x : String) :
    Le (Storeless.ofVar run σ x) (Storeless.ofVar run' σ x) := by
  unfold Storeless.ofVar
  split
  · exact h _ _
  · exact refl _

theorem evalAll (σ : Scope) (es : List Expr) :
    Le (Storeless.evalAll run σ es) (Storeless.evalAll run' σ es) := by
  induction es with
  | nil => exact refl _
  | cons e es ih =>
    refine bind (h σ e) fun v => ?_
    exact bind ih fun later => refl _

theorem apply (σ : Scope) (v : Val) (as : List Expr) :
    Le (Storeless.apply run σ v as) (Storeless.apply run' σ v as) := by
  unfold Storeless.apply
  split
  · split
    · exact h _ _
    · exact refl _
  · split
    · exact bind (evalAll h σ as) fun vs => refl _
    · exact refl _
  · exact refl _

theorem connect (op : Connective) (σ : Scope) (l r : Expr) :
    Le (Storeless.connect run op σ l r) (Storeless.connect run' op σ l r) := by
  unfold Storeless.connect
  refine bind (h σ l) fun a => ?_
  refine bind (refl _) fun b => ?_
  split
  · exact refl _
  · exact bind (h σ r) fun c => refl _

theorem branch (σ : Scope) (t c a : Expr) :
    Le (Storeless.branch run σ t c a) (Storeless.branch run' σ t c a) := by
  unfold Storeless.branch
  refine bind (h σ t) fun v => ?_
  split
  · exact h σ c
  · exact h σ a
  · exact refl _

theorem step (r : Bool) (σ : Scope) (e : Expr) :
    Le (Storeless.step r run σ e) (Storeless.step r run' σ e) := by
  cases e with
  | int | bool | null | prim | map | datum => exact refl _
  | var x => exact ofVar h σ x
  | unary op a => exact bind (h σ a) fun v => refl _
  | binary op l r =>
    simp only [Storeless.step]
    split
    · exact connect h _ σ l r
    · refine bind (h σ l) fun a => ?_
      exact bind (h σ r) fun b => refl _
  | ite t c a => exact branch h σ t c a
  | app f as => exact bind (h σ f) fun v => apply h σ v as
  | letIn ds b => exact h _ b

end Step

end Course.Le

/-- A higher bound on nested evaluations changes nothing unless the bound was hit. -/
theorem eval_mono {r : Bool} {n k : Nat} (hk : n ≤ k) (σ : Scope) (e : Expr) :
    (eval r n σ e).Le (eval r k σ e) := by
  induction n generalizing k σ e with
  | zero => exact fun hne => absurd rfl hne
  | succ n ih =>
    obtain ⟨k, rfl⟩ : ∃ j, k = j + 1 := ⟨k - 1, by omega⟩
    exact Course.Le.step (fun σ e => ih (by omega) σ e) r σ e

/-- The expression has this value in the scope. -/
def Yields (r : Bool) (σ : Scope) (e : Expr) (v : Val) : Prop := ∃ n, (eval r n σ e).ends = .ok v

/-- An evaluation that ends gives the value that the expression has. -/
theorem Yields.ends_eq {r : Bool} {σ : Scope} {e : Expr} {v : Val} (h : Yields r σ e v) {n : Nat}
    (hne : (eval r n σ e).ends ≠ .error .tooDeep) : (eval r n σ e).ends = .ok v := by
  obtain ⟨k, hk⟩ := h
  rcases Nat.le_total n k with hle | hle
  · rw [← eval_mono hle σ e hne, hk]
  · rw [eval_mono hle σ e (by rw [hk]; exact nofun), hk]

end Storeless

end CallBy
