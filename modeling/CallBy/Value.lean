import CallBy.Expr

/-!
Run-time values and the equality of the language.
-/

namespace CallBy

/-- The address of a frame of variables. -/
abbrev FrameId := Nat

/-- An environment: the addresses of its frames from the innermost outwards. -/
abbrev Env := List FrameId

/-- The number of frames that the innermost one extends. -/
def Env.depth (env : Env) : Nat := env.length - 1

/-- A value. Every evaluation of a function text makes a closure with an identity of its own. The
second part of a pair need not be a list; such a pair is an improper list. -/
inductive Value where
  | int (n : Int)
  | bool (b : Bool)
  | empty
  | cons (first rest : Value)
  | closure (id : Nat) (params : List String) (body : Expr) (env : Env)
  | prim (p : Prim)
  deriving Repr, DecidableEq

namespace Value

/-- The value is the empty list or a pair. -/
def isList : Value → Bool
  | empty | cons _ _ => true
  | _ => false

/-- The value is a closure or a primitive. -/
def isFunction : Value → Bool
  | closure _ _ _ _ | prim _ => true
  | _ => false

/-- The value counts as true: all do but zero, false and the empty list. -/
def isTruthy : Value → Bool
  | int n => n != 0
  | bool b => b
  | empty => false
  | _ => true

/-- The elements along the rests of a pair; none for a value that is no pair. -/
def elements : Value → List Value
  | cons a r => a :: r.elements
  | _ => []

/-- What stands at the end of the rests of a pair; any other value is its own ending. -/
def ending : Value → Value
  | cons _ r => r.ending
  | v => v

/-- The proper list of the given elements. -/
def ofList : List Value → Value
  | [] => empty
  | v :: vs => cons v (ofList vs)

/-- The elements of a list, whatever its ending; `none` for a value that is no list. -/
def toList? (v : Value) : Option (List Value) := if v.isList then some v.elements else none

/-- **Equality of the language**: integers by value, pairs by their parts, closures by identity and
everything else by being the same. -/
def same : Value → Value → Bool
  | int m, int n => m == n
  | bool a, bool b => a == b
  | empty, empty => true
  | cons a r, cons b s => same a b && same r s
  | closure i _ _ _, closure j _ _ _ => i == j
  | prim p, prim q => p == q
  | _, _ => false

@[simp] theorem ending_ofList (vs : List Value) : (ofList vs).ending = empty := by
  induction vs with
  | nil => rfl
  | cons v vs ih => simp [ofList, ending, ih]

@[simp] theorem same_refl (v : Value) : same v v = true := by
  induction v <;> simp_all [same]

end Value

end CallBy
