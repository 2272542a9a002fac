import CallBy.Expr.Parser
import CallBy.Failure
import CallBy.Machine.Inspect

/-!
Sessions: environments and bindings that are given names, built and looked at one by one, on one
machine. A request that fails keeps what it has done to the machine and gives no name.
-/

namespace CallBy

/-- A session. At its start there is the environment named `empty`, of one empty frame. -/
structure Session where
  environments : List (String × Env) := [("empty", [0])]
  bindings : List (String × BindingId) := []
  machine : Machine := Machine.initial.addFrame Frame.empty
  deriving DecidableEq, Repr

/-- A request to a session. -/
abbrev Request := EStateM Failure Session

namespace Session

/-! ### Names -/

/-- The thing of this name. -/
def named {α : Type} (x : String) (things : List (String × α)) : Except Failure α :=
  match things.find? (·.1 == x) with
  | some t => .ok t.2
  | none => .error .missing

/-- The things with this name given to a thing, in the place of what had the name before. -/
def rename {α : Type} (x : String) (a : α) (things : List (String × α)) : List (String × α) :=
  (x, a) :: things.filter (·.1 != x)

/-- The names of the things that pass the test, in order. -/
def namesOf {α : Type} (test : α → Bool) (things : List (String × α)) : List String :=
  ((things.filter fun t => test t.2).map (·.1)).mergeSort (fun a b => decide (a ≤ b))

/-- A result, or a failure. -/
def lift {α : Type} : Except Failure α → Request α
  | .ok a => pure a
  | .error e => throw e

/-- The environment of this name. -/
def environment (x : String) : Request Env := fun s => lift (named x s.environments) s

/-- The binding of this name. -/
def binding (x : String) : Request BindingId := fun s => lift (named x s.bindings) s

/-- Gives the name to an environment. -/
def nameEnvironment (x : String) (env : Env) : Request Unit := fun s =>
  .ok () { s with environments := rename x env s.environments }

/-- Gives the name to a binding. -/
def nameBinding (x : String) (i : BindingId) : Request Unit := fun s =>
  .ok () { s with bindings := rename x i s.bindings }

/-- The discipline that a mode word chooses. -/
def discipline (mode : String) (recursiveLet : Bool) : Request Discipline :=
  match Strategy.ofMode mode with
  | .ok st => pure ⟨st, recursiveLet⟩
  | .error e => throw (.setting e)

/-- What an evaluation needs: the discipline of a mode, and then the environment of a name. Where
both are unknown, the mode is the fault. -/
def evaluator (mode env : String) (recursiveLet : Bool) : Request (Discipline × Env) := do
  let d ← discipline mode recursiveLet
  let ρ ← environment env
  return (d, ρ)

/-- The expression that a text spells. -/
def expression (source : String) : Request Expr :=
  match Expr.parse source with
  | .ok e => pure e
  | .error e => throw (.parsing e)

/-- A computation on the machine of the session. -/
def onMachine {α : Type} (c : Eval α) : Request α := fun s =>
  match c s.machine with
  | .ok a m => .ok a { s with machine := m }
  | .error stop m => .error (.stopped stop) { s with machine := m }

/-- Forgets what has been reported. -/
def clearTrace (s : Session) : Session := { s with machine := { s.machine with reports := #[] } }

/-! ### Building -/

/-- Names a new empty frame, on its own or inside another environment. -/
def newFrame (x : String) (outer : Option String) : Request Unit := do
  let env ← match outer with
    | some y => environment y
    | none => pure []
  let f ← onMachine (Eval.newFrame Frame.empty)
  nameEnvironment x (f :: env)

/-- The bindings of these names. -/
def bindingsOf : List String → Request (List BindingId)
  | [] => return []
  | b :: bs => return (← binding b) :: (← bindingsOf bs)

/-- Names the environment with one more frame, in which the variables have the bindings. -/
def extend (x base : String) (vars bindings : List String) : Request Unit := do
  let env ← environment base
  let ids ← bindingsOf bindings
  let f ← onMachine (Eval.newFrame (Frame.ofSlots (vars.zip ids)))
  nameEnvironment x (f :: env)

/-- Puts a binding into the innermost frame of an environment. -/
def put (env x b : String) : Request Unit := do
  let ρ ← environment env
  let i ← binding b
  match ρ with
  | f :: _ => onMachine (Eval.setSlot f x i)
  | [] => pure ()

/-- Names a binding of the variable to an expression, in the form of the strategy. What the binding
computes is computed in the discipline, in the environment. -/
def nameBound (name x : String) (form : Strategy) (d : Discipline) (ρ : Env) (e : Expr) :
    Request Binding := do
  let run := Eval.eval d Eval.nestingLimit
  let i ← onMachine (Eval.bindVar { d with strategy := form } run ρ x e)
  nameBinding name i
  return (← get).machine.binding i

/-- Names a binding of the variable to a text, in the form of the mode. The form is that of the
evaluator, so the text is read once the evaluator is there. -/
def bind (name x source mode env : String) : Request Binding := do
  let (d, ρ) ← evaluator mode env true
  let e ← expression source
  nameBound name x d.strategy d ρ e

/-- Names a binding of the variable to a text, in the form asked for. The text is read before the
evaluator is asked for. -/
def bindAs (form : Strategy) (name x source mode env : String) : Request Binding := do
  let e ← expression source
  let (d, ρ) ← evaluator mode env true
  nameBound name x form d ρ e

/-- Names a binding that is there already. -/
def bindTo (name : String) (b : Binding) : Request Binding := do
  let i ← onMachine (Eval.newBinding b)
  nameBinding name i
  return b

/-! ### Evaluating -/

/-- The value of a binding, with the computation it may hold done in the mode. -/
def resolve (b mode env : String) : Request Value := do
  let i ← binding b
  let (d, _) ← evaluator mode env true
  onMachine (Eval.resolve (Eval.eval d Eval.nestingLimit) i)

/-- The value of a text in an environment. The text is read once the evaluator is there. -/
def eval (source mode env : String) (recursiveLet : Bool) : Request Value := do
  let (d, ρ) ← evaluator mode env recursiveLet
  let e ← expression source
  onMachine (Eval.eval d Eval.nestingLimit ρ e)

/-- The expressions that these texts spell. -/
def expressions : List String → Request (List Expr)
  | [] => return []
  | s :: ss => return (← expression s) :: (← expressions ss)

/-- The result of applying a value to texts of an environment. The texts are read before the
evaluator is asked for. -/
def apply (v : Value) (sources : List String) (mode env : String) : Request Value := do
  let es ← expressions sources
  let (d, ρ) ← evaluator mode env true
  onMachine (Eval.apply d (Eval.eval d Eval.nestingLimit) ρ v es)

/-! ### Looking -/

/-- The binding of this name as it is now. -/
def current (b : String) : Request Binding := do
  let i ← binding b
  return (← get).machine.binding i

/-- The names of the binding that a variable has in an environment. -/
def lookup (env x : String) : Request (List String) := do
  let ρ ← environment env
  let i ← onMachine (Eval.lookup ρ x)
  return namesOf (· == i) (← get).bindings

/-- The names of the environments whose innermost frame is the one that binds the variable. -/
def find (env x : String) : Request (List String) := do
  let ρ ← environment env
  let s ← get
  match s.machine.find? ρ x with
  | some f => return namesOf (·.head? == some f) s.environments
  | none => return []

/-- The variable has a binding in the environment. -/
def contains (env x : String) : Request Bool := do
  let ρ ← environment env
  return ((← get).machine.find? ρ x).isSome

end Session

end CallBy
