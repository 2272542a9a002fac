import CallBy.Proofs.Strategies

/-!
The moments of a run.

An evaluator is at work in its environment from its beginning to its end, but for the time its parts
are evaluated. `Eval.watched` is `Eval.eval` under a watch, which is shown the environment and the
machine whenever an evaluator begins, goes on after a part, or ends. Between two such moments an
evaluator does no more than make closures, bindings and frames.

* `Eval.watched` raises an alarm at the first moment that the watch objects to;
* `Eval.Passes d n e env m`: the run of the expression from the empty environment comes to a moment
  with this environment and this machine. `Eval.ComesTo` is the same for any evaluation;
* `Eval.overseen` is `Eval.eval` under a watch that is shown the calls of primitives, and
  `Eval.Calls d n e p vs` says that the run calls the primitive with these values.
-/

namespace CallBy

namespace Eval

section Watch

variable (watch : Env → Machine → Bool) (alarm : Stop)

/-- Raises the alarm if the watch objects to what the computation leaves, however it ends. -/
def attend {α : Type} (env : Env) (x : Eval α) : Eval α := fun m =>
  match x m with
  | .ok a m' => if watch env m' then .error alarm m' else .ok a m'
  | .error s m' => if watch env m' then .error alarm m' else .error s m'

/-- The evaluation of a part, after which the evaluator of the whole goes on. A variable has to be
resolved first: its evaluator goes on when the binding has been written. -/
def attendPart (run : Env → Expr → Eval Value) (env : Env) : Expr → Env → Expr → Eval Value
  | .var _ => run
  | _ => fun env' e => attend watch alarm env (run env' e)

/-- **Evaluation under a watch**, with at most `n` nested evaluations. -/
def watched (d : Discipline) : Nat → Env → Expr → Eval Value
  | 0 => fun env _ => attend watch alarm env (throw .tooDeep)
  | n + 1 => fun env e => do
    attend watch alarm env (pure ())
    attend watch alarm env (step d (attendPart watch alarm (watched d n) env e) env e)

/-- The value of an expression in a new empty environment, under a watch. -/
def watchedClosed (d : Discipline) (n : Nat) (e : Expr) : Eval Value := do
  let f ← newFrame Frame.empty
  watched watch alarm d n [f] e

end Watch

/-- **The run comes to a moment with this environment and this machine**: whatever the alarm is that
is set for such a moment, it is raised. -/
def Passes (d : Discipline) (n : Nat) (e : Expr) (env : Env) (m : Machine) : Prop :=
  ∀ alarm, ending (watchedClosed (fun env' m' => env' == env && m' == m) alarm d n e .initial) =
    .error alarm

/-- **The evaluation comes to a moment** with the environment `η` and the machine `m'`. -/
def ComesTo (d : Discipline) (n : Nat) (env : Env) (e : Expr) (m : Machine) (η : Env)
    (m' : Machine) : Prop :=
  ∀ alarm, ending (watched (fun env' m'' => env' == η && m'' == m') alarm d n env e m) =
    .error alarm

section Attend

variable {watch : Env → Machine → Bool} {alarm : Stop} {α : Type} {env : Env} {x : Eval α}
  {m m' : Machine}

theorem attend_of_ok {a : α} (h : x m = .ok a m') :
    attend watch alarm env x m = if watch env m' then .error alarm m' else .ok a m' := by
  simp only [attend, h]

theorem attend_of_error {s : Stop} (h : x m = .error s m') :
    attend watch alarm env x m = .error (if watch env m' then alarm else s) m' := by
  simp only [attend, h]
  split <;> rfl

/-- The parts of an expression that is no variable. -/
theorem attendPart_of_ne_var {run : Env → Expr → Eval Value} {e : Expr} (he : ∀ x, e ≠ .var x) :
    attendPart watch alarm run env e = fun env' e => attend watch alarm env (run env' e) := by
  cases e with
  | var x => exact absurd rfl (he x)
  | _ => rfl

end Attend

/-! ### Calls of primitives -/

section Oversee

variable (watch : Prim → List Value → Bool) (alarm : Stop) (d : Discipline)

/-- Raises the alarm if the watch objects to the call. -/
def oversee (p : Prim) (vs : List Value) : Eval Unit := fun m =>
  if watch p vs then .error alarm m else .ok () m

/-- Applies a value; the watch is shown the values that a primitive is called with. -/
def overseenApply (run : Env → Expr → Eval Value) (env : Env) (head : Value) (args : List Expr) :
    Eval Value :=
  match head with
  | .prim p =>
    if args.length = p.argCount then do
      let vs ← evalAll run env args
      oversee watch alarm p vs
      callPrim p vs
    else fail (.primArity p args.length)
  | v => apply d run env v args

/-- One evaluation with calls of primitives under a watch. -/
def overseenStep (run : Env → Expr → Eval Value) (env : Env) : Expr → Eval Value
  | .app f as => do overseenApply watch alarm d run env (← run env f) as
  | e => step d run env e

/-- **Evaluation with every call of a primitive under a watch.** -/
def overseen : Nat → Env → Expr → Eval Value
  | 0 => fun _ _ => throw .tooDeep
  | n + 1 => overseenStep watch alarm d (overseen n)

/-- The value of an expression in a new empty environment, with calls of primitives under a
watch. -/
def overseenClosed (n : Nat) (e : Expr) : Eval Value := do
  let f ← newFrame Frame.empty
  overseen watch alarm d n [f] e

/-- Where there is nothing to object to, the watch is not noticed. -/
theorem overseenApply_quiet (run : Env → Expr → Eval Value) (env : Env) (v : Value)
    (as : List Expr) :
    overseenApply (fun _ _ => false) alarm d run env v as = apply d run env v as := by
  cases v with
  | prim p =>
    have hquiet : ∀ vs, oversee (fun _ _ => false) alarm p vs = pure () := fun _ => rfl
    simp only [overseenApply, apply, hquiet, pure_bind]
  | _ => rfl

/-- **Evaluation is evaluation under a watch that objects to nothing.** -/
theorem overseen_quiet (n : Nat) : overseen (fun _ _ => false) alarm d n = eval d n := by
  induction n with
  | zero => rfl
  | succ n ih =>
    funext env e
    rw [overseen, ih, eval]
    cases e with
    | app f as => simp only [overseenStep, step, overseenApply_quiet]
    | _ => rfl

end Oversee

/-- **The run calls the primitive with these values**: whatever the alarm is that is set for such a
call, it is raised. -/
def Calls (d : Discipline) (n : Nat) (e : Expr) (p : Prim) (vs : List Value) : Prop :=
  ∀ alarm, ending (overseenClosed (fun q us => q == p && us == vs) alarm d n e .initial) =
    .error alarm

end Eval

end CallBy
