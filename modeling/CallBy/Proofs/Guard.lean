import CallBy.Eval

/-!
Evaluation that refuses to compare closures, and computations that agree unless one of them is
stopped.

* `Eval.guarded` is `Eval.eval` but for `=` and `!=`, which it takes for unknown operators where an
  operand is or holds a closure; `Eval.ComparesNoClosures` says that a run meets no such comparison;
* `AgreeUnless bad x y`: whenever `x` is not stopped for a bad reason, `y` does what `x` does;
* `guarded_mono`: a higher bound on nested evaluations changes nothing unless the bound was hit;
* `guarded_agree`: unless it refuses a comparison, guarded evaluation is evaluation.
-/

namespace CallBy

/-- The value is a closure, or a list that holds one. -/
def Value.hasClosure : Value → Bool
  | .cons a r => a.hasClosure || r.hasClosure
  | .closure _ _ _ _ => true
  | _ => false

namespace Eval

/-! ### Evaluation that refuses to compare closures -/

/-- The symbol compares any two values. -/
def isComparison (op : String) : Bool := op == "=" || op == "!="

/-- The result of a binary operator; a comparison of closures counts as an unknown operator. -/
def guardedBinary (op : String) (a b : Value) : Except EvalError Value :=
  if isComparison op && (a.hasClosure || b.hasClosure) then .error (.unknownBinary op)
  else applyBinary op a b

/-- One evaluation that refuses to compare closures. -/
def guardedStep (d : Discipline) (run : Env → Expr → Eval Value) (env : Env) : Expr → Eval Value
  | .binary op l r =>
    match Connective.ofSymbol? op with
    | some c => connect run c env l r
    | none => do
      let a ← run env l
      let b ← run env r
      lift (guardedBinary op a b)
  | e => step d run env e

/-- **Evaluation that refuses to compare closures**, at every depth. -/
def guarded (d : Discipline) : Nat → Env → Expr → Eval Value
  | 0 => fun _ _ => throw .tooDeep
  | n + 1 => guardedStep d (guarded d n)

/-- The value of an expression in a new empty environment, by guarded evaluation. -/
def guardedClosed (d : Discipline) (n : Nat) (e : Expr) : Eval Value := do
  let f ← newFrame Frame.empty
  guarded d n [f] e

/-- The evaluation is stopped by a comparison that it refuses: `=` and `!=` are known operators, so
there is no other way to this error. -/
def Refused (s : Stop) : Prop := ∃ op, isComparison op = true ∧ s = .error (.unknownBinary op)

/-- In the run of the expression from the empty environment, `=` and `!=` never meet an operand that
is or holds a closure. -/
def ComparesNoClosures (d : Discipline) (n : Nat) (e : Expr) : Prop :=
  ∀ s m, guardedClosed d n e Machine.initial = .error s m → ¬ Refused s

/-! ### Agreement -/

theorem bind_of_ok {α β : Type} {x : Eval α} {f : α → Eval β} {m m' : Machine} {a : α}
    (h : x m = .ok a m') : (x >>= f) m = f a m' := by
  simp only [Bind.bind, EStateM.bind, h]

theorem bind_of_error {α β : Type} {x : Eval α} {f : α → Eval β} {m m' : Machine} {s : Stop}
    (h : x m = .error s m') : (x >>= f) m = .error s m' := by
  simp only [Bind.bind, EStateM.bind, h]

theorem force_of_ok {run : Env → Expr → Eval Value} {i : BindingId} {x : String} {e : Expr}
    {env : Env} {m m' : Machine} {v : Value}
    (h : run env e (m.setBinding i (.need x (.running e env))) = .ok v m') :
    force run i x e env m = .ok v (m'.setBinding i (.need x (.done v))) := by
  simp only [force, h]

theorem force_of_error {run : Env → Expr → Eval Value} {i : BindingId} {x : String} {e : Expr}
    {env : Env} {m m' : Machine} {s : Stop}
    (h : run env e (m.setBinding i (.need x (.running e env))) = .error s m') :
    force run i x e env m = .error s (m'.setBinding i (.need x (.pending e env))) := by
  simp only [force, h]

/-- A primitive does no more than its function says, but for a tick of one argument. -/
theorem callPrim_eq_lift {p : Prim} {vs : List Value} (h : ∀ v, ¬ (p = .tick ∧ vs = [v])) :
    callPrim p vs = lift (p.call vs) := by
  funext m
  unfold callPrim
  split
  · exact absurd ⟨rfl, rfl⟩ (h _)
  · rfl

/-- Whenever `x` is not stopped for a bad reason, `y` does what `x` does. -/
def AgreeUnless {α : Type} (bad : Stop → Prop) (x y : Eval α) : Prop :=
  ∀ m, (∀ s m', x m = .error s m' → ¬ bad s) → y m = x m

namespace AgreeUnless

variable {α β : Type} {bad : Stop → Prop}

theorem refl (x : Eval α) : AgreeUnless bad x x := fun _ _ => rfl

theorem bind {x y : Eval α} {f g : α → Eval β} (h : AgreeUnless bad x y)
    (hf : ∀ a, AgreeUnless bad (f a) (g a)) : AgreeUnless bad (x >>= f) (y >>= g) := by
  intro m hm
  have hy := h m fun s m' hc => hm s m' (bind_of_error hc)
  cases hx : x m with
  | error s m' => rw [bind_of_error hx, bind_of_error (hy.trans hx)]
  | ok a m' =>
    rw [bind_of_ok hx] at hm ⊢
    rw [bind_of_ok (hy.trans hx)]
    exact hf a m' hm

section Step

variable {d : Discipline} {run run' : Env → Expr → Eval Value}
  (h : ∀ env e, AgreeUnless bad (run env e) (run' env e))

include h

theorem force (i : BindingId) (x : String) (e : Expr) (env : Env) :
    AgreeUnless bad (Eval.force run i x e env) (Eval.force run' i x e env) := by
  intro m hm
  unfold Eval.force at hm ⊢
  rw [h env e _ fun s m' hc => ?_]
  rw [hc] at hm
  exact hm s _ rfl

theorem resolve (i : BindingId) : AgreeUnless bad (Eval.resolve run i) (Eval.resolve run' i) := by
  intro m hm
  unfold Eval.resolve at hm ⊢
  cases hb : m.binding i with
  | undefined x => rfl
  | value x v => rfl
  | name x e env => rw [hb] at hm; exact h env e m hm
  | need x memo =>
    cases memo with
    | pending e env => rw [hb] at hm; exact force h i x e env m hm
    | running e env => rfl
    | done v => rfl

theorem bindVar (env : Env) (x : String) (e : Expr) :
    AgreeUnless bad (Eval.bindVar d run env x e) (Eval.bindVar d run' env x e) := by
  unfold Eval.bindVar
  cases d.strategy with
  | value => exact bind (h env e) fun v => refl _
  | name => exact refl _
  | need => exact refl _

theorem bindAll (env : Env) (ds : List (String × Expr)) :
    AgreeUnless bad (Eval.bindAll d run env ds) (Eval.bindAll d run' env ds) := by
  induction ds with
  | nil => exact refl _
  | cons p ds ih =>
    refine bind (bindVar h env p.1 p.2) fun i => ?_
    exact bind ih fun later => refl _

theorem evalAll (env : Env) (es : List Expr) :
    AgreeUnless bad (Eval.evalAll run env es) (Eval.evalAll run' env es) := by
  induction es with
  | nil => exact refl _
  | cons e es ih =>
    refine bind (h env e) fun v => ?_
    exact bind ih fun later => refl _

theorem apply (env : Env) (v : Value) (as : List Expr) :
    AgreeUnless bad (Eval.apply d run env v as) (Eval.apply d run' env v as) := by
  unfold Eval.apply
  split
  · split
    · refine bind (bindAll h env _) fun slots => ?_
      refine bind (refl _) fun f => ?_
      exact h _ _
    · exact refl _
  · split
    · exact bind (evalAll h env as) fun vs => refl _
    · exact refl _
  · exact refl _

theorem fill (f : FrameId) (env : Env) (ds : List (String × Expr)) :
    AgreeUnless bad (Eval.fill d run f env ds) (Eval.fill d run' f env ds) := by
  induction ds with
  | nil => exact refl _
  | cons p ds ih =>
    refine bind (bindVar h env p.1 p.2) fun i => ?_
    exact bind (refl _) fun _ => ih

theorem define (env : Env) (ds : List (String × Expr)) :
    AgreeUnless bad (Eval.define d run env ds) (Eval.define d run' env ds) := by
  unfold Eval.define
  split
  · refine bind (refl _) fun slots => ?_
    refine bind (refl _) fun f => ?_
    exact bind (fill h f _ ds) fun _ => refl _
  · exact bind (bindAll h env ds) fun slots => refl _

theorem connect (c : Connective) (env : Env) (l r : Expr) :
    AgreeUnless bad (Eval.connect run c env l r) (Eval.connect run' c env l r) := by
  unfold Eval.connect
  refine bind (h env l) fun a => ?_
  refine bind (refl _) fun b => ?_
  split
  · exact refl _
  · exact bind (h env r) fun c => refl _

theorem branch (env : Env) (t c a : Expr) :
    AgreeUnless bad (Eval.branch run env t c a) (Eval.branch run' env t c a) := by
  unfold Eval.branch
  refine bind (h env t) fun v => ?_
  split
  · exact h env c
  · exact h env a
  · exact refl _

/-- Evaluations whose parts agree agree. -/
theorem step (env : Env) (e : Expr) :
    AgreeUnless bad (Eval.step d run env e) (Eval.step d run' env e) := by
  cases e with
  | int | bool | null | prim | map | datum => exact refl _
  | var x => exact bind (refl _) fun i => resolve h i
  | unary op a => exact bind (h env a) fun v => refl _
  | binary op l r =>
    simp only [Eval.step]
    split
    · exact connect h _ env l r
    · refine bind (h env l) fun a => ?_
      exact bind (h env r) fun b => refl _
  | ite t c a => exact branch h env t c a
  | app f as => exact bind (h env f) fun v => apply h env v as
  | letIn ds b => exact bind (define h env ds) fun env' => h env' b

theorem guardedStep (env : Env) (e : Expr) :
    AgreeUnless bad (Eval.guardedStep d run env e) (Eval.guardedStep d run' env e) := by
  cases e with
  | binary op l r =>
    simp only [Eval.guardedStep]
    split
    · exact connect h _ env l r
    · refine bind (h env l) fun a => ?_
      exact bind (h env r) fun b => refl _
  | _ => simpa only [Eval.guardedStep] using step h env _

end Step

end AgreeUnless

/-- A higher bound on nested evaluations changes nothing unless the bound was hit. -/
theorem guarded_mono {d : Discipline} {n k : Nat} (hk : n ≤ k) (env : Env) (e : Expr) :
    AgreeUnless (· = .tooDeep) (guarded d n env e) (guarded d k env e) := by
  induction n generalizing k env e with
  | zero => exact fun m hm => absurd rfl (hm .tooDeep m rfl)
  | succ n ih =>
    obtain ⟨k, rfl⟩ : ∃ j, k = j + 1 := ⟨k - 1, by omega⟩
    exact AgreeUnless.guardedStep (fun env e => ih (by omega) env e) env e

theorem eval_mono {d : Discipline} {n k : Nat} (hk : n ≤ k) (env : Env) (e : Expr) :
    AgreeUnless (· = .tooDeep) (eval d n env e) (eval d k env e) := by
  induction n generalizing k env e with
  | zero => exact fun m hm => absurd rfl (hm .tooDeep m rfl)
  | succ n ih =>
    obtain ⟨k, rfl⟩ : ∃ j, k = j + 1 := ⟨k - 1, by omega⟩
    exact AgreeUnless.step (fun env e => ih (by omega) env e) env e

/-- A binary operator that is not refused gives its result. -/
theorem lift_guardedBinary_agree (op : String) (a b : Value) :
    AgreeUnless Refused (lift (guardedBinary op a b)) (lift (applyBinary op a b)) := by
  unfold guardedBinary
  split
  · next hc =>
    have hop : isComparison op = true := by simp_all
    exact fun m hm => absurd ⟨op, hop, rfl⟩ (hm (.error (.unknownBinary op)) m rfl)
  · exact AgreeUnless.refl _

/-- **Unless it refuses a comparison, guarded evaluation is evaluation.** -/
theorem guarded_agree {d : Discipline} (n : Nat) (env : Env) (e : Expr) :
    AgreeUnless Refused (guarded d n env e) (eval d n env e) := by
  induction n generalizing env e with
  | zero => exact AgreeUnless.refl _
  | succ n ih =>
    cases e with
    | binary op l r =>
      simp only [guarded, eval, guardedStep, step]
      cases Connective.ofSymbol? op with
      | some c => exact AgreeUnless.connect ih c env l r
      | none =>
        refine AgreeUnless.bind (ih env l) fun a => ?_
        refine AgreeUnless.bind (ih env r) fun b => ?_
        exact lift_guardedBinary_agree op a b
    | _ => simpa only [guarded, eval, guardedStep] using AgreeUnless.step ih env _

end Eval

end CallBy
