import CallBy.Proofs.World

/-!
What every run keeps, whether it ends with a value or not.

* `Eval.leaves x m`: the machine that a computation leaves;
* `Growing I`: a relation between an earlier and a later machine that the single writes of an
  evaluation keep, the writes to shared bindings apart;
* `Keeps I x`: the computation keeps the relation, on success and on failure. `Keeps.step`: an
  evaluation whose parts keep it and that resolves variables in keeping with it keeps it too;
* `Keeps.eval`: so every evaluation keeps the relation, if the writes to shared bindings do.
-/

namespace CallBy

/-- The machine that the computation leaves, however it ends. -/
def Eval.leaves {α : Type} (x : Eval α) (m : Machine) : Machine :=
  match x m with
  | .ok _ m' => m'
  | .error _ m' => m'

namespace Eval

variable {α β : Type} {x : Eval α} {f : α → Eval β} {m m' : Machine}

theorem leaves_of_ok {a : α} (h : x m = .ok a m') : leaves x m = m' := by
  simp only [leaves, h]

theorem leaves_of_error {s : Stop} (h : x m = .error s m') : leaves x m = m' := by
  simp only [leaves, h]

theorem leaves_bind_of_ok {a : α} (h : x m = .ok a m') :
    leaves (x >>= f) m = leaves (f a) m' := by
  simp only [leaves, bind_of_ok h]

theorem leaves_bind_of_error {s : Stop} (h : x m = .error s m') : leaves (x >>= f) m = m' := by
  simp only [leaves, bind_of_error h]

end Eval

/-- What a binding can be when it is made: a shared one has not begun. -/
def Binding.IsNew (b : Binding) : Prop :=
  ∀ x memo, b = .need x memo → ∃ e env, memo = .pending e env

/-- A relation between an earlier and a later machine that is kept by whatever an evaluation does to
a machine, the writes to shared bindings apart. Slots are written only in frames that the earlier
machine does not have. -/
structure Growing (I : Machine → Machine → Prop) : Prop where
  refl : ∀ m, I m m
  trans : ∀ {m m' m''}, I m m' → I m' m'' → I m m''
  frames_le : ∀ {m m'}, I m m' → m.frames.size ≤ m'.frames.size
  addBinding : ∀ m {b : Binding}, b.IsNew → I m (m.addBinding b)
  addFrame : ∀ m F, I m (m.addFrame F)
  setSlot : ∀ {m m' : Machine} {f : FrameId}, I m m' → m.frames.size ≤ f → ∀ x i,
    I m (m'.setSlot f x i)
  addClosure : ∀ m : Machine, I m { m with closures := m.closures + 1 }
  report : ∀ (m : Machine) (v : Value), I m (m.report v)

/-- Whatever machine the computation starts with, the one it leaves is related to it. -/
def Keeps (I : Machine → Machine → Prop) {α : Type} (x : Eval α) : Prop :=
  ∀ m, I m (Eval.leaves x m)

namespace Keeps

variable {I : Machine → Machine → Prop} {α β : Type}

theorem bind (hI : Growing I) {x : Eval α} {f : α → Eval β} (hx : Keeps I x)
    (hf : ∀ a, Keeps I (f a)) : Keeps I (x >>= f) := by
  intro m
  have h := hx m
  cases hxm : x m with
  | ok a m₁ =>
    rw [Eval.leaves_of_ok hxm] at h
    rw [Eval.leaves_bind_of_ok hxm]
    exact hI.trans h (hf a m₁)
  | error s m₁ =>
    rw [Eval.leaves_of_error hxm] at h
    rw [Eval.leaves_bind_of_error hxm]
    exact h

section Writes

variable (hI : Growing I)

include hI

theorem pure (a : α) : Keeps I (Pure.pure a : Eval α) := hI.refl

theorem fail (e : EvalError) : Keeps I (Eval.fail e : Eval α) := hI.refl

theorem lift (r : Except EvalError α) : Keeps I (Eval.lift r) := by
  cases r with
  | ok a => exact pure hI a
  | error e => exact fail hI e

theorem newBinding {b : Binding} (hb : b.IsNew) : Keeps I (Eval.newBinding b) :=
  fun m => hI.addBinding m hb

theorem newFrame (F : Frame) : Keeps I (Eval.newFrame F) := fun m => hI.addFrame m F

theorem newClosure (ps : List String) (b : Expr) (env : Env) : Keeps I (Eval.newClosure ps b env) :=
  fun m => hI.addClosure m

theorem lookup (env : Env) (x : String) : Keeps I (Eval.lookup env x) := by
  intro m
  unfold Eval.leaves Eval.lookup
  cases m.lookup? env x with
  | some i => exact hI.refl m
  | none => exact hI.refl m

theorem callPrim (p : Prim) (vs : List Value) : Keeps I (Eval.callPrim p vs) := by
  by_cases ht : ∃ v, p = .tick ∧ vs = [v]
  · obtain ⟨v, rfl, rfl⟩ := ht
    exact fun m => hI.report m v
  · rw [Eval.callPrim_eq_lift fun v hv => ht ⟨v, hv⟩]
    exact lift hI _

theorem reserve (ds : List (String × Expr)) : Keeps I (Eval.reserve ds) := by
  induction ds with
  | nil => exact pure hI _
  | cons p ds ih =>
    refine bind hI (newBinding hI (b := .undefined p.1) nofun) fun i => ?_
    exact bind hI ih fun later => pure hI _

end Writes

section Step

variable {d : Discipline} {run : Env → Expr → Eval Value} (hI : Growing I)
  (hrun : ∀ env e, Keeps I (run env e))

include hI hrun

theorem bindVar (env : Env) (x : String) (e : Expr) : Keeps I (Eval.bindVar d run env x e) := by
  unfold Eval.bindVar
  cases d.strategy with
  | value => exact bind hI (hrun env e) fun v => newBinding hI nofun
  | name => exact newBinding hI nofun
  | need =>
    refine newBinding hI fun y memo h => ?_
    cases h
    exact ⟨e, env, rfl⟩

theorem bindAll (env : Env) (ds : List (String × Expr)) : Keeps I (Eval.bindAll d run env ds) := by
  induction ds with
  | nil => exact pure hI _
  | cons p ds ih =>
    refine bind hI (bindVar hI hrun env p.1 p.2) fun i => ?_
    exact bind hI ih fun later => pure hI _

theorem evalAll (env : Env) (es : List Expr) : Keeps I (Eval.evalAll run env es) := by
  induction es with
  | nil => exact pure hI _
  | cons e es ih =>
    refine bind hI (hrun env e) fun v => ?_
    exact bind hI ih fun later => pure hI _

theorem apply (env : Env) (v : Value) (as : List Expr) : Keeps I (Eval.apply d run env v as) := by
  unfold Eval.apply
  split
  · split
    · refine bind hI (bindAll hI hrun env _) fun slots => ?_
      exact bind hI (newFrame hI _) fun f => hrun _ _
    · exact fail hI _
  · split
    · exact bind hI (evalAll hI hrun env as) fun vs => callPrim hI _ vs
    · exact fail hI _
  · exact fail hI _

/-- Filling a frame that an earlier machine does not have. -/
theorem fill {f : FrameId} (env : Env) (ds : List (String × Expr)) {m₀ m : Machine} (h : I m₀ m)
    (hf : m₀.frames.size ≤ f) : I m₀ (Eval.leaves (Eval.fill d run f env ds) m) := by
  induction ds generalizing m with
  | nil => exact h
  | cons p ds ih =>
    have hbind := bindVar hI hrun (d := d) env p.1 p.2 m
    rw [Eval.fill]
    cases hb : Eval.bindVar d run env p.1 p.2 m with
    | error s m₁ =>
      rw [Eval.leaves_of_error hb] at hbind
      rw [Eval.leaves_bind_of_error hb]
      exact hI.trans h hbind
    | ok i m₁ =>
      rw [Eval.leaves_of_ok hb] at hbind
      rw [Eval.leaves_bind_of_ok hb]
      exact ih (hI.setSlot (hI.trans h hbind) hf p.1 i)

theorem define (env : Env) (ds : List (String × Expr)) : Keeps I (Eval.define d run env ds) := by
  unfold Eval.define
  split
  · intro m
    have hres := reserve hI ds m
    cases hr : Eval.reserve ds m with
    | error s m₁ =>
      rw [Eval.leaves_of_error hr] at hres
      rw [Eval.leaves_bind_of_error hr]
      exact hres
    | ok slots m₁ =>
      rw [Eval.leaves_of_ok hr] at hres
      rw [Eval.leaves_bind_of_ok hr]
      -- the frame is new to the machine at the beginning, so its slots may be written
      have hframe := hI.trans hres (hI.addFrame m₁ (Frame.ofSlots slots))
      have hfill := fill hI hrun (d := d) (m₁.frames.size :: env) ds hframe (hI.frames_le hres)
      have hnew : Eval.newFrame (Frame.ofSlots slots) m₁ =
          .ok m₁.frames.size (m₁.addFrame (Frame.ofSlots slots)) := rfl
      rw [Eval.leaves_bind_of_ok hnew]
      cases hf : Eval.fill d run m₁.frames.size (m₁.frames.size :: env) ds
          (m₁.addFrame (Frame.ofSlots slots)) with
      | error s m₂ =>
        rw [Eval.leaves_of_error hf] at hfill
        rw [Eval.leaves_bind_of_error hf]
        exact hfill
      | ok u m₂ =>
        rw [Eval.leaves_of_ok hf] at hfill
        rw [Eval.leaves_bind_of_ok hf]
        exact hfill
  · refine bind hI (bindAll hI hrun env ds) fun slots => ?_
    exact bind hI (newFrame hI _) fun f => pure hI _

theorem connect (c : Connective) (env : Env) (l r : Expr) :
    Keeps I (Eval.connect run c env l r) := by
  unfold Eval.connect
  refine bind hI (hrun env l) fun a => ?_
  refine bind hI (lift hI _) fun b => ?_
  split
  · exact pure hI _
  · refine bind hI (hrun env r) fun c => ?_
    exact bind hI (lift hI _) fun t => pure hI _

theorem branch (env : Env) (t c a : Expr) : Keeps I (Eval.branch run env t c a) := by
  unfold Eval.branch
  refine bind hI (hrun env t) fun v => ?_
  split
  · exact hrun env c
  · exact hrun env a
  · exact fail hI _

/-- One evaluation of an expression that is no variable. -/
theorem step_of_ne_var (env : Env) {e : Expr} (he : ∀ x, e ≠ .var x) :
    Keeps I (Eval.step d run env e) := by
  cases e with
  | int | bool | null | prim => exact pure hI _
  | var x => exact absurd rfl (he x)
  | unary op a => exact bind hI (hrun env a) fun v => lift hI _
  | binary op l r =>
    simp only [Eval.step]
    split
    · exact connect hI hrun _ env l r
    · refine bind hI (hrun env l) fun a => ?_
      exact bind hI (hrun env r) fun b => lift hI _
  | ite t c a => exact branch hI hrun env t c a
  | map ps b => exact newClosure hI ps b env
  | app f as => exact bind hI (hrun env f) fun v => apply hI hrun env v as
  | letIn ds b => exact bind hI (define hI hrun env ds) fun env' => hrun env' b
  | datum s i => exact fail hI _

/-- **One evaluation keeps what its parts keep.** -/
theorem step (hres : ∀ i, Keeps I (Eval.resolve run i)) (env : Env) (e : Expr) :
    Keeps I (Eval.step d run env e) := by
  by_cases he : ∃ x, e = .var x
  · obtain ⟨x, rfl⟩ := he
    exact bind hI (lookup hI env x) hres
  · exact step_of_ne_var hI hrun env fun x hx => he ⟨x, hx⟩

end Step

section Overwriting

variable (hI : Growing I) (hset : ∀ m i b, I m (Machine.setBinding m i b))

include hI hset

section Run

variable {run : Env → Expr → Eval Value} (hrun : ∀ env e, Keeps I (run env e))

include hrun

theorem force (i : BindingId) (x : String) (e : Expr) (env : Env) :
    Keeps I (Eval.force run i x e env) := by
  intro m
  have hbegin := hset m i (.need x (.running e env))
  have h := hI.trans hbegin (hrun env e _)
  cases hx : run env e (m.setBinding i (.need x (.running e env))) with
  | ok v m₁ =>
    rw [Eval.leaves_of_ok hx] at h
    rw [Eval.leaves_of_ok (Eval.force_of_ok hx)]
    exact hI.trans h (hset m₁ i _)
  | error s m₁ =>
    rw [Eval.leaves_of_error hx] at h
    rw [Eval.leaves_of_error (Eval.force_of_error hx)]
    exact hI.trans h (hset m₁ i _)

theorem resolve (i : BindingId) : Keeps I (Eval.resolve run i) := by
  intro m
  unfold Eval.leaves Eval.resolve
  cases m.binding i with
  | undefined x => exact hI.refl m
  | value x v => exact hI.refl m
  | name x e env => exact hrun env e m
  | need x memo =>
    cases memo with
    | pending e env => exact force hI hset hrun i x e env m
    | running e env => exact hI.refl m
    | done v => exact hI.refl m

end Run

/-- **Evaluation keeps what takes no notice of the writes to shared bindings.** -/
theorem eval (d : Discipline) (n : Nat) (env : Env) (e : Expr) : Keeps I (Eval.eval d n env e) := by
  induction n generalizing env e with
  | zero => exact hI.refl
  | succ n ih => exact step hI ih (resolve hI hset ih) env e

end Overwriting

end Keeps

end CallBy
