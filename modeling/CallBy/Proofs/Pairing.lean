import CallBy.Proofs.Agreement
import CallBy.Proofs.Growth

/-!
Two runs side by side.

* `Machine.Reports`: what every run keeps, the frames that are there and what has been reported;
* `Ending`: how two runs may end, given a theory of what does the same. A run that hits the bound on
  nested evaluations may fall behind the other, if the `Slack` allows for it;
* `Paired T c L P x x'`: from machines that agree the computations end so, with results as `P` says;
* `Paired.step`: an evaluation of two expressions of one form is paired if those of their parts are
  (`Congruent`), and `Paired.letIn` is the same for `let`.
-/

namespace CallBy

/-! ### What every run keeps -/

/-- No frame is lost, and reports are only added. -/
structure Machine.Reports (m m' : Machine) : Prop where
  frames_le : m.frames.size ≤ m'.frames.size
  reports : m.reports.toList <+: m'.reports.toList

theorem growing_reports : Growing Machine.Reports where
  refl m := ⟨Nat.le_refl _, List.prefix_refl _⟩
  trans h h' := ⟨Nat.le_trans h.frames_le h'.frames_le, h.reports.trans h'.reports⟩
  frames_le h := h.frames_le
  addBinding m b _ := ⟨Nat.le_refl _, List.prefix_refl _⟩
  addFrame m F := ⟨by simp, List.prefix_refl _⟩
  setSlot h _ x i := ⟨by simpa using h.frames_le, h.reports⟩
  addClosure m := ⟨Nat.le_refl _, List.prefix_refl _⟩
  report m v := ⟨Nat.le_refl _, by simp [Machine.report]⟩

theorem reports_setBinding (m : Machine) (i : BindingId) (b : Binding) :
    m.Reports (m.setBinding i b) :=
  ⟨Nat.le_refl _, List.prefix_refl _⟩

/-- The computation takes no report back. A class, since every computation in sight is of this
kind. -/
class Steady {α : Type} (x : Eval α) : Prop where
  keeps : Keeps Machine.Reports x

namespace Steady

variable {α β : Type}

instance (x : Eval α) (f : α → Eval β) [Steady x] [∀ a, Steady (f a)] : Steady (x >>= f) :=
  ⟨Keeps.bind growing_reports keeps fun _ => keeps⟩

instance (p : Prop) [Decidable p] (x y : Eval α) [Steady x] [Steady y] :
    Steady (if p then x else y) := by
  split <;> infer_instance

instance (a : α) : Steady (pure a : Eval α) := ⟨Keeps.pure growing_reports a⟩

instance (e : EvalError) : Steady (Eval.fail e : Eval α) := ⟨Keeps.fail growing_reports e⟩

instance (r : Except EvalError α) : Steady (Eval.lift r) := ⟨Keeps.lift growing_reports r⟩

instance (b : Binding) : Steady (Eval.newBinding b) :=
  ⟨fun _ => ⟨Nat.le_refl _, List.prefix_refl _⟩⟩

instance (F : Frame) : Steady (Eval.newFrame F) := ⟨Keeps.newFrame growing_reports F⟩

instance (f : FrameId) (x : String) (i : BindingId) : Steady (Eval.setSlot f x i) :=
  ⟨fun m => ⟨by simp [Eval.leaves, Eval.setSlot], List.prefix_refl _⟩⟩

instance (p : Prim) (vs : List Value) : Steady (Eval.callPrim p vs) :=
  ⟨Keeps.callPrim growing_reports p vs⟩

instance (ds : List (String × Expr)) : Steady (Eval.reserve ds) :=
  ⟨Keeps.reserve growing_reports ds⟩

variable (d : Discipline) (run : Env → Expr → Eval Value) [hrun : ∀ env e, Steady (run env e)]

include hrun

instance (i : BindingId) : Steady (Eval.resolve run i) :=
  ⟨Keeps.resolve growing_reports reports_setBinding (fun _ _ => keeps) i⟩

instance (env : Env) (x : String) (e : Expr) : Steady (Eval.bindVar d run env x e) :=
  ⟨Keeps.bindVar growing_reports (fun _ _ => keeps) env x e⟩

instance (env : Env) (ds : List (String × Expr)) : Steady (Eval.bindAll d run env ds) :=
  ⟨Keeps.bindAll growing_reports (fun _ _ => keeps) env ds⟩

instance (env : Env) (es : List Expr) : Steady (Eval.evalAll run env es) :=
  ⟨Keeps.evalAll growing_reports (fun _ _ => keeps) env es⟩

instance (env : Env) (v : Value) (as : List Expr) : Steady (Eval.apply d run env v as) :=
  ⟨Keeps.apply growing_reports (fun _ _ => keeps) env v as⟩

instance (f : FrameId) (env : Env) (ds : List (String × Expr)) :
    Steady (Eval.fill d run f env ds) := by
  induction ds with
  | nil => exact inferInstanceAs (Steady (pure ()))
  | cons p ds ih =>
    exact inferInstanceAs (Steady (Eval.bindVar d run env p.1 p.2 >>= fun i =>
      Eval.setSlot f p.1 i >>= fun _ => Eval.fill d run f env ds))

instance (env : Env) (e : Expr) : Steady (Eval.step d run env e) :=
  ⟨Keeps.step growing_reports (fun _ _ => keeps) (fun _ => keeps) env e⟩

omit hrun in
instance (n : Nat) (env : Env) (e : Expr) : Steady (Eval.eval d n env e) :=
  ⟨Keeps.eval growing_reports reports_setBinding d n env e⟩

end Steady

/-! ### How two runs may end -/

/-- Which of two runs may hit the bound on nested evaluations before the other does. -/
inductive Slack where
  | none | left | right
  deriving DecidableEq

/-- The machine that a computation leaves. -/
def Eval.final {α : Type} : EStateM.Result Stop Machine α → Machine
  | .ok _ m => m
  | .error _ m => m

/-- **How two runs may end**: with results and machines that agree, with errors that look alike, or
at the bound. A run that falls behind has reported a beginning of what the other one has. -/
inductive Ending (T : Theory) (c : Slack) (L : Link) {α β : Type}
    (P : Link → Machine → α → β → Prop) :
    EStateM.Result Stop Machine α → EStateM.Result Stop Machine β → Prop
  | ok {a : α} {b : β} {m m' : Machine} {L₁ : Link} : L.Grows L₁ → Agree T L₁ m m' → P L₁ m a b →
      Ending T c L P (.ok a m) (.ok b m')
  | error {e e' : EvalError} {m m' : Machine} {L₁ : Link} : L ≤ L₁ → Agree T L₁ m m' →
      EvalError.Like T.view e e' → Ending T c L P (.error (.error e) m) (.error (.error e') m')
  | deep {m m' : Machine} {L₁ : Link} : L ≤ L₁ → Agree T L₁ m m' →
      Ending T c L P (.error .tooDeep m) (.error .tooDeep m')
  | behind {m : Machine} {r : EStateM.Result Stop Machine β} {t : List Value} : c = .left →
      List.Forall₂ T.view.Values m.reports.toList t → t <+: (Eval.final r).reports.toList →
      Ending T c L P (.error .tooDeep m) r
  | ahead {r : EStateM.Result Stop Machine α} {m' : Machine} {t : List Value} : c = .right →
      List.Forall₂ T.view.Values t m'.reports.toList → t <+: (Eval.final r).reports.toList →
      Ending T c L P r (.error .tooDeep m')

/-- What a computation leaves has all reports of the machine it started with. -/
theorem Steady.prefix_final {α : Type} (x : Eval α) [Steady x] (m : Machine) :
    m.reports.toList <+: (Eval.final (x m)).reports.toList := by
  have h := (keeps (x := x) m).reports
  cases hx : x m with
  | ok a m' => rwa [Eval.leaves_of_ok hx] at h
  | error s m' => rwa [Eval.leaves_of_error hx] at h

namespace Ending

variable {T : Theory} {c : Slack} {L : Link} {α β α' β' : Type}
  {P : Link → Machine → α → β → Prop} {Q : Link → Machine → α' → β' → Prop} {m m' : Machine}

theorem mono {P' : Link → Machine → α → β → Prop} {r : EStateM.Result Stop Machine α}
    {r' : EStateM.Result Stop Machine β} (h : Ending T c L P r r')
    (hP : ∀ L₁ m a b, r = .ok a m → P L₁ m a b → P' L₁ m a b) : Ending T c L P' r r' := by
  cases h with
  | ok hL hm ha => exact .ok hL hm (hP _ _ _ _ rfl ha)
  | error hL hm he => exact .error hL hm he
  | deep hL hm => exact .deep hL hm
  | behind hc ht hp => exact .behind hc ht hp
  | ahead hc ht hp => exact .ahead hc ht hp

/-- A link may be exchanged for an earlier one. -/
theorem after {L₁ : Link} (hL : L.Grows L₁) {r : EStateM.Result Stop Machine α}
    {r' : EStateM.Result Stop Machine β} (h : Ending T c L₁ P r r') : Ending T c L P r r' := by
  cases h with
  | ok hL' hm ha => exact .ok (hL.trans hL') hm ha
  | error hL' hm he => exact .error (Link.le_trans hL.le hL') hm he
  | deep hL' hm => exact .deep (Link.le_trans hL.le hL') hm
  | behind hc ht hp => exact .behind hc ht hp
  | ahead hc ht hp => exact .ahead hc ht hp

/-- **Sequences.** A run that is behind is left as it is, while the other one goes on. -/
theorem bind {x : Eval α} {x' : Eval β} {f : α → Eval α'} {f' : β → Eval β'}
    [∀ a, Steady (f a)] [∀ b, Steady (f' b)] (h : Ending T c L P (x m) (x' m')) {L' : Link}
    (hL' : L' ≤ L) (hf : ∀ {L₁ m₁ m₁' a b}, L.Grows L₁ → Agree T L₁ m₁ m₁' → P L₁ m₁ a b →
      Ending T c L' Q (f a m₁) (f' b m₁')) :
    Ending T c L' Q ((x >>= f) m) ((x' >>= f') m') := by
  match hx : x m, hx' : x' m', h with
  | _, _, .ok hL hm ha =>
    rw [Eval.bind_of_ok hx, Eval.bind_of_ok hx']
    exact hf hL hm ha
  | _, _, .error hL hm he =>
    rw [Eval.bind_of_error hx, Eval.bind_of_error hx']
    exact .error (Link.le_trans hL' hL) hm he
  | _, _, .deep hL hm =>
    rw [Eval.bind_of_error hx, Eval.bind_of_error hx']
    exact .deep (Link.le_trans hL' hL) hm
  | _, .ok b m₁', .behind hc ht hp =>
    rw [Eval.bind_of_error hx, Eval.bind_of_ok hx']
    exact .behind hc ht (hp.trans (Steady.prefix_final (f' b) m₁'))
  | _, .error s m₁', .behind hc ht hp =>
    rw [Eval.bind_of_error hx, Eval.bind_of_error hx']
    exact .behind hc ht hp
  | .ok a m₁, _, .ahead hc ht hp =>
    rw [Eval.bind_of_ok hx, Eval.bind_of_error hx']
    exact .ahead hc ht (hp.trans (Steady.prefix_final (f a) m₁))
  | .error s m₁, _, .ahead hc ht hp =>
    rw [Eval.bind_of_error hx, Eval.bind_of_error hx']
    exact .ahead hc ht hp

/-- The second run may go on without the first one, if it does no more than change its result. -/
theorem map_right {P' : Link → Machine → α → β' → Prop} {x : Eval α} {x' : Eval β} {g : β → β'}
    (h : Ending T c L P (x m) (x' m'))
    (hP : ∀ L₁ m₁ a b, L.Grows L₁ → P L₁ m₁ a b → P' L₁ m₁ a (g b)) :
    Ending T c L P' (x m) ((x' >>= fun b => pure (g b)) m') := by
  have hseq : Ending T c L P' ((x >>= pure) m) ((x' >>= fun b => pure (g b)) m') :=
    h.bind (Link.le_refl L) fun hL hm ha => .ok hL hm (hP _ _ _ _ hL ha)
  rwa [bind_pure] at hseq

end Ending

/-- **The computations do the same** from machines that agree, with results as `P` says. -/
def Paired (T : Theory) (c : Slack) (L : Link) {α β : Type} (P : Link → α → β → Prop) (x : Eval α)
    (x' : Eval β) : Prop :=
  ∀ ⦃m m' : Machine⦄, Agree T L m m' → Ending T c L (fun L₁ _ => P L₁) (x m) (x' m')

/-- The expressions are of one form and their parts are taken to do the same; `let` is apart. -/
inductive Congruent (T : Theory) (L : Link) (env env' : Env) : Expr → Expr → Prop
  | int (n : Int) : Congruent T L env env' (.int n) (.int n)
  | bool (b : Bool) : Congruent T L env env' (.bool b) (.bool b)
  | null : Congruent T L env env' .null .null
  | prim (p : Prim) : Congruent T L env env' (.prim p) (.prim p)
  | datum (s i : String) : Congruent T L env env' (.datum s i) (.datum s i)
  | var {x x' : String} : L.Looks env x env' x' → Congruent T L env env' (.var x) (.var x')
  | unary (op : String) {a a' : Expr} : T.Rel L env a env' a' →
      Congruent T L env env' (.unary op a) (.unary op a')
  | binary (op : String) {l r l' r' : Expr} : T.Rel L env l env' l' → T.Rel L env r env' r' →
      Congruent T L env env' (.binary op l r) (.binary op l' r')
  | ite {t e₁ e₂ t' e₁' e₂' : Expr} : T.Rel L env t env' t' → T.Rel L env e₁ env' e₁' →
      T.Rel L env e₂ env' e₂' → Congruent T L env env' (.ite t e₁ e₂) (.ite t' e₁' e₂')
  | map {ps ps' : List String} {b b' : Expr} : T.Rel L env (.map ps b) env' (.map ps' b') →
      Congruent T L env env' (.map ps b) (.map ps' b')
  | app {f f' : Expr} {as as' : List Expr} : T.Rel L env f env' f' →
      List.Forall₂ (fun e e' => T.Rel L env e env' e') as as' →
      Congruent T L env env' (.app f as) (.app f' as')

/-- The expression is a `let`. -/
def Expr.isLet : Expr → Bool
  | .letIn _ _ => true
  | _ => false

/-- The parts that are evaluated in the environment of the whole; definitions are apart. -/
def Expr.parts : Expr → List Expr
  | .unary _ a => [a]
  | .binary _ l r => [l, r]
  | .ite t c a => [t, c, a]
  | .app f as => f :: as
  | _ => []

theorem Expr.mem_free_of_mem_parts {r : Bool} {e a : Expr} (ha : a ∈ e.parts) {x : String}
    (hx : x ∈ a.free r) : x ∈ e.free r := by
  cases e with
  | app f as =>
    rw [free, List.mem_append]
    rcases List.mem_cons.mp ha with rfl | ha
    · exact .inl hx
    · exact .inr (mem_freeArgs ha hx)
  | unary | binary | ite => simp only [parts, List.mem_cons, List.not_mem_nil] at ha; grind [free]
  | _ => cases ha

/-- A free variable of a definition, which the `let` may bind if definitions are recursive. -/
theorem Expr.mem_free_of_def {r : Bool} {ds : List (String × Expr)} {b : Expr} {p : String × Expr}
    (hp : p ∈ ds) {x : String} (hx : x ∈ p.2.free r) (hnot : r = true → x ∉ ds.map (·.1)) :
    x ∈ (letIn ds b).free r := by
  have hdefs := mem_freeDefs hp hx
  rw [free]
  split
  · next hr => exact List.mem_filter.mpr ⟨List.mem_append_left _ hdefs, by simpa using hnot hr⟩
  · exact List.mem_append_left _ hdefs

/-- A free variable of the body of a `let`, which does not bind it. -/
theorem Expr.mem_free_of_body {r : Bool} {ds : List (String × Expr)} {b : Expr} {x : String}
    (hx : x ∈ b.free r) (hnot : x ∉ ds.map (·.1)) : x ∈ (letIn ds b).free r := by
  have hfilter : ∀ ys : List String, x ∈ ys → x ∈ ys.filter (· ∉ ds.map (·.1)) :=
    fun ys hys => List.mem_filter.mpr ⟨hys, by simpa using hnot⟩
  rw [free]
  split
  · exact hfilter _ (List.mem_append_right _ hx)
  · exact List.mem_append_right _ (hfilter _ hx)

/-- The expression with its parts replaced. -/
def Expr.onParts (g : Expr → Expr) : Expr → Expr
  | .unary op a => .unary op (g a)
  | .binary op l r => .binary op (g l) (g r)
  | .ite t c a => .ite (g t) (g c) (g a)
  | .app f as => .app (g f) (as.map g)
  | e => e

/-- An expression and what becomes of it if its parts are replaced by others that do the same. -/
theorem Congruent.onParts {T : Theory} {L : Link} {env env' : Env} {g : Expr → Expr} {e : Expr}
    (hpart : ∀ a ∈ e.parts, T.Rel L env a env' (g a))
    (hvar : ∀ x, e = .var x → L.Looks env x env' x)
    (hmap : ∀ ps b, e = .map ps b → T.Rel L env e env' e) (hlet : e.isLet = false) :
    Congruent T L env env' e (e.onParts g) := by
  cases e with
  | int n => exact .int n
  | bool b => exact .bool b
  | null => exact .null
  | prim p => exact .prim p
  | datum s i => exact .datum s i
  | var x => exact .var (hvar x rfl)
  | unary op a => exact .unary op (hpart a (by simp [Expr.parts]))
  | binary op l r =>
    exact .binary op (hpart l (by simp [Expr.parts])) (hpart r (by simp [Expr.parts]))
  | ite t c a =>
    exact .ite (hpart t (by simp [Expr.parts])) (hpart c (by simp [Expr.parts]))
      (hpart a (by simp [Expr.parts]))
  | map ps b => exact .map (hmap ps b rfl)
  | app f as =>
    refine .app (hpart f List.mem_cons_self) ?_
    rw [List.forall₂_map_right_iff]
    exact List.forall₂_same.mpr fun a ha => hpart a (List.mem_cons_of_mem f ha)
  | letIn ds b => cases hlet

/-- An expression and itself. -/
theorem Congruent.same {T : Theory} {L : Link} {env env' : Env} {e : Expr}
    (hpart : ∀ a ∈ e.parts, T.Rel L env a env' a)
    (hvar : ∀ x, e = .var x → L.Looks env x env' x)
    (hmap : ∀ ps b, e = .map ps b → T.Rel L env e env' e) (hlet : e.isLet = false) :
    Congruent T L env env' e e := by
  have hid : e.onParts id = e := by cases e <;> simp [Expr.onParts]
  have h := Congruent.onParts (g := id) hpart hvar hmap hlet
  rwa [hid] at h

/-- The definitions of two `let`s are taken to do the same, in the frames that they fill or in the
surrounding environments. -/
def Defined (T : Theory) (recursiveLet : Bool) (L : Link) (env : Env) (ds : List (String × Expr))
    (env' : Env) (ds' : List (String × Expr)) : Prop :=
  List.Forall₂ (fun p p' => (T.view.exact → p.1 = p'.1) ∧
    if recursiveLet then Under T.Rel L env (ds.map (·.1)) p.2 env' (ds'.map (·.1)) p'.2
    else T.Rel L env p.2 env' p'.2) ds ds'

namespace Paired

variable {T : Theory} {c : Slack} {L : Link} {α β α' β' : Type} {P : Link → α → β → Prop}
  {Q : Link → α' → β' → Prop}

theorem bind {x : Eval α} {x' : Eval β} {f : α → Eval α'} {f' : β → Eval β'}
    [∀ a, Steady (f a)] [∀ b, Steady (f' b)] (h : Paired T c L P x x')
    (hf : ∀ L₁ a b, L.Grows L₁ → P L₁ a b → Paired T c L₁ Q (f a) (f' b)) :
    Paired T c L Q (x >>= f) (x' >>= f') :=
  fun _ _ hm => (h hm).bind (Link.le_refl L) fun hL hm₁ ha => (hf _ _ _ hL ha hm₁).after hL

theorem pure {a : α} {b : β} (h : P L a b) : Paired T c L P (Pure.pure a) (Pure.pure b) :=
  fun _ _ hm => .ok (.refl L) hm h

/-- A failure, with all that is known of closures when it happens. -/
theorem fail {e e' : EvalError} (h : T.view.Fits (T.Closures L) → EvalError.Like T.view e e') :
    Paired T c L P (Eval.fail e) (Eval.fail e') :=
  fun _ _ hm => .error (Link.le_refl L) hm (h hm.fits)

/-- An operation on values, with all that is known of closures when it is done. -/
theorem lift {r : Except EvalError α} {r' : Except EvalError β}
    (h : T.view.Fits (T.Closures L) → Outcomes T.view (P L) r r') :
    Paired T c L P (Eval.lift r) (Eval.lift r') := by
  intro m m' hm
  have h := h hm.fits
  match r, r' with
  | .ok a, .ok b => exact .ok (.refl L) hm h
  | .error e, .error e' => exact .error (Link.le_refl L) hm h
  | .ok a, .error e => exact h.elim
  | .error e, .ok b => exact h.elim

/-! ### Operations of the machine -/

theorem newBinding {b b' : Binding} (hb : T.Bindings L b b') :
    Paired T c L Link.bindings (Eval.newBinding b) (Eval.newBinding b') :=
  fun _ _ hm => .ok (L.grows_withBindings _ _) (hm.addBindings hb) (.inr ⟨rfl, rfl⟩)

theorem newClosure {ps ps' : List String} {b b' : Expr} {env env' : Env}
    (h : T.Rel L env (.map ps b) env' (.map ps' b')) :
    Paired T c L T.Values (Eval.newClosure ps b env) (Eval.newClosure ps' b' env') := by
  intro m m' hm
  have hL := L.grows_withClosures m.closures m'.closures
  exact .ok hL hm.addClosures (.closure ⟨.inr ⟨rfl, rfl⟩, T.mono hL.le h⟩)

/-- The slots are those of the definitions, and their bindings stand for each other. -/
structure Slotted (ds ds' : List (String × Expr)) (L : Link)
    (slots slots' : List (String × BindingId)) : Prop where
  left : slots.map (·.1) = ds.map (·.1)
  right : slots'.map (·.1) = ds'.map (·.1)
  bindings : List.Forall₂ (fun s s' => L.bindings s.2 s'.2) slots slots'

theorem Slotted.nil (L : Link) : Slotted [] [] L [] [] := ⟨rfl, rfl, .nil⟩

theorem Slotted.cons {ds ds' : List (String × Expr)} {slots slots' : List (String × BindingId)}
    (h : Slotted ds ds' L slots slots') {i i' : BindingId} (hi : L.bindings i i')
    (p p' : String × Expr) :
    Slotted (p :: ds) (p' :: ds') L ((p.1, i) :: slots) ((p'.1, i') :: slots') :=
  ⟨by simp [h.left], by simp [h.right], .cons hi h.bindings⟩

theorem newFrame {ds ds' : List (String × Expr)} {slots slots' : List (String × BindingId)}
    (h : Slotted ds ds' L slots slots') (hlined : Lined (ds.map (·.1)) (ds'.map (·.1))) :
    Paired T c L (fun L₁ f f' => L₁.Framed f (ds.map (·.1)) f' (ds'.map (·.1)))
      (Eval.newFrame (Frame.ofSlots slots)) (Eval.newFrame (Frame.ofSlots slots')) := by
  intro m m' hm
  rw [← h.left, ← h.right] at hlined ⊢
  obtain ⟨L₁, hL, hframed, hm₁⟩ := hm.addFrames hlined (Frame.binds_ofSlots slots)
    (Frame.binds_ofSlots slots') fun hx => by
      rw [get?_ofSlots, get?_ofSlots]
      exact hlined.lastOf? h.bindings hx
  exact .ok hL hm₁ hframed

theorem setSlot {f f' : FrameId} {x x' : String} (hs : L.slots f x f' x') {i i' : BindingId}
    (hi : L.bindings i i') :
    Paired T c L (fun _ _ _ => True) (Eval.setSlot f x i) (Eval.setSlot f' x' i') :=
  fun _ _ hm => .ok (.refl L) (hm.setSlots hs hi) trivial

theorem lookup {env env' : Env} {x x' : String} (h : L.Looks env x env' x')
    (hx : T.view.exact → x = x') :
    Paired T c L Link.bindings (Eval.lookup env x) (Eval.lookup env' x') := by
  intro m m' hm
  unfold Eval.lookup
  rw [hm.left.lookup?_eq, hm.right.lookup?_eq]
  rw [Link.Looks] at h
  generalize L.vars.find? env x = o, L.vars'.find? env' x' = o' at h
  cases h with
  | none => exact .error (Link.le_refl L) hm ⟨rfl, fun hX => by rw [hx hX]⟩
  | some hs =>
    obtain ⟨i, i', hi, hi', hb⟩ := hm.slots hs
    simp only [Option.bind_some, hi, hi']
    exact .ok (.refl L) hm hb

theorem callPrim {p : Prim} {vs vs' : List Value} (h : List.Forall₂ (T.Values L) vs vs') :
    Paired T c L T.Values (Eval.callPrim p vs) (Eval.callPrim p vs') := by
  by_cases ht : ∃ v, p = .tick ∧ vs = [v]
  · obtain ⟨v, rfl, rfl⟩ := ht
    obtain ⟨v', hv, rfl⟩ : ∃ v', T.Values L v v' ∧ vs' = [v'] := by
      simpa [List.forall₂_cons_left_iff] using h
    exact fun m m' hm => .ok (.refl L) (hm.report hv) hv
  · have ht' : ∀ v', ¬ (p = .tick ∧ vs' = [v']) := by
      rintro v' ⟨rfl, rfl⟩
      obtain ⟨v, -, rfl⟩ : ∃ v, T.Values L v v' ∧ vs = [v] := by
        simpa [List.forall₂_cons_right_iff] using h
      exact ht ⟨v, rfl, rfl⟩
    rw [Eval.callPrim_eq_lift fun v hv => ht ⟨v, hv⟩, Eval.callPrim_eq_lift ht']
    exact lift fun hfits => hfits.call h p

/-! ### Evaluation in terms of the evaluation of parts -/

/-- Nested evaluations of expressions that are taken to do the same, with the link and later. -/
def Runs (T : Theory) (c : Slack) (L : Link) (run run' : Env → Expr → Eval Value) : Prop :=
  ∀ ⦃L₁ : Link⦄, L ≤ L₁ → ∀ ⦃env : Env⦄ ⦃e : Expr⦄ ⦃env' : Env⦄ ⦃e' : Expr⦄,
    T.Rel L₁ env e env' e' → Paired T c L₁ T.Values (run env e) (run' env' e')

section Step

variable {run run' : Env → Expr → Eval Value}

theorem Runs.mono {L₁ : Link} (h : Runs T c L run run') (hL : L ≤ L₁) : Runs T c L₁ run run' :=
  fun _ hL' => h (Link.le_trans hL hL')

theorem Runs.apply (h : Runs T c L run run') {env env' : Env} {e e' : Expr}
    (he : T.Rel L env e env' e') : Paired T c L T.Values (run env e) (run' env' e') :=
  h (Link.le_refl L) he

variable (hrun : Runs T c L run run')

include hrun

/-- **Computing a shared binding.** -/
theorem force {i i' : BindingId} {x x' : String} {e e' : Expr} {env env' : Env}
    (hi : L.bindings i i') (hx : T.view.exact → x = x') (he : T.Rel L env e env' e') :
    Paired T c L T.Values (Eval.force run i x e env) (Eval.force run' i' x' e' env') := by
  intro m m' hm
  have hm₁ := hm.setBindings hi (.running hx he)
  match hy : run env e _, hy' : run' env' e' _, hrun.apply he hm₁ with
  | _, _, .ok hL hm₂ hv =>
    rw [Eval.force_of_ok hy, Eval.force_of_ok hy']
    exact .ok hL (hm₂.setBindings (hL.le.bindings hi) (.done hv)) hv
  | _, _, .error hL hm₂ herr =>
    rw [Eval.force_of_error hy, Eval.force_of_error hy']
    exact .error hL (hm₂.setBindings (hL.bindings hi) (.pending hx (T.mono hL he))) herr
  | _, _, .deep hL hm₂ =>
    rw [Eval.force_of_error hy, Eval.force_of_error hy']
    exact .deep hL (hm₂.setBindings (hL.bindings hi) (.pending hx (T.mono hL he)))
  | _, .ok v m₁, .behind hc ht hp =>
    rw [Eval.force_of_error hy, Eval.force_of_ok hy']
    exact .behind hc ht hp
  | _, .error s m₁, .behind hc ht hp =>
    rw [Eval.force_of_error hy, Eval.force_of_error hy']
    exact .behind hc ht hp
  | .ok v m₁, _, .ahead hc ht hp =>
    rw [Eval.force_of_ok hy, Eval.force_of_error hy']
    exact .ahead hc ht hp
  | .error s m₁, _, .ahead hc ht hp =>
    rw [Eval.force_of_error hy, Eval.force_of_error hy']
    exact .ahead hc ht hp

theorem resolve {i i' : BindingId} (hi : L.bindings i i') :
    Paired T c L T.Values (Eval.resolve run i) (Eval.resolve run' i') := by
  intro m m' hm
  obtain ⟨-, -, hb⟩ := hm.bindings hi
  unfold Eval.resolve
  generalize m.binding i = b, m'.binding i' = b' at hb
  cases hb with
  | undefined hx => exact .error (Link.le_refl L) hm ⟨rfl, fun hX => by rw [hx hX]⟩
  | value hv => exact .ok (.refl L) hm hv
  | name he => exact hrun.apply he hm
  | pending hx he => exact force hrun hi hx he hm
  | running hx he =>
    refine .error (Link.le_refl L) hm ⟨rfl, fun hX => ?_⟩
    rw [hx hX, T.exact hX he]
  | done hv => exact .ok (.refl L) hm hv

section Bind

variable {d d' : Discipline} (hd : d.strategy = d'.strategy)

include hd

theorem bindVar {env env' : Env} {x x' : String} (hx : T.view.exact → x = x') {e e' : Expr}
    (he : T.Rel L env e env' e') :
    Paired T c L Link.bindings (Eval.bindVar d run env x e) (Eval.bindVar d' run' env' x' e') := by
  unfold Eval.bindVar
  rw [← hd]
  cases d.strategy with
  | value =>
    refine bind (hrun.apply he) fun L₁ v v' _ hv => ?_
    exact newBinding (.value hv)
  | name => exact newBinding (.name he)
  | need => exact newBinding (.pending hx he)

variable [∀ env e, Steady (run env e)] [∀ env e, Steady (run' env e)]

theorem bindAll {env env' : Env} {ds ds' : List (String × Expr)}
    (hds : List.Forall₂ (fun p p' => (T.view.exact → p.1 = p'.1) ∧ T.Rel L env p.2 env' p'.2)
      ds ds') :
    Paired T c L (Slotted ds ds') (Eval.bindAll d run env ds) (Eval.bindAll d' run' env' ds') := by
  induction ds generalizing L ds' with
  | nil =>
    cases hds
    exact pure (.nil L)
  | cons p ds ih =>
    obtain ⟨p', ds', hp, htail, rfl⟩ := List.forall₂_cons_left_iff.mp hds
    refine bind (bindVar hrun hd hp.1 hp.2) fun L₁ i i' hL hi => ?_
    have htail₁ := htail.imp fun _ _ hq => And.intro hq.1 (T.mono hL.le hq.2)
    refine bind (ih (hrun.mono hL.le) htail₁) fun L₂ slots slots' hL₂ hslots => ?_
    exact pure (hslots.cons (hL₂.le.bindings hi) p p')

/-- Filling frames that stand for each other. -/
theorem fill {f f' : FrameId} {names names' : List String} (hf : L.Framed f names f' names')
    {env env' : Env} {ds ds' : List (String × Expr)}
    (hds : List.Forall₂ (fun p p' => (p.1, p'.1) ∈ names.zip names' ∧
      (T.view.exact → p.1 = p'.1) ∧ T.Rel L env p.2 env' p'.2) ds ds') :
    Paired T c L (fun _ _ _ => True) (Eval.fill d run f env ds)
      (Eval.fill d' run' f' env' ds') := by
  induction ds generalizing L ds' with
  | nil =>
    cases hds
    exact pure trivial
  | cons p ds ih =>
    obtain ⟨p', ds', hp, htail, rfl⟩ := List.forall₂_cons_left_iff.mp hds
    refine bind (bindVar hrun hd hp.2.1 hp.2.2) fun L₁ i i' hL hi => ?_
    refine bind (setSlot ((hf.mono hL.le).slots hp.1) hi) fun L₂ _ _ hL₂ _ => ?_
    have hle := Link.le_trans hL.le hL₂.le
    have htail₂ := htail.imp fun _ _ hq => And.intro hq.1 (And.intro hq.2.1 (T.mono hle hq.2.2))
    exact ih (hrun.mono hle) (hf.mono hle) htail₂

end Bind

variable [∀ env e, Steady (run env e)] [∀ env e, Steady (run' env e)]

theorem evalAll {env env' : Env} {es es' : List Expr}
    (hes : List.Forall₂ (fun e e' => T.Rel L env e env' e') es es') :
    Paired T c L (fun L₁ => List.Forall₂ (T.Values L₁)) (Eval.evalAll run env es)
      (Eval.evalAll run' env' es') := by
  induction es generalizing L es' with
  | nil =>
    cases hes
    exact pure .nil
  | cons e es ih =>
    obtain ⟨e', es', he, htail, rfl⟩ := List.forall₂_cons_left_iff.mp hes
    refine bind (hrun.apply he) fun L₁ v v' hL hv => ?_
    refine bind (ih (hrun.mono hL.le) (htail.imp fun _ _ => T.mono hL.le))
      fun L₂ vs vs' hL₂ hvs => ?_
    exact pure (.cons (Theory.Values.mono hL₂.le hv) hvs)

omit hrun in
theorem asBool {op : String} {v v' : Value} (hv : T.Values L v v') :
    Paired T c L (fun _ => Eq) (Eval.lift (v.asBool op)) (Eval.lift (v'.asBool op)) :=
  lift fun hfits => hfits.asBool hv op

theorem connect (op : Connective) {env env' : Env} {l l' r r' : Expr} (hl : T.Rel L env l env' l')
    (hr : T.Rel L env r env' r') :
    Paired T c L T.Values (Eval.connect run op env l r) (Eval.connect run' op env' l' r') := by
  unfold Eval.connect
  refine bind (hrun.apply hl) fun L₁ v v' hL hv => ?_
  refine bind (asBool hv) fun L₂ b b' hL₂ hb => ?_
  subst hb
  split
  · exact pure (.bool _)
  · have hle := Link.le_trans hL.le hL₂.le
    refine bind (hrun hle (T.mono hle hr)) fun L₃ w w' _ hw => ?_
    refine bind (asBool hw) fun L₄ b b' _ hb => ?_
    exact pure (hb ▸ .bool _)

theorem branch {env env' : Env} {t t' e₁ e₁' e₂ e₂' : Expr} (ht : T.Rel L env t env' t')
    (h₁ : T.Rel L env e₁ env' e₁') (h₂ : T.Rel L env e₂ env' e₂')
    (hX : T.view.exact → Expr.ite t e₁ e₂ = .ite t' e₁' e₂') :
    Paired T c L T.Values (Eval.branch run env t e₁ e₂) (Eval.branch run' env' t' e₁' e₂') := by
  unfold Eval.branch
  -- instances are not found through the match on the value of the test
  refine @bind T c L _ _ _ _ _ _ _ _ _ _ (fun v => ?_) (fun v' => ?_) (hrun.apply ht)
    fun L₁ v v' hL hv => ?_
  · split <;> infer_instance
  · split <;> infer_instance
  have hno : Paired T c L₁ T.Values (Eval.fail (.testNotBool (.ite t e₁ e₂) v))
      (Eval.fail (.testNotBool (.ite t' e₁' e₂') v')) := by
    refine fail fun hfits => ⟨rfl, fun hx => ?_⟩
    simp only [EvalError.bare, hX hx, (hfits.like hv).bare_eq hx]
  cases hv with
  | bool b =>
    cases b with
    | true => exact hrun hL.le (T.mono hL.le h₁)
    | false => exact hrun hL.le (T.mono hL.le h₂)
  | _ => exact hno

omit hrun in
/-- Parameters with arguments. -/
theorem forall₂_zip {R : Expr → Expr → Prop} {as as' : List Expr} (h : List.Forall₂ R as as')
    {X : Prop} {ps ps' : List String} (hlen : ps.length = ps'.length) (hX : X → ps = ps') :
    List.Forall₂ (fun p p' => (X → p.1 = p'.1) ∧ R p.2 p'.2) (ps.zip as) (ps'.zip as') := by
  induction h generalizing ps ps' with
  | nil => simp
  | cons ha _ ih =>
    match ps, ps', hlen with
    | [], [], _ => exact .nil
    | p :: ps, p' :: ps', hlen =>
      refine .cons ⟨fun hx => (List.cons.inj (hX hx)).1, ha⟩ (ih (by simpa using hlen) fun hx => ?_)
      exact (List.cons.inj (hX hx)).2

theorem apply {d d' : Discipline} (hd : d.strategy = d'.strategy) {env env' : Env} {v v' : Value}
    (hv : T.Values L v v') {as as' : List Expr}
    (has : List.Forall₂ (fun e e' => T.Rel L env e env' e') as as') :
    Paired T c L T.Values (Eval.apply d run env v as) (Eval.apply d' run' env' v' as') := by
  have hlen := has.length_eq
  have hbare := fun (hfits : T.view.Fits (T.Closures L)) hX => (hfits.like hv).bare_eq hX
  cases hv with
  | @closure i ps b η i' ps' b' η' hc =>
    obtain ⟨hlined, hparams, hunder⟩ := T.enter hc.2
    have hps := T.view.length_eq hparams
    unfold Eval.apply
    simp only [← hlen, ← hps]
    split
    · next heq =>
      have hnames : (ps.zip as).map (·.1) = ps := List.map_fst_zip (Nat.le_of_eq heq.symm)
      have hnames' : (ps'.zip as').map (·.1) = ps' := List.map_fst_zip (by omega)
      have hpairs := forall₂_zip (X := T.view.exact) has hps fun hX => by
        have := T.exact hX hc.2
        cases this
        rfl
      refine bind (bindAll hrun hd hpairs) fun L₁ slots slots' hL hslots => ?_
      refine bind (newFrame hslots (by rwa [hnames, hnames'])) fun L₂ f f' hL₂ hframed => ?_
      have hle := Link.le_trans hL.le hL₂.le
      rw [hnames, hnames'] at hframed
      exact hrun hle (hunder hle hframed)
    · refine fail fun hfits => ⟨rfl, fun hX => ?_⟩
      simp only [EvalError.bare, hbare hfits hX]
  | prim p =>
    unfold Eval.apply
    simp only [← hlen]
    split
    · exact bind (evalAll hrun has) fun L₁ vs vs' _ hvs => callPrim hvs
    · exact fail fun _ => .refl _ _
  | _ =>
    refine fail fun hfits => ⟨rfl, fun hX => ?_⟩
    simp only [EvalError.bare, hbare hfits hX]

/-- **One evaluation of expressions of one form**, `let` apart. -/
theorem step {d d' : Discipline} (hd : d.strategy = d'.strategy) {env env' : Env} {e e' : Expr}
    (h : Congruent T L env env' e e') (hX : T.view.exact → e = e') :
    Paired T c L T.Values (Eval.step d run env e) (Eval.step d' run' env' e') := by
  cases h with
  | int n => exact pure (.int n)
  | bool b => exact pure (.bool b)
  | null => exact pure .empty
  | prim p => exact pure (.prim p)
  | datum s i => exact fail fun _ => .refl _ _
  | var hx =>
    refine bind (lookup hx fun h => Expr.var.inj (hX h)) fun L₁ i i' hL hi => ?_
    exact resolve (hrun.mono hL.le) hi
  | unary op ha =>
    refine bind (hrun.apply ha) fun L₁ v v' _ hv => ?_
    exact lift fun hfits => hfits.applyUnary hv op
  | binary op hl hr =>
    simp only [Eval.step]
    split
    · exact connect hrun _ hl hr
    · refine bind (hrun.apply hl) fun L₁ v v' hL hv => ?_
      refine bind (hrun hL.le (T.mono hL.le hr)) fun L₂ w w' hL₂ hw => ?_
      exact lift fun hfits => hfits.applyBinary (Theory.Values.mono hL₂.le hv) hw op
  | ite ht h₁ h₂ => exact branch hrun ht h₁ h₂ hX
  | map h => exact newClosure h
  | app hf has =>
    refine bind (hrun.apply hf) fun L₁ v v' hL hv => ?_
    exact apply (hrun.mono hL.le) hd hv (has.imp fun _ _ => T.mono hL.le)

end Step

/-! ### Definitions -/

section Define

variable {run run' : Env → Expr → Eval Value} {ds ds' : List (String × Expr)}

theorem reserve (hds : List.Forall₂ (fun p p' => T.view.exact → p.1 = p'.1) ds ds') :
    Paired T c L (Slotted ds ds') (Eval.reserve ds) (Eval.reserve ds') := by
  induction hds generalizing L with
  | nil => exact pure (.nil L)
  | @cons p p' ds ds' hp _ ih =>
    refine bind (newBinding (.undefined hp)) fun L₁ i i' _ hi => ?_
    refine bind ih fun L₂ slots slots' hL₂ hslots => ?_
    exact pure (hslots.cons (hL₂.le.bindings hi) p p')

variable (hrun : Runs T c L run run') [∀ env e, Steady (run env e)] [∀ env e, Steady (run' env e)]

include hrun

/-- The environments of the bodies of two `let`s with one rule for definitions. -/
theorem define {d : Discipline} {env env' : Env}
    (hlined : Lined (ds.map (·.1)) (ds'.map (·.1)))
    (hds : Defined T d.recursiveLet L env ds env' ds') :
    Paired T c L (fun L₁ η η' => ∃ f f', η = f :: env ∧ η' = f' :: env' ∧
        L₁.Framed f (ds.map (·.1)) f' (ds'.map (·.1)))
      (Eval.define d run env ds) (Eval.define d run' env' ds') := by
  unfold Eval.define
  cases hr : d.recursiveLet with
  | false =>
    simp only [hr, Defined, Bool.false_eq_true, if_false] at hds ⊢
    refine bind (bindAll hrun rfl hds) fun L₁ slots slots' _ hslots => ?_
    refine bind (newFrame hslots hlined) fun L₂ f f' _ hframed => ?_
    exact pure ⟨f, f', rfl, rfl, hframed⟩
  | true =>
    simp only [hr, Defined, if_true] at hds ⊢
    refine bind (reserve (hds.imp fun _ _ hp => hp.1)) fun L₁ slots slots' hL₁ hslots => ?_
    refine bind (newFrame hslots hlined) fun L₂ f f' hL₂ hframed => ?_
    have hle := Link.le_trans hL₁.le hL₂.le
    -- the definitions are read in the frames that they fill
    have hfill : List.Forall₂ (fun p p' => (p.1, p'.1) ∈ (ds.map (·.1)).zip (ds'.map (·.1)) ∧
        (T.view.exact → p.1 = p'.1) ∧ T.Rel L₂ (f :: env) p.2 (f' :: env') p'.2) ds ds' := by
      rw [List.forall₂_iff_zip] at hds ⊢
      refine ⟨hds.1, fun {p p'} hmem => ⟨?_, (hds.2 hmem).1, (hds.2 hmem).2 hle hframed⟩⟩
      rw [List.zip_map]
      exact List.mem_map_of_mem (f := Prod.map (·.1) (·.1)) hmem
    refine bind (fill (hrun.mono hle) rfl hframed hfill) fun L₃ _ _ hL₃ _ => ?_
    exact pure ⟨f, f', rfl, rfl, hframed.mono hL₃.le⟩

/-- **One evaluation of two `let`s** with one rule for definitions. -/
theorem letIn {d : Discipline} {env env' : Env} {b b' : Expr}
    (hlined : Lined (ds.map (·.1)) (ds'.map (·.1)))
    (hds : Defined T d.recursiveLet L env ds env' ds')
    (hb : Under T.Rel L env (ds.map (·.1)) b env' (ds'.map (·.1)) b') :
    Paired T c L T.Values (Eval.step d run env (.letIn ds b))
      (Eval.step d run' env' (.letIn ds' b')) := by
  refine bind (define hrun hlined hds) fun L₁ η η' hL hη => ?_
  obtain ⟨f, f', rfl, rfl, hframed⟩ := hη
  exact hrun hL.le (hb hL.le hframed)

end Define

/-! ### Whole runs -/

/-- **Two runs from the empty environment.** -/
theorem Runs.start {d d' : Discipline} {n n' : Nat} {e e' : Expr}
    (hrun : Runs T c .start (Eval.eval d n) (Eval.eval d' n'))
    (hkept : ∀ f x e env, ¬ T.kept f x e env) (he : T.Rel .start [0] e [0] e') :
    Ending T c .start (fun L _ => T.Values L) (Eval.evalClosed d n e .initial)
      (Eval.evalClosed d' n' e' .initial) :=
  hrun.apply he (Agree.start T hkept)

end Paired

end CallBy
