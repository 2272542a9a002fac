import CallBy.Proofs.Growth

/-!
The life of a shared binding: not begun, being computed, done.

* `Machine.Later m m'`: what a run does to bindings. Some are added, none of them being computed;
  of the old ones only shared ones change that had not begun, and those are done (`eval_later`);
* `Eval.audited i` is `Eval.eval` with one more report for every evaluation of the expression of the
  shared binding `i` that comes to its end (`abreast_audited`);
* `shared_bindings_protocol`: the rules that shared bindings obey in every run, and that none is
  computed to its end twice.
-/

namespace CallBy

/-! ### What a run does to bindings -/

/-- What becomes of a binding in a run: nothing, or a shared computation that had not begun is
done. -/
inductive Binding.Later : Binding → Binding → Prop
  | same (b : Binding) : Later b b
  | done (x : String) (e : Expr) (env : Env) (v : Value) :
      Later (.need x (.pending e env)) (.need x (.done v))

theorem Binding.Later.trans {b b' b'' : Binding} (h : b.Later b') (h' : b'.Later b'') :
    b.Later b'' := by
  cases h with
  | same => exact h'
  | done x e env v =>
    cases h'
    exact .done x e env v

namespace Machine

/-- The second machine can come after the first one in a run: it has all its frames and bindings,
the bindings as they were or done, and no new binding is being computed. -/
structure Later (m m' : Machine) : Prop where
  frames : m.frames.size ≤ m'.frames.size
  bindings : m.bindings.size ≤ m'.bindings.size
  old : ∀ i : Nat, i < m.bindings.size → (m.binding i).Later (m'.binding i)
  new : ∀ i : Nat, m.bindings.size ≤ i → ¬ m'.IsRunning i

/-- Bindings as they were, and maybe more that are not being computed. -/
theorem Later.of_binding_eq {m m' : Machine} (hf : m.frames.size ≤ m'.frames.size)
    (hb : m.bindings.size ≤ m'.bindings.size)
    (hold : ∀ i : Nat, i < m.bindings.size → m'.binding i = m.binding i)
    (hnew : ∀ i : Nat, m.bindings.size ≤ i → ¬ m'.IsRunning i) : m.Later m' := by
  refine ⟨hf, hb, fun i hi => ?_, hnew⟩
  rw [hold i hi]
  exact .same _

/-- Only the bindings count. -/
theorem Later.of_bindings {m m' : Machine} (hf : m.frames.size ≤ m'.frames.size)
    (hb : m'.bindings = m.bindings) : m.Later m' := by
  have hbind : ∀ i, m'.binding i = m.binding i := fun i => by rw [binding, binding, hb]
  refine .of_binding_eq hf (by simp [hb]) (fun i _ => hbind i) fun i hi hrun => ?_
  have hlt : i < m'.bindings.size := hrun.lt_size
  rw [hb] at hlt
  omega

theorem Later.trans {m m' m'' : Machine} (h : m.Later m') (h' : m'.Later m'') : m.Later m'' := by
  have hf := h.frames
  have hf' := h'.frames
  have hb := h.bindings
  have hb' := h'.bindings
  refine ⟨by omega, by omega, fun i hi => ?_, fun i hi => ?_⟩
  · exact (h.old i hi).trans (h'.old i (by omega))
  · by_cases hlt : i < m'.bindings.size
    · -- new to the first machine only: not being computed then, so not being computed now
      rintro ⟨x, e, env, hrun⟩
      have hold := h'.old i hlt
      rw [hrun] at hold
      refine h.new i hi ⟨x, e, env, ?_⟩
      generalize hb : m'.binding i = b at hold
      cases hold
      rfl
    · exact h'.new i (by omega)

theorem Later.addBinding (m : Machine) {b : Binding} (hb : b.IsNew) : m.Later (m.addBinding b) := by
  refine .of_binding_eq (Nat.le_refl _) (by simp)
    (fun i hi => binding_addBinding_of_lt m b hi) ?_
  · rintro i hi ⟨x, e, env, hrun⟩
    rw [binding_addBinding] at hrun
    split at hrun
    · obtain ⟨_, _, hmemo⟩ := hb x _ hrun
      cases hmemo
    · have hlt := lt_size_of_need hrun
      omega

theorem growing_later : Growing Later where
  refl m := .of_bindings (Nat.le_refl _) rfl
  trans := Later.trans
  frames_le h := h.frames
  addBinding m _ hb := .addBinding m hb
  addFrame m F := .of_bindings (by simp) rfl
  setSlot h _ x i := h.trans (.of_bindings (by simp) rfl)
  addClosure m := .of_bindings (Nat.le_refl _) rfl
  report m v := .of_bindings (Nat.le_refl _) rfl

/-- **The bindings that are being computed are the same.** -/
theorem Later.isRunning_iff {m m' : Machine} (h : m.Later m') (i : Nat) :
    m'.IsRunning i ↔ m.IsRunning i := by
  by_cases hi : i < m.bindings.size
  · have hold := h.old i hi
    unfold IsRunning
    generalize m.binding i = b at hold
    generalize m'.binding i = b' at hold
    cases hold with
    | same => exact Iff.rfl
    | done x e env v => exact ⟨fun ⟨_, _, _, hr⟩ => (nomatch hr), fun ⟨_, _, _, hr⟩ => (nomatch hr)⟩
  · exact ⟨fun hr => absurd hr (h.new i (by omega)), fun hr => absurd hr.lt_size hi⟩

/-- While a binding is computed it is marked as running; afterwards it is done or as before. -/
theorem Later.force {m m₁ : Machine} {i : Nat} {x : String} {e : Expr} {env : Env} {b : Binding}
    (hi : m.binding i = .need x (.pending e env))
    (h : (m.setBinding i (.need x (.running e env))).Later m₁) (hb : (m.binding i).Later b) :
    m.Later (m₁.setBinding i b) := by
  have hlt := lt_size_of_need hi
  have hle : m.bindings.size ≤ m₁.bindings.size := by simpa using h.bindings
  refine ⟨h.frames, by simpa using hle, fun j hj => ?_, fun j hj => ?_⟩
  · by_cases hij : i = j
    · subst hij
      rw [binding_setBinding_self m₁ b (by omega)]
      exact hb
    · have hold := h.old j (by simpa using hj)
      rw [binding_setBinding_of_ne m _ hij] at hold
      rw [binding_setBinding_of_ne m₁ b hij]
      exact hold
  · rintro ⟨y, e', env', hrun⟩
    rw [binding_setBinding_of_ne m₁ b (by omega)] at hrun
    exact h.new j (by simpa using hj) ⟨y, e', env', hrun⟩

end Machine

section Later

open Machine

variable {run : Env → Expr → Eval Value} (hrun : ∀ env e, Keeps Later (run env e))

include hrun

theorem Keeps.force_later {m : Machine} {i : BindingId} {x : String} {e : Expr} {env : Env}
    (hi : m.binding i = .need x (.pending e env)) :
    m.Later (Eval.leaves (Eval.force run i x e env) m) := by
  have h := hrun env e (m.setBinding i (.need x (.running e env)))
  unfold Eval.leaves Eval.force
  cases hx : run env e (m.setBinding i (.need x (.running e env))) with
  | ok v m₁ =>
    rw [Eval.leaves_of_ok hx] at h
    exact h.force hi (hi ▸ .done x e env v)
  | error s m₁ =>
    rw [Eval.leaves_of_error hx] at h
    exact h.force hi (hi ▸ .same _)

theorem Keeps.resolve_later (i : BindingId) : Keeps Later (Eval.resolve run i) := by
  intro m
  have hrefl := growing_later.refl m
  unfold Eval.leaves Eval.resolve
  cases hb : m.binding i with
  | undefined x => exact hrefl
  | value x v => exact hrefl
  | name x e env => exact hrun env e m
  | need x memo =>
    cases memo with
    | pending e env => exact force_later hrun hb
    | running e env => exact hrefl
    | done v => exact hrefl

end Later

/-- **What an evaluation does to bindings**, whatever comes of it. -/
theorem eval_later (d : Discipline) (n : Nat) (env : Env) (e : Expr) :
    Keeps Machine.Later (Eval.eval d n env e) := by
  induction n generalizing env e with
  | zero => exact Machine.growing_later.refl
  | succ n ih => exact Keeps.step Machine.growing_later ih (Keeps.resolve_later ih) env e

/-! ### Evaluations of shared bindings that are reported -/

/-- The binding is shared. -/
def Binding.isShared : Binding → Bool
  | .need _ _ => true
  | _ => false

/-- The binding is shared and done. -/
def Binding.isDone : Binding → Bool
  | .need _ (.done _) => true
  | _ => false

namespace Eval

/-- The evaluation of an expression, with its value reported when it has come to its end. -/
def reporting (run : Env → Expr → Eval Value) (env : Env) (e : Expr) : Eval Value := do
  let v ← run env e
  fun m => .ok v (m.report v)

/-- The value of the variable bound at the address `j`. If this is the shared binding `i`, the
evaluation of its expression is reported. -/
def auditedResolve (i : BindingId) (run : Env → Expr → Eval Value) (j : BindingId) : Eval Value :=
  fun m => resolve (if j = i ∧ (m.binding j).isShared then reporting run else run) j m

/-- One evaluation in which those of the shared binding `i` are reported. -/
def auditedStep (i : BindingId) (d : Discipline) (run : Env → Expr → Eval Value) (env : Env) :
    Expr → Eval Value
  | .var x => do auditedResolve i run (← lookup env x)
  | e => step d run env e

/-- **Evaluation with one more report for every evaluation of the expression of the shared binding
`i` that comes to its end.** -/
def audited (i : BindingId) (d : Discipline) : Nat → Env → Expr → Eval Value
  | 0 => fun _ _ => throw .tooDeep
  | n + 1 => auditedStep i d (audited i d n)

end Eval

/-- The results are the same, and the machines are related. -/
inductive SameBut (R : Machine → Machine → Prop) {α : Type} :
    EStateM.Result Stop Machine α → EStateM.Result Stop Machine α → Prop
  | ok (a : α) {m m' : Machine} : R m m' → SameBut R (.ok a m) (.ok a m')
  | error (s : Stop) {m m' : Machine} : R m m' → SameBut R (.error s m) (.error s m')

theorem SameBut.mono {R S : Machine → Machine → Prop} {α : Type}
    {r r' : EStateM.Result Stop Machine α} (h : SameBut R r r')
    (hRS : ∀ {m m'}, R m m' → S m m') : SameBut S r r' := by
  cases h with
  | ok a hm => exact .ok a (hRS hm)
  | error s hm => exact .error s (hRS hm)

namespace Machine

/-- The second machine is the first one with `k` more reports among those that there are. -/
def MoreReports (k : Nat) (m m' : Machine) : Prop :=
  ∃ rs : Array Value, m' = { m with reports := rs } ∧ m.reports.toList.Sublist rs.toList ∧
    rs.size = m.reports.size + k

/-- The binding at an address is shared and done. -/
def isDone (m : Machine) (i : BindingId) : Bool := (m.binding i).isDone

/-- One if the binding at the address is done in the second machine and not in the first one, and
zero otherwise. -/
def newlyDone (m m' : Machine) (i : BindingId) : Nat :=
  if m.isDone i = false ∧ m'.isDone i = true then 1 else 0

/-- The second machine is the first one with more reports: with the number `b` they are one if the
binding `i` is done in the first machine, and none otherwise. -/
def Audited (i : BindingId) (b : Nat) (m m' : Machine) : Prop :=
  ∃ k, m.MoreReports k m' ∧ k + b = (m.isDone i).toNat

theorem isDone_of_size_le {m : Machine} {i : Nat} (h : m.bindings.size ≤ i) :
    m.isDone i = false := by
  rw [isDone, binding, Array.getElem?_eq_none h]
  rfl

/-- A new binding is not done, and neither was its address before. -/
theorem isDone_addBinding (m : Machine) {b : Binding} (hb : b.IsNew) (i : BindingId) :
    (m.addBinding b).isDone i = m.isDone i := by
  by_cases hi : i = m.bindings.size
  · rw [hi, isDone_of_size_le (Nat.le_refl _), isDone, binding_addBinding, if_pos rfl]
    cases b with
    | need x memo =>
      obtain ⟨e, env, rfl⟩ := hb x memo rfl
      rfl
    | _ => rfl
  · rw [isDone, isDone, binding_addBinding, if_neg hi]

theorem isDone_setBinding_self (m : Machine) (b : Binding) {i : Nat} (h : i < m.bindings.size) :
    (m.setBinding i b).isDone i = b.isDone := by
  rw [isDone, binding_setBinding_self m b h]

theorem isDone_setBinding_of_ne (m : Machine) (b : Binding) {i j : Nat} (h : i ≠ j) :
    (m.setBinding i b).isDone j = m.isDone j := by
  rw [isDone, isDone, binding_setBinding_of_ne m b h]

/-- A binding that is marked as running stays so, and is not done. -/
theorem Later.of_running {m m₁ : Machine} {i : Nat} {x : String} {e : Expr} {env : Env}
    (h : (m.setBinding i (.need x (.running e env))).Later m₁) (hi : i < m.bindings.size) :
    i < m₁.bindings.size ∧ m₁.isDone i = false := by
  obtain ⟨y, e', env', hr⟩ := (h.isRunning_iff i).mpr ⟨x, e, env, binding_setBinding_self m _ hi⟩
  refine ⟨lt_size_of_need hr, ?_⟩
  rw [isDone, hr]
  rfl

namespace Audited

variable {i : BindingId} {b : Nat} {m m' : Machine}

theorem refl (i : BindingId) (m : Machine) : m.Audited i (m.isDone i).toNat m :=
  ⟨0, ⟨m.reports, rfl, List.Sublist.refl _, rfl⟩, Nat.zero_add _⟩

/-- A write to both machines that takes no notice of reports, and after which the binding is done if
it was before. -/
theorem write (h : m.Audited i b m') {φ : Machine → Machine}
    (hφ : ∀ rs, φ { m with reports := rs } = { φ m with reports := rs })
    (hd : (φ m).isDone i = m.isDone i) : (φ m).Audited i b (φ m') := by
  obtain ⟨k, ⟨rs, rfl, hsub, hsize⟩, hk⟩ := h
  have hsame : (φ m).reports = m.reports := by rw [show φ m = _ from hφ m.reports]
  refine ⟨k, ⟨rs, hφ rs, ?_, ?_⟩, ?_⟩
  · rwa [hsame]
  · rw [hsame, hsize]
  · rw [hd, hk]

theorem report (h : m.Audited i b m') (v : Value) : (m.report v).Audited i b (m'.report v) := by
  obtain ⟨k, ⟨rs, rfl, hsub, hsize⟩, hk⟩ := h
  refine ⟨k, ⟨rs.push v, rfl, ?_, ?_⟩, hk⟩
  · simpa [Machine.report] using hsub
  · simp only [Machine.report, Array.size_push]
    omega

/-- The binding is done, and the second machine alone has reported it. -/
theorem complete (h : m.Audited i b m') (hi : i < m.bindings.size) (hd : m.isDone i = false)
    (x : String) (v : Value) : (m.setBinding i (.need x (.done v))).Audited i b
      ((m'.report v).setBinding i (.need x (.done v))) := by
  obtain ⟨k, ⟨rs, rfl, hsub, hsize⟩, hk⟩ := h
  refine ⟨k + 1, ⟨rs.push v, rfl, ?_, ?_⟩, ?_⟩
  · rw [Array.toList_push]
    exact hsub.trans (List.sublist_append_left _ _)
  · rw [Array.size_push, hsize]
    rfl
  · rw [hd] at hk
    rw [isDone_setBinding_self m _ hi]
    simp only [Bool.toNat_false, Nat.add_eq_zero_iff] at hk
    rw [hk.1, hk.2]
    rfl

end Audited

end Machine

/-- **Side by side**: with one more report in the second computation whenever the binding `i` has
been computed to its end. -/
def Abreast (i : BindingId) {α : Type} (x y : Eval α) : Prop :=
  ∀ b m m', m.Audited i b m' → SameBut (Machine.Audited i b) (x m) (y m')

namespace Abreast

variable {i : BindingId} {α β : Type}

theorem bind {x y : Eval α} {f g : α → Eval β} (h : Abreast i x y)
    (hf : ∀ a, Abreast i (f a) (g a)) : Abreast i (x >>= f) (y >>= g) := by
  intro b m m' hm
  match hx : x m, hy : y m', h b m m' hm with
  | _, _, .ok a hm₁ =>
    rw [Eval.bind_of_ok hx, Eval.bind_of_ok hy]
    exact hf a b _ _ hm₁
  | _, _, .error s hm₁ =>
    rw [Eval.bind_of_error hx, Eval.bind_of_error hy]
    exact .error s hm₁

theorem pure (a : α) : Abreast i (Pure.pure a : Eval α) (Pure.pure a) := fun _ _ _ hm => .ok a hm

theorem fail (e : EvalError) : Abreast i (Eval.fail e : Eval α) (Eval.fail e) :=
  fun _ _ _ hm => .error _ hm

theorem lift (r : Except EvalError α) : Abreast i (Eval.lift r) (Eval.lift r) := by
  cases r with
  | ok a => exact pure a
  | error e => exact fail e

/-- A write that takes no notice of reports and of the binding. -/
theorem write {φ : Machine → Machine} {f : Machine → α}
    (hφ : ∀ m rs, φ { m with reports := rs } = { φ m with reports := rs })
    (hf : ∀ m rs, f { m with reports := rs } = f m)
    (hd : ∀ m : Machine, (φ m).isDone i = m.isDone i) :
    Abreast i (fun m => .ok (f m) (φ m)) fun m => .ok (f m) (φ m) := by
  intro b m m' hm
  have hsame : f m' = f m := by
    obtain ⟨_, ⟨rs, rfl, _⟩, _⟩ := hm
    exact hf m rs
  change SameBut _ (.ok (f m) (φ m)) (.ok (f m') (φ m'))
  rw [hsame]
  exact .ok _ (hm.write (hφ m) (hd m))

theorem newBinding {b : Binding} (hb : b.IsNew) :
    Abreast i (Eval.newBinding b) (Eval.newBinding b) :=
  write (φ := (·.addBinding b)) (f := (·.bindings.size)) (fun _ _ => rfl) (fun _ _ => rfl)
    fun m => m.isDone_addBinding hb i

theorem newFrame (F : Frame) : Abreast i (Eval.newFrame F) (Eval.newFrame F) :=
  write (φ := (·.addFrame F)) (f := (·.frames.size)) (fun _ _ => rfl) (fun _ _ => rfl)
    fun _ => rfl

theorem newClosure (ps : List String) (b : Expr) (env : Env) :
    Abreast i (Eval.newClosure ps b env) (Eval.newClosure ps b env) :=
  write (φ := fun m => { m with closures := m.closures + 1 })
    (f := fun m => Value.closure m.closures ps b env) (fun _ _ => rfl) (fun _ _ => rfl) fun _ => rfl

theorem setSlot (f : FrameId) (x : String) (j : BindingId) :
    Abreast i (Eval.setSlot f x j) (Eval.setSlot f x j) :=
  write (φ := (·.setSlot f x j)) (f := fun _ => ()) (fun _ _ => rfl) (fun _ _ => rfl) fun _ => rfl

theorem lookup (env : Env) (x : String) : Abreast i (Eval.lookup env x) (Eval.lookup env x) := by
  intro b m m' hm
  have hsame : m'.lookup? env x = m.lookup? env x := by
    obtain ⟨_, ⟨rs, rfl, _⟩, _⟩ := hm
    rfl
  unfold Eval.lookup
  rw [hsame]
  cases m.lookup? env x with
  | some j => exact .ok j hm
  | none => exact .error _ hm

theorem callPrim (p : Prim) (vs : List Value) :
    Abreast i (Eval.callPrim p vs) (Eval.callPrim p vs) := by
  by_cases ht : ∃ v, p = .tick ∧ vs = [v]
  · obtain ⟨v, rfl, rfl⟩ := ht
    exact fun _ _ _ hm => .ok v (hm.report v)
  · rw [Eval.callPrim_eq_lift fun v hv => ht ⟨v, hv⟩]
    exact lift _

theorem reserve (ds : List (String × Expr)) : Abreast i (Eval.reserve ds) (Eval.reserve ds) := by
  induction ds with
  | nil => exact pure _
  | cons p ds ih =>
    refine bind (newBinding (b := .undefined p.1) nofun) fun j => ?_
    exact bind ih fun later => pure _

section Step

variable {d : Discipline} {run run' : Env → Expr → Eval Value}
  (h : ∀ env e, Abreast i (run env e) (run' env e))

include h

/-- **Computing a shared binding**: if it is the binding `i` and comes to its end, it is done for
the first time, and is reported. -/
theorem force (hlater : ∀ env e, Keeps Machine.Later (run env e)) {b : Nat} {m m' : Machine}
    (hm : m.Audited i b m') {j : BindingId} {x : String} {e : Expr} {env : Env}
    (hj : m.binding j = .need x (.pending e env)) :
    SameBut (Machine.Audited i b) (Eval.force run j x e env m)
      (Eval.force (if j = i then Eval.reporting run' else run') j x e env m') := by
  have hlt := Machine.lt_size_of_need hj
  have hnot : m.isDone j = false := by
    rw [Machine.isDone, hj]
    rfl
  have hset : ∀ {m₁ m₁' : Machine} {c : Binding}, m₁.Audited i b m₁' → j < m₁.bindings.size →
      (j = i → m₁.isDone j = c.isDone) →
      (m₁.setBinding j c).Audited i b (m₁'.setBinding j c) := by
    intro m₁ m₁' c hm₁ hlt₁ hd
    refine hm₁.write (φ := (·.setBinding j c)) (fun _ => rfl) ?_
    by_cases hji : j = i
    · rw [← hji, Machine.isDone_setBinding_self m₁ c hlt₁, hd hji]
    · rw [Machine.isDone_setBinding_of_ne m₁ c hji]
  have hbegin := hset (c := .need x (.running e env)) hm hlt fun _ => hnot
  have hkept := hlater env e (m.setBinding j (.need x (.running e env)))
  match hx : run env e _, hy : run' env e _, h env e b _ _ hbegin with
  | _, _, .ok v hm₁ =>
    rw [Eval.leaves_of_ok hx] at hkept
    obtain ⟨hlt₁, hnot₁⟩ := hkept.of_running hlt
    rw [Eval.force_of_ok hx]
    by_cases hji : j = i
    · subst hji
      rw [if_pos rfl, Eval.force_of_ok (Eval.bind_of_ok hy)]
      exact .ok v (hm₁.complete hlt₁ hnot₁ x v)
    · rw [if_neg hji, Eval.force_of_ok hy]
      exact .ok v (hset hm₁ hlt₁ fun heq => absurd heq hji)
  | _, _, .error s hm₁ =>
    rw [Eval.leaves_of_error hx] at hkept
    obtain ⟨hlt₁, hnot₁⟩ := hkept.of_running hlt
    have hend := hset (c := .need x (.pending e env)) hm₁ hlt₁ fun _ => hnot₁
    rw [Eval.force_of_error hx]
    split
    · rw [Eval.force_of_error (Eval.bind_of_error hy)]
      exact .error s hend
    · rw [Eval.force_of_error hy]
      exact .error s hend

theorem resolve (hlater : ∀ env e, Keeps Machine.Later (run env e)) (j : BindingId) :
    Abreast i (Eval.resolve run j) (Eval.auditedResolve i run' j) := by
  intro b m m' hm
  have hsame : m'.binding j = m.binding j := by
    obtain ⟨_, ⟨rs, rfl, _⟩, _⟩ := hm
    rfl
  unfold Eval.auditedResolve Eval.resolve
  rw [hsame]
  cases hj : m.binding j with
  | undefined x => exact .error _ hm
  | value x v => exact .ok v hm
  | name x e env => simpa [Binding.isShared] using h env e b m m' hm
  | need x memo =>
    cases memo with
    | pending e env => simpa [Binding.isShared] using force h hlater hm hj
    | running e env => exact .error _ hm
    | done v => exact .ok v hm

theorem bindVar (env : Env) (x : String) (e : Expr) :
    Abreast i (Eval.bindVar d run env x e) (Eval.bindVar d run' env x e) := by
  unfold Eval.bindVar
  cases d.strategy with
  | value => exact bind (h env e) fun v => newBinding nofun
  | name => exact newBinding nofun
  | need =>
    refine newBinding fun y memo heq => ?_
    cases heq
    exact ⟨e, env, rfl⟩

theorem bindAll (env : Env) (ds : List (String × Expr)) :
    Abreast i (Eval.bindAll d run env ds) (Eval.bindAll d run' env ds) := by
  induction ds with
  | nil => exact pure _
  | cons p ds ih =>
    refine bind (bindVar h env p.1 p.2) fun j => ?_
    exact bind ih fun later => pure _

theorem evalAll (env : Env) (es : List Expr) :
    Abreast i (Eval.evalAll run env es) (Eval.evalAll run' env es) := by
  induction es with
  | nil => exact pure _
  | cons e es ih =>
    refine bind (h env e) fun v => ?_
    exact bind ih fun later => pure _

theorem apply (env : Env) (v : Value) (as : List Expr) :
    Abreast i (Eval.apply d run env v as) (Eval.apply d run' env v as) := by
  unfold Eval.apply
  split
  · split
    · refine bind (bindAll h env _) fun slots => ?_
      exact bind (newFrame _) fun f => h _ _
    · exact fail _
  · split
    · exact bind (evalAll h env as) fun vs => callPrim _ vs
    · exact fail _
  · exact fail _

theorem fill (f : FrameId) (env : Env) (ds : List (String × Expr)) :
    Abreast i (Eval.fill d run f env ds) (Eval.fill d run' f env ds) := by
  induction ds with
  | nil => exact pure _
  | cons p ds ih =>
    refine bind (bindVar h env p.1 p.2) fun j => ?_
    exact bind (setSlot f p.1 j) fun _ => ih

theorem define (env : Env) (ds : List (String × Expr)) :
    Abreast i (Eval.define d run env ds) (Eval.define d run' env ds) := by
  unfold Eval.define
  split
  · refine bind (reserve ds) fun slots => ?_
    refine bind (newFrame _) fun f => ?_
    exact bind (fill h f _ ds) fun _ => pure _
  · refine bind (bindAll h env ds) fun slots => ?_
    exact bind (newFrame _) fun f => pure _

theorem connect (c : Connective) (env : Env) (l r : Expr) :
    Abreast i (Eval.connect run c env l r) (Eval.connect run' c env l r) := by
  unfold Eval.connect
  refine bind (h env l) fun a => ?_
  refine bind (lift _) fun b => ?_
  split
  · exact pure _
  · refine bind (h env r) fun c => ?_
    exact bind (lift _) fun t => pure _

theorem branch (env : Env) (t c a : Expr) :
    Abreast i (Eval.branch run env t c a) (Eval.branch run' env t c a) := by
  unfold Eval.branch
  refine bind (h env t) fun v => ?_
  split
  · exact h env c
  · exact h env a
  · exact fail _

theorem step (hlater : ∀ env e, Keeps Machine.Later (run env e)) (env : Env) (e : Expr) :
    Abreast i (Eval.step d run env e) (Eval.auditedStep i d run' env e) := by
  cases e with
  | int | bool | null | prim => exact pure _
  | var x => exact bind (lookup env x) fun j => resolve h hlater j
  | unary op a => exact bind (h env a) fun v => lift _
  | binary op l r =>
    simp only [Eval.auditedStep, Eval.step]
    split
    · exact connect h _ env l r
    · refine bind (h env l) fun a => ?_
      exact bind (h env r) fun b => lift _
  | ite t c a => exact branch h env t c a
  | map ps b => exact newClosure ps b env
  | app f as => exact bind (h env f) fun v => apply h env v as
  | letIn ds b => exact bind (define h env ds) fun env' => h env' b
  | datum s j => exact fail _

end Step

end Abreast

/-- **Evaluation is abreast of the one with reports of the binding `i`.** -/
theorem abreast_audited (i : BindingId) (d : Discipline) (n : Nat) (env : Env) (e : Expr) :
    Abreast i (Eval.eval d n env e) (Eval.audited i d n env e) := by
  induction n generalizing env e with
  | zero => exact fun _ _ _ hm => .error _ hm
  | succ n ih => exact Abreast.step ih (eval_later d n) env e

/-- Of the reports that the second computation has more there is one if the binding is newly done,
and none otherwise. -/
theorem Abreast.moreReports {i : BindingId} {α : Type} {x y : Eval α} (h : Abreast i x y)
    (m : Machine) :
    SameBut (fun m₁ m₁' => m₁.MoreReports (m.newlyDone m₁ i) m₁') (x m) (y m) := by
  refine (h _ m m (.refl i m)).mono fun {m₁ m₁'} hm₁ => ?_
  obtain ⟨k, hmore, hk⟩ := hm₁
  have hcount : m.newlyDone m₁ i = k := by
    unfold Machine.newlyDone
    cases hd : m.isDone i <;> cases hd₁ : m₁.isDone i <;> simp [hd, hd₁] at hk ⊢ <;> omega
  rwa [hcount]

/-! ### The protocol -/

/-- **The rules that shared bindings obey** from the machine before a run to the one it leaves. -/
structure Machine.Protocol (m m' : Machine) : Prop where
  /-- The bindings that are being computed are those that were, new ones included. -/
  running : ∀ i, m'.IsRunning i ↔ m.IsRunning i
  /-- A run from a machine in which nothing is being computed leaves such a machine. -/
  idle : (∀ i, ¬ m.IsRunning i) → ∀ i, ¬ m'.IsRunning i
  /-- What is done keeps its value. -/
  done : ∀ i x v, m.binding i = .need x (.done v) → m'.binding i = .need x (.done v)
  /-- What has not begun is as it was, expression and environment included, or done. -/
  pending : ∀ i x e env, m.binding i = .need x (.pending e env) →
    m'.binding i = .need x (.pending e env) ∨ ∃ v, m'.binding i = .need x (.done v)
  /-- A shared binding, old or new, has dropped its expression and environment just when it is
  done. -/
  thunk : ∀ i x memo, m'.binding i = .need x memo →
    ((m'.binding i).thunk? = none ↔ ∃ v, m'.binding i = .need x (.done v))

theorem Machine.Later.protocol {m m' : Machine} (h : m.Later m') : m.Protocol m' where
  running := h.isRunning_iff
  idle hidle i hi := hidle i ((h.isRunning_iff i).mp hi)
  done i x v hi := by
    have hold := h.old i (lt_size_of_need hi)
    rw [hi] at hold
    generalize m'.binding i = b at hold
    cases hold
    rfl
  pending i x e env hi := by
    have hold := h.old i (lt_size_of_need hi)
    rw [hi] at hold
    generalize m'.binding i = b at hold
    cases hold with
    | same => exact .inl rfl
    | done x e env v => exact .inr ⟨v, rfl⟩
  thunk i x memo hi := by
    rw [hi]
    cases memo with
    | pending e env => exact ⟨fun ht => (nomatch ht), fun ⟨v, hv⟩ => (nomatch hv)⟩
    | running e env => exact ⟨fun ht => (nomatch ht), fun ⟨v, hv⟩ => (nomatch hv)⟩
    | done v => exact ⟨fun _ => ⟨v, rfl⟩, fun _ => rfl⟩

/-- **The protocol of shared bindings.** Every evaluation and every resolution of a binding, under
any strategy and however it ends, obeys the rules; and no shared binding is computed to its end
twice: with one more report for every evaluation of its expression that comes to its end, the run is
the same but for one report if it leaves the binding done and did not find it so, and the very same
otherwise. -/
theorem shared_bindings_protocol (d : Discipline) (n : Nat) (m : Machine) :
    (∀ env e, m.Protocol (Eval.leaves (Eval.eval d n env e) m)) ∧
    (∀ i, m.Protocol (Eval.leaves (Eval.resolve (Eval.eval d n) i) m)) ∧
    (∀ i env e, SameBut (fun m₁ m₁' => m₁.MoreReports (m.newlyDone m₁ i) m₁')
      (Eval.eval d n env e m) (Eval.audited i d n env e m)) ∧
    ∀ i j, SameBut (fun m₁ m₁' => m₁.MoreReports (m.newlyDone m₁ i) m₁')
      (Eval.resolve (Eval.eval d n) j m) (Eval.auditedResolve i (Eval.audited i d n) j m) := by
  refine ⟨fun env e => ?_, fun i => ?_, fun i env e => ?_, fun i j => ?_⟩
  · exact (eval_later d n env e m).protocol
  · exact (Keeps.resolve_later (eval_later d n) i m).protocol
  · exact (abreast_audited i d n env e).moreReports m
  · exact (Abreast.resolve (abreast_audited i d n) (eval_later d n) j).moreReports m

end CallBy
