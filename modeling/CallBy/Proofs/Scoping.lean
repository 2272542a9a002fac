import CallBy.Proofs.Simulation

/-!
Static scoping.

`Expr.free` are the variables that an expression uses and does not bind. A machine is `Scoped` if
every closure body and every pending expression in it has its free variables bound in the
environment it is held with, and if no slot points to a placeholder; in call by value with recursive
definitions slots may, since definitions are evaluated while the frame is being filled.

* `Machine.Wider`: machines only come to bind more, so what is in scope stays in scope;
* `Safe`: a computation keeps the machine scoped and meets no unbound variable;
* `closed_in_scope`: a closed expression never meets an unbound variable, under any strategy.
-/

namespace CallBy

namespace Expr

mutual

/-- The free variables of an expression. The variables of a `let` are bound in its body and, if
definitions are recursive, in the definitions. -/
def free (recursiveLet : Bool) : Expr → List String
  | .var x => [x]
  | .unary _ a => a.free recursiveLet
  | .binary _ l r => l.free recursiveLet ++ r.free recursiveLet
  | .ite t c a => t.free recursiveLet ++ (c.free recursiveLet ++ a.free recursiveLet)
  | .map ps b => (b.free recursiveLet).filter (· ∉ ps)
  | .app f as => f.free recursiveLet ++ freeArgs recursiveLet as
  | .letIn ds b =>
    if recursiveLet then (freeDefs recursiveLet ds ++ b.free recursiveLet).filter (· ∉ ds.map (·.1))
    else freeDefs recursiveLet ds ++ (b.free recursiveLet).filter (· ∉ ds.map (·.1))
  | .int _ | .bool _ | .null | .prim _ | .datum _ _ => []

/-- The free variables of arguments. -/
def freeArgs (recursiveLet : Bool) : List Expr → List String
  | [] => []
  | a :: as => a.free recursiveLet ++ freeArgs recursiveLet as

/-- The free variables of defining expressions. -/
def freeDefs (recursiveLet : Bool) : List (String × Expr) → List String
  | [] => []
  | (_, e) :: ds => e.free recursiveLet ++ freeDefs recursiveLet ds

end

/-- The expression has no free variables. -/
def Closed (recursiveLet : Bool) (e : Expr) : Prop := e.free recursiveLet = []

instance (recursiveLet : Bool) : DecidablePred (Closed recursiveLet) :=
  fun e => inferInstanceAs (Decidable (e.free recursiveLet = []))

theorem mem_freeArgs {r : Bool} {as : List Expr} {a : Expr} (ha : a ∈ as) {x : String}
    (hx : x ∈ a.free r) : x ∈ freeArgs r as := by
  induction as with
  | nil => cases ha
  | cons b as ih =>
    rw [freeArgs, List.mem_append]
    rcases List.mem_cons.mp ha with rfl | ha
    · exact .inl hx
    · exact .inr (ih ha)

theorem mem_freeDefs {r : Bool} {ds : List (String × Expr)} {p : String × Expr} (hp : p ∈ ds)
    {x : String} (hx : x ∈ p.2.free r) : x ∈ freeDefs r ds := by
  induction ds with
  | nil => cases hp
  | cons q ds ih =>
    rw [freeDefs, List.mem_append]
    rcases List.mem_cons.mp hp with rfl | hp
    · exact .inl hx
    · exact .inr (ih hp)

end Expr

/-! ### What is in scope -/

namespace Machine

/-- The environment binds the variable. -/
def Binds (m : Machine) (env : Env) (x : String) : Prop := (m.lookup? env x).isSome = true

theorem binds_cons (m : Machine) (f : FrameId) (env : Env) (x : String) :
    m.Binds (f :: env) x ↔ ((m.frame f).get? x).isSome = true ∨ m.Binds env x := by
  unfold Binds lookup?
  rw [List.findSome?_cons]
  cases (m.frame f).get? x <;> simp

/-- The environment binds the free variables of the expression. -/
def Covers (r : Bool) (m : Machine) (env : Env) (e : Expr) : Prop := ∀ x ∈ e.free r, m.Binds env x

/-- The second machine binds what the first one binds, and has no new placeholders for it. -/
structure Wider (m m' : Machine) : Prop where
  frames : m.frames.size ≤ m'.frames.size
  bindings : m.bindings.size ≤ m'.bindings.size
  slots : ∀ f x, ((m.frame f).get? x).isSome = true → ((m'.frame f).get? x).isSome = true
  defined : ∀ i y, m'.binding i = .undefined y → ∃ z, m.binding i = .undefined z

theorem Wider.refl (m : Machine) : m.Wider m :=
  ⟨Nat.le_refl _, Nat.le_refl _, fun _ _ h => h, fun _ y h => ⟨y, h⟩⟩

theorem Wider.trans {m m' m'' : Machine} (h : m.Wider m') (h' : m'.Wider m'') : m.Wider m'' := by
  refine ⟨Nat.le_trans h.frames h'.frames, Nat.le_trans h.bindings h'.bindings,
    fun f x hx => h'.slots f x (h.slots f x hx), fun i y hy => ?_⟩
  obtain ⟨z, hz⟩ := h'.defined i y hy
  exact h.defined i z hz

theorem Wider.binds {m m' : Machine} (h : m.Wider m') {env : Env} {x : String}
    (hx : m.Binds env x) : m'.Binds env x := by
  induction env with
  | nil => exact hx
  | cons f env ih =>
    rw [binds_cons] at hx ⊢
    exact hx.imp (h.slots f x) ih

theorem Wider.covers {m m' : Machine} (h : m.Wider m') {r : Bool} {env : Env} {e : Expr}
    (he : m.Covers r env e) : m'.Covers r env e := fun x hx => h.binds (he x hx)

end Machine

/-- The bodies of the closures in the value have their free variables bound, by parameters or by the
environment of the closure. -/
def Value.Scoped (r : Bool) (m : Machine) : Value → Prop
  | .cons a b => a.Scoped r m ∧ b.Scoped r m
  | .closure _ ps b env => ∀ x ∈ b.free r, x ∉ ps → m.Binds env x
  | _ => True

/-- What the binding holds has its free variables bound. -/
def Binding.Scoped (r : Bool) (m : Machine) : Binding → Prop
  | .value _ v | .need _ (.done v) => v.Scoped r m
  | .name _ e env | .need _ (.pending e env) | .need _ (.running e env) => m.Covers r env e
  | .undefined _ => True

theorem Machine.Wider.value {m m' : Machine} (h : m.Wider m') {r : Bool} {v : Value}
    (hv : v.Scoped r m) : v.Scoped r m' := by
  induction v with
  | cons a b iha ihb => exact ⟨iha hv.1, ihb hv.2⟩
  | closure i ps b env => exact fun x hx hps => h.binds (hv x hx hps)
  | _ => exact hv

theorem Machine.Wider.content {m m' : Machine} (h : m.Wider m') {r : Bool} {b : Binding}
    (hb : b.Scoped r m) : b.Scoped r m' := by
  cases b with
  | undefined x => exact hb
  | value x v => exact h.value hb
  | name x e env => exact h.covers hb
  | need x memo =>
    cases memo with
    | pending e env => exact h.covers hb
    | running e env => exact h.covers hb
    | done v => exact h.value hb

/-- Definitions are evaluated while slots of their frame are still placeholders. -/
def Discipline.SeesPlaceholders (d : Discipline) : Prop :=
  d.strategy = .value ∧ d.recursiveLet = true

/-! ### Scoped machines -/

namespace Machine

/-- Everything in the machine has its free variables bound, and no slot is a placeholder, with
nothing said of the slots of some frames. -/
structure ScopedBut (but : FrameId → Prop) (d : Discipline) (m : Machine) : Prop where
  contents : ∀ i, (m.binding i).Scoped d.recursiveLet m
  slots : ¬ d.SeesPlaceholders → ∀ f x i y, ¬ but f → (m.frame f).get? x = some i →
    m.binding i ≠ .undefined y

/-- **Everything in the machine has its free variables bound, and no slot is a placeholder.** -/
abbrev Scoped (d : Discipline) (m : Machine) : Prop := ScopedBut (fun _ => False) d m

variable {but : FrameId → Prop} {d : Discipline} {m : Machine}

theorem ScopedBut.addBinding (hm : ScopedBut but d m) {b : Binding}
    (hb : b.Scoped d.recursiveLet m) :
    m.Wider (m.addBinding b) ∧ ScopedBut but d (m.addBinding b) := by
  have hsize : m.binding m.bindings.size = .undefined "" := by simp [binding]
  have hw : m.Wider (m.addBinding b) := by
    refine ⟨Nat.le_refl _, by simp, fun f x hx => hx, fun i y hy => ?_⟩
    rw [binding_addBinding] at hy
    split at hy
    · next hi => exact ⟨"", by rw [hi, hsize]⟩
    · exact ⟨y, hy⟩
  refine ⟨hw, fun i => hw.content ?_, fun hd f x i y hbut hget hy => ?_⟩
  · rw [binding_addBinding]
    split
    · exact hb
    · exact hm.contents i
  · obtain ⟨z, hz⟩ := hw.defined i y hy
    exact hm.slots hd f x i z hbut hget hz

theorem ScopedBut.addFrame (hm : ScopedBut but d m) {F : Frame}
    (hF : ¬ d.SeesPlaceholders → ¬ but m.frames.size → ∀ x i y, F.get? x = some i →
      m.binding i ≠ .undefined y) :
    m.Wider (m.addFrame F) ∧ ScopedBut but d (m.addFrame F) := by
  have hw : m.Wider (m.addFrame F) := by
    refine ⟨by simp, Nat.le_refl _, fun f x hx => ?_, fun i y hy => ⟨y, hy⟩⟩
    by_cases hf : f < m.frames.size
    · rw [frame_addFrame_of_lt m F hf]
      exact hx
    · simp [frame, Array.getElem?_eq_none (Nat.le_of_not_lt hf)] at hx
  refine ⟨hw, fun i => hw.content (hm.contents i), fun hd f x i y hbut hget hy => ?_⟩
  rw [frame_addFrame] at hget
  split at hget
  · next hf => exact hF hd (hf ▸ hbut) x i y hget hy
  · exact hm.slots hd f x i y hbut hget hy

/-- A slot of a frame may be pointed to a binding that is no placeholder. -/
theorem ScopedBut.setSlot (hm : ScopedBut but d m) {f : FrameId} {x : String} {i : BindingId}
    (hf : f < m.frames.size)
    (hi : ¬ d.SeesPlaceholders → ¬ but f → ∀ y, m.binding i ≠ .undefined y) :
    m.Wider (m.setSlot f x i) ∧ ScopedBut but d (m.setSlot f x i) := by
  have hw : m.Wider (m.setSlot f x i) := by
    refine ⟨by simp, Nat.le_refl _, fun g z hz => ?_, fun i y hy => ⟨y, hy⟩⟩
    rw [frame_setSlot m hf]
    split
    · next hg =>
      subst hg
      rw [Frame.get?_set]
      split
      · rfl
      · exact hz
    · exact hz
  refine ⟨hw, fun j => hw.content (hm.contents j), fun hd g z j y hbut hget hy => ?_⟩
  rw [frame_setSlot m hf] at hget
  split at hget
  · next hg =>
    subst hg
    rw [Frame.get?_set] at hget
    split at hget
    · cases hget
      exact hi hd hbut y hy
    · exact hm.slots hd f z j y hbut hget hy
  · exact hm.slots hd g z j y hbut hget hy

/-- A binding may be replaced by one that is no placeholder. -/
theorem ScopedBut.setBinding (hm : ScopedBut but d m) {i : BindingId} {b : Binding}
    (hi : i < m.bindings.size) (hb : b.Scoped d.recursiveLet m) (hdef : ∀ y, b ≠ .undefined y) :
    m.Wider (m.setBinding i b) ∧ ScopedBut but d (m.setBinding i b) := by
  have hw : m.Wider (m.setBinding i b) := by
    refine ⟨Nat.le_refl _, by simp, fun f x hx => hx, fun j y hy => ?_⟩
    rw [binding_setBinding m b hi] at hy
    split at hy
    · exact absurd hy (hdef y)
    · exact ⟨y, hy⟩
  refine ⟨hw, fun j => hw.content ?_, fun hd f x j y hbut hget hy => ?_⟩
  · rw [binding_setBinding m b hi]
    split
    · exact hb
    · exact hm.contents j
  · obtain ⟨z, hz⟩ := hw.defined j y hy
    exact hm.slots hd f x j z hbut hget hz

/-- Only frames and bindings matter. -/
theorem ScopedBut.congr (hm : ScopedBut but d m) (m' : Machine) (hf : m'.frames = m.frames)
    (hb : m'.bindings = m.bindings) : m.Wider m' ∧ ScopedBut but d m' := by
  have hframe : ∀ f, m'.frame f = m.frame f := fun f => by simp only [frame, hf]
  have hbind : ∀ i, m'.binding i = m.binding i := fun i => by simp only [binding, hb]
  have hw : m.Wider m' := by
    refine ⟨by simp [hf], by simp [hb], fun f x hx => ?_, fun i y hy => ⟨y, ?_⟩⟩
    · rw [hframe]
      exact hx
    · rw [← hbind]
      exact hy
  refine ⟨hw, fun i => ?_, fun hd f x i y hbut hget => ?_⟩
  · rw [hbind]
    exact hw.content (hm.contents i)
  · rw [hframe] at hget
    rw [hbind]
    exact hm.slots hd f x i y hbut hget

end Machine

/-! ### Safe computations -/

/-- The error is none of an unbound variable, or of a placeholder where they can be seen. -/
def Discipline.Tolerates (d : Discipline) (e : EvalError) : Prop :=
  e.kind = .unboundVariable → d.SeesPlaceholders ∧ ∃ x, e = .undefined x

/-- From this machine, if it is scoped, the computation comes to a result as asked for and keeps the
machine scoped, or fails with a tolerable error. -/
def Safe (d : Discipline) (m : Machine) {α : Type} (P : Machine → α → Prop) (x : Eval α) : Prop :=
  m.Scoped d →
    (∀ a m', x m = .ok a m' → m.Wider m' ∧ m'.Scoped d ∧ P m' a) ∧
    ∀ e m', x m = .error (.error e) m' → d.Tolerates e

/-- The result of an operation is as asked for, or its error is none of an unbound variable. -/
def InScope {α : Type} (P : α → Prop) : Except EvalError α → Prop
  | .ok a => P a
  | .error e => e.kind ≠ .unboundVariable

theorem InScope.bind {α β : Type} {P : α → Prop} {Q : β → Prop} {x : Except EvalError α}
    {f : α → Except EvalError β} (h : InScope P x) (hf : ∀ a, P a → InScope Q (f a)) :
    InScope Q (x >>= f) := by
  cases x with
  | ok a => exact hf a h
  | error e => exact h

section Operations

variable {r : Bool} {m : Machine}

theorem inScope_asInt (op : String) (v : Value) : InScope (fun _ => True) (v.asInt op) := by
  cases v <;> first | exact trivial | exact nofun

theorem inScope_asBool (op : String) (v : Value) : InScope (fun _ => True) (v.asBool op) := by
  cases v <;> first | exact trivial | exact nofun

theorem inScope_applyUnary (op : String) (v : Value) :
    InScope (Value.Scoped r m) (applyUnary op v) := by
  unfold applyUnary
  cases UnaryOp.ofSymbol? op with
  | none => exact nofun
  | some op =>
    cases op with
    | plus => exact (inScope_asInt _ v).bind fun _ _ => trivial
    | minus => exact (inScope_asInt _ v).bind fun _ _ => trivial
    | not => exact (inScope_asBool _ v).bind fun _ _ => trivial

theorem inScope_onInts (op : BinaryOp) (a b : Value) {f : Int → Int → Except EvalError Value}
    (hf : ∀ i j, InScope (Value.Scoped r m) (f i j)) :
    InScope (Value.Scoped r m) (op.onInts a b f) := by
  refine (inScope_asInt _ a).bind fun i _ => ?_
  exact (inScope_asInt _ b).bind fun j _ => hf i j

theorem inScope_applyBinary (op : String) (a b : Value) :
    InScope (Value.Scoped r m) (applyBinary op a b) := by
  unfold applyBinary
  cases BinaryOp.ofSymbol? op with
  | none => exact nofun
  | some op =>
    cases op with
    | eq | ne => exact trivial
    | div =>
      refine inScope_onInts .div a b fun i j => ?_
      split
      · exact nofun
      · exact trivial
    | _ => exact inScope_onInts _ a b fun i j => trivial

/-- What a primitive gives is made of what it is given. -/
theorem inScope_call (p : Prim) {vs : List Value} (hvs : ∀ v ∈ vs, v.Scoped r m) :
    InScope (Value.Scoped r m) (p.call vs) := by
  unfold Prim.call
  split
  case h_9 a b =>
    split
    · exact ⟨hvs a (by simp), hvs b (by simp)⟩
    · exact nofun
  case h_10 a b => exact (hvs (.cons a b) (by simp)).1
  case h_12 a b => exact (hvs (.cons a b) (by simp)).2
  case h_14 v => exact hvs v (by simp)
  all_goals first | exact trivial | exact nofun

end Operations

namespace Safe

variable {d : Discipline} {m : Machine} {α β : Type} {P : Machine → α → Prop}
  {Q : Machine → β → Prop}

theorem bind {x : Eval α} {f : α → Eval β} (h : Safe d m P x)
    (hf : ∀ m' a, m.Wider m' → P m' a → Safe d m' Q (f a)) : Safe d m Q (x >>= f) := by
  intro hm
  obtain ⟨hok, herr⟩ := h hm
  cases hx : x m with
  | ok a m₁ =>
    obtain ⟨hw, hm₁, ha⟩ := hok a m₁ hx
    obtain ⟨hok₁, herr₁⟩ := hf m₁ a hw ha hm₁
    rw [Eval.bind_of_ok hx]
    refine ⟨fun b m' hb => ?_, herr₁⟩
    obtain ⟨hw', hm', hQ⟩ := hok₁ b m' hb
    exact ⟨hw.trans hw', hm', hQ⟩
  | error s m₁ =>
    rw [Eval.bind_of_error hx]
    refine ⟨fun b m' hb => (nomatch hb), fun e m' he => ?_⟩
    cases he
    exact herr e m₁ hx

/-- A computation that comes to one result, whatever the machine. -/
theorem of_ok {x : Eval α} {a : α} {m' : Machine} (hx : x m = .ok a m')
    (h : m.Scoped d → m.Wider m' ∧ m'.Scoped d ∧ P m' a) : Safe d m P x := by
  intro hm
  rw [hx]
  refine ⟨fun a₁ m₁ h₁ => ?_, fun e m₁ h₁ => (nomatch h₁)⟩
  cases h₁
  exact h hm

theorem ret {a : α} (h : P m a) : Safe d m P (pure a) :=
  of_ok rfl fun hm => ⟨.refl m, hm, h⟩

theorem fail {e : EvalError} (h : d.Tolerates e) : Safe d m P (Eval.fail e) := by
  refine fun hm => ⟨fun a m' h' => (nomatch h'), fun e' m' h' => ?_⟩
  cases h'
  exact h

theorem lift {r : Except EvalError α} (h : InScope (P m) r) : Safe d m P (Eval.lift r) := by
  cases r with
  | ok a => exact ret h
  | error e => exact fail fun hk => absurd hk h

theorem newBinding {b : Binding} (hb : b.Scoped d.recursiveLet m) (hdef : ∀ y, b ≠ .undefined y) :
    Safe d m (fun m' i => ∀ y, m'.binding i ≠ .undefined y) (Eval.newBinding b) := by
  refine of_ok rfl fun hm => ?_
  obtain ⟨hw, hm'⟩ := hm.addBinding hb
  refine ⟨hw, hm', fun y => ?_⟩
  rw [Machine.binding_addBinding, if_pos rfl]
  exact hdef y

theorem callPrim (p : Prim) {vs : List Value} (hvs : ∀ v ∈ vs, v.Scoped d.recursiveLet m) :
    Safe d m (fun m' v => v.Scoped d.recursiveLet m') (Eval.callPrim p vs) := by
  by_cases ht : ∃ v, p = .tick ∧ vs = [v]
  · obtain ⟨v, rfl, rfl⟩ := ht
    refine of_ok rfl fun hm => ?_
    obtain ⟨hw, hm'⟩ := hm.congr (m.report v) rfl rfl
    exact ⟨hw, hm', hw.value (hvs v (by simp))⟩
  · rw [Eval.callPrim_eq_lift fun v hv => ht ⟨v, hv⟩]
    exact lift (P := fun m' (v : Value) => v.Scoped d.recursiveLet m') (inScope_call p hvs)

/-! ### Frames -/

/-- The slots have the variables of the definitions and point to no placeholders. -/
def Named (slots : List (String × BindingId)) (ds : List (String × Expr)) (m : Machine) : Prop :=
  slots.map (·.1) = ds.map (·.1) ∧ ∀ s ∈ slots, ∀ y, m.binding s.2 ≠ .undefined y

theorem isSome_get?_ofSlots {slots : List (String × BindingId)} {ds : List (String × Expr)}
    (h : slots.map (·.1) = ds.map (·.1)) {x : String} (hx : x ∈ ds.map (·.1)) :
    ((Frame.ofSlots slots).get? x).isSome = true := by
  rw [get?_ofSlots, Option.isSome_iff_ne_none]
  intro hnone
  rw [← h] at hx
  clear h
  induction slots with
  | nil => cases hx
  | cons s slots ih =>
    rw [lastOf?, Option.or_eq_none_iff] at hnone
    rw [List.map_cons, List.mem_cons] at hx
    rcases hx with rfl | hx
    · simp at hnone
    · exact ih hx hnone.1

/-- A frame in front of an environment binds the variables of its slots and those of the
environment. -/
theorem binds_addFrame {slots : List (String × BindingId)} {ds : List (String × Expr)} {env : Env}
    (h : slots.map (·.1) = ds.map (·.1)) (hw : m.Wider (m.addFrame (Frame.ofSlots slots)))
    {x : String} (hx : x ∈ ds.map (·.1) ∨ m.Binds env x) :
    (m.addFrame (Frame.ofSlots slots)).Binds (m.frames.size :: env) x := by
  rw [Machine.binds_cons]
  rcases hx with hx | hx
  · rw [Machine.frame_addFrame, if_pos rfl]
    exact .inl (isSome_get?_ofSlots h hx)
  · exact .inr (hw.binds hx)

/-- A new frame whose slots are placeholders only if these can be seen. -/
theorem newFrame (env : Env) {slots : List (String × BindingId)} {ds : List (String × Expr)}
    (hnames : slots.map (·.1) = ds.map (·.1))
    (hslots : ¬ d.SeesPlaceholders → ∀ s ∈ slots, ∀ y, m.binding s.2 ≠ .undefined y) :
    Safe d m (fun m' f => f < m'.frames.size ∧
        ∀ x, x ∈ ds.map (·.1) ∨ m.Binds env x → m'.Binds (f :: env) x)
      (Eval.newFrame (Frame.ofSlots slots)) := by
  refine of_ok rfl fun hm => ?_
  obtain ⟨hw, hm'⟩ := hm.addFrame (F := Frame.ofSlots slots) fun hd _ x i y hget => by
    rw [get?_ofSlots] at hget
    exact hslots hd _ (mem_of_lastOf? hget) y
  exact ⟨hw, hm', by simp, fun x hx => binds_addFrame hnames hw hx⟩

section Step

variable {run : Env → Expr → Eval Value}
  (hrun : ∀ {m : Machine} {env : Env} {e : Expr}, m.Covers d.recursiveLet env e →
    Safe d m (fun m' v => v.Scoped d.recursiveLet m') (run env e))

include hrun

theorem force {i : BindingId} {x : String} {e : Expr} {env : Env} (hi : i < m.bindings.size)
    (he : m.Covers d.recursiveLet env e) :
    Safe d m (fun m' v => v.Scoped d.recursiveLet m') (Eval.force run i x e env) := by
  intro hm
  obtain ⟨hw, hm₁⟩ := hm.setBinding (b := .need x (.running e env)) hi he nofun
  obtain ⟨hok, herr⟩ := hrun (hw.covers he) hm₁
  cases hx : run env e (m.setBinding i (.need x (.running e env))) with
  | ok v m₂ =>
    obtain ⟨hw₂, hm₂, hv⟩ := hok v m₂ hx
    rw [Eval.force_of_ok hx]
    refine ⟨fun a m' h' => ?_, fun e m' h' => (nomatch h')⟩
    cases h'
    have hlt : i < m₂.bindings.size := Nat.lt_of_lt_of_le hi (hw.trans hw₂).bindings
    obtain ⟨hw₃, hm₃⟩ := hm₂.setBinding (b := .need x (.done v)) hlt hv nofun
    exact ⟨(hw.trans hw₂).trans hw₃, hm₃, hw₃.value hv⟩
  | error s m₂ =>
    rw [Eval.force_of_error hx]
    refine ⟨fun a m' h' => (nomatch h'), fun e' m' h' => ?_⟩
    cases h'
    exact herr e' m₂ hx

/-- A variable that is in scope is bound, and to no placeholder unless they can be seen. -/
theorem var {env : Env} {x : String} (hx : m.Binds env x) :
    Safe d m (fun m' v => v.Scoped d.recursiveLet m')
      (Eval.lookup env x >>= Eval.resolve run) := by
  intro hm
  obtain ⟨i, hi⟩ := Option.isSome_iff_exists.mp hx
  obtain ⟨f, -, hf⟩ := List.exists_of_findSome?_eq_some hi
  have hcontent := hm.contents i
  rw [Eval.lookup_bind_of_some hi]
  unfold Eval.resolve
  have given : ∀ {v : Value}, v.Scoped d.recursiveLet m →
      Safe d m (fun m' v => v.Scoped d.recursiveLet m') (fun m => .ok v m) :=
    fun hv => of_ok rfl fun hm => ⟨.refl m, hm, hv⟩
  cases hb : m.binding i with
  | undefined y =>
    refine fail (fun _ => ⟨?_, y, rfl⟩) hm
    by_contra hd
    exact hm.slots hd f x i y (fun h => h) hf hb
  | value y v =>
    rw [hb] at hcontent
    exact given hcontent hm
  | name y e env' =>
    rw [hb] at hcontent
    exact hrun hcontent hm
  | need y memo =>
    rw [hb] at hcontent
    cases memo with
    | pending e env' => exact force hrun (Machine.lt_size_of_need hb) hcontent hm
    | running e env' => exact fail (d := d) nofun hm
    | done v => exact given hcontent hm

theorem bindVar {env : Env} {x : String} {e : Expr} (he : m.Covers d.recursiveLet env e) :
    Safe d m (fun m' i => ∀ y, m'.binding i ≠ .undefined y) (Eval.bindVar d run env x e) := by
  unfold Eval.bindVar
  cases d.strategy with
  | value => exact bind (hrun he) fun m' v _ hv => newBinding hv nofun
  | name => exact newBinding he nofun
  | need => exact newBinding he nofun

theorem bindAll {env : Env} {ds : List (String × Expr)}
    (hds : ∀ p ∈ ds, m.Covers d.recursiveLet env p.2) :
    Safe d m (fun m' slots => Named slots ds m') (Eval.bindAll d run env ds) := by
  induction ds generalizing m with
  | nil => exact ret ⟨rfl, nofun⟩
  | cons p ds ih =>
    obtain ⟨hp, hds⟩ := List.forall_mem_cons.mp hds
    refine bind (bindVar hrun hp) fun m₁ i hw₁ hi => ?_
    refine bind (ih fun q hq => hw₁.covers (hds q hq)) fun m₂ slots hw₂ hslots => ?_
    refine ret ⟨by simp [hslots.1], fun s hs y hy => ?_⟩
    rcases List.mem_cons.mp hs with rfl | hs
    · obtain ⟨z, hz⟩ := hw₂.defined i y hy
      exact hi z hz
    · exact hslots.2 s hs y hy

theorem evalAll {env : Env} {es : List Expr} (hes : ∀ e ∈ es, m.Covers d.recursiveLet env e) :
    Safe d m (fun m' vs => ∀ v ∈ vs, v.Scoped d.recursiveLet m') (Eval.evalAll run env es) := by
  induction es generalizing m with
  | nil => exact ret nofun
  | cons e es ih =>
    obtain ⟨he, hes⟩ := List.forall_mem_cons.mp hes
    refine bind (hrun he) fun m₁ v hw₁ hv => ?_
    refine bind (ih fun e he => hw₁.covers (hes e he)) fun m₂ vs hw₂ hvs => ?_
    exact ret (List.forall_mem_cons.mpr ⟨hw₂.value hv, hvs⟩)

theorem apply {env : Env} {v : Value} {as : List Expr} (hv : v.Scoped d.recursiveLet m)
    (has : ∀ a ∈ as, m.Covers d.recursiveLet env a) :
    Safe d m (fun m' v => v.Scoped d.recursiveLet m') (Eval.apply d run env v as) := by
  unfold Eval.apply
  split
  · next i ps b captured =>
    split
    · next hlen =>
      have hds : ∀ p ∈ ps.zip as, m.Covers d.recursiveLet env p.2 :=
        fun p hp => has p.2 (List.of_mem_zip hp).2
      refine bind (bindAll hrun hds) fun m₁ slots hw₁ hslots => ?_
      refine bind (newFrame captured hslots.1 fun _ => hslots.2) fun m₂ f hw₂ hf =>
        hrun fun x hx => hf.2 x ?_
      -- a free variable of the body is a parameter or bound by the captured environment
      rw [List.map_fst_zip (Nat.le_of_eq hlen.symm)]
      by_cases hps : x ∈ ps
      · exact .inl hps
      · exact .inr (hw₁.binds (hv x hx hps))
    · exact fail nofun
  · split
    · refine bind (evalAll hrun has) fun m₁ vs _ hvs => ?_
      exact callPrim _ hvs
    · exact fail nofun
  · exact fail nofun

/-! ### Definitions -/

/-- Filling a frame of a machine that is scoped already. -/
theorem fill {f : FrameId} {env : Env} {ds : List (String × Expr)} (hf : f < m.frames.size)
    (hds : ∀ p ∈ ds, m.Covers d.recursiveLet env p.2) :
    Safe d m (fun _ _ => True) (Eval.fill d run f env ds) := by
  induction ds generalizing m with
  | nil => exact ret trivial
  | cons p ds ih =>
    obtain ⟨hp, hds⟩ := List.forall_mem_cons.mp hds
    refine bind (bindVar hrun hp) fun m₁ i hw₁ hi => ?_
    have hf₁ := Nat.lt_of_lt_of_le hf hw₁.frames
    have hset : Safe d m₁ (fun _ _ => True) (Eval.setSlot f p.1 i) := by
      refine of_ok rfl fun hm₁ => ?_
      obtain ⟨hw, hm⟩ := hm₁.setSlot (x := p.1) hf₁ fun _ _ y => hi y
      exact ⟨hw, hm, trivial⟩
    refine bind hset fun m₂ _ hw₂ _ => ih (Nat.lt_of_lt_of_le hf₁ hw₂.frames) fun q hq => ?_
    exact (hw₁.trans hw₂).covers (hds q hq)

end Step

/-- Reserving adds placeholders for the variables and nothing else. -/
theorem reserve {but : FrameId → Prop} (ds : List (String × Expr)) (hm : m.ScopedBut but d) :
    ∃ slots m', Eval.reserve ds m = .ok slots m' ∧ m.Wider m' ∧ m'.ScopedBut but d ∧
      m'.frames = m.frames ∧ slots.map (·.1) = ds.map (·.1) := by
  induction ds generalizing m with
  | nil => exact ⟨[], m, rfl, .refl m, hm, rfl, rfl⟩
  | cons p ds ih =>
    obtain ⟨hw₁, hm₁⟩ := hm.addBinding (b := .undefined p.1) trivial
    obtain ⟨slots, m', hrun, hw, hm', hframes, hnames⟩ := ih hm₁
    refine ⟨(p.1, m.bindings.size) :: slots, m', ?_, hw₁.trans hw, hm', hframes, by simp [hnames]⟩
    have hnew : Eval.newBinding (.undefined p.1) m =
        .ok m.bindings.size (m.addBinding (.undefined p.1)) := rfl
    rw [Eval.reserve, Eval.bind_of_ok hnew, Eval.bind_of_ok hrun]
    rfl

/-- Binding a variable lazily adds a binding that holds the expression. -/
theorem bindVar_thunk (run : Env → Expr → Eval Value) (hd : d.strategy ≠ .value) (env : Env)
    (x : String) (e : Expr) :
    ∃ b, (∀ m, Eval.bindVar d run env x e m = .ok m.bindings.size (m.addBinding b)) ∧
      (∀ y, b ≠ .undefined y) ∧ ∀ {r : Bool} {m : Machine}, m.Covers r env e → b.Scoped r m := by
  unfold Eval.bindVar
  cases hs : d.strategy with
  | value => exact absurd hs hd
  | name => exact ⟨.name x e env, fun _ => rfl, nofun, fun he => he⟩
  | need => exact ⟨.need x (.pending e env), fun _ => rfl, nofun, fun he => he⟩

/-- Filling a frame lazily replaces the placeholders of the definitions. -/
theorem fill_lazy (run : Env → Expr → Eval Value) (hd : d.strategy ≠ .value) {f : FrameId}
    (env : Env) {ds : List (String × Expr)} (hm : m.ScopedBut (· = f) d) (hf : f < m.frames.size)
    (hds : ∀ p ∈ ds, m.Covers d.recursiveLet env p.2) :
    ∃ m', Eval.fill d run f env ds m = .ok () m' ∧ m.Wider m' ∧ m'.ScopedBut (· = f) d ∧
      ∀ x i, (m'.frame f).get? x = some i → (∀ y, m'.binding i ≠ .undefined y) ∨
        ((m.frame f).get? x = some i ∧ x ∉ ds.map (·.1)) := by
  induction ds generalizing m with
  | nil => exact ⟨m, rfl, .refl m, hm, fun x i hi => .inr ⟨hi, nofun⟩⟩
  | cons p ds ih =>
    obtain ⟨hp, hds⟩ := List.forall_mem_cons.mp hds
    obtain ⟨b, hrun, hdef, hb⟩ := bindVar_thunk run hd env p.1 p.2
    obtain ⟨hw₁, hm₁⟩ := hm.addBinding (hb hp)
    obtain ⟨hw₂, hm₂⟩ := hm₁.setSlot (x := p.1) (i := m.bindings.size) hf fun _ h => absurd rfl h
    have hw := hw₁.trans hw₂
    obtain ⟨m', hrest, hw', hm', hslots⟩ :=
      ih hm₂ (Nat.lt_of_lt_of_le hf hw.frames) fun q hq => hw.covers (hds q hq)
    refine ⟨m', ?_, hw.trans hw', hm', fun x i hi => ?_⟩
    · have hset : Eval.setSlot f p.1 m.bindings.size (m.addBinding b) =
          .ok () ((m.addBinding b).setSlot f p.1 m.bindings.size) := rfl
      rw [Eval.fill, Eval.bind_of_ok (hrun m), Eval.bind_of_ok hset]
      exact hrest
    · rcases hslots x i hi with hi' | ⟨hold, hnot⟩
      · exact .inl hi'
      -- the slot is the one just written, or one of a variable that is not defined here
      · have hf₁ : f < (m.addBinding b).frames.size := hf
        rw [Machine.frame_setSlot _ hf₁, if_pos rfl, Frame.get?_set] at hold
        split at hold
        · cases hold
          refine .inl fun y hy => ?_
          obtain ⟨z, hz⟩ := hw'.defined _ y hy
          have hbind : (m.addBinding b).binding m.bindings.size = .undefined z := hz
          rw [Machine.binding_addBinding, if_pos rfl] at hbind
          exact hdef z hbind
        · next hne =>
          refine .inr ⟨hold, ?_⟩
          simp only [List.map_cons, List.mem_cons, not_or]
          exact ⟨Ne.symm hne, hnot⟩

section Define

variable {run : Env → Expr → Eval Value}
  (hrun : ∀ {m : Machine} {env : Env} {e : Expr}, m.Covers d.recursiveLet env e →
    Safe d m (fun m' v => v.Scoped d.recursiveLet m') (run env e))
  {env : Env} {ds : List (String × Expr)}

include hrun

/-- Recursive definitions that are evaluated while the frame is being filled. -/
theorem define_eager (hd : d.SeesPlaceholders)
    (hds : ∀ p ∈ ds, ∀ x ∈ p.2.free d.recursiveLet, x ∈ ds.map (·.1) ∨ m.Binds env x) :
    Safe d m (fun m' env' => ∀ x, x ∈ ds.map (·.1) ∨ m.Binds env x → m'.Binds env' x)
      (Eval.define d run env ds) := by
  have hreserve : Safe d m (fun _ slots => slots.map (·.1) = ds.map (·.1)) (Eval.reserve ds) := by
    intro hm
    obtain ⟨slots, m', hres, hw, hm', -, hnames⟩ := reserve ds hm
    exact of_ok hres (fun _ => ⟨hw, hm', hnames⟩) hm
  rw [Eval.define, if_pos hd.2]
  refine bind hreserve fun m₁ slots hw₁ hnames => ?_
  refine bind (newFrame env hnames fun h => absurd hd h) fun m₂ f hw₂ hframe => ?_
  obtain ⟨hf, hbinds⟩ := hframe
  have hscope : ∀ x, x ∈ ds.map (·.1) ∨ m.Binds env x → m₂.Binds (f :: env) x :=
    fun x hx => hbinds x (hx.imp_right hw₁.binds)
  have hcover : ∀ p ∈ ds, m₂.Covers d.recursiveLet (f :: env) p.2 :=
    fun p hp x hx => hscope x (hds p hp x hx)
  refine bind (fill hrun hf hcover) fun m₃ _ hw₃ _ => ret fun x hx => ?_
  exact hw₃.binds (hscope x hx)

omit hrun in
/-- Recursive definitions that are left unevaluated: when the frame is there, it is filled. -/
theorem define_lazy (hd : d.strategy ≠ .value) (hr : d.recursiveLet = true)
    (hds : ∀ p ∈ ds, ∀ x ∈ p.2.free d.recursiveLet, x ∈ ds.map (·.1) ∨ m.Binds env x) :
    Safe d m (fun m' env' => ∀ x, x ∈ ds.map (·.1) ∨ m.Binds env x → m'.Binds env' x)
      (Eval.define d run env ds) := by
  intro hm
  have hbut : m.ScopedBut (· = m.frames.size) d :=
    ⟨hm.contents, fun hd f x i y _ => hm.slots hd f x i y fun h => h⟩
  obtain ⟨slots, m₁, hres, hw₁, hm₁, hframes, hnames⟩ := reserve ds hbut
  obtain ⟨hw₂, hm₂⟩ := hm₁.addFrame (F := Frame.ofSlots slots) fun _ h => absurd (by rw [hframes]) h
  have hscope : ∀ x, x ∈ ds.map (·.1) ∨ m.Binds env x →
      (m₁.addFrame (Frame.ofSlots slots)).Binds (m₁.frames.size :: env) x :=
    fun x hx => binds_addFrame hnames hw₂ (hx.imp_right hw₁.binds)
  obtain ⟨m₃, hfill, hw₃, hm₃, hslots⟩ := fill_lazy run hd (f := m.frames.size)
    (m₁.frames.size :: env) hm₂ (by simp [hframes])
    fun p hp x hx => hscope x (hds p hp x hx)
  -- every slot of the frame is one of the definitions, so none is a placeholder any more
  have hfilled : ∀ x i y, (m₃.frame m.frames.size).get? x = some i →
      m₃.binding i ≠ .undefined y := by
    intro x i y hget
    rcases hslots x i hget with hdef | ⟨hold, hnot⟩
    · exact hdef y
    · rw [Machine.frame_addFrame, if_pos (by rw [hframes]), get?_ofSlots] at hold
      refine absurd ?_ hnot
      rw [← hnames]
      exact List.mem_map.mpr ⟨_, mem_of_lastOf? hold, rfl⟩
  have hm₃' : m₃.Scoped d := by
    refine ⟨hm₃.contents, fun hd f x i y _ hget => ?_⟩
    by_cases hf : f = m.frames.size
    · subst hf
      exact hfilled x i y hget
    · exact hm₃.slots hd f x i y hf hget
  have hnew : Eval.newFrame (Frame.ofSlots slots) m₁ =
      .ok m₁.frames.size (m₁.addFrame (Frame.ofSlots slots)) := rfl
  have hdefine : Eval.define d run env ds m = .ok (m₁.frames.size :: env) m₃ := by
    rw [hframes] at hfill hnew ⊢
    rw [Eval.define, if_pos hr, Eval.bind_of_ok hres, Eval.bind_of_ok hnew]
    exact Eval.bind_of_ok hfill
  refine of_ok hdefine (fun _ => ⟨(hw₁.trans hw₂).trans hw₃, hm₃', fun x hx => ?_⟩) hm
  exact hw₃.binds (hscope x hx)

/-- The environment of the body of a `let` binds its variables and those of the surrounding one. -/
theorem define
    (hrec : d.recursiveLet = true →
      ∀ p ∈ ds, ∀ x ∈ p.2.free d.recursiveLet, x ∈ ds.map (·.1) ∨ m.Binds env x)
    (hnon : d.recursiveLet = false → ∀ p ∈ ds, m.Covers d.recursiveLet env p.2) :
    Safe d m (fun m' env' => ∀ x, x ∈ ds.map (·.1) ∨ m.Binds env x → m'.Binds env' x)
      (Eval.define d run env ds) := by
  cases hr : d.recursiveLet with
  | true =>
    by_cases hs : d.strategy = .value
    · exact define_eager hrun ⟨hs, hr⟩ (hrec hr)
    · exact define_lazy hs hr (hrec hr)
  | false =>
    rw [Eval.define, if_neg (by simp [hr])]
    refine bind (bindAll hrun (hnon hr)) fun m₁ slots hw₁ hslots => ?_
    refine bind (newFrame env hslots.1 fun _ => hslots.2) fun m₂ f hw₂ hf => ?_
    exact ret fun x hx => hf.2 x (hx.imp_right hw₁.binds)

end Define

section Step

variable {run : Env → Expr → Eval Value}
  (hrun : ∀ {m : Machine} {env : Env} {e : Expr}, m.Covers d.recursiveLet env e →
    Safe d m (fun m' v => v.Scoped d.recursiveLet m') (run env e))

include hrun

theorem connect (c : Connective) {env : Env} {l r : Expr} (hl : m.Covers d.recursiveLet env l)
    (hr : m.Covers d.recursiveLet env r) :
    Safe d m (fun m' v => v.Scoped d.recursiveLet m') (Eval.connect run c env l r) := by
  unfold Eval.connect
  refine bind (hrun hl) fun m₁ a hw₁ _ => ?_
  refine bind (lift (P := fun _ _ => True) (inScope_asBool _ a)) fun m₂ b hw₂ _ => ?_
  split
  · exact ret trivial
  · refine bind (hrun ((hw₁.trans hw₂).covers hr)) fun m₃ c _ _ => ?_
    refine bind (lift (P := fun _ _ => True) (inScope_asBool _ c)) fun m₄ t _ _ => ?_
    exact ret trivial

theorem branch {env : Env} {t c a : Expr} (ht : m.Covers d.recursiveLet env t)
    (hc : m.Covers d.recursiveLet env c) (ha : m.Covers d.recursiveLet env a) :
    Safe d m (fun m' v => v.Scoped d.recursiveLet m') (Eval.branch run env t c a) := by
  unfold Eval.branch
  refine bind (hrun ht) fun m₁ v hw₁ _ => ?_
  split
  · exact hrun (hw₁.covers hc)
  · exact hrun (hw₁.covers ha)
  · exact fail nofun

/-- **One evaluation is safe if its parts are**: every part is in the scope it is evaluated in. -/
theorem step {env : Env} {e : Expr} (he : m.Covers d.recursiveLet env e) :
    Safe d m (fun m' v => v.Scoped d.recursiveLet m') (Eval.step d run env e) := by
  -- a part of the expression whose free variables are among those of the whole
  have part : ∀ {a : Expr}, (∀ x ∈ a.free d.recursiveLet, x ∈ e.free d.recursiveLet) →
      m.Covers d.recursiveLet env a := fun h x hx => he x (h x hx)
  cases e with
  | int | bool | null | prim => exact ret trivial
  | var x => exact var hrun (he x (by simp [Expr.free]))
  | unary op a =>
    have ha : m.Covers d.recursiveLet env a := part fun x hx => by simpa [Expr.free] using hx
    refine bind (hrun ha) fun m₁ v _ _ => ?_
    exact lift (P := fun m' (v : Value) => v.Scoped d.recursiveLet m') (inScope_applyUnary op v)
  | binary op l r =>
    have hl : m.Covers d.recursiveLet env l := part fun x hx => by simp [Expr.free, hx]
    have hr : m.Covers d.recursiveLet env r := part fun x hx => by simp [Expr.free, hx]
    simp only [Eval.step]
    split
    · exact connect hrun _ hl hr
    · refine bind (hrun hl) fun m₁ a hw₁ _ => ?_
      refine bind (hrun (hw₁.covers hr)) fun m₂ b _ _ => ?_
      exact lift (P := fun m' (v : Value) => v.Scoped d.recursiveLet m')
        (inScope_applyBinary op a b)
  | ite t c a =>
    refine branch hrun (part fun x hx => ?_) (part fun x hx => ?_) (part fun x hx => ?_)
    all_goals simp [Expr.free, hx]
  | map ps b =>
    refine of_ok rfl fun hm => ?_
    obtain ⟨hw, hm'⟩ := hm.congr { m with closures := m.closures + 1 } rfl rfl
    refine ⟨hw, hm', fun x hx hps => hw.binds (he x ?_)⟩
    simp [Expr.free, hx, hps]
  | app f as =>
    have hf : m.Covers d.recursiveLet env f := part fun x hx => by simp [Expr.free, hx]
    have has : ∀ a ∈ as, m.Covers d.recursiveLet env a := fun a ha => part fun x hx => by
      rw [Expr.free, List.mem_append]
      exact .inr (Expr.mem_freeArgs ha hx)
    refine bind (hrun hf) fun m₁ v hw₁ hv => ?_
    exact apply hrun hv fun a ha => hw₁.covers (has a ha)
  | letIn ds b =>
    have hbody : ∀ x ∈ b.free d.recursiveLet, x ∈ ds.map (·.1) ∨ m.Binds env x := by
      intro x hx
      by_cases hxd : x ∈ ds.map (·.1)
      · exact .inl hxd
      · refine .inr (he x ?_)
        rw [Expr.free]
        split <;> simp [hx, hxd]
    have hdefs : ∀ p ∈ ds, ∀ x ∈ p.2.free d.recursiveLet, x ∈ ds.map (·.1) ∨ m.Binds env x := by
      intro p hp x hx
      by_cases hxd : x ∈ ds.map (·.1)
      · exact .inl hxd
      · refine .inr (he x ?_)
        have hmem := Expr.mem_freeDefs hp hx
        rw [Expr.free]
        split <;> simp [hmem, hxd]
    have houter : d.recursiveLet = false → ∀ p ∈ ds, m.Covers d.recursiveLet env p.2 := by
      intro hr p hp x hx
      refine he x ?_
      rw [Expr.free, if_neg (by simp [hr]), List.mem_append]
      exact .inl (Expr.mem_freeDefs hp hx)
    refine bind (define hrun (fun _ => hdefs) houter) fun m₁ env' _ henv => hrun fun x hx => ?_
    exact henv x (hbody x hx)
  | datum s i =>
    refine fail fun hk => ?_
    cases hk

end Step

end Safe

/-- **Evaluation in a scope that covers the expression is safe.** -/
theorem safe_eval (d : Discipline) (n : Nat) {m : Machine} {env : Env} {e : Expr}
    (he : m.Covers d.recursiveLet env e) :
    Safe d m (fun m' v => v.Scoped d.recursiveLet m') (Eval.eval d n env e) := by
  induction n generalizing m env e with
  | zero => exact fun _ => ⟨fun a m' h => (nomatch h), fun e m' h => (nomatch h)⟩
  | succ n ih => exact Safe.step ih he

/-- A definition that needs the one after it. -/
def forwardReference : Expr := .letIn [("x", .var "y"), ("y", .int 1)] (.var "x")

/-- **Static scoping is sound.** A closed expression meets no unbound variable, with one exception,
which is possible: in call by value with recursive definitions a variable may be referenced before
its definition. -/
theorem closed_in_scope (d : Discipline) :
    (∀ (n : Nat) (e : Expr) (err : EvalError) (m : Machine), e.Closed d.recursiveLet →
      Eval.evalClosed d n e Machine.initial = .error (.error err) m →
      err.kind = .unboundVariable → d = ⟨.value, true⟩ ∧ ∃ x, err = .undefined x) ∧
    (d = ⟨.value, true⟩ → ∃ (n : Nat) (e : Expr) (x : String) (m : Machine),
      e.Closed d.recursiveLet ∧
      Eval.evalClosed d n e Machine.initial = .error (.error (.undefined x)) m ∧
      (EvalError.undefined x).message = "Variable " ++ x ++ " referenced before its definition") := by
  refine ⟨fun n e err m hclosed hrun hkind => ?_, ?_⟩
  · have hm : (Machine.initial.addFrame Frame.empty).Scoped d := by
      have h₀ : Machine.initial.Scoped d := by
        refine ⟨fun _ => trivial, fun _ f x i y _ h => ?_⟩
        simp [Machine.initial, Machine.frame] at h
      refine (h₀.addFrame fun _ _ x i y h => ?_).2
      rw [Frame.get?_empty] at h
      cases h
    have hcover : (Machine.initial.addFrame Frame.empty).Covers d.recursiveLet [0] e := by
      intro x hx
      rw [hclosed] at hx
      cases hx
    obtain ⟨⟨hs, hr⟩, hx⟩ := (safe_eval d n hcover hm).2 err m hrun hkind
    cases d
    cases hs
    cases hr
    exact ⟨rfl, hx⟩
  · rintro rfl
    exact ⟨5, forwardReference, "y", _, by decide, rfl, rfl⟩

theorem closed_in_scope_forwardReference :
    forwardReference.Closed true ∧ (∃ m, Eval.evalClosed ⟨.value, true⟩ 5 forwardReference
      Machine.initial = .error (.error (.undefined "y")) m) ∧
    ∃ x, EvalError.undefined "y" = .undefined x := by
  have hclosed : forwardReference.Closed true := by decide
  obtain ⟨hno, -⟩ := closed_in_scope ⟨.value, true⟩
  exact ⟨hclosed, ⟨_, rfl⟩, (hno 5 forwardReference _ _ hclosed rfl rfl).2⟩

end CallBy
