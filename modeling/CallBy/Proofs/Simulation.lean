import CallBy.Proofs.Operations

/-!
Simulations between evaluation on a machine and storeless evaluation.

What a simulation says of two computations is left open (`Simulation.Rel`); it is asked to hold of
silent steps of the machine, of equal failures and reports, of parts in sequence, and of the nested
evaluations. `Simulation.step`: then it holds of one evaluation of any expression.

* `define_lazy`: a recursive `let` of a lazy strategy builds its whole frame silently.
-/

namespace CallBy

open Storeless

/-! ### Silent steps of the machine -/

theorem Machine.Settled.of_bindings {m m' : Machine} (h : m'.bindings = m.bindings) :
    m.Settled m' := by
  rintro i ⟨x, e, env, hb⟩
  refine ⟨x, e, env, ?_⟩
  rw [← hb, Machine.binding, Machine.binding, h]

theorem Machine.Settled.addBinding {m : Machine} {b : Binding}
    (h : ∀ x e env, b ≠ .need x (.running e env)) : m.Settled (m.addBinding b) := by
  rintro i ⟨x, e, env, hb⟩
  rw [Machine.binding_addBinding] at hb
  split at hb
  · exact absurd hb (h x e env)
  · exact ⟨x, e, env, hb⟩

theorem Eval.lookup_bind_of_some {α : Type} {env : Env} {x : String} {m : Machine} {i : BindingId}
    {f : BindingId → Eval α} (h : m.lookup? env x = some i) :
    (Eval.lookup env x >>= f) m = f i m :=
  Eval.bind_of_ok (by simp only [Eval.lookup, h])

theorem Eval.lookup_bind_of_none {α : Type} {env : Env} {x : String} {m : Machine}
    {f : BindingId → Eval α} (h : m.lookup? env x = none) :
    (Eval.lookup env x >>= f) m = Eval.fail (.unbound x) m :=
  Eval.bind_of_error (by simp only [Eval.lookup, h])

section Silent

variable {d : Discipline} {run : Env → Expr → Eval Value} {but : FrameId → Prop}

/-- The computation adds to the machine and to the world, without a report and without a binding
being computed, and comes to a result as the relation asks for. -/
def Silently {α : Type} (but : FrameId → Prop) (d : Discipline) (w : World) (m : Machine)
    (x : Eval α) (P : World → Machine → α → Prop) : Prop :=
  ∃ a m' w', x m = .ok a m' ∧ w ≤ w' ∧ ModelsBut but d w' m' ∧ m.Settled m' ∧ m'.trace = m.trace ∧
    P w' m' a

/-- Binding a variable lazily adds one binding, which holds the expression. -/
theorem bindVar_lazy (run : Env → Expr → Eval Value) (hd : d.strategy ≠ .value) (env : Env)
    (x : String) (e : Expr) :
    ∃ b, (∀ m, Eval.bindVar d run env x e m = .ok m.bindings.size (m.addBinding b)) ∧
      (∀ {w : World} {σ : Scope}, Stack w env σ → Holds d w (some (e, σ)) b) ∧
      ∀ y e' env', b ≠ .need y (.running e' env') := by
  unfold Eval.bindVar
  cases hs : d.strategy with
  | value => exact absurd hs hd
  | name => exact ⟨.name x e env, fun _ => rfl, fun h => ⟨hs, rfl, h⟩, nofun⟩
  | need => exact ⟨.need x (.pending e env), fun _ => rfl, fun h => ⟨hs, rfl, h⟩, nofun⟩

/-- Reserving adds one placeholder for every definition. -/
theorem reserve_silent (ds : List (String × Expr)) {w : World} {m : Machine}
    (hm : ModelsBut but d w m) :
    Silently but d w m (Eval.reserve ds) fun w' m' slots =>
      m'.frames = m.frames ∧ w'.scopes = w.scopes ∧ slots.map (·.1) = ds.map (·.1) ∧
        ∀ s ∈ slots, w'.thunks[s.2]? = some none := by
  induction ds generalizing w m with
  | nil => exact ⟨[], m, w, rfl, World.le_refl w, hm, .refl m, rfl, rfl, rfl, rfl, nofun⟩
  | cons p ds ih =>
    obtain ⟨x, e⟩ := p
    have hm₁ := hm.addBinding (b := .undefined x) (t := none) ⟨x, rfl⟩
    obtain ⟨slots, m', w', hrun, hle, hm', hset, htr, hfr, hsc, hnames, hslots⟩ := ih hm₁
    refine ⟨(x, m.bindings.size) :: slots, m', w', ?_, World.le_trans (World.le_addThunk w _) hle,
      hm', (Machine.Settled.addBinding (b := .undefined x) nofun).trans hset, htr, hfr, hsc, ?_, ?_⟩
    · simp only [Eval.reserve, Eval.newBinding, Bind.bind, EStateM.bind, hrun]
      rfl
    · simp [hnames]
    · intro s hs
      rcases List.mem_cons.mp hs with rfl | hs
      · rw [hm.bindings]
        exact World.thunk_mono hle (World.thunks_addThunk_self w none)
      · exact hslots s hs

/-- Filling a frame lazily points its slots to bindings of the definitions. -/
theorem fill_lazy (run : Env → Expr → Eval Value) (hd : d.strategy ≠ .value) (f : FrameId)
    {env : Env} {σ τ : Scope} (ds : List (String × Expr)) {w : World} {m : Machine}
    (hm : ModelsBut (· = f) d w m) (hf : w.scopes[f]? = some σ) (hs : Stack w env τ) :
    Silently (· = f) d w m (Eval.fill d run f env ds) fun w' m' _ =>
      ∃ slots, SlotsOf w' τ slots ds ∧
        ∀ x, (m'.frame f).get? x = (lastOf? x slots).or ((m.frame f).get? x) := by
  induction ds generalizing w m with
  | nil => exact ⟨(), m, w, rfl, World.le_refl w, hm, .refl m, rfl, [], .nil, fun x => rfl⟩
  | cons p ds ih =>
    obtain ⟨x, e⟩ := p
    obtain ⟨b, hrun, hb, hnr⟩ := bindVar_lazy run hd env x e
    have hle₁ := World.le_addThunk w (some (e, τ))
    have hm₁ := hm.addBinding (hb hs)
    have hf₁ := World.scope_mono hle₁ hf
    have hm₂ := hm₁.setSlot (x := x) (i := m.bindings.size) hf₁ fun h => absurd rfl h
    obtain ⟨_, m', w', hrest, hle, hm', hset, htr, slots, hslots, hget⟩ := ih hm₂ hf₁ (hs.mono hle₁)
    refine ⟨(), m', w', ?_, World.le_trans hle₁ hle, hm', ?_, htr, (x, m.bindings.size) :: slots,
      .cons ⟨rfl, ?_⟩ hslots, fun y => ?_⟩
    · simp only [Eval.fill, Eval.setSlot, Bind.bind, EStateM.bind, hrun, hrest]
    · exact ((Machine.Settled.addBinding hnr).trans (.of_bindings rfl)).trans hset
    · rw [hm.bindings]
      exact World.thunk_mono hle (World.thunks_addThunk_self w _)
    · have hlt : f < (m.addBinding b).frames.size := hm₁.lt_of_scope hf₁
      rw [hget, Machine.frame_setSlot _ hlt, if_pos rfl, Frame.get?_set, lastOf?]
      cases lastOf? y slots with
      | some i => rfl
      | none =>
        by_cases hxy : x = y
        · simp [hxy]
        · simp [hxy, Machine.frame, Machine.addBinding]

theorem lastOf?_eq_none {α β : Type} {ss : List (String × α)} {ds : List (String × β)}
    (h : ss.map (·.1) = ds.map (·.1)) {x : String} (hx : lastOf? x ds = none) :
    lastOf? x ss = none := by
  induction ss generalizing ds with
  | nil => rfl
  | cons s ss ih =>
    rcases ds with _ | ⟨p, ds⟩
    · cases h
    simp only [List.map_cons, List.cons.injEq] at h
    simp only [lastOf?, Option.or_eq_none_iff] at hx ⊢
    rw [h.1]
    refine ⟨ih h.2 hx.1, ?_⟩
    by_cases hp : p.1 = x <;> simp_all

theorem mem_of_lastOf? {α : Type} {ss : List (String × α)} {x : String} {a : α}
    (h : lastOf? x ss = some a) : (x, a) ∈ ss := by
  induction ss with
  | nil => cases h
  | cons s ss ih =>
    simp only [lastOf?, Option.or_eq_some_iff] at h
    rcases h with h | ⟨-, h⟩
    · exact List.mem_cons_of_mem _ (ih h)
    · split at h
      · next hx =>
        cases h
        rw [← hx]
        exact List.mem_cons_self
      · cases h

theorem lastOf?_of_nodup {α : Type} {ds : List (String × α)} (h : (ds.map (·.1)).Nodup)
    {p : String × α} (hp : p ∈ ds) : lastOf? p.1 ds = some p.2 := by
  induction ds with
  | nil => cases hp
  | cons q ds ih =>
    obtain ⟨hq, hnd⟩ := List.nodup_cons.mp h
    simp only [lastOf?]
    rcases List.mem_cons.mp hp with rfl | hp
    · have hnone : lastOf? p.1 ds = none := by
        by_contra hne
        obtain ⟨a, ha⟩ := Option.ne_none_iff_exists'.mp hne
        exact hq (List.mem_map.mpr ⟨_, mem_of_lastOf? ha, rfl⟩)
      simp [hnone]
    · rw [ih hnd hp]
      rfl

/-- In call by value placeholders may stand for the definitions. -/
theorem slot_of_placeholders (hd : d.strategy = .value) {w : World} {τ : Scope}
    {slots : List (String × BindingId)} {ds : List (String × Expr)}
    (hnames : slots.map (·.1) = ds.map (·.1)) (hslots : ∀ s ∈ slots, w.thunks[s.2]? = some none)
    (x : String) : Slot d w ((lastOf? x ds).map (·, τ)) (lastOf? x slots) := by
  cases hl : lastOf? x ds with
  | none => exact lastOf?_eq_none hnames hl
  | some e =>
    cases hs : lastOf? x slots with
    | none =>
      rw [lastOf?_eq_none hnames.symm hs] at hl
      cases hl
    | some i => exact ⟨i, rfl, .inr ⟨hd, hslots _ (mem_of_lastOf? hs)⟩⟩

/-- **A recursive `let` of a lazy strategy builds its whole frame silently.** -/
theorem define_lazy (hd : d.strategy ≠ .value) (hr : d.recursiveLet = true) {env : Env} {σ : Scope}
    (ds : List (String × Expr)) {w : World} {m : Machine} (hm : Models d w m) (hs : Stack w env σ) :
    Silently (fun _ => False) d w m (Eval.define d run env ds) fun w' _ env' =>
      Stack w' env' (.letrec ds σ) := by
  -- the placeholders, and the frame that points to them
  obtain ⟨slots₀, m₁, w₁, hrun₁, hle₁, hm₁, hset₁, htr₁, hfr, hsc, hnames, -⟩ :=
    reserve_silent ds (hm.weaken (· = m.frames.size))
  have hle₂ := World.le_addScope w₁ (.letrec ds σ)
  have hm₂ : ModelsBut (· = m.frames.size) d (w₁.addScope (.letrec ds σ))
      (m₁.addFrame (Frame.ofSlots slots₀)) := hm₁.addFrame fun h => absurd (by rw [hfr]) h
  have hf₂ : (w₁.addScope (.letrec ds σ)).scopes[m.frames.size]? = some (.letrec ds σ) := by
    rw [hm.frames, ← hsc]
    exact World.scopes_addScope_self w₁ _
  have hs₂ : Stack (w₁.addScope (.letrec ds σ)) (m.frames.size :: env) (.letrec ds σ) :=
    .letrec hf₂ (hs.mono (World.le_trans hle₁ hle₂))
  -- the bindings, and the frame that points to them
  obtain ⟨_, m₃, w₃, hrun₃, hle₃, hm₃, hset₃, htr₃, slots, hslots, hget⟩ :=
    fill_lazy run hd m.frames.size ds hm₂ hf₂ hs₂
  have hf₃ := World.scope_mono hle₃ hf₂
  refine ⟨m.frames.size :: env, m₃, w₃, ?_, World.le_trans hle₁ (World.le_trans hle₂ hle₃), ?_,
    (hset₁.trans (.of_bindings rfl)).trans hset₃, htr₃.trans htr₁, hs₂.mono hle₃⟩
  · simp only [Eval.define, hr, if_true, Eval.newFrame, Bind.bind, EStateM.bind, hrun₁, hfr, hrun₃]
    rfl
  · refine hm₃.models hf₃ fun x => ?_
    have hslot := hslots.slot_lastOf? (d := d) x
    rw [hget x, Machine.frame_addFrame, if_pos (by rw [hfr]), get?_ofSlots]
    simp only [Scope.own?]
    cases hl : lastOf? x ds with
    | none =>
      rw [hl] at hslot
      rw [lastOf?_eq_none hnames hl, show lastOf? x slots = none from hslot]
      exact rfl
    | some e =>
      rw [hl] at hslot
      obtain ⟨i, hi, ht⟩ := hslot
      rw [hi]
      exact ⟨i, rfl, ht⟩

end Silent

/-! ### Simulations -/

/-- A relation between computations on a machine and families of storeless ones, indexed by the
bound on nested evaluations, that is kept by whatever evaluation is made of. -/
structure Simulation (d : Discipline) (run : Env → Expr → Eval Value)
    (read : Nat → Scope → Expr → Course Val) where
  /-- The computations are related, given what their results are to be. -/
  Rel : {α β : Type} → (World → α → β → Prop) → World → Eval α → (Nat → Course β) → Prop
  silent : ∀ {α β : Type} {R : World → α → β → Prop} {w : World} {x : Eval α} {b : β},
    (∀ m, Models d w m → Silently (fun _ => False) d w m x fun w' _ a => R w' a b) →
    Rel R w x fun _ => pure b
  bind : ∀ {α β α' β' : Type} {R : World → α → β → Prop} {R' : World → α' → β' → Prop} {w : World}
    {x : Eval α} {p : Nat → Course β} {f : α → Eval α'} {g : Nat → β → Course β'},
    Rel R w x p → (∀ w' a b, w ≤ w' → R w' a b → Rel R' w' (f a) fun k => g k b) →
    Rel R' w (x >>= f) fun k => p k >>= g k
  fail : ∀ {α β : Type} {R : World → α → β → Prop} {w : World} {e e' : EvalError},
    SameError e e' → Rel R w (Eval.fail e) fun _ => Course.fail e'
  report : ∀ {w : World} {v : Value} {u : Val}, Stands d w v u →
    Rel (Stands d) w (fun m => .ok v (m.report v)) fun _ => Course.report u.bare.render u
  parts : ∀ {w : World} {env : Env} {σ : Scope} {e : Expr}, Stack w env σ → Fit d e →
    Rel (Stands d) w (run env e) fun k => read k σ e
  var : ∀ {w : World} {env : Env} {σ : Scope} (x : String), Stack w env σ →
    Rel (Stands d) w (Eval.lookup env x >>= Eval.resolve run) fun k => ofVar (read k) σ x
  bindValue : d.strategy = .value → ∀ {w : World} {env : Env} {σ : Scope} {x : String} {e : Expr},
    Stack w env σ → Fit d e →
    Rel (fun w' i (_ : Unit) => w'.thunks[i]? = some (some (e, σ))) w
      (Eval.bindVar d run env x e) fun _ => pure ()

namespace Simulation

variable {d : Discipline} {run : Env → Expr → Eval Value} {read : Nat → Scope → Expr → Course Val}
  (S : Simulation d run read) {α β : Type} {w : World} {env : Env} {σ : Scope}

include S

theorem ret {R : World → α → β → Prop} {a : α} {b : β} (h : R w a b) :
    S.Rel R w (pure a) fun _ => pure b :=
  S.silent fun m hm => ⟨a, m, w, rfl, World.le_refl w, hm, .refl m, rfl, h⟩

theorem lift {R : World → α → β → Prop} {x : Except EvalError α} {y : Except EvalError β}
    (h : Results (R w) x y) : S.Rel R w (Eval.lift x) fun _ => Course.lift y := by
  match x, y with
  | .ok a, .ok b => exact S.ret h
  | .error e, .error e' => exact S.fail h
  | .ok a, .error e => exact h.elim
  | .error e, .ok b => exact h.elim

/-- A step that has no counterpart, before one that has. -/
theorem bind_unit {α' β' : Type} {R : World → α → Unit → Prop} {R' : World → α' → β' → Prop}
    {x : Eval α} {f : α → Eval α'} {q : Nat → Course β'} (h : S.Rel R w x fun _ => pure ())
    (hf : ∀ w' a, w ≤ w' → R w' a () → S.Rel R' w' (f a) q) : S.Rel R' w (x >>= f) q :=
  S.bind (g := fun k _ => q k) h fun w' a _ hw ha => hf w' a hw ha

/-! ### Bindings -/

theorem bindVar (x : String) {e : Expr} (hs : Stack w env σ) (he : Fit d e) :
    S.Rel (fun w' i (_ : Unit) => w'.thunks[i]? = some (some (e, σ))) w
      (Eval.bindVar d run env x e) fun _ => pure () := by
  by_cases hd : d.strategy = .value
  · exact S.bindValue hd hs he
  · obtain ⟨b, hrun, hb, hnr⟩ := bindVar_lazy run hd env x e
    refine S.silent fun m hm => ?_
    refine ⟨_, _, _, hrun m, World.le_addThunk w _, hm.addBinding (hb hs), .addBinding hnr, rfl, ?_⟩
    rw [hm.bindings]
    exact World.thunks_addThunk_self w _

theorem bindAll {ds : List (String × Expr)} (hs : Stack w env σ) (hds : ∀ p ∈ ds, Fit d p.2) :
    S.Rel (fun w' slots (_ : Unit) => SlotsOf w' σ slots ds) w (Eval.bindAll d run env ds)
      fun _ => pure () := by
  induction ds generalizing w with
  | nil => exact S.ret (R := fun w' slots (_ : Unit) => SlotsOf w' σ slots []) .nil
  | cons p ds ih =>
    obtain ⟨hp, hds⟩ := List.forall_mem_cons.mp hds
    refine S.bind_unit (S.bindVar p.1 hs hp) fun w₁ i hw₁ hi => ?_
    refine S.bind_unit (ih (hs.mono hw₁) hds) fun w₂ slots hw₂ hslots => ?_
    exact S.ret (R := fun w' slots (_ : Unit) => SlotsOf w' σ slots (p :: ds))
      (.cons ⟨rfl, World.thunk_mono hw₂ hi⟩ hslots)

/-- A frame of bindings of the definitions, in front of the environment. -/
theorem newFrame {ds : List (String × Expr)} {home : Scope} {slots : List (String × BindingId)}
    (hs : Stack w env σ) (hslots : SlotsOf w home slots ds) :
    S.Rel (fun w' f (_ : Unit) => Stack w' (f :: env) (.call ds home σ)) w
      (Eval.newFrame (Frame.ofSlots slots)) fun _ => pure () := by
  refine S.silent fun m hm => ?_
  have hle := World.le_addScope w (.call ds home σ)
  refine ⟨m.frames.size, m.addFrame _, w.addScope (.call ds home σ), rfl, hle,
    hm.addFrame fun _ x => ?_, .of_bindings rfl, rfl, .call ?_ (hs.mono hle)⟩
  · rw [get?_ofSlots]
    exact hslots.slot_lastOf? x
  · rw [hm.frames]
    exact World.scopes_addScope_self w _

/-! ### Definitions -/

/-- Filling a frame in which every name is defined once. -/
theorem fill {ds : List (String × Expr)} {f : FrameId} (hf : w.scopes[f]? = some σ)
    (hs : Stack w env σ) (hds : ∀ p ∈ ds, σ.own? p.1 = some (p.2, σ) ∧ Fit d p.2) :
    S.Rel (fun _ _ _ => True) w (Eval.fill d run f env ds) fun _ => pure () := by
  induction ds generalizing w with
  | nil => exact S.ret trivial
  | cons p ds ih =>
    obtain ⟨⟨hown, hfit⟩, hds⟩ := List.forall_mem_cons.mp hds
    refine S.bind_unit (S.bindVar p.1 hs hfit) fun w₁ i hw₁ hi => ?_
    have hset : S.Rel (fun w' _ (_ : Unit) => w₁ ≤ w') w₁ (Eval.setSlot f p.1 i)
        fun _ => pure () := by
      refine S.silent fun m hm => ⟨(), _, w₁, rfl, World.le_refl w₁, ?_, .of_bindings rfl, rfl,
        World.le_refl w₁⟩
      exact hm.setSlot (World.scope_mono hw₁ hf) fun _ => ⟨_, hown, hi⟩
    refine S.bind_unit hset fun w₂ _ hw₂ _ => ?_
    have hle := World.le_trans hw₁ hw₂
    exact ih (World.scope_mono hle hf) (hs.mono hle) hds

/-- A recursive `let` of call by value fills its frame while the definitions are evaluated. -/
theorem define_value (hd : d.strategy = .value) (hr : d.recursiveLet = true)
    {ds : List (String × Expr)} (hs : Stack w env σ) (hds : ∀ p ∈ ds, Fit d p.2)
    (hnd : (ds.map (·.1)).Nodup) :
    S.Rel (fun w' env' (_ : Unit) => Stack w' env' (.letrec ds σ)) w (Eval.define d run env ds)
      fun _ => pure () := by
  simp only [Eval.define, hr, if_true]
  have hres : S.Rel (fun w' slots (_ : Unit) => slots.map (·.1) = ds.map (·.1) ∧
      ∀ s ∈ slots, w'.thunks[s.2]? = some none) w (Eval.reserve ds) fun _ => pure () := by
    refine S.silent fun m hm => ?_
    obtain ⟨slots, m', w', hrun, hle, hm', hset, htr, -, -, hslots⟩ := reserve_silent ds hm
    exact ⟨slots, m', w', hrun, hle, hm', hset, htr, hslots⟩
  refine S.bind_unit hres fun w₁ slots hw₁ hslots => ?_
  have hframe : S.Rel (fun w' f (_ : Unit) => w'.scopes[f]? = some (.letrec ds σ)) w₁
      (Eval.newFrame (Frame.ofSlots slots)) fun _ => pure () := by
    refine S.silent fun m hm => ⟨m.frames.size, m.addFrame _, w₁.addScope (.letrec ds σ), rfl,
      World.le_addScope w₁ _, hm.addFrame fun _ x => ?_, .of_bindings rfl, rfl, ?_⟩
    · rw [get?_ofSlots, Scope.own?]
      exact slot_of_placeholders hd hslots.1 hslots.2 x
    · rw [hm.frames]
      exact World.scopes_addScope_self w₁ _
  refine S.bind_unit hframe fun w₂ f hw₂ hf => ?_
  have hs₂ : Stack w₂ (f :: env) (.letrec ds σ) := .letrec hf (hs.mono (World.le_trans hw₁ hw₂))
  refine S.bind_unit (S.fill hf hs₂ fun p hp => ⟨?_, hds p hp⟩) fun w₃ _ hw₃ _ => ?_
  · rw [Scope.own?, lastOf?_of_nodup hnd hp]
    rfl
  · exact S.ret (R := fun w' env' (_ : Unit) => Stack w' env' (.letrec ds σ)) (hs₂.mono hw₃)

/-- The environment of the body of a `let`. -/
theorem define {ds : List (String × Expr)} (hs : Stack w env σ) (hds : ∀ p ∈ ds, Fit d p.2)
    (hnd : d.strategy = .value → (ds.map (·.1)).Nodup) :
    S.Rel (fun w' env' (_ : Unit) => Stack w' env' (σ.define d.recursiveLet ds)) w
      (Eval.define d run env ds) fun _ => pure () := by
  cases hr : d.recursiveLet with
  | true =>
    by_cases hd : d.strategy = .value
    · exact S.define_value hd hr hs hds (hnd hd)
    · exact S.silent fun m hm => define_lazy hd hr ds hm hs
  | false =>
    simp only [Eval.define, hr, Scope.define]
    refine S.bind_unit (S.bindAll hs hds) fun w₁ slots hw₁ hslots => ?_
    refine S.bind_unit (S.newFrame (hs.mono hw₁) hslots) fun w₂ f hw₂ hf => ?_
    exact S.ret (R := fun w' env' (_ : Unit) => Stack w' env' (.call ds σ σ)) hf

/-! ### Parts in sequence -/

theorem evalAll {es : List Expr} (hs : Stack w env σ) (hes : ∀ e ∈ es, Fit d e) :
    S.Rel (fun w' vs us => List.Forall₂ (Stands d w') vs us) w (Eval.evalAll run env es)
      fun k => Storeless.evalAll (read k) σ es := by
  induction es generalizing w with
  | nil => exact S.ret (R := fun w' vs us => List.Forall₂ (Stands d w') vs us) .nil
  | cons e es ih =>
    obtain ⟨he, hes⟩ := List.forall_mem_cons.mp hes
    refine S.bind (S.parts hs he) fun w₁ v u hw₁ hv => ?_
    refine S.bind (ih (hs.mono hw₁) hes) fun w₂ vs us hw₂ hvs => ?_
    exact S.ret (R := fun w' vs us => List.Forall₂ (Stands d w') vs us) (.cons (hv.mono hw₂) hvs)

theorem callPrim (p : Prim) {vs : List Value} {us : List Val}
    (h : List.Forall₂ (Stands d w) vs us) :
    S.Rel (Stands d) w (Eval.callPrim p vs) fun _ => Storeless.callPrim p us := by
  by_cases ht : ∃ v, p = .tick ∧ vs = [v]
  · obtain ⟨v, rfl, rfl⟩ := ht
    cases h with
    | cons hv hnil =>
      cases hnil
      exact S.report hv
  · have hlift := S.lift (results_call h fun v hv => ht ⟨v, hv⟩)
    have hx := Eval.callPrim_eq_lift fun v hv => ht ⟨v, hv⟩
    have hy : Storeless.callPrim p us = Course.lift (Storeless.call p us) := by
      unfold Storeless.callPrim
      split
      · next u =>
        cases h with
        | cons hv hnil =>
          cases hnil
          exact absurd ⟨_, rfl, rfl⟩ ht
      · rfl
    rw [hx, hy]
    exact hlift

theorem apply {v : Value} {u : Val} {as : List Expr} (hs : Stack w env σ) (hv : Stands d w v u)
    (has : ∀ a ∈ as, Fit d a) :
    S.Rel (Stands d) w (Eval.apply d run env v as) fun k => Storeless.apply (read k) σ u as := by
  cases hv with
  | @closure i ps b cenv τ hcs hb =>
    simp only [Eval.apply, Storeless.apply]
    split
    · have hzip : ∀ p ∈ ps.zip as, Fit d p.2 := fun p hp => has p.2 (List.of_mem_zip hp).2
      refine S.bind_unit (S.bindAll hs hzip) fun w₁ slots hw₁ hslots => ?_
      refine S.bind_unit (S.newFrame (hcs.mono hw₁) hslots) fun w₂ f hw₂ hf => ?_
      exact S.parts hf hb
    · exact S.fail ⟨rfl, nofun⟩
  | prim p =>
    simp only [Eval.apply, Storeless.apply]
    split
    · exact S.bind (S.evalAll hs has) fun w₁ vs us hw₁ hvs => S.callPrim p hvs
    · exact S.fail ⟨rfl, nofun⟩
  | cons ha hr => exact S.fail ((Stands.cons ha hr).sameError .notFunction (fun _ => rfl) nofun)
  | _ => exact S.fail ⟨rfl, nofun⟩

theorem connect (op : Connective) {l r : Expr} (hs : Stack w env σ) (hl : Fit d l) (hr : Fit d r) :
    S.Rel (Stands d) w (Eval.connect run op env l r)
      fun k => Storeless.connect (read k) op σ l r := by
  unfold Eval.connect Storeless.connect
  refine S.bind (S.parts hs hl) fun w₁ a a' hw₁ ha => ?_
  refine S.bind (S.lift (R := fun _ => Eq) (ha.results_asBool _)) fun w₂ b b' hw₂ hb => ?_
  subst hb
  split
  · exact S.ret (.bool b)
  · refine S.bind (S.parts (hs.mono (World.le_trans hw₁ hw₂)) hr) fun w₃ c c' hw₃ hc => ?_
    refine S.bind (S.lift (R := fun _ => Eq) (hc.results_asBool _)) fun w₄ t t' hw₄ ht => ?_
    subst ht
    exact S.ret (.bool t)

theorem branch {t c a : Expr} (hs : Stack w env σ) (ht : Fit d t) (hc : Fit d c) (ha : Fit d a) :
    S.Rel (Stands d) w (Eval.branch run env t c a) fun k => Storeless.branch (read k) σ t c a := by
  unfold Eval.branch Storeless.branch
  refine S.bind (S.parts hs ht) fun w₁ v u hw₁ hv => ?_
  have he := hv.sameError (.testNotBool (.ite t c a)) (fun _ => rfl) nofun
  cases hv with
  | bool b =>
    cases b with
    | true => exact S.parts (hs.mono hw₁) hc
    | false => exact S.parts (hs.mono hw₁) ha
  | _ => exact S.fail he

/-- **A simulation of the parts is one of the whole.** -/
theorem step {e : Expr} (hs : Stack w env σ) (he : Fit d e) :
    S.Rel (Stands d) w (Eval.guardedStep d run env e)
      fun k => Storeless.step d.recursiveLet (read k) σ e := by
  cases e with
  | int n => exact S.ret (.int n)
  | bool b => exact S.ret (.bool b)
  | null => exact S.ret .empty
  | prim p => exact S.ret (.prim p)
  | var x => exact S.var x hs
  | unary op a =>
    have ha : Fit d a := fun hd => by cases he hd; assumption
    exact S.bind (S.parts hs ha) fun w₁ v u hw₁ hv =>
      S.lift (results_ofValue (hv.results_applyUnary op))
  | binary op l r =>
    have hl : Fit d l := fun hd => by cases he hd; assumption
    have hr : Fit d r := fun hd => by cases he hd; assumption
    simp only [Eval.guardedStep, Storeless.step]
    cases Connective.ofSymbol? op with
    | some c => exact S.connect c hs hl hr
    | none =>
      refine S.bind (S.parts hs hl) fun w₁ a a' hw₁ ha => ?_
      refine S.bind (S.parts (hs.mono hw₁) hr) fun w₂ b b' hw₂ hb => ?_
      exact S.lift (results_ofValue ((ha.mono hw₂).results_guardedBinary hb op))
  | ite t c a =>
    refine S.branch hs ?_ ?_ ?_ <;> exact fun hd => by cases he hd; assumption
  | map ps b =>
    have hb : Fit d b := fun hd => by cases he hd; assumption
    exact S.silent fun m hm => ⟨_, _, w, rfl, World.le_refl w, hm.congr rfl rfl, .of_bindings rfl,
      rfl, .closure hs hb⟩
  | app f as =>
    have hf : Fit d f := fun hd => by cases he hd; assumption
    have has : ∀ a ∈ as, Fit d a := fun a ha hd => by cases he hd with | app _ h => exact h a ha
    exact S.bind (S.parts hs hf) fun w₁ v u hw₁ hv => S.apply (hs.mono hw₁) hv has
  | letIn ds b =>
    have hb : Fit d b := fun hd => by cases he hd; assumption
    have hds : ∀ p ∈ ds, Fit d p.2 := fun p hp hd => by
      cases he hd with | letIn _ h _ => exact h p hp
    have hnd : d.strategy = .value → (ds.map (·.1)).Nodup := fun hd => by cases he hd; assumption
    exact S.bind_unit (S.define hs hds hnd) fun w₁ env' hw₁ hs' => S.parts hs' hb
  | datum s i =>
    refine S.fail ⟨rfl, fun hk => ?_⟩
    cases hk

end Simulation

end CallBy
