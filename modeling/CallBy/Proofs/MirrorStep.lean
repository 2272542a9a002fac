import CallBy.Proofs.Sharing

/-!
Evaluation by value and by need mirrors named evaluation.

* `Mirrors.define`: the frame of a `let`. In call by need it is built quietly; in call by value it is
  filled while the definitions are evaluated, with placeholders in the slots to come;
* `Mirrors.step`: one evaluation mirrors the named one if the nested evaluations do;
* `mirrors_eval`: every evaluation does.
-/

namespace CallBy

namespace Named

namespace Mirrors

variable {base : Machine} {d : Discipline} {S : Name → Nat} {R : List Name} {o : Name} {n : Nat}
  {own : Own} {w : Chart}

section Parts

variable {run : Env → Expr → Eval Value}
  (hrun : ∀ {R : List Name} {o : Name} {own : Own} {w : Chart} {env : Env} {σ : Scope} {e : Expr},
    Stack w env σ → Fit d e → Mirrors base d S n R o own (fun w _ => Stands d w) w (run env e)
      fun C k => eval base d.recursiveLet k C o σ e)
  (hd : d.strategy ≠ .name)

include hrun hd

omit hrun hd in
/-- Things are made one after the other. -/
theorem make_succ (l : Nat) : Course.make (l + 1) = (do
    let k ← Course.make 1
    let _ ← Course.make l
    return k) := by
  funext own
  simp only [Course.make, Bind.bind, StateT.bind, Except.bind, Nat.add_comm l, Nat.add_assoc]
  rfl

/-- Binding variables makes their cells. -/
theorem bindAll {env : Env} {σ : Scope} {ds : List (String × Expr)} (hs : Stack w env σ)
    (hds : ∀ p ∈ ds, Fit d p.2) :
    Mirrors base d S n R o own
      (fun w' _ slots k => SlotsOf w' slots (cells o σ k ds) ∧ k = own.made) w
      (Eval.bindAll d run env ds) fun _ _ => Course.make ds.length := by
  induction ds generalizing w own with
  | nil =>
    exact silent fun m hm hl => ⟨[], m, own.made, own, w, rfl, .refl hm hl, ⟨.nil, rfl⟩,
      fun _ _ => .const _⟩
  | cons p ds ih =>
    obtain ⟨x, e⟩ := p
    obtain ⟨hp, hds⟩ := List.forall_mem_cons.mp hds
    rw [List.length_cons, make_succ]
    refine bind (bindVar hrun hd x hs hp) fun w₁ own₁ i k hw₁ hbound => ?_
    obtain ⟨hk, hmade, hi⟩ := hbound
    refine bind (ih (hs.mono hw₁) hds) fun w₂ own₂ slots k' hw₂ hbound => ?_
    obtain ⟨hslots, hk'⟩ := hbound
    refine ret ⟨.cons ⟨rfl, Chart.entry_mono hw₂ hi⟩ ?_, hk⟩
    rw [hk', hmade, ← hk] at hslots
    exact hslots

/-! ### Definitions -/

/-- Filling a frame in which every name is defined once. -/
theorem fill {env : Env} {τ : Scope} {f : FrameId} {ds : List (String × Expr)}
    (hf : w.scopes[f]? = some τ) (hs : Stack w env τ) (hfit : ∀ p ∈ ds, Fit d p.2)
    (hown : ∀ p ∈ cells o τ own.made ds, τ.own? base p.1 = some p.2) :
    Mirrors base d S n R o own (fun _ _ _ k => k = own.made) w (Eval.fill d run f env ds)
      fun _ _ => Course.make ds.length := by
  induction ds generalizing w own with
  | nil =>
    exact silent fun m hm hl => ⟨(), m, own.made, own, w, rfl, .refl hm hl, rfl,
      fun _ _ => .const _⟩
  | cons p ds ih =>
    obtain ⟨x, e⟩ := p
    obtain ⟨hp, hfit⟩ := List.forall_mem_cons.mp hfit
    obtain ⟨hx, hown⟩ := List.forall_mem_cons.mp hown
    rw [List.length_cons, make_succ]
    refine bind (bindVar hrun hd x hs hp) fun w₁ own₁ i k hw₁ hbound => ?_
    obtain ⟨hk, hmade, hi⟩ := hbound
    have hset : Mirrors base d S n R o own₁ (fun w' own' _ (_ : Unit) => own' = own₁) w₁
        (Eval.setSlot f x i) fun _ _ => pure () := by
      refine silent fun m hm hl => ⟨(), _, (), own₁, w₁, rfl, Quiet.onward (.setSlot hm hl
        (Chart.scope_mono hw₁ hf) fun _ => ⟨_, hx, ?_⟩), rfl, fun _ _ => .const _⟩
      rw [← hk]
      exact hi
    refine bind_unit hset fun w₂ own₂ _ hw₂ heq => ?_
    have hle := Chart.le_trans hw₁ hw₂
    rw [← bind_pure (Eval.fill d run f env ds)]
    refine bind (ih (Chart.scope_mono hle hf) (hs.mono hle) hfit ?_) fun _ _ _ _ _ _ => ret hk
    rw [heq, hmade]
    exact hown

omit hrun hd in
/-- In call by value placeholders may stand for the cells. -/
theorem slot_of_placeholders (hv : d.strategy = .value) {slots : List (String × BindingId)}
    {ts : List (String × Entry)} (hnames : slots.map (·.1) = ts.map (·.1))
    (hslots : ∀ s ∈ slots, w.entries[s.2]? = some none) (x : String) :
    Slot d w (lastOf? x ts) (lastOf? x slots) := by
  cases hl : lastOf? x ts with
  | none => exact lastOf?_eq_none hnames hl
  | some t =>
    cases hs : lastOf? x slots with
    | none =>
      rw [lastOf?_eq_none hnames.symm hs] at hl
      cases hl
    | some i => exact ⟨i, rfl, .inr ⟨hv, hslots _ (mem_of_lastOf? hs)⟩⟩

/-- A recursive `let` of call by value fills its frame while the definitions are evaluated. -/
theorem define_value (hv : d.strategy = .value) (hr : d.recursiveLet = true) {env : Env} {σ : Scope}
    {ds : List (String × Expr)} (hs : Stack w env σ) (hds : ∀ p ∈ ds, Fit d p.2)
    (hnd : (ds.map (·.1)).Nodup) :
    Mirrors base d S n R o own (fun w' _ env' k => Stack w' env' (.letrec o k ds σ)) w
      (Eval.define d run env ds) fun _ _ => Course.make ds.length := by
  simp only [Eval.define, hr, if_true]
  have hres : Mirrors base d S n R o own (fun w' own' slots (_ : Unit) => own' = own ∧
      slots.map (·.1) = ds.map (·.1) ∧ ∀ s ∈ slots, w'.entries[s.2]? = some none) w
      (Eval.reserve ds) fun _ _ => pure () := by
    refine silent fun m hm hl => ?_
    obtain ⟨slots, m', w', hx, hq, -, -, hslots⟩ := Quiet.reserve hm hl ds
    exact ⟨slots, m', (), own, w', hx, hq.onward, ⟨rfl, hslots⟩, fun _ _ => .const _⟩
  refine bind_unit hres fun w₁ own₁ slots hw₁ hreserved => ?_
  obtain ⟨rfl, hnames, hslots⟩ := hreserved
  obtain ⟨τ, hτ⟩ : ∃ τ : Scope, τ = .letrec o own₁.made ds σ := ⟨_, rfl⟩
  have hτown : ∀ x, τ.own? base x = lastOf? x (cells o τ own₁.made ds) := by
    intro x
    rw [hτ]
    rfl
  have hframe : Mirrors base d S n R o own₁ (fun w' own' f (_ : Unit) => own' = own₁ ∧
      w'.scopes[f]? = some τ) w₁ (Eval.newFrame (Frame.ofSlots slots)) fun _ _ => pure () := by
    refine silent fun m hm hl => ⟨m.frames.size, _, (), own₁, _, rfl, Quiet.onward
      (.addFrame (σ := τ) hm hl fun _ x => ?_), ⟨rfl, ?_⟩, fun _ _ => .const _⟩
    · rw [get?_ofSlots, hτown]
      exact slot_of_placeholders hv (hnames.trans (map_fst_cells _ _ _ _).symm) hslots x
    · rw [Chart.scopes_addScope, if_pos hm.frames]
  refine bind_unit hframe fun w₂ own₂ f hw₂ hmade => ?_
  obtain ⟨rfl, hf⟩ := hmade
  have hs₂ : Stack w₂ (f :: env) τ := by
    rw [hτ] at hf ⊢
    exact .letrec hf (hs.mono (Chart.le_trans hw₁ hw₂))
  rw [← bind_pure (Course.make ds.length)]
  refine bind (fill hrun hd hf hs₂ hds fun p hp => ?_) fun w₃ own₃ _ k hw₃ hk => ret ?_
  · have hnd' : ((cells o τ own₂.made ds).map (·.1)).Nodup := by
      rw [map_fst_cells]
      exact hnd
    rw [hτown, lastOf?_of_nodup hnd' hp]
  · rw [hk, ← hτ]
    exact hs₂.mono hw₃

variable (run) in
omit hrun hd in
/-- Filling a frame in call by need points its slots to new cells. -/
theorem fill_need (hneed : d.strategy = .need) {f : FrameId} {env : Env} {τ : Scope}
    (ds : List (String × Expr)) {m : Machine} (hm : ModelsBut (· = f) base d S w m)
    (hl : Ledger S R o w m own) (hf : w.scopes[f]? = some τ) (hs : Stack w env τ) :
    ∃ m' own' w', Eval.fill d run f env ds m = .ok () m' ∧
      Quiet (· = f) base d S R o w m own w' m' own' ∧ own'.made = own.made + ds.length ∧
      ∃ slots, SlotsOf w' slots (cells o τ own.made ds) ∧
        ∀ x, (m'.frame f).get? x = (lastOf? x slots).or ((m.frame f).get? x) := by
  induction ds generalizing w m own with
  | nil => exact ⟨m, own, w, rfl, .refl hm hl, rfl, [], .nil, fun x => rfl⟩
  | cons p ds ih =>
    obtain ⟨x, e⟩ := p
    have hq := Quiet.addPending hm hl hneed hs x e
    have hf₁ := Chart.scope_mono hq.le hf
    have hq₁ := Quiet.setSlot (x := x) (i := m.bindings.size) hq.models hq.ledger hf₁
      fun h => absurd rfl h
    obtain ⟨m', own', w', hrest, hq₂, hmade, slots, hslots, hget⟩ :=
      ih hq₁.models hq₁.ledger hf₁ (hs.mono hq.le)
    refine ⟨m', own', w', ?_, (hq.trans hq₁).trans hq₂, ?_, (x, m.bindings.size) :: slots,
      .cons ⟨rfl, ?_⟩ hslots, fun y => ?_⟩
    · simp only [Eval.fill, Eval.bindVar, hneed, Eval.newBinding, Eval.setSlot, Bind.bind,
        EStateM.bind]
      exact hrest
    · rw [hmade, List.length_cons]
      simp only
      omega
    · refine Chart.entry_mono hq₂.le ?_
      exact (Chart.entries_addEntry w _ _).trans (if_pos hm.bindings)
    · have hlt := hq.models.lt_of_scope hf₁
      rw [hget, Machine.frame_setSlot _ hlt, if_pos rfl, Frame.get?_set, lastOf?]
      cases lastOf? y slots with
      | some i => rfl
      | none =>
        by_cases hxy : x = y
        · simp [hxy]
        · simp [hxy, Machine.frame, Machine.addBinding]

omit hrun hd in
/-- A recursive `let` of call by need builds its whole frame quietly. -/
theorem define_need (hneed : d.strategy = .need) (hr : d.recursiveLet = true) {env : Env}
    {σ : Scope} (ds : List (String × Expr)) (hs : Stack w env σ) :
    Mirrors base d S n R o own (fun w' _ env' k => Stack w' env' (.letrec o k ds σ)) w
      (Eval.define d run env ds) fun _ _ => Course.make ds.length := by
  refine silent fun m hm hl => ?_
  obtain ⟨τ, hτ⟩ : ∃ τ : Scope, τ = .letrec o own.made ds σ := ⟨_, rfl⟩
  -- the placeholders, and the frame that points to them
  obtain ⟨slots₀, m₁, w₁, hx₁, hq₁, hfr, hsc, hnames, -⟩ :=
    Quiet.reserve (hm.weaken (· = m.frames.size)) hl ds
  have hq₂ : Quiet (· = m.frames.size) base d S R o w₁ m₁ own (w₁.addScope τ)
      (m₁.addFrame (Frame.ofSlots slots₀)) own :=
    .addFrame hq₁.models hq₁.ledger fun h => absurd (by rw [hfr]) h
  have hf₂ : (w₁.addScope τ).scopes[m.frames.size]? = some τ := by
    rw [Chart.scopes_addScope, if_pos (by rw [hm.frames, hsc])]
  have hs₂ : Stack (w₁.addScope τ) (m.frames.size :: env) τ := by
    have houter : Stack (w₁.addScope τ) env σ := hs.mono (Chart.le_trans hq₁.le hq₂.le)
    subst hτ
    exact .letrec hf₂ houter
  -- the cells, and the frame that points to them
  obtain ⟨m₃, own₃, w₃, hx₃, hq₃, hmade, slots, hslots, hget⟩ :=
    fill_need run hneed ds hq₂.models hq₂.ledger hf₂ hs₂
  have hq := (hq₁.trans hq₂).trans hq₃
  have hown : own₃ = { own with made := own.made + ds.length } := by
    cases own₃
    cases hmade
    cases hq.reported
    cases hq.read
    rfl
  refine ⟨m.frames.size :: env, m₃, own.made, own₃, w₃, ?_, Quiet.onward { hq with models := ?_ },
    hτ ▸ hs₂.mono hq₃.le, fun _ _ => ?_⟩
  · simp only [Eval.define, hr, if_true, Eval.newFrame, Bind.bind, EStateM.bind, hx₁, hfr, hx₃]
    rfl
  · refine hq₃.models.models (Chart.scope_mono hq₃.le hf₂) fun x => ?_
    have hslot := hslots.slot_lastOf? (d := d) x
    have hτown : τ.own? base x = lastOf? x (cells o τ own.made ds) := by
      rw [hτ]
      rfl
    rw [hget x, Machine.frame_addFrame, if_pos (by rw [hfr]), get?_ofSlots, hτown]
    cases hlast : lastOf? x (cells o τ own.made ds) with
    | none =>
      rw [hlast] at hslot
      rw [lastOf?_eq_none (hnames.trans (map_fst_cells o τ own.made ds).symm) hlast,
        show lastOf? x slots = none from hslot]
      exact rfl
    | some t =>
      rw [hlast] at hslot
      obtain ⟨i, hi, ht⟩ := hslot
      rw [hi]
      exact ⟨i, rfl, ht⟩
  · rw [hown]
    exact .const _

/-- The environment of the body of a `let`. -/
theorem define {env : Env} {σ : Scope} {ds : List (String × Expr)} (hs : Stack w env σ)
    (hds : ∀ p ∈ ds, Fit d p.2) (hnd : d.strategy = .value → (ds.map (·.1)).Nodup) :
    Mirrors base d S n R o own (fun w' _ env' k => Stack w' env' (σ.define d.recursiveLet o k ds)) w
      (Eval.define d run env ds) fun _ _ => Course.make ds.length := by
  cases hr : d.recursiveLet with
  | true =>
    cases hst : d.strategy with
    | value => exact define_value hrun hd hst hr hs hds (hnd hst)
    | name => exact absurd hst hd
    | need => exact define_need hst hr ds hs
  | false =>
    simp only [Eval.define, hr, Scope.define]
    rw [← bind_pure (Course.make ds.length)]
    refine bind (bindAll hrun hd hs hds) fun w₁ own₁ slots k hw₁ hbound => ?_
    refine bind_unit (newFrame (hs.mono hw₁) hbound.1) fun w₂ own₂ f hw₂ hf => ?_
    exact ret hf

/-! ### Parts in sequence -/

omit hd in
theorem evalAll {env : Env} {σ : Scope} {es : List Expr} (hs : Stack w env σ)
    (hes : ∀ e ∈ es, Fit d e) :
    Mirrors base d S n R o own (fun w' _ vs us => List.Forall₂ (Stands d w') vs us) w
      (Eval.evalAll run env es) fun C k => Named.evalAll (eval base d.recursiveLet k C o) σ es := by
  induction es generalizing w own with
  | nil => exact ret (P := fun w' _ vs us => List.Forall₂ (Stands d w') vs us) .nil
  | cons e es ih =>
    obtain ⟨he, hes⟩ := List.forall_mem_cons.mp hes
    refine bind (hrun hs he) fun w₁ own₁ v u hw₁ hv => ?_
    refine bind (ih (hs.mono hw₁) hes) fun w₂ own₂ vs us hw₂ hvs => ?_
    exact ret (P := fun w' _ vs us => List.Forall₂ (Stands d w') vs us) (.cons (hv.mono hw₂) hvs)

theorem apply {env : Env} {σ : Scope} {v : Value} {u : Val} {as : List Expr} (hs : Stack w env σ)
    (hv : Stands d w v u) (has : ∀ a ∈ as, Fit d a) :
    Mirrors base d S n R o own (fun w _ => Stands d w) w (Eval.apply d run env v as)
      fun C k => Named.apply (eval base d.recursiveLet k C o) o σ u as := by
  cases hv with
  | @closure i c ps b cenv τ hi hcs hb =>
    simp only [Eval.apply, Named.apply]
    split
    · have hzip : ∀ p ∈ ps.zip as, Fit d p.2 := fun p hp => has p.2 (List.of_mem_zip hp).2
      refine bind (bindAll hrun hd hs hzip) fun w₁ own₁ slots k hw₁ hbound => ?_
      refine bind_unit (newFrame (hcs.mono hw₁) hbound.1) fun w₂ own₂ f hw₂ hf => ?_
      exact hrun hf hb
    · exact fail rfl
  | prim p =>
    simp only [Eval.apply, Named.apply]
    split
    · exact bind (evalAll hrun hs has) fun w₁ own₁ vs us hw₁ hvs => callPrim p hvs
    · exact fail rfl
  | cons ha hr =>
    have he := (Stands.cons ha hr).sameError .notFunction (fun _ => rfl) fun hk => by cases hk
    exact fail he.1
  | _ => exact fail rfl

omit hd in
theorem connect {env : Env} {σ : Scope} (op : Connective) {l r : Expr} (hs : Stack w env σ)
    (hl : Fit d l) (hr : Fit d r) :
    Mirrors base d S n R o own (fun w _ => Stands d w) w (Eval.connect run op env l r)
      fun C k => Named.connect (eval base d.recursiveLet k C o) σ op l r := by
  unfold Eval.connect Named.connect
  refine bind (hrun hs hl) fun w₁ own₁ a a' hw₁ ha => ?_
  refine bind (lift (P := fun _ _ => Eq) (results_asBool ha.bare_eq_bare _))
    fun w₂ own₂ b b' hw₂ hb => ?_
  subst hb
  split
  · exact ret (P := fun w _ => Stands d w) (.bool b)
  · refine bind (hrun (hs.mono (Chart.le_trans hw₁ hw₂)) hr) fun w₃ own₃ c c' hw₃ hc => ?_
    refine bind (lift (P := fun _ _ => Eq) (results_asBool hc.bare_eq_bare _))
      fun w₄ own₄ t t' hw₄ ht => ?_
    subst ht
    exact ret (P := fun w _ => Stands d w) (.bool t)

omit hd in
theorem branch {env : Env} {σ : Scope} {t c a : Expr} (hs : Stack w env σ) (ht : Fit d t)
    (hc : Fit d c) (ha : Fit d a) :
    Mirrors base d S n R o own (fun w _ => Stands d w) w (Eval.branch run env t c a)
      fun C k => Named.branch (eval base d.recursiveLet k C o) σ t c a := by
  unfold Eval.branch Named.branch
  refine bind (hrun hs ht) fun w₁ own₁ v u hw₁ hv => ?_
  have he := hv.sameError (.testNotBool (.ite t c a)) (fun _ => rfl) nofun
  cases hv with
  | bool b =>
    cases b with
    | true => exact hrun (hs.mono hw₁) hc
    | false => exact hrun (hs.mono hw₁) ha
  | _ => exact fail he.1

/-- **One evaluation mirrors a named one** if the nested evaluations do. -/
theorem step {env : Env} {σ : Scope} {e : Expr} (hs : Stack w env σ) (he : Fit d e) :
    Mirrors base d S n R o own (fun w _ => Stands d w) w (Eval.step d run env e)
      fun C k => Named.step base d.recursiveLet (eval base d.recursiveLet k) C o σ e := by
  cases e with
  | int i => exact ret (P := fun w _ => Stands d w) (.int i)
  | bool b => exact ret (P := fun w _ => Stands d w) (.bool b)
  | null => exact ret (P := fun w _ => Stands d w) .empty
  | prim p => exact ret (P := fun w _ => Stands d w) (.prim p)
  | var x => exact var hrun x hs
  | unary op a =>
    have ha : Fit d a := fun hv => by cases he hv; assumption
    exact bind (hrun hs ha) fun w₁ own₁ v u hw₁ hv =>
      lift (P := fun w _ => Stands d w) (results_ofValue (results_applyUnary hv.bare_eq_bare op))
  | binary op l r =>
    have hl : Fit d l := fun hv => by cases he hv; assumption
    have hr : Fit d r := fun hv => by cases he hv; assumption
    simp only [Eval.step, Named.step]
    cases Connective.ofSymbol? op with
    | some c => exact connect hrun c hs hl hr
    | none =>
      refine bind (hrun hs hl) fun w₁ own₁ a a' hw₁ ha => ?_
      refine bind (hrun (hs.mono hw₁) hr) fun w₂ own₂ b b' hw₂ hb => ?_
      intro m hm hl
      exact lift (P := fun w _ => Stands d w)
        (results_applyBinary hl.closures (ha.mono hw₂) hb op) m hm hl
  | ite t c a =>
    refine branch hrun hs ?_ ?_ ?_ <;> exact fun hv => by cases he hv; assumption
  | map ps b =>
    have hb : Fit d b := fun hv => by cases he hv; assumption
    exact newClosure hs hb
  | app f as =>
    have hf : Fit d f := fun hv => by cases he hv; assumption
    have has : ∀ a ∈ as, Fit d a := fun a ha hv => by cases he hv with | app _ h => exact h a ha
    exact bind (hrun hs hf) fun w₁ own₁ v u hw₁ hv => apply hrun hd (hs.mono hw₁) hv has
  | letIn ds b =>
    have hb : Fit d b := fun hv => by cases he hv; assumption
    have hds : ∀ p ∈ ds, Fit d p.2 := fun p hp hv => by
      cases he hv with | letIn _ h _ => exact h p hp
    have hnd : d.strategy = .value → (ds.map (·.1)).Nodup := fun hv => by cases he hv; assumption
    exact bind (define hrun hd hs hds hnd) fun w₁ own₁ env' k hw₁ hs' => hrun hs' hb
  | datum s i => exact fail rfl

end Parts

end Mirrors

/-- **Every evaluation by value or by need mirrors the named one.** -/
theorem mirrors_eval {base : Machine} {d : Discipline} {S : Name → Nat} (hd : d.strategy ≠ .name)
    (n : Nat) {R : List Name} {o : Name} {own : Own} {w : Chart} {env : Env} {σ : Scope} {e : Expr}
    (hs : Stack w env σ) (he : Fit d e) :
    Mirrors base d S n R o own (fun w _ => Stands d w) w (Eval.eval d n env e)
      fun C k => eval base d.recursiveLet k C o σ e := by
  induction n generalizing R o own w env σ e with
  | zero =>
    intro m hm hl
    refine ⟨fun v m' h' => (nomatch h'), fun _ s m' h' => ?_⟩
    cases h'
    exact ⟨nofun, fun _ => rfl, w, Chart.le_refl w, hm, hl.toBooks, .of_made rfl⟩
  | succ n ih =>
    intro m hm hl
    -- the named evaluation at the bound `k + 1` is a step of those at the bound `k`
    obtain ⟨hok, hstop⟩ := Mirrors.step ih hd hs he m hm hl
    refine ⟨fun v m' h' => ?_, fun hneed s m' h' => ?_⟩
    · obtain ⟨u, own', w', hon, hv, hconv⟩ := hok v m' h'
      exact ⟨u, own', w', hon, hv, fun C hC => (hconv C hC).of_succ rfl⟩
    · obtain ⟨herr, hdeep, hleft⟩ := hstop hneed s m' h'
      refine ⟨fun e he => ?_, hdeep, hleft⟩
      obtain ⟨e', hee, hc⟩ := herr e he
      exact ⟨e', hee, hc.of_succ rfl⟩

end Named

end CallBy
