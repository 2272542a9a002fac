import CallBy.Proofs.Operations
import CallBy.Proofs.Start
import CallBy.Proofs.Watch

/-!
Without recursive definitions nothing refers to itself.

What is reachable in call by need without recursive `let` can be listed so that everything refers to
later entries only (`Machine.Ranked`). New bindings and frames go to the front. While a binding is
computed, its evaluator sees no more than what stands behind it in the list; what this evaluator
makes, and the value it comes to, are inserted there, so the list is none of the order in which
addresses were taken.

* `Machine.Reaches m env`: what an environment leads to, through frames, expressions that wait,
  values and closures;
* `Tidy P x R`: a computation in sight of the list `P` meets no binding that is being computed, and
  leaves a machine with such a list again;
* `need_acyclic`: no evaluation is stopped by a self reference, and at no moment of a run is a
  binding that is being computed reachable for the evaluator at work.
-/

namespace CallBy

/-- What environments lead to: frames, and the bindings that these point to. -/
inductive Node where
  | frame (f : FrameId)
  | cell (i : BindingId)
  deriving DecidableEq

/-- The frames of the closures of a value. -/
def Value.frames : Value → List FrameId
  | .cons a r => a.frames ++ r.frames
  | .closure _ _ _ env => env
  | _ => []

/-- The frames that a binding holds. -/
def Binding.frames : Binding → List FrameId
  | .undefined _ => []
  | .value _ v | .need _ (.done v) => v.frames
  | .name _ _ env | .need _ (.pending _ env) | .need _ (.running _ env) => env

namespace Machine

/-- What a frame or a binding refers to. -/
def refs (m : Machine) : Node → List Node
  | .frame f => (m.frame f).slots.map fun s => .cell s.2
  | .cell i => (m.binding i).frames.map .frame

/-- What is reachable from an environment. -/
inductive Reaches (m : Machine) (env : Env) : Node → Prop
  | env {f : FrameId} : f ∈ env → Reaches m env (.frame f)
  | ref {a b : Node} : Reaches m env a → b ∈ m.refs a → Reaches m env b

/-- No binding that is being computed is reachable from the environment. -/
def Clear (m : Machine) (env : Env) : Prop := ∀ i, m.Reaches env (.cell i) → ¬ m.IsRunning i

/-- The address is in use. -/
def InUse (m : Machine) : Node → Prop
  | .frame f => f < m.frames.size
  | .cell i => i < m.bindings.size

/-! ### Lists in which everything refers to later entries -/

/-- Every entry of the list is in use, stands there once, and refers to later entries only. -/
inductive Ranked (m : Machine) : List Node → Prop
  | nil : Ranked m []
  | cons {a : Node} {P : List Node} : a ∉ P → m.InUse a → m.refs a ⊆ P → Ranked m P →
      Ranked m (a :: P)

namespace Ranked

variable {m m' : Machine} {P A B B' : List Node} {a : Node}

theorem inUse (h : m.Ranked P) (ha : a ∈ P) : m.InUse a := by
  induction h with
  | nil => cases ha
  | cons _ huse _ _ ih =>
    rcases List.mem_cons.mp ha with rfl | ha
    · exact huse
    · exact ih ha

/-- What an entry refers to is in the list. -/
theorem closed (h : m.Ranked P) (ha : a ∈ P) : m.refs a ⊆ P := by
  induction h with
  | nil => cases ha
  | cons _ _ hrefs _ ih =>
    rcases List.mem_cons.mp ha with rfl | ha
    · exact List.Subset.trans hrefs (List.subset_cons_self _ _)
    · exact List.Subset.trans (ih ha) (List.subset_cons_self _ _)

theorem of_append (h : m.Ranked (A ++ B)) : m.Ranked B := by
  induction A with
  | nil => exact h
  | cons a A ih =>
    cases h with
    | cons _ _ _ h => exact ih h

theorem not_mem_of_append (h : m.Ranked (A ++ B)) (ha : a ∈ A) : a ∉ B := by
  induction A with
  | nil => cases ha
  | cons b A ih =>
    cases h with
    | cons hnot _ _ h =>
      rcases List.mem_cons.mp ha with rfl | ha
      · exact fun hB => hnot (List.mem_append_right A hB)
      · exact ih h ha

/-- What stands behind may be replaced by more, if nothing changes for what stands in front. -/
theorem graft (h : m.Ranked (A ++ B)) (h' : m'.Ranked B') (hsub : B ⊆ B')
    (hA : ∀ a ∈ A, a ∉ B' ∧ m'.InUse a ∧ m'.refs a = m.refs a) : m'.Ranked (A ++ B') := by
  induction A with
  | nil => exact h'
  | cons a A ih =>
    cases h with
    | cons hnot _ hrefs h =>
      obtain ⟨⟨hB', huse, heq⟩, hA⟩ := List.forall_mem_cons.mp hA
      refine .cons (fun ha => ?_) huse (fun b hb => ?_) (ih h hA)
      · rcases List.mem_append.mp ha with ha | ha
        · exact hnot (List.mem_append_left B ha)
        · exact hB' ha
      · rw [heq] at hb
        rcases List.mem_append.mp (hrefs hb) with hb | hb
        · exact List.mem_append_left B' hb
        · exact List.mem_append_right A (hsub hb)

theorem congr (h : m.Ranked P) (huse : ∀ a ∈ P, m'.InUse a)
    (hrefs : ∀ a ∈ P, m'.refs a = m.refs a) : m'.Ranked P := by
  have h : m.Ranked (P ++ []) := by rwa [List.append_nil]
  have h' : m'.Ranked (P ++ []) :=
    h.graft .nil (List.Subset.refl _) fun a ha => ⟨nofun, huse a ha, hrefs a ha⟩
  rwa [List.append_nil] at h'

end Ranked

/-- **The machine in sight of an evaluator**: everything refers to later entries only, and nothing
is being computed. -/
structure Sees (m : Machine) (P : List Node) : Prop where
  ranked : m.Ranked P
  idle : ∀ i, .cell i ∈ P → ¬ m.IsRunning i

/-- What a computation in sight of `P` may do to a machine, if in the end `P'` is in sight: what it
adds is new, frames stay as they are and so do the bindings out of sight. -/
structure Adds (m : Machine) (P : List Node) (m' : Machine) (P' : List Node) : Prop where
  subset : P ⊆ P'
  fresh : ∀ a ∈ P', a ∈ P ∨ ¬ m.InUse a
  inUse : ∀ a, m.InUse a → m'.InUse a
  frame : ∀ f, m.InUse (.frame f) → m'.frame f = m.frame f
  binding : ∀ i, m.InUse (.cell i) → .cell i ∉ P → m'.binding i = m.binding i

namespace Adds

variable {m m' m'' : Machine} {P P' P'' : List Node}

theorem refl (m : Machine) (P : List Node) : m.Adds P m P :=
  ⟨List.Subset.refl P, fun _ h => .inl h, fun _ h => h, fun _ _ => rfl, fun _ _ _ => rfl⟩

theorem trans (h : m.Adds P m' P') (h' : m'.Adds P' m'' P'') : m.Adds P m'' P'' := by
  refine ⟨List.Subset.trans h.subset h'.subset, fun a ha => ?_,
    fun a ha => h'.inUse a (h.inUse a ha),
    fun f hf => (h'.frame f (h.inUse _ hf)).trans (h.frame f hf), fun i hi hP => ?_⟩
  · rcases h'.fresh a ha with ha | ha
    · exact h.fresh a ha
    · exact .inr fun hm => ha (h.inUse a hm)
  · have hP' : .cell i ∉ P' := fun hmem => (h.fresh _ hmem).elim hP fun hnew => hnew hi
    exact (h'.binding i (h.inUse _ hi) hP').trans (h.binding i hi hP)

/-- What is in use and out of sight refers to what it did. -/
theorem refs_eq (h : m.Adds P m' P') {a : Node} (ha : m.InUse a) (hP : a ∉ P) :
    m'.refs a = m.refs a := by
  cases a with
  | frame f => simp only [refs, h.frame f ha]
  | cell i => simp only [refs, h.binding i ha hP]

end Adds

namespace Sees

variable {m m' : Machine} {P : List Node}

/-- Nothing is being computed that is reachable from an environment in sight. -/
theorem clear (h : m.Sees P) {env : Env} (henv : ∀ f ∈ env, .frame f ∈ P) : m.Clear env := by
  have hmem : ∀ a, m.Reaches env a → a ∈ P := by
    intro a ha
    induction ha with
    | env hf => exact henv _ hf
    | ref _ hb ih => exact h.ranked.closed ih hb
  exact fun i hi => h.idle i (hmem _ hi)

/-- Only frames and bindings matter. -/
theorem congr (h : m.Sees P) (m' : Machine) (hf : m'.frames = m.frames)
    (hb : m'.bindings = m.bindings) : m'.Sees P ∧ m.Adds P m' P := by
  have hframe : ∀ f, m'.frame f = m.frame f := fun f => by simp only [frame, hf]
  have hbind : ∀ i, m'.binding i = m.binding i := fun i => by simp only [binding, hb]
  have huse : ∀ a, m.InUse a → m'.InUse a := fun a ha => by
    cases a <;> simpa only [InUse, hf, hb] using ha
  refine ⟨⟨h.ranked.congr (fun a ha => huse a (h.ranked.inUse ha)) fun a _ => ?_, ?_⟩,
    List.Subset.refl P, fun _ ha => .inl ha, huse, fun f _ => hframe f, fun i _ _ => hbind i⟩
  · cases a <;> simp only [refs, hframe, hbind]
  · simpa only [IsRunning, hbind] using h.idle

/-- A new binding that has not begun and whose frames are in sight. -/
theorem addBinding (h : m.Sees P) {b : Binding} (hnew : b.IsNew)
    (hb : ∀ f ∈ b.frames, .frame f ∈ P) :
    (m.addBinding b).Sees (.cell m.bindings.size :: P) ∧
      m.Adds P (m.addBinding b) (.cell m.bindings.size :: P) := by
  have hnot : ¬ m.InUse (.cell m.bindings.size) := Nat.lt_irrefl _
  have huse : ∀ a, m.InUse a → (m.addBinding b).InUse a := by
    intro a ha
    cases a with
    | frame f => exact ha
    | cell i => exact Nat.lt_of_lt_of_le ha (by simp)
  have hadds : m.Adds P (m.addBinding b) (.cell m.bindings.size :: P) := by
    refine ⟨List.subset_cons_self _ _, fun a ha => ?_, huse, fun _ _ => rfl, fun i hi _ => ?_⟩
    · rcases List.mem_cons.mp ha with rfl | ha
      · exact .inr hnot
      · exact .inl ha
    · exact binding_addBinding_of_lt m b hi
  refine ⟨⟨.cons (fun hmem => hnot (h.ranked.inUse hmem)) ?_ (fun a ha => ?_) ?_,
    fun i hi hr => ?_⟩,
    hadds⟩
  · simp [InUse]
  · obtain ⟨f, hf, rfl⟩ := List.mem_map.mp ha
    rw [binding_addBinding, if_pos rfl] at hf
    exact hb f hf
  · refine h.ranked.congr (fun a ha => huse a (h.ranked.inUse ha)) fun a ha => ?_
    cases a with
    | frame f => rfl
    | cell i => simp only [refs, binding_addBinding_of_lt m b (h.ranked.inUse ha)]
  · obtain ⟨x, e, env, hr⟩ := hr
    rw [binding_addBinding] at hr
    split at hr
    · obtain ⟨e', env', heq⟩ := hnew x _ hr
      cases heq
    · next hne =>
      rcases List.mem_cons.mp hi with heq | hi
      · exact hne (Node.cell.inj heq)
      · exact h.idle i hi ⟨x, e, env, hr⟩

/-- A new frame whose bindings are in sight. -/
theorem addFrame (h : m.Sees P) {F : Frame} (hF : ∀ s ∈ F.slots, .cell s.2 ∈ P) :
    (m.addFrame F).Sees (.frame m.frames.size :: P) ∧
      m.Adds P (m.addFrame F) (.frame m.frames.size :: P) := by
  have hnot : ¬ m.InUse (.frame m.frames.size) := Nat.lt_irrefl _
  have huse : ∀ a, m.InUse a → (m.addFrame F).InUse a := by
    intro a ha
    cases a with
    | frame f => exact Nat.lt_of_lt_of_le ha (by simp)
    | cell i => exact ha
  refine ⟨⟨.cons (fun hmem => hnot (h.ranked.inUse hmem)) ?_ (fun a ha => ?_) ?_, fun i hi => ?_⟩,
    List.subset_cons_self _ _, fun a ha => ?_, huse, fun f hf => frame_addFrame_of_lt m F hf,
    fun _ _ _ => rfl⟩
  · simp [InUse]
  · obtain ⟨s, hs, rfl⟩ := List.mem_map.mp ha
    rw [frame_addFrame, if_pos rfl] at hs
    exact hF s hs
  · refine h.ranked.congr (fun a ha => huse a (h.ranked.inUse ha)) fun a ha => ?_
    cases a with
    | frame f => simp only [refs, frame_addFrame_of_lt m F (h.ranked.inUse ha)]
    | cell i => rfl
  · exact h.idle i ((List.mem_cons.mp hi).resolve_left nofun)
  · rcases List.mem_cons.mp ha with rfl | ha
    · exact .inr hnot
    · exact .inl ha

section Force

variable {A B B' : List Node} {i : BindingId} {b : Binding}

theorem refs_setBinding_of_ne {a : Node} (ha : a ≠ .cell i) :
    (m.setBinding i b).refs a = m.refs a := by
  cases a with
  | frame f => rfl
  | cell j =>
    have hne : i ≠ j := fun h => ha (h ▸ rfl)
    simp only [refs, binding_setBinding_of_ne m b hne]

theorem inUse_setBinding (a : Node) : (m.setBinding i b).InUse a ↔ m.InUse a := by
  cases a <;> simp [InUse, setBinding]

/-- Out of sight a binding may be anything. -/
theorem setBinding (h : m.Sees B) (hi : .cell i ∉ B) : (m.setBinding i b).Sees B := by
  refine ⟨h.ranked.congr (fun a ha => (inUse_setBinding a).mpr (h.ranked.inUse ha))
    fun a ha => refs_setBinding_of_ne fun heq => hi (heq ▸ ha), fun j hj hr => ?_⟩
  have hne : i ≠ j := fun heq => hi (heq ▸ hj)
  simp only [IsRunning, binding_setBinding_of_ne m b hne] at hr
  exact h.idle j hj hr

section After

/-! The evaluator of the binding has seen what stands behind it, and has added to that. -/

variable {b₀ : Binding} {m₂ : Machine} (hadds : (m.setBinding i b₀).Adds B m₂ B')

include hadds

theorem inUse_after {a : Node} (ha : m.InUse a) : (m₂.setBinding i b).InUse a :=
  (inUse_setBinding a).mpr (hadds.inUse a ((inUse_setBinding a).mpr ha))

/-- What was there stands behind the binding only if it did before. -/
theorem not_mem_after {a : Node} (ha : m.InUse a) (hnot : a ∉ B) : a ∉ B' := fun hmem =>
  (hadds.fresh a hmem).elim hnot fun hnew => hnew ((inUse_setBinding a).mpr ha)

theorem binding_after {j : BindingId} (hj : m.InUse (.cell j)) (hne : j ≠ i) (hnot : .cell j ∉ B) :
    (m₂.setBinding i b).binding j = m.binding j := by
  rw [binding_setBinding_of_ne _ _ (Ne.symm hne),
    hadds.binding j ((inUse_setBinding _).mpr hj) hnot, binding_setBinding_of_ne _ _ (Ne.symm hne)]

theorem binding_after_self (hi : m.InUse (.cell i)) : (m₂.setBinding i b).binding i = b :=
  binding_setBinding_self _ _ (hadds.inUse _ ((inUse_setBinding _).mpr hi))

theorem refs_after {a : Node} (ha : m.InUse a) (hne : a ≠ .cell i) (hnot : a ∉ B) :
    (m₂.setBinding i b).refs a = m.refs a := by
  rw [refs_setBinding_of_ne hne, hadds.refs_eq ((inUse_setBinding a).mpr ha) hnot,
    refs_setBinding_of_ne hne]

theorem adds_after (A : List Node) :
    m.Adds (A ++ .cell i :: B) (m₂.setBinding i b) (A ++ .cell i :: B') := by
  refine ⟨?_, fun a ha => ?_, fun a ha => inUse_after hadds ha,
    fun f hf => hadds.frame f ((inUse_setBinding (.frame f)).mpr hf), fun j hj hnot => ?_⟩
  · exact List.append_subset.mpr ⟨List.subset_append_left _ _,
      List.Subset.trans (List.cons_subset_cons _ hadds.subset) (List.subset_append_right _ _)⟩
  · simp only [List.mem_append, List.mem_cons] at ha ⊢
    rcases ha with ha | rfl | ha
    · exact .inl (.inl ha)
    · exact .inl (.inr (.inl rfl))
    · rcases hadds.fresh a ha with ha | ha
      · exact .inl (.inr (.inr ha))
      · exact .inr fun hm => ha ((inUse_setBinding a).mpr hm)
  · simp only [List.mem_append, List.mem_cons, not_or] at hnot
    exact binding_after hadds hj (fun heq => hnot.2.1 (heq ▸ rfl)) hnot.2.2

/-- **The end of the computation of a binding.** What the evaluator has added is inserted behind the
binding. -/
theorem sees_after (h : m.Sees (A ++ .cell i :: B)) (h' : m₂.Sees B')
    (hb : ∀ f ∈ b.frames, .frame f ∈ B') (hidle : ∀ x e env, b ≠ .need x (.running e env)) :
    (m₂.setBinding i b).Sees (A ++ .cell i :: B') := by
  have hsplit := h.ranked
  cases hsplit.of_append with
  | cons hiB hiuse _ hB =>
    have hiB' := not_mem_after hadds hiuse hiB
    have hself := binding_after_self (b := b) hadds hiuse
    have hfront : ∀ a ∈ A, m.InUse a ∧ a ≠ .cell i ∧ a ∉ B := fun a ha =>
      ⟨hsplit.inUse (List.mem_append_left _ ha),
        fun heq => hsplit.not_mem_of_append ha (heq ▸ List.mem_cons_self),
        fun hmem => hsplit.not_mem_of_append ha (List.mem_cons_of_mem _ hmem)⟩
    have hranked : (m₂.setBinding i b).Ranked (.cell i :: B') := by
      refine .cons hiB' (inUse_after hadds hiuse) (fun a ha => ?_) (h'.setBinding hiB').ranked
      obtain ⟨f, hf, rfl⟩ := List.mem_map.mp ha
      rw [hself] at hf
      exact hb f hf
    refine ⟨hsplit.graft hranked (List.cons_subset_cons _ hadds.subset) fun a ha => ?_,
      fun j hj => ?_⟩
    · obtain ⟨hause, hne, hnot⟩ := hfront a ha
      refine ⟨?_, inUse_after hadds hause, refs_after hadds hause hne hnot⟩
      simpa using ⟨hne, not_mem_after hadds hause hnot⟩
    · simp only [List.mem_append, List.mem_cons] at hj
      rcases hj with hj | heq | hj
      · obtain ⟨hjuse, hne, hnot⟩ := hfront _ hj
        simp only [IsRunning, binding_after hadds hjuse (fun heq => hne (heq ▸ rfl)) hnot]
        exact h.idle j (List.mem_append_left _ hj)
      · cases heq
        simp only [IsRunning, hself]
        exact fun ⟨x, e, env, hr⟩ => hidle x e env hr
      · exact (h'.setBinding hiB').idle j hj

end After

end Force

end Sees

end Machine

/-! ### Computations -/

namespace Frame

theorem mem_setSlots {s : String × BindingId} {x : String} {i : BindingId}
    {ss : List (String × BindingId)} (h : s ∈ setSlots x i ss) : s = (x, i) ∨ s ∈ ss := by
  fun_induction setSlots x i ss <;> grind

/-- The slots of a frame are among those that it is made of. -/
theorem mem_ofSlots {s : String × BindingId} {ss : List (String × BindingId)}
    (h : s ∈ (ofSlots ss).slots) : s ∈ ss := by
  have hfold : ∀ F : Frame, s ∈ (ss.foldl (fun F s => F.set s.1 s.2) F).slots →
      s ∈ ss ∨ s ∈ F.slots := by
    clear h
    induction ss with
    | nil => exact fun F h => .inr h
    | cons t ss ih =>
      intro F h
      rcases ih _ h with h | h
      · exact .inl (List.mem_cons_of_mem t h)
      · rcases mem_setSlots h with rfl | h
        · exact .inl List.mem_cons_self
        · exact .inr h
  exact (hfold empty h).resolve_right nofun

end Frame

open Machine

/-- How a computation in sight of `P` may end: in sight of more, and not by a self reference. -/
inductive Tidied (m : Machine) (P : List Node) {α : Type} (R : List Node → α → Prop) :
    EStateM.Result Stop Machine α → Prop
  | ok {a : α} {m' : Machine} {P' : List Node} : m.Adds P m' P' → m'.Sees P' → R P' a →
      Tidied m P R (.ok a m')
  | error {s : Stop} {m' : Machine} {P' : List Node} : m.Adds P m' P' → m'.Sees P' →
      (∀ err, s = .error err → err.kind ≠ .selfReference) → Tidied m P R (.error s m')

/-- **The computation, in sight of `P`, meets no binding that is being computed**, and leaves a
machine in which as much can be said; its result is as `R` says. -/
def Tidy (P : List Node) {α : Type} (x : Eval α) (R : List Node → α → Prop) : Prop :=
  ∀ m, m.Sees P → Tidied m P R (x m)

/-- The environment is in sight. -/
def InSight (P : List Node) (env : Env) : Prop := ∀ f ∈ env, Node.frame f ∈ P

theorem InSight.mono {P P' : List Node} (hP : P ⊆ P') {env : Env} (h : InSight P env) :
    InSight P' env := fun f hf => hP (h f hf)

theorem InSight.nil (P : List Node) : InSight P [] := fun _ h => absurd h List.not_mem_nil

namespace Tidy

variable {α β : Type} {P : List Node} {R : List Node → α → Prop}

theorem bind {x : Eval α} {f : α → Eval β} {R' : List Node → β → Prop} (hx : Tidy P x R)
    (hf : ∀ P' a, P ⊆ P' → R P' a → Tidy P' (f a) R') : Tidy P (x >>= f) R' := by
  intro m hm
  match hxm : x m, hx m hm with
  | .error s m₁, .error hadds hsees hs =>
    rw [Eval.bind_of_error hxm]
    exact .error hadds hsees hs
  | .ok a m₁, .ok hadds hsees ha =>
    rw [Eval.bind_of_ok hxm]
    match hfm : f a m₁, hf _ a hadds.subset ha m₁ hsees with
    | .error s m₂, .error hadds' hsees' hs => exact .error (hadds.trans hadds') hsees' hs
    | .ok b m₂, .ok hadds' hsees' hb => exact .ok (hadds.trans hadds') hsees' hb

theorem pure {a : α} (ha : R P a) : Tidy P (Pure.pure a) R :=
  fun m hm => .ok (.refl m P) hm ha

theorem fail {e : EvalError} (he : e.kind ≠ .selfReference) : Tidy P (Eval.fail e : Eval α) R := by
  refine fun m hm => .error (.refl m P) hm fun err h => ?_
  cases h
  exact he

theorem lift {r : Except EvalError α} (hok : ∀ a, r = .ok a → R P a)
    (herr : ∀ e, r = .error e → e.kind ≠ .selfReference) : Tidy P (Eval.lift r) R := by
  cases r with
  | ok a => exact pure (hok a rfl)
  | error e => exact fail (herr e rfl)

/-- An operation that sees nothing of closures. -/
theorem lift_of_results {r : Except EvalError Value} (h : Results OneValue r r) :
    Tidy P (Eval.lift r) fun P v => InSight P v.frames := by
  refine lift (fun v hv => ?_) fun e he => ?_
  · subst hv
    have hnone : v.hasClosure = false := h.2
    clear h
    induction v with
    | cons a r iha ihr =>
      simp only [Value.hasClosure, Bool.or_eq_false_iff] at hnone
      exact fun f hf => (List.mem_append.mp hf).elim (iha hnone.1 f) (ihr hnone.2 f)
    | closure => cases hnone
    | _ => exact .nil P
  · subst he
    exact h.2

theorem applyBinary (op : String) (a b : Value) :
    Tidy P (Eval.lift (CallBy.applyBinary op a b)) fun P v => InSight P v.frames := by
  unfold CallBy.applyBinary
  cases BinaryOp.ofSymbol? op with
  | none => exact fail nofun
  | some op => exact lift_of_results (results_apply rfl rfl op fun _ => rfl)

theorem asBool {v : Value} (op : String) : Tidy P (Eval.lift (v.asBool op)) fun _ _ => True := by
  refine lift (fun _ _ => trivial) fun e he => ?_
  have h := results_asBool (rfl : v.bare = v.bare) op
  rw [he] at h
  exact h.2

theorem newBinding {b : Binding} (hnew : b.IsNew) (hb : InSight P b.frames) :
    Tidy P (Eval.newBinding b) fun P i => .cell i ∈ P := by
  intro m hm
  obtain ⟨hsees, hadds⟩ := hm.addBinding hnew hb
  exact .ok hadds hsees List.mem_cons_self

theorem newFrame {F : Frame} (hF : ∀ s ∈ F.slots, .cell s.2 ∈ P) :
    Tidy P (Eval.newFrame F) fun P f => .frame f ∈ P := by
  intro m hm
  obtain ⟨hsees, hadds⟩ := hm.addFrame hF
  exact .ok hadds hsees List.mem_cons_self

theorem newClosure {ps : List String} {b : Expr} {env : Env} (henv : InSight P env) :
    Tidy P (Eval.newClosure ps b env) fun P v => InSight P v.frames := by
  intro m hm
  obtain ⟨hsees, hadds⟩ := hm.congr { m with closures := m.closures + 1 } rfl rfl
  exact .ok hadds hsees henv

/-- The binding of a variable of an environment in sight is in sight. -/
theorem lookup {env : Env} (henv : InSight P env) (x : String) :
    Tidy P (Eval.lookup env x) fun P i => .cell i ∈ P := by
  intro m hm
  unfold Eval.lookup
  cases hl : m.lookup? env x with
  | none =>
    refine .error (.refl m P) hm fun err h => ?_
    cases h
    exact nofun
  | some i =>
    obtain ⟨f, hf, hget⟩ := List.exists_of_findSome?_eq_some hl
    have hmem := List.mem_map_of_mem (f := fun s => Node.cell s.2) (mem_slots_of_getSlot? hget)
    exact .ok (.refl m P) hm (hm.ranked.closed (henv f hf) hmem)

/-- The result of a primitive holds no more than its arguments. -/
theorem call {p : Prim} {vs : List Value} (hvs : ∀ v ∈ vs, InSight P v.frames) :
    Tidy P (Eval.lift (p.call vs)) fun P v => InSight P v.frames := by
  have none : ∀ v : Value, v.frames = [] → InSight P v.frames := fun v h f hf => by
    rw [h] at hf
    cases hf
  unfold Prim.call
  split
  case h_9 a r =>
    split
    · exact pure fun f hf => (List.mem_append.mp hf).elim (hvs a (by simp) f) (hvs r (by simp) f)
    · exact fail nofun
  case h_10 a r => exact pure fun f hf => hvs (.cons a r) (by simp) f (List.mem_append_left _ hf)
  case h_12 a r => exact pure fun f hf => hvs (.cons a r) (by simp) f (List.mem_append_right _ hf)
  case h_14 v => exact pure (hvs v (by simp))
  all_goals first | exact pure (none _ rfl) | exact fail nofun

theorem callPrim {p : Prim} {vs : List Value} (hvs : ∀ v ∈ vs, InSight P v.frames) :
    Tidy P (Eval.callPrim p vs) fun P v => InSight P v.frames := by
  by_cases ht : ∃ v, p = .tick ∧ vs = [v]
  · obtain ⟨v, rfl, rfl⟩ := ht
    intro m hm
    obtain ⟨hsees, hadds⟩ := hm.congr (m.report v) rfl rfl
    exact .ok hadds hsees (hvs v (by simp))
  · rw [Eval.callPrim_eq_lift fun v hv => ht ⟨v, hv⟩]
    exact call hvs

/-- Making a frame of bindings in sight. -/
theorem ofSlots {slots : List (String × BindingId)} (hs : ∀ s ∈ slots, Node.cell s.2 ∈ P) :
    Tidy P (Eval.newFrame (Frame.ofSlots slots)) fun P f => .frame f ∈ P :=
  newFrame fun s hmem => hs s (Frame.mem_ofSlots hmem)

section Step

/-- Nested evaluations in sight of `P₀`, of more, and of an environment. -/
def Runs (P₀ : List Node) (run : Env → Expr → Eval Value) : Prop :=
  ∀ ⦃P : List Node⦄ ⦃env : Env⦄, P₀ ⊆ P → InSight P env → ∀ e,
    Tidy P (run env e) fun P v => InSight P v.frames

variable {run : Env → Expr → Eval Value}

theorem Runs.mono {P P' : List Node} (hP : P ⊆ P') (h : Runs P run) : Runs P' run :=
  fun _ _ hP' => h (List.Subset.trans hP hP')

/-- **Computing a binding.** The evaluator sees what stands behind the binding in the list. -/
theorem force (hrun : Runs [] run) {i : BindingId} {x : String} {e : Expr} {env : Env} {m : Machine}
    (hm : m.Sees P) (hi : .cell i ∈ P) (hb : m.binding i = .need x (.pending e env)) :
    Tidied m P (fun P v => InSight P (Value.frames v)) (Eval.force run i x e env m) := by
  obtain ⟨A, B, rfl⟩ := List.append_of_mem hi
  cases hm.ranked.of_append with
  | cons hiB hiuse hrefs hB =>
    have henv : InSight B env := by
      intro f hf
      refine hrefs (List.mem_map_of_mem ?_)
      rwa [hb]
    have hseesB : m.Sees B := ⟨hB, fun j hj => hm.idle j (by simp [hj])⟩
    match hx : run env e (m.setBinding i (.need x (.running e env))),
      hrun (List.nil_subset B) henv e _ (hseesB.setBinding hiB) with
    | .ok v m₂, .ok hadds hsees hv =>
      rw [Eval.force_of_ok hx]
      refine .ok (Sees.adds_after hadds A) (Sees.sees_after hadds hm hsees hv nofun)
        (hv.mono fun a ha => ?_)
      exact List.mem_append_right A (List.mem_cons_of_mem _ ha)
    | .error s m₂, .error hadds hsees hs =>
      rw [Eval.force_of_error hx]
      have henv' := henv.mono hadds.subset
      exact .error (Sees.adds_after hadds A) (Sees.sees_after hadds hm hsees henv' nofun) hs

theorem resolve (hrun : Runs [] run) {i : BindingId} (hi : .cell i ∈ P) :
    Tidy P (Eval.resolve run i) fun P v => InSight P v.frames := by
  intro m hm
  have hrefs : InSight P (m.binding i).frames := fun f hf =>
    hm.ranked.closed hi (List.mem_map_of_mem hf)
  unfold Eval.resolve
  cases hb : m.binding i with
  | undefined x => exact fail (e := .undefined x) nofun m hm
  | value x v =>
    rw [hb] at hrefs
    exact .ok (.refl m P) hm hrefs
  | name x e env =>
    rw [hb] at hrefs
    exact hrun (List.nil_subset P) hrefs e m hm
  | need x memo =>
    rw [hb] at hrefs
    cases memo with
    | pending e env => exact force hrun hm hi hb
    | running e env => exact absurd ⟨x, e, env, hb⟩ (hm.idle i hi)
    | done v => exact .ok (.refl m P) hm hrefs

theorem step_var (hrun : Runs [] run) (d : Discipline) {env : Env} (henv : InSight P env)
    (x : String) : Tidy P (Eval.step d run env (.var x)) fun P v => InSight P v.frames :=
  bind (lookup henv x) fun _ _ _ hi => resolve hrun hi

/-- Under call by need arguments and definitions are not evaluated when they are bound. -/
theorem bindAll {env : Env} (henv : InSight P env) (r : Bool) (ds : List (String × Expr)) :
    Tidy P (Eval.bindAll ⟨.need, r⟩ run env ds) fun P slots => ∀ s ∈ slots, .cell s.2 ∈ P := by
  induction ds generalizing P with
  | nil => exact pure nofun
  | cons p ds ih =>
    have hnew : Binding.IsNew (.need p.1 (.pending p.2 env)) := fun y memo h => by
      cases h
      exact ⟨p.2, env, rfl⟩
    refine bind (newBinding hnew henv) fun P₁ i hP₁ hi => ?_
    refine bind (ih (henv.mono hP₁)) fun P₂ later hP₂ hlater => ?_
    exact pure (List.forall_mem_cons.mpr ⟨hP₂ hi, hlater⟩)

/-- The definitions are those of the surrounding environment: their frame comes last. -/
theorem define {env : Env} (henv : InSight P env) (ds : List (String × Expr)) :
    Tidy P (Eval.define ⟨.need, false⟩ run env ds) InSight := by
  refine bind (bindAll henv false ds) fun P₁ slots hP₁ hslots => ?_
  refine bind (ofSlots hslots) fun P₂ f hP₂ hf => ?_
  exact pure (List.forall_mem_cons.mpr ⟨hf, henv.mono (List.Subset.trans hP₁ hP₂)⟩)

variable (hrun : Runs P run)

include hrun

theorem evalAll {env : Env} (henv : InSight P env) (es : List Expr) :
    Tidy P (Eval.evalAll run env es) fun P vs => ∀ v ∈ vs, InSight P v.frames := by
  induction es generalizing P with
  | nil => exact pure nofun
  | cons e es ih =>
    refine bind (hrun (List.Subset.refl P) henv e) fun P₁ v hP₁ hv => ?_
    refine bind (ih (hrun.mono hP₁) (henv.mono hP₁)) fun P₂ later hP₂ hlater => ?_
    exact pure (List.forall_mem_cons.mpr ⟨hv.mono hP₂, hlater⟩)

theorem apply {env : Env} (henv : InSight P env) {v : Value} (hv : InSight P v.frames) (r : Bool)
    (as : List Expr) :
    Tidy P (Eval.apply ⟨.need, r⟩ run env v as) fun P v => InSight P v.frames := by
  unfold Eval.apply
  split
  · split
    · refine bind (bindAll henv r _) fun P₁ slots hP₁ hslots => ?_
      refine bind (ofSlots hslots) fun P₂ f hP₂ hf => ?_
      have hP := List.Subset.trans hP₁ hP₂
      exact hrun hP (List.forall_mem_cons.mpr ⟨hf, hv.mono hP⟩) _
    · exact fail nofun
  · split
    · exact bind (evalAll hrun henv as) fun P₁ vs _ hvs => callPrim hvs
    · exact fail nofun
  · exact fail nofun

theorem connect {env : Env} (henv : InSight P env) (c : Connective) (l r : Expr) :
    Tidy P (Eval.connect run c env l r) fun P v => InSight P v.frames := by
  unfold Eval.connect
  refine bind (hrun (List.Subset.refl P) henv l) fun P₁ a hP₁ _ => ?_
  refine bind (asBool _) fun P₂ b hP₂ _ => ?_
  split
  · exact pure nofun
  · have hP := List.Subset.trans hP₁ hP₂
    refine bind (hrun hP (henv.mono hP) r) fun P₃ c _ _ => ?_
    exact bind (asBool _) fun P₄ t _ _ => pure nofun

theorem branch {env : Env} (henv : InSight P env) (t c a : Expr) :
    Tidy P (Eval.branch run env t c a) fun P v => InSight P v.frames := by
  unfold Eval.branch
  refine bind (hrun (List.Subset.refl P) henv t) fun P₁ v hP₁ _ => ?_
  split
  · exact hrun hP₁ (henv.mono hP₁) c
  · exact hrun hP₁ (henv.mono hP₁) a
  · exact fail nofun

/-- **One evaluation by need without recursive definitions**, of an expression that is no
variable. -/
theorem step_of_ne_var {env : Env} (henv : InSight P env) {e : Expr} (he : ∀ x, e ≠ .var x) :
    Tidy P (Eval.step ⟨.need, false⟩ run env e) fun P v => InSight P v.frames := by
  have hrefl := List.Subset.refl P
  cases e with
  | int | bool | null | prim => exact pure (.nil P)
  | datum s i => exact fail nofun
  | map ps b => exact newClosure henv
  | var x => exact absurd rfl (he x)
  | unary op a =>
    refine bind (hrun hrefl henv a) fun P₁ v _ _ => ?_
    exact lift_of_results (results_applyUnary rfl op)
  | binary op l r =>
    simp only [Eval.step]
    split
    · exact connect hrun henv _ l r
    · refine bind (hrun hrefl henv l) fun P₁ a hP₁ _ => ?_
      refine bind (hrun hP₁ (henv.mono hP₁) r) fun P₂ b _ _ => ?_
      exact applyBinary op a b
  | ite t c a => exact branch hrun henv t c a
  | app f as =>
    refine bind (hrun hrefl henv f) fun P₁ v hP₁ hv => ?_
    exact apply (hrun.mono hP₁) (henv.mono hP₁) hv false as
  | letIn ds b => exact bind (define henv ds) fun P₁ env' hP₁ henv' => hrun hP₁ henv' b

end Step

end Tidy

/-! ### Runs -/

theorem tidy_eval (n : Nat) : Tidy.Runs [] (Eval.eval ⟨.need, false⟩ n) := by
  induction n with
  | zero => exact fun P _ _ _ _ m hm => .error (.refl m P) hm nofun
  | succ n ih =>
    intro P env hP henv e
    by_cases he : ∃ x, e = .var x
    · obtain ⟨x, rfl⟩ := he
      exact Tidy.step_var ih _ henv x
    · exact Tidy.step_of_ne_var (ih.mono hP) henv fun x hx => he ⟨x, hx⟩

section Watched

variable {watch : Env → Machine → Bool} {alarm : Stop}
  (hwatch : ∀ env m, m.Clear env → watch env m = false)

include hwatch

/-- A watch that objects to no machine in sight does not disturb. -/
theorem Tidy.attend {α : Type} {P : List Node} {x : Eval α} {R : List Node → α → Prop} {env : Env}
    (henv : InSight P env) (hx : Tidy P x R) : Tidy P (Eval.attend watch alarm env x) R := by
  intro m hm
  match hxm : x m, hx m hm with
  | .ok a m', .ok hadds hsees ha =>
    have hquiet := hwatch env m' (hsees.clear (henv.mono hadds.subset))
    rw [Eval.attend_of_ok hxm, hquiet]
    exact .ok hadds hsees ha
  | .error s m', .error hadds hsees hs =>
    have hquiet := hwatch env m' (hsees.clear (henv.mono hadds.subset))
    rw [Eval.attend_of_error hxm, hquiet]
    exact .error hadds hsees hs

/-- Under a watch that objects to unclear moments only, evaluation is as tidy as without. -/
theorem tidy_watched (n : Nat) : Tidy.Runs [] (Eval.watched watch alarm ⟨.need, false⟩ n) := by
  induction n with
  | zero =>
    intro P env _ henv e
    exact Tidy.attend (x := throw .tooDeep) hwatch henv fun m hm => .error (.refl m P) hm nofun
  | succ n ih =>
    intro P env _ henv e
    have hbegin : Tidy P (Eval.attend watch alarm env (pure ())) fun _ _ => True :=
      .attend hwatch henv (.pure trivial)
    refine Tidy.bind hbegin fun P₁ _ hP₁ _ => ?_
    have henv₁ := henv.mono hP₁
    refine .attend hwatch henv₁ ?_
    by_cases he : ∃ x, e = .var x
    · obtain ⟨x, rfl⟩ := he
      exact Tidy.step_var ih _ henv₁ x
    · have he : ∀ x, e ≠ .var x := fun x hx => he ⟨x, hx⟩
      rw [Eval.attendPart_of_ne_var he]
      refine Tidy.step_of_ne_var (fun P₂ _ hP₂ henv₂ e' => ?_) henv₁ he
      exact .attend hwatch (henv₁.mono hP₂) (ih (List.nil_subset _) henv₂ e')

end Watched

/-- The empty environment is all that there is to see in the beginning. -/
theorem sees_start : (Machine.initial.addFrame Frame.empty).Sees [.frame 0] := by
  have hnone : Machine.initial.Sees [] := ⟨.nil, nofun⟩
  exact (hnone.addFrame (F := Frame.empty) nofun).1

/-- What is tidy from the beginning is not stopped by a self reference. -/
theorem Tidy.Runs.kind_ne {run : Env → Expr → Eval Value} (hrun : Tidy.Runs [] run) {e : Expr}
    {err : EvalError} (h : Eval.ending (run [0] e (Machine.initial.addFrame Frame.empty)) =
      .error (.error err)) : err.kind ≠ .selfReference := by
  have hstart : InSight [.frame 0] [0] := List.forall_mem_singleton.mpr List.mem_cons_self
  match hx : run [0] e _, hrun (List.nil_subset _) hstart e _ sees_start with
  | .ok v m', _ =>
    rw [hx] at h
    cases h
  | .error s m', .error _ _ hs =>
    rw [hx] at h
    cases h
    exact hs err rfl

/-- **Without recursive definitions nothing refers to itself.** Call by need without recursive `let`
is never stopped by a self reference, and at no moment of a run is a binding that is being computed
reachable from the environment of the evaluator at work. -/
theorem need_acyclic (n : Nat) (e : Expr) :
    (∀ err, Eval.outcome ⟨.need, false⟩ n e = .error (.error err) → err.kind ≠ .selfReference) ∧
    ∀ env m, Eval.Passes ⟨.need, false⟩ n e env m → m.Clear env := by
  refine ⟨fun err herr => (tidy_eval n).kind_ne herr, fun env m hpass => ?_⟩
  by_contra hclear
  have hwatch : ∀ env' m', m'.Clear env' → (env' == env && m' == m) = false := by
    intro env' m' hc
    by_contra hobj
    simp only [Bool.not_eq_false, Bool.and_eq_true, beq_iff_eq] at hobj
    exact hclear (hobj.1 ▸ hobj.2 ▸ hc)
  -- an alarm that looks like a self reference is raised by nothing but the watch
  exact (tidy_watched hwatch n).kind_ne (hpass (.error (.selfReference "" .null))) rfl

/-- The identity of a sum. -/
def promisedSum : Expr := .app (.map ["x"] (.var "x")) [.binary "+" (.int 1) (.int 2)]

/-- The machine at the moment when the sum is computed. -/
def summing : Machine where
  frames := #[⟨[]⟩, ⟨[("x", 0)]⟩]
  bindings := #[.need "x" (.running (.binary "+" (.int 1) (.int 2)) [0])]
  closures := 1

/-- While the sum is computed, its evaluator cannot reach the binding that waits for it. -/
theorem need_acyclic_promisedSum :
    Eval.Passes ⟨.need, false⟩ 9 promisedSum [0] summing ∧ summing.IsRunning 0 ∧
      summing.Clear [0] := by
  have hpass : Eval.Passes ⟨.need, false⟩ 9 promisedSum [0] summing := by
    intro alarm
    rfl
  exact ⟨hpass, ⟨_, _, _, rfl⟩, (need_acyclic 9 promisedSum).2 _ _ hpass⟩

end CallBy
