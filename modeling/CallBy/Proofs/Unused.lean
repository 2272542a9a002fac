import CallBy.Proofs.Moments
import CallBy.Proofs.Unlet

/-!
Under the lazy strategies an unused definition or argument is irrelevant.

Two evaluations that differ in one definition, or in one argument, go side by side: the bindings of
that variable stand for nothing in the other machine, and neither do the slots that lead to them. An
expression in which the variable is not free does the same on either side, and so does whatever it
comes to, for no other slot leads to these bindings.

* `Attained s m env`: the states that evaluations by the strategy `s` lead to;
* `Visible`: an expression does what it does if its free variables lead to slots that stand for each
  other;
* `Link.FramedBut x`: frames whose variables but `x` stand for each other, and `Unused.bound`,
  `Unused.recursive`: the ways to the body with such a frame;
* `unused_irrelevant`.
-/

namespace CallBy

/-! ### States -/

/-- **The states that evaluations by the strategy lead to**: the machine, and the frames of the
environments at hand. There may be any number of environments and of evaluations in them, under
either rule for definitions; a state is any moment of an evaluation, also of one that is still under
way, or that ended with an error or at the bound on nested evaluations. -/
inductive Attained (s : Strategy) : Machine → Env → Prop
  | start : Attained s (Machine.initial.addFrame Frame.empty) [0]
  | newEnv {m : Machine} {roots : Env} : Attained s m roots →
      Attained s (m.addFrame Frame.empty) (m.frames.size :: roots)
  | moment {m m' : Machine} {roots env η : Env} {r : Bool} {n : Nat} {e : Expr} :
      Attained s m roots → (∀ f ∈ env, m.Reaches roots (.frame f)) →
      Eval.ComesTo ⟨s, r⟩ n env e m η m' → Attained s m' (η ++ roots)

theorem Machine.Known.newEnv {m : Machine} {env : Env} (h : m.Known env) :
    (m.addFrame Frame.empty).Known (m.frames.size :: env) := by
  obtain ⟨L, m', env', hm, henv⟩ := h
  obtain ⟨L₁, hL, hframed, hm₁⟩ := hm.addFrames (.refl []) Frame.binds_empty Frame.binds_empty nofun
  exact ⟨L₁, _, m'.frames.size :: env', hm₁, .cons ⟨[], hframed⟩ (henv.mono hL.le)⟩

theorem Attained.known {s : Strategy} {m : Machine} {env : Env} (h : Attained s m env) :
    m.Known env := by
  induction h with
  | start => exact known_start
  | newEnv _ ih => exact ih.newEnv
  | @moment m m' roots env η r n e _ henv hcomes ih =>
    refine Machine.Known.moment (ih.reaches fun f hf => ?_) hcomes
    rcases List.mem_append.mp hf with hf | hf
    · exact henv f hf
    · exact .env hf

/-! ### Expressions and what they see -/

/-- The expression is the same, and its free variables lead to slots that stand for each other. -/
structure Visible (r : Bool) (L : Link) (env : Env) (e : Expr) (env' : Env) (e' : Expr) :
    Prop where
  eq : e = e'
  has : L.Has env env'
  looks : ∀ x ∈ e.free r, L.Looks env x env' x

namespace Visible

variable {r : Bool} {L L₁ : Link} {env env' : Env} {e e' : Expr}

theorem mono (hL : L ≤ L₁) (h : Visible r L env e env' e') : Visible r L₁ env e env' e' :=
  ⟨h.eq, h.has.mono hL, fun x hx => (h.looks x hx).mono hL h.has⟩

/-- Under binders, of an expression whose other free variables are known. -/
theorem under {ps : List String} (henv : L.Has env env')
    (hlooks : ∀ x ∈ e.free r, x ∉ ps → L.Looks env x env' x) :
    Under (Visible r) L env ps e env' ps e := by
  refine fun L₁ hL f f' hframed => ⟨rfl, hframed.has (henv.mono hL), fun x hx => ?_⟩
  by_cases hps : x ∈ ps
  · exact hframed.looks_new (Lined.mem_zip_self.mpr ⟨rfl, hps⟩)
  · exact hframed.looks_old hps hps ((hlooks x hx hps).mono hL henv)

end Visible

/-- The theory of expressions and what they see: all of closures is to be seen. -/
def Theory.visible (r : Bool) : Theory where
  Rel := Visible r
  view := .whole
  kept _ _ _ _ := False
  mono hL h := h.mono hL
  exact _ h := h.eq
  enter {L env ps b env' ps' b'} h := by
    obtain ⟨heq, henv, hlooks⟩ := h
    cases heq
    refine ⟨.refl ps, rfl, Visible.under henv fun x hx hps => hlooks x ?_⟩
    simpa [Expr.free] using ⟨hx, hps⟩

namespace Visible

variable {s : Strategy} {r : Bool} {L : Link} {run run' : Env → Expr → Eval Value}

/-- **One evaluation.** -/
theorem step (hrun : Paired.Runs (.visible r) .none L run run') [∀ env e, Steady (run env e)]
    [∀ env e, Steady (run' env e)] {env env' : Env} {e e' : Expr}
    (h : Visible r L env e env' e') :
    Paired (.visible r) .none L (Theory.visible r).Values (Eval.step ⟨s, r⟩ run env e)
      (Eval.step ⟨s, r⟩ run' env' e') := by
  obtain ⟨rfl, henv, hlooks⟩ := h
  have congr (hlet : e.isLet = false) : Paired (.visible r) .none L (Theory.visible r).Values
      (Eval.step ⟨s, r⟩ run env e) (Eval.step ⟨s, r⟩ run' env' e) := by
    refine Paired.step hrun rfl (.same (fun a ha => ?_) (fun x hx => ?_) (fun ps b _ => ?_) hlet)
      fun _ => rfl
    · exact ⟨rfl, henv, fun x hx => hlooks x (Expr.mem_free_of_mem_parts ha hx)⟩
    · exact hlooks x (by simp [hx, Expr.free])
    · exact ⟨rfl, henv, hlooks⟩
  cases e with
  | letIn ds b =>
    refine Paired.letIn hrun (.refl _) (List.forall₂_same.mpr fun p hp => ⟨fun _ => rfl, ?_⟩)
      (under henv fun x hx hps => hlooks x (Expr.mem_free_of_body hx hps))
    split
    · exact under henv fun x hx hps => hlooks x (Expr.mem_free_of_def hp hx fun _ => hps)
    · next hr =>
      exact ⟨rfl, henv, fun x hx => hlooks x (Expr.mem_free_of_def hp hx fun h => absurd h hr)⟩
  | _ => exact congr rfl

/-- **Whole evaluations.** -/
theorem eval (s : Strategy) (r : Bool) (n : Nat) (L : Link) :
    Paired.Runs (.visible r) .none L (Eval.eval ⟨s, r⟩ n) (Eval.eval ⟨s, r⟩ n) := by
  induction n generalizing L with
  | zero => exact fun L₁ _ _ _ _ _ _ _ _ hm => .deep (Link.le_refl L₁) hm
  | succ n ih => exact fun L₁ _ _ _ _ _ h => step (ih L₁) h

end Visible

/-! ### A variable that stands for nothing -/

/-- The frames bind these variables, and all but `x` stand for each other. -/
structure Link.FramedBut (L : Link) (x : String) (f f' : FrameId) (ps : List String) : Prop where
  left : L.vars[f]? = some ps
  right : L.vars'[f']? = some ps
  slots : ∀ y ∈ ps, y ≠ x → L.slots f y f' y
  free_left : ∀ g y, ¬ L.slots f x g y
  free_right : ∀ g y, ¬ L.slots g y f' x

namespace Link.FramedBut

variable {L L₁ : Link} {x : String} {f f' : FrameId} {ps : List String}

theorem grows (h : L.FramedBut x f f' ps) (hL : L.Grows L₁) : L₁.FramedBut x f f' ps := by
  have hlt := (List.getElem?_eq_some_iff.mp h.left).1
  have hlt' := (List.getElem?_eq_some_iff.mp h.right).1
  refine ⟨World.getElem?_of_prefix hL.le.vars h.left, World.getElem?_of_prefix hL.le.vars' h.right,
    fun y hy hne => hL.le.slots (h.slots y hy hne), fun g y hs => ?_, fun g y hs => ?_⟩
  · exact (hL.fresh hs).elim (h.free_left g y) fun hnew => Nat.not_lt_of_le hnew.1 hlt
  · exact (hL.fresh hs).elim (h.free_right g y) fun hnew => Nat.not_lt_of_le hnew.2 hlt'

/-- What an expression sees that does not use the variable. -/
theorem visible (h : L.FramedBut x f f' ps) {r : Bool} {env env' : Env} (henv : L.Has env env')
    (hlooks : ∀ y, L.Looks env y env' y) {e : Expr} (hx : x ∉ e.free r) :
    Visible r L (f :: env) e (f' :: env') e := by
  have hnames : L.vars.names f = ps := by rw [Layout.names, h.left, Option.getD_some]
  have hnames' : L.vars'.names f' = ps := by rw [Layout.names, h.right, Option.getD_some]
  refine ⟨rfl, ⟨List.forall_mem_cons.mpr ⟨(List.getElem?_eq_some_iff.mp h.left).1, henv.1⟩,
    List.forall_mem_cons.mpr ⟨(List.getElem?_eq_some_iff.mp h.right).1, henv.2⟩⟩, fun y hy => ?_⟩
  have hne : y ≠ x := fun heq => hx (heq ▸ hy)
  by_cases hps : y ∈ ps
  · rw [Link.Looks, Layout.find?_cons_of_mem (hnames ▸ hps),
      Layout.find?_cons_of_mem (hnames' ▸ hps)]
    exact .some (h.slots y hps hne)
  · rw [Link.Looks, Layout.find?_cons_of_not_mem (hnames ▸ hps),
      Layout.find?_cons_of_not_mem (hnames' ▸ hps)]
    exact hlooks y

end Link.FramedBut

/-- The link with a new frame in either machine, whose variables but `x` stand for each other. -/
def Link.withFramesBut (L : Link) (x : String) (ps : List String) : Link :=
  { L with
    vars := L.vars ++ [ps]
    vars' := L.vars' ++ [ps]
    slots := fun g y g' y' => L.slots g y g' y' ∨
      g = L.vars.length ∧ g' = L.vars'.length ∧ y = y' ∧ y ∈ ps ∧ y ≠ x }

namespace Agree

variable {T : Theory} {L : Link} {m m' : Machine}

theorem addBinding_right (h : Agree T L m m') (b : Binding) : Agree T L m (m'.addBinding b) := by
  refine ⟨h.left, h.right.congr rfl, h.slots, h.slots_iff, fun hi => ?_, h.bindings_iff, h.closures,
    h.closures_iff, h.kept, h.reports⟩
  obtain ⟨hlt, hlt', hb⟩ := h.bindings hi
  rw [Machine.binding_addBinding_of_lt m' b hlt']
  exact ⟨hlt, by simp; omega, hb⟩

theorem setSlot_right (h : Agree T L m m') {f : FrameId} {x : String} (hx : x ∈ L.vars'.names f)
    (hfree : ∀ g y, ¬ L.slots g y f x) (i : BindingId) : Agree T L m (m'.setSlot f x i) := by
  have hf : f < m'.frames.size := h.right.size ▸ Layout.lt_of_mem_names hx
  refine ⟨h.left, h.right.setSlot hx i, fun {g y g' y'} hs => ?_, h.slots_iff, h.bindings,
    h.bindings_iff, h.closures, h.closures_iff, h.kept, h.reports⟩
  rw [Machine.get?_setSlot m' hf, if_neg]
  · exact h.slots hs
  · rintro ⟨rfl, rfl⟩
    exact hfree _ _ hs

/-- A new frame in either machine, whose variables but `x` stand for each other. -/
theorem addFramesBut {r : Bool} (h : Agree (.visible r) L m m') (x : String) {ps : List String}
    {F F' : Frame} (hF : F.Binds ps) (hF' : F'.Binds ps)
    (hslots : ∀ y ∈ ps, y ≠ x → ∃ i i', F.get? y = some i ∧ F'.get? y = some i' ∧ L.bindings i i') :
    ∃ L₁, L.Grows L₁ ∧ L₁.FramedBut x m.frames.size m'.frames.size ps ∧
      Agree (.visible r) L₁ (m.addFrame F) (m'.addFrame F') := by
  have hsize := h.left.size
  have hsize' := h.right.size
  -- the slots that are linked already are of other frames
  have hold : ∀ {g y g' y'}, L.slots g y g' y' → g < m.frames.size ∧ g' < m'.frames.size := by
    intro g y g' y' hs
    rw [hsize, hsize']
    exact h.lt_of_slots hs
  have hgrows : L.Grows (L.withFramesBut x ps) := by
    refine ⟨⟨List.prefix_append _ _, List.prefix_append _ _, .inl, fun h => h, fun h => h⟩, ?_⟩
    rintro g y g' y' (hs | ⟨rfl, rfl, -⟩)
    · exact .inl hs
    · exact .inr ⟨Nat.le_refl _, Nat.le_refl _⟩
  refine ⟨L.withFramesBut x ps, hgrows, ⟨?_, ?_, ?_, ?_, ?_⟩, h.left.addFrame hF,
    h.right.addFrame hF', ?_, ?_, fun hi => ?_, h.bindings_iff, h.closures, h.closures_iff,
    fun hk => hk.elim, h.reports⟩
  · simp [Link.withFramesBut, hsize]
  · simp [Link.withFramesBut, hsize']
  · exact fun y hy hne => .inr ⟨hsize, hsize', rfl, hy, hne⟩
  · rintro g y (hs | ⟨-, -, -, -, hne⟩)
    · exact Nat.lt_irrefl _ (hold hs).1
    · exact hne rfl
  · rintro g y (hs | ⟨-, -, rfl, -, hne⟩)
    · exact Nat.lt_irrefl _ (hold hs).2
    · exact hne rfl
  · rintro g y g' y' (hs | ⟨rfl, rfl, rfl, hy, hne⟩)
    · obtain ⟨hlt, hlt'⟩ := hold hs
      rw [Machine.frame_addFrame_of_lt m F hlt, Machine.frame_addFrame_of_lt m' F' hlt']
      exact h.slots hs
    · rw [Machine.frame_addFrame, if_pos hsize.symm, Machine.frame_addFrame, if_pos hsize'.symm]
      exact hslots y hy hne
  · rintro g y g' y' k z k' z' (hs | ⟨rfl, rfl, rfl, -, -⟩) (ht | ⟨rfl, rfl, rfl, -, -⟩)
    · exact h.slots_iff hs ht
    · obtain ⟨hlt, hlt'⟩ := hold hs
      rw [hsize] at hlt
      rw [hsize'] at hlt'
      exact ⟨fun h => absurd h.1 (Nat.ne_of_lt hlt), fun h => absurd h.1 (Nat.ne_of_lt hlt')⟩
    · obtain ⟨hlt, hlt'⟩ := hold ht
      rw [hsize] at hlt
      rw [hsize'] at hlt'
      exact ⟨fun h => absurd h.1.symm (Nat.ne_of_lt hlt),
        fun h => absurd h.1.symm (Nat.ne_of_lt hlt')⟩
    · simp only [true_and]
  · obtain ⟨hlt, hlt', hb⟩ := h.bindings hi
    exact ⟨hlt, hlt', hb.mono hgrows.le⟩

end Agree

/-! ### The ways to the body -/

namespace Unused

variable {s : Strategy} {r : Bool} {x : String} {L : Link} {run run' : Env → Expr → Eval Value}

/-- The slots are for the same variables, and the bindings of all but `x` stand for each other. -/
def Slotted (x : String) (L : Link) (slots slots' : List (String × BindingId)) : Prop :=
  List.Forall₂ (fun p p' => p.1 = p'.1 ∧ (p.1 ≠ x → L.bindings p.2 p'.2)) slots slots'

theorem Slotted.vars_eq {slots slots' : List (String × BindingId)} (h : Slotted x L slots slots') :
    slots'.map (·.1) = slots.map (·.1) := by
  induction h with
  | nil => rfl
  | cons hp _ ih => rw [List.map_cons, List.map_cons, ih, hp.1]

theorem Slotted.lastOf? {slots slots' : List (String × BindingId)} (h : Slotted x L slots slots')
    {y : String} (hne : y ≠ x) :
    Option.Rel L.bindings (CallBy.lastOf? y slots) (CallBy.lastOf? y slots') := by
  induction h with
  | nil => exact .none
  | @cons p p' slots slots' hp _ ih =>
    rw [CallBy.lastOf?, CallBy.lastOf?]
    generalize CallBy.lastOf? y slots = o, CallBy.lastOf? y slots' = o' at ih
    cases ih with
    | some hb => exact .some hb
    | none =>
      rw [← hp.1]
      by_cases hy : p.1 = y
      · simp only [hy, if_true, Option.none_or]
        exact .some (hp.2 (hy ▸ hne))
      · simp only [hy, if_false, Option.none_or]
        exact .none

/-- A frame for such slots. -/
theorem newFrame {slots slots' : List (String × BindingId)} (h : Slotted x L slots slots') :
    Paired (.visible r) .none L (fun L₁ f f' => L₁.FramedBut x f f' (slots.map (·.1)))
      (Eval.newFrame (Frame.ofSlots slots)) (Eval.newFrame (Frame.ofSlots slots')) := by
  intro m m' hm
  have hbinds := Frame.binds_ofSlots slots'
  rw [h.vars_eq] at hbinds
  obtain ⟨L₁, hL, hframed, hm₁⟩ := hm.addFramesBut x (Frame.binds_ofSlots slots) hbinds
    fun y hy hne => by
      have hrel := h.lastOf? hne
      have hsome := (isSome_lastOf? y slots).mpr hy
      rw [get?_ofSlots, get?_ofSlots]
      generalize CallBy.lastOf? y slots = o, CallBy.lastOf? y slots' = o' at hrel hsome
      cases hrel with
      | some hb => exact ⟨_, _, rfl, rfl, hb⟩
      | none => cases hsome
  exact .ok hL hm₁ hframed

/-- Placeholders for the same variables. -/
theorem reserve (x : String) {ds ds' : List (String × Expr)}
    (hds : List.Forall₂ (fun p p' => p.1 = p'.1) ds ds') :
    Paired (.visible r) .none L
      (fun L₁ slots slots' => Slotted x L₁ slots slots' ∧ slots.map (·.1) = ds.map (·.1))
      (Eval.reserve ds) (Eval.reserve ds') := by
  induction hds generalizing L with
  | nil => exact Paired.pure ⟨.nil, rfl⟩
  | @cons p p' ds ds' hp _ ih =>
    refine Paired.bind (Paired.newBinding (.undefined fun _ => hp)) fun L₁ i i' _ hi => ?_
    refine Paired.bind ih fun L₂ slots slots' hL₂ hslots => ?_
    refine Paired.pure ⟨.cons ⟨hp, fun _ => hL₂.le.bindings hi⟩ hslots.1, ?_⟩
    rw [List.map_cons, List.map_cons, hslots.2]

/-- A slot of frames whose variables but `x` stand for each other. -/
theorem setSlot {f f' : FrameId} {names : List String} (hf : L.FramedBut x f f' names) {y : String}
    (hy : y ∈ names) {i i' : BindingId} (hi : y ≠ x → L.bindings i i') :
    Paired (.visible r) .none L (fun _ _ _ => True) (Eval.setSlot f y i)
      (Eval.setSlot f' y i') := by
  by_cases hyx : y = x
  · subst hyx
    intro m m' hm
    have hleft : y ∈ L.vars.names f := by rwa [Layout.names, hf.left, Option.getD_some]
    have hright : y ∈ L.vars'.names f' := by rwa [Layout.names, hf.right, Option.getD_some]
    have hm₁ := hm.setSlot hleft hf.free_left (fun _ _ hk => hk) i
    exact .ok (.refl L) (hm₁.setSlot_right hright hf.free_right i') trivial
  · exact Paired.setSlot (hf.slots y hy hyx) (hi hyx)

section Run

variable (hs : s ≠ .value) (hrun : Paired.Runs (.visible r) .none L run run')

include hs hrun

/-- The definitions of the variable are bound to whatever they are. -/
theorem bindVar {env env' : Env} {y : String} {e e' : Expr}
    (he : y ≠ x → Visible r L env e env' e') :
    Paired (.visible r) .none L (fun L₁ i i' => y ≠ x → L₁.bindings i i')
      (Eval.bindVar ⟨s, r⟩ run env y e) (Eval.bindVar ⟨s, r⟩ run' env' y e') := by
  intro m m' hm
  by_cases hy : y = x
  · obtain ⟨b, hb, -⟩ := Safe.bindVar_thunk (d := ⟨s, r⟩) run hs env y e
    obtain ⟨b', hb', -⟩ := Safe.bindVar_thunk (d := ⟨s, r⟩) run' hs env' y e'
    rw [hb, hb']
    exact .ok (.refl L) ((hm.addBinding b).addBinding_right b') fun hne => absurd hy hne
  · exact (Paired.bindVar hrun rfl (fun _ => rfl) (he hy) hm).mono fun _ _ _ _ _ hi _ => hi

variable [∀ env e, Steady (run env e)] [∀ env e, Steady (run' env e)]

theorem bindAll {env env' : Env} {ds ds' : List (String × Expr)}
    (hds : List.Forall₂ (fun p p' => p.1 = p'.1 ∧ (p.1 ≠ x → Visible r L env p.2 env' p'.2))
      ds ds') :
    Paired (.visible r) .none L (Slotted x) (Eval.bindAll ⟨s, r⟩ run env ds)
      (Eval.bindAll ⟨s, r⟩ run' env' ds') := by
  induction ds generalizing L ds' with
  | nil =>
    cases hds
    exact Paired.pure .nil
  | cons p ds ih =>
    obtain ⟨⟨y, e'⟩, ds', ⟨rfl, hp⟩, htail, rfl⟩ := List.forall₂_cons_left_iff.mp hds
    refine Paired.bind (bindVar hs hrun hp) fun L₁ i i' hL hi => ?_
    have htail₁ := htail.imp fun _ _ hq => And.intro hq.1 fun hne => (hq.2 hne).mono hL.le
    refine Paired.bind (ih (hrun.mono hL.le) htail₁) fun L₂ slots slots' hL₂ hslots => ?_
    exact Paired.pure (.cons ⟨rfl, fun hne => hL₂.le.bindings (hi hne)⟩ hslots)

/-- **The body behind a frame of such bindings**, bound in the surrounding environment. -/
theorem bound {env env' : Env} (henv : L.Has env env') (hlooks : ∀ y, L.Looks env y env' y)
    {ds ds' : List (String × Expr)}
    (hds : List.Forall₂ (fun p p' => p.1 = p'.1 ∧ (p.1 ≠ x → p.2 = p'.2)) ds ds') {b : Expr}
    (hb : x ∉ b.free r) :
    Paired (.visible r) .none L (Theory.visible r).Values
      (Eval.bindAll ⟨s, r⟩ run env ds >>= fun slots =>
        Eval.newFrame (Frame.ofSlots slots) >>= fun f => run (f :: env) b)
      (Eval.bindAll ⟨s, r⟩ run' env' ds' >>= fun slots =>
        Eval.newFrame (Frame.ofSlots slots) >>= fun f => run' (f :: env') b) := by
  have hdefs := hds.imp fun p p' hp => And.intro hp.1 fun hne =>
    (⟨hp.2 hne, henv, fun y _ => hlooks y⟩ : Visible r L env p.2 env' p'.2)
  refine Paired.bind (bindAll hs hrun hdefs) fun L₁ slots slots' hL₁ hslots => ?_
  refine Paired.bind (newFrame hslots) fun L₂ f f' hL₂ hframed => ?_
  have hle := Link.le_trans hL₁.le hL₂.le
  refine hrun hle (hframed.visible (henv.mono hle) (fun y => ?_) hb)
  exact (hlooks y).mono hle henv

theorem fill {f f' : FrameId} {names : List String} (hf : L.FramedBut x f f' names)
    {env env' : Env} {ds ds' : List (String × Expr)}
    (hds : List.Forall₂ (fun p p' => p.1 = p'.1 ∧ p.1 ∈ names ∧
      (p.1 ≠ x → Visible r L env p.2 env' p'.2)) ds ds') :
    Paired (.visible r) .none L (fun _ _ _ => True) (Eval.fill ⟨s, r⟩ run f env ds)
      (Eval.fill ⟨s, r⟩ run' f' env' ds') := by
  induction ds generalizing L ds' with
  | nil =>
    cases hds
    exact Paired.pure trivial
  | cons p ds ih =>
    obtain ⟨⟨y, e'⟩, ds', ⟨rfl, hp, hvis⟩, htail, rfl⟩ := List.forall₂_cons_left_iff.mp hds
    refine Paired.bind (bindVar hs hrun hvis) fun L₁ i i' hL hi => ?_
    refine Paired.bind (setSlot (hf.grows hL) hp hi) fun L₂ _ _ hL₂ _ => ?_
    have hgrows := hL.trans hL₂
    have htail₂ := htail.imp fun _ _ hq =>
      And.intro hq.1 (And.intro hq.2.1 fun hne => (hq.2.2 hne).mono hgrows.le)
    exact ih (hrun.mono hgrows.le) (hf.grows hgrows) htail₂

/-- **The body of a recursive `let`**, none of whose other definitions uses the variable. -/
theorem recursive {env env' : Env} (hr : r = true) (henv : L.Has env env')
    (hlooks : ∀ y, L.Looks env y env' y) {ds ds' : List (String × Expr)}
    (hds : List.Forall₂ (fun p p' => p.1 = p'.1 ∧ (p.1 ≠ x → p.2 = p'.2)) ds ds')
    (hfree : ∀ p ∈ ds, p.1 ≠ x → x ∉ p.2.free r) {b : Expr} (hb : x ∉ b.free r) :
    Paired (.visible r) .none L (Theory.visible r).Values (Eval.step ⟨s, r⟩ run env (.letIn ds b))
      (Eval.step ⟨s, r⟩ run' env' (.letIn ds' b)) := by
  subst hr
  have hdefine : Paired (.visible true) .none L (fun L₁ η η' => ∃ f f', η = f :: env ∧
      η' = f' :: env' ∧ L₁.FramedBut x f f' (ds.map (·.1)))
      (Eval.define ⟨s, true⟩ run env ds) (Eval.define ⟨s, true⟩ run' env' ds') := by
    unfold Eval.define
    simp only [if_true]
    refine Paired.bind (reserve x (hds.imp fun _ _ hp => hp.1)) fun L₁ slots slots' hL₁ hslots => ?_
    refine Paired.bind (newFrame hslots.1) fun L₂ f f' hL₂ hframed => ?_
    rw [hslots.2] at hframed
    have hle := Link.le_trans hL₁.le hL₂.le
    -- the other definitions do not see the variable in the frames that they fill
    have hfill : List.Forall₂ (fun p p' => p.1 = p'.1 ∧ p.1 ∈ ds.map (·.1) ∧
        (p.1 ≠ x → Visible true L₂ (f :: env) p.2 (f' :: env') p'.2)) ds ds' := by
      rw [List.forall₂_iff_zip] at hds ⊢
      refine ⟨hds.1, fun {p p'} hmem => ?_⟩
      obtain ⟨hname, hsame⟩ := hds.2 hmem
      have hp := (List.of_mem_zip hmem).1
      refine ⟨hname, List.mem_map_of_mem hp, fun hne => ?_⟩
      rw [← hsame hne]
      exact hframed.visible (henv.mono hle) (fun y => (hlooks y).mono hle henv) (hfree p hp hne)
    refine Paired.bind (fill hs (hrun.mono hle) hframed hfill) fun L₃ _ _ hL₃ _ => ?_
    exact Paired.pure ⟨f, f', rfl, rfl, hframed.grows hL₃⟩
  refine Paired.bind hdefine fun L₁ η η' hL hη => ?_
  obtain ⟨f, f', rfl, rfl, hframed⟩ := hη
  exact hrun hL.le (hframed.visible (henv.mono hL.le) (fun y => (hlooks y).mono hL.le henv) hb)

end Run

/-- **A `let`** with another definition of a variable that is not used. -/
theorem letIn (hs : s ≠ .value) (n : Nat) {env env' : Env} (henv : L.Has env env')
    (hlooks : ∀ y, L.Looks env y env' y) {ds ds' : List (String × Expr)}
    (hds : List.Forall₂ (fun p p' => p.1 = p'.1 ∧ (p.1 ≠ x → p.2 = p'.2)) ds ds')
    (hfree : r = true → ∀ p ∈ ds, p.1 ≠ x → x ∉ p.2.free r) {b : Expr} (hb : x ∉ b.free r) :
    Paired (.visible r) .none L (Theory.visible r).Values (Eval.eval ⟨s, r⟩ n env (.letIn ds b))
      (Eval.eval ⟨s, r⟩ n env' (.letIn ds' b)) := by
  cases n with
  | zero => exact fun _ _ hm => .deep (Link.le_refl L) hm
  | succ n =>
    have hrun := Visible.eval s r n L
    cases r with
    | true => exact recursive hs hrun rfl henv hlooks hds (hfree rfl) hb
    | false =>
      rw [Eval.eval, step_letIn, step_letIn]
      exact bound hs hrun henv hlooks hds hb

/-- **An application** to another argument for a parameter that is not used. -/
theorem app (hs : s ≠ .value) (n : Nat) {env env' : Env} (henv : L.Has env env')
    (hlooks : ∀ y, L.Looks env y env' y) {ps : List String} {args args' : List Expr}
    (hlen : args.length = ps.length) (hlen' : args'.length = ps.length)
    (hargs : List.Forall₂ (fun p p' => p.1 = p'.1 ∧ (p.1 ≠ x → p.2 = p'.2)) (ps.zip args)
      (ps.zip args')) {b : Expr} (hb : x ∉ b.free r) :
    Paired (.visible r) .none L (Theory.visible r).Values
      (Eval.eval ⟨s, r⟩ n env (.app (.map ps b) args))
      (Eval.eval ⟨s, r⟩ n env' (.app (.map ps b) args')) := by
  -- the closure is made, and then its frame
  have hcall : ∀ (n : Nat) (env : Env) {args : List Expr} (m : Machine),
      args.length = ps.length → Eval.eval ⟨s, r⟩ (n + 2) env (.app (.map ps b) args) m =
        (Eval.bindAll ⟨s, r⟩ (Eval.eval ⟨s, r⟩ (n + 1)) env (ps.zip args) >>= fun slots =>
          Eval.newFrame (Frame.ofSlots slots) >>= fun f =>
            Eval.eval ⟨s, r⟩ (n + 1) (f :: env) b) { m with closures := m.closures + 1 } := by
    intro n env args m hlen
    have hclosure : Eval.eval ⟨s, r⟩ (n + 1) env (.map ps b) m =
        .ok (.closure m.closures ps b env) { m with closures := m.closures + 1 } := rfl
    have happ : Eval.eval ⟨s, r⟩ (n + 2) env (.app (.map ps b) args) =
        (Eval.eval ⟨s, r⟩ (n + 1) env (.map ps b) >>= fun v =>
          Eval.apply ⟨s, r⟩ (Eval.eval ⟨s, r⟩ (n + 1)) env v args) := rfl
    rw [happ, Eval.bind_of_ok hclosure, Eval.apply, if_pos hlen]
  intro m m' hm
  rcases n with _ | _ | n
  · exact .deep (Link.le_refl L) hm
  · exact .deep (Link.le_refl L) hm
  · rw [hcall n env m hlen, hcall n env' m' hlen']
    exact bound hs (Visible.eval s r (n + 1) L) henv hlooks hargs hb
      (hm.addClosure.addClosure_right)

end Unused

/-! ### Outcomes -/

/-- **The runs cannot be told apart**: they end with values of one text, with errors of one kind and
message, or both at the bound on nested evaluations; and after the same reports. -/
inductive Indistinct :
    EStateM.Result Stop Machine Value → EStateM.Result Stop Machine Value → Prop
  | ok {v v' : Value} {m m' : Machine} : v.render = v'.render → m.trace = m'.trace →
      Indistinct (.ok v m) (.ok v' m')
  | error {e e' : EvalError} {m m' : Machine} : e.kind = e'.kind → e.message = e'.message →
      m.trace = m'.trace → Indistinct (.error (.error e) m) (.error (.error e') m')
  | bound {m m' : Machine} : m.trace = m'.trace →
      Indistinct (.error .tooDeep m) (.error .tooDeep m')

theorem Indistinct.of_ending {r : Bool} {L : Link} {x x' : EStateM.Result Stop Machine Value}
    (h : Ending (.visible r) .none L (fun L _ => (Theory.visible r).Values L) x x') :
    Indistinct x x' := by
  cases h with
  | ok _ hm hv =>
    exact .ok (Alike.ok ((hm.fits.like hv).bare_eq trivial)).2 (hm.reports.trace_eq trivial)
  | error _ hm he =>
    have halike := Alike.error (he.2 trivial)
    exact .error halike.1 halike.2 (hm.reports.trace_eq trivial)
  | deep _ hm => exact .bound (hm.reports.trace_eq trivial)
  | behind hc _ _ => cases hc
  | ahead hc _ _ => cases hc

/-- Definitions with another one in the place of one of `x`. -/
theorem forall₂_set {ds : List (String × Expr)} {i : Nat} {x : String} {a : Expr}
    (hi : ds[i]? = some (x, a)) (a' : Expr) :
    List.Forall₂ (fun p p' => p.1 = p'.1 ∧ (p.1 ≠ x → p.2 = p'.2)) ds (ds.set i (x, a')) := by
  refine List.forall₂_iff_get.mpr ⟨by simp, fun j hj hj' => ?_⟩
  by_cases hij : i = j
  · subst hij
    have hget : ds[i] = (x, a) := (List.getElem?_eq_some_iff.mp hi).2
    simp [hget]
  · simp [hij]

/-- Arguments with another one for the parameter `x`. -/
theorem zip_set {ps : List String} {args : List Expr} {i : Nat} {x : String}
    (hi : ps[i]? = some x) (a : Expr) :
    ps.zip (args.set i a) = (ps.zip args).set i (x, a) := by
  induction ps generalizing args i with
  | nil => cases hi
  | cons p ps ih =>
    cases args with
    | nil => rfl
    | cons b args =>
      cases i with
      | zero =>
        cases hi
        rfl
      | succ i =>
        rw [List.set_cons_succ, List.zip_cons_cons, List.zip_cons_cons, List.set_cons_succ, ih hi]

open Eval

/-- **Under the lazy strategies an unused definition or argument is irrelevant**, however bad it is.
Let `m` be the machine of a state that evaluations by the strategy lead to, and `env` an environment
of frames that can be reached in it. Under either rule for definitions, an application of a function
to as many arguments as it has parameters cannot be told from one with another argument for a
parameter that is not free in the body; and a `let` cannot be told from one with another definition
of a variable that is not free in the body nor, if definitions are recursive, in the other
definitions. -/
theorem unused_irrelevant {s : Strategy} (hs : s ≠ .value) {m : Machine} {roots env : Env}
    (hm : Attained s m roots) (henv : ∀ f ∈ env, m.Reaches roots (.frame f)) (r : Bool) :
    (∀ (ps : List String) (b : Expr) (args : List Expr) (i : Nat) (x : String) (a' : Expr),
      args.length = ps.length → ps[i]? = some x → x ∉ b.free r → ∀ n,
        Indistinct (eval ⟨s, r⟩ n env (.app (.map ps b) args) m)
          (eval ⟨s, r⟩ n env (.app (.map ps b) (args.set i a')) m)) ∧
    ∀ (ds : List (String × Expr)) (b : Expr) (i : Nat) (x : String) (a a' : Expr),
      ds[i]? = some (x, a) → x ∉ b.free r →
      (r = true → ∀ j p, j ≠ i → ds[j]? = some p → x ∉ p.2.free r) → ∀ n,
        Indistinct (eval ⟨s, r⟩ n env (.letIn ds b) m)
          (eval ⟨s, r⟩ n env (.letIn (ds.set i (x, a')) b) m) := by
  obtain ⟨L, m', env', hm, htwins⟩ := hm.known.reaches henv
  have hsquare : Agree (.visible r) L.square m m :=
    hm.square (fun hη => ⟨rfl, hη.has, fun y _ => hη.looks y⟩) fun _ _ _ _ h => h
  have hself := htwins.square
  refine ⟨fun ps b args i x a' hlen hx hb n => ?_, fun ds b i x a a' hi hb hfree n => ?_⟩
  · have hi : i < args.length := hlen ▸ (List.getElem?_eq_some_iff.mp hx).1
    have hpair : (ps.zip args)[i]? = some (x, args[i]) := by
      rw [List.getElem?_zip_eq_some]
      exact ⟨hx, List.getElem?_eq_getElem hi⟩
    have hargs := forall₂_set hpair a'
    rw [← zip_set hx] at hargs
    exact .of_ending (Unused.app hs n hself.has hself.looks hlen (by simpa using hlen) hargs hb
      hsquare)
  · have hother : r = true → ∀ p ∈ ds, p.1 ≠ x → x ∉ p.2.free r := by
      intro hr p hp hne
      obtain ⟨j, hj⟩ := List.mem_iff_getElem?.mp hp
      refine hfree hr j p (fun heq => hne ?_) hj
      rw [heq, hi] at hj
      cases hj
      rfl
    exact .of_ending (Unused.letIn hs n hself.has hself.looks (forall₂_set hi a') hother hb hsquare)

/-- A definition that is reported when it is computed, as it is here for the first time. -/
def shared : Expr :=
  .letIn [("y", .app (.prim .tick) [.int 3])] (.binary "+" (.var "y") (.var "y"))

/-- The machine when the first use of the variable is done. -/
def sharedOnce : Machine where
  frames := #[⟨[]⟩, ⟨[("y", 0)]⟩]
  bindings := #[.need "y" (.done (.int 3))]
  reports := #[.int 3]

/-- A function that keeps its unused argument in sight of the function it gives. -/
def keeper : List String × Expr := (["u", "v"], .map ["z"] (.binary "+" (.var "v") (.var "y")))

/-- An argument that cannot be computed is as good as any, and so is a definition. -/
theorem unused_irrelevant_keeper :
    Strategy.need ≠ .value ∧ Attained .need sharedOnce [1, 0, 0] ∧
      (∀ f ∈ [1, 0], sharedOnce.Reaches [1, 0, 0] (.frame f)) ∧
      Indistinct
        (eval ⟨.need, true⟩ 9 [1, 0] (.app (.map keeper.1 keeper.2) [.var "nowhere", .int 1])
          sharedOnce)
        (eval ⟨.need, true⟩ 9 [1, 0] (.app (.map keeper.1 keeper.2) [.int 7, .int 1])
          sharedOnce) ∧
      Indistinct
        (eval ⟨.need, true⟩ 9 [1, 0] (.letIn [("w", .var "w"), ("v", .int 1)]
          (.binary "+" (.var "v") (.var "y"))) sharedOnce)
        (eval ⟨.need, true⟩ 9 [1, 0] (.letIn [("w", .binary "/" (.int 1) (.int 0)), ("v", .int 1)]
          (.binary "+" (.var "v") (.var "y"))) sharedOnce) := by
  have hcomes : ComesTo ⟨.need, false⟩ 9 [0] shared (Machine.initial.addFrame Frame.empty) [1, 0]
      sharedOnce := by
    intro alarm
    rfl
  have hm : Attained .need sharedOnce [1, 0, 0] :=
    .moment .start (fun f hf => .env hf) hcomes
  have henv : ∀ f ∈ [1, 0], sharedOnce.Reaches [1, 0, 0] (.frame f) :=
    fun f hf => .env (by revert f; decide)
  obtain ⟨happ, hlet⟩ := unused_irrelevant (by decide) hm henv true
  refine ⟨by decide, hm, henv, happ _ _ [.var "nowhere", .int 1] 0 "u" (.int 7) rfl rfl ?_ 9,
    hlet _ _ 0 "w" (.var "w") (.binary "/" (.int 1) (.int 0)) rfl ?_ ?_ 9⟩
  · decide +kernel
  · decide +kernel
  · rintro - (_ | _ | j) p hj hp
    · exact absurd rfl hj
    · cases hp
      decide +kernel
    · cases hp

end CallBy
