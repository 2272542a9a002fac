import CallBy.Proofs.Pairing
import CallBy.Proofs.Work

/-!
The rule for definitions matters only to programs that use it.

With recursive definitions the frame of a `let` is there first, and the definitions are read in it;
without, they are read in the surrounding environment, and the frame comes last. If no definition
uses a variable of its `let`, the first frame is of no use to them, and the two rules come to the
same. Both runs go side by side: the frame of the first has no counterpart until that of the second
is made, and from then on its slots stand for those of that one.

* `Expr.Unrecursive`: no definition uses a variable of its `let`;
* `Unruled.define`: the two ways to the environment of the body;
* `let_rule_irrelevant`.
-/

namespace CallBy

/-- In every `let` of the expression, none of its variables is free in one of its definitions. -/
inductive Expr.Unrecursive : Expr → Prop
  | int (n : Int) : Unrecursive (.int n)
  | bool (b : Bool) : Unrecursive (.bool b)
  | null : Unrecursive .null
  | prim (p : Prim) : Unrecursive (.prim p)
  | var (x : String) : Unrecursive (.var x)
  | datum (s i : String) : Unrecursive (.datum s i)
  | unary {op : String} {a : Expr} : Unrecursive a → Unrecursive (.unary op a)
  | binary {op : String} {l r : Expr} : Unrecursive l → Unrecursive r →
      Unrecursive (.binary op l r)
  | ite {t c a : Expr} : Unrecursive t → Unrecursive c → Unrecursive a → Unrecursive (.ite t c a)
  | map {ps : List String} {b : Expr} : Unrecursive b → Unrecursive (.map ps b)
  | app {f : Expr} {as : List Expr} : Unrecursive f → (∀ a ∈ as, Unrecursive a) →
      Unrecursive (.app f as)
  | letIn {ds : List (String × Expr)} {b : Expr} :
      (∀ p ∈ ds, ∀ x ∈ ds.map (·.1), x ∉ p.2.free true) → (∀ p ∈ ds, Unrecursive p.2) →
      Unrecursive b → Unrecursive (.letIn ds b)

theorem Expr.Unrecursive.part {e a : Expr} (h : e.Unrecursive) (ha : a ∈ e.parts) :
    a.Unrecursive := by
  cases h with
  | app hf has =>
    rcases List.mem_cons.mp ha with rfl | ha
    · exact hf
    · exact has a ha
  | unary | binary | ite => simp only [parts, List.mem_cons, List.not_mem_nil] at ha; grind
  | _ => cases ha

/-! ### Frames stay as they are -/

/-- Every frame is as it was. -/
structure Machine.SameFrames (m m' : Machine) : Prop where
  frames_le : m.frames.size ≤ m'.frames.size
  frame : ∀ {f : Nat}, f < m.frames.size → m'.frame f = m.frame f

theorem growing_sameFrames : Growing Machine.SameFrames where
  refl m := ⟨Nat.le_refl _, fun _ => rfl⟩
  trans h h' := ⟨Nat.le_trans h.frames_le h'.frames_le,
    fun hf => (h'.frame (Nat.lt_of_lt_of_le hf h.frames_le)).trans (h.frame hf)⟩
  frames_le h := h.frames_le
  addBinding m b _ := ⟨Nat.le_refl _, fun _ => rfl⟩
  addFrame m F := ⟨by simp, fun hf => m.frame_addFrame_of_lt F hf⟩
  setSlot {m m' f} h hf x i := by
    refine ⟨by simpa using h.frames_le, fun {g} hg => ?_⟩
    have hne : f ≠ g := fun heq => Nat.not_lt_of_le hf (heq ▸ hg)
    rw [← h.frame hg]
    simp [Machine.frame, Machine.setSlot, Array.getElem?_modify, hne]
  addClosure m := ⟨Nat.le_refl _, fun _ => rfl⟩
  report m v := ⟨Nat.le_refl _, fun _ => rfl⟩

theorem eval_sameFrames (d : Discipline) (n : Nat) (env : Env) (e : Expr) :
    Keeps Machine.SameFrames (Eval.eval d n env e) :=
  Keeps.eval growing_sameFrames (fun _ _ _ => ⟨Nat.le_refl _, fun _ => rfl⟩) d n env e

/-! ### The theory -/

/-- The expression is the same, uses no recursive definition, and its free variables lead to slots
that stand for each other. -/
structure Unruled (L : Link) (env : Env) (e : Expr) (env' : Env) (e' : Expr) : Prop where
  eq : e = e'
  has : L.Has env env'
  unrecursive : e.Unrecursive
  looks : ∀ x ∈ e.free true, L.Looks env x env' x

namespace Unruled

variable {L L₁ : Link} {env env' : Env} {e e' : Expr}

theorem mono (hL : L ≤ L₁) (h : Unruled L env e env' e') : Unruled L₁ env e env' e' :=
  ⟨h.eq, h.has.mono hL, h.unrecursive, fun x hx => (h.looks x hx).mono hL h.has⟩

/-- Under binders, of an expression whose other free variables are known. -/
theorem under {ps : List String} (henv : L.Has env env') (hu : e.Unrecursive)
    (hlooks : ∀ x ∈ e.free true, x ∉ ps → L.Looks env x env' x) :
    Under Unruled L env ps e env' ps e := by
  refine fun L₁ hL f f' hframed => ⟨rfl, hframed.has (henv.mono hL), hu, fun x hx => ?_⟩
  by_cases hps : x ∈ ps
  · exact hframed.looks_new (Lined.mem_zip_self.mpr ⟨rfl, hps⟩)
  · exact hframed.looks_old hps hps ((hlooks x hx hps).mono hL henv)

end Unruled

/-- The theory of expressions that use no recursive definition: all of closures is to be seen. -/
def Theory.unruled : Theory where
  Rel := Unruled
  view := .whole
  kept _ _ _ _ := False
  mono hL h := h.mono hL
  exact _ h := h.eq
  enter {L env ps b env' ps' b'} h := by
    obtain ⟨heq, henv, hu, hlooks⟩ := h
    cases heq
    cases hu with
    | map hu =>
      refine ⟨.refl ps, rfl, Unruled.under henv hu fun x hx hps => hlooks x ?_⟩
      simpa [Expr.free] using ⟨hx, hps⟩

namespace Unruled

variable {s : Strategy} {run run' : Env → Expr → Eval Value} {L : Link} {m m' : Machine}

/-- Placeholders are nothing to the other machine. -/
theorem reserve (hm : Agree .unruled L m m') (ds : List (String × Expr)) :
    ∃ slots m₁, Eval.reserve ds m = .ok slots m₁ ∧ slots.map (·.1) = ds.map (·.1) ∧
      Agree .unruled L m₁ m' := by
  induction ds generalizing m with
  | nil => exact ⟨[], m, rfl, rfl, hm⟩
  | cons p ds ih =>
    obtain ⟨slots, m₁, hx, hnames, hm₁⟩ := ih (hm.addBinding (.undefined p.1))
    refine ⟨(p.1, m.bindings.size) :: slots, m₁, ?_, by simp [hnames], hm₁⟩
    have hnew : Eval.newBinding (.undefined p.1) m =
        .ok m.bindings.size (m.addBinding (.undefined p.1)) := rfl
    rw [Eval.reserve, Eval.bind_of_ok hnew, Eval.bind_of_ok hx]
    rfl

/-- Behind a frame whose variables are not used. -/
theorem behind {env env' : Env} {e : Expr} (henv : L.Has env env') (hu : e.Unrecursive)
    {names : List String}
    (hlooks : ∀ x ∈ e.free true, x ∉ names ∧ L.Looks env x env' x) :
    Unruled (L.withFrame names) (L.vars.length :: env) e env' e := by
  have hle := (L.grows_withFrame names).le
  have henv₁ := henv.mono hle
  refine ⟨rfl, ⟨List.forall_mem_cons.mpr ⟨by simp [Link.withFrame], henv₁.1⟩, henv₁.2⟩, hu,
    fun x hx => ?_⟩
  obtain ⟨hnot, hlooks⟩ := hlooks x hx
  rw [Link.Looks, Layout.find?_cons_of_not_mem]
  · exact hlooks.mono hle henv
  · rwa [Link.withFrame, Layout.names_append, if_pos rfl]

/-- A frame of the first machine has been filled over `F`, and the slots for a frame of the second
are there. -/
structure Filled (f : FrameId) (names : List String) (ds : List (String × Expr)) (F : Frame)
    (L : Link) (m : Machine) (slots' : List (String × BindingId)) : Prop where
  vars : L.vars[f]? = some names
  free : ∀ y g' y', ¬ L.slots f y g' y'
  slots : ∃ slots, Paired.Slotted ds ds L slots slots' ∧
    ∀ x, (m.frame f).get? x = (lastOf? x slots).or (F.get? x)

/-- The frame of the second machine stands for the one that has been filled. -/
theorem Filled.addTwin {f : FrameId} {ds : List (String × Expr)} {F : Frame}
    {slots' : List (String × BindingId)} (h : Filled f (ds.map (·.1)) ds F L m slots')
    (hm : Agree .unruled L m m') :
    Agree .unruled (L.withTwin f (ds.map (·.1)) (ds.map (·.1))) m
      (m'.addFrame (Frame.ofSlots slots')) := by
  obtain ⟨slots, hslots, hget⟩ := h.slots
  have hlined : Lined (slots.map (·.1)) (slots'.map (·.1)) := by
    rw [hslots.left, hslots.right]
    exact .refl _
  have hbinds := Frame.binds_ofSlots slots'
  rw [hslots.right] at hbinds
  refine hm.addTwin h.vars (.refl _) h.free (fun _ _ _ hk => hk) hbinds fun {x x'} hx => ?_
  obtain ⟨i, i', hi, hi', hb⟩ := hlined.lastOf? hslots.bindings
    (by rwa [hslots.left, hslots.right])
  exact ⟨i, i', by rw [hget, hi]; rfl, by rw [get?_ofSlots, hi'], hb⟩

variable (hrun : Paired.Runs .unruled .none L run run') [∀ env e, Steady (run env e)]
  [∀ env e, Steady (run' env e)] (hframes : ∀ env e, Keeps Machine.SameFrames (run env e))

include hrun hframes

/-- **Filling a frame and binding for one to come.** The frame has no counterpart yet. -/
theorem fill_bindAll {f : FrameId} {names : List String} {env env' : Env}
    {ds : List (String × Expr)} (hf : L.vars[f]? = some names)
    (hfree : ∀ y g' y', ¬ L.slots f y g' y')
    (hds : ∀ p ∈ ds, p.1 ∈ names ∧ Unruled L env p.2 env' p.2) (hm : Agree .unruled L m m') :
    Ending .unruled .none L (fun L₁ m₁ _ slots' => Filled f names ds (m.frame f) L₁ m₁ slots')
      (Eval.fill ⟨s, true⟩ run f env ds m) (Eval.bindAll ⟨s, false⟩ run' env' ds m') := by
  induction ds generalizing L m m' with
  | nil => exact .ok (.refl L) hm ⟨hf, hfree, [], .nil L, fun x => rfl⟩
  | cons p ds ih =>
    obtain ⟨⟨hp, hrel⟩, hds⟩ := List.forall_mem_cons.mp hds
    have hlt : f < L.vars.length := (List.getElem?_eq_some_iff.mp hf).1
    have hbind : Ending .unruled .none L
        (fun L₁ m₁ i i' => L₁.bindings i i' ∧ m₁.frame f = m.frame f)
        (Eval.bindVar ⟨s, true⟩ run env p.1 p.2 m)
        (Eval.bindVar ⟨s, false⟩ run' env' p.1 p.2 m') := by
      refine (Paired.bindVar hrun rfl (fun _ => rfl) hrel hm).mono fun L₁ m₁ i i' hr hi => ⟨hi, ?_⟩
      have hkeep := Keeps.bindVar growing_sameFrames hframes (d := ⟨s, true⟩) env p.1 p.2 m
      rw [Eval.leaves_of_ok hr] at hkeep
      exact hkeep.frame (hm.left.size ▸ hlt)
    refine hbind.bind (Link.le_refl L) fun {L₁ m₁ m₁' i i'} hL hm₁ hi => ?_
    -- the frame has no counterpart still, for links are made for new frames only
    have hfree₁ : ∀ y g' y', ¬ L₁.slots f y g' y' := fun y g' y' hs =>
      (hL.fresh hs).elim (hfree y g' y') fun hnew => Nat.not_lt_of_le hnew.1 hlt
    have hf₁ : L₁.vars[f]? = some names := World.getElem?_of_prefix hL.le.vars hf
    have hname : p.1 ∈ L₁.vars.names f := by rwa [Layout.names, hf₁, Option.getD_some]
    have hm₂ := hm₁.setSlot hname (hfree₁ p.1) (fun _ _ hk => hk) i
    have hds₁ : ∀ q ∈ ds, q.1 ∈ names ∧ Unruled L₁ env q.2 env' q.2 :=
      fun q hq => ⟨(hds q hq).1, (hds q hq).2.mono hL.le⟩
    have hset : Eval.setSlot f p.1 i m₁ = .ok () (m₁.setSlot f p.1 i) := rfl
    rw [Eval.bind_of_ok hset]
    refine ((ih (hrun.mono hL.le) hf₁ hfree₁ hds₁ hm₂).map_right ?_).after hL
    rintro L₂ m₃ _ slots' hL₂ ⟨hf₂, hfree₂, slots, hslots, hget⟩
    refine ⟨hf₂, hfree₂, _, hslots.cons (hL₂.le.bindings hi.1) p p, fun x => ?_⟩
    have hlt₁ : f < m₁.frames.size := hm₁.left.size ▸ (List.getElem?_eq_some_iff.mp hf₁).1
    rw [hget, Machine.get?_setSlot _ hlt₁, hi.2, lastOf?]
    cases lastOf? x slots with
    | some j => rfl
    | none => by_cases hx : p.1 = x <;> simp [hx]

/-- **The environment of the body**, with recursive definitions and without. -/
theorem define {env env' : Env} {ds : List (String × Expr)} (henv : L.Has env env')
    (hds : ∀ p ∈ ds, p.2.Unrecursive ∧
      ∀ x ∈ p.2.free true, x ∉ ds.map (·.1) ∧ L.Looks env x env' x) :
    Paired .unruled .none L (fun L₁ η η' => ∃ f f', η = f :: env ∧ η' = f' :: env' ∧
        L₁.Framed f (ds.map (·.1)) f' (ds.map (·.1)))
      (Eval.define ⟨s, true⟩ run env ds) (Eval.define ⟨s, false⟩ run' env' ds) := by
  intro m m' hm
  -- the first machine makes its frame now, which the definitions do not use
  obtain ⟨slots₀, m₁, hreserve, hnames, hm₁⟩ := reserve hm ds
  have hm₂ : Agree .unruled (L.withFrame (ds.map (·.1))) (m₁.addFrame (Frame.ofSlots slots₀)) m' :=
    hm₁.addFrame (hnames ▸ Frame.binds_ofSlots slots₀)
  have hL₂ := L.grows_withFrame (ds.map (·.1))
  have hvars : (L.withFrame (ds.map (·.1))).vars[L.vars.length]? = some (ds.map (·.1)) := by
    simp [Link.withFrame]
  have hfree : ∀ y g' y', ¬ L.slots L.vars.length y g' y' :=
    fun y g' y' hs => Nat.lt_irrefl _ (hm₁.lt_of_slots hs).1
  have hfill := fill_bindAll (s := s) (hrun.mono hL₂.le) hframes hvars hfree
    (fun p hp => ⟨List.mem_map_of_mem hp, behind henv (hds p hp).1 (hds p hp).2⟩) hm₂
  have hleft : Eval.define ⟨s, true⟩ run env ds m =
      (Eval.fill ⟨s, true⟩ run L.vars.length (L.vars.length :: env) ds >>= fun _ =>
        pure (L.vars.length :: env)) (m₁.addFrame (Frame.ofSlots slots₀)) := by
    rw [Eval.define, if_pos rfl, Eval.bind_of_ok hreserve, ← hm₁.left.size]
    rfl
  rw [hleft]
  -- the second machine makes its frame in the end, and from then on they stand for each other
  refine hfill.bind hL₂.le fun {L₃ m₃ m₃' _ slots'} hL₃ hm₃ h => ?_
  refine .ok ⟨Link.le_trans (hL₂.trans hL₃).le (Link.le_withTwin _ _ _ _), fun hs => ?_⟩
    (h.addTwin hm₃) ⟨L.vars.length, m₃'.frames.size, rfl, rfl, ?_⟩
  · rcases hs with hs | ⟨rfl, rfl, -⟩
    · exact (hL₂.trans hL₃).fresh hs
    · exact .inr ⟨Nat.le_refl _, hL₃.le.vars'.length_le⟩
  · rw [hm₃.right.size]
    exact Link.framed_withTwin _ h.vars _

/-- **One evaluation**, with recursive definitions and without. -/
theorem step {env env' : Env} {e e' : Expr} (h : Unruled L env e env' e') :
    Paired .unruled .none L Theory.unruled.Values (Eval.step ⟨s, true⟩ run env e)
      (Eval.step ⟨s, false⟩ run' env' e') := by
  obtain ⟨rfl, henv, hu, hlooks⟩ := h
  have congr (hlet : e.isLet = false) : Paired .unruled .none L Theory.unruled.Values
      (Eval.step ⟨s, true⟩ run env e) (Eval.step ⟨s, false⟩ run' env' e) := by
    refine Paired.step hrun (by rfl) (.same (fun a ha => ?_) (fun x hx => ?_) (fun ps b _ => ?_)
      hlet) fun _ => rfl
    · exact ⟨rfl, henv, hu.part ha, fun x hx => hlooks x (Expr.mem_free_of_mem_parts ha hx)⟩
    · exact hlooks x (by simp [hx, Expr.free])
    · exact ⟨rfl, henv, hu, hlooks⟩
  cases hu with
  | @letIn ds b hnot hds hb =>
    -- a free variable of a definition is none of the `let`, so it is free in the whole
    have hdefs : ∀ p ∈ ds, p.2.Unrecursive ∧
        ∀ x ∈ p.2.free true, x ∉ ds.map (·.1) ∧ L.Looks env x env' x := by
      refine fun p hp => ⟨hds p hp, fun x hx => ?_⟩
      have hx' : x ∉ ds.map (·.1) := fun hmem => hnot p hp x hmem hx
      exact ⟨hx', hlooks x (Expr.mem_free_of_def hp hx fun _ => hx')⟩
    refine Paired.bind (define hrun hframes henv hdefs) fun L₁ η η' hL hη => ?_
    obtain ⟨f, f', rfl, rfl, hframed⟩ := hη
    have hbody := under henv hb fun x hx hps => hlooks x (Expr.mem_free_of_body hx hps)
    exact hrun hL.le (hbody hL.le hframed)
  | _ => exact congr rfl

omit hrun hframes in
/-- **Whole evaluations.** -/
theorem eval (s : Strategy) (n : Nat) (L : Link) :
    Paired.Runs .unruled .none L (Eval.eval ⟨s, true⟩ n) (Eval.eval ⟨s, false⟩ n) := by
  induction n generalizing L with
  | zero => exact fun L₁ _ _ _ _ _ _ _ _ hm => .deep (Link.le_refl L₁) hm
  | succ n ih => exact fun L₁ _ _ _ _ _ h => step (ih L₁) (eval_sameFrames _ n) h

end Unruled

open Eval

/-- **The rule for definitions matters only to programs that use it.** If no definition of the
expression uses a variable of its `let`, then under every strategy and whatever the bound on nested
evaluations, the runs with recursive definitions and without make the same reports, and both hit the
bound or end alike: with values of one text, or with errors of one kind and message. -/
theorem let_rule_irrelevant (s : Strategy) {e : Expr} (he : e.Unrecursive) (n : Nat) :
    (outcome ⟨s, true⟩ n e = .error .tooDeep ∧ outcome ⟨s, false⟩ n e = .error .tooDeep ∨
      ∃ o o', Ends ⟨s, true⟩ n e o ∧ Ends ⟨s, false⟩ n e o' ∧ Alike o o') ∧
    work ⟨s, true⟩ n e = work ⟨s, false⟩ n e := by
  have hstart : Unruled .start [0] e [0] e :=
    ⟨rfl, Link.has_start, he, fun x _ => Link.looks_start x x⟩
  have hend := (Unruled.eval s n .start).start (fun _ _ _ _ h => h) hstart
  have htrace : ∀ {m m' : Machine}, Theory.unruled.view.Echoes m m' →
      m.trace.toList = m'.trace.toList := fun h => congrArg Array.toList (h.trace_eq trivial)
  unfold Ends outcome work leaves
  generalize evalClosed ⟨s, true⟩ n e .initial = r, evalClosed ⟨s, false⟩ n e .initial = r' at hend
  cases hend with
  | ok _ hm hv =>
    have hbare := (hm.fits.like hv).bare_eq trivial
    exact ⟨.inr ⟨.ok _, .ok _, rfl, rfl, .ok hbare⟩, htrace hm.reports⟩
  | error _ hm herr =>
    exact ⟨.inr ⟨.error _, .error _, rfl, rfl, .error (herr.2 trivial)⟩, htrace hm.reports⟩
  | deep _ hm => exact ⟨.inl ⟨rfl, rfl⟩, htrace hm.reports⟩
  | behind hc _ _ => cases hc
  | ahead hc _ _ => cases hc

/-- A `let` whose definitions use a variable of an outer one. -/
def outerUse : Expr :=
  .letIn [("x", .int 2)]
    (.letIn [("f", .map ["y"] (.binary "*" (.var "x") (.var "y"))),
        ("z", .app (.prim .tick) [.var "x"])]
      (.app (.var "f") [.var "z"]))

/-- Both rules let the definitions see the outer variable. -/
theorem let_rule_irrelevant_outerUse :
    outerUse.Unrecursive ∧
      ((outcome ⟨.value, true⟩ 9 outerUse = .error .tooDeep ∧
          outcome ⟨.value, false⟩ 9 outerUse = .error .tooDeep ∨
        ∃ o o', Ends ⟨.value, true⟩ 9 outerUse o ∧ Ends ⟨.value, false⟩ 9 outerUse o' ∧
          Alike o o') ∧
      work ⟨.value, true⟩ 9 outerUse = work ⟨.value, false⟩ 9 outerUse) ∧
      Ends ⟨.value, false⟩ 9 outerUse (.ok (.int 4)) ∧ work ⟨.value, false⟩ 9 outerUse = ["2"] := by
  have hu : outerUse.Unrecursive := by
    refine .letIn (by decide) (List.forall_mem_singleton.mpr (.int 2)) (.letIn (by decide) ?_ ?_)
    · refine List.forall_mem_cons.mpr ⟨.map (.binary (.var _) (.var _)), ?_⟩
      exact List.forall_mem_singleton.mpr (.app (.prim _) (List.forall_mem_singleton.mpr (.var _)))
    · exact .app (.var _) (List.forall_mem_singleton.mpr (.var _))
  exact ⟨hu, let_rule_irrelevant .value hu 9, by decide +kernel, by decide +kernel⟩

end CallBy
