import CallBy.Proofs.Scoping
import Mathlib.Data.List.Infix
import Mathlib.Data.List.Nodup
import Mathlib.Data.Option.Basic

/-!
Two machines side by side.

The variables of a frame are known when the frame is made, whether or not its slots are filled
already. A `Layout` lists them, so it says which frame of an environment binds a variable, and goes
on saying so.

* `Link`: the layouts of two machines, and which slots, bindings and closures of the one stand for
  which of the other;
* `Link.Looks L env x env' x'`: the variables lead to slots that stand for each other, or nowhere;
* `Link.Framed`: two frames whose variables stand for each other in the order in which they are
  bound. `Lined` says that the names allow for this.
-/

namespace CallBy

/-! ### Layouts -/

/-- The variables of the frames of a machine. -/
abbrev Layout := List (List String)

namespace Layout

variable {V W : Layout} {f : FrameId} {env : Env} {x : String}

/-- The variables of a frame. -/
def names (V : Layout) (f : FrameId) : List String := V[f]?.getD []

/-- The innermost frame that binds the variable. -/
def find? (V : Layout) (env : Env) (x : String) : Option FrameId := env.find? (x ∈ V.names ·)

/-- The environment is made of frames of the layout. -/
def Has (V : Layout) (env : Env) : Prop := ∀ f ∈ env, f < V.length

theorem Has.mono (h : V <+: W) (henv : V.Has env) : W.Has env :=
  fun f hf => Nat.lt_of_lt_of_le (henv f hf) h.length_le

theorem names_mono (h : V <+: W) (hf : f < V.length) : W.names f = V.names f := by
  obtain ⟨t, rfl⟩ := h
  rw [names, names, List.getElem?_append_left hf]

theorem names_append (V : Layout) (ps : List String) (f : FrameId) :
    names (V ++ [ps]) f = if f = V.length then ps else V.names f := by
  simp only [names, List.getElem?_append, List.getElem?_singleton]
  grind

theorem lt_of_mem_names (h : x ∈ V.names f) : f < V.length := by
  by_contra hge
  simp [names, List.getElem?_eq_none (Nat.le_of_not_lt hge)] at h

theorem find?_mono (h : V <+: W) (henv : V.Has env) : W.find? env x = V.find? env x := by
  induction env with
  | nil => rfl
  | cons f env ih =>
    obtain ⟨hf, henv⟩ := List.forall_mem_cons.mp henv
    simp only [find?, List.find?_cons, names_mono h hf] at ih ⊢
    rw [ih henv]

theorem find?_cons_of_mem (h : x ∈ V.names f) : V.find? (f :: env) x = some f := by
  simp [find?, h]

theorem find?_cons_of_not_mem (h : x ∉ V.names f) : V.find? (f :: env) x = V.find? env x := by
  simp [find?, h]

end Layout

/-- A name has a last entry if it has an entry at all. -/
theorem isSome_lastOf? {α : Type} (x : String) (ds : List (String × α)) :
    (lastOf? x ds).isSome = true ↔ x ∈ ds.map (·.1) := by
  induction ds with
  | nil => simp [lastOf?]
  | cons p ds ih =>
    simp only [lastOf?, Option.isSome_or, Bool.or_eq_true, ih, List.map_cons, List.mem_cons]
    by_cases hp : p.1 = x
    · simp [hp]
    · simp [hp, Ne.symm hp]

/-! ### Frames -/

/-- The frame binds these variables, each of them once. -/
structure Frame.Binds (F : Frame) (ps : List String) : Prop where
  nodup : F.vars.Nodup
  names : ∀ x, (F.get? x).isSome = true ↔ x ∈ ps

namespace Frame

variable {F : Frame} {ps : List String}

theorem vars_setSlots (x : String) (i : BindingId) (ss : List (String × BindingId)) :
    (setSlots x i ss).map (·.1) =
      if x ∈ ss.map (·.1) then ss.map (·.1) else ss.map (·.1) ++ [x] := by
  fun_induction setSlots x i ss <;> grind

theorem nodup_set (h : F.vars.Nodup) (x : String) (i : BindingId) : (F.set x i).vars.Nodup := by
  rw [vars, set, vars_setSlots]
  split
  · exact h
  · next hx => exact List.nodup_append.mpr ⟨h, by simp, by grind [vars]⟩

theorem nodup_ofSlots (slots : List (String × BindingId)) : (ofSlots slots).vars.Nodup := by
  have hfold : ∀ F : Frame, F.vars.Nodup →
      (slots.foldl (fun F s => F.set s.1 s.2) F).vars.Nodup := by
    induction slots with
    | nil => exact fun F h => h
    | cons s slots ih => exact fun F h => ih _ (nodup_set h s.1 s.2)
  exact hfold empty List.nodup_nil

theorem binds_empty : empty.Binds [] := ⟨List.nodup_nil, fun x => by simp⟩

theorem binds_ofSlots (slots : List (String × BindingId)) :
    (ofSlots slots).Binds (slots.map (·.1)) :=
  ⟨nodup_ofSlots slots, fun x => by rw [get?_ofSlots, isSome_lastOf?]⟩

theorem Binds.set (h : F.Binds ps) {x : String} (hx : x ∈ ps) (i : BindingId) :
    (F.set x i).Binds ps := by
  refine ⟨nodup_set h.nodup x i, fun y => ?_⟩
  rw [get?_set, ← h.names y]
  split
  · next hxy =>
    subst hxy
    simpa using (h.names x).mpr hx
  · rfl

/-- Every slot is found. -/
theorem Binds.get?_of_mem (h : F.Binds ps) {s : String × BindingId} (hs : s ∈ F.slots) :
    F.get? s.1 = some s.2 := by
  have hnodup := h.nodup
  clear h
  obtain ⟨ss⟩ := F
  simp only [vars, get?] at hnodup hs ⊢
  induction ss with
  | nil => cases hs
  | cons t ss ih => grind [getSlot?]

end Frame

/-- The frames of the machine bind the variables of the layout. -/
structure Machine.LaidOut (m : Machine) (V : Layout) : Prop where
  size : m.frames.size = V.length
  binds : ∀ f, (m.frame f).Binds (V.names f)

namespace Machine.LaidOut

variable {m m' : Machine} {V : Layout}

theorem names (h : m.LaidOut V) (f : FrameId) (x : String) :
    ((m.frame f).get? x).isSome = true ↔ x ∈ V.names f := (h.binds f).names x

/-- Only frames matter. -/
theorem congr (h : m.LaidOut V) (hf : m'.frames = m.frames) : m'.LaidOut V := by
  refine ⟨by rw [hf, h.size], fun f => ?_⟩
  simpa only [frame, hf] using h.binds f

theorem addFrame (h : m.LaidOut V) {F : Frame} {ps : List String} (hF : F.Binds ps) :
    (m.addFrame F).LaidOut (V ++ [ps]) := by
  refine ⟨by simp [h.size], fun f => ?_⟩
  rw [frame_addFrame, h.size, Layout.names_append]
  split
  · exact hF
  · exact h.binds f

theorem setSlot (h : m.LaidOut V) {f : FrameId} {x : String} (hx : x ∈ V.names f) (i : BindingId) :
    (m.setSlot f x i).LaidOut V := by
  refine ⟨by simp [h.size], fun g => ?_⟩
  have hf : f < m.frames.size := by
    rw [h.size]
    exact Layout.lt_of_mem_names hx
  rw [frame_setSlot m hf]
  split
  · next heq =>
    subst heq
    exact (h.binds f).set hx i
  · exact h.binds g

/-- **The layout says where a variable is found.** -/
theorem lookup?_eq (h : m.LaidOut V) (env : Env) (x : String) :
    m.lookup? env x = (V.find? env x).bind fun f => (m.frame f).get? x := by
  induction env with
  | nil => rfl
  | cons f env ih =>
    simp only [lookup?, List.findSome?_cons] at ih ⊢
    by_cases hx : x ∈ V.names f
    · obtain ⟨i, hi⟩ := Option.isSome_iff_exists.mp ((h.names f x).mpr hx)
      rw [Layout.find?_cons_of_mem hx, Option.bind_some, hi]
    · have hnone : (m.frame f).get? x = none := by
        simpa using mt (h.names f x).mp hx
      rw [Layout.find?_cons_of_not_mem hx, hnone, ih]

end Machine.LaidOut

/-! ### Names that stand for each other -/

/-- The names in the same place of two lists determine each other. -/
structure Lined (ps ps' : List String) : Prop where
  length_eq : ps.length = ps'.length
  iff : ∀ {x x' y y' : String}, (x, x') ∈ ps.zip ps' → (y, y') ∈ ps.zip ps' → (x = y ↔ x' = y')

namespace Lined

/-- In a list and itself every name stands for itself. -/
theorem mem_zip_self {ps : List String} {x x' : String} :
    (x, x') ∈ ps.zip ps ↔ x = x' ∧ x ∈ ps := by
  induction ps with
  | nil => simp
  | cons p ps ih => simp only [List.zip_cons_cons, List.mem_cons, Prod.mk.injEq, ih]; grind

theorem refl (ps : List String) : Lined ps ps := by
  refine ⟨rfl, fun hx hy => ?_⟩
  rw [(mem_zip_self.mp hx).1, (mem_zip_self.mp hy).1]

theorem of_nodup {ps ps' : List String} (hlen : ps.length = ps'.length) (h : ps.Nodup)
    (h' : ps'.Nodup) : Lined ps ps' := by
  refine ⟨hlen, fun hx hy => ?_⟩
  obtain ⟨i, hi, hx⟩ := List.mem_iff_getElem.mp hx
  obtain ⟨j, hj, hy⟩ := List.mem_iff_getElem.mp hy
  rw [List.getElem_zip] at hx hy
  cases hx
  cases hy
  rw [h.getElem_inj_iff, h'.getElem_inj_iff]

/-- Every name stands for one. -/
theorem exists_right {ps ps' : List String} (h : Lined ps ps') {x : String} (hx : x ∈ ps) :
    ∃ x', (x, x') ∈ ps.zip ps' := by
  obtain ⟨i, hi, rfl⟩ := List.mem_iff_getElem.mp hx
  have hi' : i < ps'.length := h.length_eq ▸ hi
  exact ⟨ps'[i], List.mem_iff_getElem.mpr ⟨i, by grind, by simp⟩⟩

theorem exists_left {ps ps' : List String} (h : Lined ps ps') {x' : String} (hx : x' ∈ ps') :
    ∃ x, (x, x') ∈ ps.zip ps' := by
  obtain ⟨i, hi', rfl⟩ := List.mem_iff_getElem.mp hx
  have hi : i < ps.length := h.length_eq ▸ hi'
  exact ⟨ps[i], List.mem_iff_getElem.mpr ⟨i, by grind, by simp⟩⟩

/-- The last entries of names that stand for each other are in the same place. -/
theorem lastOf? {α β : Type} {R : α → β → Prop} {ss : List (String × α)} {ss' : List (String × β)}
    (h : Lined (ss.map (·.1)) (ss'.map (·.1))) (hR : List.Forall₂ (fun s s' => R s.2 s'.2) ss ss')
    {x x' : String} (hx : (x, x') ∈ (ss.map (·.1)).zip (ss'.map (·.1))) :
    ∃ a a', CallBy.lastOf? x ss = some a ∧ CallBy.lastOf? x' ss' = some a' ∧ R a a' := by
  induction hR with
  | nil => cases hx
  | @cons s s' ss ss' hs hss ih =>
    have htail : Lined (ss.map (·.1)) (ss'.map (·.1)) :=
      ⟨by simpa using h.length_eq, fun hx hy =>
        h.iff (List.mem_cons_of_mem _ hx) (List.mem_cons_of_mem _ hy)⟩
    by_cases hmem : (x, x') ∈ (ss.map (·.1)).zip (ss'.map (·.1))
    · obtain ⟨a, a', ha, ha', hR⟩ := ih htail hmem
      exact ⟨a, a', by simp [CallBy.lastOf?, ha], by simp [CallBy.lastOf?, ha'], hR⟩
    · -- no later entry has one of the names, for it would have the other too
      obtain ⟨rfl, rfl⟩ : x = s.1 ∧ x' = s'.1 := by
        simpa using (List.mem_cons.mp hx).resolve_right hmem
      have hnone : CallBy.lastOf? s.1 ss = none := by
        rw [← Option.not_isSome_iff_eq_none, isSome_lastOf?]
        intro hs
        obtain ⟨y', hy⟩ := htail.exists_right hs
        have heq := (h.iff hx (List.mem_cons_of_mem _ hy)).mp rfl
        exact hmem (heq ▸ hy)
      have hnone' : CallBy.lastOf? s'.1 ss' = none := by
        rw [← Option.not_isSome_iff_eq_none, isSome_lastOf?]
        intro hs
        obtain ⟨y, hy⟩ := htail.exists_left hs
        have heq := (h.iff hx (List.mem_cons_of_mem _ hy)).mpr rfl
        exact hmem (heq ▸ hy)
      exact ⟨s.2, s'.2, by simp [CallBy.lastOf?, hnone], by simp [CallBy.lastOf?, hnone'], hs⟩

end Lined

/-! ### Links -/

/-- Which slots, bindings and closures of two machines stand for each other. -/
structure Link where
  /-- The variables of the frames of the first machine. -/
  vars : Layout
  /-- The variables of the frames of the second machine. -/
  vars' : Layout
  slots : FrameId → String → FrameId → String → Prop
  bindings : BindingId → BindingId → Prop
  closures : Nat → Nat → Prop

namespace Link

variable {L L₁ L₂ : Link}

/-- The second link says all that the first one says. -/
structure Le (L L₁ : Link) : Prop where
  vars : L.vars <+: L₁.vars
  vars' : L.vars' <+: L₁.vars'
  slots : ∀ {f x f' x'}, L.slots f x f' x' → L₁.slots f x f' x'
  bindings : ∀ {i i'}, L.bindings i i' → L₁.bindings i i'
  closures : ∀ {c c'}, L.closures c c' → L₁.closures c c'

instance : LE Link := ⟨Le⟩

theorem le_refl (L : Link) : L ≤ L :=
  ⟨List.prefix_refl _, List.prefix_refl _, fun h => h, fun h => h, fun h => h⟩

theorem le_trans (h : L ≤ L₁) (h' : L₁ ≤ L₂) : L ≤ L₂ :=
  ⟨h.vars.trans h'.vars, h.vars'.trans h'.vars', fun hs => h'.slots (h.slots hs),
    fun hb => h'.bindings (h.bindings hb), fun hc => h'.closures (h.closures hc)⟩

/-- The second link says more, and what it says more about slots is about new frames. -/
structure Grows (L L₁ : Link) : Prop where
  le : L ≤ L₁
  fresh : ∀ {f x f' x'}, L₁.slots f x f' x' →
    L.slots f x f' x' ∨ L.vars.length ≤ f ∧ L.vars'.length ≤ f'

theorem Grows.refl (L : Link) : L.Grows L := ⟨le_refl L, .inl⟩

theorem Grows.trans (h : L.Grows L₁) (h' : L₁.Grows L₂) : L.Grows L₂ := by
  refine ⟨le_trans h.le h'.le, fun hs => ?_⟩
  rcases h'.fresh hs with hs | ⟨hf, hf'⟩
  · exact h.fresh hs
  · exact .inr ⟨Nat.le_trans h.le.vars.length_le hf, Nat.le_trans h.le.vars'.length_le hf'⟩

/-- The environments are made of frames of the machines. -/
def Has (L : Link) (env env' : Env) : Prop := L.vars.Has env ∧ L.vars'.Has env'

theorem Has.mono (h : L ≤ L₁) {env env' : Env} (henv : L.Has env env') : L₁.Has env env' :=
  ⟨henv.1.mono h.vars, henv.2.mono h.vars'⟩

/-- **The variables lead to slots that stand for each other**, or none of them leads to a slot. -/
def Looks (L : Link) (env : Env) (x : String) (env' : Env) (x' : String) : Prop :=
  Option.Rel (fun f f' => L.slots f x f' x') (L.vars.find? env x) (L.vars'.find? env' x')

theorem Looks.mono (h : L ≤ L₁) {env env' : Env} (henv : L.Has env env') {x x' : String}
    (hx : L.Looks env x env' x') : L₁.Looks env x env' x' := by
  rw [Looks, Layout.find?_mono h.vars henv.1, Layout.find?_mono h.vars' henv.2]
  rw [Looks] at hx
  generalize L.vars.find? env x = o, L.vars'.find? env' x' = o' at hx
  cases hx with
  | some hs => exact .some (h.slots hs)
  | none => exact .none

/-- The frames bind these variables, and those in the same place stand for each other. -/
structure Framed (L : Link) (f : FrameId) (ps : List String) (f' : FrameId) (ps' : List String) :
    Prop where
  left : L.vars[f]? = some ps
  right : L.vars'[f']? = some ps'
  slots : ∀ {x x'}, (x, x') ∈ ps.zip ps' → L.slots f x f' x'

namespace Framed

variable {f f' : FrameId} {ps ps' : List String} {env env' : Env} {x x' : String}

theorem names_left (h : L.Framed f ps f' ps') : L.vars.names f = ps := by
  rw [Layout.names, h.left, Option.getD_some]

theorem names_right (h : L.Framed f ps f' ps') : L.vars'.names f' = ps' := by
  rw [Layout.names, h.right, Option.getD_some]

theorem mono (h : L.Framed f ps f' ps') (hL : L ≤ L₁) : L₁.Framed f ps f' ps' :=
  ⟨World.getElem?_of_prefix hL.vars h.left, World.getElem?_of_prefix hL.vars' h.right,
    fun hx => hL.slots (h.slots hx)⟩

theorem has (h : L.Framed f ps f' ps') (henv : L.Has env env') : L.Has (f :: env) (f' :: env') :=
  ⟨List.forall_mem_cons.mpr ⟨(List.getElem?_eq_some_iff.mp h.left).1, henv.1⟩,
    List.forall_mem_cons.mpr ⟨(List.getElem?_eq_some_iff.mp h.right).1, henv.2⟩⟩

/-- The variables of the frames. -/
theorem looks_new (h : L.Framed f ps f' ps') (hx : (x, x') ∈ ps.zip ps') :
    L.Looks (f :: env) x (f' :: env') x' := by
  have hmem := List.of_mem_zip hx
  rw [Looks, Layout.find?_cons_of_mem (h.names_left ▸ hmem.1),
    Layout.find?_cons_of_mem (h.names_right ▸ hmem.2)]
  exact .some (h.slots hx)

/-- The variables that the frames leave to the outer ones. -/
theorem looks_old (h : L.Framed f ps f' ps') (hx : x ∉ ps) (hx' : x' ∉ ps')
    (hlooks : L.Looks env x env' x') : L.Looks (f :: env) x (f' :: env') x' := by
  rwa [Looks, Layout.find?_cons_of_not_mem (h.names_left ▸ hx),
    Layout.find?_cons_of_not_mem (h.names_right ▸ hx')]

end Framed

end Link

end CallBy
