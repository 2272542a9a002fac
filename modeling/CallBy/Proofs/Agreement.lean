import CallBy.Proofs.Likeness
import CallBy.Proofs.Link

/-!
Machines that agree under a theory of which expressions do the same.

* `Theory`: when two expressions, each in its environment, are taken to do the same, and what is to
  be seen of closures;
* `Theory.Values`, `Theory.Bindings`: values and bindings that stand for each other;
* `Agree T L m m'`: what is linked stands for each other. The writes to both machines, and those to
  one of them alone, keep this.
-/

namespace CallBy

/-- The expressions do the same under frames that stand for each other. -/
def Under (Rel : Link → Env → Expr → Env → Expr → Prop) (L : Link) (env : Env) (ps : List String)
    (e : Expr) (env' : Env) (ps' : List String) (e' : Expr) : Prop :=
  ∀ ⦃L₁ : Link⦄, L ≤ L₁ → ∀ ⦃f f' : FrameId⦄, L₁.Framed f ps f' ps' →
    Rel L₁ (f :: env) e (f' :: env') e'

/-- **When two expressions are taken to do the same**, each in its environment. -/
structure Theory where
  Rel : Link → Env → Expr → Env → Expr → Prop
  /-- What is to be seen of closures. -/
  view : View
  /-- Slots of the first machine that stand for no other, and the expressions that they hold for
  good, to be computed anew for every use. -/
  kept : FrameId → String → Expr → Env → Prop
  mono : ∀ {L L₁ env e env' e'}, L ≤ L₁ → Rel L env e env' e' → Rel L₁ env e env' e'
  exact : ∀ {L env e env' e'}, view.exact → Rel L env e env' e' → e = e'
  enter : ∀ {L env ps b env' ps' b'}, Rel L env (.map ps b) env' (.map ps' b') →
    Lined ps ps' ∧ view.params ps ps' ∧ Under Rel L env ps b env' ps' b'

namespace Theory

variable (T : Theory) (L : Link)

/-- Closures that stand for each other. -/
def Closures : ClosureRel := fun i ps b env i' ps' b' env' =>
  L.closures i i' ∧ T.Rel L env (.map ps b) env' (.map ps' b')

/-- Values that stand for each other. -/
abbrev Values : Value → Value → Prop := Value.Like (T.Closures L)

/-- Bindings that stand for each other: they are of one form and hold what stands for each other. -/
inductive Bindings : Binding → Binding → Prop
  | undefined {x x' : String} : (T.view.exact → x = x') → Bindings (.undefined x) (.undefined x')
  | value {x x' : String} {v v' : Value} : T.Values L v v' → Bindings (.value x v) (.value x' v')
  | name {x x' : String} {e e' : Expr} {env env' : Env} : T.Rel L env e env' e' →
      Bindings (.name x e env) (.name x' e' env')
  | pending {x x' : String} {e e' : Expr} {env env' : Env} : (T.view.exact → x = x') →
      T.Rel L env e env' e' → Bindings (.need x (.pending e env)) (.need x' (.pending e' env'))
  | running {x x' : String} {e e' : Expr} {env env' : Env} : (T.view.exact → x = x') →
      T.Rel L env e env' e' → Bindings (.need x (.running e env)) (.need x' (.running e' env'))
  | done {x x' : String} {v v' : Value} : T.Values L v v' →
      Bindings (.need x (.done v)) (.need x' (.done v'))

variable {T L} {L₁ : Link}

theorem Values.mono (h : L ≤ L₁) {v v' : Value} (hv : T.Values L v v') : T.Values L₁ v v' :=
  Value.Like.mono (fun hc => ⟨h.closures hc.1, T.mono h hc.2⟩) hv

theorem Bindings.mono (h : L ≤ L₁) {b b' : Binding} (hb : T.Bindings L b b') :
    T.Bindings L₁ b b' := by
  cases hb with
  | undefined hx => exact .undefined hx
  | value hv => exact .value (Values.mono h hv)
  | name hr => exact .name (T.mono h hr)
  | pending hx hr => exact .pending hx (T.mono h hr)
  | running hx hr => exact .running hx (T.mono h hr)
  | done hv => exact .done (Values.mono h hv)

/-- The theory with other slots to be kept. -/
def keeping (T : Theory) (kept : FrameId → String → Expr → Env → Prop) : Theory :=
  { T with kept := kept }

theorem Bindings.keeping {b b' : Binding} (h : T.Bindings L b b')
    (kept : FrameId → String → Expr → Env → Prop) : (T.keeping kept).Bindings L b b' := by
  cases h with
  | undefined hx => exact .undefined hx
  | value hv => exact .value hv
  | name hr => exact .name hr
  | pending hx hr => exact .pending hx hr
  | running hx hr => exact .running hx hr
  | done hv => exact .done hv

end Theory

/-- **The machines agree**: what is linked is there, determines each other and stands for each
other. -/
structure Agree (T : Theory) (L : Link) (m m' : Machine) : Prop where
  left : m.LaidOut L.vars
  right : m'.LaidOut L.vars'
  slots : ∀ {f x f' x'}, L.slots f x f' x' → ∃ i i', (m.frame f).get? x = some i ∧
    (m'.frame f').get? x' = some i' ∧ L.bindings i i'
  slots_iff : ∀ {f x f' x' g y g' y'}, L.slots f x f' x' → L.slots g y g' y' →
    ((f = g ∧ x = y) ↔ (f' = g' ∧ x' = y'))
  bindings : ∀ {i i' : Nat}, L.bindings i i' → i < m.bindings.size ∧ i' < m'.bindings.size ∧
    T.Bindings L (m.binding i) (m'.binding i')
  bindings_iff : ∀ {i i' j j' : Nat}, L.bindings i i' → L.bindings j j' → (i = j ↔ i' = j')
  closures : ∀ {c c'}, L.closures c c' → c < m.closures ∧ c' < m'.closures
  closures_iff : ∀ {c c' d d'}, L.closures c c' → L.closures d d' → (c = d ↔ c' = d')
  kept : ∀ {f x e env}, T.kept f x e env → (∀ f' x', ¬ L.slots f x f' x') ∧
    ∃ i y, (m.frame f).get? x = some i ∧ (∀ i', ¬ L.bindings i i') ∧ m.binding i = .name y e env
  reports : T.view.Echoes m m'

theorem Machine.lt_size_of_name {m : Machine} {i : Nat} {x : String} {e : Expr} {env : Env}
    (h : m.binding i = .name x e env) : i < m.bindings.size := by
  by_contra hge
  rw [Machine.binding, Array.getElem?_eq_none (Nat.le_of_not_lt hge)] at h
  cases h

theorem Machine.get?_setSlot (m : Machine) {f : FrameId} (h : f < m.frames.size) (x : String)
    (i : BindingId) (g : FrameId) (y : String) : ((m.setSlot f x i).frame g).get? y =
      if f = g ∧ x = y then some i else (m.frame g).get? y := by
  rw [frame_setSlot m h]
  by_cases hf : f = g
  · simp [hf]
  · simp [hf]

namespace Link

variable (L : Link)

/-- The link with one more pair of bindings. -/
def withBindings (i i' : BindingId) : Link :=
  { L with bindings := fun j j' => L.bindings j j' ∨ j = i ∧ j' = i' }

/-- The link with one more pair of closures. -/
def withClosures (c c' : Nat) : Link :=
  { L with closures := fun d d' => L.closures d d' ∨ d = c ∧ d' = c' }

/-- The link with one more frame in the first machine. -/
def withFrame (ps : List String) : Link := { L with vars := L.vars ++ [ps] }

/-- The link with one more frame in the second machine, which the frame `f` of the first stands
for. -/
def withTwin (f : FrameId) (ps ps' : List String) : Link :=
  { L with
    vars' := L.vars' ++ [ps']
    slots := fun g y g' y' =>
      L.slots g y g' y' ∨ g = f ∧ g' = L.vars'.length ∧ (y, y') ∈ ps.zip ps' }

theorem grows_withBindings (i i' : BindingId) : L.Grows (L.withBindings i i') :=
  ⟨⟨List.prefix_refl _, List.prefix_refl _, fun h => h, .inl, fun h => h⟩, .inl⟩

theorem grows_withClosures (c c' : Nat) : L.Grows (L.withClosures c c') :=
  ⟨⟨List.prefix_refl _, List.prefix_refl _, fun h => h, fun h => h, .inl⟩, .inl⟩

theorem grows_withFrame (ps : List String) : L.Grows (L.withFrame ps) :=
  ⟨⟨List.prefix_append _ _, List.prefix_refl _, fun h => h, fun h => h, fun h => h⟩, .inl⟩

theorem le_withTwin (f : FrameId) (ps ps' : List String) : L ≤ L.withTwin f ps ps' :=
  ⟨List.prefix_refl _, List.prefix_append _ _, .inl, fun h => h, fun h => h⟩

theorem framed_withTwin {f : FrameId} {ps : List String} (hf : L.vars[f]? = some ps)
    (ps' : List String) : (L.withTwin f ps ps').Framed f ps L.vars'.length ps' :=
  ⟨hf, by simp [withTwin], fun hx => .inr ⟨rfl, rfl, hx⟩⟩

end Link

/-- The link of two machines with nothing but an empty frame. -/
def Link.start : Link := ⟨[[]], [[]], fun _ _ _ _ => False, fun _ _ => False, fun _ _ => False⟩

theorem Link.has_start : Link.start.Has [0] [0] :=
  ⟨List.forall_mem_singleton.mpr Nat.zero_lt_one, List.forall_mem_singleton.mpr Nat.zero_lt_one⟩

/-- The empty environment binds nothing. -/
theorem Link.looks_start (x x' : String) : Link.start.Looks [0] x [0] x' := .none

namespace Agree

variable {T : Theory} {L : Link} {m m' : Machine}

theorem start (T : Theory) (hkept : ∀ f x e env, ¬ T.kept f x e env) :
    Agree T .start (Machine.initial.addFrame Frame.empty)
      (Machine.initial.addFrame Frame.empty) := by
  have hnone : Machine.initial.LaidOut [] := ⟨rfl, fun f => Frame.binds_empty⟩
  have hlaid : (Machine.initial.addFrame Frame.empty).LaidOut [[]] :=
    hnone.addFrame Frame.binds_empty
  exact ⟨hlaid, hlaid, fun h => h.elim, fun h => h.elim, fun h => h.elim, fun h => h.elim,
    fun h => h.elim, fun h => h.elim, fun h => absurd h (hkept _ _ _ _), .nil⟩

/-- Linked slots are of frames that are there. -/
theorem lt_of_slots (h : Agree T L m m') {f f' : FrameId} {x x' : String}
    (hs : L.slots f x f' x') : f < L.vars.length ∧ f' < L.vars'.length := by
  obtain ⟨i, i', hi, hi', -⟩ := h.slots hs
  exact ⟨Layout.lt_of_mem_names ((h.left.names f x).mp (by rw [hi]; rfl)),
    Layout.lt_of_mem_names ((h.right.names f' x').mp (by rw [hi']; rfl))⟩

/-- What is known of closures is right. -/
theorem fits (h : Agree T L m m') : T.view.Fits (T.Closures L) := by
  refine ⟨fun hc => ⟨(T.enter hc.2).2.1, fun hX => ?_⟩, fun hc hd => h.closures_iff hc.1 hd.1⟩
  have heq := T.exact hX hc.2
  cases heq
  exact ⟨rfl, rfl⟩

/-- Slots of the first machine that are found to stand for no other may be kept. -/
theorem keeping (h : Agree T L m m') {kept : FrameId → String → Expr → Env → Prop}
    (hkept : ∀ {f x e env}, kept f x e env → (∀ f' x', ¬ L.slots f x f' x') ∧
      ∃ i y, (m.frame f).get? x = some i ∧ (∀ i', ¬ L.bindings i i') ∧
        m.binding i = .name y e env) :
    Agree (T.keeping kept) L m m' := by
  refine ⟨h.left, h.right, h.slots, h.slots_iff, fun hi => ?_, h.bindings_iff, h.closures,
    h.closures_iff, hkept, h.reports⟩
  obtain ⟨hlt, hlt', hb⟩ := h.bindings hi
  exact ⟨hlt, hlt', hb.keeping kept⟩

/-! ### Writes to both machines -/

theorem addBindings (h : Agree T L m m') {b b' : Binding} (hb : T.Bindings L b b') :
    Agree T (L.withBindings m.bindings.size m'.bindings.size) (m.addBinding b)
      (m'.addBinding b') := by
  have hle := (L.grows_withBindings m.bindings.size m'.bindings.size).le
  refine ⟨h.left.congr rfl, h.right.congr rfl, fun hs => ?_, h.slots_iff, fun hi => ?_,
    fun hi hj => ?_, h.closures, h.closures_iff, fun hk => ?_, h.reports⟩
  · obtain ⟨i, i', hi, hi', hb⟩ := h.slots hs
    exact ⟨i, i', hi, hi', .inl hb⟩
  · rcases hi with hi | ⟨rfl, rfl⟩
    · obtain ⟨hlt, hlt', hb⟩ := h.bindings hi
      rw [Machine.binding_addBinding_of_lt m b hlt, Machine.binding_addBinding_of_lt m' b' hlt']
      exact ⟨by simp; omega, by simp; omega, hb.mono hle⟩
    · rw [Machine.binding_addBinding, if_pos rfl, Machine.binding_addBinding, if_pos rfl]
      exact ⟨by simp, by simp, hb.mono hle⟩
  · rcases hi with hi | ⟨rfl, rfl⟩
    · have ⟨hlt, hlt', _⟩ := h.bindings hi
      rcases hj with hj | ⟨rfl, rfl⟩
      · exact h.bindings_iff hi hj
      · omega
    · rcases hj with hj | ⟨rfl, rfl⟩
      · have ⟨hlt, hlt', _⟩ := h.bindings hj
        omega
      · exact ⟨fun _ => rfl, fun _ => rfl⟩
  · obtain ⟨hno, i, y, hi, hnot, hb⟩ := h.kept hk
    have hlt := Machine.lt_size_of_name hb
    refine ⟨hno, i, y, hi, fun i' hnew => ?_, ?_⟩
    · exact hnew.elim (hnot i') fun heq => absurd heq.1 (Nat.ne_of_lt hlt)
    · rw [Machine.binding_addBinding_of_lt m _ hlt, hb]

theorem setBindings (h : Agree T L m m') {i i' : BindingId} (hi : L.bindings i i')
    {b b' : Binding} (hb : T.Bindings L b b') :
    Agree T L (m.setBinding i b) (m'.setBinding i' b') := by
  obtain ⟨hlt, hlt', -⟩ := h.bindings hi
  refine ⟨h.left.congr rfl, h.right.congr rfl, h.slots, h.slots_iff, fun hj => ?_, h.bindings_iff,
    h.closures, h.closures_iff, fun hk => ?_, h.reports⟩
  · obtain ⟨hjlt, hjlt', hbj⟩ := h.bindings hj
    refine ⟨by simpa using hjlt, by simpa using hjlt', ?_⟩
    rw [Machine.binding_setBinding m b hlt, Machine.binding_setBinding m' b' hlt']
    -- the pair that is written is hit on both sides or on none
    have hiff := h.bindings_iff hi hj
    split
    · next heq =>
      rw [if_pos (hiff.mp heq)]
      exact hb
    · next hne =>
      rw [if_neg (mt hiff.mpr hne)]
      exact hbj
  · obtain ⟨hno, j, y, hj, hnot, hbj⟩ := h.kept hk
    have hne : i ≠ j := fun heq => hnot i' (heq ▸ hi)
    refine ⟨hno, j, y, hj, hnot, ?_⟩
    rw [Machine.binding_setBinding_of_ne m b hne, hbj]

theorem addClosures (h : Agree T L m m') :
    Agree T (L.withClosures m.closures m'.closures) { m with closures := m.closures + 1 }
      { m' with closures := m'.closures + 1 } := by
  have hle := (L.grows_withClosures m.closures m'.closures).le
  refine ⟨h.left.congr rfl, h.right.congr rfl, h.slots, h.slots_iff, fun hi => ?_, h.bindings_iff,
    fun hc => ?_, fun hc hd => ?_, h.kept, h.reports⟩
  · obtain ⟨hlt, hlt', hb⟩ := h.bindings hi
    exact ⟨hlt, hlt', hb.mono hle⟩
  · rcases hc with hc | ⟨rfl, rfl⟩
    · have := h.closures hc
      exact ⟨by simp; omega, by simp; omega⟩
    · exact ⟨by simp, by simp⟩
  · rcases hc with hc | ⟨rfl, rfl⟩
    · have := h.closures hc
      rcases hd with hd | ⟨rfl, rfl⟩
      · exact h.closures_iff hc hd
      · omega
    · rcases hd with hd | ⟨rfl, rfl⟩
      · have := h.closures hd
        omega
      · exact ⟨fun _ => rfl, fun _ => rfl⟩

theorem report (h : Agree T L m m') {v v' : Value} (hv : T.Values L v v') :
    Agree T L (m.report v) (m'.report v') := by
  refine ⟨h.left.congr rfl, h.right.congr rfl, h.slots, h.slots_iff, h.bindings, h.bindings_iff,
    h.closures, h.closures_iff, h.kept, ?_⟩
  exact h.reports.report (h.fits.like hv)

theorem setSlots (h : Agree T L m m') {f f' : FrameId} {x x' : String} (hs : L.slots f x f' x')
    {i i' : BindingId} (hi : L.bindings i i') :
    Agree T L (m.setSlot f x i) (m'.setSlot f' x' i') := by
  obtain ⟨j, j', hj, hj', -⟩ := h.slots hs
  have hx : x ∈ L.vars.names f := (h.left.names f x).mp (by rw [hj]; rfl)
  have hx' : x' ∈ L.vars'.names f' := (h.right.names f' x').mp (by rw [hj']; rfl)
  have hf : f < m.frames.size := h.left.size ▸ (h.lt_of_slots hs).1
  have hf' : f' < m'.frames.size := h.right.size ▸ (h.lt_of_slots hs).2
  refine ⟨h.left.setSlot hx i, h.right.setSlot hx' i', fun {g y g' y'} hg => ?_, h.slots_iff,
    h.bindings, h.bindings_iff, h.closures, h.closures_iff, fun {g y e env} hk => ?_, h.reports⟩
  · obtain ⟨k, k', hk, hk', hb⟩ := h.slots hg
    have hiff := h.slots_iff hs hg
    rw [Machine.get?_setSlot m hf, Machine.get?_setSlot m' hf']
    split
    · next heq =>
      rw [if_pos (hiff.mp heq)]
      exact ⟨i, i', rfl, rfl, hi⟩
    · next hne =>
      rw [if_neg (mt hiff.mpr hne)]
      exact ⟨k, k', hk, hk', hb⟩
  · obtain ⟨hno, k, z, hget, hb⟩ := h.kept hk
    refine ⟨hno, k, z, ?_, hb⟩
    rw [Machine.get?_setSlot m hf, if_neg, hget]
    rintro ⟨rfl, rfl⟩
    exact hno _ _ hs

/-- A frame of the second machine that a frame of the first stands for. -/
theorem addTwin (h : Agree T L m m') {f : FrameId} {ps ps' : List String} {F' : Frame}
    (hf : L.vars[f]? = some ps) (hlined : Lined ps ps') (hfree : ∀ y g' y', ¬ L.slots f y g' y')
    (hkept : ∀ y e env, ¬ T.kept f y e env) (hF' : F'.Binds ps')
    (hslots : ∀ {x x'}, (x, x') ∈ ps.zip ps' → ∃ i i', (m.frame f).get? x = some i ∧
      F'.get? x' = some i' ∧ L.bindings i i') :
    Agree T (L.withTwin f ps ps') m (m'.addFrame F') := by
  have hle := L.le_withTwin f ps ps'
  have hsize := h.right.size
  -- the slots of the new frame are no old ones
  have hnew : ∀ {g y g' y'}, L.slots g y g' y' → g' ≠ m'.frames.size := by
    rintro g y g' y' hs rfl
    exact Nat.lt_irrefl _ (hsize ▸ (h.lt_of_slots hs).2)
  refine ⟨h.left, h.right.addFrame hF', fun {g y g' y'} hs => ?_, fun hs ht => ?_, fun hi => ?_,
    h.bindings_iff, h.closures, h.closures_iff, fun hk => ?_, h.reports⟩
  · rcases hs with hs | ⟨rfl, rfl, hx⟩
    · rw [Machine.frame_addFrame, if_neg (hnew hs)]
      exact h.slots hs
    · rw [Machine.frame_addFrame, if_pos hsize.symm]
      exact hslots hx
  · rcases hs with hs | ⟨rfl, rfl, hx⟩
    · rcases ht with ht | ⟨rfl, rfl, hy⟩
      · exact h.slots_iff hs ht
      · have hne := hnew hs
        rw [hsize] at hne
        exact ⟨fun ⟨heq, _⟩ => absurd hs (heq ▸ hfree _ _ _), fun ⟨heq, _⟩ => absurd heq hne⟩
    · rcases ht with ht | ⟨rfl, rfl, hy⟩
      · have hne := hnew ht
        rw [hsize] at hne
        exact ⟨fun ⟨heq, _⟩ => absurd ht (heq ▸ hfree _ _ _), fun ⟨heq, _⟩ => absurd heq.symm hne⟩
      · simp only [true_and]
        exact hlined.iff hx hy
  · obtain ⟨hlt, hlt', hb⟩ := h.bindings hi
    exact ⟨hlt, hlt', hb.mono hle⟩
  · obtain ⟨hno, i, y, hi, hb⟩ := h.kept hk
    refine ⟨fun f' x' hs => ?_, i, y, hi, hb⟩
    rcases hs with hs | ⟨rfl, -, -⟩
    · exact hno f' x' hs
    · exact hkept _ _ _ hk

/-! ### Writes to the first machine alone -/

theorem addBinding (h : Agree T L m m') (b : Binding) : Agree T L (m.addBinding b) m' := by
  refine ⟨h.left.congr rfl, h.right, h.slots, h.slots_iff, fun hi => ?_, h.bindings_iff, h.closures,
    h.closures_iff, fun hk => ?_, h.reports⟩
  · obtain ⟨hlt, hlt', hb⟩ := h.bindings hi
    rw [Machine.binding_addBinding_of_lt m b hlt]
    exact ⟨by simp; omega, hlt', hb⟩
  · obtain ⟨hno, i, y, hi, hnot, hb⟩ := h.kept hk
    refine ⟨hno, i, y, hi, hnot, ?_⟩
    rw [Machine.binding_addBinding_of_lt m _ (Machine.lt_size_of_name hb), hb]

theorem addFrame (h : Agree T L m m') {F : Frame} {ps : List String} (hF : F.Binds ps) :
    Agree T (L.withFrame ps) (m.addFrame F) m' := by
  have hle := (L.grows_withFrame ps).le
  have hold : ∀ {f x i}, (m.frame f).get? x = some i → (m.addFrame F).frame f = m.frame f := by
    intro f x i hi
    have hlt := Layout.lt_of_mem_names ((h.left.names f x).mp (by simp [hi]))
    exact Machine.frame_addFrame_of_lt m F (h.left.size ▸ hlt)
  refine ⟨h.left.addFrame hF, h.right, fun hs => ?_, h.slots_iff, fun hi => ?_, h.bindings_iff,
    h.closures, h.closures_iff, fun hk => ?_, h.reports⟩
  · obtain ⟨i, i', hi, hi', hb⟩ := h.slots hs
    exact ⟨i, i', by rw [hold hi, hi], hi', hb⟩
  · obtain ⟨hlt, hlt', hb⟩ := h.bindings hi
    exact ⟨hlt, hlt', hb.mono hle⟩
  · obtain ⟨hno, i, y, hi, hb⟩ := h.kept hk
    exact ⟨hno, i, y, by rw [hold hi, hi], hb⟩

theorem setSlot (h : Agree T L m m') {f : FrameId} {x : String} (hx : x ∈ L.vars.names f)
    (hfree : ∀ f' x', ¬ L.slots f x f' x') (hkept : ∀ e env, ¬ T.kept f x e env) (i : BindingId) :
    Agree T L (m.setSlot f x i) m' := by
  have hf : f < m.frames.size := h.left.size ▸ Layout.lt_of_mem_names hx
  have hother : ∀ {g y}, ¬ (f = g ∧ x = y) →
      ((m.setSlot f x i).frame g).get? y = (m.frame g).get? y := fun hne => by
    rw [Machine.get?_setSlot m hf, if_neg hne]
  refine ⟨h.left.setSlot hx i, h.right, fun {g y g' y'} hs => ?_, h.slots_iff, h.bindings,
    h.bindings_iff, h.closures, h.closures_iff, fun {g y e env} hk => ?_, h.reports⟩
  · rw [hother]
    · exact h.slots hs
    · rintro ⟨rfl, rfl⟩
      exact hfree _ _ hs
  · rw [hother]
    · exact h.kept hk
    · rintro ⟨rfl, rfl⟩
      exact hkept _ _ hk

theorem addClosure (h : Agree T L m m') : Agree T L { m with closures := m.closures + 1 } m' := by
  refine ⟨h.left.congr rfl, h.right, h.slots, h.slots_iff, h.bindings, h.bindings_iff, fun hc => ?_,
    h.closures_iff, h.kept, h.reports⟩
  have := h.closures hc
  exact ⟨by simp; omega, this.2⟩

/-- A new frame in either machine, with variables that stand for each other. -/
theorem addFrames (h : Agree T L m m') {ps ps' : List String} {F F' : Frame}
    (hlined : Lined ps ps') (hF : F.Binds ps) (hF' : F'.Binds ps')
    (hslots : ∀ {x x'}, (x, x') ∈ ps.zip ps' → ∃ i i', F.get? x = some i ∧
      F'.get? x' = some i' ∧ L.bindings i i') :
    ∃ L₁, L.Grows L₁ ∧ L₁.Framed m.frames.size ps m'.frames.size ps' ∧
      Agree T L₁ (m.addFrame F) (m'.addFrame F') := by
  have hf : (L.withFrame ps).vars[m.frames.size]? = some ps := by simp [Link.withFrame, h.left.size]
  refine ⟨(L.withFrame ps).withTwin m.frames.size ps ps', ⟨Link.le_trans (L.grows_withFrame ps).le
    (Link.le_withTwin _ _ _ _), fun hs => ?_⟩, ?_, ?_⟩
  · rcases hs with hs | ⟨rfl, rfl, -⟩
    · exact .inl hs
    · exact .inr ⟨Nat.le_of_eq h.left.size.symm, Nat.le_refl _⟩
  · have hframed := Link.framed_withTwin _ hf ps'
    rwa [show (L.withFrame ps).vars'.length = m'.frames.size from h.right.size.symm] at hframed
  · refine (h.addFrame hF).addTwin hf hlined (fun y g' y' hs => ?_) (fun y e env hk => ?_) hF'
      fun hx => ?_
    · exact Nat.lt_irrefl _ (h.left.size ▸ (h.lt_of_slots hs).1)
    · obtain ⟨-, i, -, hi, -⟩ := h.kept hk
      have hlt := Layout.lt_of_mem_names ((h.left.names _ y).mp (by rw [hi]; rfl))
      exact Nat.lt_irrefl _ (h.left.size ▸ hlt)
    · rw [Machine.frame_addFrame, if_pos rfl]
      exact hslots hx

end Agree

end CallBy
