import CallBy.Proofs.Bare
import CallBy.Proofs.Form
import CallBy.Proofs.Storeless
import Mathlib.Data.List.Forall2

/-!
Machines as stores of storeless scopes.

A `World` says what the addresses of a machine stand for: every frame for a scope, every binding for
an expression in a scope. Worlds only grow (`w ≤ w'`), as machines do.

* `Stack w env σ`: the environment stands for the scope;
* `Stands d w v u`: the value stands for the storeless value;
* `Holds d w t b`: the binding holds the expression and scope `t`, unevaluated or as its value, or
  is the placeholder that it should be;
* `Models d w m`: the machine is as the world says. `ModelsBut` leaves some frames out, as those
  that a `let` is about to fill;
* `Models.lookup`: looking a variable up in an environment and in its scope comes to the same.
-/

namespace CallBy

open Storeless

/-- What the addresses of a machine stand for. -/
structure World where
  /-- The scopes of the frames. -/
  scopes : List Scope
  /-- The expressions and scopes of the bindings; `none` for a placeholder. -/
  thunks : List (Option (Expr × Scope))

namespace World

instance : LE World := ⟨fun w w' => w.scopes <+: w'.scopes ∧ w.thunks <+: w'.thunks⟩

variable {w w' w'' : World}

theorem le_refl (w : World) : w ≤ w := ⟨List.prefix_refl _, List.prefix_refl _⟩

theorem le_trans (h : w ≤ w') (h' : w' ≤ w'') : w ≤ w'' := ⟨h.1.trans h'.1, h.2.trans h'.2⟩

theorem getElem?_of_prefix {α : Type} {l l' : List α} (h : l <+: l') {i : Nat} {a : α}
    (hi : l[i]? = some a) : l'[i]? = some a := by
  obtain ⟨t, rfl⟩ := h
  have hlt : i < l.length := (List.getElem?_eq_some_iff.mp hi).1
  rw [List.getElem?_append_left hlt]
  exact hi

theorem scope_mono (h : w ≤ w') {f : FrameId} {σ : Scope} (hf : w.scopes[f]? = some σ) :
    w'.scopes[f]? = some σ := getElem?_of_prefix h.1 hf

theorem thunk_mono (h : w ≤ w') {i : BindingId} {t : Option (Expr × Scope)}
    (hi : w.thunks[i]? = some t) : w'.thunks[i]? = some t := getElem?_of_prefix h.2 hi

/-- The world with one more frame. -/
def addScope (w : World) (σ : Scope) : World := { w with scopes := w.scopes ++ [σ] }

/-- The world with one more binding. -/
def addThunk (w : World) (t : Option (Expr × Scope)) : World :=
  { w with thunks := w.thunks ++ [t] }

theorem le_addScope (w : World) (σ : Scope) : w ≤ w.addScope σ :=
  ⟨List.prefix_append _ _, List.prefix_refl _⟩

theorem le_addThunk (w : World) (t : Option (Expr × Scope)) : w ≤ w.addThunk t :=
  ⟨List.prefix_refl _, List.prefix_append _ _⟩

theorem scopes_addScope_self (w : World) (σ : Scope) :
    (w.addScope σ).scopes[w.scopes.length]? = some σ := by simp [addScope]

theorem thunks_addThunk_self (w : World) (t : Option (Expr × Scope)) :
    (w.addThunk t).thunks[w.thunks.length]? = some t := by simp [addThunk]

/-- The frame of a longer world is an old one or the new one. -/
theorem scopes_addScope (w : World) (σ : Scope) (f : FrameId) :
    (w.addScope σ).scopes[f]? = if f = w.scopes.length then some σ else w.scopes[f]? := by
  simp only [addScope, List.getElem?_append, List.getElem?_singleton]
  grind

theorem thunks_addThunk (w : World) (t : Option (Expr × Scope)) (i : BindingId) :
    (w.addThunk t).thunks[i]? = if i = w.thunks.length then some t else w.thunks[i]? := by
  simp only [addThunk, List.getElem?_append, List.getElem?_singleton]
  grind

end World

/-! ### What environments, values and bindings stand for -/

/-- The environment stands for the scope. -/
inductive Stack (w : World) : Env → Scope → Prop
  | top {f : FrameId} : w.scopes[f]? = some .top → Stack w [f] .top
  | call {f : FrameId} {env : Env} {ds : List (String × Expr)} {home outer : Scope} :
      w.scopes[f]? = some (.call ds home outer) → Stack w env outer →
      Stack w (f :: env) (.call ds home outer)
  | letrec {f : FrameId} {env : Env} {ds : List (String × Expr)} {outer : Scope} :
      w.scopes[f]? = some (.letrec ds outer) → Stack w env outer →
      Stack w (f :: env) (.letrec ds outer)

/-- What expressions are asked for: call by value looks at a definition before the later ones are
there, so names must not be bound twice. -/
def Fit (d : Discipline) (e : Expr) : Prop := d.strategy = .value → e.Distinct

/-- The value stands for the storeless value. -/
inductive Stands (d : Discipline) (w : World) : Value → Val → Prop
  | int (n : Int) : Stands d w (.int n) (.int n)
  | bool (b : Bool) : Stands d w (.bool b) (.bool b)
  | empty : Stands d w .empty .empty
  | cons {a r : Value} {a' r' : Val} : Stands d w a a' → Stands d w r r' →
      Stands d w (.cons a r) (.cons a' r')
  | closure {i : Nat} {ps : List String} {b : Expr} {env : Env} {σ : Scope} : Stack w env σ →
      Fit d b → Stands d w (.closure i ps b env) (.closure ps b σ)
  | prim (p : Prim) : Stands d w (.prim p) (.prim p)

/-- The binding holds an expression and its scope, as they are or as their value; a placeholder
holds nothing. -/
def Holds (d : Discipline) (w : World) : Option (Expr × Scope) → Binding → Prop
  | none, b => ∃ x, b = .undefined x
  | some _, .undefined _ => False
  | some t, .value _ v =>
    d.strategy = .value ∧ ∃ u, Yields d.recursiveLet t.2 t.1 u ∧ Stands d w v u
  | some t, .name _ e env => d.strategy = .name ∧ e = t.1 ∧ Stack w env t.2
  | some t, .need _ (.pending e env) | some t, .need _ (.running e env) =>
    d.strategy = .need ∧ e = t.1 ∧ Stack w env t.2
  | some t, .need _ (.done v) =>
    d.strategy = .need ∧ ∃ u, Yields d.recursiveLet t.2 t.1 u ∧ Stands d w v u

section Mono

variable {d : Discipline} {w w' : World} (h : w ≤ w')

include h

theorem Stack.mono {env : Env} {σ : Scope} (hs : Stack w env σ) : Stack w' env σ := by
  induction hs with
  | top hf => exact .top (World.scope_mono h hf)
  | call hf _ ih => exact .call (World.scope_mono h hf) ih
  | letrec hf _ ih => exact .letrec (World.scope_mono h hf) ih

theorem Stands.mono {v : Value} {u : Val} (hv : Stands d w v u) : Stands d w' v u := by
  induction hv with
  | int n => exact .int n
  | bool b => exact .bool b
  | empty => exact .empty
  | cons _ _ iha ihr => exact .cons iha ihr
  | closure hs hb => exact .closure (hs.mono h) hb
  | prim p => exact .prim p

theorem Holds.mono {t : Option (Expr × Scope)} {b : Binding} (hb : Holds d w t b) :
    Holds d w' t b := by
  rcases t with _ | t
  · exact hb
  cases b with
  | undefined x => exact hb
  | value x v =>
    obtain ⟨hd, u, hu, hv⟩ := hb
    exact ⟨hd, u, hu, hv.mono h⟩
  | name x e env => exact ⟨hb.1, hb.2.1, hb.2.2.mono h⟩
  | need x memo =>
    cases memo with
    | pending e env => exact ⟨hb.1, hb.2.1, hb.2.2.mono h⟩
    | running e env => exact ⟨hb.1, hb.2.1, hb.2.2.mono h⟩
    | done v =>
      obtain ⟨hd, u, hu, hv⟩ := hb
      exact ⟨hd, u, hu, hv.mono h⟩

end Mono

theorem Stands.bare_eq {d : Discipline} {w : World} {v : Value} {u : Val} (h : Stands d w v u) :
    v.bare = u.bare := by
  induction h with
  | cons _ _ iha ihr => simp only [Value.bare, Val.bare, iha, ihr]
  | _ => rfl

/-! ### Machines -/

/-- The slot of a variable is as its definition says: there is one if there is a definition, and it
points to a binding of that definition or, in call by value, to a placeholder. -/
def Slot (d : Discipline) (w : World) : Option (Expr × Scope) → Option BindingId → Prop
  | none, slot => slot = none
  | some t, slot => ∃ i, slot = some i ∧
      (w.thunks[i]? = some (some t) ∨ (d.strategy = .value ∧ w.thunks[i]? = some none))

theorem Slot.mono {d : Discipline} {w w' : World} (hw : w ≤ w') {t : Option (Expr × Scope)}
    {slot : Option BindingId} (h : Slot d w t slot) : Slot d w' t slot := by
  cases t with
  | none => exact h
  | some t =>
    obtain ⟨i, rfl, hi | ⟨hd, hi⟩⟩ := h
    · exact ⟨i, rfl, .inl (World.thunk_mono hw hi)⟩
    · exact ⟨i, rfl, .inr ⟨hd, World.thunk_mono hw hi⟩⟩

/-- The machine is as the world says, with nothing said of the slots of some frames. -/
structure ModelsBut (but : FrameId → Prop) (d : Discipline) (w : World) (m : Machine) : Prop where
  frames : m.frames.size = w.scopes.length
  bindings : m.bindings.size = w.thunks.length
  slots : ∀ {f : FrameId} {σ : Scope}, w.scopes[f]? = some σ → ¬ but f → ∀ x : String,
    Slot d w (σ.own? x) ((m.frame f).get? x)
  cells : ∀ {i : BindingId} {t : Option (Expr × Scope)}, w.thunks[i]? = some t →
    Holds d w t (m.binding i)

/-- **The machine is as the world says.** -/
abbrev Models (d : Discipline) (w : World) (m : Machine) : Prop := ModelsBut (fun _ => False) d w m

/-- The binding is being computed. -/
def Machine.IsRunning (m : Machine) (i : BindingId) : Prop :=
  ∃ x e env, m.binding i = .need x (.running e env)

/-- Every binding that is being computed was being computed before. -/
def Machine.Settled (m m' : Machine) : Prop := ∀ i, m'.IsRunning i → m.IsRunning i

theorem Machine.Settled.refl (m : Machine) : m.Settled m := fun _ h => h

theorem Machine.Settled.trans {m m' m'' : Machine} (h : m.Settled m') (h' : m'.Settled m'') :
    m.Settled m'' := fun i hi => h i (h' i hi)

theorem Machine.IsRunning.lt_size {m : Machine} {i : BindingId} (h : m.IsRunning i) :
    i < m.bindings.size := by
  obtain ⟨x, e, env, hb⟩ := h
  by_contra hge
  rw [Machine.binding, Array.getElem?_eq_none (Nat.le_of_not_lt hge)] at hb
  cases hb

section Writes

variable {but : FrameId → Prop} {d : Discipline} {w : World} {m : Machine}

theorem ModelsBut.lt_of_thunk (hm : ModelsBut but d w m) {i : BindingId}
    {t : Option (Expr × Scope)} (hi : w.thunks[i]? = some t) : i < m.bindings.size := by
  rw [hm.bindings]
  exact (List.getElem?_eq_some_iff.mp hi).1

theorem ModelsBut.lt_of_scope (hm : ModelsBut but d w m) {f : FrameId} {σ : Scope}
    (hf : w.scopes[f]? = some σ) : f < m.frames.size := by
  rw [hm.frames]
  exact (List.getElem?_eq_some_iff.mp hf).1

/-- Only frames and bindings matter. -/
theorem ModelsBut.congr (hm : ModelsBut but d w m) {m' : Machine} (hf : m'.frames = m.frames)
    (hb : m'.bindings = m.bindings) : ModelsBut but d w m' := by
  have hframe : ∀ f, m'.frame f = m.frame f := fun f => by simp only [Machine.frame, hf]
  have hbind : ∀ i, m'.binding i = m.binding i := fun i => by simp only [Machine.binding, hb]
  refine ⟨by rw [hf, hm.frames], by rw [hb, hm.bindings], fun hσ hn x => ?_, fun hi => ?_⟩
  · rw [hframe]
    exact hm.slots hσ hn x
  · rw [hbind]
    exact hm.cells hi

/-- A new binding stands for what it holds. -/
theorem ModelsBut.addBinding (hm : ModelsBut but d w m) {b : Binding} {t : Option (Expr × Scope)}
    (hb : Holds d w t b) : ModelsBut but d (w.addThunk t) (m.addBinding b) := by
  have hle := World.le_addThunk w t
  refine ⟨hm.frames, ?_, fun hσ hn x => (hm.slots hσ hn x).mono hle, fun {i t'} hi => ?_⟩
  · simp [Machine.addBinding, World.addThunk, hm.bindings]
  · rw [World.thunks_addThunk, ← hm.bindings] at hi
    rw [Machine.binding_addBinding]
    split at hi
    · next heq =>
      cases hi
      rw [if_pos heq]
      exact hb.mono hle
    · next hne =>
      rw [if_neg hne]
      exact (hm.cells hi).mono hle

/-- A new frame stands for a scope with the same definitions. -/
theorem ModelsBut.addFrame (hm : ModelsBut but d w m) {F : Frame} {σ : Scope}
    (hF : ¬ but m.frames.size → ∀ x, Slot d w (σ.own? x) (F.get? x)) :
    ModelsBut but d (w.addScope σ) (m.addFrame F) := by
  have hle := World.le_addScope w σ
  refine ⟨?_, hm.bindings, fun {f τ} hτ hn x => ?_, fun hi => (hm.cells hi).mono hle⟩
  · simp [Machine.addFrame, World.addScope, hm.frames]
  · rw [World.scopes_addScope, ← hm.frames] at hτ
    rw [Machine.frame_addFrame]
    split at hτ
    · next heq =>
      subst heq
      cases hτ
      rw [if_pos rfl]
      exact (hF hn x).mono hle
    · next hne =>
      rw [if_neg hne]
      exact (hm.slots hτ hn x).mono hle

/-- A binding may be replaced by another one that holds the same. -/
theorem ModelsBut.setBinding (hm : ModelsBut but d w m) {i : BindingId}
    {t : Option (Expr × Scope)} (hi : w.thunks[i]? = some t) {b : Binding} (hb : Holds d w t b) :
    ModelsBut but d w (m.setBinding i b) := by
  refine ⟨hm.frames, ?_, hm.slots, fun {j t'} hj => ?_⟩
  · simp [Machine.setBinding, hm.bindings]
  · rw [Machine.binding_setBinding m b (hm.lt_of_thunk hi)]
    split
    · next heq =>
      subst heq
      rw [hi] at hj
      cases hj
      exact hb
    · exact hm.cells hj

/-- A slot may be pointed to a binding of its definition. -/
theorem ModelsBut.setSlot (hm : ModelsBut but d w m) {f : FrameId} {σ : Scope}
    (hf : w.scopes[f]? = some σ) {x : String} {i : BindingId}
    (hi : ¬ but f → ∃ t, σ.own? x = some t ∧ w.thunks[i]? = some (some t)) :
    ModelsBut but d w (m.setSlot f x i) := by
  refine ⟨?_, hm.bindings, fun {g τ} hτ hn y => ?_, hm.cells⟩
  · simp [Machine.setSlot, hm.frames]
  · have hold := hm.slots hτ hn y
    rw [Machine.frame_setSlot m (hm.lt_of_scope hf)]
    split
    · next heq =>
      subst heq
      rw [hf] at hτ
      cases hτ
      rw [Frame.get?_set]
      split
      · next hxy =>
        subst hxy
        obtain ⟨t, ht, hit⟩ := hi hn
        rw [ht]
        exact ⟨i, rfl, .inl hit⟩
      · exact hold
    · exact hold

/-- Frames that are as they should be need not be left out. -/
theorem ModelsBut.models {f : FrameId} (hm : ModelsBut (· = f) d w m) {σ : Scope}
    (hf : w.scopes[f]? = some σ) (hslots : ∀ x, Slot d w (σ.own? x) ((m.frame f).get? x)) :
    Models d w m := by
  refine ⟨hm.frames, hm.bindings, fun {g τ} hτ _ x => ?_, hm.cells⟩
  by_cases hg : g = f
  · subst hg
    rw [hf] at hτ
    cases hτ
    exact hslots x
  · exact hm.slots hτ hg x

theorem ModelsBut.weaken (hm : Models d w m) (but : FrameId → Prop) : ModelsBut but d w m :=
  ⟨hm.frames, hm.bindings, fun hσ _ x => hm.slots hσ (fun h => h) x, hm.cells⟩

/-- **Looking a variable up in an environment and in its scope comes to the same.** -/
theorem ModelsBut.lookup (hm : Models d w m) {env : Env} {σ : Scope} (hs : Stack w env σ)
    (x : String) : Slot d w (σ.lookup? x) (m.lookup? env x) := by
  -- a frame that defines the variable settles the matter, any other leaves it to the outer ones
  have frame : ∀ {f : FrameId} {env : Env} {τ outer : Scope}, w.scopes[f]? = some τ →
      τ.lookup? x = (τ.own? x).or (outer.lookup? x) →
      Slot d w (outer.lookup? x) (m.lookup? env x) →
      Slot d w (τ.lookup? x) (m.lookup? (f :: env) x) := by
    intro f env τ outer hf hτ ih
    have hslot := hm.slots hf (fun h => h) x
    rw [hτ]
    simp only [Machine.lookup?, List.findSome?_cons] at ih ⊢
    cases hown : τ.own? x with
    | none =>
      rw [hown] at hslot
      rw [show (m.frame f).get? x = none from hslot]
      exact ih
    | some t =>
      rw [hown] at hslot
      obtain ⟨i, hget, hi⟩ := hslot
      rw [hget]
      exact ⟨i, rfl, hi⟩
  induction hs with
  | top hf =>
    have hslot : (m.frame _).get? x = none := hm.slots hf (fun h => h) x
    simp [Machine.lookup?, hslot, Scope.lookup?, Slot]
  | call hf _ ih => exact frame hf rfl ih
  | letrec hf _ ih => exact frame hf rfl ih

end Writes

/-! ### Frames from slots -/

/-- The slots point to bindings of the definitions. -/
def SlotsOf (w : World) (home : Scope) (slots : List (String × BindingId))
    (ds : List (String × Expr)) : Prop :=
  List.Forall₂ (fun s p => s.1 = p.1 ∧ w.thunks[s.2]? = some (some (p.2, home))) slots ds

theorem get?_foldl_set (slots : List (String × BindingId)) (F : Frame) (x : String) :
    (slots.foldl (fun F s => F.set s.1 s.2) F).get? x = (lastOf? x slots).or (F.get? x) := by
  induction slots generalizing F with
  | nil => rfl
  | cons s slots ih =>
    rw [List.foldl_cons, ih, Frame.get?_set, lastOf?]
    cases lastOf? x slots with
    | some i => rfl
    | none =>
      by_cases hx : s.1 = x
      · simp [hx]
      · simp [hx]

/-- Of two slots for one variable the later counts. -/
theorem get?_ofSlots (slots : List (String × BindingId)) (x : String) :
    (Frame.ofSlots slots).get? x = lastOf? x slots := by
  rw [Frame.ofSlots, get?_foldl_set, Frame.get?_empty, Option.or_none]

/-- The last slot of a variable points to a binding of its last definition. -/
theorem SlotsOf.slot_lastOf? {d : Discipline} {w : World} {home : Scope}
    {slots : List (String × BindingId)} {ds : List (String × Expr)} (hs : SlotsOf w home slots ds)
    (x : String) : Slot d w ((lastOf? x ds).map (·, home)) (lastOf? x slots) := by
  induction hs with
  | nil => exact rfl
  | @cons s p slots ds hp _ ih =>
    simp only [lastOf?]
    cases hl : lastOf? x ds with
    | some e =>
      rw [hl] at ih
      obtain ⟨i, hi, ht⟩ := ih
      rw [hi]
      exact ⟨i, rfl, ht⟩
    | none =>
      rw [hl] at ih
      rw [show lastOf? x slots = none from ih, hp.1]
      by_cases hx : p.1 = x
      · simp only [hx, if_true, Option.none_or]
        exact ⟨s.2, rfl, .inl hp.2⟩
      · simp only [hx, if_false, Option.none_or]
        exact rfl

end CallBy
