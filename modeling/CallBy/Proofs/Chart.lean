import CallBy.Proofs.Named
import CallBy.Proofs.World

/-!
What the addresses of a machine stand for in named evaluation.

A `Chart` gives every frame its scope, every binding what it is, every closure its name; it has the
shared bindings that are finished, and how much each computation has made so far. Charts only grow
(`w ≤ w'`).

* `Stack w env σ`, `Stands d w v u`, `Holds … t b`: the environment stands for the scope, the value
  for the named value, and the binding for the entry. A finished binding holds the value that its
  cell has whenever it is computed (`Computes`);
* `Models … w m`: the machine is as the chart says. `ModelsBut` leaves some frames out;
* `ModelsBut.lookup`: looking a variable up in an environment and in its scope comes to the same.
-/

namespace CallBy

/-- The value that the binding has. -/
def Binding.result? : Binding → Option Value
  | .value _ v | .need _ (.done v) => some v
  | _ => none

namespace Named

/-- The computations come to `r` from some bound on nested evaluations on, and hit every bound
within which they do not. -/
def Converges {α : Type} (q : Nat → Except Stop α) (r : Except Stop α) : Prop :=
  (∃ n, ∀ k ≥ n, q k = r) ∧ ∀ k, q k = r ∨ q k = .error .tooDeep

namespace Converges

variable {α β : Type}

theorem const (r : Except Stop α) : Converges (fun _ => r) r :=
  ⟨⟨0, fun _ _ => rfl⟩, fun _ => .inl rfl⟩

/-- What computations come to is determined. -/
theorem unique {q : Nat → Except Stop α} {r r' : Except Stop α} (h : Converges q r)
    (h' : Converges q r') : r = r' := by
  obtain ⟨n, hn⟩ := h.1
  obtain ⟨n', hn'⟩ := h'.1
  rw [← hn (max n n') (by omega), hn' (max n n') (by omega)]

theorem of_succ {q : Nat → Except Stop α} {r : Except Stop α}
    (h : Converges (fun k => q (k + 1)) r) (hzero : q 0 = .error .tooDeep) : Converges q r := by
  obtain ⟨⟨n, hn⟩, hk⟩ := h
  refine ⟨⟨n + 1, fun k hk => ?_⟩, fun k => ?_⟩
  · obtain ⟨j, rfl⟩ : ∃ j, k = j + 1 := ⟨k - 1, by omega⟩
    exact hn j (by omega)
  · cases k with
    | zero => exact .inr hzero
    | succ k => exact hk k

section Bind

variable {p : Nat → Course α} {g : Nat → α → Course β} {own own' : Own}

theorem bind_ok {a : α} {r : Except Stop (β × Own)}
    (h : Converges (fun k => p k own) (.ok (a, own'))) (hg : Converges (fun k => g k a own') r) :
    Converges (fun k => (p k >>= g k) own) r := by
  obtain ⟨⟨n, hn⟩, hp⟩ := h
  obtain ⟨⟨n', hn'⟩, hq⟩ := hg
  refine ⟨⟨max n n', fun k hk => ?_⟩, fun k => ?_⟩
  · simp only [Course.bind_of_ok (hn k (by omega))]
    exact hn' k (by omega)
  · rcases hp k with hk | hk
    · simp only [Course.bind_of_ok hk]
      exact hq k
    · exact .inr (Course.bind_of_error hk)

theorem bind_error {s : Stop} (h : Converges (fun k => p k own) (.error s)) :
    Converges (fun k => (p k >>= g k) own) (.error s) := by
  obtain ⟨⟨n, hn⟩, hp⟩ := h
  refine ⟨⟨n, fun k hk => ?_⟩, fun k => ?_⟩
  · simp only [Course.bind_of_error (hn k hk)]
  · exact (hp k).imp Course.bind_of_error Course.bind_of_error

end Bind

end Converges

/-! ### Charts -/

/-- What the addresses of a machine stand for. -/
structure Chart where
  /-- The scopes of the frames. -/
  scopes : List Scope
  /-- What the bindings are; `none` for a placeholder that no scope knows. -/
  entries : List (Option Entry)
  /-- The names of the closures. -/
  closures : List Name
  /-- The shared bindings that have been computed, with what this took. -/
  finished : List (Cell × Own)
  /-- The number of things that each computation has made, if it has begun. -/
  made : Name → Option Nat

namespace Chart

instance : LE Chart := ⟨fun w w' => w.scopes <+: w'.scopes ∧ w.entries <+: w'.entries ∧
  w.closures <+: w'.closures ∧ w.finished <+: w'.finished⟩

variable {w w' w'' : Chart}

theorem le_refl (w : Chart) : w ≤ w :=
  ⟨List.prefix_refl _, List.prefix_refl _, List.prefix_refl _, List.prefix_refl _⟩

theorem le_trans (h : w ≤ w') (h' : w' ≤ w'') : w ≤ w'' :=
  ⟨h.1.trans h'.1, h.2.1.trans h'.2.1, h.2.2.1.trans h'.2.2.1, h.2.2.2.trans h'.2.2.2⟩

theorem scope_mono (h : w ≤ w') {f : FrameId} {σ : Scope} (hf : w.scopes[f]? = some σ) :
    w'.scopes[f]? = some σ := World.getElem?_of_prefix h.1 hf

theorem entry_mono (h : w ≤ w') {i : BindingId} {t : Option Entry} (hi : w.entries[i]? = some t) :
    w'.entries[i]? = some t := World.getElem?_of_prefix h.2.1 hi

theorem closure_mono (h : w ≤ w') {i : Nat} {n : Name} (hi : w.closures[i]? = some n) :
    w'.closures[i]? = some n := World.getElem?_of_prefix h.2.2.1 hi

theorem finished_mono (h : w ≤ w') {q : Cell × Own} (hq : q ∈ w.finished) : q ∈ w'.finished :=
  h.2.2.2.subset hq

/-- The shared binding has been computed. -/
def Finished (w : Chart) (c : Cell) : Prop := ∃ own, (c, own) ∈ w.finished

theorem Finished.mono (h : w ≤ w') {c : Cell} (hc : w.Finished c) : w'.Finished c := by
  obtain ⟨own, hown⟩ := hc
  exact ⟨own, finished_mono h hown⟩

/-- The chart with one more frame. -/
def addScope (w : Chart) (σ : Scope) : Chart := { w with scopes := w.scopes ++ [σ] }

/-- The chart with one more binding. -/
def addEntry (w : Chart) (t : Option Entry) : Chart := { w with entries := w.entries ++ [t] }

/-- The chart with one more closure. -/
def addClosure (w : Chart) (n : Name) : Chart := { w with closures := w.closures ++ [n] }

/-- The chart with one more shared binding that has been computed. -/
def finish (w : Chart) (c : Cell) (own : Own) : Chart :=
  { w with finished := w.finished ++ [(c, own)] }

/-- The chart in which a computation has made so many things. -/
def count (w : Chart) (o : Name) (k : Nat) : Chart :=
  { w with made := Function.update w.made o (some k) }

theorem le_addScope (w : Chart) (σ : Scope) : w ≤ w.addScope σ :=
  ⟨List.prefix_append _ _, List.prefix_refl _, List.prefix_refl _, List.prefix_refl _⟩

theorem le_addEntry (w : Chart) (t : Option Entry) : w ≤ w.addEntry t :=
  ⟨List.prefix_refl _, List.prefix_append _ _, List.prefix_refl _, List.prefix_refl _⟩

theorem le_addClosure (w : Chart) (n : Name) : w ≤ w.addClosure n :=
  ⟨List.prefix_refl _, List.prefix_refl _, List.prefix_append _ _, List.prefix_refl _⟩

theorem le_finish (w : Chart) (c : Cell) (own : Own) : w ≤ w.finish c own :=
  ⟨List.prefix_refl _, List.prefix_refl _, List.prefix_refl _, List.prefix_append _ _⟩

theorem le_count (w : Chart) (o : Name) (k : Nat) : w ≤ w.count o k :=
  ⟨List.prefix_refl _, List.prefix_refl _, List.prefix_refl _, List.prefix_refl _⟩

theorem scopes_addScope (w : Chart) (σ : Scope) (f : FrameId) :
    (w.addScope σ).scopes[f]? = if f = w.scopes.length then some σ else w.scopes[f]? := by
  simp only [addScope, List.getElem?_append, List.getElem?_singleton]
  grind

theorem entries_addEntry (w : Chart) (t : Option Entry) (i : BindingId) :
    (w.addEntry t).entries[i]? = if i = w.entries.length then some t else w.entries[i]? := by
  simp only [addEntry, List.getElem?_append, List.getElem?_singleton]
  grind

end Chart

/-! ### What environments, values and bindings stand for -/

/-- The environment stands for the scope. -/
inductive Stack (w : Chart) : Env → Scope → Prop
  | base {env : Env} : (∀ f ∈ env, w.scopes[f]? = some (.base [f])) → Stack w env (.base env)
  | call {f : FrameId} {env : Env} {o : Name} {k : Nat} {ds : List (String × Expr)}
      {home outer : Scope} : w.scopes[f]? = some (.call o k ds home outer) → Stack w env outer →
      Stack w (f :: env) (.call o k ds home outer)
  | letrec {f : FrameId} {env : Env} {o : Name} {k : Nat} {ds : List (String × Expr)}
      {outer : Scope} : w.scopes[f]? = some (.letrec o k ds outer) → Stack w env outer →
      Stack w (f :: env) (.letrec o k ds outer)

/-- The value stands for the named value. -/
inductive Stands (d : Discipline) (w : Chart) : Value → Val → Prop
  | int (n : Int) : Stands d w (.int n) (.int n)
  | bool (b : Bool) : Stands d w (.bool b) (.bool b)
  | empty : Stands d w .empty .empty
  | cons {a r : Value} {a' r' : Val} : Stands d w a a' → Stands d w r r' →
      Stands d w (.cons a r) (.cons a' r')
  | closure {i : Nat} {n : Name} {ps : List String} {b : Expr} {env : Env} {σ : Scope} :
      w.closures[i]? = some n → Stack w env σ → Fit d b →
      Stands d w (.closure i ps b env) (.closure n ps b σ)
  | prim (p : Prim) : Stands d w (.prim p) (.prim p)

/-- The circumstances agree with the chart: what is finished is not being computed, and was computed
at the attempt at which it is computed now. -/
def Chart.Agrees (S : Name → Nat) (w : Chart) (C : Context) : Prop :=
  ∀ q ∈ w.finished, C.stamp q.1.name = S q.1.name ∧ q.1.name ∉ C.under

section Holds

variable (base : Machine) (d : Discipline) (S : Name → Nat) (w : Chart)

/-- In all circumstances that agree with the chart, computing the shared binding gives this value
and takes this much. -/
def Computes (c : Cell) (u : Val) (own : Own) : Prop :=
  ∀ C : Context, w.Agrees S C →
    Converges (fun k => eval base d.recursiveLet k { C with under := c.name :: C.under }
      (.attempt c.name (S c.name)) c.home c.body {}) (.ok (u, own))

/-- The binding is what the chart says. -/
inductive Holds : Option Entry → Binding → Prop
  | reserved (x : String) : Holds none (.undefined x)
  | undefined (x : String) : Holds (some (.undefined x)) (.undefined x)
  | given {b : Binding} {v : Value} : b.result? = some v → Stands d w v (.ofValue v) →
      Holds (some (.given v)) b
  | anew {x : String} {e : Expr} {env : Env} : Stack w env (.base env) → Fit d e →
      Holds (some (.anew e env)) (.name x e env)
  | pending {c : Cell} {env : Env} : d.strategy = .need → Stack w env c.home →
      Holds (some (.cell c)) (.need c.var (.pending c.body env))
  | running {c : Cell} {env : Env} : d.strategy = .need → Stack w env c.home →
      Holds (some (.cell c)) (.need c.var (.running c.body env))
  | finished {c : Cell} {b : Binding} {v : Value} {u : Val} {own : Own} : b.result? = some v →
      (c, own) ∈ w.finished → Computes base d S w c u own → Stands d w v u →
      (∀ c' ∈ own.reads, w.Finished c') → Holds (some (.cell c)) b

end Holds

section Mono

variable {base : Machine} {d : Discipline} {S : Name → Nat} {w w' : Chart} (h : w ≤ w')

include h

theorem Stack.mono {env : Env} {σ : Scope} (hs : Stack w env σ) : Stack w' env σ := by
  induction hs with
  | base hf => exact .base fun f hmem => Chart.scope_mono h (hf f hmem)
  | call hf _ ih => exact .call (Chart.scope_mono h hf) ih
  | letrec hf _ ih => exact .letrec (Chart.scope_mono h hf) ih

theorem Stands.mono {v : Value} {u : Val} (hv : Stands d w v u) : Stands d w' v u := by
  induction hv with
  | int n => exact .int n
  | bool b => exact .bool b
  | empty => exact .empty
  | cons _ _ iha ihr => exact .cons iha ihr
  | closure hi hs hb => exact .closure (Chart.closure_mono h hi) (hs.mono h) hb
  | prim p => exact .prim p

theorem Chart.Agrees.anti {C : Context} (hC : w'.Agrees S C) : w.Agrees S C :=
  fun q hq => hC q (Chart.finished_mono h hq)

theorem Computes.mono {c : Cell} {u : Val} {own : Own} (hc : Computes base d S w c u own) :
    Computes base d S w' c u own := fun C hC => hc C (hC.anti h)

theorem Holds.mono {t : Option Entry} {b : Binding} (hb : Holds base d S w t b) :
    Holds base d S w' t b := by
  cases hb with
  | reserved x => exact .reserved x
  | undefined x => exact .undefined x
  | given hv hs => exact .given hv (hs.mono h)
  | anew hs he => exact .anew (hs.mono h) he
  | pending hd hs => exact .pending hd (hs.mono h)
  | running hd hs => exact .running hd (hs.mono h)
  | finished hv hc hcomp hs hreads =>
    exact .finished hv (Chart.finished_mono h hc) (hcomp.mono h) (hs.mono h)
      fun c hc' => (hreads c hc').mono h

end Mono

/-! ### Machines -/

/-- The slot of a variable is as the scope says: there is one if the scope binds the variable, and
it points to that entry or, in call by value, to a placeholder. -/
def Slot (d : Discipline) (w : Chart) : Option Entry → Option BindingId → Prop
  | none, slot => slot = none
  | some t, slot => ∃ i, slot = some i ∧
      (w.entries[i]? = some (some t) ∨ (d.strategy = .value ∧ w.entries[i]? = some none))

theorem Slot.mono {d : Discipline} {w w' : Chart} (hw : w ≤ w') {t : Option Entry}
    {slot : Option BindingId} (h : Slot d w t slot) : Slot d w' t slot := by
  cases t with
  | none => exact h
  | some t =>
    obtain ⟨i, rfl, hi | ⟨hd, hi⟩⟩ := h
    · exact ⟨i, rfl, .inl (Chart.entry_mono hw hi)⟩
    · exact ⟨i, rfl, .inr ⟨hd, Chart.entry_mono hw hi⟩⟩

/-- The machine is as the chart says, with nothing said of the slots of some frames. -/
structure ModelsBut (but : FrameId → Prop) (base : Machine) (d : Discipline) (S : Name → Nat)
    (w : Chart) (m : Machine) : Prop where
  frames : m.frames.size = w.scopes.length
  bindings : m.bindings.size = w.entries.length
  closures : m.closures = w.closures.length
  slots : ∀ {f : FrameId} {σ : Scope}, w.scopes[f]? = some σ → ¬ but f → ∀ x : String,
    Slot d w (σ.own? base x) ((m.frame f).get? x)
  cells : ∀ {i : BindingId} {t : Option Entry}, w.entries[i]? = some t →
    Holds base d S w t (m.binding i)

/-- **The machine is as the chart says.** -/
abbrev Models (base : Machine) (d : Discipline) (S : Name → Nat) (w : Chart) (m : Machine) : Prop :=
  ModelsBut (fun _ => False) base d S w m

section Writes

variable {but : FrameId → Prop} {base : Machine} {d : Discipline} {S : Name → Nat} {w : Chart}
  {m : Machine}

theorem ModelsBut.lt_of_entry (hm : ModelsBut but base d S w m) {i : BindingId} {t : Option Entry}
    (hi : w.entries[i]? = some t) : i < m.bindings.size := by
  rw [hm.bindings]
  exact (List.getElem?_eq_some_iff.mp hi).1

theorem ModelsBut.lt_of_scope (hm : ModelsBut but base d S w m) {f : FrameId} {σ : Scope}
    (hf : w.scopes[f]? = some σ) : f < m.frames.size := by
  rw [hm.frames]
  exact (List.getElem?_eq_some_iff.mp hf).1

/-- The machine with other reports is the same to the chart, and a chart with other counts says the
same of it. -/
theorem ModelsBut.congr (hm : ModelsBut but base d S w m) {m' : Machine} {w' : Chart}
    (hf : m'.frames = m.frames) (hb : m'.bindings = m.bindings) (hc : m'.closures = m.closures)
    (hw : w ≤ w') (hs : w'.scopes = w.scopes) (he : w'.entries = w.entries)
    (hn : w'.closures = w.closures) : ModelsBut but base d S w' m' := by
  have hframe : ∀ f, m'.frame f = m.frame f := fun f => by simp only [Machine.frame, hf]
  have hbind : ∀ i, m'.binding i = m.binding i := fun i => by simp only [Machine.binding, hb]
  refine ⟨by rw [hf, hs, hm.frames], by rw [hb, he, hm.bindings], by rw [hc, hn, hm.closures],
    fun {f σ} hσ hbut x => ?_, fun {i t} hi => ?_⟩
  · rw [hframe]
    rw [hs] at hσ
    exact (hm.slots hσ hbut x).mono hw
  · rw [hbind]
    rw [he] at hi
    exact (hm.cells hi).mono hw

theorem ModelsBut.addEntry (hm : ModelsBut but base d S w m) {b : Binding} {t : Option Entry}
    (hb : Holds base d S w t b) : ModelsBut but base d S (w.addEntry t) (m.addBinding b) := by
  have hle := Chart.le_addEntry w t
  refine ⟨hm.frames, ?_, hm.closures, fun hσ hn x => (hm.slots hσ hn x).mono hle,
    fun {i t'} hi => ?_⟩
  · simp [Machine.addBinding, Chart.addEntry, hm.bindings]
  · rw [Chart.entries_addEntry, ← hm.bindings] at hi
    rw [Machine.binding_addBinding]
    split at hi
    · next heq =>
      cases hi
      rw [if_pos heq]
      exact hb.mono hle
    · next hne =>
      rw [if_neg hne]
      exact (hm.cells hi).mono hle

theorem ModelsBut.addScope (hm : ModelsBut but base d S w m) {F : Frame} {σ : Scope}
    (hF : ¬ but m.frames.size → ∀ x, Slot d w (σ.own? base x) (F.get? x)) :
    ModelsBut but base d S (w.addScope σ) (m.addFrame F) := by
  have hle := Chart.le_addScope w σ
  refine ⟨?_, hm.bindings, hm.closures, fun {f τ} hτ hn x => ?_, fun hi => (hm.cells hi).mono hle⟩
  · simp [Machine.addFrame, Chart.addScope, hm.frames]
  · rw [Chart.scopes_addScope, ← hm.frames] at hτ
    rw [Machine.frame_addFrame]
    split at hτ
    · next heq =>
      subst heq
      cases hτ
      rw [if_pos rfl]
      exact (hF hn x).mono hle
    · next hne =>
      rw [if_neg hne]
      exact (hm.slots hτ hn x).mono hle

theorem ModelsBut.addClosure (hm : ModelsBut but base d S w m) (n : Name) :
    ModelsBut but base d S (w.addClosure n) { m with closures := m.closures + 1 } := by
  have hle := Chart.le_addClosure w n
  refine ⟨hm.frames, hm.bindings, ?_, fun hσ hn x => (hm.slots hσ hn x).mono hle,
    fun hi => (hm.cells hi).mono hle⟩
  simp [Chart.addClosure, hm.closures]

/-- A binding may be replaced by another one that is what the chart says, or what a chart says that
has more finished. -/
theorem ModelsBut.setBinding (hm : ModelsBut but base d S w m) {w' : Chart} (hw : w ≤ w')
    (hs : w'.scopes = w.scopes) (he : w'.entries = w.entries) (hn : w'.closures = w.closures)
    {i : BindingId} {t : Option Entry} (hi : w.entries[i]? = some t) {b : Binding}
    (hb : Holds base d S w' t b) : ModelsBut but base d S w' (m.setBinding i b) := by
  refine ⟨by rw [hs]; exact hm.frames, by simp [he, hm.bindings], by rw [hn]; exact hm.closures,
    fun {f σ} hσ hbut x => ?_, fun {j t'} hj => ?_⟩
  · rw [hs] at hσ
    exact (hm.slots hσ hbut x).mono hw
  · rw [he] at hj
    rw [Machine.binding_setBinding m b (hm.lt_of_entry hi)]
    split
    · next heq =>
      subst heq
      rw [hi] at hj
      cases hj
      exact hb
    · exact (hm.cells hj).mono hw

/-- A slot may be pointed to the entry of its variable. -/
theorem ModelsBut.setSlot (hm : ModelsBut but base d S w m) {f : FrameId} {σ : Scope}
    (hf : w.scopes[f]? = some σ) {x : String} {i : BindingId}
    (hi : ¬ but f → ∃ t, σ.own? base x = some t ∧ w.entries[i]? = some (some t)) :
    ModelsBut but base d S w (m.setSlot f x i) := by
  refine ⟨?_, hm.bindings, hm.closures, fun {g τ} hτ hn y => ?_, hm.cells⟩
  · simp [hm.frames]
  · have hold := hm.slots hτ hn y
    rw [Machine.frame_setSlot m (hm.lt_of_scope hf)]
    split
    · next heq =>
      subst heq
      rw [hf] at hτ
      cases hτ
      rw [Frame.get?_set]
      split
      · next hxy =>
        subst hxy
        obtain ⟨t, ht, hit⟩ := hi hn
        rw [ht]
        exact ⟨i, rfl, .inl hit⟩
      · exact hold
    · exact hold

/-- Frames that are as they should be need not be left out. -/
theorem ModelsBut.models {f : FrameId} (hm : ModelsBut (· = f) base d S w m) {σ : Scope}
    (hf : w.scopes[f]? = some σ) (hslots : ∀ x, Slot d w (σ.own? base x) ((m.frame f).get? x)) :
    Models base d S w m := by
  refine ⟨hm.frames, hm.bindings, hm.closures, fun {g τ} hτ _ x => ?_, hm.cells⟩
  by_cases hg : g = f
  · subst hg
    rw [hf] at hτ
    cases hτ
    exact hslots x
  · exact hm.slots hτ hg x

theorem ModelsBut.weaken (hm : Models base d S w m) (but : FrameId → Prop) :
    ModelsBut but base d S w m :=
  ⟨hm.frames, hm.bindings, hm.closures, fun hσ _ x => hm.slots hσ (fun h => h) x, hm.cells⟩

/-- A frame that binds the variable settles the matter, any other leaves it to the outer ones. -/
theorem Slot.lookup_cons {x : String} {f : FrameId} {env : Env} {t t' : Option Entry}
    (h : Slot d w t ((m.frame f).get? x)) (h' : Slot d w t' (m.lookup? env x)) :
    Slot d w (t.or t') (m.lookup? (f :: env) x) := by
  simp only [Machine.lookup?, List.findSome?_cons] at h' ⊢
  cases t with
  | none =>
    rw [show (m.frame f).get? x = none from h]
    exact h'
  | some t =>
    obtain ⟨i, hget, hi⟩ := h
    rw [hget]
    exact ⟨i, rfl, hi⟩

/-- **Looking a variable up in an environment and in its scope comes to the same.** -/
theorem ModelsBut.lookup (hm : Models base d S w m) {env : Env} {σ : Scope} (hs : Stack w env σ)
    (x : String) : Slot d w (σ.lookup? base x) (m.lookup? env x) := by
  induction hs with
  | @base env hf =>
    simp only [Scope.lookup?, Scope.own?]
    induction env with
    | nil => exact rfl
    | cons f env ih =>
      obtain ⟨hf, henv⟩ := List.forall_mem_cons.mp hf
      have hslot := (hm.slots hf (fun h => h) x).lookup_cons (ih henv)
      have hlook : base.lookup? (f :: env) x = (base.lookup? [f] x).or (base.lookup? env x) := by
        simp only [Machine.lookup?, List.findSome?_cons, List.findSome?_nil]
        cases (base.frame f).get? x <;> rfl
      rw [hlook, Option.map_or]
      exact hslot
  | call hf _ ih => exact (hm.slots hf (fun h => h) x).lookup_cons ih
  | letrec hf _ ih => exact (hm.slots hf (fun h => h) x).lookup_cons ih

end Writes

/-! ### Frames from slots -/

/-- The slots point to the entries. -/
def SlotsOf (w : Chart) (slots : List (String × BindingId)) (ts : List (String × Entry)) : Prop :=
  List.Forall₂ (fun s t => s.1 = t.1 ∧ w.entries[s.2]? = some (some t.2)) slots ts

/-- The last slot of a variable points to its last entry. -/
theorem SlotsOf.slot_lastOf? {d : Discipline} {w : Chart} {slots : List (String × BindingId)}
    {ts : List (String × Entry)} (hs : SlotsOf w slots ts) (x : String) :
    Slot d w (lastOf? x ts) (lastOf? x slots) := by
  induction hs with
  | nil => exact rfl
  | @cons s t slots ts hp _ ih =>
    simp only [lastOf?]
    cases hl : lastOf? x ts with
    | some t' =>
      rw [hl] at ih
      obtain ⟨i, hi, ht⟩ := ih
      rw [hi]
      exact ⟨i, rfl, ht⟩
    | none =>
      rw [hl] at ih
      rw [show lastOf? x slots = none from ih, hp.1]
      by_cases hx : t.1 = x
      · simp only [hx, if_true, Option.none_or]
        exact ⟨s.2, rfl, .inl hp.2⟩
      · simp only [hx, if_false, Option.none_or]
        exact rfl

theorem map_fst_cells (o : Name) (home : Scope) (k : Nat) (ds : List (String × Expr)) :
    (cells o home k ds).map (·.1) = ds.map (·.1) := by
  induction ds generalizing k with
  | nil => rfl
  | cons p ds ih => simp [cells, ih]

end Named

end CallBy
