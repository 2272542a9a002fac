import CallBy.Proofs.Growth
import CallBy.Proofs.Ledger

/-!
Where named evaluation begins: a machine, as the base.

* `Machine.Sound`: everything in the machine is at an address in use and nothing is being computed;
* `Chart.ofMachine`: the chart of a machine, each of its addresses standing for itself;
* `models_ofMachine`, `ledger_ofMachine`: a sound machine is as its chart says, and its books are in
  order.
-/

namespace CallBy

/-! ### Sound machines -/

/-- The environment is made of frames of the machine. -/
def Machine.Has (m : Machine) (env : Env) : Prop := ∀ f ∈ env, f < m.frames.size

/-- The closures of the value are of the machine. -/
def Value.Within (m : Machine) : Value → Prop
  | .cons a r => a.Within m ∧ r.Within m
  | .closure i _ _ env => i < m.closures ∧ m.Has env
  | _ => True

/-- What the binding holds is of the machine. -/
def Binding.Within (m : Machine) : Binding → Prop
  | .undefined _ => True
  | .value _ v | .need _ (.done v) => v.Within m
  | .name _ _ env | .need _ (.pending _ env) | .need _ (.running _ env) => m.Has env

/-- **The machine is sound**: everything in it is at an address in use, and nothing is being
computed. -/
structure Machine.Sound (m : Machine) : Prop where
  slots : ∀ {f : Nat} {x : String} {i : Nat}, (m.frame f).get? x = some i → i < m.bindings.size
  contents : ∀ i < m.bindings.size, (m.binding i).Within m
  idle : ∀ i, ¬ m.IsRunning i

/-- The later machine has all the frames and closures of the earlier one. -/
structure Machine.Grown (m m' : Machine) : Prop where
  frames : m.frames.size ≤ m'.frames.size
  closures : m.closures ≤ m'.closures

section Within

variable {m m' : Machine} (h : m.Grown m')

include h

theorem Machine.Has.mono {env : Env} (henv : m.Has env) : m'.Has env :=
  fun f hmem => Nat.lt_of_lt_of_le (henv f hmem) h.frames

theorem Value.Within.mono {v : Value} (hv : v.Within m) : v.Within m' := by
  induction v with
  | cons a r iha ihr => exact ⟨iha hv.1, ihr hv.2⟩
  | closure i ps b env => exact ⟨Nat.lt_of_lt_of_le hv.1 h.closures, hv.2.mono h⟩
  | _ => trivial

theorem Binding.Within.mono {b : Binding} (hb : b.Within m) : b.Within m' := by
  cases b with
  | undefined x => trivial
  | value x v => exact Value.Within.mono h hb
  | name x e env => exact Machine.Has.mono h hb
  | need x memo =>
    cases memo with
    | pending e env => exact Machine.Has.mono h hb
    | running e env => exact Machine.Has.mono h hb
    | done v => exact Value.Within.mono h hb

end Within

theorem mem_slots_of_getSlot? {x : String} {i : BindingId} {ss : List (String × BindingId)}
    (h : Frame.getSlot? x ss = some i) : (x, i) ∈ ss := by
  fun_induction Frame.getSlot? x ss with
  | case1 => cases h
  | case2 j ss => cases h; exact List.mem_cons_self
  | case3 y j ss hne ih => exact List.mem_cons_of_mem _ (ih h)

namespace Machine.Sound

variable {m : Machine}

theorem initial : Sound .initial := by
  refine ⟨fun h => ?_, fun i hi => absurd hi (Nat.not_lt_zero i), fun i => ?_⟩
  · simp [frame, Machine.initial] at h
  · rintro ⟨x, e, env, h⟩
    cases h

theorem addBinding (h : m.Sound) {b : Binding} (hnew : b.IsNew) (hb : b.Within m) :
    (m.addBinding b).Sound := by
  have hgrown : m.Grown (m.addBinding b) := ⟨Nat.le_refl _, Nat.le_refl _⟩
  refine ⟨fun hget => ?_, fun i hi => ?_, fun i => ?_⟩
  · rw [size_addBinding]
    exact Nat.lt_succ_of_lt (h.slots hget)
  · rw [binding_addBinding]
    split
    · exact hb.mono hgrown
    · next hne =>
      rw [size_addBinding] at hi
      exact (h.contents i (Nat.lt_of_le_of_ne (Nat.le_of_lt_succ hi) hne)).mono hgrown
  · rintro ⟨x, e, env, hi⟩
    rw [binding_addBinding] at hi
    split at hi
    · obtain ⟨e', env', hmemo⟩ := hnew x _ hi
      cases hmemo
    · exact h.idle i ⟨x, e, env, hi⟩

theorem addFrame (h : m.Sound) {F : Frame} (hF : ∀ s ∈ F.slots, s.2 < m.bindings.size) :
    (m.addFrame F).Sound := by
  have hgrown : m.Grown (m.addFrame F) := ⟨by simp, Nat.le_refl _⟩
  refine ⟨fun {f x i} hget => ?_, fun i hi => (h.contents i hi).mono hgrown, h.idle⟩
  rw [frame_addFrame] at hget
  split at hget
  · exact hF _ (mem_slots_of_getSlot? hget)
  · exact h.slots hget

theorem setSlot (h : m.Sound) {f : FrameId} {x : String} {i : BindingId}
    (hi : i < m.bindings.size) : (m.setSlot f x i).Sound := by
  have hgrown : m.Grown (m.setSlot f x i) := ⟨by simp, Nat.le_refl _⟩
  refine ⟨fun {g y j} hget => ?_, fun j hj => (h.contents j hj).mono hgrown, h.idle⟩
  by_cases hf : f < m.frames.size
  · rw [frame_setSlot m hf] at hget
    split at hget
    · rw [Frame.get?_set] at hget
      split at hget
      · cases hget
        exact hi
      · exact h.slots hget
    · exact h.slots hget
  · -- an address out of use: nothing is written
    have hsame : (m.setSlot f x i).frame g = m.frame g := by
      simp only [frame, Machine.setSlot, Array.getElem?_modify]
      split
      · next heq =>
        subst heq
        simp [Array.getElem?_eq_none (Nat.le_of_not_lt hf)]
      · rfl
    rw [hsame] at hget
    exact h.slots hget

theorem addClosure (h : m.Sound) : Sound { m with closures := m.closures + 1 } := by
  have hgrown : m.Grown { m with closures := m.closures + 1 } := ⟨Nat.le_refl _, Nat.le_succ _⟩
  exact ⟨h.slots, fun i hi => (h.contents i hi).mono hgrown, h.idle⟩

end Machine.Sound

/-! ### A machine as the base of named evaluation -/

namespace Named

/-- The chart of a machine, each of its addresses standing for itself; the run `p` begins. -/
def Chart.ofMachine (m : Machine) (p : Nat) : Chart where
  scopes := (List.range m.frames.size).map fun f => .base [f]
  entries := (List.range m.bindings.size).map fun i => some (.ofBinding i (m.binding i))
  closures := (List.range m.closures).map .base
  finished := []
  made := Function.update (fun _ => none) (.main p) (some 0)

section OfMachine

variable {m : Machine} {p : Nat} {d : Discipline} {S : Name → Nat}

theorem Chart.scope_ofMachine {f : Nat} (h : f < m.frames.size) :
    (ofMachine m p).scopes[f]? = some (.base [f]) := by
  simp [ofMachine, h]

theorem Chart.entry_ofMachine {i : Nat} (h : i < m.bindings.size) :
    (ofMachine m p).entries[i]? = some (some (.ofBinding i (m.binding i))) := by
  simp [ofMachine, h]

theorem Chart.entry_ofMachine_eq_some {i : Nat} {t : Option Entry}
    (h : (ofMachine m p).entries[i]? = some t) :
    i < m.bindings.size ∧ t = some (.ofBinding i (m.binding i)) := by
  have hlt : i < m.bindings.size := by
    simpa [ofMachine] using (List.getElem?_eq_some_iff.mp h).1
  rw [entry_ofMachine hlt] at h
  exact ⟨hlt, (Option.some.inj h).symm⟩

theorem stack_ofMachine {env : Env} (h : m.Has env) :
    Stack (Chart.ofMachine m p) env (.base env) :=
  .base fun f hmem => Chart.scope_ofMachine (h f hmem)

theorem stands_ofMachine (hfit : ∀ e, Fit d e) {v : Value} (h : v.Within m) :
    Stands d (Chart.ofMachine m p) v (.ofValue v) := by
  induction v with
  | int n => exact .int n
  | bool b => exact .bool b
  | empty => exact .empty
  | cons a r iha ihr => exact .cons (iha h.1) (ihr h.2)
  | closure i ps b env =>
    refine .closure ?_ (stack_ofMachine h.2) (hfit b)
    simp [Chart.ofMachine, h.1]
  | prim p => exact .prim p

/-- A sound machine is as its chart says, in call by need or if it has no bindings yet. -/
theorem models_ofMachine (hm : m.Sound) (hd : m.bindings.size = 0 ∨ d.strategy = .need) :
    Models m d S (Chart.ofMachine m p) m := by
  refine ⟨by simp [Chart.ofMachine], by simp [Chart.ofMachine], by simp [Chart.ofMachine],
    fun {f σ} hσ _ x => ?_, fun {i t} hi => ?_⟩
  · have hlt : f < m.frames.size := by
      simpa [Chart.ofMachine] using (List.getElem?_eq_some_iff.mp hσ).1
    rw [Chart.scope_ofMachine hlt] at hσ
    cases hσ
    have hlook : m.lookup? [f] x = (m.frame f).get? x := by
      simp only [Machine.lookup?, List.findSome?_cons, List.findSome?_nil]
      cases (m.frame f).get? x <;> rfl
    simp only [Scope.own?, hlook]
    cases hget : (m.frame f).get? x with
    | none => exact rfl
    | some i => exact ⟨i, rfl, .inl (Chart.entry_ofMachine (hm.slots hget))⟩
  · obtain ⟨hlt, rfl⟩ := Chart.entry_ofMachine_eq_some hi
    have hd : d.strategy = .need := hd.resolve_left (by omega)
    have hfit : ∀ e, Fit d e := fun e hv => by
      rw [hd] at hv
      cases hv
    have hb := hm.contents i hlt
    have hidle := hm.idle i
    unfold Machine.IsRunning at hidle
    generalize m.binding i = b at hb hidle
    cases b with
    | undefined x => exact .undefined x
    | value x v => exact .given rfl (stands_ofMachine hfit hb)
    | name x e env => exact .anew (stack_ofMachine hb) (hfit e)
    | need x memo =>
      cases memo with
      | pending e env => exact .pending (c := ⟨.base i, x, e, .base env⟩) hd (stack_ofMachine hb)
      | running e env => exact absurd ⟨x, e, env, rfl⟩ hidle
      | done v => exact .given rfl (stands_ofMachine hfit hb)

/-- The shared bindings of the chart are those of the machine. -/
theorem cell_ofMachine {i : Nat} {c : Cell}
    (h : (Chart.ofMachine m p).entries[i]? = some (some (.cell c))) : c.name = .base i := by
  obtain ⟨-, hc⟩ := Chart.entry_ofMachine_eq_some h
  generalize m.binding i = b at hc
  cases b with
  | need x memo => cases memo <;> cases hc <;> rfl
  | _ => cases hc

theorem not_uses_ofMachine (o : Name) (k : Nat) : ¬ (Chart.ofMachine m p).Uses (.event o k) := by
  rintro (hmem | ⟨i, c, hi, hc⟩)
  · simp [Chart.ofMachine] at hmem
  · rw [cell_ofMachine hi] at hc
    cases hc

theorem made_ofMachine {a : Name} (h : (Chart.ofMachine m p).made a ≠ none) : a = .main p := by
  by_contra hne
  refine h ?_
  simp [Chart.ofMachine, Function.update_of_ne hne]

/-- The books of a sound machine, at the beginning of a run. -/
theorem ledger_ofMachine (hm : m.Sound) :
    Ledger S [] (.main p) (Chart.ofMachine m p) m {} := by
  refine ⟨⟨?_, fun hi hj hname => ?_, fun huse => absurd huse (not_uses_ofMachine _ _),
    fun hc => ?_, List.nodup_nil, nofun, fun {i c} _ => ⟨fun h => absurd h (hm.idle i), nofun⟩,
    fun _ q hq => (nomatch hq)⟩, fun _ _ _ _ _ => ?_, ?_, nofun, nofun⟩
  · refine List.Nodup.map (fun i j h => ?_) List.nodup_range
    cases h
    rfl
  · rw [cell_ofMachine hi, cell_ofMachine hj] at hname
    cases hname
    rfl
  · cases made_ofMachine hc
  · by_contra hne
    cases made_ofMachine hne
  · simp [Chart.ofMachine]

end OfMachine

/-! ### What charts say of soundness -/

section Sound

variable {base : Machine} {d : Discipline} {S : Name → Nat} {w : Chart} {m : Machine}

theorem Stack.has (hm : Models base d S w m) {env : Env} {σ : Scope} (h : Stack w env σ) :
    m.Has env := by
  induction h with
  | base hf => exact fun f hmem => hm.lt_of_scope (hf f hmem)
  | call hf _ ih => exact List.forall_mem_cons.mpr ⟨hm.lt_of_scope hf, ih⟩
  | letrec hf _ ih => exact List.forall_mem_cons.mpr ⟨hm.lt_of_scope hf, ih⟩

theorem Stands.within (hm : Models base d S w m) {v : Value} {u : Val} (h : Stands d w v u) :
    v.Within m := by
  induction h with
  | cons _ _ iha ihr => exact ⟨iha, ihr⟩
  | closure hi hs _ =>
    refine ⟨?_, hs.has hm⟩
    rw [hm.closures]
    exact (List.getElem?_eq_some_iff.mp hi).1
  | _ => trivial

theorem within_of_result {b : Binding} {v : Value} (h : b.result? = some v) (hv : v.Within m) :
    b.Within m := by
  cases b with
  | value x v' =>
    cases h
    exact hv
  | need x memo =>
    cases memo with
    | done v' =>
      cases h
      exact hv
    | _ => cases h
  | _ => cases h

theorem Holds.within (hm : Models base d S w m) {t : Option Entry} {b : Binding}
    (h : Holds base d S w t b) : b.Within m := by
  cases h with
  | reserved x => trivial
  | undefined x => trivial
  | given hv hs => exact within_of_result hv (hs.within hm)
  | anew hs _ => exact hs.has hm
  | pending _ hs => exact hs.has hm
  | running _ hs => exact hs.has hm
  | finished hv _ _ hs _ => exact within_of_result hv (hs.within hm)

/-- **A machine that is as a chart says is sound**, if by the books nothing is being computed. -/
theorem ModelsBut.sound (hm : Models base d S w m) (hb : Books [] w m) : m.Sound := by
  have hentry : ∀ {i : Nat}, i < m.bindings.size → ∃ t, w.entries[i]? = some t := by
    intro i hi
    rw [hm.bindings] at hi
    exact ⟨_, List.getElem?_eq_getElem hi⟩
  refine ⟨fun {f x i} hget => ?_, fun i hi => ?_, fun i hrun => ?_⟩
  · have hf : f < m.frames.size := by
      by_contra hge
      rw [Machine.frame, Array.getElem?_eq_none (Nat.le_of_not_lt hge)] at hget
      cases hget
    rw [hm.frames] at hf
    have hslot := hm.slots (List.getElem?_eq_getElem hf) (fun h => h) x
    rw [hget] at hslot
    cases ht : (w.scopes[f]).own? base x with
    | none =>
      rw [ht] at hslot
      cases hslot
    | some t =>
      rw [ht] at hslot
      obtain ⟨j, hj, hit | ⟨-, hit⟩⟩ := hslot <;> cases hj <;> exact hm.lt_of_entry hit
  · obtain ⟨t, ht⟩ := hentry hi
    exact (hm.cells ht).within hm
  · obtain ⟨t, ht⟩ := hentry hrun.lt_size
    have hholds := hm.cells ht
    obtain ⟨x, e, env, hbind⟩ := id hrun
    generalize m.binding i = b at hbind hholds
    cases hholds with
    | running hd hs => cases (hb.running ht).mp hrun
    | given hv _ => rw [hbind] at hv; cases hv
    | finished hv _ _ _ _ => rw [hbind] at hv; cases hv
    | _ => cases hbind

end Sound

end Named

end CallBy
