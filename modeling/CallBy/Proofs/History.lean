import CallBy.Proofs.MirrorStep
import CallBy.Proofs.Start
import CallBy.Proofs.Cells
import CallBy.Proofs.Strategies

/-!
Call by need does not depend on its history.

Whatever has been computed before, what is asked of a machine under call by need comes to the same.
Both runs, the one from the machine as it was and the one from the machine that other demands have
left, mirror one and the same named evaluation: that of the machine as it was.

* `Machine.Reached`: the machines that building and evaluating by need lead to;
* `Machine.Sound`: everything in the machine is at an address in use and nothing is being computed;
* `Chart.ofMachine`: a sound machine, as the base of named evaluation;
* `need_history_independent`.
-/

namespace CallBy

/-! ### Demands -/

/-- What is asked of a machine. -/
inductive Demand where
  /-- The value of an expression in an environment. -/
  | evaluate (env : Env) (e : Expr)
  /-- The value of a binding. -/
  | resolve (i : BindingId)

namespace Demand

/-- The run that a demand leads to. -/
def run (d : Discipline) (n : Nat) : Demand → Eval Value
  | evaluate env e => Eval.eval d n env e
  | resolve i => Eval.resolve (Eval.eval d n) i

/-- How the run ends. -/
def outcome (d : Discipline) (n : Nat) (D : Demand) (m : Machine) : Except Stop Value :=
  Eval.ending (D.run d n m)

/-- The run ends with a value or an error of the program. -/
def Ends (d : Discipline) (n : Nat) (D : Demand) (m : Machine) (o : Except EvalError Value) :
    Prop :=
  D.outcome d n m = o.mapError .error

instance (d : Discipline) (n : Nat) (D : Demand) (m : Machine) (o : Except EvalError Value) :
    Decidable (D.Ends d n m o) :=
  inferInstanceAs (Decidable (D.outcome d n m = o.mapError .error))

/-- A higher bound on nested evaluations changes nothing unless the bound was hit. -/
theorem outcome_mono {d : Discipline} {D : Demand} {m : Machine} {n k : Nat} (hk : n ≤ k)
    (h : D.outcome d n m ≠ .error .tooDeep) : D.outcome d k m = D.outcome d n m := by
  have hagree : Eval.AgreeUnless (· = .tooDeep) (D.run d n) (D.run d k) := by
    cases D with
    | evaluate env e => exact Eval.eval_mono hk env e
    | resolve i => exact Eval.AgreeUnless.resolve (Eval.eval_mono hk) i
  refine congrArg Eval.ending (hagree m fun s m' hs hdeep => h ?_)
  subst hdeep
  exact congrArg Eval.ending hs

end Demand

/-- What the demand is about is of the machine. -/
def Demand.Within (m : Machine) : Demand → Prop
  | evaluate env _ => m.Has env
  | resolve i => i < m.bindings.size

/-- **The machines that building and evaluating by need lead to.** Bindings of every form may be
built, frames of bindings, slots set, closures made; and whatever is asked may end with a value,
with an error or at the bound on nested evaluations. -/
inductive Machine.Reached : Machine → Prop
  | initial : Reached .initial
  | addBinding {m : Machine} {b : Binding} : Reached m → b.IsNew → b.Within m →
      Reached (m.addBinding b)
  | addFrame {m : Machine} {F : Frame} : Reached m → (∀ s ∈ F.slots, s.2 < m.bindings.size) →
      Reached (m.addFrame F)
  | setSlot {m : Machine} {f : FrameId} {x : String} {i : BindingId} : Reached m →
      i < m.bindings.size → Reached (m.setSlot f x i)
  | addClosure {m : Machine} : Reached m → Reached { m with closures := m.closures + 1 }
  | demand {m : Machine} {D : Demand} {r : Bool} {n : Nat} : Reached m → D.Within m →
      Reached (Eval.leaves (D.run ⟨.need, r⟩ n) m)

/-! ### Runs after other runs -/

namespace Named

/-- What a demand leads to in named evaluation from the machine. -/
def ofDemand (base : Machine) (recursiveLet : Bool) (C : Context) (o : Name) (k : Nat) :
    Demand → Course Val
  | .evaluate env e => eval base recursiveLet k C o (.base env) e
  | .resolve i => read (eval base recursiveLet k) C o (.ofBinding i (base.binding i))

section Demand

variable {m : Machine} {d : Discipline} (hd : d.strategy = .need) {S : Name → Nat} {D : Demand}

include hd

theorem mirrors_demand {p : Nat} {w : Chart} (hw : Chart.ofMachine m p ≤ w) (hD : D.Within m)
    (n : Nat) {R : List Name} {o : Name} {own : Own} :
    Mirrors m d S n R o own (fun w _ => Stands d w) w (D.run d n)
      fun C k => ofDemand m d.recursiveLet C o k D := by
  have hname : d.strategy ≠ .name := by
    rw [hd]
    exact nofun
  cases D with
  | evaluate env e =>
    refine mirrors_eval hname n ((stack_ofMachine hD).mono hw) fun hv => ?_
    rw [hd] at hv
    cases hv
  | resolve i =>
    exact Mirrors.resolve (mirrors_eval hname n) (Chart.entry_mono hw (Chart.entry_ofMachine hD))

/-- However a run ends, the machine that it leaves is as a chart says that continues the one of the
machine before. -/
theorem exists_chart (hm : m.Sound) (hD : D.Within m) (n : Nat) :
    ∃ w, Chart.ofMachine m 0 ≤ w ∧ Models m d S w (Eval.leaves (D.run d n) m) ∧
      Books [] w (Eval.leaves (D.run d n) m) ∧ Kept S (.main 0) (Chart.ofMachine m 0) w := by
  obtain ⟨hok, hstop⟩ := mirrors_demand hd (S := S) (Chart.le_refl (Chart.ofMachine m 0)) hD n m
    (models_ofMachine hm (.inr hd)) (ledger_ofMachine hm)
  cases hx : D.run d n m with
  | ok v m' =>
    obtain ⟨u, own', w, hon, -⟩ := hok v m' hx
    rw [Eval.leaves_of_ok hx]
    exact ⟨w, hon.le, hon.models, hon.ledger.toBooks, hon.kept⟩
  | error s m' =>
    rw [Eval.leaves_of_error hx]
    exact (hstop hd s m' hx).left

end Demand

/-- The attempts after a run: what is finished was computed at the first one, anything else may be
computed at the second one. -/
def Chart.stamps (w : Chart) (c : Name) : Nat := if c ∈ w.finished.map (·.1.name) then 0 else 1

section Restart

variable {base : Machine} {d : Discipline} {S S' : Name → Nat} {w : Chart} {m : Machine}

theorem Chart.stamps_of_mem {q : Cell × Own} (h : q ∈ w.finished) : w.stamps q.1.name = 0 :=
  if_pos (List.mem_map_of_mem h)

/-- Only the attempts of what is finished matter to what bindings are. -/
theorem Holds.restamp (h : ∀ q ∈ w.finished, S' q.1.name = S q.1.name) {t : Option Entry}
    {b : Binding} (hb : Holds base d S w t b) : Holds base d S' w t b := by
  cases hb with
  | reserved x => exact .reserved x
  | undefined x => exact .undefined x
  | given hv hs => exact .given hv hs
  | anew hs he => exact .anew hs he
  | pending hd hs => exact .pending hd hs
  | running hd hs => exact .running hd hs
  | finished hv hc hcomp hs hreads =>
    refine .finished hv hc (fun C hC => ?_) hs hreads
    rw [h _ hc]
    exact hcomp C fun q hq => ⟨(hC q hq).1.trans (h q hq), (hC q hq).2⟩

theorem ModelsBut.restamp (h : ∀ q ∈ w.finished, S' q.1.name = S q.1.name)
    (hm : Models base d S w m) : Models base d S' w m :=
  ⟨hm.frames, hm.bindings, hm.closures, hm.slots, fun hi => (hm.cells hi).restamp h⟩

/-- After a run the books are in order for another one. -/
theorem Books.restart (hb : Books [] w m)
    (hk : Kept (fun _ => 0) (.main 0) (Chart.ofMachine base 0) w) :
    Ledger w.stamps [] (.main 1) (w.count (.main 1) 0) m {} := by
  have hbegun : ∀ {a : Name}, w.made a ≠ none → a = .main 0 ∨ ∃ c, a = .attempt c 0 :=
    fun ha => (hk.begun ha).imp_left made_ofMachine
  have hmain : w.made (.main 1) = none := by
    by_contra hne
    rcases hbegun hne with h | ⟨c, h⟩ <;> cases h
  refine ⟨⟨hb.closures, hb.cells, fun {a k} huse => ?_, fun {c s} hc => ?_, hb.once, hb.charted,
    hb.running, hb.results⟩, fun {i c} hi x e env hpend => ?_, Chart.made_count_self w _ _, nofun,
    nofun⟩
  · obtain ⟨n, hn, hlt⟩ := hb.used huse
    have hne : a ≠ .main 1 := by
      rintro rfl
      rw [hmain] at hn
      cases hn
    exact ⟨n, by rw [Chart.made_count_of_ne w hne, hn], hlt⟩
  · rcases Chart.made_count_ne_none w 0 hc with h | hc
    · cases h
    · exact hb.begun hc
  · -- what is pending is not finished, and no second attempt has begun
    have hnew : c.name ∉ w.finished.map (·.1.name) := by
      intro hmem
      obtain ⟨q, hq, hname⟩ := List.mem_map.mp hmem
      have hres := hb.results hi q hq hname
      rw [hpend] at hres
      cases hres
    have hmain' : Name.attempt c.name 1 ≠ .main 1 := nofun
    rw [Chart.stamps, if_neg hnew, Chart.made_count_of_ne w hmain']
    by_contra hne
    rcases hbegun hne with h | ⟨c', h⟩ <;> cases h

end Restart

/-! ### Outcomes -/

/-- The outcome is the named one, but for the identity and environment of closures. -/
def Shows : Except EvalError Value → Except Stop (Val × Own) → Prop
  | .ok v, .ok p => v.bare = p.1.bare
  | .error e, .error (.error e') => e.bare = e'.bare
  | _, _ => False

theorem Shows.alike {o o' : Except EvalError Value} {r : Except Stop (Val × Own)} (h : Shows o r)
    (h' : Shows o' r) : Alike o o' := by
  cases o with
  | ok v =>
    match r, o' with
    | .ok p, .ok v' => exact .ok (Eq.trans h (Eq.symm h'))
    | .ok p, .error e' => exact h'.elim
    | .error s, _ => exact h.elim
  | error e =>
    match r, o' with
    | .error (.error e₀), .error e' => exact .error (Eq.trans h (Eq.symm h'))
    | .error (.error e₀), .ok v' => exact h'.elim
    | .error .tooDeep, _ => exact h.elim
    | .ok p, _ => exact h.elim

theorem Shows.ne_tooDeep {o : Except EvalError Value} {r : Except Stop (Val × Own)}
    (h : Shows o r) : r ≠ .error .tooDeep := by
  rintro rfl
  cases o <;> exact h

/-- The runs, for every bound on nested evaluations, do what the named ones do. -/
structure Tracks (x : Nat → Except Stop Value) (q : Nat → Except Stop (Val × Own)) : Prop where
  ends : ∀ {n : Nat} {o : Except EvalError Value}, x n = o.mapError .error →
    ∃ r, Shows o r ∧ Converges q r
  deep : ∀ {n : Nat}, x n = .error .tooDeep → q n = .error .tooDeep

/-- A run on a machine that is as a chart says does what the named one does from the base. -/
theorem tracks_demand {base m : Machine} {d : Discipline} (hd : d.strategy = .need)
    {S : Name → Nat} {p : Nat} {w : Chart} {o : Name} (hw : Chart.ofMachine base p ≤ w)
    (hm : Models base d S w m) (hl : Ledger S [] o w m {}) {D : Demand} (hD : D.Within base) :
    Tracks (fun n => D.outcome d n m)
      fun k => ofDemand base d.recursiveLet ⟨S, []⟩ o k D {} := by
  have hmirror := fun n => mirrors_demand hd hw hD n m hm hl
  have hout : ∀ n, D.outcome d n m = Eval.ending (D.run d n m) := fun n => rfl
  refine ⟨fun {n o} hx => ?_, fun {n} hx => ?_⟩
  · cases hrun : D.run d n m with
    | ok v m' =>
      rw [hout, hrun] at hx
      obtain ⟨u, own', w', hon, hv, hconv⟩ := (hmirror n).1 v m' hrun
      cases o with
      | error e => cases hx
      | ok v' =>
        cases hx
        exact ⟨.ok (u, own'), hv.bare_eq, hconv _ hon.ledger.agrees⟩
    | error s m' =>
      rw [hout, hrun] at hx
      cases o with
      | ok v => cases hx
      | error e =>
        cases hx
        obtain ⟨e', hee, hconv⟩ := ((hmirror n).2 hd _ m' hrun).error e rfl
        exact ⟨.error (.error e'), hee, hconv⟩
  · cases hrun : D.run d n m with
    | ok v m' => rw [hout, hrun] at hx; cases hx
    | error s m' =>
      rw [hout, hrun] at hx
      cases hx
      exact ((hmirror n).2 hd _ m' hrun).deep rfl

section Carry

variable {x x' : Nat → Except Stop Value} {q : Nat → Except Stop (Val × Own)} (h : Tracks x q)
  (h' : Tracks x' q) (hmono : ∀ {n k : Nat}, n ≤ k → x' n ≠ .error .tooDeep → x' k = x' n)

include h h' hmono

/-- Runs that do what the same named ones do end alike. -/
theorem Tracks.carry {n : Nat} {o : Except EvalError Value} (ho : x n = o.mapError .error) :
    ∃ o' n', Alike o o' ∧ ∀ k ≥ n', x' k = o'.mapError .error := by
  obtain ⟨r, hr, hconv⟩ := h.ends ho
  obtain ⟨n', hn'⟩ := hconv.1
  have hends : x' n' ≠ .error .tooDeep := by
    intro hdeep
    refine hr.ne_tooDeep ?_
    rw [← hn' n' (Nat.le_refl n'), h'.deep hdeep]
  obtain ⟨o', ho'⟩ := Eval.exists_mapError hends
  obtain ⟨r', hr', hconv'⟩ := h'.ends ho'
  rw [hconv.unique hconv'] at hr
  exact ⟨o', n', hr.alike hr', fun k hk => by rw [hmono hk hends, ho']⟩

theorem Tracks.never (hx : ∀ n, x' n = .error .tooDeep) (n : Nat) : x n = .error .tooDeep := by
  by_contra hne
  obtain ⟨o, ho⟩ := Eval.exists_mapError hne
  obtain ⟨o', n', -, hk⟩ := h.carry h' hmono ho
  have hends := hk n' (Nat.le_refl n')
  rw [hx] at hends
  exact Eval.mapError_ne_tooDeep o' hends.symm

end Carry

/-- The run of a demand, from the machine and from the one that another demand leaves, does what one
named evaluation does. -/
theorem exists_tracks {m : Machine} (hm : m.Sound) {d : Discipline} (hd : d.strategy = .need)
    {first next : Demand} (hfirst : first.Within m) (hnext : next.Within m) (k : Nat) :
    ∃ q, Tracks (fun n => next.outcome d n m) q ∧
      Tracks (fun n => next.outcome d n (Eval.leaves (first.run d k) m)) q := by
  obtain ⟨w, hle, hm', hb, hkept⟩ := exists_chart hd (S := fun _ => 0) hm hfirst k
  have hm'' : Models m d w.stamps w (Eval.leaves (first.run d k) m) :=
    hm'.restamp fun q hq => Chart.stamps_of_mem hq
  have hcount := Chart.le_count w (.main 1) 0
  have hdirect : Tracks (fun n => next.outcome d n m)
      fun k => ofDemand m d.recursiveLet ⟨w.stamps, []⟩ (.main 1) k next {} :=
    tracks_demand hd (Chart.le_refl (Chart.ofMachine m 1)) (models_ofMachine hm (.inr hd))
      (ledger_ofMachine hm) hnext
  have hafter : Tracks (fun n => next.outcome d n (Eval.leaves (first.run d k) m))
      fun k => ofDemand m d.recursiveLet ⟨w.stamps, []⟩ (.main 1) k next {} :=
    tracks_demand hd (Chart.le_trans hle hcount) (hm''.congr rfl rfl rfl hcount rfl rfl rfl)
      (hb.restart hkept) hnext
  exact ⟨_, hdirect, hafter⟩

end Named

open Named

theorem Machine.Reached.sound {m : Machine} (h : m.Reached) : m.Sound := by
  induction h with
  | initial => exact .initial
  | addBinding _ hnew hb ih => exact ih.addBinding hnew hb
  | addFrame _ hF ih => exact ih.addFrame hF
  | setSlot _ hi ih => exact ih.setSlot hi
  | addClosure _ ih => exact ih.addClosure
  | @demand m D r n _ hD ih =>
    obtain ⟨w, -, hm, hb, -⟩ := exists_chart (d := ⟨.need, r⟩) (S := fun _ => 0) rfl ih hD n
    exact hm.sound hb

/-- **Call by need does not depend on its history.** Let something be asked of a machine first, with
whatever bound on nested evaluations and whatever it comes to. Then whatever is asked next ends just
as if it had been asked of the machine at once, within a bound that suffices, or it ends in neither
case; and what failed fails again in the same way when it is asked again. Both are asked in one
setting of `recursiveLet`: a pending expression is computed in the setting of what needs it. -/
theorem need_history_independent {m : Machine} (hm : m.Reached) (r : Bool) {first next : Demand}
    (hfirst : first.Within m) (hnext : next.Within m) (k : Nat) :
    let m' := Eval.leaves (first.run ⟨.need, r⟩ k) m
    (∀ n o, next.Ends ⟨.need, r⟩ n m' o →
      ∃ o' n', Alike o o' ∧ ∀ j ≥ n', next.Ends ⟨.need, r⟩ j m o') ∧
    (∀ n o, next.Ends ⟨.need, r⟩ n m o →
      ∃ o' n', Alike o o' ∧ ∀ j ≥ n', next.Ends ⟨.need, r⟩ j m' o') ∧
    ((∀ n, next.outcome ⟨.need, r⟩ n m' = .error .tooDeep) ↔
      ∀ n, next.outcome ⟨.need, r⟩ n m = .error .tooDeep) ∧
    ∀ err, first.Ends ⟨.need, r⟩ k m (.error err) → ∃ err' n', Alike (.error err) (.error err') ∧
      ∀ j ≥ n', first.Ends ⟨.need, r⟩ j m' (.error err') := by
  intro m'
  obtain ⟨q, hq, hq'⟩ := exists_tracks hm.sound (d := ⟨.need, r⟩) rfl hfirst hnext k
  obtain ⟨p, hp, hp'⟩ := exists_tracks hm.sound (d := ⟨.need, r⟩) rfl hfirst hfirst k
  refine ⟨fun n o ho => hq'.carry hq Demand.outcome_mono ho,
    fun n o ho => hq.carry hq' Demand.outcome_mono ho,
    ⟨hq.never hq' Demand.outcome_mono, hq'.never hq Demand.outcome_mono⟩, fun err herr => ?_⟩
  obtain ⟨o', n', halike, hends⟩ := hp.carry hp' Demand.outcome_mono herr
  match o' with
  | .error err' => exact ⟨err', n', halike, hends⟩
  | .ok v => exact halike.elim

/-- A frame with a function `y` and with an `x` that has no value, neither computed yet. -/
def shelf : Machine :=
  let x := Binding.need "x" (.pending (.binary "/" (.int 1) (.int 0)) [0])
  let y := Binding.need "y" (.pending (.map ["n"] (.var "n")) [0])
  ((((Machine.initial.addFrame Frame.empty).addBinding x).addBinding y).setSlot 0 "x" 0).setSlot 0
    "y" 1

theorem shelf_reached : shelf.Reached := by
  have hpending : ∀ x e env, Binding.IsNew (.need x (.pending e env)) := by
    rintro x e env y memo ⟨⟩
    exact ⟨e, env, rfl⟩
  have hframe : (Machine.initial.addFrame Frame.empty).Reached := .addFrame .initial nofun
  have hhas : (Machine.initial.addFrame Frame.empty).Has [0] :=
    List.forall_mem_singleton.mpr Nat.zero_lt_one
  have hx := hframe.addBinding (hpending "x" (.binary "/" (.int 1) (.int 0)) [0]) hhas
  have hy := hx.addBinding (hpending "y" (.map ["n"] (.var "n")) [0]) hhas
  exact (hy.setSlot (by decide)).setSlot (by decide)

/-- The function is found the same as itself and is kept, then `x` fails; the function is found the
same as itself as it would have been before, and `x` fails again. -/
theorem need_history_independent_shelf :
    let same := Expr.binary "=" (.var "y") (.var "y")
    let first := Demand.evaluate [0] (.ite same (.var "x") .null)
    let next := Demand.evaluate [0] same
    let m' := Eval.leaves (first.run ⟨.need, true⟩ 9) shelf
    let err := EvalError.divisionByZero 1
    (shelf.Reached ∧ first.Within shelf ∧ next.Within shelf) ∧
    (first.Ends ⟨.need, true⟩ 9 shelf (.error err) ∧ shelf.isDone 1 = false ∧ m'.isDone 1 = true) ∧
    (next.Ends ⟨.need, true⟩ 9 m' (.ok (.bool true)) ∧
      ∃ o n, Alike (.ok (.bool true)) o ∧ ∀ j ≥ n, next.Ends ⟨.need, true⟩ j shelf o) ∧
    ∃ err' n, Alike (.error err) (.error err') ∧
      ∀ j ≥ n, first.Ends ⟨.need, true⟩ j m' (.error err') := by
  intro same first next m' err
  have hfirst : first.Within shelf := List.forall_mem_singleton.mpr (by decide)
  have hnext : next.Within shelf := List.forall_mem_singleton.mpr (by decide)
  have herr : first.Ends ⟨.need, true⟩ 9 shelf (.error err) := by decide +kernel
  have hval : next.Ends ⟨.need, true⟩ 9 m' (.ok (.bool true)) := by decide +kernel
  obtain ⟨hback, -, -, hagain⟩ :=
    need_history_independent shelf_reached true hfirst hnext 9
  exact ⟨⟨shelf_reached, hfirst, hnext⟩, ⟨herr, by decide +kernel, by decide +kernel⟩,
    ⟨hval, hback 9 _ hval⟩, hagain err herr⟩

end CallBy
