import CallBy.Proofs.MirrorStep
import CallBy.Proofs.Start
import CallBy.Proofs.Strategies
import Mathlib.Data.List.Flatten
import Mathlib.Data.Multiset.Basic

/-!
Call by need does the least work, counted by the reports of the tick.

Against call by name, its reports are some of those of storeless evaluation, in order; call by name
makes them all. Against call by value, both runs mirror one named evaluation, and every report is
made on the account of a cell: each strategy computes a cell at most once, and the cells that call
by need computes are needed, so call by value has computed them too.

* `Eval.work`: the reports of a run;
* `Named.Reach.finished`: what a finished run has needed is finished;
* `need_least_work`.
-/

namespace CallBy

namespace Eval

/-- The work of a run of the expression from the empty environment: what the tick has reported. -/
def work (d : Discipline) (n : Nat) (e : Expr) : List String :=
  (leaves (evalClosed d n e) Machine.initial).trace.toList

/-- A higher bound on nested evaluations changes nothing unless the bound was hit. -/
theorem evalClosed_mono {d : Discipline} {n k : Nat} {e : Expr} (hk : n ≤ k)
    (h : outcome d n e ≠ .error .tooDeep) :
    evalClosed d k e Machine.initial = evalClosed d n e Machine.initial := by
  refine eval_mono hk [0] e (Machine.initial.addFrame Frame.empty) fun s m hs hdeep => h ?_
  subst hdeep
  exact congrArg ending hs

theorem outcome_mono {d : Discipline} {n k : Nat} {e : Expr} (hk : n ≤ k)
    (h : outcome d n e ≠ .error .tooDeep) : outcome d k e = outcome d n e :=
  congrArg ending (evalClosed_mono hk h)

theorem work_mono {d : Discipline} {n k : Nat} {e : Expr} (hk : n ≤ k)
    (h : outcome d n e ≠ .error .tooDeep) : work d k e = work d n e := by
  simp only [work, leaves, evalClosed_mono hk h]

/-- A run that compares no closures is the guarded one. -/
theorem work_eq_guarded {d : Discipline} {n : Nat} {e : Expr} (h : ComparesNoClosures d n e) :
    work d n e = (leaves (guardedClosed d n e) Machine.initial).trace.toList := by
  have heq : evalClosed d n e Machine.initial = guardedClosed d n e Machine.initial :=
    guarded_agree n [0] e (Machine.initial.addFrame Frame.empty) h
  simp only [work, leaves, heq]

end Eval

open Eval

/-! ### Call by name -/

section Name

open Storeless

variable {d : Discipline} {n k : Nat} {e : Expr}

/-- The reports of a lazy strategy are those of storeless evaluation, or some of them. -/
theorem trail_of_ends (hlazy : d.strategy ≠ .value) {p : Except EvalError Val}
    (h : (Storeless.eval d.recursiveLet n .top e).ends = p.mapError .error) (hk : n ≤ k) :
    Trail d Machine.initial (leaves (guardedClosed d k e) Machine.initial)
      (Storeless.eval d.recursiveLet n .top e).trace := by
  have hA : Asleep d n ⟨[.top], []⟩ (Machine.initial.addFrame Frame.empty) :=
    fun k _ i e τ hi => (nomatch hi)
  obtain ⟨hok, herr⟩ := follows_guarded hlazy n k hk (e := e) stack_start _ (models_start d) hA
  cases p with
  | ok u =>
    obtain ⟨v, m, w, hx, -, -, -, htr, -⟩ := hok u h
    have hx : guardedClosed d k e Machine.initial = .ok v m := hx
    rw [leaves_of_ok hx]
    exact htr
  | error err =>
    obtain ⟨err', m, hx, htr, -⟩ := herr err h
    have hx : guardedClosed d k e Machine.initial = .error (.error err') m := hx
    rw [leaves_of_error hx]
    exact htr

/-- **If call by name ends, call by need makes some of its reports**, in the same order. -/
theorem need_of_name {r : Bool} {o : Except EvalError Value} (h : Ends ⟨.name, r⟩ n e o)
    (hcmp : ComparesNoClosures ⟨.name, r⟩ n e) :
    ∃ o' n', Alike o o' ∧ ∀ k ≥ n', Ends ⟨.need, r⟩ k e o' ∧
      (work ⟨.need, r⟩ k e).Sublist (work ⟨.name, r⟩ n e) := by
  have hg : guardedOutcome ⟨.name, r⟩ n e = o.mapError .error := (outcome_eq hcmp).symm.trans h
  obtain ⟨p, ⟨l, hl⟩, hop⟩ :=
    settles_of_guardedOutcome hg (fun hv => (nomatch hv)) fun _ _ => .inl rfl
  obtain ⟨o', n', hop', ho'⟩ := guardedOutcome_of_settles (d := ⟨.need, r⟩) nofun ⟨l, hl⟩
  -- a bound that suffices for storeless evaluation and for call by name
  have hsuff : (Storeless.eval r (max n l) .top e).ends = p.mapError .error :=
    hl _ (Nat.le_max_right n l)
  have hname : work ⟨.name, r⟩ n e = (Storeless.eval r (max n l) .top e).trace := by
    have hends : outcome ⟨.name, r⟩ n e ≠ .error .tooDeep := by
      rw [h]
      exact mapError_ne_tooDeep o
    have hdeep : guardedOutcome ⟨.name, r⟩ n e ≠ .error .tooDeep := by
      rw [hg]
      exact mapError_ne_tooDeep o
    have hg' := (guardedOutcome_mono (Nat.le_max_left n l) hdeep).trans hg
    have hcmp' := comparesNoClosures_of_same hop hop hcmp hg hg'
    obtain ⟨t, ht, -, hall⟩ := trail_of_ends (d := ⟨.name, r⟩) nofun hsuff (Nat.le_refl _)
    rw [← work_mono (Nat.le_max_left n l) hends, work_eq_guarded hcmp', ht, hall rfl]
    rfl
  refine ⟨o', max n' (max n l), hop.alike hop', fun k hk => ?_⟩
  have hk' := ho' k (by omega)
  have hcmp' := comparesNoClosures_of_same hop hop' hcmp hg hk'
  obtain ⟨t, ht, hsub, -⟩ :=
    trail_of_ends (d := ⟨.need, r⟩) nofun hsuff (Nat.le_trans (Nat.le_max_right _ _) hk)
  refine ⟨(outcome_eq hcmp').trans hk', ?_⟩
  rw [work_eq_guarded hcmp', ht, hname]
  exact hsub

end Name

/-! ### Call by value -/

namespace Named

section Finished

variable {base : Machine} {d : Discipline} {S : Name → Nat} {w : Chart} {m : Machine}

theorem Costs.unique {r : Bool} {c : Cell} {own own' : Own} (h : Costs base r S c own)
    (h' : Costs base r S c own') : own = own' := by
  obtain ⟨u, hu⟩ := h
  obtain ⟨u', hu'⟩ := h'
  cases hu.unique hu'
  rfl

/-- What is finished costs what the chart says, and what it reads is finished too. -/
theorem ModelsBut.finished_costs (hm : Models base d S w m) {R : List Name} (hb : Books R w m)
    {q : Cell × Own} (hq : q ∈ w.finished) :
    Costs base d.recursiveLet S q.1 q.2 ∧ ∀ c ∈ q.2.reads, w.Finished c := by
  obtain ⟨i, hi⟩ := hb.charted q hq
  have hres := hb.results hi q hq rfl
  have hholds := hm.cells hi
  generalize m.binding i = b at hres hholds
  cases hholds with
  | pending _ _ => cases hres
  | running _ _ => cases hres
  | @finished _ _ v u own _ hmem hcomp _ hreads =>
    -- a cell is finished only once
    have heq : (q.1, own) = q := List.inj_on_of_nodup_map hb.once hmem hq rfl
    rw [← heq]
    exact ⟨hcomp.costs, hreads⟩

/-- **What is needed for something finished is finished.** -/
theorem Reach.finished (hm : Models base d S w m) {R : List Name} (hb : Books R w m)
    {rs : List Cell} (hrs : ∀ c ∈ rs, w.Finished c) {c : Cell}
    (h : Reach base d.recursiveLet S rs c) : w.Finished c := by
  induction h with
  | read hmem => exact hrs _ hmem
  | through _ hcost hmem ih =>
    obtain ⟨own, hown⟩ := ih
    obtain ⟨hcost', hreads⟩ := hm.finished_costs hb hown
    rw [hcost.unique hcost'] at hmem
    exact hreads _ hmem

end Finished

section Compare

variable {base : Machine} {S : Name → Nat} {d d' : Discipline} {w₀ w w' : Chart} {m₀ m m' : Machine}
  {o : Name} {own : Own}

/-- **What call by need has reported was reported by any run that has done the same**, but for the
order: the cells that it has computed are needed, so the other run has computed them too. -/
theorem Onward.subperm (h : Onward base d S [] o w₀ m₀ {} w m own)
    (h' : Onward base d' S [] o w₀ m₀ {} w' m' own) (hneed : d'.strategy = .need)
    (hr : d'.recursiveLet = d.recursiveLet) (hfin : w₀.finished = []) (htr : m₀.trace = #[]) :
    m'.trace.toList.Subperm m.trace.toList := by
  obtain ⟨t, done, rep, rd, hb⟩ := h.bill
  obtain ⟨t', done', rep', rd', hb'⟩ := h'.bill
  have hrep : rep' = rep := hb'.reported.symm.trans hb.reported
  have hrd : rd' = rd := hb'.read.symm.trans hb.read
  have hdone : w.finished = done := by simpa [hfin] using hb.finished
  have hdone' : w'.finished = done' := by simpa [hfin] using hb'.finished
  have hsub : done' ⊆ done := by
    intro q hq
    have hreach := hb'.needed hneed q hq
    rw [hr, hrd] at hreach
    obtain ⟨own₁, hown⟩ := hreach.finished h.models h.ledger.toBooks hb.available
    have hcost := (h.models.finished_costs h.ledger.toBooks hown).1
    have hcost' := (h'.models.finished_costs h'.ledger.toBooks (hdone' ▸ hq)).1
    rw [hr] at hcost'
    have hsame : own₁ = q.2 := hcost.unique hcost'
    rw [hsame, hdone] at hown
    exact hown
  have hnodup : done'.Nodup := List.Nodup.of_map _ (hdone' ▸ h'.ledger.once)
  have hreports : (rep ++ done'.flatMap (·.2.reports)).Subperm
      (rep ++ done.flatMap (·.2.reports)) := by
    obtain ⟨l, hperm, hl⟩ := hnodup.subperm hsub
    exact ⟨_, (hperm.flatMap_right _).append_left rep, (hl.flatMap _).append_left rep⟩
  have ht : m.trace.toList = t := by simpa [htr] using hb.trace
  have ht' : m'.trace.toList = t' := by simpa [htr] using hb'.trace
  rw [ht, ht']
  have hperm' := hb'.perm
  rw [hrep] at hperm'
  exact hperm'.subperm.trans (hreports.trans hb.perm.symm.subperm)

end Compare

/-- What call by value ends with, call by need ends with, and its reports are among those of call by
value. -/
theorem need_of_value {r : Bool} {n : Nat} {e : Expr} (hdist : e.Distinct) {v : Value} {m : Machine}
    (h : Eval.evalClosed ⟨.value, r⟩ n e Machine.initial = .ok v m) :
    ∃ v' k m', Eval.evalClosed ⟨.need, r⟩ k e Machine.initial = .ok v' m' ∧ v'.bare = v.bare ∧
      m'.trace.toList.Subperm m.trace.toList := by
  obtain ⟨m₀, hm₀⟩ : ∃ m₀, m₀ = Machine.initial.addFrame Frame.empty := ⟨_, rfl⟩
  have hrun : ∀ (d : Discipline) (k : Nat),
      Eval.evalClosed d k e Machine.initial = Eval.eval d k [0] e m₀ := by
    intro d k
    rw [hm₀]
    rfl
  have hsound : m₀.Sound := hm₀ ▸ Machine.Sound.initial.addFrame nofun
  have hnone : m₀.bindings.size = 0 := by
    rw [hm₀]
    rfl
  have hstack : Stack (Chart.ofMachine m₀ 0) [0] (.base [0]) := by
    refine stack_ofMachine (List.forall_mem_singleton.mpr ?_)
    rw [hm₀]
    exact Nat.zero_lt_one
  have hledger : Ledger (fun _ => 0) [] (.main 0) (Chart.ofMachine m₀ 0) m₀ {} :=
    ledger_ofMachine hsound
  rw [hrun] at h
  obtain ⟨hok, -⟩ := mirrors_eval (d := ⟨.value, r⟩) (S := fun _ => 0) nofun n hstack
    (fun _ => hdist) m₀ (models_ofMachine hsound (.inl hnone)) hledger
  obtain ⟨u, own, w, hon, hv, hconv⟩ := hok v m h
  have hconv := hconv ⟨fun _ => 0, []⟩ hon.ledger.agrees
  -- within a bound that suffices the run by need cannot stop, for it would stop the named one
  obtain ⟨k, hk⟩ := hconv.1
  obtain ⟨hok', hstop'⟩ := mirrors_eval (d := ⟨.need, r⟩) (S := fun _ => 0) nofun k hstack
    (fun hval => (nomatch hval)) m₀ (models_ofMachine hsound (.inl hnone)) hledger
  cases hx : Eval.eval ⟨.need, r⟩ k [0] e m₀ with
  | error s m' =>
    obtain ⟨herr, hdeep, -⟩ := hstop' rfl s m' hx
    cases s with
    | error err =>
      obtain ⟨err', -, hconv'⟩ := herr err rfl
      cases hconv.unique hconv'
    | tooDeep =>
      have hdeep := (hk k (Nat.le_refl k)).symm.trans (hdeep rfl)
      cases hdeep
  | ok v' m' =>
    obtain ⟨u', own', w', hon', hv', hconv'⟩ := hok' v' m' hx
    cases hconv.unique (hconv' ⟨fun _ => 0, []⟩ hon'.ledger.agrees)
    refine ⟨v', k, m', by rw [hrun, hx], hv'.bare_eq.trans hv.bare_eq.symm, ?_⟩
    exact hon.subperm hon' rfl rfl rfl (by rw [hm₀]; rfl)

end Named

/-! ### The least work -/

/-- **Call by need does the least work.** If call by name ends, the reports of call by need are some
of those of call by name, in the same order; if call by value ends with a value, they are among
those of call by value, as multisets. -/
theorem need_least_work (r : Bool) (e : Expr) (n : Nat) :
    (∀ o, Ends ⟨.name, r⟩ n e o → ComparesNoClosures ⟨.name, r⟩ n e →
      ∃ o' n', Alike o o' ∧ ∀ k ≥ n', Ends ⟨.need, r⟩ k e o' ∧
        (work ⟨.need, r⟩ k e).Sublist (work ⟨.name, r⟩ n e)) ∧
    ∀ v, Ends ⟨.value, r⟩ n e (.ok v) → e.Distinct →
      ∃ v' n', Alike (.ok v) (.ok v') ∧ ∀ k ≥ n', Ends ⟨.need, r⟩ k e (.ok v') ∧
        (work ⟨.need, r⟩ k e : Multiset String) ≤ work ⟨.value, r⟩ n e := by
  refine ⟨fun o ho hcmp => need_of_name ho hcmp, fun v hv hdist => ?_⟩
  cases hx : evalClosed ⟨.value, r⟩ n e Machine.initial with
  | error s m =>
    rw [Ends, outcome, hx] at hv
    cases hv
  | ok v₀ m =>
    rw [Ends, outcome, hx] at hv
    cases hv
    obtain ⟨v', n', m', hx', hbare, hsub⟩ := Named.need_of_value hdist hx
    have hends : outcome ⟨.need, r⟩ n' e = .ok v' := congrArg ending hx'
    have hdeep : outcome ⟨.need, r⟩ n' e ≠ .error .tooDeep := by
      rw [hends]
      exact nofun
    refine ⟨v', n', .ok hbare.symm, fun k hk => ⟨(outcome_mono hk hdeep).trans hends, ?_⟩⟩
    rw [work_mono hk hdeep, work, work, leaves_of_ok hx, leaves_of_ok hx']
    exact Multiset.coe_le.mpr hsub

/-- A `let` whose second definition is used twice and whose first one is not. -/
def wasteful : Expr :=
  .letIn [("y", .app (.prim .tick) [.int 2]), ("x", .app (.prim .tick) [.int 1])]
    (.binary "+" (.var "x") (.var "x"))

/-- Call by name reports twice what it uses twice, and call by value what it does not use. -/
theorem need_least_work_wasteful :
    (work ⟨.name, true⟩ 9 wasteful = ["1", "1"] ∧ work ⟨.value, true⟩ 9 wasteful = ["2", "1"] ∧
      work ⟨.need, true⟩ 9 wasteful = ["1"]) ∧
    (Ends ⟨.name, true⟩ 9 wasteful (.ok (.int 2)) ∧ ComparesNoClosures ⟨.name, true⟩ 9 wasteful ∧
      ∃ o n, Alike (.ok (.int 2)) o ∧ ∀ k ≥ n, Ends ⟨.need, true⟩ k wasteful o ∧
        (work ⟨.need, true⟩ k wasteful).Sublist (work ⟨.name, true⟩ 9 wasteful)) ∧
    (Ends ⟨.value, true⟩ 9 wasteful (.ok (.int 2)) ∧ wasteful.Distinct ∧
      ∃ v n, Alike (.ok (.int 2)) (.ok v) ∧ ∀ k ≥ n, Ends ⟨.need, true⟩ k wasteful (.ok v) ∧
        (work ⟨.need, true⟩ k wasteful : Multiset String) ≤ work ⟨.value, true⟩ 9 wasteful) := by
  have hname : Ends ⟨.name, true⟩ 9 wasteful (.ok (.int 2)) := by decide +kernel
  have hcmp : ComparesNoClosures ⟨.name, true⟩ 9 wasteful := by decide +kernel
  have hvalue : Ends ⟨.value, true⟩ 9 wasteful (.ok (.int 2)) := by decide +kernel
  have hdist : wasteful.Distinct := by
    have htick : ∀ n, Expr.Distinct (.app (.prim .tick) [.int n]) :=
      fun n => .app (.prim _) (List.forall_mem_singleton.mpr (.int n))
    refine .letIn (by decide) ?_ (.binary (.var _) (.var _))
    exact List.forall_mem_cons.mpr ⟨htick 2, List.forall_mem_singleton.mpr (htick 1)⟩
  obtain ⟨hto, hfrom⟩ := need_least_work true wasteful 9
  exact ⟨⟨by decide +kernel, by decide +kernel, by decide +kernel⟩,
    ⟨hname, hcmp, hto _ hname hcmp⟩, hvalue, hdist, hfrom _ hvalue hdist⟩

end CallBy
