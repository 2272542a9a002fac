import CallBy.Proofs.Mirror
import CallBy.Proofs.Simulation

/-!
Shared bindings: how they are made and computed.

A shared binding is computed once, and what it comes to is what computing its cell comes to whenever
nothing that is finished by then is being computed. This is why it can be kept.

* `Attempted`: what is known once an attempt at a cell has come to a value;
* `Mirrors.force`, `Mirrors.resolve`, `Mirrors.var`: the value of a variable, in terms of nested
  evaluations that mirror named ones;
* `Mirrors.bindVar`: in call by value a binding is computed before it is made, on the account of the
  cell that it will be; in call by need it is made, and computed if it is needed.
-/

namespace CallBy

namespace Named

theorem resolve_of_result {run : Env → Expr → Eval Value} {i : BindingId} {m : Machine} {v : Value}
    (h : (m.binding i).result? = some v) : Eval.resolve run i m = .ok v m := by
  unfold Eval.resolve
  cases hb : m.binding i with
  | undefined x => rw [hb] at h; cases h
  | value x v' => rw [hb] at h; cases h; rfl
  | name x e env => rw [hb] at h; cases h
  | need x memo =>
    rw [hb] at h
    cases memo with
    | pending e env => cases h
    | running e env => cases h
    | done v' => cases h; rfl

/-! ### Computing a cell -/

theorem Converges.map {α β : Type} {q : Nat → Except Stop α} {r : Except Stop α} (f : α → β)
    (h : Converges q r) : Converges (fun k => (q k).map f) (r.map f) := by
  obtain ⟨⟨n, hn⟩, hq⟩ := h
  refine ⟨⟨n, fun k hk => congrArg (Except.map f) (hn k hk)⟩, fun k => ?_⟩
  exact (hq k).imp (congrArg (Except.map f)) (congrArg (Except.map f))

theorem compute_eq (run : Context → Name → Scope → Expr → Course Val) (C : Context) (c : Cell)
    (own : Own) :
    compute run C c own = (run { C with under := c.name :: C.under }
      (.attempt c.name (C.stamp c.name)) c.home c.body {}).map
        fun p => (p.1, { own with reads := own.reads ++ [c] }) := by
  unfold compute
  split <;> next h => rw [h]; rfl

/-- Reading a cell that is not being computed computes it. -/
theorem read_cell (run : Context → Name → Scope → Expr → Course Val) {C : Context} (o : Name)
    {c : Cell} (h : c.name ∉ C.under) (own : Own) :
    read run C o (.cell c) own = (run { C with under := c.name :: C.under }
      (.attempt c.name (C.stamp c.name)) c.home c.body {}).map
        fun p => (p.1, { own with reads := own.reads ++ [c] }) := by
  rw [← compute_eq]
  exact congrFun (if_neg h) own

section Cells

variable {base : Machine} {d : Discipline} {S : Name → Nat} {w : Chart} {c : Cell} {u : Val}
  {own₁ : Own}

/-- A finished binding is read in all circumstances that agree with the chart. -/
theorem Computes.converges_read (h : Computes base d S w c u own₁) (hc : (c, own₁) ∈ w.finished)
    {C : Context} (hC : w.Agrees S C) (o : Name) (own : Own) :
    Converges (fun k => read (eval base d.recursiveLet k) C o (.cell c) own)
      (.ok (u, { own with reads := own.reads ++ [c] })) := by
  obtain ⟨hstamp, hunder⟩ := hC _ hc
  have hcomp := (h C hC).map fun p => (p.1, { own with reads := own.reads ++ [c] })
  rw [← hstamp] at hcomp
  simp only [read_cell _ o hunder]
  exact hcomp

/-- What an attempt comes to is what the cell is computed to. -/
theorem Ledger.computes {R : List Name} {m : Machine}
    (hl : Ledger S (c.name :: R) (.attempt c.name (S c.name)) w m own₁)
    (h : ∀ C, w.Agrees S C → Converges (fun k => eval base d.recursiveLet k C
      (.attempt c.name (S c.name)) c.home c.body {}) (.ok (u, own₁))) :
    Computes base d S w c u own₁ := by
  refine fun C hC => h _ fun q hq => ⟨(hC q hq).1, fun hmem => ?_⟩
  rcases List.mem_cons.mp hmem with heq | hmem
  · exact (hl.agrees q hq).2 (heq ▸ List.mem_cons_self)
  · exact (hC q hq).2 hmem

/-- The bill of a cell is put on the bill of the computation that needed it. -/
theorem Bill.finish {w₁ w' w'' : Chart} {m m₁ m' m'' : Machine} {own own'' : Own}
    {t rep : List String} {done : List (Cell × Own)} {rd reads : List Cell}
    (h : Bill base d S w₁ m₁ {} w' m' own₁ t done rep rd)
    (hcost : Costs base d.recursiveLet S c own₁) (hw : w₁.finished = w.finished)
    (hm : m₁.trace = m.trace) (htrace : m''.trace = m'.trace)
    (hfin : w''.finished = w'.finished ++ [(c, own₁)]) (hrep : own''.reports = own.reports)
    (hread : own''.reads = own.reads ++ reads)
    (hreads : reads = [c] ∨ reads = [] ∧ d.strategy ≠ .need) :
    Bill base d S w m own w'' m'' own'' t (done ++ [(c, own₁)]) [] reads := by
  have hrd : own₁.reads = rd := h.read
  have hrp : own₁.reports = rep := h.reported
  refine ⟨by rw [htrace, h.trace, hm], by rw [hfin, h.finished, hw, List.append_assoc],
    by simp [hrep], hread, ?_, fun c' hc' => ?_, fun hd q hq => ?_⟩
  · simp only [List.flatMap_append, List.flatMap_singleton, List.nil_append, hrp]
    exact h.perm.trans List.perm_append_comm
  · rcases hreads with rfl | ⟨rfl, -⟩
    · cases List.mem_singleton.mp hc'
      exact ⟨own₁, by simp [hfin]⟩
    · cases hc'
  · rcases hreads with rfl | ⟨-, hne⟩
    · rcases List.mem_append.mp hq with hq | hq
      · exact .of_reads hcost (hrd ▸ h.needed hd q hq)
      · cases List.mem_singleton.mp hq
        exact .read List.mem_cons_self
    · exact absurd hd hne

end Cells

/-! ### Attempts -/

section Attempt

variable (base : Machine) (d : Discipline) (S : Name → Nat)

/-- An attempt at the cell, which the computation `o` needed, has come to a value. -/
structure Attempted (o : Name) (w : Chart) (own : Own) (c : Cell) (v : Value) (u : Val) (w' : Chart)
    (own₁ : Own) : Prop where
  kept : Kept S o w w'
  current : w'.made o = some own.made
  computes : Computes base d S w' c u own₁
  fresh : ∀ q ∈ w'.finished, q.1.name ≠ c.name
  holds : ∀ {b : Binding}, b.result? = some v →
    Holds base d S (w'.finish c own₁) (some (.cell c)) b

end Attempt

section Attempt

variable {base : Machine} {d : Discipline} {S : Name → Nat} {R : List Name} {o : Name}
  {w w' : Chart} {m m₁ m' : Machine} {own own₁ : Own} {c : Cell} {v : Value} {u : Val}

theorem Onward.attempted
    (hon : Onward base d S (c.name :: R) (.attempt c.name (S c.name))
      (w.count (.attempt c.name (S c.name)) 0) m₁ {} w' m' own₁)
    (hl : Ledger S R o w m own) (hnone : w.made (.attempt c.name (S c.name)) = none)
    (hv : Stands d w' v u)
    (hconv : ∀ C, w'.Agrees S C → Converges (fun k => eval base d.recursiveLet k C
      (.attempt c.name (S c.name)) c.home c.body {}) (.ok (u, own₁))) :
    Attempted base d S o w own c v u w' own₁ := by
  have hle := Chart.le_finish w' c own₁
  have hcomp := hon.ledger.computes hconv
  have hne : o ≠ .attempt c.name (S c.name) := by
    rintro rfl
    exact hl.made_ne_none hnone
  refine ⟨Kept.attempt hnone hon.kept, hon.kept.counts hne ?_, hcomp, fun q hq heq => ?_,
    fun hb => ?_⟩
  · rw [Chart.made_count_of_ne w hne, hl.current]
  · exact (hon.ledger.agrees q hq).2 (heq ▸ List.mem_cons_self)
  · obtain ⟨t, done, rep, rd, hbill⟩ := hon.bill
    have hrd : own₁.reads = rd := hbill.read
    refine .finished hb (by simp [Chart.finish]) (hcomp.mono hle) (hv.mono hle) fun c' hc' => ?_
    exact (hbill.available c' (hrd ▸ hc')).mono hle

section Ledger

variable (h : Attempted base d S o w own c v u w' own₁) (hl : Ledger S R o w m own)
  (hl' : Ledger S (c.name :: R) (.attempt c.name (S c.name)) w' m' own₁) (hR : c.name ∉ R)
  {b : Binding} (hb : b.result? = some v)

include h hl hl' hR hb

/-- The binding of the cell is given its value. -/
theorem Attempted.ledger_forced {i : Nat} (hi : w'.entries[i]? = some (some (.cell c)))
    (hlt : i < m'.bindings.size) :
    Ledger S R o (w'.finish c own₁) (m'.setBinding i b)
      { own with reads := own.reads ++ [c] } := by
  refine hl.finish hl' h.kept h.current hR h.fresh (Chart.le_finish w' c own₁)
    (fun {j c'} hj => ?_) (fun hj hj' hc hc' => hl'.cells hj hj' (hc.trans hc'.symm)) ⟨i, hi⟩
    (fun hname => hl'.used (.inr ⟨i, c, hi, hname⟩)) rfl rfl (fun _ => rfl) h.current
    (Nat.le_refl _)
  by_cases hij : i = j
  · subst hij
    have hj : w'.entries[i]? = some (some (.cell c')) := hj
    rw [hi] at hj
    cases hj
    refine .inr ⟨rfl, ?_⟩
    rw [Machine.binding_setBinding_self m' _ hlt, hb]
    rfl
  · exact .inl ⟨fun heq => hij (hl'.cells hi hj heq.symm), hj,
      Machine.binding_setBinding_of_ne m' _ hij⟩

/-- A binding is made for the cell, with its value. -/
theorem Attempted.ledger_made (hname : c.name = .event o own.made)
    (hsize : m'.bindings.size = w'.entries.length) :
    Ledger S R o (((w'.finish c own₁).addEntry (some (.cell c))).count o (own.made + 1))
      (m'.addBinding b) { own with made := own.made + 1 } := by
  have hle : w' ≤ ((w'.finish c own₁).addEntry (some (.cell c))).count o (own.made + 1) :=
    Chart.le_trans (Chart.le_finish w' c own₁)
      (Chart.le_trans (Chart.le_addEntry _ _) (Chart.le_count _ _ _))
  have hnew : ∀ {j : Nat} {c' : Cell}, w'.entries[j]? = some (some (.cell c')) →
      c'.name ≠ c.name := by
    intro j c' hj heq
    obtain ⟨k, hk, hlt⟩ := hl'.used (.inr ⟨j, c', hj, heq.trans hname⟩)
    rw [h.current] at hk
    cases hk
    omega
  have hentry : ∀ j : Nat,
      (((w'.finish c own₁).addEntry (some (.cell c))).count o (own.made + 1)).entries[j]? =
        if j = w'.entries.length then some (some (.cell c)) else w'.entries[j]? :=
    Chart.entries_addEntry (w'.finish c own₁) _
  -- the cell is at the new address and nowhere else
  have hlast : ∀ {j : Nat} {c' : Cell},
      (((w'.finish c own₁).addEntry (some (.cell c))).count o (own.made + 1)).entries[j]? =
        some (some (.cell c')) → c'.name = c.name → j = w'.entries.length := by
    intro j c' hj hc
    rw [hentry] at hj
    split at hj
    · assumption
    · exact absurd hc (hnew hj)
  refine hl.finish hl' h.kept h.current hR h.fresh hle (fun {j c'} hj => ?_)
    (fun hj hj' hc hc' => by rw [hlast hj hc, hlast hj' hc']) ⟨w'.entries.length, ?_⟩
    (fun heq => ?_) rfl rfl (fun ha => Chart.made_count_of_ne _ ha _) (Chart.made_count_self _ _ _)
    (Nat.le_succ _)
  · rw [hentry] at hj
    rw [Machine.binding_addBinding, hsize]
    split at hj
    · next heq =>
      cases hj
      rw [if_pos heq, hb]
      exact .inr ⟨rfl, rfl⟩
    · next hne =>
      rw [if_neg hne]
      exact .inl ⟨hnew hj, hj, rfl⟩
  · rw [hentry, if_pos rfl]
  · rw [hname] at heq
    cases heq
    exact ⟨_, Chart.made_count_self _ _ _, Nat.lt_succ_self _⟩

end Ledger

end Attempt

namespace Mirrors

variable {base : Machine} {d : Discipline} {S : Name → Nat} {R : List Name} {o : Name} {n : Nat}
  {own : Own} {w : Chart}

section Parts

variable {run : Env → Expr → Eval Value}
  (hrun : ∀ {R : List Name} {o : Name} {own : Own} {w : Chart} {env : Env} {σ : Scope} {e : Expr},
    Stack w env σ → Fit d e → Mirrors base d S n R o own (fun w _ => Stands d w) w (run env e)
      fun C k => eval base d.recursiveLet k C o σ e)

/-! ### Variables -/

/-- An attempt at a pending binding begins. -/
theorem start_pending {m : Machine} {i : Nat} {c : Cell} {env : Env} (hm : Models base d S w m)
    (hl : Ledger S R o w m own) (hd : d.strategy = .need)
    (hi : w.entries[i]? = some (some (.cell c)))
    (hb : m.binding i = .need c.var (.pending c.body env)) (hs : Stack w env c.home) :
    c.name ∉ R ∧ Models base d S (w.count (.attempt c.name (S c.name)) 0)
      (m.setBinding i (.need c.var (.running c.body env))) ∧
    Ledger S (c.name :: R) (.attempt c.name (S c.name)) (w.count (.attempt c.name (S c.name)) 0)
      (m.setBinding i (.need c.var (.running c.body env))) {} := by
  have hle := Chart.le_count w (.attempt c.name (S c.name)) 0
  have hR : c.name ∉ R := by
    rw [← hl.running hi]
    rintro ⟨x, e, env', hrun⟩
    rw [hb] at hrun
    cases hrun
  refine ⟨hR, hm.setBinding hle rfl rfl rfl hi (.running hd (hs.mono hle)), ?_⟩
  refine hl.start (hl.pending hi _ _ _ hb) (.inl ⟨i, c, hi, rfl⟩) hR (fun q hq heq => ?_)
    fun {j c'} hj => ?_
  · have hres := hl.results hi q hq heq
    rw [hb] at hres
    cases hres
  · by_cases hij : i = j
    · subst hij
      rw [hi] at hj
      cases hj
      exact .inr ⟨rfl, c.var, c.body, env, Machine.binding_setBinding_self m _ (hm.lt_of_entry hi)⟩
    · exact .inl ⟨fun heq => hij (hl.cells hi hj heq.symm),
        Machine.binding_setBinding_of_ne m _ hij⟩

/-- An attempt at the binding of the next name begins, before there is such a binding. -/
theorem start_next {m : Machine} {c : Cell} (hm : Models base d S w m) (hl : Ledger S R o w m own)
    (hname : c.name = .event o own.made) :
    w.made (.attempt c.name (S c.name)) = none ∧ c.name ∉ R ∧
      Models base d S (w.count (.attempt c.name (S c.name)) 0) m ∧
      Ledger S (c.name :: R) (.attempt c.name (S c.name))
        (w.count (.attempt c.name (S c.name)) 0) m {} := by
  have hnone : w.made (.attempt c.name (S c.name)) = none := by
    rw [hname]
    exact hl.made_attempt_next _
  have hR : c.name ∉ R := by
    rw [hname]
    exact hl.not_mem_next
  refine ⟨hnone, hR, hm.congr rfl rfl rfl (Chart.le_count w _ 0) rfl rfl rfl, ?_⟩
  refine hl.start hnone (.inr hname) hR (fun q hq heq => ?_) fun {j c'} hj =>
    .inl ⟨fun heq => ?_, rfl⟩
  · obtain ⟨j, hj⟩ := hl.charted q hq
    exact hl.not_uses (.inr ⟨j, q.1, hj, heq.trans hname⟩)
  · exact hl.not_uses (.inr ⟨j, c', hj, heq.trans hname⟩)

include hrun

/-- **Forcing a pending binding** mirrors the computation of its cell. -/
theorem force {m : Machine} {i : Nat} {c : Cell} {env : Env} (hm : Models base d S w m)
    (hl : Ledger S R o w m own) (hd : d.strategy = .need)
    (hi : w.entries[i]? = some (some (.cell c)))
    (hb : m.binding i = .need c.var (.pending c.body env)) (hs : Stack w env c.home) :
    (∀ v m', Eval.force run i c.var c.body env m = .ok v m' → ∃ u own' w',
      Onward base d S R o w m own w' m' own' ∧ Stands d w' v u ∧ ∀ C, w'.Agrees S C →
        Converges (fun k => read (eval base d.recursiveLet k) C o (.cell c) own) (.ok (u, own'))) ∧
    ∀ s m', Eval.force run i c.var c.body env m = .error s m' →
      Stopped base d S n R o w own (fun C k => read (eval base d.recursiveLet k) C o (.cell c)) s
        m' := by
  have hle := Chart.le_count w (.attempt c.name (S c.name)) 0
  have hnone := hl.pending hi _ _ _ hb
  obtain ⟨hR, hm₁, hl₁⟩ := start_pending hm hl hd hi hb hs
  obtain ⟨hok, hstop⟩ := hrun (hs.mono hle) (fun hv => by rw [hd] at hv; cases hv) _ hm₁ hl₁
  cases hx : run env c.body (m.setBinding i (.need c.var (.running c.body env))) with
  | ok v m₂ =>
    obtain ⟨u, own₁, w₂, hon, hv, hconv⟩ := hok v m₂ hx
    obtain ⟨t, done, rep, rd, hbill⟩ := hon.bill
    rw [Eval.force_of_ok hx]
    refine ⟨fun v' m' h' => ?_, fun s m' h' => (nomatch h')⟩
    cases h'
    have hat := hon.attempted hl hnone hv hconv
    have hi₂ := Chart.entry_mono (Chart.le_trans hle hon.le) hi
    have hle₃ := Chart.le_finish w₂ c own₁
    refine ⟨u, { own with reads := own.reads ++ [c] }, w₂.finish c own₁,
      ⟨Chart.le_trans (Chart.le_trans hle hon.le) hle₃,
        hon.models.setBinding hle₃ rfl rfl rfl hi₂ (hat.holds rfl),
        hat.ledger_forced hl hon.ledger hR rfl hi₂ (hon.models.lt_of_entry hi₂),
        hat.kept.trans (.of_made rfl), t, done ++ [(c, own₁)], [], [c],
        hbill.finish hat.computes.costs rfl rfl rfl rfl rfl rfl (.inl rfl)⟩,
      hv.mono hle₃, fun C hC => ?_⟩
    exact (hat.computes.mono hle₃).converges_read (by simp [Chart.finish]) hC o own
  | error s m₂ =>
    obtain ⟨herr, hdeep, w₂, hle₂, hm₂, hbooks, hkept⟩ := hstop hd s m₂ hx
    rw [Eval.force_of_error hx]
    refine ⟨fun v' m' h' => (nomatch h'), fun s' m' h' => ?_⟩
    cases h'
    have hi₂ := Chart.entry_mono (Chart.le_trans hle hle₂) hi
    refine ⟨fun e he => ?_, fun hs => ?_, w₂, Chart.le_trans hle hle₂, ?_, ?_,
      Kept.attempt hnone hkept⟩
    · obtain ⟨e', hee, hc⟩ := herr e he
      refine ⟨e', hee, ?_⟩
      simp only [read_cell _ o (C := ⟨S, R⟩) hR]
      exact hc.map _
    · simp only [read_cell _ o (C := ⟨S, R⟩) hR]
      exact congrArg (Except.map _) (hdeep hs)
    · exact hm₂.setBinding (Chart.le_refl w₂) rfl rfl rfl hi₂
        (.pending hd (hs.mono (Chart.le_trans hle hle₂)))
    · exact hbooks.reset hR hi₂ (hm₂.lt_of_entry hi₂)

/-- Resolving a binding mirrors reading what it is. -/
theorem resolve {i : Nat} {t : Entry} (hi : w.entries[i]? = some (some t)) :
    Mirrors base d S n R o own (fun w _ => Stands d w) w (Eval.resolve run i)
      fun C k => read (eval base d.recursiveLet k) C o t := by
  intro m hm hl
  generalize hb : m.binding i = b
  have hholds := hm.cells hi
  rw [hb] at hholds
  cases hholds with
  | undefined x =>
    have hres : Eval.resolve run i m = (Eval.fail (.undefined x) : Eval Value) m := by
      simp only [Eval.resolve, hb]
    rw [hres]
    exact fail rfl m hm hl
  | given hv hs =>
    rw [resolve_of_result (hb ▸ hv)]
    exact ret (P := fun w _ => Stands d w) hs m hm hl
  | @anew x e env hs he =>
    have hres : Eval.resolve run i m = run env e m := by simp only [Eval.resolve, hb]
    rw [hres]
    exact hrun hs he m hm hl
  | @pending c env hd hs =>
    have hres : Eval.resolve run i m = Eval.force run i c.var c.body env m := by
      simp only [Eval.resolve, hb]
    rw [hres]
    obtain ⟨hok, hstop⟩ := force hrun hm hl hd hi hb hs
    exact ⟨hok, fun _ => hstop⟩
  | @running c env hd hs =>
    have hres : Eval.resolve run i m =
        (Eval.fail (.selfReference c.var c.body) : Eval Value) m := by
      simp only [Eval.resolve, hb]
    rw [hres]
    refine ⟨fun v m' h' => (nomatch h'), fun _ s m' h' => ?_⟩
    cases h'
    have hmem : c.name ∈ R := (hl.running hi).mp ⟨_, _, _, hb⟩
    refine ⟨fun e he => ?_, fun hs => (nomatch hs), w, Chart.le_refl w, hm, hl.toBooks,
      .of_made rfl⟩
    cases he
    refine ⟨_, rfl, ?_⟩
    simp only [read, if_pos hmem]
    exact .const _
  | @finished c _ v u own₁ hv hc hcomp hs hreads =>
    rw [resolve_of_result (hb ▸ hv)]
    refine ⟨fun v' m' h' => ?_, fun _ s m' h' => (nomatch h')⟩
    cases h'
    refine ⟨u, { own with reads := own.reads ++ [c] }, w, ⟨Chart.le_refl w, hm, ?_, .of_made rfl,
      [], [], [], [c], ?_⟩, hs, fun C hC => hcomp.converges_read hc hC o own⟩
    · exact hl.same (Chart.le_refl w) (fun hi => ⟨hi, rfl⟩) rfl rfl rfl rfl
    · refine ⟨by simp, by simp, by simp, rfl, .refl _, fun c' hc' => ?_, fun _ => nofun⟩
      rw [List.mem_singleton.mp hc']
      exact ⟨own₁, hc⟩

/-- Evaluating a variable. A placeholder stands for it only in call by value, which fails then. -/
theorem var {env : Env} {σ : Scope} (x : String) (hs : Stack w env σ) :
    Mirrors base d S n R o own (fun w _ => Stands d w) w (Eval.lookup env x >>= Eval.resolve run)
      fun C k => ofVar base (eval base d.recursiveLet k) C o σ x := by
  intro m hm hl
  have hslot := hm.lookup hs x
  unfold ofVar
  cases ht : σ.lookup? base x with
  | none =>
    rw [ht] at hslot
    rw [Eval.lookup_bind_of_none hslot]
    exact fail rfl m hm hl
  | some t =>
    rw [ht] at hslot
    obtain ⟨i, hi, hit | ⟨hd, hit⟩⟩ := hslot
    · rw [Eval.lookup_bind_of_some hi]
      exact resolve hrun hit m hm hl
    · rw [Eval.lookup_bind_of_some hi]
      generalize hb : m.binding i = b
      have hholds := hm.cells hit
      rw [hb] at hholds
      cases hholds with
      | reserved y =>
        have hres : Eval.resolve run i m = (Eval.fail (.undefined y) : Eval Value) m := by
          simp only [Eval.resolve, hb]
        rw [hres]
        exact ⟨fun v m' h' => (nomatch h'), fun hneed => by rw [hd] at hneed; cases hneed⟩

/-! ### Bindings -/

/-- In call by value a binding is computed before it is made, on the account of its cell. -/
theorem bindVar_value (hd : d.strategy = .value) {env : Env} {σ : Scope} (x : String) {e : Expr}
    (hs : Stack w env σ) (he : Fit d e) :
    Mirrors base d S n R o own (fun w' own' i k => k = own.made ∧ own'.made = own.made + 1 ∧
        w'.entries[i]? = some (some (.cell ⟨.event o k, x, e, σ⟩))) w (Eval.bindVar d run env x e)
      fun _ _ => Course.make 1 := by
  intro m hm hl
  have hbind : Eval.bindVar d run env x e =
      (run env e >>= fun v => Eval.newBinding (.value x v)) := by simp only [Eval.bindVar, hd]
  have hneed : d.strategy ≠ .need := by
    rw [hd]
    exact nofun
  rw [hbind]
  refine ⟨fun i m' h' => ?_, fun h => absurd h hneed⟩
  obtain ⟨c, hc⟩ : ∃ c : Cell, c = ⟨.event o own.made, x, e, σ⟩ := ⟨_, rfl⟩
  have hname : c.name = .event o own.made := by rw [hc]
  have hle := Chart.le_count w (.attempt c.name (S c.name)) 0
  obtain ⟨hnone, hR, hm₁, hl₁⟩ := start_next hm hl hname
  cases hx : run env e m with
  | error s m₂ =>
    rw [Eval.bind_of_error hx] at h'
    cases h'
  | ok v m₂ =>
    rw [Eval.bind_of_ok hx] at h'
    cases h'
    obtain ⟨hok, -⟩ := hrun (o := .attempt c.name (S c.name)) (hs.mono hle) he m hm₁ hl₁
    obtain ⟨u, own₁, w₂, hon, hv, hconv⟩ := hok v m₂ hx
    obtain ⟨t, done, rep, rd, hbill⟩ := hon.bill
    have hat : Attempted base d S o w own c v u w₂ own₁ := by
      refine hon.attempted hl hnone hv fun C hC => ?_
      rw [show c.home = σ by rw [hc], show c.body = e by rw [hc]]
      exact hconv C hC
    have hle₃ := Chart.le_finish w₂ c own₁
    have hle₄ := Chart.le_addEntry (w₂.finish c own₁) (some (.cell c))
    have hle₅ := Chart.le_count ((w₂.finish c own₁).addEntry (some (.cell c))) o (own.made + 1)
    refine ⟨own.made, { own with made := own.made + 1 },
      ((w₂.finish c own₁).addEntry (some (.cell c))).count o (own.made + 1),
      ⟨Chart.le_trans (Chart.le_trans hle hon.le) (Chart.le_trans hle₃ (Chart.le_trans hle₄ hle₅)),
        ?_, hat.ledger_made hl hon.ledger hR rfl hname hon.models.bindings, ?_, t,
        done ++ [(c, own₁)], [], [],
        hbill.finish hat.computes.costs rfl rfl rfl rfl rfl (by simp) (.inr ⟨rfl, hneed⟩)⟩,
      ⟨rfl, rfl, hc ▸ ?_⟩, fun _ _ => .const _⟩
    · have hm₃ : Models base d S (w₂.finish c own₁) m₂ :=
        hon.models.congr rfl rfl rfl hle₃ rfl rfl rfl
      exact (hm₃.addEntry (hat.holds rfl)).congr rfl rfl rfl hle₅ rfl rfl rfl
    · refine hat.kept.trans (Kept.count (k := own.made + 1) ?_ rfl)
      rw [hat.current]
      exact nofun
    · exact (Chart.entries_addEntry (w₂.finish c own₁) _ _).trans (if_pos hon.models.bindings)

variable (hd : d.strategy ≠ .name)

include hd

/-- Binding a variable makes its cell. -/
theorem bindVar {env : Env} {σ : Scope} (x : String) {e : Expr} (hs : Stack w env σ)
    (he : Fit d e) :
    Mirrors base d S n R o own (fun w' own' i k => k = own.made ∧ own'.made = own.made + 1 ∧
        w'.entries[i]? = some (some (.cell ⟨.event o k, x, e, σ⟩))) w (Eval.bindVar d run env x e)
      fun _ _ => Course.make 1 := by
  cases hst : d.strategy with
  | value => exact bindVar_value hrun hst x hs he
  | name => exact absurd hst hd
  | need =>
    refine silent fun m hm hl => ?_
    have hq := Quiet.addPending hm hl hst hs x e
    refine ⟨m.bindings.size, m.addBinding (.need x (.pending e env)), own.made, _, _, ?_, hq.onward,
      ⟨rfl, rfl, ?_⟩, fun _ _ => .const _⟩
    · simp only [Eval.bindVar, hst]
      rfl
    · exact (Chart.entries_addEntry w _ _).trans (if_pos hm.bindings)

end Parts

end Mirrors

end Named

end CallBy
