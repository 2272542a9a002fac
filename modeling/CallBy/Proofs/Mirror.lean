import CallBy.Proofs.Ledger
import CallBy.Proofs.Operations

/-!
Runs on the machine mirror named evaluation.

`Mirrors` relates a computation on the machine, under call by value or call by need, to a named one.
If the first ends with a value, then so does the second, in all circumstances that agree with what
is finished by then; in call by need also the errors are the same, self-references included, and
where the first hits the bound on nested evaluations so does the second.

* `Reach`: the shared bindings that a computation needs, at first or second hand;
* `Bill`: the reports of the run are those of the computations that it has carried out;
* `Onward`, `Quiet`: the run goes on, and goes on without computing anything;
* `Mirrors.bind` and a rule for everything that an evaluation does with values.
-/

namespace CallBy

namespace Named

/-! ### Operations on values -/

section Operations

variable {d : Discipline} {w : Chart}

theorem Val.bare_bare (u : Val) : u.bare.bare = u.bare := by
  induction u with
  | cons a r iha ihr => simp only [Val.bare, Value.bare, iha, ihr]
  | _ => rfl

theorem Stands.bare_eq {v : Value} {u : Val} (h : Stands d w v u) : v.bare = u.bare := by
  induction h with
  | cons _ _ iha ihr => simp only [Value.bare, Val.bare, iha, ihr]
  | _ => rfl

theorem Stands.bare_eq_bare {v : Value} {u : Val} (h : Stands d w v u) : v.bare = u.bare.bare :=
  h.bare_eq.trans (Val.bare_bare u).symm

/-- Complaints about a value and about what it stands for are the same. -/
theorem Stands.sameError {v : Value} {u : Val} (h : Stands d w v u) (complaint : Value → EvalError)
    (hb : ∀ v, (complaint v).bare = complaint v.bare)
    (hk : (complaint v).kind ≠ .selfReference) : SameError (complaint v) (complaint u.bare) :=
  sameError_of_bare h.bare_eq_bare complaint hb hk

theorem stands_ofValue {v : Value} (hv : v.hasClosure = false) : Stands d w v (Val.ofValue v) := by
  induction v with
  | int n => exact .int n
  | bool b => exact .bool b
  | empty => exact .empty
  | cons a r iha ihr =>
    simp only [Value.hasClosure, Bool.or_eq_false_iff] at hv
    exact .cons (iha hv.1) (ihr hv.2)
  | closure i ps b env => cases hv
  | prim p => exact .prim p

theorem results_ofValue {x y : Except EvalError Value} (h : Results OneValue x y) :
    Results (Stands d w) x (y.map Val.ofValue) :=
  h.map_right fun _ _ hv => hv.1 ▸ stands_ofValue hv.2

/-- Closures are the same if and only if their names are. -/
theorem Stands.same_eq (hn : w.closures.Nodup) {a b : Value} {a' b' : Val} (ha : Stands d w a a')
    (hb : Stands d w b b') : a.same b = a'.same b' := by
  induction ha generalizing b b' with
  | cons _ _ iha ihr =>
    cases hb with
    | cons hb hs => simp only [Value.same, Val.same, iha hb, ihr hs]
    | _ => rfl
  | @closure i n ps c env σ hi _ _ =>
    cases hb with
    | @closure j n' ps' c' env' σ' hj _ _ =>
      have hiff : i = j ↔ n = n' := by
        constructor
        · rintro rfl
          rw [hi] at hj
          exact Option.some.inj hj
        · rintro rfl
          exact (List.getElem?_inj (List.getElem?_eq_some_iff.mp hi).1 hn).mp (hi.trans hj.symm)
      by_cases hij : i = j
      · simp [Value.same, Val.same, hij, hiff.mp hij]
      · have hne : n ≠ n' := fun h => hij (hiff.mpr h)
        simp [Value.same, Val.same, hij, hne]
    | _ => rfl
  | _ => cases hb <;> rfl

theorem applyBinary_eq_map {op : String} (a b : Val)
    (h : ∀ o, BinaryOp.ofSymbol? op = some o → o ≠ .eq ∧ o ≠ .ne) :
    applyBinary op a b = (CallBy.applyBinary op a.bare b.bare).map Val.ofValue := by
  unfold applyBinary
  split
  · next hop => exact absurd rfl (h _ hop).1
  · next hop => exact absurd rfl (h _ hop).2
  · rfl

theorem results_applyBinary (hn : w.closures.Nodup) {a b : Value} {a' b' : Val}
    (ha : Stands d w a a') (hb : Stands d w b b') (op : String) :
    Results (Stands d w) (CallBy.applyBinary op a b) (applyBinary op a' b') := by
  have hsame := ha.same_eq hn hb
  by_cases hcmp : ∃ o, BinaryOp.ofSymbol? op = some o ∧ (o = .eq ∨ o = .ne)
  · obtain ⟨o, ho, hcmp⟩ := hcmp
    unfold CallBy.applyBinary applyBinary
    rw [ho]
    rcases hcmp with rfl | rfl
    · exact hsame ▸ Stands.bool _
    · exact hsame ▸ Stands.bool _
  · have hne : ∀ o, BinaryOp.ofSymbol? op = some o → o ≠ .eq ∧ o ≠ .ne :=
      fun o ho => ⟨fun h => hcmp ⟨o, ho, .inl h⟩, fun h => hcmp ⟨o, ho, .inr h⟩⟩
    rw [applyBinary_eq_map a' b' hne]
    refine results_ofValue ?_
    unfold CallBy.applyBinary
    cases ho : BinaryOp.ofSymbol? op with
    | none => exact ⟨rfl, nofun⟩
    | some o =>
      refine results_apply ha.bare_eq_bare hb.bare_eq_bare o fun h => ?_
      exact h.elim (fun h => absurd h (hne o ho).1) fun h => absurd h (hne o ho).2

theorem Stands.results_call_one {v : Value} {u : Val} (h : Stands d w v u) {p : Prim}
    (hp : p ≠ .tick) : Results (Stands d w) (p.call [v]) (call p [u]) := by
  cases p with
  | tick => exact absurd rfl hp
  | cons => exact ⟨rfl, nofun⟩
  | arity =>
    have he := h.sameError .arityOf (fun _ => rfl) nofun
    cases h <;> first | exact he | exact .int _
  | first =>
    have he := h.sameError .firstOf (fun _ => rfl) nofun
    cases h <;> first | exact he | assumption
  | rest =>
    have he := h.sameError .restOf (fun _ => rfl) nofun
    cases h <;> first | exact he | assumption
  | _ => cases h <;> exact .bool _

theorem Stands.results_cons {a b : Value} {a' b' : Val} (ha : Stands d w a a')
    (hb : Stands d w b b') :
    Results (Stands d w) (Prim.call .cons [a, b]) (call .cons [a', b']) := by
  have he := hb.sameError .consOnto (fun _ => rfl) nofun
  have hp := Stands.cons ha hb
  cases hb <;> first | exact he | exact hp

/-- **A primitive does the same to values and to what they stand for**, but for the tick. -/
theorem results_call {vs : List Value} {us : List Val} (h : List.Forall₂ (Stands d w) vs us)
    {p : Prim} (hp : ∀ v, ¬ (p = .tick ∧ vs = [v])) :
    Results (Stands d w) (p.call vs) (call p us) := by
  by_cases hlen : vs.length = p.argCount
  · match h with
    | .nil => cases p <;> cases hlen
    | .cons hv .nil => exact hv.results_call_one fun ht => hp _ ⟨ht, rfl⟩
    | .cons ha (.cons hb .nil) =>
      cases p with
      | cons => exact ha.results_cons hb
      | _ => cases hlen
    | .cons _ (.cons _ (.cons _ _)) => cases p <;> cases hlen
  · have hlen' : (us.map Val.bare).length ≠ p.argCount := by
      rw [List.length_map, ← h.length_eq]
      exact hlen
    have hcall : call p us = (p.call (us.map Val.bare)).map Val.ofValue := by
      have hus : us.length ≠ p.argCount := by simpa using hlen'
      unfold call
      split <;> first | rfl | exact absurd rfl hus
    rw [hcall, call_of_length_ne hlen, call_of_length_ne hlen', List.length_map, h.length_eq]
    exact ⟨rfl, nofun⟩

end Operations

/-! ### The bill of a run -/

section Bill

variable (base : Machine) (recursiveLet : Bool) (S : Name → Nat)

/-- What computing the shared binding takes while nothing else is being computed. -/
def Costs (c : Cell) (own : Own) : Prop :=
  ∃ u, Converges (fun k => eval base recursiveLet k ⟨S, [c.name]⟩ (.attempt c.name (S c.name))
    c.home c.body {}) (.ok (u, own))

/-- The shared bindings that are needed if the given ones are read. -/
inductive Reach (rs : List Cell) : Cell → Prop
  | read {c : Cell} : c ∈ rs → Reach rs c
  | through {c c' : Cell} {own : Own} : Reach rs c → Costs base recursiveLet S c own →
      c' ∈ own.reads → Reach rs c'

end Bill

section Bill

variable (base : Machine) (d : Discipline) (S : Name → Nat)

/-- **The reports of a run** are those of the computation at work and of the shared bindings that
have been computed in the run. In call by need these are needed for what has been read. -/
structure Bill (w : Chart) (m : Machine) (own : Own) (w' : Chart) (m' : Machine) (own' : Own)
    (t : List String) (done : List (Cell × Own)) (reports : List String) (reads : List Cell) :
    Prop where
  trace : m'.trace.toList = m.trace.toList ++ t
  finished : w'.finished = w.finished ++ done
  reported : own'.reports = own.reports ++ reports
  read : own'.reads = own.reads ++ reads
  perm : t.Perm (reports ++ done.flatMap (·.2.reports))
  available : ∀ c ∈ reads, w'.Finished c
  needed : d.strategy = .need → ∀ q ∈ done, Reach base d.recursiveLet S reads q.1

end Bill

section Bill

variable {base : Machine} {d : Discipline} {S : Name → Nat}

theorem Reach.mono {r : Bool} {rs rs' : List Cell} (h : rs ⊆ rs') {c : Cell}
    (hc : Reach base r S rs c) : Reach base r S rs' c := by
  induction hc with
  | read hmem => exact .read (h hmem)
  | through _ hcost hmem ih => exact .through ih hcost hmem

/-- What is needed for the reads of a shared binding is needed for the binding. -/
theorem Reach.of_reads {r : Bool} {c c' : Cell} {own : Own} (hcost : Costs base r S c own)
    (hc : Reach base r S own.reads c') : Reach base r S [c] c' := by
  induction hc with
  | read hmem => exact .through (.read List.mem_cons_self) hcost hmem
  | through _ hcost' hmem ih => exact .through ih hcost' hmem

theorem Computes.costs {w : Chart} {c : Cell} {u : Val} {own : Own}
    (h : Computes base d S w c u own) : Costs base d.recursiveLet S c own :=
  ⟨u, h ⟨S, []⟩ fun _ _ => ⟨rfl, nofun⟩⟩

variable {w w' w'' : Chart} {m m' m'' : Machine} {own own' own'' : Own}

theorem Bill.silent (ht : m'.trace = m.trace) (hf : w'.finished = w.finished)
    (hrep : own'.reports = own.reports) (hread : own'.reads = own.reads) :
    Bill base d S w m own w' m' own' [] [] [] [] :=
  ⟨by simp [ht], by simp [hf], by simp [hrep], by simp [hread], .refl _, nofun, fun _ => nofun⟩

theorem Bill.trans {t t' : List String} {done done' : List (Cell × Own)} {rep rep' : List String}
    {rd rd' : List Cell} (hw : w' ≤ w'') (h : Bill base d S w m own w' m' own' t done rep rd)
    (h' : Bill base d S w' m' own' w'' m'' own'' t' done' rep' rd') :
    Bill base d S w m own w'' m'' own'' (t ++ t') (done ++ done') (rep ++ rep') (rd ++ rd') := by
  refine ⟨?_, ?_, ?_, ?_, ?_, fun c hc => ?_, fun hd q hq => ?_⟩
  · rw [h'.trace, h.trace, List.append_assoc]
  · rw [h'.finished, h.finished, List.append_assoc]
  · rw [h'.reported, h.reported, List.append_assoc]
  · rw [h'.read, h.read, List.append_assoc]
  · rw [List.flatMap_append]
    refine (h.perm.append h'.perm).trans ?_
    simp only [List.append_assoc]
    refine List.Perm.append_left rep ?_
    simp only [← List.append_assoc]
    exact List.Perm.append_right _ List.perm_append_comm
  · rcases List.mem_append.mp hc with hc | hc
    · exact (h.available c hc).mono hw
    · exact h'.available c hc
  · rcases List.mem_append.mp hq with hq | hq
    · exact (h.needed hd q hq).mono (List.subset_append_left _ _)
    · exact (h'.needed hd q hq).mono (List.subset_append_right _ _)

end Bill

/-! ### Mirroring -/

section Mirrors

variable (base : Machine) (d : Discipline) (S : Name → Nat)

/-- The run has gone on well, to another chart and machine. -/
structure Onward (R : List Name) (o : Name) (w : Chart) (m : Machine) (own : Own) (w' : Chart)
    (m' : Machine) (own' : Own) : Prop where
  le : w ≤ w'
  models : Models base d S w' m'
  ledger : Ledger S R o w' m' own'
  kept : Kept S o w w'
  bill : ∃ t done reports reads, Bill base d S w m own w' m' own' t done reports reads

/-- The run has stopped: the named computation stops for the same reason, and the machine that is
left is still as a chart says. -/
structure Stopped {β : Type} (n : Nat) (R : List Name) (o : Name) (w : Chart) (own : Own)
    (p : Context → Nat → Course β) (s : Stop) (m' : Machine) : Prop where
  error : ∀ e, s = .error e → ∃ e' : EvalError, e.bare = e'.bare ∧
    Converges (fun k => p ⟨S, R⟩ k own) (.error (.error e'))
  deep : s = .tooDeep → p ⟨S, R⟩ n own = .error .tooDeep
  left : ∃ w', w ≤ w' ∧ Models base d S w' m' ∧ Books R w' m' ∧ Kept S o w w'

/-- **The computation on the machine mirrors the named one**, on the account of the computation `o`
which has done `own` so far, while the bindings `R` are being computed. The bound on nested
evaluations of the first is `n`. -/
def Mirrors (n : Nat) (R : List Name) (o : Name) (own : Own) {α β : Type}
    (P : Chart → Own → α → β → Prop) (w : Chart) (x : Eval α) (p : Context → Nat → Course β) :
    Prop :=
  ∀ m, Models base d S w m → Ledger S R o w m own →
    (∀ a m', x m = .ok a m' → ∃ b own' w', Onward base d S R o w m own w' m' own' ∧ P w' own' a b ∧
      ∀ C, w'.Agrees S C → Converges (fun k => p C k own) (.ok (b, own'))) ∧
    (d.strategy = .need → ∀ s m', x m = .error s m' → Stopped base d S n R o w own p s m')

end Mirrors

section Onward

variable {base : Machine} {d : Discipline} {S : Name → Nat} {R : List Name} {o : Name}

theorem Onward.refl {w : Chart} {m : Machine} {own : Own} (hm : Models base d S w m)
    (hl : Ledger S R o w m own) : Onward base d S R o w m own w m own :=
  ⟨Chart.le_refl w, hm, hl, .of_made rfl, _, _, _, _, .silent rfl rfl rfl rfl⟩

theorem Onward.trans {w w' w'' : Chart} {m m' m'' : Machine} {own own' own'' : Own}
    (h : Onward base d S R o w m own w' m' own')
    (h' : Onward base d S R o w' m' own' w'' m'' own'') :
    Onward base d S R o w m own w'' m'' own'' := by
  obtain ⟨t, done, rep, rd, hb⟩ := h.bill
  obtain ⟨t', done', rep', rd', hb'⟩ := h'.bill
  exact ⟨Chart.le_trans h.le h'.le, h'.models, h'.ledger, h.kept.trans h'.kept, _, _, _, _,
    hb.trans h'.le hb'⟩

end Onward

/-! ### Steps without a computation -/

section Quiet

variable (but : FrameId → Prop) (base : Machine) (d : Discipline) (S : Name → Nat)

/-- The run has gone on without a report and without computing anything; the slots of some frames
may be in the making. -/
structure Quiet (R : List Name) (o : Name) (w : Chart) (m : Machine) (own : Own) (w' : Chart)
    (m' : Machine) (own' : Own) : Prop where
  le : w ≤ w'
  models : ModelsBut but base d S w' m'
  ledger : Ledger S R o w' m' own'
  kept : Kept S o w w'
  trace : m'.trace = m.trace
  finished : w'.finished = w.finished
  reported : own'.reports = own.reports
  read : own'.reads = own.reads

end Quiet

namespace Quiet

variable {but : FrameId → Prop} {base : Machine} {d : Discipline} {S : Name → Nat} {R : List Name}
  {o : Name} {w w' w'' : Chart} {m m' m'' : Machine} {own own' own'' : Own}

theorem refl (hm : ModelsBut but base d S w m) (hl : Ledger S R o w m own) :
    Quiet but base d S R o w m own w m own :=
  ⟨Chart.le_refl w, hm, hl, .of_made rfl, rfl, rfl, rfl, rfl⟩

theorem trans (h : Quiet but base d S R o w m own w' m' own')
    (h' : Quiet but base d S R o w' m' own' w'' m'' own'') :
    Quiet but base d S R o w m own w'' m'' own'' :=
  ⟨Chart.le_trans h.le h'.le, h'.models, h'.ledger, h.kept.trans h'.kept, h'.trace.trans h.trace,
    h'.finished.trans h.finished, h'.reported.trans h.reported, h'.read.trans h.read⟩

theorem onward (h : Quiet (fun _ => False) base d S R o w m own w' m' own') :
    Onward base d S R o w m own w' m' own' :=
  ⟨h.le, h.models, h.ledger, h.kept, _, _, _, _, .silent h.trace h.finished h.reported h.read⟩

variable (hm : ModelsBut but base d S w m) (hl : Ledger S R o w m own)

include hm hl

/-- A placeholder is made. -/
theorem addReserved (x : String) :
    Quiet but base d S R o w m own (w.addEntry none) (m.addBinding (.undefined x)) own := by
  have hle := Chart.le_addEntry w none
  refine ⟨hle, hm.addEntry (.reserved x), ?_, .of_made rfl, rfl, rfl, rfl, rfl⟩
  refine hl.same hle (fun {i c} hi => ?_) rfl rfl rfl rfl
  rw [Chart.entries_addEntry, ← hm.bindings] at hi
  split at hi
  · cases hi
  · next hne => exact ⟨hi, by rw [Machine.binding_addBinding, if_neg hne]⟩

/-- A binding with the next name is made, and not computed yet. -/
theorem addPending (hd : d.strategy = .need) {env : Env} {σ : Scope} (hs : Stack w env σ)
    (x : String) (e : Expr) :
    Quiet but base d S R o w m own
      ((w.addEntry (some (.cell ⟨.event o own.made, x, e, σ⟩))).count o (own.made + 1))
      (m.addBinding (.need x (.pending e env))) { own with made := own.made + 1 } := by
  have hle := Chart.le_trans (Chart.le_addEntry w (some (.cell ⟨.event o own.made, x, e, σ⟩)))
    (Chart.le_count _ o (own.made + 1))
  have hholds : Holds base d S w (some (.cell ⟨.event o own.made, x, e, σ⟩))
      (.need x (.pending e env)) :=
    Holds.pending (c := ⟨.event o own.made, x, e, σ⟩) hd hs
  refine ⟨hle, (hm.addEntry hholds).congr rfl rfl rfl (Chart.le_count _ o _) rfl rfl rfl, ?_,
    Kept.count hl.made_ne_none rfl, rfl, rfl, rfl, rfl⟩
  refine hl.next hle (fun {i c} hi => ?_) (.inl rfl) rfl rfl rfl
  have hi : (w.addEntry _).entries[i]? = _ := hi
  rw [Chart.entries_addEntry] at hi
  rw [Machine.binding_addBinding, hm.bindings]
  split at hi
  · next heq =>
    cases hi
    refine .inr ⟨heq, rfl, ?_⟩
    rintro ⟨y, e', env', hrun⟩
    rw [Machine.binding_addBinding, hm.bindings, if_pos heq] at hrun
    cases hrun
  · next hne => exact .inl ⟨hi, by rw [if_neg hne]⟩

/-- A slot is pointed to an entry. -/
theorem setSlot {f : FrameId} {σ : Scope} (hf : w.scopes[f]? = some σ) {x : String} {i : BindingId}
    (hi : ¬ but f → ∃ t, σ.own? base x = some t ∧ w.entries[i]? = some (some t)) :
    Quiet but base d S R o w m own w (m.setSlot f x i) own :=
  ⟨Chart.le_refl w, hm.setSlot hf hi,
    hl.same (Chart.le_refl w) (fun hi => ⟨hi, rfl⟩) rfl rfl rfl rfl, .of_made rfl, rfl, rfl, rfl,
    rfl⟩

/-- A frame is made. -/
theorem addFrame {F : Frame} {σ : Scope}
    (hF : ¬ but m.frames.size → ∀ x, Slot d w (σ.own? base x) (F.get? x)) :
    Quiet but base d S R o w m own (w.addScope σ) (m.addFrame F) own :=
  ⟨Chart.le_addScope w σ, hm.addScope hF,
    hl.same (Chart.le_addScope w σ) (fun hi => ⟨hi, rfl⟩) rfl rfl rfl rfl, .of_made rfl, rfl, rfl,
    rfl, rfl⟩

/-- A closure with the next name is made. -/
theorem addClosure :
    Quiet but base d S R o w m own
      ((w.addClosure (.event o own.made)).count o (own.made + 1))
      { m with closures := m.closures + 1 } { own with made := own.made + 1 } := by
  have hcount := Chart.le_count (w.addClosure (.event o own.made)) o (own.made + 1)
  have hle := Chart.le_trans (Chart.le_addClosure w (.event o own.made)) hcount
  exact ⟨hle, (hm.addClosure _).congr rfl rfl rfl hcount rfl rfl rfl,
    hl.next hle (fun hi => .inl ⟨hi, rfl⟩) (.inr rfl) rfl rfl rfl, Kept.count hl.made_ne_none rfl,
    rfl, rfl, rfl, rfl⟩

/-- Reserving makes one placeholder for every definition. -/
theorem reserve (ds : List (String × Expr)) :
    ∃ slots m' w', Eval.reserve ds m = .ok slots m' ∧ Quiet but base d S R o w m own w' m' own ∧
      m'.frames = m.frames ∧ w'.scopes = w.scopes ∧ slots.map (·.1) = ds.map (·.1) ∧
      ∀ s ∈ slots, w'.entries[s.2]? = some none := by
  induction ds generalizing w m with
  | nil => exact ⟨[], m, w, rfl, .refl hm hl, rfl, rfl, rfl, nofun⟩
  | cons p ds ih =>
    obtain ⟨x, e⟩ := p
    have hq := addReserved hm hl x
    obtain ⟨slots, m', w', hrun, hq', hfr, hsc, hnames, hslots⟩ := ih hq.models hq.ledger
    refine ⟨(x, m.bindings.size) :: slots, m', w', ?_, hq.trans hq', hfr, hsc, ?_, ?_⟩
    · simp only [Eval.reserve, Eval.newBinding, Bind.bind, EStateM.bind, hrun]
      rfl
    · simp [hnames]
    · refine List.forall_mem_cons.mpr ⟨?_, hslots⟩
      refine Chart.entry_mono hq'.le ?_
      rw [Chart.entries_addEntry, if_pos hm.bindings]

end Quiet

/-! ### Rules -/

section Rules

variable {base : Machine} {d : Discipline} {S : Name → Nat} {R : List Name} {o : Name}

namespace Mirrors

variable {n : Nat} {own : Own} {α β α' β' : Type} {w : Chart} {P : Chart → Own → α → β → Prop}
  {P' : Chart → Own → α' → β' → Prop}

/-- A computation that comes to a result whatever the bound. -/
theorem silent {x : Eval α} {p : Context → Nat → Course β}
    (h : ∀ m, Models base d S w m → Ledger S R o w m own → ∃ a m' b own' w', x m = .ok a m' ∧
      Onward base d S R o w m own w' m' own' ∧ P w' own' a b ∧
      ∀ C, w'.Agrees S C → Converges (fun k => p C k own) (.ok (b, own'))) :
    Mirrors base d S n R o own P w x p := by
  intro m hm hl
  obtain ⟨a, m', b, own', w', hx, hrest⟩ := h m hm hl
  rw [hx]
  refine ⟨fun a₁ m₁ h₁ => ?_, fun _ s m₁ h₁ => (nomatch h₁)⟩
  cases h₁
  exact ⟨b, own', w', hrest⟩

theorem ret {a : α} {b : β} (h : P w own a b) :
    Mirrors base d S n R o own P w (pure a) fun _ _ => pure b :=
  silent fun m hm hl => ⟨a, m, b, own, w, rfl, .refl hm hl, h, fun _ _ => .const _⟩

theorem bind {x : Eval α} {p : Context → Nat → Course β} {f : α → Eval α'}
    {g : Context → Nat → β → Course β'} (h : Mirrors base d S n R o own P w x p)
    (hf : ∀ w' own' a b, w ≤ w' → P w' own' a b →
      Mirrors base d S n R o own' P' w' (f a) fun C k => g C k b) :
    Mirrors base d S n R o own P' w (x >>= f) fun C k => p C k >>= g C k := by
  intro m hm hl
  obtain ⟨hok, hstop⟩ := h m hm hl
  cases hx : x m with
  | ok a m₁ =>
    obtain ⟨b, own₁, w₁, hon, hP, hconv⟩ := hok a m₁ hx
    obtain ⟨hok₁, hstop₁⟩ := hf w₁ own₁ a b hon.le hP m₁ hon.models hon.ledger
    rw [Eval.bind_of_ok hx]
    refine ⟨fun a' m' h' => ?_, fun hd s m' h' => ?_⟩
    · obtain ⟨b', own', w', hon', hP', hconv'⟩ := hok₁ a' m' h'
      refine ⟨b', own', w', hon.trans hon', hP', fun C hC => ?_⟩
      exact (hconv C (hC.anti hon'.le)).bind_ok (hconv' C hC)
    · obtain ⟨herr, hdeep, w', hle, hm', hbooks, hkept⟩ := hstop₁ hd s m' h'
      have hnow := hconv ⟨S, R⟩ hon.ledger.agrees
      refine ⟨fun e he => ?_, fun hs => ?_, w', Chart.le_trans hon.le hle, hm', hbooks,
        hon.kept.trans hkept⟩
      · obtain ⟨e', hee, hc⟩ := herr e he
        exact ⟨e', hee, hnow.bind_ok hc⟩
      · -- within the bound the first part comes to its result, or hits the bound already
        rcases hnow.2 n with hn | hn
        · rw [Course.bind_of_ok hn]
          exact hdeep hs
        · exact Course.bind_of_error hn
  | error s m₁ =>
    rw [Eval.bind_of_error hx]
    refine ⟨fun a' m' h' => (nomatch h'), fun hd s' m' h' => ?_⟩
    cases h'
    obtain ⟨herr, hdeep, hleft⟩ := hstop hd s m₁ hx
    refine ⟨fun e he => ?_, fun hs => Course.bind_of_error (hdeep hs), hleft⟩
    obtain ⟨e', hee, hc⟩ := herr e he
    exact ⟨e', hee, hc.bind_error⟩

/-- A step that has no counterpart, before one that has. -/
theorem bind_unit {P : Chart → Own → α → Unit → Prop} {x : Eval α} {f : α → Eval α'}
    {q : Context → Nat → Course β'} (h : Mirrors base d S n R o own P w x fun _ _ => pure ())
    (hf : ∀ w' own' a, w ≤ w' → P w' own' a () → Mirrors base d S n R o own' P' w' (f a) q) :
    Mirrors base d S n R o own P' w (x >>= f) q :=
  bind (g := fun C k _ => q C k) h fun w' own' a _ hw ha => hf w' own' a hw ha

theorem fail {e e' : EvalError} (h : e.bare = e'.bare) :
    Mirrors base d S n R o own P w (Eval.fail e) fun _ _ => Course.fail e' := by
  intro m hm hl
  refine ⟨fun a m' h' => (nomatch h'), fun _ s m' h' => ?_⟩
  cases h'
  refine ⟨fun e₁ he => ?_, fun hs => (nomatch hs), w, Chart.le_refl w, hm, hl.toBooks, .of_made rfl⟩
  cases he
  exact ⟨e', h, .const _⟩

theorem lift {x : Except EvalError α} {y : Except EvalError β} (h : Results (P w own) x y) :
    Mirrors base d S n R o own P w (Eval.lift x) fun _ _ => Course.lift y := by
  match x, y with
  | .ok a, .ok b => exact ret h
  | .error e, .error e' => exact fail h.1
  | .ok a, .error e => exact h.elim
  | .error e, .ok b => exact h.elim

/-- A report of the computation at work. -/
theorem report {v : Value} {u : Val} (h : Stands d w v u) :
    Mirrors base d S n R o own (fun w _ => Stands d w) w (fun m => .ok v (m.report v))
      fun _ _ => Course.report u.bare.render u := by
  refine silent fun m hm hl => ?_
  have hm' : Models base d S w (m.report v) :=
    hm.congr rfl rfl rfl (Chart.le_refl w) rfl rfl rfl
  have hl' : Ledger S R o w (m.report v)
      { own with reports := own.reports ++ [u.bare.render] } :=
    hl.same (Chart.le_refl w) (fun hi => ⟨hi, rfl⟩) rfl rfl rfl rfl
  have htext : u.bare.render = v.render := by rw [← h.bare_eq, Value.render_bare]
  refine ⟨v, _, u, _, w, rfl, ⟨Chart.le_refl w, hm', hl', .of_made rfl, [v.render], [],
    [u.bare.render], [], ?_⟩, h, fun _ _ => .const _⟩
  refine ⟨by simp, by simp, rfl, by simp, ?_, nofun, fun _ => nofun⟩
  rw [htext]
  exact .refl _

/-- A closure with the next name. -/
theorem newClosure {ps : List String} {b : Expr} {env : Env} {σ : Scope} (hs : Stack w env σ)
    (hb : Fit d b) :
    Mirrors base d S n R o own (fun w _ => Stands d w) w (Eval.newClosure ps b env)
      fun _ _ => do
        let k ← Course.make 1
        return Val.closure (.event o k) ps b σ := by
  refine silent fun m hm hl => ?_
  have hq := Quiet.addClosure hm hl
  refine ⟨_, _, .closure (.event o own.made) ps b σ, _, _, rfl, hq.onward,
    .closure ?_ (hs.mono hq.le) hb, fun _ _ => .const _⟩
  rw [hm.closures]
  simp [Chart.addClosure, Chart.count]

theorem callPrim (p : Prim) {vs : List Value} {us : List Val}
    (h : List.Forall₂ (Stands d w) vs us) :
    Mirrors base d S n R o own (fun w _ => Stands d w) w (Eval.callPrim p vs)
      fun _ _ => Named.callPrim p us := by
  by_cases ht : ∃ v, p = .tick ∧ vs = [v]
  · obtain ⟨v, rfl, rfl⟩ := ht
    cases h with
    | cons hv hnil =>
      cases hnil
      exact report hv
  · have hcall : Named.callPrim p us = Course.lift (call p us) := by
      unfold Named.callPrim
      split
      · cases h with
        | cons hv hnil =>
          cases hnil
          exact absurd ⟨_, rfl, rfl⟩ ht
      · rfl
    rw [Eval.callPrim_eq_lift fun v hv => ht ⟨v, hv⟩, hcall]
    exact lift (P := fun w _ => Stands d w) (results_call h fun v hv => ht ⟨v, hv⟩)

/-- A frame of the entries of definitions, in front of an environment. -/
theorem newFrame {env : Env} {home σ : Scope} {k : Nat} {ds : List (String × Expr)}
    {slots : List (String × BindingId)} (hs : Stack w env σ)
    (hslots : SlotsOf w slots (cells o home k ds)) :
    Mirrors base d S n R o own
      (fun w' _ f (_ : Unit) => Stack w' (f :: env) (.call o k ds home σ)) w
      (Eval.newFrame (Frame.ofSlots slots)) fun _ _ => pure () := by
  refine silent fun m hm hl => ?_
  have hq : Quiet (fun _ => False) base d S R o w m own (w.addScope (.call o k ds home σ))
      (m.addFrame (Frame.ofSlots slots)) own := by
    refine .addFrame hm hl fun _ x => ?_
    rw [get?_ofSlots]
    exact hslots.slot_lastOf? x
  refine ⟨m.frames.size, _, (), own, _, rfl, hq.onward, .call ?_ (hs.mono hq.le),
    fun _ _ => .const _⟩
  rw [Chart.scopes_addScope, hm.frames, if_pos rfl]

end Mirrors

end Rules

end Named

end CallBy
