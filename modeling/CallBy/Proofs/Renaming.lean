import CallBy.Proofs.Pairing
import CallBy.Proofs.Strategies

/-!
Results do not depend on the names of bound variables.

* `Expr.Alpha r ρ e e'`: the expressions differ by a renaming of bound variables only;
* `Theory.alpha`: the theory of such expressions, in environments whose frames were made for the
  binders that are passed;
* `bound_names_irrelevant`: both expressions end alike under every strategy.
-/

namespace CallBy

/-- The variables are bound at the same place by binders with these names, the innermost first, or
they are free and the same. -/
def SameVar : List (String × String) → String → String → Prop
  | [], x, x' => x = x'
  | (y, y') :: ρ, x, x' => x = y ∧ x' = y' ∨ x ≠ y ∧ x' ≠ y' ∧ SameVar ρ x x'

/-- **The expressions are the same but for the names of bound variables.** Parameters are bound in
the body, and the variables of a `let` in the body and, if definitions are recursive, in these. -/
inductive Expr.Alpha (recursiveLet : Bool) : List (String × String) → Expr → Expr → Prop
  | int {ρ : List (String × String)} (n : Int) : Alpha recursiveLet ρ (.int n) (.int n)
  | bool {ρ : List (String × String)} (b : Bool) : Alpha recursiveLet ρ (.bool b) (.bool b)
  | null {ρ : List (String × String)} : Alpha recursiveLet ρ .null .null
  | prim {ρ : List (String × String)} (p : Prim) : Alpha recursiveLet ρ (.prim p) (.prim p)
  | datum {ρ : List (String × String)} (s i : String) :
      Alpha recursiveLet ρ (.datum s i) (.datum s i)
  | var {ρ : List (String × String)} {x x' : String} : SameVar ρ x x' →
      Alpha recursiveLet ρ (.var x) (.var x')
  | unary {ρ : List (String × String)} (op : String) {a a' : Expr} : Alpha recursiveLet ρ a a' →
      Alpha recursiveLet ρ (.unary op a) (.unary op a')
  | binary {ρ : List (String × String)} (op : String) {l r l' r' : Expr} :
      Alpha recursiveLet ρ l l' → Alpha recursiveLet ρ r r' →
      Alpha recursiveLet ρ (.binary op l r) (.binary op l' r')
  | ite {ρ : List (String × String)} {t c a t' c' a' : Expr} : Alpha recursiveLet ρ t t' →
      Alpha recursiveLet ρ c c' → Alpha recursiveLet ρ a a' →
      Alpha recursiveLet ρ (.ite t c a) (.ite t' c' a')
  | map {ρ : List (String × String)} {ps ps' : List String} {b b' : Expr} :
      ps.length = ps'.length → Alpha recursiveLet (ps.zip ps' ++ ρ) b b' →
      Alpha recursiveLet ρ (.map ps b) (.map ps' b')
  | app {ρ : List (String × String)} {f f' : Expr} {as as' : List Expr} :
      Alpha recursiveLet ρ f f' → as.length = as'.length →
      (∀ p ∈ as.zip as', Alpha recursiveLet ρ p.1 p.2) →
      Alpha recursiveLet ρ (.app f as) (.app f' as')
  | letIn {ρ : List (String × String)} {ds ds' : List (String × Expr)} {b b' : Expr} :
      ds.length = ds'.length →
      (∀ p ∈ ds.zip ds', Alpha recursiveLet
        (if recursiveLet then (ds.map (·.1)).zip (ds'.map (·.1)) ++ ρ else ρ) p.1.2 p.2.2) →
      Alpha recursiveLet ((ds.map (·.1)).zip (ds'.map (·.1)) ++ ρ) b b' →
      Alpha recursiveLet ρ (.letIn ds b) (.letIn ds' b')

/-- Variables under binders are bound by these or were the same before. -/
theorem SameVar.of_append {ps ps' : List String} (hlen : ps.length = ps'.length)
    {ρ : List (String × String)} {x x' : String} (h : SameVar (ps.zip ps' ++ ρ) x x') :
    (x, x') ∈ ps.zip ps' ∨ x ∉ ps ∧ x' ∉ ps' ∧ SameVar ρ x x' := by
  induction ps generalizing ps' with
  | nil =>
    obtain rfl : ps' = [] := by simpa using hlen.symm
    exact .inr ⟨nofun, nofun, h⟩
  | cons p ps ih =>
    obtain ⟨p', ps', rfl⟩ : ∃ p' qs, ps' = p' :: qs := by
      cases ps' with
      | nil => cases hlen
      | cons p' ps' => exact ⟨p', ps', rfl⟩
    rcases h with ⟨rfl, rfl⟩ | ⟨hx, hx', h⟩
    · exact .inl List.mem_cons_self
    · rcases ih (by simpa using hlen) h with h | ⟨hps, hps', h⟩
      · exact .inl (List.mem_cons_of_mem _ h)
      · exact .inr ⟨by simp [hx, hps], by simp [hx', hps'], h⟩

/-! ### The theory of renaming -/

/-- The expressions differ by a renaming, which says where the frames of the environments bind. -/
structure Renamed (r : Bool) (L : Link) (env : Env) (e : Expr) (env' : Env) (e' : Expr) : Prop where
  has : L.Has env env'
  alpha : ∃ ρ, Expr.Alpha r ρ e e' ∧ ∀ x x', SameVar ρ x x' → L.Looks env x env' x'
  distinct : e.Distinct
  distinct' : e'.Distinct

namespace Renamed

variable {r : Bool} {L L₁ : Link} {env env' : Env}

theorem mono (hL : L ≤ L₁) {e e' : Expr} (h : Renamed r L env e env' e') :
    Renamed r L₁ env e env' e' := by
  obtain ⟨ρ, hα, hlooks⟩ := h.alpha
  exact ⟨h.has.mono hL, ⟨ρ, hα, fun x x' hx => (hlooks x x' hx).mono hL h.has⟩, h.distinct,
    h.distinct'⟩

/-- Under binders the renaming is extended by these. -/
theorem under {ps ps' : List String} (hlen : ps.length = ps'.length) {b b' : Expr}
    {ρ : List (String × String)} (henv : L.Has env env')
    (hα : Expr.Alpha r (ps.zip ps' ++ ρ) b b')
    (hlooks : ∀ x x', SameVar ρ x x' → L.Looks env x env' x') (hb : b.Distinct)
    (hb' : b'.Distinct) :
    Under (Renamed r) L env ps b env' ps' b' := by
  intro L₁ hL f f' hframed
  refine ⟨hframed.has (henv.mono hL), ⟨_, hα, fun x x' hx => ?_⟩, hb, hb'⟩
  rcases SameVar.of_append hlen hx with hx | ⟨hps, hps', hx⟩
  · exact hframed.looks_new hx
  · exact hframed.looks_old hps hps' ((hlooks x x' hx).mono hL henv)

end Renamed

/-- The theory of renaming: nothing but the number of parameters is to be seen of closures. -/
def Theory.alpha (r : Bool) : Theory where
  Rel := Renamed r
  view := ⟨fun ps ps' => ps.length = ps'.length, False, fun _ => rfl, fun h => h⟩
  kept _ _ _ _ := False
  mono hL h := h.mono hL
  exact h := h.elim
  enter h := by
    obtain ⟨ρ, hα, hlooks⟩ := h.alpha
    match hα, h.distinct, h.distinct' with
    | .map hlen hb, .map hnd hd, .map hnd' hd' =>
      exact ⟨.of_nodup hlen hnd hnd', hlen, Renamed.under hlen h.has hb hlooks hd hd'⟩

section Run

variable {d : Discipline} {run run' : Env → Expr → Eval Value} {L : Link}

/-- **One evaluation.** -/
theorem Renamed.step (hrun : Paired.Runs (.alpha d.recursiveLet) .none L run run')
    [∀ env e, Steady (run env e)] [∀ env e, Steady (run' env e)] {env env' : Env} {e e' : Expr}
    (h : Renamed d.recursiveLet L env e env' e') :
    Paired (.alpha d.recursiveLet) .none L (Theory.alpha d.recursiveLet).Values
      (Eval.step d run env e) (Eval.step d run' env' e') := by
  obtain ⟨henv, ⟨ρ, hα, hlooks⟩, hd, hd'⟩ := h
  have part : ∀ {a a' : Expr}, Expr.Alpha d.recursiveLet ρ a a' → a.Distinct → a'.Distinct →
      (Theory.alpha d.recursiveLet).Rel L env a env' a' :=
    fun ha hda hda' => ⟨henv, ⟨ρ, ha, hlooks⟩, hda, hda'⟩
  have congr : Congruent (.alpha d.recursiveLet) L env env' e e' →
      Paired (.alpha d.recursiveLet) .none L (Theory.alpha d.recursiveLet).Values
        (Eval.step d run env e) (Eval.step d run' env' e') :=
    fun hc => Paired.step hrun rfl hc fun hX => hX.elim
  match hα, hd, hd' with
  | .int n, _, _ => exact congr (.int n)
  | .bool b, _, _ => exact congr (.bool b)
  | .null, _, _ => exact congr .null
  | .prim p, _, _ => exact congr (.prim p)
  | .datum s i, _, _ => exact congr (.datum s i)
  | .var hx, _, _ => exact congr (.var (hlooks _ _ hx))
  | .unary op ha, .unary hda, .unary hda' => exact congr (.unary op (part ha hda hda'))
  | .binary op hl hr, .binary hdl hdr, .binary hdl' hdr' =>
    exact congr (.binary op (part hl hdl hdl') (part hr hdr hdr'))
  | .ite ht hc ha, .ite hdt hdc hda, .ite hdt' hdc' hda' =>
    exact congr (.ite (part ht hdt hdt') (part hc hdc hdc') (part ha hda hda'))
  | .map hlen hb, hd, hd' => exact congr (.map (part (.map hlen hb) hd hd'))
  | .app hf hlen has, .app hdf hdas, .app hdf' hdas' =>
    refine congr (.app (part hf hdf hdf') (List.forall₂_iff_zip.mpr ⟨hlen, fun hmem => ?_⟩))
    have hmem' := List.of_mem_zip hmem
    exact part (has _ hmem) (hdas _ hmem'.1) (hdas' _ hmem'.2)
  | .letIn hlen hds hb, .letIn hnd hdds hdb, .letIn hnd' hdds' hdb' =>
    have hnames : (_ : List String).length = (_ : List String).length :=
      (List.length_map (·.1)).trans (hlen.trans (List.length_map (·.1)).symm)
    refine Paired.letIn hrun (.of_nodup hnames hnd hnd')
      (List.forall₂_iff_zip.mpr ⟨hlen, fun {p p'} hmem => ⟨fun hX => hX.elim, ?_⟩⟩)
      (under hnames henv hb hlooks hdb hdb')
    have hmem' := List.of_mem_zip hmem
    have hp := hds _ hmem
    split
    · next hr =>
      rw [if_pos hr] at hp
      exact under hnames henv hp hlooks (hdds p hmem'.1) (hdds' p' hmem'.2)
    · next hr =>
      rw [if_neg hr] at hp
      exact part hp (hdds p hmem'.1) (hdds' p' hmem'.2)

/-- **Whole evaluations.** -/
theorem Renamed.eval (d : Discipline) (n : Nat) (L : Link) :
    Paired.Runs (.alpha d.recursiveLet) .none L (Eval.eval d n) (Eval.eval d n) := by
  induction n generalizing L with
  | zero => exact fun L₁ _ _ _ _ _ _ _ _ hm => .deep (Link.le_refl L₁) hm
  | succ n ih => exact fun L₁ _ _ _ _ _ h => Renamed.step (ih L₁) h

end Run

/-! ### Outcomes -/

/-- The runs end alike: with values that are the same but for closures, which have as many
parameters, with errors of one kind, or both at the bound. -/
def EndAlike : Except Stop Value → Except Stop Value → Prop
  | .ok v, .ok v' => v.Like (fun _ ps _ _ _ ps' _ _ => ps.length = ps'.length) v'
  | .error (.error e), .error (.error e') => e.kind = e'.kind
  | .error .tooDeep, .error .tooDeep => True
  | _, _ => False

/-- **Results do not depend on the names of bound variables.** Expressions that differ by a renaming
of bound variables end alike from the empty environment, under every strategy and either rule for
definitions, whatever the bound on nested evaluations: both at the bound, with errors of one kind,
or with values that agree but for closures, and there on the number of parameters. -/
theorem bound_names_irrelevant (d : Discipline) {e e' : Expr}
    (hα : Expr.Alpha d.recursiveLet [] e e') (he : e.Distinct) (he' : e'.Distinct) (n : Nat) :
    EndAlike (Eval.outcome d n e) (Eval.outcome d n e') := by
  have hstart : Renamed d.recursiveLet .start [0] e [0] e' :=
    ⟨Link.has_start, ⟨[], hα, fun x x' _ => Link.looks_start x x'⟩, he, he'⟩
  have hend := (Renamed.eval d n .start).start (fun _ _ _ _ h => h) hstart
  unfold Eval.outcome
  generalize Eval.evalClosed d n e .initial = r, Eval.evalClosed d n e' .initial = r' at hend
  cases hend with
  | ok _ hm hv => exact (hm.fits.like hv).mono fun hc => hc.1
  | error _ _ herr => exact herr.1
  | deep _ _ => trivial
  | behind hc _ _ => cases hc
  | ahead hc _ _ => cases hc

/-- A function that uses a variable, applied where another variable of that name is bound. -/
def captured : Expr :=
  .letIn [("x", .int 5)] (.letIn [("f", .map ["y"] (.var "x"))]
    (.letIn [("x", .int 7)] (.app (.var "f") [.var "x"])))

/-- The same with other names, no two of them alike. -/
def apart : Expr :=
  .letIn [("a", .int 5)] (.letIn [("g", .map ["z"] (.var "a"))]
    (.letIn [("b", .int 7)] (.app (.var "g") [.var "b"])))

/-- The function sees the variable of its definition, by whatever name. -/
theorem bound_names_irrelevant_captured :
    Expr.Alpha true [] captured apart ∧ captured.Distinct ∧ apart.Distinct ∧
      EndAlike (Eval.outcome ⟨.need, true⟩ 9 captured) (Eval.outcome ⟨.need, true⟩ 9 apart) ∧
      Eval.outcome ⟨.need, true⟩ 9 apart = .ok (.int 5) := by
  have hα : Expr.Alpha true [] captured apart := by
    refine .letIn rfl (List.forall_mem_singleton.mpr (.int 5)) ?_
    refine .letIn rfl (List.forall_mem_singleton.mpr (.map rfl (.var ?_))) ?_
    · simp [SameVar]
    refine .letIn rfl (List.forall_mem_singleton.mpr (.int 7)) ?_
    refine .app (.var ?_) rfl (List.forall_mem_singleton.mpr (.var ?_))
    · simp [SameVar]
    · simp [SameVar]
  have hdistinct : ∀ x f y z : String, Expr.Distinct (.letIn [(x, .int 5)]
      (.letIn [(f, .map [y] (.var x))] (.letIn [(z, .int 7)] (.app (.var f) [.var z])))) := by
    intro x f y z
    refine .letIn (List.nodup_singleton _) (List.forall_mem_singleton.mpr (.int 5)) ?_
    refine .letIn (List.nodup_singleton _)
      (List.forall_mem_singleton.mpr (.map (List.nodup_singleton y) (.var x))) ?_
    refine .letIn (List.nodup_singleton _) (List.forall_mem_singleton.mpr (.int 7)) ?_
    exact .app (.var f) (List.forall_mem_singleton.mpr (.var z))
  exact ⟨hα, hdistinct _ _ _ _, hdistinct _ _ _ _,
    bound_names_irrelevant ⟨.need, true⟩ hα (hdistinct _ _ _ _) (hdistinct _ _ _ _) 9,
    by decide +kernel⟩

end CallBy
