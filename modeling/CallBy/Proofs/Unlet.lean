import CallBy.Proofs.Moments

/-!
Without recursive definitions a `let` is the application of a function.

`Expr.unlet` writes every `let` of an expression as the application of a function of its variables
to its definitions. Either way the definitions are bound in the surrounding environment, in a frame
in front of it; the application makes one closure more, which nothing but itself refers to. So the
two runs go side by side, whatever is to be evaluated, and with the same bound.

* `eval_call`: an application that stands for a `let` does what the `let` does after the closure;
* `Theory.unlet`: the theory of expressions and what they are without `let`;
* `let_is_application`.
-/

namespace CallBy

namespace Expr

mutual

/-- The expression with every `let` written as the application of a function. -/
def unlet : Expr → Expr
  | .unary op a => .unary op a.unlet
  | .binary op l r => .binary op l.unlet r.unlet
  | .ite t c a => .ite t.unlet c.unlet a.unlet
  | .map ps b => .map ps b.unlet
  | .app f as => .app f.unlet (unletArgs as)
  | .letIn ds b => .app (.map (ds.map (·.1)) b.unlet) (unletDefs ds)
  | .int n => .int n
  | .bool b => .bool b
  | .null => .null
  | .prim p => .prim p
  | .var x => .var x
  | .datum s i => .datum s i

/-- The arguments without `let`. -/
def unletArgs : List Expr → List Expr
  | [] => []
  | a :: as => a.unlet :: unletArgs as

/-- The defining expressions without `let`, as arguments. -/
def unletDefs : List (String × Expr) → List Expr
  | [] => []
  | (_, e) :: ds => e.unlet :: unletDefs ds

end

theorem unletArgs_eq_map (as : List Expr) : unletArgs as = as.map unlet := by
  induction as with
  | nil => rfl
  | cons a as ih => rw [unletArgs, ih, List.map_cons]

theorem unletDefs_eq_map (ds : List (String × Expr)) :
    unletDefs ds = ds.map fun p => p.2.unlet := by
  induction ds with
  | nil => rfl
  | cons p ds ih => rw [unletDefs, ih, List.map_cons]

end Expr

/-! ### One application -/

/-- Without recursive definitions the frame of a `let` is made when its definitions are bound. -/
theorem step_letIn (s : Strategy) (run : Env → Expr → Eval Value) (env : Env)
    (ds : List (String × Expr)) (b : Expr) :
    Eval.step ⟨s, false⟩ run env (.letIn ds b) = (do
      let slots ← Eval.bindAll ⟨s, false⟩ run env ds
      let f ← Eval.newFrame (Frame.ofSlots slots)
      run (f :: env) b) := by
  simp [Eval.step, Eval.define]

/-- **The application of a function to definitions** does what the `let` of these definitions does
once the closure is made. -/
theorem eval_call (s : Strategy) (n : Nat) (env : Env) (ds : List (String × Expr)) (b : Expr)
    (m : Machine) :
    Eval.eval ⟨s, false⟩ (n + 2) env (.app (.map (ds.map (·.1)) b) (ds.map (·.2))) m =
      Eval.eval ⟨s, false⟩ (n + 2) env (.letIn ds b) { m with closures := m.closures + 1 } := by
  have hclosure : Eval.eval ⟨s, false⟩ (n + 1) env (.map (ds.map (·.1)) b) m =
      .ok (.closure m.closures (ds.map (·.1)) b env) { m with closures := m.closures + 1 } := rfl
  have hzip : (ds.map (·.1)).zip (ds.map (·.2)) = ds := (List.zip_of_prod rfl rfl).symm
  have hcall : Eval.eval ⟨s, false⟩ (n + 2) env (.app (.map (ds.map (·.1)) b) (ds.map (·.2))) =
      (Eval.eval ⟨s, false⟩ (n + 1) env (.map (ds.map (·.1)) b) >>= fun v =>
        Eval.apply ⟨s, false⟩ (Eval.eval ⟨s, false⟩ (n + 1)) env v (ds.map (·.2))) := rfl
  have hlet : Eval.eval ⟨s, false⟩ (n + 2) env (.letIn ds b) =
      Eval.step ⟨s, false⟩ (Eval.eval ⟨s, false⟩ (n + 1)) env (.letIn ds b) := rfl
  rw [hcall, Eval.bind_of_ok hclosure, hlet, step_letIn, Eval.apply,
    if_pos (by rw [List.length_map, List.length_map]), hzip]

/-- Nothing is to be seen of a closure that the second machine alone has made. -/
theorem Agree.addClosure_right {T : Theory} {L : Link} {m m' : Machine} (h : Agree T L m m') :
    Agree T L m { m' with closures := m'.closures + 1 } := by
  refine ⟨h.left, h.right.congr rfl, h.slots, h.slots_iff, h.bindings, h.bindings_iff,
    fun hc => ?_, h.closures_iff, h.kept, h.reports⟩
  obtain ⟨hlt, hlt'⟩ := h.closures hc
  exact ⟨hlt, Nat.lt_succ_of_lt hlt'⟩

section Bound

variable {T : Theory} {L : Link} {m m' : Machine} {s : Strategy} {r : Bool} {env : Env}

/-- Where nothing can be evaluated, binding does no more than make bindings. -/
theorem Agree.bindAll_zero (hm : Agree T L m m') (ds : List (String × Expr)) :
    (∃ slots m₁, Eval.bindAll ⟨s, r⟩ (Eval.eval ⟨s, r⟩ 0) env ds m = .ok slots m₁ ∧
      Agree T L m₁ m') ∨
    ∃ m₁, Eval.bindAll ⟨s, r⟩ (Eval.eval ⟨s, r⟩ 0) env ds m = .error .tooDeep m₁ ∧
      Agree T L m₁ m' := by
  induction ds generalizing m with
  | nil => exact .inl ⟨[], m, rfl, hm⟩
  | cons p ds ih =>
    by_cases hs : s = .value
    · subst hs
      exact .inr ⟨m, rfl, hm⟩
    · obtain ⟨b, hb, -⟩ := Safe.bindVar_thunk (d := ⟨s, r⟩) (Eval.eval ⟨s, r⟩ 0) hs env p.1 p.2
      rw [Eval.bindAll, Eval.bind_of_ok (hb m)]
      rcases ih (hm.addBinding b) with ⟨slots, m₁, hx, hm₁⟩ | ⟨m₁, hx, hm₁⟩
      · exact .inl ⟨_, m₁, Eval.bind_of_ok hx, hm₁⟩
      · exact .inr ⟨m₁, Eval.bind_of_error hx, hm₁⟩

/-- A `let` that can evaluate nothing hits the bound, at the latest with its body. -/
theorem Agree.letIn_zero (hm : Agree T L m m') (s : Strategy) (env : Env)
    (ds : List (String × Expr)) (b : Expr) :
    ∃ L₁ m₁, L ≤ L₁ ∧ Agree T L₁ m₁ m' ∧
      Eval.eval ⟨s, false⟩ 1 env (.letIn ds b) m = .error .tooDeep m₁ := by
  rw [Eval.eval, step_letIn]
  rcases hm.bindAll_zero ds with ⟨slots, m₁, hx, hm₁⟩ | ⟨m₁, hx, hm₁⟩
  · refine ⟨_, _, (L.grows_withFrame _).le, hm₁.addFrame (Frame.binds_ofSlots slots), ?_⟩
    rw [Eval.bind_of_ok hx]
    rfl
  · exact ⟨L, m₁, Link.le_refl L, hm₁, Eval.bind_of_error hx⟩

end Bound

/-! ### Side by side -/

/-- The theory of expressions and what they are without `let`, in environments that stand for each
other frame by frame; parameters are to be seen of closures. -/
def Theory.unlet : Theory where
  Rel L env e env' e' := e' = e.unlet ∧ L.Twins env env'
  view := .byParams
  kept _ _ _ _ := False
  mono hL h := ⟨h.1, h.2.mono hL⟩
  exact h := h.elim
  enter {L env ps b env' ps' b'} h := by
    obtain ⟨heq, henv⟩ := h
    rw [Expr.unlet] at heq
    cases heq
    exact ⟨.refl ps, rfl, fun L₁ hL f f' hf => ⟨rfl, .cons ⟨ps, hf⟩ (henv.mono hL)⟩⟩

namespace Unlet

variable {s : Strategy} {n : Nat} {L : Link} {env env' : Env}
  (hrun : Paired.Runs .unlet .none L (Eval.eval ⟨s, false⟩ n) (Eval.eval ⟨s, false⟩ n))
  (henv : L.Twins env env')

include hrun henv

/-- **One evaluation of a `let`** and of the application that stands for it. -/
theorem letIn (ds : List (String × Expr)) (b : Expr) :
    Paired .unlet .none L Theory.unlet.Values (Eval.eval ⟨s, false⟩ (n + 1) env (.letIn ds b))
      (Eval.eval ⟨s, false⟩ (n + 1) env' (.unlet (.letIn ds b))) := by
  intro m m' hm
  cases n with
  | zero =>
    -- the function itself cannot be evaluated
    obtain ⟨L₁, m₁, hL, hm₁, hx⟩ := hm.letIn_zero s env ds b
    rw [hx]
    exact .deep hL hm₁
  | succ n =>
    have hcall : Eval.eval ⟨s, false⟩ (n + 2) env' (.unlet (.letIn ds b)) m' =
        Eval.eval ⟨s, false⟩ (n + 2) env' (.letIn (ds.map fun p => (p.1, p.2.unlet)) b.unlet)
          { m' with closures := m'.closures + 1 } := by
      rw [← eval_call, Expr.unlet, Expr.unletDefs_eq_map]
      simp only [List.map_map, Function.comp_def]
    have hnames : (ds.map fun p => (p.1, p.2.unlet)).map (·.1) = ds.map (·.1) := by
      simp only [List.map_map, Function.comp_def]
    rw [hcall]
    refine Paired.letIn (d := ⟨s, false⟩) hrun (hnames ▸ .refl _) ?_ ?_ hm.addClosure_right
    · rw [Defined, List.forall₂_map_right_iff]
      exact List.forall₂_same.mpr fun p _ => ⟨fun _ => rfl, rfl, henv⟩
    · rw [hnames]
      exact fun L₁ hL f f' hf => ⟨rfl, .cons ⟨_, hf⟩ (henv.mono hL)⟩

/-- **One evaluation.** -/
theorem step (e : Expr) :
    Paired .unlet .none L Theory.unlet.Values (Eval.eval ⟨s, false⟩ (n + 1) env e)
      (Eval.eval ⟨s, false⟩ (n + 1) env' e.unlet) := by
  have part : ∀ a, Theory.unlet.Rel L env a env' a.unlet := fun a => ⟨rfl, henv⟩
  have congr (hc : Congruent .unlet L env env' e e.unlet) :
      Paired .unlet .none L Theory.unlet.Values (Eval.eval ⟨s, false⟩ (n + 1) env e)
        (Eval.eval ⟨s, false⟩ (n + 1) env' e.unlet) :=
    Paired.step hrun rfl hc fun h => h.elim
  cases e with
  | int k => exact congr (.int k)
  | bool b => exact congr (.bool b)
  | null => exact congr .null
  | prim p => exact congr (.prim p)
  | datum s i => exact congr (.datum s i)
  | var x => exact congr (.var (henv.looks x))
  | unary op a => exact congr (.unary op (part a))
  | binary op l r => exact congr (.binary op (part l) (part r))
  | ite t c a => exact congr (.ite (part t) (part c) (part a))
  | map ps b => exact congr (.map (part (.map ps b)))
  | app f as =>
    refine congr ?_
    rw [Expr.unlet, Expr.unletArgs_eq_map]
    refine .app (part f) ?_
    rw [List.forall₂_map_right_iff]
    exact List.forall₂_same.mpr fun a _ => part a
  | letIn ds b => exact letIn hrun henv ds b

omit hrun henv in
/-- **Whole evaluations.** -/
theorem eval (s : Strategy) (n : Nat) (L : Link) :
    Paired.Runs .unlet .none L (Eval.eval ⟨s, false⟩ n) (Eval.eval ⟨s, false⟩ n) := by
  induction n generalizing L with
  | zero => exact fun L₁ _ _ _ _ _ _ _ _ hm => .deep (Link.le_refl L₁) hm
  | succ n ih =>
    rintro L₁ - env e env' e' ⟨rfl, henv⟩
    exact step (ih L₁) henv e

end Unlet

/-! ### Outcomes -/

/-- **The runs end together**: with values that are the same but for closures, which are related by
`C`, with errors of one kind, or both at the bound on nested evaluations; and one by one the values
that they have reported are the same but for closures, which have the same parameters. -/
inductive EndTogether (C : ClosureRel) :
    EStateM.Result Stop Machine Value → EStateM.Result Stop Machine Value → Prop
  | ok {v v' : Value} {m m' : Machine} : v.Like C v' → View.byParams.Echoes m m' →
      EndTogether C (.ok v m) (.ok v' m')
  | error {e e' : EvalError} {m m' : Machine} : e.kind = e'.kind → View.byParams.Echoes m m' →
      EndTogether C (.error (.error e) m) (.error (.error e') m')
  | bound {m m' : Machine} : View.byParams.Echoes m m' →
      EndTogether C (.error .tooDeep m) (.error .tooDeep m')

/-- **Without recursive definitions a `let` is the application of a function**, for whole programs.
Under every strategy and whatever the bound on nested evaluations, an expression and the same with
every `let` written as an application end together from the empty environment; closures in the same
place have the same parameters, and bodies that differ in the same way. -/
theorem let_is_application (s : Strategy) (e : Expr) (n : Nat) :
    EndTogether (fun _ ps b _ _ ps' b' _ => ps = ps' ∧ b' = b.unlet)
      (Eval.evalClosed ⟨s, false⟩ n e .initial)
      (Eval.evalClosed ⟨s, false⟩ n e.unlet .initial) := by
  have hstart : Theory.unlet.Rel .start [0] e [0] e.unlet := ⟨rfl, Link.twins_start⟩
  have hend := (Unlet.eval s n .start).start (fun _ _ _ _ h => h) hstart
  generalize Eval.evalClosed ⟨s, false⟩ n e .initial = r,
    Eval.evalClosed ⟨s, false⟩ n e.unlet .initial = r' at hend
  cases hend with
  | ok _ hm hv =>
    refine .ok (Value.Like.mono (fun hc => ?_) hv) hm.reports
    have hmap := hc.2.1
    rw [Expr.unlet] at hmap
    cases hmap
    exact ⟨rfl, rfl⟩
  | error _ hm he => exact .error he.1 hm.reports
  | deep _ hm => exact .bound hm.reports
  | behind hc _ _ => cases hc
  | ahead hc _ _ => cases hc

/-- Both report the definition once and make the same list of a function and a number. -/
example :
    let e : Expr := .letIn [("x", .app (.prim .tick) [.int 2])]
      (.app (.prim .cons) [.map ["y"] (.letIn [("z", .var "x")] (.var "z")),
        .app (.prim .cons) [.var "x", .null]])
    let show? := fun d : Expr => match Eval.evalClosed ⟨.need, false⟩ 9 d .initial with
      | .ok v m => some (v.render, m.trace.toList)
      | .error _ _ => none
    show? e = some ("((closure: map y to let z := x; in z) 2)", ["2"]) ∧
      show? e.unlet = some ("((closure: map y to (map z to z)(x)) 2)", ["2"]) := by
  decide +kernel

end CallBy
