import CallBy.Proofs.Moments

/-!
Call by name is substitution.

Applying a function of one parameter by name comes to evaluating its body with the argument in the
place of the parameter. The first run keeps the argument in a frame that the second one does not
have; a use of the parameter takes one more nested evaluation in the first run, so each run may hit
its bound before the other.

* `Expr.subst r x a e`: the free occurrences of `x` in `e` replaced by `a`;
* `Theory.beta`: the theory of expressions and what they are after the substitution;
* `Redex.forth`, `Redex.back`: either run does what the other does, given bounds that suffice;
* `SameOutcomes`: two runs that come to the same, reports included, or both never end;
* `beta_law`.
-/

namespace CallBy

namespace Expr

mutual

/-- The expression with `a` in the place of the free occurrences of `x`. -/
def subst (recursiveLet : Bool) (x : String) (a : Expr) : Expr → Expr
  | .var y => if y = x then a else .var y
  | .unary op e => .unary op (subst recursiveLet x a e)
  | .binary op l r => .binary op (subst recursiveLet x a l) (subst recursiveLet x a r)
  | .ite t c e =>
    .ite (subst recursiveLet x a t) (subst recursiveLet x a c) (subst recursiveLet x a e)
  | .map ps b => .map ps (if x ∈ ps then b else subst recursiveLet x a b)
  | .app f as => .app (subst recursiveLet x a f) (substArgs recursiveLet x a as)
  | .letIn ds b =>
    .letIn (if recursiveLet ∧ x ∈ ds.map (·.1) then ds else substDefs recursiveLet x a ds)
      (if x ∈ ds.map (·.1) then b else subst recursiveLet x a b)
  | .int n => .int n
  | .bool b => .bool b
  | .null => .null
  | .prim p => .prim p
  | .datum s i => .datum s i

/-- The arguments with `a` in the place of `x`. -/
def substArgs (recursiveLet : Bool) (x : String) (a : Expr) : List Expr → List Expr
  | [] => []
  | e :: es => subst recursiveLet x a e :: substArgs recursiveLet x a es

/-- The definitions with `a` in the place of `x`. -/
def substDefs (recursiveLet : Bool) (x : String) (a : Expr) :
    List (String × Expr) → List (String × Expr)
  | [] => []
  | (y, e) :: ds => (y, subst recursiveLet x a e) :: substDefs recursiveLet x a ds

end

mutual

/-- The variables that are bound somewhere in the expression. -/
def binders : Expr → List String
  | .unary _ e => e.binders
  | .binary _ l r => l.binders ++ r.binders
  | .ite t c e => t.binders ++ (c.binders ++ e.binders)
  | .map ps b => ps ++ b.binders
  | .app f as => f.binders ++ bindersArgs as
  | .letIn ds b => ds.map (·.1) ++ (bindersDefs ds ++ b.binders)
  | .int _ | .bool _ | .null | .prim _ | .var _ | .datum _ _ => []

/-- The variables that are bound in arguments. -/
def bindersArgs : List Expr → List String
  | [] => []
  | e :: es => e.binders ++ bindersArgs es

/-- The variables that are bound in defining expressions. -/
def bindersDefs : List (String × Expr) → List String
  | [] => []
  | (_, e) :: ds => e.binders ++ bindersDefs ds

end

theorem substArgs_eq_map (r : Bool) (x : String) (a : Expr) (es : List Expr) :
    substArgs r x a es = es.map (subst r x a) := by
  induction es with
  | nil => rfl
  | cons e es ih => rw [substArgs, ih, List.map_cons]

theorem substDefs_eq_map (r : Bool) (x : String) (a : Expr) (ds : List (String × Expr)) :
    substDefs r x a ds = ds.map fun p => (p.1, subst r x a p.2) := by
  induction ds with
  | nil => rfl
  | cons p ds ih => rw [substDefs, ih, List.map_cons]

theorem mem_bindersArgs {as : List Expr} {e : Expr} (he : e ∈ as) {y : String}
    (hy : y ∈ e.binders) : y ∈ bindersArgs as := by
  induction as with
  | nil => cases he
  | cons b as ih =>
    rw [bindersArgs, List.mem_append]
    rcases List.mem_cons.mp he with rfl | he
    · exact .inl hy
    · exact .inr (ih he)

theorem mem_bindersDefs {ds : List (String × Expr)} {p : String × Expr} (hp : p ∈ ds) {y : String}
    (hy : y ∈ p.2.binders) : y ∈ bindersDefs ds := by
  induction ds with
  | nil => cases hp
  | cons q ds ih =>
    rw [bindersDefs, List.mem_append]
    rcases List.mem_cons.mp hp with rfl | hp
    · exact .inl hy
    · exact .inr (ih hp)

section LetIn

variable {ds : List (String × Expr)} {b : Expr} {y : String}

theorem mem_binders_of_name (hy : y ∈ ds.map (·.1)) : y ∈ (letIn ds b).binders := by
  rw [binders]
  exact List.mem_append_left _ hy

theorem mem_binders_of_def {p : String × Expr} (hp : p ∈ ds) (hy : y ∈ p.2.binders) :
    y ∈ (letIn ds b).binders := by
  rw [binders]
  exact List.mem_append_right _ (List.mem_append_left _ (mem_bindersDefs hp hy))

theorem mem_binders_of_body (hy : y ∈ b.binders) : y ∈ (letIn ds b).binders := by
  rw [binders]
  exact List.mem_append_right _ (List.mem_append_right _ hy)

end LetIn

theorem mem_binders_of_mem_parts {e a : Expr} (ha : a ∈ e.parts) {y : String}
    (hy : y ∈ a.binders) : y ∈ e.binders := by
  cases e with
  | app f as =>
    rw [binders, List.mem_append]
    rcases List.mem_cons.mp ha with rfl | ha
    · exact .inl hy
    · exact .inr (mem_bindersArgs ha hy)
  | unary | binary | ite =>
    simp only [parts, List.mem_cons, List.not_mem_nil] at ha
    grind [binders]
  | _ => cases ha

end Expr

/-! ### The theory of a substitution -/

/-- A function of one parameter that has been applied by name: the parameter, the argument with its
environment, and the frame that was made for them. -/
structure Redex where
  recursiveLet : Bool
  param : String
  arg : Expr
  env : Env
  frame : FrameId

namespace Redex

variable (B : Redex)

/-- The expression with the argument in the place of the parameter. -/
abbrev contract (e : Expr) : Expr := Expr.subst B.recursiveLet B.param B.arg e

/-- The expression is in the scope of the parameter: this leads to the frame of the redex, the other
free variables to slots that stand for each other, and so do those of the argument, from wherever it
is to be evaluated. -/
structure Live (L : Link) (env : Env) (e : Expr) (env' : Env) : Prop where
  home : L.vars.Has B.env
  found : L.vars.find? env B.param = some B.frame
  avoids : ∀ y ∈ e.binders, y ∉ B.arg.free B.recursiveLet
  looks : ∀ y ∈ e.free B.recursiveLet, y ≠ B.param → L.Looks env y env' y
  arg : ∀ y ∈ B.arg.free B.recursiveLet, L.Looks B.env y env' y

/-- The second expression is the first one out of the scope of the parameter, or what becomes of it
in the scope. -/
def Rel (L : Link) (env : Env) (e : Expr) (env' : Env) (e' : Expr) : Prop :=
  L.Has env env' ∧ (e' = e ∧ (∀ y ∈ e.free B.recursiveLet, L.Looks env y env' y) ∨
    e' = B.contract e ∧ B.Live L env e env')

variable {B} {L L₁ : Link} {env env' : Env} {e e' : Expr}

theorem Live.mono (henv : L.Has env env') (hL : L ≤ L₁) (h : B.Live L env e env') :
    B.Live L₁ env e env' := by
  have hhome : L.Has B.env env' := ⟨h.home, henv.2⟩
  refine ⟨h.home.mono hL.vars, ?_, h.avoids, fun y hy hne => (h.looks y hy hne).mono hL henv,
    fun y hy => (h.arg y hy).mono hL hhome⟩
  rw [Layout.find?_mono hL.vars henv.1, h.found]

theorem Rel.mono (hL : L ≤ L₁) (h : B.Rel L env e env' e') : B.Rel L₁ env e env' e' := by
  obtain ⟨henv, ⟨heq, hlooks⟩ | ⟨heq, hlive⟩⟩ := h
  · exact ⟨henv.mono hL, .inl ⟨heq, fun y hy => (hlooks y hy).mono hL henv⟩⟩
  · exact ⟨henv.mono hL, .inr ⟨heq, hlive.mono henv hL⟩⟩

/-- A part of an expression in the scope. -/
theorem Live.part (h : B.Live L env e env') {a : Expr} (hb : ∀ y ∈ a.binders, y ∈ e.binders)
    (hf : ∀ y ∈ a.free B.recursiveLet, y ∈ e.free B.recursiveLet) : B.Live L env a env' :=
  ⟨h.home, h.found, fun y hy => h.avoids y (hb y hy), fun y hy => h.looks y (hf y hy), h.arg⟩

/-- Under binders, of an expression whose other free variables are known. -/
theorem plain_under {ps : List String} (henv : L.Has env env')
    (hlooks : ∀ y ∈ e.free B.recursiveLet, y ∉ ps → L.Looks env y env' y) :
    Under B.Rel L env ps e env' ps e := by
  refine fun L₁ hL f f' hframed => ⟨hframed.has (henv.mono hL), .inl ⟨rfl, fun y hy => ?_⟩⟩
  by_cases hps : y ∈ ps
  · exact hframed.looks_new (Lined.mem_zip_self.mpr ⟨rfl, hps⟩)
  · exact hframed.looks_old hps hps ((hlooks y hy hps).mono hL henv)

/-- Under binders that leave the parameter in scope. -/
theorem Live.under (h : B.Live L env e env') (henv : L.Has env env') {ps : List String}
    (hps : B.param ∉ ps) {a : Expr} (havoid : ∀ y ∈ ps, y ∈ e.binders)
    (hb : ∀ y ∈ a.binders, y ∈ e.binders)
    (hf : ∀ y ∈ a.free B.recursiveLet, y ∉ ps → y ∈ e.free B.recursiveLet) :
    Under B.Rel L env ps a env' ps (B.contract a) := by
  intro L₁ hL f f' hframed
  have hlive := h.mono henv hL
  refine ⟨hframed.has (henv.mono hL), .inr ⟨rfl, hlive.home, ?_, fun y hy => h.avoids y (hb y hy),
    fun y hy hne => ?_, fun y hy => ?_⟩⟩
  · rw [Layout.find?_cons_of_not_mem (hframed.names_left ▸ hps), hlive.found]
  · by_cases hyps : y ∈ ps
    · exact hframed.looks_new (Lined.mem_zip_self.mpr ⟨rfl, hyps⟩)
    · exact hframed.looks_old hyps hyps (hlive.looks y (hf y hy hyps) hne)
  · -- the binders do not capture what is free in the argument
    have hyps : y ∉ ps := fun hmem => h.avoids y (havoid y hmem) hy
    rw [Link.Looks, Layout.find?_cons_of_not_mem (f := f') (hframed.names_right ▸ hyps)]
    exact hlive.arg y hy

/-- Closures that stand for each other have the same parameters, and under these their bodies do. -/
theorem Rel.enter {ps ps' : List String} {b b' : Expr}
    (h : B.Rel L env (.map ps b) env' (.map ps' b')) :
    ps = ps' ∧ Under B.Rel L env ps b env' ps' b' := by
  have hfree : ∀ y ∈ b.free B.recursiveLet, y ∉ ps → y ∈ (Expr.map ps b).free B.recursiveLet :=
    fun y hy hps => by simpa [Expr.free] using ⟨hy, hps⟩
  obtain ⟨henv, ⟨heq, hlooks⟩ | ⟨heq, hlive⟩⟩ := h
  · cases heq
    exact ⟨rfl, plain_under henv fun y hy hps => hlooks y (hfree y hy hps)⟩
  · rw [contract, Expr.subst] at heq
    cases heq
    refine ⟨rfl, ?_⟩
    split
    · next hx =>
      refine plain_under henv fun y hy hps => ?_
      exact hlive.looks y (hfree y hy hps) fun heq => hps (heq ▸ hx)
    · next hx =>
      exact hlive.under henv hx (fun y hy => by simp [Expr.binders, hy])
        (fun y hy => by simp [Expr.binders, hy]) hfree

end Redex

/-- The theory of a substitution: parameters are to be seen of closures, and the frame of the redex
keeps the argument. -/
def Theory.beta (B : Redex) : Theory where
  Rel := B.Rel
  view := .byParams
  kept f x e env := f = B.frame ∧ x = B.param ∧ e = B.arg ∧ env = B.env
  mono hL h := h.mono hL
  exact h := h.elim
  enter h := by
    obtain ⟨rfl, hunder⟩ := h.enter
    exact ⟨.refl _, rfl, hunder⟩

/-! ### Side by side -/

namespace Redex

variable {B : Redex} {c : Slack} {L : Link} {run run' : Env → Expr → Eval Value} {env env' : Env}
  {e e' : Expr}

section Step

variable (hrun : Paired.Runs (.beta B) c L run run') [∀ env e, Steady (run env e)]
  [∀ env e, Steady (run' env e)] (henv : L.Has env env')

include hrun henv

/-- One evaluation of an expression out of the scope of the parameter. -/
theorem step_plain (hlooks : ∀ y ∈ e.free B.recursiveLet, L.Looks env y env' y) :
    Paired (.beta B) c L (Theory.beta B).Values (Eval.step ⟨.name, B.recursiveLet⟩ run env e)
      (Eval.step ⟨.name, B.recursiveLet⟩ run' env' e) := by
  have congr (hlet : e.isLet = false) :
      Paired (.beta B) c L (Theory.beta B).Values (Eval.step ⟨.name, B.recursiveLet⟩ run env e)
        (Eval.step ⟨.name, B.recursiveLet⟩ run' env' e) := by
    refine Paired.step hrun rfl (.same (fun a ha => ⟨henv, .inl ⟨rfl, fun y hy => ?_⟩⟩)
      (fun x hx => ?_) (fun _ _ _ => ⟨henv, .inl ⟨rfl, hlooks⟩⟩) hlet) fun h => h.elim
    · exact hlooks y (Expr.mem_free_of_mem_parts ha hy)
    · exact hlooks x (by simp [hx, Expr.free])
  cases e with
  | letIn ds b =>
    refine Paired.letIn hrun (.refl _) (List.forall₂_same.mpr fun p hp => ⟨fun _ => rfl, ?_⟩)
      (plain_under henv fun y hy hps => hlooks y (Expr.mem_free_of_body hy hps))
    split
    · next hr =>
      exact plain_under henv fun y hy hps => hlooks y (Expr.mem_free_of_def hp hy fun _ => hps)
    · next hr =>
      refine ⟨henv, .inl ⟨rfl, fun y hy => hlooks y (Expr.mem_free_of_def hp hy fun h => ?_)⟩⟩
      exact absurd h hr
  | _ => exact congr rfl

omit hrun henv [∀ env e, Steady (run env e)] [∀ env e, Steady (run' env e)] in
/-- The parameter leads to the argument. -/
theorem step_param (hfound : L.vars.find? env B.param = some B.frame)
    (harg : Paired (.beta B) c L (Theory.beta B).Values (run B.env B.arg)
      (Eval.step ⟨.name, B.recursiveLet⟩ run' env' B.arg)) :
    Paired (.beta B) c L (Theory.beta B).Values
      (Eval.step ⟨.name, B.recursiveLet⟩ run env (.var B.param))
      (Eval.step ⟨.name, B.recursiveLet⟩ run' env' B.arg) := by
  intro m m' hm
  obtain ⟨-, i, y, hi, -, hb⟩ := hm.kept ⟨rfl, rfl, rfl, rfl⟩
  have hlookup : m.lookup? env B.param = some i := by
    rw [hm.left.lookup?_eq, hfound, Option.bind_some, hi]
  have hstep : Eval.step ⟨.name, B.recursiveLet⟩ run env (.var B.param) m = run B.env B.arg m := by
    simp only [Eval.step, Eval.lookup_bind_of_some hlookup, Eval.resolve, hb]
  rw [hstep]
  exact harg hm

/-- One evaluation of a `let` in the scope of the parameter. -/
theorem step_letIn {ds : List (String × Expr)} {b : Expr}
    (hlive : B.Live L env (.letIn ds b) env') :
    Paired (.beta B) c L (Theory.beta B).Values
      (Eval.step ⟨.name, B.recursiveLet⟩ run env (.letIn ds b))
      (Eval.step ⟨.name, B.recursiveLet⟩ run' env' (B.contract (.letIn ds b))) := by
  have hnames : (Expr.substDefs B.recursiveLet B.param B.arg ds).map (·.1) = ds.map (·.1) := by
    rw [Expr.substDefs_eq_map, List.map_map]
    rfl
  rw [contract, Expr.subst]
  by_cases hall : B.recursiveLet = true ∧ B.param ∈ ds.map (·.1)
  · -- the parameter is bound anew in all of it
    rw [if_pos hall, if_pos hall.2]
    refine step_plain hrun henv fun y hy => hlive.looks y hy fun heq => ?_
    rw [Expr.free, if_pos hall.1, List.mem_filter] at hy
    exact absurd hall.2 (by simpa [heq] using hy.2)
  · rw [if_neg hall]
    refine Paired.letIn hrun (hnames ▸ .refl _) ?_ ?_
    · rw [Defined, hnames, Expr.substDefs_eq_map, List.forall₂_map_right_iff]
      refine List.forall₂_same.mpr fun p hp => ⟨fun _ => rfl, ?_⟩
      have hbinders : ∀ y ∈ p.2.binders, y ∈ (Expr.letIn ds b).binders :=
        fun y hy => Expr.mem_binders_of_def hp hy
      split
      · next hr =>
        have hx : B.param ∉ ds.map (·.1) := fun hmem => hall ⟨hr, hmem⟩
        exact hlive.under henv hx (fun y hy => Expr.mem_binders_of_name hy) hbinders
          fun y hy hps => Expr.mem_free_of_def hp hy fun _ => hps
      · next hr =>
        refine ⟨henv, .inr ⟨rfl, hlive.part hbinders fun y hy => Expr.mem_free_of_def hp hy ?_⟩⟩
        exact fun h => absurd h hr
    · rw [hnames]
      have hfree : ∀ y ∈ b.free B.recursiveLet, y ∉ ds.map (·.1) →
          y ∈ (Expr.letIn ds b).free B.recursiveLet := fun y hy hps => Expr.mem_free_of_body hy hps
      split
      · next hmem =>
        refine plain_under henv fun y hy hps => hlive.looks y (hfree y hy hps) fun heq => ?_
        exact hps (heq ▸ hmem)
      · next hmem =>
        exact hlive.under henv hmem (fun y hy => Expr.mem_binders_of_name hy)
          (fun y hy => Expr.mem_binders_of_body hy) hfree

/-- **One evaluation**, given that the argument does the same in the place of the parameter. -/
theorem step (h : B.Rel L env e env' e')
    (harg : L.Has B.env env' → (∀ y ∈ B.arg.free B.recursiveLet, L.Looks B.env y env' y) →
      Paired (.beta B) c L (Theory.beta B).Values (run B.env B.arg)
        (Eval.step ⟨.name, B.recursiveLet⟩ run' env' B.arg)) :
    Paired (.beta B) c L (Theory.beta B).Values (Eval.step ⟨.name, B.recursiveLet⟩ run env e)
      (Eval.step ⟨.name, B.recursiveLet⟩ run' env' e') := by
  obtain ⟨-, ⟨rfl, hlooks⟩ | ⟨rfl, hlive⟩⟩ := h
  · exact step_plain hrun henv hlooks
  · have congr (hvar : ∀ x, e ≠ .var x) (hmap : ∀ ps b, e ≠ .map ps b)
        (hlet : e.isLet = false) (heq : B.contract e = e.onParts B.contract) :
        Paired (.beta B) c L (Theory.beta B).Values (Eval.step ⟨.name, B.recursiveLet⟩ run env e)
          (Eval.step ⟨.name, B.recursiveLet⟩ run' env' (B.contract e)) := by
      rw [heq]
      refine Paired.step hrun rfl (.onParts (fun a ha => ⟨henv, .inr ⟨rfl, hlive.part ?_ ?_⟩⟩)
        (fun x hx => absurd hx (hvar x)) (fun ps b hx => absurd hx (hmap ps b)) hlet)
        fun h => h.elim
      · exact fun y hy => Expr.mem_binders_of_mem_parts ha hy
      · exact fun y hy => Expr.mem_free_of_mem_parts ha hy
    cases e with
    | var x =>
      by_cases hx : x = B.param
      · subst hx
        rw [contract, Expr.subst, if_pos rfl]
        exact step_param hlive.found (harg ⟨hlive.home, henv.2⟩ hlive.arg)
      · rw [contract, Expr.subst, if_neg hx]
        have hlooks := hlive.looks x (by simp [Expr.free]) hx
        exact Paired.step hrun rfl (.var hlooks) fun h => h.elim
    | map ps b =>
      have hrel : (Theory.beta B).Rel L env (.map ps b) env' (B.contract (.map ps b)) :=
        ⟨henv, .inr ⟨rfl, hlive⟩⟩
      rw [contract, Expr.subst] at hrel ⊢
      exact Paired.step hrun rfl (.map hrel) fun h => h.elim
    | letIn ds b => exact step_letIn hrun henv hlive
    | app f as =>
      refine congr (by simp) (by simp) rfl ?_
      rw [contract, Expr.subst, Expr.substArgs_eq_map]
      rfl
    | _ => exact congr (by simp) (by simp) rfl rfl

end Step

/-- **What the application does, the contracted body does** with the same bound. -/
theorem forth (B : Redex) (n : Nat) {k : Nat} (hk : n ≤ k) (L : Link) :
    Paired.Runs (.beta B) .left L (Eval.eval ⟨.name, B.recursiveLet⟩ n)
      (Eval.eval ⟨.name, B.recursiveLet⟩ k) := by
  induction n generalizing k L with
  | zero =>
    intro L₁ _ env e env' e' _ m m' hm
    exact .behind rfl hm.reports (Steady.prefix_final (Eval.eval _ k env' e') m')
  | succ n ih =>
    obtain ⟨k, rfl⟩ : ∃ k', k = k' + 1 := ⟨k - 1, by omega⟩
    intro L₁ _ env e env' e' h
    refine step (ih (by omega) L₁) h.1 h fun henv hlooks => ?_
    -- the argument is one level deeper in the first run
    have harg := ih (k := k + 1) (by omega) L₁
    exact harg.apply ⟨henv, .inl ⟨rfl, hlooks⟩⟩

/-- **What the contracted body does, the application does** with twice the bound. -/
theorem back (B : Redex) (n : Nat) {k : Nat} (hk : 2 * n ≤ k) (L : Link) :
    Paired.Runs (.beta B) .right L (Eval.eval ⟨.name, B.recursiveLet⟩ k)
      (Eval.eval ⟨.name, B.recursiveLet⟩ n) := by
  induction n generalizing k L with
  | zero =>
    intro L₁ _ env e env' e' _ m m' hm
    exact .ahead rfl hm.reports (Steady.prefix_final (Eval.eval _ k env e) m)
  | succ n ih =>
    obtain ⟨k, rfl⟩ : ∃ k', k = k' + 2 := ⟨k - 2, by omega⟩
    intro L₁ _ env e env' e' h
    refine step (ih (by omega) L₁) h.1 h fun henv hlooks => ?_
    exact step_plain (ih (by omega) L₁) henv hlooks

end Redex

/-! ### The law -/

/-- The machine in which the body of a function with one parameter is evaluated. -/
def Machine.entered (m : Machine) (x : String) (a : Expr) (env : Env) : Machine :=
  ({ m with closures := m.closures + 1 }.addBinding (.name x a env)).addFrame
    (Frame.ofSlots [(x, m.bindings.size)])

/-- The application leads to the body, two levels deeper. -/
theorem eval_app_map (r : Bool) (n : Nat) (env : Env) (x : String) (b a : Expr) (m : Machine) :
    Eval.eval ⟨.name, r⟩ (n + 2) env (.app (.map [x] b) [a]) m =
      Eval.eval ⟨.name, r⟩ (n + 1) (m.frames.size :: env) b (m.entered x a env) := rfl

section Entered

variable (m : Machine) (x : String) (a : Expr) (env : Env)

theorem Machine.get?_entered :
    ((m.entered x a env).frame m.frames.size).get? x = some m.bindings.size := by
  rw [entered, frame_addFrame, if_pos (by rfl), get?_ofSlots]
  simp [lastOf?]

theorem Machine.binding_entered :
    (m.entered x a env).binding m.bindings.size = .name x a env :=
  (binding_addBinding _ _ _).trans (if_pos rfl)

variable {m} {L : Link}

/-- The frame of the argument is kept: the other machine has none for it. -/
theorem Agree.entered {T : Theory} {m' : Machine}
    (h : Agree (T.keeping fun _ _ _ _ => False) L m m')
    {kept : FrameId → String → Expr → Env → Prop}
    (hkept : ∀ {f y e η}, kept f y e η → f = m.frames.size ∧ y = x ∧ e = a ∧ η = env) :
    Agree (T.keeping kept) (L.withFrame [x]) (m.entered x a env) m' := by
  have hframe : (Frame.ofSlots [(x, m.bindings.size)]).Binds [x] := Frame.binds_ofSlots _
  refine ((h.addClosure.addBinding (.name x a env)).addFrame hframe).keeping fun hk => ?_
  obtain ⟨rfl, rfl, rfl, rfl⟩ := hkept hk
  refine ⟨fun f' x' hs => ?_, _, _, m.get?_entered _ _ _, fun i' hi => ?_, m.binding_entered _ _ _⟩
  · exact Nat.lt_irrefl _ (h.left.size ▸ (h.lt_of_slots hs).1)
  · exact Nat.lt_irrefl _ (h.bindings hi).1

/-- The body is in the scope of the parameter. -/
theorem Redex.rel_entered (r : Bool) {b : Expr} (havoid : ∀ y ∈ b.binders, y ∉ a.free r)
    (henv : L.Twins env env) :
    let B : Redex := ⟨r, x, a, env, L.vars.length⟩
    B.Rel (L.withFrame [x]) (L.vars.length :: env) b env (B.contract b) := by
  intro B
  have hle := (L.grows_withFrame [x]).le
  have hnames : (L.withFrame [x]).vars.names L.vars.length = [x] := by
    rw [Link.withFrame, Layout.names_append, if_pos rfl]
  have hlooks : ∀ y, (L.withFrame [x]).Looks env y env y :=
    fun y => (henv.looks y).mono hle henv.has
  have hhas := henv.has.mono hle
  refine ⟨⟨List.forall_mem_cons.mpr ⟨by simp [Link.withFrame], hhas.1⟩, hhas.2⟩,
    .inr ⟨rfl, hhas.1, ?_, havoid, fun y _ hne => ?_, fun y _ => hlooks y⟩⟩
  · refine Layout.find?_cons_of_mem ?_
    rw [hnames]
    exact List.mem_singleton_self x
  · rw [Link.Looks, Layout.find?_cons_of_not_mem]
    · exact hlooks y
    · rw [hnames]
      exact List.not_mem_cons_of_ne_of_not_mem hne List.not_mem_nil

end Entered

/-- **The machine of the body agrees with the one that the application began with.** -/
theorem Machine.Known.entered {m : Machine} {env : Env} (h : m.Known env) (r : Bool) (x : String)
    {b a : Expr} (havoid : ∀ y ∈ b.binders, y ∉ a.free r) :
    let B : Redex := ⟨r, x, a, env, m.frames.size⟩
    ∃ L, Agree (.beta B) L (m.entered x a env) m ∧
      B.Rel L (m.frames.size :: env) b env (B.contract b) := by
  intro B
  obtain ⟨L, m', env', hm, henv⟩ := h
  have hrel : ∀ {η e}, L.square.Twins η η → B.Rel L.square η e η e :=
    fun hη => ⟨hη.has, .inl ⟨rfl, fun y _ => hη.looks y⟩⟩
  have hsquare : Agree ((Theory.beta B).keeping fun _ _ _ _ => False) L.square m m :=
    hm.square hrel fun _ _ _ _ h => h
  have hsize : m.frames.size = L.square.vars.length := hm.left.size
  refine ⟨L.square.withFrame [x], hsquare.entered x a env fun hk => hk, ?_⟩
  have hbody := Redex.rel_entered x a env r havoid henv.square
  rwa [← hsize] at hbody

/-! ### Outcomes -/

theorem View.byParams_symm {v v' : Value} (h : View.byParams.Values v v') :
    View.byParams.Values v' v :=
  h.flip.mono fun hc => ⟨hc.1.symm, fun h => h.elim⟩

/-- **The second run keeps up with the first.** If the first one ends, the second ends alike: with a
value that is the same but for closures, which have the same parameters, or with an error of the
same kind; and one by one the values that they have reported are the same in this sense too. If the
first one hits the bound on nested evaluations, the second has made the same reports, and may be
more. -/
inductive KeepsUp : EStateM.Result Stop Machine Value → EStateM.Result Stop Machine Value → Prop
  | ok {v v' : Value} {m m' : Machine} : v.Like (fun _ ps _ _ _ ps' _ _ => ps = ps') v' →
      View.byParams.Echoes m m' → KeepsUp (.ok v m) (.ok v' m')
  | error {e e' : EvalError} {m m' : Machine} : e.kind = e'.kind → View.byParams.Echoes m m' →
      KeepsUp (.error (.error e) m) (.error (.error e') m')
  | bound {m : Machine} {r : EStateM.Result Stop Machine Value} {t : List Value} :
      List.Forall₂ View.byParams.Values m.reports.toList t → t <+: (Eval.final r).reports.toList →
      KeepsUp (.error .tooDeep m) r

/-- **The runs have the same outcome**, seen as runs under every bound: either one keeps up with the
other if its bound is high enough, and both never end if one of them does not. -/
structure SameOutcomes (x x' : Nat → EStateM.Result Stop Machine Value) : Prop where
  forth : ∀ n, ∃ n', ∀ k ≥ n', KeepsUp (x n) (x' k)
  back : ∀ n, ∃ n', ∀ k ≥ n', KeepsUp (x' n) (x k)
  never : (∀ n, Eval.ending (x n) = .error .tooDeep) ↔ ∀ n, Eval.ending (x' n) = .error .tooDeep

namespace KeepsUp

variable {r r' : EStateM.Result Stop Machine Value}

theorem tooDeep (h : KeepsUp r r') (hr : Eval.ending r' = .error .tooDeep) :
    Eval.ending r = .error .tooDeep := by
  cases h with
  | ok _ _ => cases hr
  | error _ _ => cases hr
  | bound _ _ => rfl

section Theory

variable {T : Theory} (hT : T.view = .byParams) {L : Link}

include hT

/-- The second run keeps up with a first one that may fall behind. -/
theorem of_behind (h : Ending T .left L (fun L _ => T.Values L) r r') : KeepsUp r r' := by
  have echoes : ∀ {l l' : List Value}, List.Forall₂ T.view.Values l l' →
      List.Forall₂ View.byParams.Values l l' := fun h => hT ▸ h
  cases h with
  | ok _ hm hv =>
    have hlike := hm.fits.like hv
    rw [hT] at hlike
    exact .ok (hlike.mono fun hc => hc.1) (echoes hm.reports)
  | error _ hm he => exact .error he.1 (echoes hm.reports)
  | deep _ hm => exact .bound (echoes hm.reports) (List.prefix_refl _)
  | behind _ ht hp => exact .bound (echoes ht) hp
  | ahead hc _ _ => cases hc

/-- The first run keeps up with a second one that may fall behind. -/
theorem of_ahead (h : Ending T .right L (fun L _ => T.Values L) r r') : KeepsUp r' r := by
  have flip : ∀ {l l' : List Value}, List.Forall₂ T.view.Values l l' →
      List.Forall₂ View.byParams.Values l' l :=
    fun h => (hT ▸ h).flip.imp fun _ _ => View.byParams_symm
  cases h with
  | ok _ hm hv =>
    have hlike := hm.fits.like hv
    rw [hT] at hlike
    exact .ok (hlike.flip.mono fun hc => hc.1.symm) (flip hm.reports)
  | error _ hm he => exact .error he.1.symm (flip hm.reports)
  | deep _ hm => exact .bound (flip hm.reports) (List.prefix_refl _)
  | behind hc _ _ => cases hc
  | ahead _ ht hp => exact .bound (flip ht) hp

end Theory

theorem of_left {B : Redex} {L : Link}
    (h : Ending (.beta B) .left L (fun L _ => (Theory.beta B).Values L) r r') : KeepsUp r r' :=
  of_behind rfl h

theorem of_right {B : Redex} {L : Link}
    (h : Ending (.beta B) .right L (fun L _ => (Theory.beta B).Values L) r r') : KeepsUp r' r :=
  of_ahead rfl h

end KeepsUp

theorem SameOutcomes.of_keepsUp {x x' : Nat → EStateM.Result Stop Machine Value}
    (forth : ∀ n, ∃ n', ∀ k ≥ n', KeepsUp (x n) (x' k))
    (back : ∀ n, ∃ n', ∀ k ≥ n', KeepsUp (x' n) (x k)) : SameOutcomes x x' := by
  refine ⟨forth, back, fun h n => ?_, fun h n => ?_⟩
  · obtain ⟨n', hn⟩ := back n
    exact (hn n' (Nat.le_refl n')).tooDeep (h n')
  · obtain ⟨n', hn⟩ := forth n
    exact (hn n' (Nat.le_refl n')).tooDeep (h n')

open Eval

/-- **Call by name is substitution.** Let `m` be the machine at some moment of a run by name, and
`env` an environment of frames that the evaluator at work can reach. If no variable bound in the
body is free in the argument, then under either rule for definitions the application of a function
of one parameter has the same outcome as the evaluation of its body with the argument in the place
of the parameter. -/
theorem beta_law {r₀ : Bool} {n₀ : Nat} {p : Expr} {env₀ env : Env} {m : Machine}
    (hpass : Passes ⟨.name, r₀⟩ n₀ p env₀ m) (hreach : ∀ f ∈ env, m.Reaches env₀ (.frame f))
    (r : Bool) (x : String) {b a : Expr} (havoid : ∀ y ∈ b.binders, y ∉ a.free r) :
    SameOutcomes (fun n => eval ⟨.name, r⟩ n env (.app (.map [x] b) [a]) m)
      (fun n => eval ⟨.name, r⟩ n env (.subst r x a b) m) := by
  obtain ⟨L, hm, hrel⟩ := ((known_of_passes hpass).reaches hreach).entered r x havoid
  refine .of_keepsUp (fun n => ⟨n, fun k hk => ?_⟩) fun n => ⟨2 * n + 2, fun k hk => ?_⟩
  · -- the application takes two levels to come to the body
    have hshort : ∀ k, KeepsUp (.error .tooDeep m) (eval ⟨.name, r⟩ k env (.subst r x a b) m) :=
      fun k => .bound (View.Echoes.refl _ m) (Steady.prefix_final (eval _ k _ _) m)
    match n with
    | 0 => exact hshort k
    | 1 => exact hshort k
    | n + 2 =>
      rw [eval_app_map]
      exact .of_left ((Redex.forth _ (n + 1) (by omega) L).apply hrel hm)
  · obtain ⟨k, rfl⟩ : ∃ j, k = j + 2 := ⟨k - 2, by omega⟩
    rw [eval_app_map]
    exact .of_right ((Redex.back _ n (by omega) L).apply hrel hm)

/-- A variable that is reported for every use. -/
def ticking : Expr := .letIn [("y", .app (.prim .tick) [.int 3])] (.var "y")

/-- The machine at the moment when the body begins. -/
def tickingBody : Machine where
  frames := #[⟨[]⟩, ⟨[("y", 0)]⟩]
  bindings := #[.name "y" (.app (.prim .tick) [.int 3]) [0]]

/-- A body that uses `x` twice, once in a function of its own. -/
def twofold : Expr :=
  .letIn [("f", .map ["z"] (.binary "+" (.var "x") (.var "z")))] (.app (.var "f") [.var "x"])

/-- The argument is reported twice, and so it is if it stands in the place of `x`. -/
theorem beta_law_twofold :
    Passes ⟨.name, false⟩ 9 ticking [1, 0] tickingBody ∧
      (∀ f ∈ [1, 0], tickingBody.Reaches [1, 0] (.frame f)) ∧
      (∀ y ∈ twofold.binders, y ∉ (Expr.var "y").free true) ∧
      SameOutcomes
        (fun n => eval ⟨.name, true⟩ n [1, 0] (.app (.map ["x"] twofold) [.var "y"]) tickingBody)
        (fun n => eval ⟨.name, true⟩ n [1, 0] (.subst true "x" (.var "y") twofold) tickingBody) ∧
      Expr.subst true "x" (.var "y") twofold = .letIn [("f", .map ["z"]
        (.binary "+" (.var "y") (.var "z")))] (.app (.var "f") [.var "y"]) ∧
      (leaves (eval ⟨.name, true⟩ 9 [1, 0] (.app (.map ["x"] twofold) [.var "y"]))
        tickingBody).trace = #["3", "3"] := by
  have hpass : Passes ⟨.name, false⟩ 9 ticking [1, 0] tickingBody := by
    intro alarm
    rfl
  have havoid : ∀ y ∈ twofold.binders, y ∉ (Expr.var "y").free true := by decide
  have hreach : ∀ f ∈ [1, 0], tickingBody.Reaches [1, 0] (.frame f) := fun f hf => .env hf
  exact ⟨hpass, hreach, havoid, beta_law hpass hreach true "x" havoid, by decide +kernel,
    by decide +kernel⟩

end CallBy
