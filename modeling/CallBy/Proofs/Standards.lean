import CallBy.Proofs.Operations
import CallBy.Proofs.Watch

/-!
What everything in a machine has to meet.

A `Standard` says which expressions there may be in a machine, whether its lists have to be proper,
and whether it may have shared bindings. With a standard goes the list of what the frames extend
(`Links`): the environments that are held anywhere in the machine are chains along these links.

* `Machine.Meets S w m`: all that the machine holds meets the standard, with the links `w`;
* `Upholds S w P x`: from a machine that meets the standard the computation leaves one that does,
  with the old links and maybe more, however it ends. Its result is as `P` says, and an error is one
  that the standard admits;
* `upholds_overseen`, `upholds_watched`: evaluation upholds every standard, under a watch too.
-/

namespace CallBy

/-! ### Links -/

/-- What the frames of a machine extend, by their addresses. -/
abbrev Links := List Env

namespace Links

variable {w w' : Links} {env : Env}

/-- Every frame of the environment extends what comes after it. -/
def Chains (w : Links) : Env → Prop
  | [] => True
  | f :: env => w[f]? = some env ∧ w.Chains env

theorem Chains.mono (hw : w <+: w') (h : w.Chains env) : w'.Chains env := by
  induction env with
  | nil => trivial
  | cons f env ih => exact ⟨World.getElem?_of_prefix hw h.1, ih h.2⟩

/-- A new frame in front of an environment. -/
theorem Chains.extend (h : w.Chains env) : Chains (w ++ [env]) (w.length :: env) :=
  ⟨by simp, h.mono (List.prefix_append _ _)⟩

end Links

/-! ### Standards -/

/-- The expressions that an expression is made of. -/
def Expr.children : Expr → List Expr
  | .unary _ a => [a]
  | .binary _ l r => [l, r]
  | .ite t c a => [t, c, a]
  | .map _ b => [b]
  | .app f as => f :: as
  | .letIn ds b => b :: ds.map (·.2)
  | .int _ | .bool _ | .null | .prim _ | .var _ | .datum _ _ => []

/-- **What may be in a machine.** -/
structure Standard where
  /-- The expressions that there may be. -/
  expr : Expr → Prop
  /-- The rest of every pair is a list. -/
  proper : Prop
  /-- There may be shared bindings. -/
  shared : Prop
  children : ∀ {e a : Expr}, expr e → a ∈ e.children → expr a

section Meets

variable (S : Standard) (w : Links)

/-- The value is made as the standard says. -/
def Value.Meets : Value → Prop
  | .cons a r => a.Meets ∧ r.Meets ∧ (S.proper → r.isList = true)
  | .closure _ _ b env => S.expr b ∧ w.Chains env
  | _ => True

/-- What the binding holds is as the standard says. -/
def Binding.Meets : Binding → Prop
  | .undefined _ => True
  | .value _ v => v.Meets S w
  | .name _ e env => S.expr e ∧ w.Chains env
  | .need _ (.pending e env) | .need _ (.running e env) => S.shared ∧ S.expr e ∧ w.Chains env
  | .need _ (.done v) => S.shared ∧ v.Meets S w

/-- **The machine meets the standard**, with a link for every frame. -/
structure Machine.Meets (m : Machine) : Prop where
  links : m.frames.size = w.length
  contents : ∀ i, (m.binding i).Meets S w

/-- The ways to stop without a value that the standard leaves: unknown operators and data have to be
in some expression, and a self reference in a shared binding. -/
def Standard.Admits : Stop → Prop
  | .error (.unknownUnary op) => UnaryOp.ofSymbol? op = none ∧ ∃ a, S.expr (.unary op a)
  | .error (.unknownBinary op) => precedence? op = none ∧ ∃ l r, S.expr (.binary op l r)
  | .error (.notExpression s) => ∃ t, S.expr (.datum t s)
  | .error (.selfReference _ _) => S.shared
  | .error (.miscall _ _) => False
  | _ => True

end Meets

section Mono

variable {S : Standard} {w w' : Links} (hw : w <+: w')

include hw

theorem Value.Meets.mono {v : Value} (h : v.Meets S w) : v.Meets S w' := by
  induction v with
  | cons a r iha ihr => exact ⟨iha h.1, ihr h.2.1, h.2.2⟩
  | closure i ps b env => exact ⟨h.1, h.2.mono hw⟩
  | _ => trivial

theorem Binding.Meets.mono {b : Binding} (h : b.Meets S w) : b.Meets S w' := by
  cases b with
  | undefined x => trivial
  | value x v => exact Value.Meets.mono hw h
  | name x e env => exact ⟨h.1, h.2.mono hw⟩
  | need x memo =>
    cases memo with
    | pending e env | running e env => exact ⟨h.1, h.2.1, h.2.2.mono hw⟩
    | done v => exact ⟨h.1, h.2.mono hw⟩

end Mono

namespace Machine.Meets

variable {S : Standard} {w : Links} {m : Machine}

/-- The machine with nothing but an empty frame, which extends nothing. -/
theorem start (S : Standard) : (Machine.initial.addFrame Frame.empty).Meets S [[]] :=
  ⟨rfl, fun _ => trivial⟩

/-- Only the number of frames and the bindings matter. -/
theorem congr (h : m.Meets S w) {m' : Machine} (hf : m'.frames.size = m.frames.size)
    (hb : m'.bindings = m.bindings) : m'.Meets S w := by
  refine ⟨hf.trans h.links, fun i => ?_⟩
  rw [binding, hb]
  exact h.contents i

theorem addBinding (h : m.Meets S w) {b : Binding} (hb : b.Meets S w) :
    (m.addBinding b).Meets S w := by
  refine ⟨h.links, fun i => ?_⟩
  rw [binding_addBinding]
  split
  · exact hb
  · exact h.contents i

theorem addFrame (h : m.Meets S w) (F : Frame) (env : Env) :
    (m.addFrame F).Meets S (w ++ [env]) :=
  ⟨by simp [h.links], fun i => (h.contents i).mono (List.prefix_append _ _)⟩

theorem setBinding (h : m.Meets S w) (i : BindingId) {b : Binding} (hb : b.Meets S w) :
    (m.setBinding i b).Meets S w := by
  refine ⟨h.links, fun j => ?_⟩
  by_cases hij : i = j
  · subst hij
    by_cases hi : i < m.bindings.size
    · rw [binding_setBinding_self m b hi]
      exact hb
    · have hout : (m.setBinding i b).binding i = .undefined "" := by
        simp [binding, Machine.setBinding, hi]
      rw [hout]
      trivial
  · rw [binding_setBinding_of_ne m b hij]
    exact h.contents j

end Machine.Meets

/-! ### Operations on values -/

/-- The operation gives a result as asked for, or an error that the standard admits. -/
def Standard.Gives (S : Standard) {α : Type} (P : α → Prop) : Except EvalError α → Prop
  | .ok a => P a
  | .error e => S.Admits (.error e)

namespace Standard.Gives

variable {S : Standard} {w : Links} {α β : Type} {v : Value}

theorem bind {P : α → Prop} {Q : β → Prop} {x : Except EvalError α} {f : α → Except EvalError β}
    (h : S.Gives P x) (hf : ∀ a, P a → S.Gives Q (f a)) : S.Gives Q (x >>= f) := by
  cases x with
  | ok a => exact hf a h
  | error e => exact h

theorem asInt (op : String) (v : Value) : S.Gives (fun _ => True) (v.asInt op) := by
  cases v <;> trivial

theorem asBool (op : String) (v : Value) : S.Gives (fun _ => True) (v.asBool op) := by
  cases v <;> trivial

theorem applyUnary {op : String} {a : Expr} (he : S.expr (.unary op a)) (v : Value) :
    S.Gives (Value.Meets S w) (applyUnary op v) := by
  unfold CallBy.applyUnary
  cases hop : UnaryOp.ofSymbol? op with
  | none => exact ⟨hop, a, he⟩
  | some op =>
    cases op with
    | plus | minus => exact (asInt _ v).bind fun _ _ => trivial
    | not => exact (asBool _ v).bind fun _ _ => trivial

theorem onInts (op : BinaryOp) (a b : Value) {f : Int → Int → Except EvalError Value}
    (hf : ∀ i j, S.Gives (Value.Meets S w) (f i j)) :
    S.Gives (Value.Meets S w) (op.onInts a b f) := by
  refine (asInt _ a).bind fun i _ => ?_
  exact (asInt _ b).bind fun j _ => hf i j

theorem applyBinary {op : String} {l r : Expr} (he : S.expr (.binary op l r))
    (hop : Connective.ofSymbol? op = none) (a b : Value) :
    S.Gives (Value.Meets S w) (applyBinary op a b) := by
  unfold CallBy.applyBinary
  cases hbin : BinaryOp.ofSymbol? op with
  | none =>
    have hnone := isSome_precedence? op
    rw [hop, hbin] at hnone
    exact ⟨by simpa using hnone, l, r, he⟩
  | some op =>
    cases op with
    | eq | ne => exact trivial
    | div =>
      refine onInts .div a b fun i j => ?_
      split <;> trivial
    | _ => exact onInts _ a b fun i j => trivial

theorem call_one {p : Prim} (hp : p.argCount = 1) (hv : v.Meets S w) :
    S.Gives (Value.Meets S w) (p.call [v]) := by
  cases p with
  | cons => cases hp
  | tick => exact hv
  | arity => cases v <;> trivial
  | first =>
    cases v with
    | cons a r => exact hv.1
    | _ => trivial
  | rest =>
    cases v with
    | cons a r => exact hv.2.1
    | _ => trivial
  | _ => trivial

/-- **A primitive makes what it gives of what it is given**, and a pair only with a list. -/
theorem call {p : Prim} {vs : List Value} (hlen : vs.length = p.argCount)
    (hvs : ∀ v ∈ vs, v.Meets S w) : S.Gives (Value.Meets S w) (p.call vs) := by
  match vs, hlen with
  | [], hlen => cases p <;> cases hlen
  | [v], hlen => exact call_one hlen.symm (hvs v List.mem_cons_self)
  | [a, r], hlen =>
    cases p with
    | cons =>
      simp only [Prim.call]
      split
      · next hr => exact ⟨hvs a (by simp), hvs r (by simp), fun _ => hr⟩
      · trivial
    | _ => cases hlen
  | _ :: _ :: _ :: _, hlen => cases p <;> cases hlen

end Standard.Gives

/-! ### Computations -/

/-- How a computation may end that upholds a standard. -/
inductive Upheld (S : Standard) (w : Links) {α : Type} (P : Links → α → Prop) :
    EStateM.Result Stop Machine α → Prop
  | ok {a : α} {m : Machine} {w' : Links} : w <+: w' → m.Meets S w' → P w' a →
      Upheld S w P (.ok a m)
  | error {s : Stop} {m : Machine} {w' : Links} : w <+: w' → m.Meets S w' → S.Admits s →
      Upheld S w P (.error s m)

/-- **The computation upholds the standard**, with a result as `P` says. -/
def Upholds (S : Standard) (w : Links) {α : Type} (P : Links → α → Prop) (x : Eval α) : Prop :=
  ∀ m, m.Meets S w → Upheld S w P (x m)

namespace Upholds

variable {S : Standard} {w : Links} {α β : Type} {P : Links → α → Prop} {Q : Links → β → Prop}

theorem bind {x : Eval α} {f : α → Eval β} (h : Upholds S w P x)
    (hf : ∀ w' a, w <+: w' → P w' a → Upholds S w' Q (f a)) : Upholds S w Q (x >>= f) := by
  intro m hm
  match hx : x m, h m hm with
  | .ok a m₁, .ok hw hm₁ ha =>
    rw [Eval.bind_of_ok hx]
    match f a m₁, hf _ a hw ha m₁ hm₁ with
    | _, .ok hw₁ hm₂ hb => exact .ok (hw.trans hw₁) hm₂ hb
    | _, .error hw₁ hm₂ hs => exact .error (hw.trans hw₁) hm₂ hs
  | .error s m₁, .error hw hm₁ hs =>
    rw [Eval.bind_of_error hx]
    exact .error hw hm₁ hs

theorem pure {a : α} (h : P w a) : Upholds S w P (Pure.pure a) :=
  fun _ hm => .ok (List.prefix_refl w) hm h

theorem stop {s : Stop} (h : S.Admits s) : Upholds S w P (throw s) :=
  fun _ hm => .error (List.prefix_refl w) hm h

theorem fail {e : EvalError} (h : S.Admits (.error e)) : Upholds S w P (Eval.fail e) := stop h

theorem lift {r : Except EvalError α} (h : S.Gives (P w) r) : Upholds S w P (Eval.lift r) := by
  cases r with
  | ok a => exact pure h
  | error e => exact fail h

theorem newBinding {b : Binding} (hb : b.Meets S w) :
    Upholds S w (fun _ _ => True) (Eval.newBinding b) :=
  fun _ hm => .ok (List.prefix_refl w) (hm.addBinding hb) trivial

theorem newFrame (F : Frame) {env : Env} (henv : w.Chains env) :
    Upholds S w (fun w' f => w'.Chains (f :: env)) (Eval.newFrame F) := by
  intro m hm
  refine .ok (List.prefix_append w [env]) (hm.addFrame F env) ?_
  rw [hm.links]
  exact henv.extend

theorem setSlot (f : FrameId) (x : String) (i : BindingId) :
    Upholds S w (fun _ _ => True) (Eval.setSlot f x i) :=
  fun _ hm => .ok (List.prefix_refl w) (hm.congr (by simp) rfl) trivial

theorem lookup (env : Env) (x : String) : Upholds S w (fun _ _ => True) (Eval.lookup env x) := by
  intro m hm
  unfold Eval.lookup
  split
  · exact .ok (List.prefix_refl w) hm trivial
  · exact .error (List.prefix_refl w) hm trivial

theorem callPrim {p : Prim} {vs : List Value} (hlen : vs.length = p.argCount)
    (hvs : ∀ v ∈ vs, v.Meets S w) :
    Upholds S w (fun w' => Value.Meets S w') (Eval.callPrim p vs) := by
  by_cases ht : ∃ v, p = .tick ∧ vs = [v]
  · obtain ⟨v, rfl, rfl⟩ := ht
    exact fun m hm => .ok (List.prefix_refl w) (hm.congr rfl rfl) (hvs v List.mem_cons_self)
  · rw [Eval.callPrim_eq_lift fun v hv => ht ⟨v, hv⟩]
    exact lift (P := fun w' => Value.Meets S w') (.call hlen hvs)

theorem reserve (ds : List (String × Expr)) :
    Upholds S w (fun _ _ => True) (Eval.reserve ds) := by
  induction ds generalizing w with
  | nil => exact pure trivial
  | cons p ds ih =>
    refine bind (newBinding (b := .undefined p.1) trivial) fun w₁ i _ _ => ?_
    exact bind ih fun w₂ later _ _ => pure trivial

/-! ### Evaluation in terms of the evaluation of parts -/

/-- Nested evaluations uphold the standard. -/
def Runs (S : Standard) (run : Env → Expr → Eval Value) : Prop :=
  ∀ ⦃w : Links⦄ ⦃env : Env⦄ ⦃e : Expr⦄, S.expr e → w.Chains env →
    Upholds S w (fun w' => Value.Meets S w') (run env e)

section Step

variable {run : Env → Expr → Eval Value} (hrun : Runs S run) {env : Env}

include hrun

theorem force {i : BindingId} {x : String} {e : Expr}
    (h : Binding.Meets S w (.need x (.pending e env))) :
    Upholds S w (fun w' => Value.Meets S w') (Eval.force run i x e env) := by
  intro m hm
  have hbegin : (m.setBinding i (.need x (.running e env))).Meets S w := hm.setBinding i h
  match hx : run env e _, hrun h.2.1 h.2.2 _ hbegin with
  | .ok v m₁, .ok hw hm₁ hv =>
    rw [Eval.force_of_ok hx]
    exact .ok hw (hm₁.setBinding (b := .need x (.done v)) i ⟨h.1, hv⟩) hv
  | .error s m₁, .error hw hm₁ hs =>
    rw [Eval.force_of_error hx]
    exact .error hw (hm₁.setBinding i (h.mono hw)) hs

theorem resolve (i : BindingId) :
    Upholds S w (fun w' => Value.Meets S w') (Eval.resolve run i) := by
  intro m hm
  have hb := hm.contents i
  unfold Eval.resolve
  generalize m.binding i = b at hb
  cases b with
  | undefined x => exact .error (List.prefix_refl w) hm trivial
  | value x v => exact .ok (List.prefix_refl w) hm hb
  | name x e env => exact hrun hb.1 hb.2 m hm
  | need x memo =>
    cases memo with
    | pending e env => exact force hrun hb m hm
    | running e env => exact .error (List.prefix_refl w) hm hb.1
    | done v => exact .ok (List.prefix_refl w) hm hb.2

section Bind

variable {d : Discipline} (hd : d.strategy = .need → S.shared) (henv : w.Chains env)

include hd henv

theorem bindVar (x : String) {e : Expr} (he : S.expr e) :
    Upholds S w (fun _ _ => True) (Eval.bindVar d run env x e) := by
  unfold Eval.bindVar
  cases hs : d.strategy with
  | value => exact bind (hrun he henv) fun w₁ v _ hv => newBinding hv
  | name => exact newBinding (b := .name x e env) ⟨he, henv⟩
  | need => exact newBinding (b := .need x (.pending e env)) ⟨hd hs, he, henv⟩

theorem bindAll {ds : List (String × Expr)} (hds : ∀ p ∈ ds, S.expr p.2) :
    Upholds S w (fun _ _ => True) (Eval.bindAll d run env ds) := by
  induction ds generalizing w with
  | nil => exact pure trivial
  | cons p ds ih =>
    obtain ⟨hp, hds⟩ := List.forall_mem_cons.mp hds
    refine bind (bindVar hrun hd henv p.1 hp) fun w₁ i hw₁ _ => ?_
    exact bind (ih (henv.mono hw₁) hds) fun w₂ later _ _ => pure trivial

theorem fill (f : FrameId) {ds : List (String × Expr)} (hds : ∀ p ∈ ds, S.expr p.2) :
    Upholds S w (fun _ _ => True) (Eval.fill d run f env ds) := by
  induction ds generalizing w with
  | nil => exact pure trivial
  | cons p ds ih =>
    obtain ⟨hp, hds⟩ := List.forall_mem_cons.mp hds
    refine bind (bindVar hrun hd henv p.1 hp) fun w₁ i hw₁ _ => ?_
    refine bind (setSlot f p.1 i) fun w₂ _ hw₂ _ => ?_
    exact ih (henv.mono (hw₁.trans hw₂)) hds

theorem define {ds : List (String × Expr)} (hds : ∀ p ∈ ds, S.expr p.2) :
    Upholds S w Links.Chains (Eval.define d run env ds) := by
  unfold Eval.define
  split
  · refine bind (reserve ds) fun w₁ slots hw₁ _ => ?_
    refine bind (newFrame _ (henv.mono hw₁)) fun w₂ f _ hf => ?_
    exact bind (fill hrun hd hf f hds) fun w₃ _ hw₃ _ => pure (hf.mono hw₃)
  · refine bind (bindAll hrun hd henv hds) fun w₁ slots hw₁ _ => ?_
    exact bind (newFrame _ (henv.mono hw₁)) fun w₂ f _ hf => pure hf

end Bind

/-- Arguments give as many values. -/
theorem evalAll (henv : w.Chains env) {es : List Expr} (hes : ∀ e ∈ es, S.expr e) :
    Upholds S w (fun w' vs => vs.length = es.length ∧ ∀ v ∈ vs, v.Meets S w')
      (Eval.evalAll run env es) := by
  induction es generalizing w with
  | nil => exact pure ⟨rfl, nofun⟩
  | cons e es ih =>
    obtain ⟨he, hes⟩ := List.forall_mem_cons.mp hes
    refine bind (hrun he henv) fun w₁ v hw₁ hv => ?_
    refine bind (ih (henv.mono hw₁) hes) fun w₂ vs hw₂ hvs => ?_
    exact pure ⟨by simp [hvs.1], List.forall_mem_cons.mpr ⟨hv.mono hw₂, hvs.2⟩⟩

theorem apply {d : Discipline} (hd : d.strategy = .need → S.shared) (henv : w.Chains env)
    {v : Value} (hv : v.Meets S w) {as : List Expr} (has : ∀ a ∈ as, S.expr a) :
    Upholds S w (fun w' => Value.Meets S w') (Eval.apply d run env v as) := by
  unfold Eval.apply
  split
  · next i ps b captured =>
    split
    · have hds : ∀ p ∈ ps.zip as, S.expr p.2 := fun p hp => has p.2 (List.of_mem_zip hp).2
      refine bind (bindAll hrun hd henv hds) fun w₁ slots hw₁ _ => ?_
      exact bind (newFrame _ (hv.2.mono hw₁)) fun w₂ f _ hf => hrun hv.1 hf
    · exact fail trivial
  · split
    · next hlen =>
      refine bind (evalAll hrun henv has) fun w₁ vs _ hvs => ?_
      exact callPrim (hvs.1.trans hlen) hvs.2
    · exact fail trivial
  · exact fail trivial

theorem connect (henv : w.Chains env) (c : Connective) {l r : Expr} (hl : S.expr l)
    (hr : S.expr r) :
    Upholds S w (fun w' => Value.Meets S w') (Eval.connect run c env l r) := by
  unfold Eval.connect
  refine bind (hrun hl henv) fun w₁ a hw₁ _ => ?_
  refine bind (lift (P := fun _ _ => True) (.asBool _ a)) fun w₂ b hw₂ _ => ?_
  split
  · exact pure trivial
  · refine bind (hrun hr (henv.mono (hw₁.trans hw₂))) fun w₃ c _ _ => ?_
    exact bind (lift (P := fun _ _ => True) (.asBool _ c)) fun w₄ t _ _ => pure trivial

theorem branch (henv : w.Chains env) {t c a : Expr} (ht : S.expr t) (hc : S.expr c)
    (ha : S.expr a) :
    Upholds S w (fun w' => Value.Meets S w') (Eval.branch run env t c a) := by
  unfold Eval.branch
  refine bind (hrun ht henv) fun w₁ v hw₁ _ => ?_
  split
  · exact hrun hc (henv.mono hw₁)
  · exact hrun ha (henv.mono hw₁)
  · exact fail trivial

/-- **One evaluation upholds what its parts uphold.** -/
theorem step {d : Discipline} (hd : d.strategy = .need → S.shared) (henv : w.Chains env)
    {e : Expr} (he : S.expr e) :
    Upholds S w (fun w' => Value.Meets S w') (Eval.step d run env e) := by
  have part : ∀ {a : Expr}, a ∈ e.children → S.expr a := fun ha => S.children he ha
  cases e with
  | int | bool | null | prim => exact pure trivial
  | var x => exact bind (lookup env x) fun w₁ i _ _ => resolve hrun i
  | unary op a =>
    refine bind (hrun (part (by simp [Expr.children])) henv) fun w₁ v _ _ => ?_
    exact lift (P := fun w' => Value.Meets S w') (.applyUnary he v)
  | binary op l r =>
    have hl : S.expr l := part (by simp [Expr.children])
    have hr : S.expr r := part (by simp [Expr.children])
    simp only [Eval.step]
    split
    · exact connect hrun henv _ hl hr
    · next hop =>
      refine bind (hrun hl henv) fun w₁ a hw₁ _ => ?_
      refine bind (hrun hr (henv.mono hw₁)) fun w₂ b _ _ => ?_
      exact lift (P := fun w' => Value.Meets S w') (.applyBinary he hop a b)
  | ite t c a =>
    refine branch hrun henv (part ?_) (part ?_) (part ?_)
    all_goals simp [Expr.children]
  | map ps b =>
    have hb : S.expr b := part (by simp [Expr.children])
    exact fun m hm => .ok (List.prefix_refl w) (hm.congr rfl rfl) ⟨hb, henv⟩
  | app f as =>
    have has : ∀ a ∈ as, S.expr a := fun a ha => part (List.mem_cons_of_mem f ha)
    refine bind (hrun (part List.mem_cons_self) henv) fun w₁ v hw₁ hv => ?_
    exact apply hrun hd (henv.mono hw₁) hv has
  | letIn ds b =>
    have hds : ∀ p ∈ ds, S.expr p.2 := fun p hp =>
      part (List.mem_cons_of_mem b (List.mem_map_of_mem hp))
    refine bind (define hrun hd henv hds) fun w₁ env' _ henv' => ?_
    exact hrun (part List.mem_cons_self) henv'
  | datum t s => exact fail ⟨t, he⟩

end Step

end Upholds

/-! ### Runs -/

section Runs

variable {S : Standard} {d : Discipline} {alarm : Stop}

/-- **Evaluation upholds the standard**, also under a watch that objects to no call of a primitive
with as many values as it takes, all of which meet the standard. -/
theorem upholds_overseen (hd : d.strategy = .need → S.shared) {watch : Prim → List Value → Bool}
    (hwatch : ∀ p vs w, vs.length = p.argCount → (∀ v ∈ vs, v.Meets S w) → watch p vs = false)
    (n : Nat) : Upholds.Runs S (Eval.overseen watch alarm d n) := by
  induction n with
  | zero => exact fun w env e _ _ => .stop trivial
  | succ n ih =>
    intro w env e he henv
    cases e with
    | app f as =>
      have has : ∀ a ∈ as, S.expr a := fun a ha => S.children he (List.mem_cons_of_mem f ha)
      refine .bind (ih (S.children he List.mem_cons_self) henv) fun w₁ v hw₁ hv => ?_
      have henv₁ := henv.mono hw₁
      cases v with
      | prim p =>
        simp only [Eval.overseenApply]
        split
        · next hlen =>
          refine .bind (.evalAll ih henv₁ has) fun w₂ vs _ hvs => ?_
          have hcount := hvs.1.trans hlen
          have hquiet : Eval.oversee watch alarm p vs = pure () := by
            funext m
            rw [Eval.oversee, hwatch p vs w₂ hcount hvs.2]
            rfl
          rw [hquiet, pure_bind]
          exact .callPrim hcount hvs.2
        · exact .fail trivial
      | _ => exact .apply ih hd henv₁ hv has
    | _ => exact .step ih hd henv he

/-- **Evaluation upholds every standard** that lets its bindings be shared. -/
theorem upholds_eval (hd : d.strategy = .need → S.shared) (n : Nat) :
    Upholds.Runs S (Eval.eval d n) := by
  rw [← Eval.overseen_quiet .tooDeep d n]
  exact upholds_overseen hd (fun _ _ _ _ _ => rfl) n

/-- A watch that has nothing against machines that meet the standard is not noticed. -/
theorem Upholds.attend {watch : Env → Machine → Bool}
    (hwatch : ∀ env m w, m.Meets S w → watch env m = false) {w : Links} {env : Env} {α : Type}
    {P : Links → α → Prop} {x : Eval α} (h : Upholds S w P x) :
    Upholds S w P (Eval.attend watch alarm env x) := by
  intro m hm
  match hx : x m, h m hm with
  | .ok a m₁, .ok hw hm₁ ha =>
    rw [Eval.attend_of_ok hx, hwatch env m₁ _ hm₁]
    exact .ok hw hm₁ ha
  | .error s m₁, .error hw hm₁ hs =>
    rw [Eval.attend_of_error hx, hwatch env m₁ _ hm₁]
    exact .error hw hm₁ hs

theorem upholds_watched (hd : d.strategy = .need → S.shared) {watch : Env → Machine → Bool}
    (hwatch : ∀ env m w, m.Meets S w → watch env m = false) (n : Nat) :
    Upholds.Runs S (Eval.watched watch alarm d n) := by
  induction n with
  | zero => exact fun w env e _ _ => .attend hwatch (.stop (s := .tooDeep) trivial)
  | succ n ih =>
    intro w env e he henv
    have hpart :
        Upholds.Runs S (Eval.attendPart watch alarm (Eval.watched watch alarm d n) env e) := by
      unfold Eval.attendPart
      split
      · exact ih
      · exact fun w₁ env₁ a ha henv₁ => .attend hwatch (ih ha henv₁)
    refine .bind (.attend hwatch (.pure (P := fun _ _ => True) trivial)) fun w₁ _ hw₁ _ => ?_
    exact .attend hwatch (.step hpart hd (henv.mono hw₁) he)

/-- What holds of the nested evaluations holds of a run from the empty environment. -/
theorem Upheld.closed {run : Env → Expr → Eval Value} (hrun : Upholds.Runs S run) {e : Expr}
    (he : S.expr e) :
    Upheld S [[]] (fun w' => Value.Meets S w')
      ((do let f ← Eval.newFrame Frame.empty; run [f] e) .initial) := by
  have henv : Links.Chains [[]] [0] := ⟨rfl, trivial⟩
  exact hrun he henv _ (.start S)

/-- **The run of an expression upholds every standard** that the expression meets. -/
theorem upheld_evalClosed (hd : d.strategy = .need → S.shared) (n : Nat) {e : Expr}
    (he : S.expr e) :
    Upheld S [[]] (fun w' => Value.Meets S w') (Eval.evalClosed d n e .initial) :=
  .closed (upholds_eval hd n) he

/-- A run that upholds a standard ends in no error that the standard does not admit. -/
theorem Upheld.ne_error {w : Links} {α : Type} {P : Links → α → Prop}
    {r : EStateM.Result Stop Machine α} (h : Upheld S w P r) {s : Stop} (hs : ¬ S.Admits s) :
    Eval.ending r ≠ .error s := by
  rintro heq
  cases h with
  | ok => cases heq
  | error _ _ hs' => cases heq; exact hs hs'

variable {n : Nat} {e : Expr}

/-- **At every moment of a run the machine meets the standard.** -/
theorem Eval.Passes.meets (hd : d.strategy = .need → S.shared) (he : S.expr e) {env : Env}
    {m : Machine} (h : Eval.Passes d n e env m) : ∃ w, m.Meets S w := by
  by_contra hno
  have hwatch : ∀ env' m' w, m'.Meets S w → (env' == env && m' == m) = false := by
    intro env' m' w hm'
    simp only [Bool.and_eq_false_iff, beq_eq_false_iff_ne]
    refine .inr fun heq => hno ⟨w, heq ▸ hm'⟩
  -- no standard admits a call with a wrong number of values, so that can be the alarm
  exact (Upheld.closed (upholds_watched hd hwatch n) he).ne_error id
    (h (.error (.miscall .cons 0)))

/-- **Every primitive is called with as many values as it takes, which meet the standard.** -/
theorem Eval.Calls.meets (hd : d.strategy = .need → S.shared) (he : S.expr e) {p : Prim}
    {vs : List Value} (h : Eval.Calls d n e p vs) :
    vs.length = p.argCount ∧ ∃ w, ∀ v ∈ vs, v.Meets S w := by
  by_contra hno
  have hwatch : ∀ q us w, us.length = q.argCount → (∀ v ∈ us, v.Meets S w) →
      (q == p && us == vs) = false := by
    intro q us w hlen hus
    by_contra heq
    simp only [Bool.not_eq_false, Bool.and_eq_true, beq_iff_eq] at heq
    obtain ⟨rfl, rfl⟩ := heq
    exact hno ⟨hlen, w, hus⟩
  exact (Upheld.closed (upholds_overseen hd hwatch n) he).ne_error id
    (h (.error (.miscall .cons 0)))

end Runs

end CallBy
