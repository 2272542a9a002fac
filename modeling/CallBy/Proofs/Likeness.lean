import CallBy.Proofs.Operations
import Mathlib.Data.List.Forall2

/-!
Values that are the same but for their closures.

* `Value.Like C`: the values agree on integers, truth values, primitives and list structure, and
  closures in the same place are related by `C`;
* `View`: what is to be seen of a closure, from its parameters alone to its whole text, and
  `View.Values`: values that look alike;
* `View.Echoes`: machines that have reported values that look alike, one by one;
* operators and primitives do the same to values that are alike (`Outcomes`), and what they complain
  about is alike too (`EvalError.Like`).
-/

namespace CallBy

/-- A relation between closures. -/
abbrev ClosureRel := Nat → List String → Expr → Env → Nat → List String → Expr → Env → Prop

/-- The values are the same but for closures, and those in the same place are related. -/
inductive Value.Like (C : ClosureRel) : Value → Value → Prop
  | int (n : Int) : Like C (.int n) (.int n)
  | bool (b : Bool) : Like C (.bool b) (.bool b)
  | empty : Like C .empty .empty
  | cons {a r a' r' : Value} : Like C a a' → Like C r r' → Like C (.cons a r) (.cons a' r')
  | closure {i : Nat} {ps : List String} {b : Expr} {env : Env} {i' : Nat} {ps' : List String}
      {b' : Expr} {env' : Env} : C i ps b env i' ps' b' env' →
      Like C (.closure i ps b env) (.closure i' ps' b' env')
  | prim (p : Prim) : Like C (.prim p) (.prim p)

/-- What is to be seen of a closure. -/
structure View where
  /-- How the parameters of closures that look alike are related. -/
  params : List String → List String → Prop
  /-- Closures that look alike have the same parameters and the same body. -/
  exact : Prop
  refl : ∀ ps, params ps ps
  length_eq : ∀ {ps ps' : List String}, params ps ps' → ps.length = ps'.length

/-- Of closures nothing but the parameters is to be seen. -/
def View.byParams : View := ⟨Eq, False, fun _ => rfl, fun h => h ▸ rfl⟩

/-- All of closures is to be seen, but for their identity and their environment. -/
def View.whole : View := ⟨Eq, True, fun _ => rfl, fun h => h ▸ rfl⟩

/-- The closures look alike. -/
def View.Closures (X : View) : ClosureRel := fun _ ps b _ _ ps' b' _ =>
  X.params ps ps' ∧ (X.exact → ps = ps' ∧ b = b')

/-- The values look alike. -/
abbrev View.Values (X : View) : Value → Value → Prop := Value.Like X.Closures

/-- **What the machines have reported looks alike**: they have reported as many values, the first of
the one looks like the first of the other, the second like the second, and so on. -/
def View.Echoes (X : View) (m m' : Machine) : Prop :=
  List.Forall₂ X.Values m.reports.toList m'.reports.toList

/-- The relation between closures is right about what is to be seen of them and about their
identity. -/
structure View.Fits (X : View) (C : ClosureRel) : Prop where
  closures : ∀ {i ps b env i' ps' b' env'}, C i ps b env i' ps' b' env' →
    X.Closures i ps b env i' ps' b' env'
  same : ∀ {i ps b env i' ps' b' env' j qs c η j' qs' c' η'}, C i ps b env i' ps' b' env' →
    C j qs c η j' qs' c' η' → (i = j ↔ i' = j')

/-- The errors are of one kind, and of one text if whole closures are to be seen. -/
def EvalError.Like (X : View) (e e' : EvalError) : Prop :=
  e.kind = e'.kind ∧ (X.exact → e.bare = e'.bare)

/-- The operations come to related results or to errors that look alike. -/
def Outcomes (X : View) {α β : Type} (R : α → β → Prop) :
    Except EvalError α → Except EvalError β → Prop
  | .ok a, .ok b => R a b
  | .error e, .error e' => EvalError.Like X e e'
  | _, _ => False

theorem EvalError.Like.refl (X : View) (e : EvalError) : EvalError.Like X e e :=
  ⟨rfl, fun _ => rfl⟩

section Like

variable {X : View} {C D : ClosureRel} {v v' a a' b b' : Value}

theorem Value.Like.mono (hCD : ∀ {i ps b env i' ps' b' env'}, C i ps b env i' ps' b' env' →
    D i ps b env i' ps' b' env') (h : Value.Like C v v') : Value.Like D v v' := by
  induction h with
  | int n => exact .int n
  | bool b => exact .bool b
  | empty => exact .empty
  | cons _ _ iha ihr => exact .cons iha ihr
  | closure hC => exact .closure (hCD hC)
  | prim p => exact .prim p

theorem Value.Like.flip (h : Value.Like C v v') :
    Value.Like (fun i ps b env i' ps' b' env' => C i' ps' b' env' i ps b env) v' v := by
  induction h with
  | int n => exact .int n
  | bool b => exact .bool b
  | empty => exact .empty
  | cons _ _ iha ihr => exact .cons iha ihr
  | closure hC => exact .closure hC
  | prim p => exact .prim p

theorem Value.Like.refl (hC : ∀ i ps b env, C i ps b env i ps b env) (v : Value) :
    Value.Like C v v := by
  induction v with
  | int n => exact .int n
  | bool b => exact .bool b
  | empty => exact .empty
  | cons _ _ iha ihr => exact .cons iha ihr
  | closure i ps b env => exact .closure (hC i ps b env)
  | prim p => exact .prim p

/-- Every value looks like itself. -/
theorem View.values_refl (X : View) (v : Value) : X.Values v v :=
  .refl (fun _ ps _ _ => ⟨X.refl ps, fun _ => ⟨rfl, rfl⟩⟩) v

/-- If whole closures are to be seen, values that look alike are the same but for the identity and
the environment of closures. -/
theorem Value.Like.bare_eq (hX : X.exact) (h : X.Values v v') : v.bare = v'.bare := by
  induction h with
  | cons _ _ iha ihr => simp only [Value.bare, iha, ihr]
  | closure hC =>
    obtain ⟨rfl, rfl⟩ := hC.2 hX
    rfl
  | _ => rfl

/-- If whole closures are to be seen, what looks alike has one text. -/
theorem Value.Like.render_eq (hX : X.exact) (h : X.Values v v') : v.render = v'.render := by
  rw [← Value.render_bare v, h.bare_eq hX, Value.render_bare]

theorem View.Fits.like (hC : X.Fits C) (h : Value.Like C v v') : X.Values v v' :=
  h.mono hC.closures

theorem Outcomes.bind {α β α' β' : Type} {R : α → β → Prop} {S : α' → β' → Prop}
    {x : Except EvalError α} {y : Except EvalError β} {f : α → Except EvalError α'}
    {g : β → Except EvalError β'} (h : Outcomes X R x y)
    (hf : ∀ a b, R a b → Outcomes X S (f a) (g b)) : Outcomes X S (x >>= f) (y >>= g) := by
  match x, y with
  | .ok a, .ok b => exact hf a b h
  | .error e, .error e' => exact h
  | .ok a, .error e => exact h.elim
  | .error e, .ok b => exact h.elim

/-! ### Reports -/

theorem View.Echoes.refl (X : View) (m : Machine) : X.Echoes m m :=
  List.forall₂_same.mpr fun v _ => X.values_refl v

theorem View.Echoes.report {m m' : Machine} (h : X.Echoes m m') (hv : X.Values v v') :
    X.Echoes (m.report v) (m'.report v') := by
  simp only [View.Echoes, Machine.report, Array.toList_push]
  exact List.rel_append h (.cons hv .nil)

/-- If whole closures are to be seen, reports that look alike leave one trace. -/
theorem View.Echoes.trace_eq (hX : X.exact) {m m' : Machine} (h : X.Echoes m m') :
    m.trace = m'.trace := by
  have htexts : m.reports.toList.map Value.render = m'.reports.toList.map Value.render := by
    rw [← List.forall₂_eq_eq_eq, List.forall₂_map_left_iff, List.forall₂_map_right_iff]
    exact List.Forall₂.imp (fun _ _ hv => hv.render_eq hX) h
  rw [Machine.trace, Machine.trace, htexts]

/-! ### Operators -/

variable (hC : X.Fits C)

include hC

/-- Complaints about values that are alike are alike. -/
theorem View.Fits.complaint (h : Value.Like C v v') (complaint : Value → EvalError)
    (hb : ∀ v, (complaint v).bare = complaint v.bare)
    (hk : ∀ v v', (complaint v).kind = (complaint v').kind) :
    EvalError.Like X (complaint v) (complaint v') :=
  ⟨hk v v', fun hX => by rw [hb, hb, (hC.like h).bare_eq hX]⟩

theorem View.Fits.asInt (h : Value.Like C v v') (op : String) :
    Outcomes X Eq (v.asInt op) (v'.asInt op) := by
  have he := hC.complaint h (.needsInt op) (fun _ => rfl) fun _ _ => rfl
  cases h <;> first | exact he | exact rfl

theorem View.Fits.asBool (h : Value.Like C v v') (op : String) :
    Outcomes X Eq (v.asBool op) (v'.asBool op) := by
  have he := hC.complaint h (.needsBool op) (fun _ => rfl) fun _ _ => rfl
  cases h <;> first | exact he | exact rfl

theorem View.Fits.applyUnary (h : Value.Like C v v') (op : String) :
    Outcomes X (Value.Like C) (applyUnary op v) (applyUnary op v') := by
  unfold CallBy.applyUnary
  cases UnaryOp.ofSymbol? op with
  | none => exact .refl X _
  | some op =>
    cases op with
    | plus => exact (hC.asInt h _).bind fun a b hab => hab ▸ .int _
    | minus => exact (hC.asInt h _).bind fun a b hab => hab ▸ .int _
    | not => exact (hC.asBool h _).bind fun a b hab => hab ▸ .bool _

theorem View.Fits.onInts (ha : Value.Like C a a') (hb : Value.Like C b b') (op : BinaryOp)
    {f : Int → Int → Except EvalError Value}
    (hf : ∀ m n, Outcomes X (Value.Like C) (f m n) (f m n)) :
    Outcomes X (Value.Like C) (op.onInts a b f) (op.onInts a' b' f) := by
  unfold BinaryOp.onInts
  refine (hC.asInt ha _).bind fun m m' hm => ?_
  refine (hC.asInt hb _).bind fun n n' hn => ?_
  subst hm hn
  exact hf m n

/-- The equality of the language takes closures for what they are related to. -/
theorem View.Fits.same_eq (ha : Value.Like C a a') (hb : Value.Like C b b') :
    a.same b = a'.same b' := by
  induction ha generalizing b b' with
  | cons _ _ iha ihr =>
    cases hb with
    | cons hb hs => simp only [Value.same, iha hb, ihr hs]
    | _ => rfl
  | closure hc =>
    cases hb with
    | closure hc' => simp only [Value.same, Bool.beq_eq_decide_eq, hC.same hc hc']
    | _ => rfl
  | _ => cases hb <;> rfl

theorem View.Fits.applyBinary (ha : Value.Like C a a') (hb : Value.Like C b b') (op : String) :
    Outcomes X (Value.Like C) (applyBinary op a b) (applyBinary op a' b') := by
  unfold CallBy.applyBinary
  cases BinaryOp.ofSymbol? op with
  | none => exact .refl X _
  | some op =>
    cases op with
    | eq =>
      simp only [BinaryOp.apply, hC.same_eq ha hb]
      exact .bool _
    | ne =>
      simp only [BinaryOp.apply, hC.same_eq ha hb]
      exact .bool _
    | div =>
      refine hC.onInts ha hb .div fun m n => ?_
      split
      · exact .refl X _
      · exact .int _
    | add | sub | mul => exact hC.onInts ha hb _ fun m n => .int _
    | lt | gt | le | ge => exact hC.onInts ha hb _ fun m n => .bool _

/-! ### Primitives -/

theorem View.Fits.call_one (h : Value.Like C v v') (p : Prim) :
    Outcomes X (Value.Like C) (p.call [v]) (p.call [v']) := by
  cases p with
  | cons => exact .refl X _
  | tick => exact h
  | arity =>
    have he := hC.complaint h .arityOf (fun _ => rfl) fun _ _ => rfl
    cases h with
    | @closure i ps b env i' ps' b' env' hc =>
      have hlen : ps.length = ps'.length := X.length_eq (hC.closures hc).1
      simp only [Prim.call, hlen]
      exact .int _
    | prim p => exact .int _
    | _ => exact he
  | first =>
    have he := hC.complaint h .firstOf (fun _ => rfl) fun _ _ => rfl
    cases h <;> first | exact he | assumption
  | rest =>
    have he := hC.complaint h .restOf (fun _ => rfl) fun _ _ => rfl
    cases h <;> first | exact he | assumption
  | _ => cases h <;> exact .bool _

/-- **A primitive does the same to values that are alike.** -/
theorem View.Fits.call {vs vs' : List Value} (h : List.Forall₂ (Value.Like C) vs vs') (p : Prim) :
    Outcomes X (Value.Like C) (p.call vs) (p.call vs') := by
  by_cases hlen : vs.length = p.argCount
  · match h with
    | .nil => cases p <;> cases hlen
    | .cons hv .nil => exact hC.call_one hv p
    | .cons ha (.cons hb .nil) =>
      cases p with
      | cons =>
        have he := hC.complaint hb .consOnto (fun _ => rfl) fun _ _ => rfl
        have hp := Value.Like.cons ha hb
        cases hb <;> first | exact he | exact hp
      | _ => cases hlen
    | .cons _ (.cons _ (.cons _ _)) => cases p <;> cases hlen
  · have hlen' : vs'.length ≠ p.argCount := h.length_eq ▸ hlen
    rw [call_of_length_ne hlen, call_of_length_ne hlen', h.length_eq]
    exact .refl X _

end Like

end CallBy
