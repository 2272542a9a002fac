import CallBy.Proofs.World

/-!
Operators and primitives do the same to values that differ in closures only, and so to a value and
to the storeless value it stands for.
-/

namespace CallBy

open Storeless

/-- The errors are the same but for the identity and environment of closures, and not one of call
by need alone. -/
def SameError (e e' : EvalError) : Prop := e.bare = e'.bare ∧ e.kind ≠ .selfReference

/-- The operations come to related results or to the same error. -/
def Results {α β : Type} (R : α → β → Prop) : Except EvalError α → Except EvalError β → Prop
  | .ok a, .ok b => R a b
  | .error e, .error e' => SameError e e'
  | _, _ => False

theorem Results.bind {α β α' β' : Type} {R : α → β → Prop} {R' : α' → β' → Prop}
    {x : Except EvalError α} {y : Except EvalError β} {f : α → Except EvalError α'}
    {g : β → Except EvalError β'} (h : Results R x y)
    (hf : ∀ a b, R a b → Results R' (f a) (g b)) : Results R' (x >>= f) (y >>= g) := by
  match x, y with
  | .ok a, .ok b => exact hf a b h
  | .error e, .error e' => exact h
  | .ok a, .error e => exact h.elim
  | .error e, .ok b => exact h.elim

theorem Results.map_right {α β γ : Type} {R : α → β → Prop} {R' : α → γ → Prop}
    {x : Except EvalError α} {y : Except EvalError β} {g : β → γ} (h : Results R x y)
    (hg : ∀ a b, R a b → R' a (g b)) : Results R' x (y.map g) := by
  match x, y with
  | .ok a, .ok b => exact hg a b h
  | .error e, .error e' => exact h
  | .ok a, .error e => exact h.elim
  | .error e, .ok b => exact h.elim

/-- The results are one value without closures. -/
def OneValue (v v' : Value) : Prop := v = v' ∧ v.hasClosure = false

/-! ### Values that differ in closures only -/

section Bare

variable {v v' a a' b b' : Value}

/-- Complaints about values that differ in closures only are the same. -/
theorem sameError_of_bare (h : v.bare = v'.bare) (complaint : Value → EvalError)
    (hb : ∀ v, (complaint v).bare = complaint v.bare)
    (hk : (complaint v).kind ≠ .selfReference) : SameError (complaint v) (complaint v') :=
  ⟨by rw [hb, hb, h], hk⟩

theorem results_asInt (h : v.bare = v'.bare) (op : String) :
    Results Eq (v.asInt op) (v'.asInt op) := by
  have he := sameError_of_bare h (.needsInt op) (fun _ => rfl) nofun
  cases v <;> cases v' <;> first | exact he | (cases h <;> exact rfl)

theorem results_asBool (h : v.bare = v'.bare) (op : String) :
    Results Eq (v.asBool op) (v'.asBool op) := by
  have he := sameError_of_bare h (.needsBool op) (fun _ => rfl) nofun
  cases v <;> cases v' <;> first | exact he | (cases h <;> exact rfl)

theorem results_applyUnary (h : v.bare = v'.bare) (op : String) :
    Results OneValue (applyUnary op v) (applyUnary op v') := by
  unfold applyUnary
  cases UnaryOp.ofSymbol? op with
  | none => exact ⟨rfl, nofun⟩
  | some op =>
    cases op with
    | plus => exact (results_asInt h _).bind fun a b hab => ⟨by rw [hab], rfl⟩
    | minus => exact (results_asInt h _).bind fun a b hab => ⟨by rw [hab], rfl⟩
    | not => exact (results_asBool h _).bind fun a b hab => ⟨by rw [hab], rfl⟩

theorem results_onInts (ha : a.bare = a'.bare) (hb : b.bare = b'.bare) (op : BinaryOp)
    {f : Int → Int → Except EvalError Value} (hf : ∀ m n, Results OneValue (f m n) (f m n)) :
    Results OneValue (op.onInts a b f) (op.onInts a' b' f) := by
  unfold BinaryOp.onInts
  refine (results_asInt ha _).bind fun m m' hm => ?_
  refine (results_asInt hb _).bind fun n n' hn => ?_
  rw [← hm, ← hn]
  exact hf m n

/-- All operators but the two comparisons see nothing of closures. -/
theorem results_apply (ha : a.bare = a'.bare) (hb : b.bare = b'.bare) (op : BinaryOp)
    (hsame : (op = .eq ∨ op = .ne) → a.same b = a'.same b') :
    Results OneValue (op.apply a b) (op.apply a' b') := by
  cases op with
  | eq => exact ⟨by rw [hsame (.inl rfl)], rfl⟩
  | ne => exact ⟨by rw [hsame (.inr rfl)], rfl⟩
  | div =>
    refine results_onInts ha hb .div fun m n => ?_
    split
    · exact ⟨rfl, nofun⟩
    · exact ⟨rfl, rfl⟩
  | _ => exact results_onInts ha hb _ fun m n => ⟨rfl, rfl⟩

end Bare

/-! ### Values and what they stand for -/

section Stands

variable {d : Discipline} {w : World}

theorem Stands.hasClosure_eq {v : Value} {u : Val} (h : Stands d w v u) :
    v.hasClosure = u.bare.hasClosure := by
  induction h with
  | cons _ _ iha ihr => simp only [Value.hasClosure, Val.bare, iha, ihr]
  | _ => rfl

/-- A value without closures stands for itself. -/
theorem Stands.eq_of_hasClosure {v : Value} {u : Val} (h : Stands d w v u)
    (hv : v.hasClosure = false) : v = u.bare := by
  induction h with
  | cons _ _ iha ihr =>
    simp only [Value.hasClosure, Bool.or_eq_false_iff] at hv
    rw [Val.bare, iha hv.1, ihr hv.2]
  | closure _ _ => cases hv
  | _ => rfl

theorem stands_ofValue {v : Value} (hv : v.hasClosure = false) : Stands d w v (Val.ofValue v) := by
  induction v with
  | int n => exact .int n
  | bool b => exact .bool b
  | empty => exact .empty
  | cons a r iha ihr =>
    simp only [Value.hasClosure, Bool.or_eq_false_iff] at hv
    exact .cons (iha hv.1) (ihr hv.2)
  | closure i ps b env => cases hv
  | prim p => exact .prim p

theorem results_ofValue {x y : Except EvalError Value} (h : Results OneValue x y) :
    Results (Stands d w) x (y.map Val.ofValue) :=
  h.map_right fun _ _ hv => hv.1 ▸ stands_ofValue hv.2

theorem Val.bare_bare (u : Val) : u.bare.bare = u.bare := by
  induction u with
  | cons a r iha ihr => simp only [Val.bare, Value.bare, iha, ihr]
  | _ => rfl

theorem Stands.bare_eq_bare {v : Value} {u : Val} (h : Stands d w v u) : v.bare = u.bare.bare :=
  h.bare_eq.trans (Val.bare_bare u).symm

/-- Complaints about a value and about what it stands for are the same. -/
theorem Stands.sameError {v : Value} {u : Val} (h : Stands d w v u) (complaint : Value → EvalError)
    (hb : ∀ v, (complaint v).bare = complaint v.bare)
    (hk : (complaint v).kind ≠ .selfReference) : SameError (complaint v) (complaint u.bare) :=
  sameError_of_bare h.bare_eq_bare complaint hb hk

/-! ### Operators -/

theorem Stands.results_asBool {v : Value} {u : Val} (h : Stands d w v u) (op : String) :
    Results Eq (v.asBool op) (u.bare.asBool op) := CallBy.results_asBool h.bare_eq_bare op

theorem Stands.results_applyUnary {v : Value} {u : Val} (h : Stands d w v u) (op : String) :
    Results OneValue (applyUnary op v) (applyUnary op u.bare) :=
  CallBy.results_applyUnary h.bare_eq_bare op

theorem Stands.results_guardedBinary {a b : Value} {a' b' : Val} (ha : Stands d w a a')
    (hb : Stands d w b b') (op : String) :
    Results OneValue (Eval.guardedBinary op a b) (Eval.guardedBinary op a'.bare b'.bare) := by
  unfold Eval.guardedBinary
  rw [← ha.hasClosure_eq, ← hb.hasClosure_eq]
  split
  · exact ⟨rfl, nofun⟩
  · next hc =>
    unfold applyBinary
    cases hop : BinaryOp.ofSymbol? op with
    | none => exact ⟨rfl, nofun⟩
    | some o =>
      refine results_apply ha.bare_eq_bare hb.bare_eq_bare o fun ho => ?_
      have hcmp : Eval.isComparison op = true := by
        rw [← BinaryOp.symbol_of_ofSymbol? hop]
        rcases ho with rfl | rfl <;> rfl
      have hno : a.hasClosure = false ∧ b.hasClosure = false := by simpa [hcmp] using hc
      rw [← ha.eq_of_hasClosure hno.1, ← hb.eq_of_hasClosure hno.2]

/-! ### Primitives -/

/-- The function of a primitive complains about a wrong number of arguments. -/
theorem call_of_length_ne {p : Prim} {vs : List Value} (h : vs.length ≠ p.argCount) :
    p.call vs = .error (.miscall p vs.length) := by
  unfold Prim.call
  split <;> first | rfl | exact absurd rfl h

theorem Stands.results_call_one {v : Value} {u : Val} (h : Stands d w v u) {p : Prim}
    (hp : p ≠ .tick) : Results (Stands d w) (p.call [v]) (call p [u]) := by
  cases p with
  | tick => exact absurd rfl hp
  | cons => exact ⟨rfl, nofun⟩
  | arity =>
    have he := h.sameError .arityOf (fun _ => rfl) nofun
    cases h <;> first | exact he | exact .int _
  | first =>
    have he := h.sameError .firstOf (fun _ => rfl) nofun
    cases h <;> first | exact he | assumption
  | rest =>
    have he := h.sameError .restOf (fun _ => rfl) nofun
    cases h <;> first | exact he | assumption
  | _ => cases h <;> exact .bool _

theorem Stands.results_cons {a b : Value} {a' b' : Val} (ha : Stands d w a a')
    (hb : Stands d w b b') :
    Results (Stands d w) (Prim.call .cons [a, b]) (call .cons [a', b']) := by
  have he := hb.sameError .consOnto (fun _ => rfl) nofun
  have hp := Stands.cons ha hb
  cases hb <;> first | exact he | exact hp

/-- **A primitive does the same to values and to what they stand for**, but for the tick. -/
theorem results_call {vs : List Value} {us : List Val} (h : List.Forall₂ (Stands d w) vs us)
    {p : Prim} (hp : ∀ v, ¬ (p = .tick ∧ vs = [v])) :
    Results (Stands d w) (p.call vs) (call p us) := by
  by_cases hlen : vs.length = p.argCount
  · match h with
    | .nil => cases p <;> cases hlen
    | .cons hv .nil => exact hv.results_call_one fun ht => hp _ ⟨ht, rfl⟩
    | .cons ha (.cons hb .nil) =>
      cases p with
      | cons => exact ha.results_cons hb
      | _ => cases hlen
    | .cons _ (.cons _ (.cons _ _)) => cases p <;> cases hlen
  · have hlen' : (us.map Val.bare).length ≠ p.argCount := by
      rw [List.length_map, ← h.length_eq]
      exact hlen
    have hcall : call p us = (p.call (us.map Val.bare)).map Val.ofValue := by
      have hus : us.length ≠ p.argCount := by simpa using hlen'
      unfold call
      split <;> first | rfl | exact absurd rfl hus
    rw [hcall, call_of_length_ne hlen, call_of_length_ne hlen', List.length_map, h.length_eq]
    exact ⟨rfl, nofun⟩

end Stands

end CallBy
