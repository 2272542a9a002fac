import CallBy.EvalError

/-!
Values and errors up to the identity and the environment of closures. These show in no text, so
`bare` forgets them and `Value.render_bare`, `EvalError.message_bare` say that nothing is lost.
-/

namespace CallBy

namespace Value

/-- The value with nothing of its closures but parameters and body. -/
def bare : Value → Value
  | int n => .int n
  | bool b => .bool b
  | empty => .empty
  | cons a r => .cons a.bare r.bare
  | closure _ ps b _ => .closure 0 ps b []
  | prim p => .prim p

/-- The text of a value, and of the elements after the first one, show nothing else. -/
theorem render_bare_both (v : Value) :
    v.bare.render = v.render ∧ v.bare.renderRest = v.renderRest := by
  induction v with
  | cons a r ha hr =>
    refine ⟨?_, ?_⟩
    · simp only [bare, render, ha.1, hr.2]
    · simp only [bare, renderRest, ha.1, hr.2]
  | _ => exact ⟨rfl, rfl⟩

@[simp] theorem render_bare (v : Value) : v.bare.render = v.render := (render_bare_both v).1

end Value

namespace EvalError

/-- The error with bare values. -/
def bare : EvalError → EvalError
  | testNotBool e v => .testNotBool e v.bare
  | notFunction v => .notFunction v.bare
  | closureArity fn params given => .closureArity fn.bare params given
  | needsInt op v => .needsInt op v.bare
  | needsBool op v => .needsBool op v.bare
  | arityOf v => .arityOf v.bare
  | consOnto v => .consOnto v.bare
  | firstOf v => .firstOf v.bare
  | restOf v => .restOf v.bare
  | e => e

@[simp] theorem kind_bare (e : EvalError) : e.bare.kind = e.kind := by
  cases e <;> rfl

@[simp] theorem message_bare (e : EvalError) : e.bare.message = e.message := by
  cases e <;> unfold bare message <;> simp only [Value.render_bare]

end EvalError

/-- What is shown of an outcome is the same: values are equal but for the identity and environment
of closures and have one text, errors have one kind and one message. -/
def Alike : Except EvalError Value → Except EvalError Value → Prop
  | .ok v, .ok v' => v.bare = v'.bare ∧ v.render = v'.render
  | .error e, .error e' => e.kind = e'.kind ∧ e.message = e'.message
  | _, _ => False

theorem Alike.ok {v v' : Value} (h : v.bare = v'.bare) : Alike (.ok v) (.ok v') :=
  ⟨h, by rw [← Value.render_bare v, h, Value.render_bare]⟩

theorem Alike.error {e e' : EvalError} (h : e.bare = e'.bare) : Alike (.error e) (.error e') :=
  ⟨by rw [← EvalError.kind_bare e, h, EvalError.kind_bare],
    by rw [← EvalError.message_bare e, h, EvalError.message_bare]⟩

end CallBy
