import CallBy.Proofs.RoundTrip
import CallBy.Proofs.Standards

/-!
The errors that programs can end in.

Some errors stand for a fault of whoever made the expression: an operator that there is none of, a
datum in the place of an expression, a primitive that is called with a wrong number of values. They
are no errors of programs: what a text spells is well formed, and so are the bodies and the
definitions that closures and bindings keep of it.

* `Standard.wellFormed`: all expressions in a machine are well formed;
* `parsed_run_faultless`: how the run of a program can end.
-/

namespace CallBy

/-- The error is a fault of the expression or of the evaluation itself: no program should come to
it. -/
def EvalError.isInternal : EvalError → Bool
  | .unknownUnary _ | .unknownBinary _ | .notExpression _ | .miscall _ _ => true
  | _ => false

/-- The parts of a well-formed expression are well formed. -/
theorem Expr.WellFormed.children {e a : Expr} (h : e.WellFormed) (ha : a ∈ e.children) :
    a.WellFormed := by
  suffices hall : ∀ a ∈ e.children, a.WellFormed from hall a ha
  clear ha
  cases h with
  | app hf has => exact List.forall_mem_cons.mpr ⟨hf, has⟩
  | letIn _ _ _ hds hb =>
    refine List.forall_mem_cons.mpr ⟨hb, fun a ha => ?_⟩
    obtain ⟨p, hp, rfl⟩ := List.mem_map.mp ha
    exact hds p hp
  | _ => simp_all [Expr.children]

/-- All expressions are well formed, and bindings are shared by need only. -/
def Standard.wellFormed (d : Discipline) : Standard where
  expr := Expr.WellFormed
  proper := False
  shared := d.strategy = .need
  children := Expr.WellFormed.children

/-- Well-formed expressions lead to no internal error. -/
theorem Standard.wellFormed_admits {d : Discipline} {e : EvalError}
    (h : (Standard.wellFormed d).Admits (.error e)) : e.isInternal = false := by
  cases e with
  | unknownUnary op =>
    obtain ⟨hop, a, hform⟩ := h
    cases hform with
    | unary hmem _ =>
      rw [Expr.mem_unarySymbols, hop] at hmem
      cases hmem
  | unknownBinary op =>
    obtain ⟨hop, l, r, hform⟩ := h
    cases hform with
    | binary hmem _ _ =>
      rw [Expr.mem_binarySymbols, hop] at hmem
      cases hmem
  | notExpression s =>
    obtain ⟨t, hform⟩ := h
    cases hform
  | miscall p given => exact h.elim
  | _ => rfl

/-- The kinds of error that a program can end in. -/
def ErrorKind.ofPrograms : List ErrorKind :=
  [.unboundVariable, .wrongType, .wrongArity, .arithmetic, .selfReference]

theorem EvalError.kind_mem_ofPrograms {e : EvalError} (h : e.isInternal = false) :
    e.kind ∈ ErrorKind.ofPrograms := by
  cases e with
  | miscall p given => cases h
  | _ => simp [kind, ErrorKind.ofPrograms]

/-- **No program comes to an internal error.** The run of what a text spells ends with a value, for
want of depth, or with an error that is not internal and has one of the kinds of programs, a self
reference by need only; and it calls every primitive with as many values as that takes. -/
theorem parsed_run_faultless {source : String} {e : Expr} (h : Expr.parse source = .ok e)
    (d : Discipline) (n : Nat) :
    ((∃ v, Eval.outcome d n e = .ok v) ∨ Eval.outcome d n e = .error .tooDeep ∨
      ∃ err, Eval.outcome d n e = .error (.error err) ∧ err.isInternal = false ∧
        err.kind ∈ ErrorKind.ofPrograms ∧ (err.kind = .selfReference → d.strategy = .need)) ∧
    ∀ p vs, Eval.Calls d n e p vs → vs.length = p.argCount := by
  have hform : (Standard.wellFormed d).expr e := wellFormed_of_parse h
  refine ⟨?_, fun p vs hcalls => (hcalls.meets (S := Standard.wellFormed d) id hform).1⟩
  have hrun := upheld_evalClosed (S := Standard.wellFormed d) id n hform
  unfold Eval.outcome
  match Eval.evalClosed d n e .initial, hrun with
  | .ok v m, _ => exact .inl ⟨v, rfl⟩
  | .error .tooDeep m, _ => exact .inr (.inl rfl)
  | .error (.error err) m, .error _ _ hadmits =>
    have hint := Standard.wellFormed_admits hadmits
    refine .inr (.inr ⟨err, rfl, hint, EvalError.kind_mem_ofPrograms hint, fun hkind => ?_⟩)
    cases err with
    | selfReference x a => exact hadmits
    | _ => cases hkind

/-- A sum that needs itself, once it has taken the first of a list:
`let x := first(cons(1, null)) + x; in x`. -/
def endlessSum : Expr :=
  .letIn
    [("x", .binary "+" (.app (.prim .first) [.app (.prim .cons) [.int 1, .null]]) (.var "x"))]
    (.var "x")

theorem parsed_run_faultless_endlessSum :
    Expr.parse endlessSum.render = .ok endlessSum ∧
    (∃ e, Eval.outcome ⟨.need, true⟩ 6 endlessSum = .error (.error (.selfReference "x" e))) ∧
    Eval.Calls ⟨.need, true⟩ 6 endlessSum .cons [.int 1, .empty] ∧
    [Value.int 1, Value.empty].length = Prim.cons.argCount := by
  have hname : Expr.IsName "x" := ⟨by decide, by decide⟩
  have hform : endlessSum.WellFormed := by
    refine .letIn (by simp) (by simpa using hname) (by simp) ?_ (.var hname)
    have hcons : Expr.WellFormed (.app (.prim .cons) [.int 1, .null]) :=
      .app (.prim (by decide)) (by simpa using ⟨.int (by decide), .null⟩)
    have hfirst : Expr.WellFormed (.app (.prim .first) [.app (.prim .cons) [.int 1, .null]]) :=
      .app (.prim (by decide)) (by simpa using hcons)
    simpa using Expr.WellFormed.binary (by decide) hfirst (.var hname)
  have hparse := parse_of_spelled (spelled_of_wellFormed hform)
  have hcalls : Eval.Calls ⟨.need, true⟩ 6 endlessSum .cons [.int 1, .empty] := fun _ => rfl
  refine ⟨hparse, ⟨_, rfl⟩, hcalls, ?_⟩
  exact (parsed_run_faultless hparse ⟨.need, true⟩ 6).2 _ _ hcalls

end CallBy
