import CallBy.Proofs.Guard

/-!
The bound on nested evaluations shows only where it is hit.

An evaluation that is stopped by the bound puts the shared bindings that it was computing back, so
the bound could show in what a run leaves behind. It does not: an evaluation that ends within a
bound ends in the same way, and leaves the same machine, within every higher one.

* `tooDeep_of_le`: who hits a bound hits every lower one;
* `nesting_bound_unseen`.
-/

namespace CallBy

open Eval

variable {d : Discipline} {n k : Nat} {env : Env} {e : Expr} {m m' : Machine}

/-- An evaluation that does not hit a bound is the same under every higher one. -/
theorem eval_eq_of_le (hk : n ≤ k) (h : ∀ m', eval d n env e m ≠ .error .tooDeep m') :
    eval d k env e m = eval d n env e m := by
  refine eval_mono hk env e m fun s m₁ hs hbad => ?_
  subst hbad
  exact h m₁ hs

/-- An evaluation that hits a bound hits every lower one. -/
theorem tooDeep_of_le (hk : n ≤ k) (h : eval d k env e m = .error .tooDeep m') :
    ∃ m'', eval d n env e m = .error .tooDeep m'' := by
  refine Classical.byContradiction fun hnone => ?_
  have heq := eval_eq_of_le hk fun m₁ h₁ => hnone ⟨m₁, h₁⟩
  exact hnone ⟨m', heq.symm.trans h⟩

/-- **The bound on nested evaluations shows only where it is hit.** On every machine, an evaluation
that ends with a value or an error within a bound ends with the same value or the same error within
every higher one, and leaves the same machine: its frames, its bindings with all they have computed,
and its trace. An evaluation that hits the higher bound hits the lower one. -/
theorem nesting_bound_unseen (d : Discipline) (env : Env) (e : Expr) (m : Machine) (hk : n ≤ k) :
    (∀ v m', eval d n env e m = .ok v m' → eval d k env e m = .ok v m') ∧
    (∀ err m', eval d n env e m = .error (.error err) m' →
      eval d k env e m = .error (.error err) m') ∧
    ∀ m', eval d k env e m = .error .tooDeep m' →
      ∃ m'', eval d n env e m = .error .tooDeep m'' := by
  refine ⟨fun v m' h => ?_, fun err m' h => ?_, fun m' h => tooDeep_of_le hk h⟩
  · rw [eval_eq_of_le hk fun m₁ h₁ => ?_, h]
    cases h.symm.trans h₁
  · rw [eval_eq_of_le hk fun m₁ h₁ => ?_, h]
    cases h.symm.trans h₁

/-- A machine on which `total` is shared and reports what it adds up, and `none` is zero. -/
def Machine.tally : Machine where
  frames := #[⟨[("total", 0), ("none", 1)]⟩]
  bindings := #[
    .need "total" (.pending (.binary "+" (.app (.prim .tick) [.int 2])
      (.app (.prim .tick) [.int 3])) [0]),
    .need "none" (.pending (.int 0) [0])]

/-- A division by zero that computes both operands on the way. Four nested evaluations are not
enough for it and leave the machine as it was. Five are, and with any more it ends in the same way,
with the same results and the same trace. -/
theorem nesting_bound_unseen_tally :
    eval ⟨.need, true⟩ 4 [0] (.binary "/" (.var "total") (.var "none")) .tally =
      .error .tooDeep .tally ∧
    ∃ m', m'.trace = #["2", "3"] ∧ m'.binding 0 = .need "total" (.done (.int 5)) ∧
      m'.binding 1 = .need "none" (.done (.int 0)) ∧
      eval ⟨.need, true⟩ 5 [0] (.binary "/" (.var "total") (.var "none")) .tally =
        .error (.error (.divisionByZero 5)) m' ∧
      eval ⟨.need, true⟩ nestingLimit [0] (.binary "/" (.var "total") (.var "none")) .tally =
        .error (.error (.divisionByZero 5)) m' := by
  refine ⟨rfl, _, rfl, rfl, rfl, rfl, ?_⟩
  exact (nesting_bound_unseen (n := 5) _ _ _ _ (by decide)).2.1 _ _ rfl

end CallBy
