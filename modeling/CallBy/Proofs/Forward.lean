import CallBy.Proofs.Simulation
import Mathlib.Data.Nat.Find

/-!
From storeless evaluation to the machine under a lazy strategy: what storeless evaluation ends with
within some bound, the machine ends with within the same bound.

A shared binding that is needed while it is being computed stops the machine, so none may be needed
then. The invariant is `Asleep`: the expression of a binding that is being computed does not end
within the bound that is left, so an evaluation that ends within it does not need the binding. When
a binding begins to be computed, the bound is lowered to the least one within which its expression
ends (`Follows.force`).

* `follows_guarded`: the machine follows storeless evaluation, with the same reports in call by name
  and some of them in call by need.
-/

namespace CallBy

open Storeless

/-- The reports that the second machine has more than the first are among the given ones, and all of
them in call by name. -/
def Trail (d : Discipline) (m m' : Machine) (reports : List String) : Prop :=
  ∃ t, m'.trace.toList = m.trace.toList ++ t ∧ t.Sublist reports ∧
    (d.strategy = .name → t = reports)

theorem Trail.silent {d : Discipline} {m m' : Machine} (h : m'.trace = m.trace) : Trail d m m' [] :=
  ⟨[], by rw [h, List.append_nil], List.Sublist.refl _, fun _ => rfl⟩

theorem Trail.trans {d : Discipline} {m m' m'' : Machine} {t t' : List String}
    (h : Trail d m m' t) (h' : Trail d m' m'' t') : Trail d m m'' (t ++ t') := by
  obtain ⟨s, hs, hsub, heq⟩ := h
  obtain ⟨s', hs', hsub', heq'⟩ := h'
  refine ⟨s ++ s', ?_, hsub.append hsub', fun hd => ?_⟩
  · rw [hs', hs, List.append_assoc]
  · rw [heq hd, heq' hd]

/-- The expressions of bindings that are being computed do not end within less than `n` nested
evaluations. -/
def Asleep (d : Discipline) (n : Nat) (w : World) (m : Machine) : Prop :=
  ∀ k < n, ∀ {i : BindingId} {e : Expr} {τ : Scope}, w.thunks[i]? = some (some (e, τ)) →
    m.IsRunning i → (Storeless.eval d.recursiveLet k τ e).ends = .error .tooDeep

theorem Asleep.settled {d : Discipline} {n : Nat} {w w' : World} {m m' : Machine}
    (h : Asleep d n w m) (hm : Models d w m) (hle : w ≤ w') (hset : m.Settled m') :
    Asleep d n w' m' := by
  intro k hk i e τ hi hrun
  have hrun' := hset i hrun
  -- what is being computed was there before, so the smaller world knows it
  obtain ⟨t, ht⟩ : ∃ t, w.thunks[i]? = some t :=
    ⟨_, List.getElem?_eq_getElem (by rw [← hm.bindings]; exact hrun'.lt_size)⟩
  have hti := World.thunk_mono hle ht
  rw [hi] at hti
  cases hti
  exact h k hk ht hrun'

theorem Asleep.of_le {d : Discipline} {n n' : Nat} {w : World} {m : Machine} (h : Asleep d n w m)
    (hle : n' ≤ n) : Asleep d n' w m := fun k hk => h k (by omega)

/-- What the storeless computation ends with, the computation on the machine ends with too, provided
that bindings that are being computed are not needed. -/
def Follows (d : Discipline) (n : Nat) {α β : Type} (R : World → α → β → Prop) (w : World)
    (x : Eval α) (c : Course β) : Prop :=
  ∀ m, Models d w m → Asleep d n w m →
    (∀ b, c.ends = .ok b → ∃ a m' w', x m = .ok a m' ∧ w ≤ w' ∧ Models d w' m' ∧ m.Settled m' ∧
      Trail d m m' c.trace ∧ R w' a b) ∧
    ∀ e, c.ends = .error (.error e) → ∃ e' m', x m = .error (.error e') m' ∧
      Trail d m m' c.trace ∧ SameError e' e

theorem Machine.isRunning_setBinding {m : Machine} {i j : BindingId} {b : Binding}
    (hi : i < m.bindings.size) (h : (m.setBinding i b).IsRunning j) :
    (i = j ∧ ∃ x e env, b = .need x (.running e env)) ∨ (i ≠ j ∧ m.IsRunning j) := by
  obtain ⟨x, e, env, hb⟩ := h
  rw [Machine.binding_setBinding m b hi] at hb
  split at hb
  · next heq => exact .inl ⟨heq, x, e, env, hb⟩
  · next hne => exact .inr ⟨hne, x, e, env, hb⟩

namespace Follows

variable {d : Discipline} {n : Nat} {α β α' β' : Type} {w : World}

theorem weaken {n' : Nat} (hle : n' ≤ n) {R : World → α → β → Prop} {x : Eval α} {c : Course β}
    (h : Follows d n' R w x c) : Follows d n R w x c :=
  fun m hm hA => h m hm (hA.of_le hle)

theorem silent {R : World → α → β → Prop} {x : Eval α} {b : β}
    (h : ∀ m, Models d w m → Silently (fun _ => False) d w m x fun w' _ a => R w' a b) :
    Follows d n R w x (pure b) := by
  intro m hm _
  obtain ⟨a, m', w', hx, hle, hm', hset, htr, hR⟩ := h m hm
  refine ⟨fun b' hb => ?_, fun e he => (nomatch he)⟩
  cases hb
  exact ⟨a, m', w', hx, hle, hm', hset, .silent htr, hR⟩

theorem bind {R : World → α → β → Prop} {R' : World → α' → β' → Prop} {x : Eval α} {c : Course β}
    {f : α → Eval α'} {g : β → Course β'} (h : Follows d n R w x c)
    (hf : ∀ w' a b, w ≤ w' → R w' a b → Follows d n R' w' (f a) (g b)) :
    Follows d n R' w (x >>= f) (c >>= g) := by
  intro m hm hA
  obtain ⟨hok, herr⟩ := h m hm hA
  cases hc : c.ends with
  | ok b =>
    obtain ⟨a, m₁, w₁, hx, hle₁, hm₁, hset₁, htr₁, hR⟩ := hok b hc
    obtain ⟨hok', herr'⟩ := hf w₁ a b hle₁ hR m₁ hm₁ (hA.settled hm hle₁ hset₁)
    rw [Course.bind_of_ok hc, Eval.bind_of_ok hx]
    refine ⟨fun b' hb' => ?_, fun e he => ?_⟩
    · obtain ⟨a', m', w', hx', hle, hm', hset, htr, hR'⟩ := hok' b' hb'
      exact ⟨a', m', w', hx', World.le_trans hle₁ hle, hm', hset₁.trans hset, htr₁.trans htr, hR'⟩
    · obtain ⟨e', m', hx', htr, hsame⟩ := herr' e he
      exact ⟨e', m', hx', htr₁.trans htr, hsame⟩
  | error s =>
    rw [Course.bind_of_error hc]
    refine ⟨fun b' hb' => (nomatch hb'), fun e he => ?_⟩
    cases he
    obtain ⟨e', m', hx', htr, hsame⟩ := herr e hc
    exact ⟨e', m', Eval.bind_of_error hx', htr, hsame⟩

theorem fail {R : World → α → β → Prop} {e e' : EvalError} (h : SameError e e') :
    Follows d n R w (Eval.fail e) (Course.fail e') := by
  refine fun m _ _ => ⟨fun b hb => (nomatch hb), fun e₁ he => ?_⟩
  cases he
  exact ⟨e, m, rfl, .silent rfl, h⟩

theorem report {v : Value} {u : Val} (h : Stands d w v u) :
    Follows d n (Stands d) w (fun m => .ok v (m.report v))
      (Course.report u.bare.render u) := by
  refine fun m hm _ => ⟨fun b hb => ?_, fun e he => (nomatch he)⟩
  cases hb
  refine ⟨v, _, w, rfl, World.le_refl w, hm.congr rfl rfl, .of_bindings rfl, ?_, h⟩
  refine ⟨[v.render], by simp, ?_, fun _ => ?_⟩ <;>
    simp [Course.report, ← h.bare_eq]

section Parts

variable {run : Env → Expr → Eval Value} (hlazy : d.strategy ≠ .value)
  (hrun : ∀ k ≤ n, ∀ {w : World} {env : Env} {σ : Scope} {e : Expr}, Stack w env σ →
    Follows d k (Stands d) w (run env e) (Storeless.eval d.recursiveLet k σ e))

include hrun

/-- Computing a shared binding for the first time: within the least bound that suffices, its
expression does not need the binding. -/
theorem force {i : BindingId} {x : String} {e : Expr} {env : Env} {τ : Scope}
    (hd : d.strategy = .need) (hi : w.thunks[i]? = some (some (e, τ))) (hs : Stack w env τ) :
    Follows d (n + 1) (Stands d) w (Eval.force run i x e env)
      (Storeless.eval d.recursiveLet n τ e) := by
  intro m hm hA
  by_cases hdeep : (Storeless.eval d.recursiveLet n τ e).ends = .error .tooDeep
  · rw [hdeep]
    exact ⟨fun b hb => (nomatch hb), fun e he => (nomatch he)⟩
  -- the least bound within which the expression ends
  classical
  have hex : ∃ k, (Storeless.eval d.recursiveLet k τ e).ends ≠ .error .tooDeep := ⟨n, hdeep⟩
  obtain ⟨k, hk, hmin⟩ : ∃ k, (Storeless.eval d.recursiveLet k τ e).ends ≠ .error .tooDeep ∧
      ∀ j < k, (Storeless.eval d.recursiveLet j τ e).ends = .error .tooDeep :=
    ⟨Nat.find hex, Nat.find_spec hex, fun j hj => not_not.mp (Nat.find_min hex hj)⟩
  have hkn : k ≤ n := by
    by_contra hlt
    exact hdeep (hmin n (by omega))
  rw [Storeless.eval_mono hkn τ e hk]
  have hlt := hm.lt_of_thunk hi
  have hm₁ := hm.setBinding (b := .need x (.running e env)) hi ⟨hd, rfl, hs⟩
  have hA₁ : Asleep d k w (m.setBinding i (.need x (.running e env))) := by
    intro j hj i' e' τ' hi' hrunning
    rcases Machine.isRunning_setBinding hlt hrunning with ⟨rfl, -⟩ | ⟨-, hold⟩
    · rw [hi] at hi'
      cases hi'
      exact hmin j hj
    · exact hA j (by omega) hi' hold
  obtain ⟨hok, herr⟩ := hrun k hkn hs _ hm₁ hA₁
  unfold Eval.force
  refine ⟨fun u hu => ?_, fun e₁ he₁ => ?_⟩
  · obtain ⟨v, m₂, w₂, hx, hle, hm₂, hset, htr, hv⟩ := hok u hu
    have hi₂ := World.thunk_mono hle hi
    rw [hx]
    refine ⟨v, _, w₂, rfl, hle, hm₂.setBinding hi₂ ⟨hd, u, ⟨k, hu⟩, hv⟩, fun j hj => ?_, htr, hv⟩
    rcases Machine.isRunning_setBinding (hm₂.lt_of_thunk hi₂) hj with ⟨-, hdone⟩ | ⟨hne, hj₂⟩
    · obtain ⟨_, _, _, hdone⟩ := hdone
      cases hdone
    · rcases Machine.isRunning_setBinding hlt (hset j hj₂) with ⟨heq, -⟩ | ⟨-, hj₀⟩
      · exact absurd heq hne
      · exact hj₀
  · obtain ⟨e', m₂, hx, htr, hsame⟩ := herr e₁ he₁
    rw [hx]
    exact ⟨e', _, rfl, htr, hsame⟩

omit hrun in
/-- A binding whose value is known: its expression can end with nothing else. -/
theorem known {v : Value} {u : Val} {e : Expr} {τ : Scope} (hd : d.strategy = .need)
    (hu : Yields d.recursiveLet τ e u) (hv : Stands d w v u) :
    Follows d (n + 1) (Stands d) w (fun m => .ok v m) (Storeless.eval d.recursiveLet n τ e) := by
  intro m hm _
  refine ⟨fun b hb => ?_, fun e' he => ?_⟩
  · have hub := hu.ends_eq (n := n) (by rw [hb]; exact nofun)
    rw [hb] at hub
    cases hub
    refine ⟨v, m, w, rfl, World.le_refl w, hm, .refl m, ⟨[], by simp, List.nil_sublist _, ?_⟩, hv⟩
    intro hname
    rw [hd] at hname
    cases hname
  · have hub := hu.ends_eq (n := n) (by rw [he]; exact nofun)
    rw [he] at hub
    cases hub

include hlazy

/-- Resolving the binding of an expression. -/
theorem resolve {i : BindingId} {e : Expr} {τ : Scope} (hi : w.thunks[i]? = some (some (e, τ))) :
    Follows d (n + 1) (Stands d) w (Eval.resolve run i)
      (Storeless.eval d.recursiveLet n τ e) := by
  intro m hm hA
  have hcell := hm.cells hi
  unfold Eval.resolve
  cases hb : m.binding i with
  | undefined x => rw [hb] at hcell; exact hcell.elim
  | value x v => rw [hb] at hcell; exact absurd hcell.1 hlazy
  | name x e' env =>
    rw [hb] at hcell
    obtain ⟨-, rfl, hs⟩ := hcell
    exact (hrun n (Nat.le_refl n) hs).weaken (Nat.le_succ n) m hm hA
  | need x memo =>
    cases memo with
    | pending e' env =>
      rw [hb] at hcell
      obtain ⟨hd, rfl, hs⟩ := hcell
      exact force hrun hd hi hs m hm hA
    | running e' env =>
      rw [hA n (Nat.lt_succ_self n) hi ⟨x, e', env, hb⟩]
      exact ⟨fun b hb => (nomatch hb), fun e he => (nomatch he)⟩
    | done v =>
      rw [hb] at hcell
      obtain ⟨hd, u, hu, hv⟩ := hcell
      exact known hd hu hv m hm hA

theorem var {env : Env} {σ : Scope} (x : String) (hs : Stack w env σ) :
    Follows d (n + 1) (Stands d) w (Eval.lookup env x >>= Eval.resolve run)
      (ofVar (Storeless.eval d.recursiveLet n) σ x) := by
  intro m hm hA
  have hslot := hm.lookup hs x
  unfold ofVar
  cases hl : σ.lookup? x with
  | none =>
    rw [hl] at hslot
    have he : SameError (.unbound x) (.unbound x) := ⟨rfl, nofun⟩
    rw [Eval.lookup_bind_of_none hslot]
    exact fail he m hm hA
  | some t =>
    rw [hl] at hslot
    obtain ⟨i, hi, ht | ⟨hd, -⟩⟩ := hslot
    · rw [Eval.lookup_bind_of_some hi]
      exact resolve hlazy hrun ht m hm hA
    · exact absurd hd hlazy

end Parts

end Follows

/-- The simulation of storeless runs by runs on the machine, under a lazy strategy. -/
def forward (d : Discipline) (hlazy : d.strategy ≠ .value) (n : Nat)
    (run : Env → Expr → Eval Value)
    (hrun : ∀ k ≤ n, ∀ {w : World} {env : Env} {σ : Scope} {e : Expr}, Stack w env σ →
      Follows d k (Stands d) w (run env e) (Storeless.eval d.recursiveLet k σ e)) :
    Simulation d run (fun _ => Storeless.eval d.recursiveLet n) where
  Rel R w x p := Follows d (n + 1) R w x (p 0)
  silent := Follows.silent
  bind := Follows.bind
  fail := Follows.fail
  report := Follows.report
  parts hs _ := (hrun n (Nat.le_refl n) hs).weaken (Nat.le_succ n)
  var := Follows.var hlazy hrun
  bindValue hd := absurd hd hlazy

/-- **What storeless evaluation ends with, a lazy strategy ends with too**, within the same number
of nested evaluations. -/
theorem follows_guarded {d : Discipline} (hlazy : d.strategy ≠ .value) (n : Nat) :
    ∀ j ≥ n, ∀ {w : World} {env : Env} {σ : Scope} {e : Expr}, Stack w env σ →
      Follows d n (Stands d) w (Eval.guarded d j env e)
        (Storeless.eval d.recursiveLet n σ e) := by
  induction n using Nat.strong_induction_on with
  | _ n ih =>
    intro j hj w env σ e hs
    cases n with
    | zero => exact fun m _ _ => ⟨fun b hb => (nomatch hb), fun e he => (nomatch he)⟩
    | succ n =>
      obtain ⟨j, rfl⟩ : ∃ k, j = k + 1 := ⟨j - 1, by omega⟩
      have hrun : ∀ k ≤ n, ∀ {w : World} {env : Env} {σ : Scope} {e : Expr}, Stack w env σ →
          Follows d k (Stands d) w (Eval.guarded d j env e)
            (Storeless.eval d.recursiveLet k σ e) :=
        fun k hk => ih k (by omega) j (by omega)
      exact (forward d hlazy n _ hrun).step hs fun hv => absurd hv hlazy

end CallBy
