import CallBy.Proofs.Simulation

/-!
From the machine to storeless evaluation: what a run on the machine ends with, storeless evaluation
ends with too.

* `Settles p o`: from some bound on nested evaluations on, the computations end with `o`;
* `Mirrored d e`: the errors for which this is claimed. Call by value meets errors that call by name
  does not, and a self-reference is an error of call by need alone;
* `reflects_guarded`: under each of the three strategies.
-/

namespace CallBy

open Storeless

/-- From some bound on nested evaluations on, the computations end with `o`. -/
def Settles {α : Type} (p : Nat → Course α) (o : Except Stop α) : Prop :=
  ∃ n, ∀ k ≥ n, (p k).ends = o

theorem Settles.bind_ok {α β : Type} {p : Nat → Course α} {g : Nat → α → Course β} {a : α}
    {o : Except Stop β} (h : Settles p (.ok a)) (hg : Settles (fun k => g k a) o) :
    Settles (fun k => p k >>= g k) o := by
  obtain ⟨n, hn⟩ := h
  obtain ⟨n', hn'⟩ := hg
  refine ⟨max n n', fun k hk => ?_⟩
  simp only [Course.bind_of_ok (hn k (by omega))]
  exact hn' k (by omega)

theorem Settles.bind_error {α β : Type} {p : Nat → Course α} {g : Nat → α → Course β} {s : Stop}
    (h : Settles p (.error s)) : Settles (fun k => p k >>= g k) (.error s) := by
  obtain ⟨n, hn⟩ := h
  refine ⟨n, fun k hk => ?_⟩
  simp only [Course.bind_of_error (hn k hk)]

theorem Settles.of_succ {α : Type} {p : Nat → Course α} {o : Except Stop α}
    (h : Settles (fun k => p (k + 1)) o) : Settles p o := by
  obtain ⟨n, hn⟩ := h
  refine ⟨n + 1, fun k hk => ?_⟩
  obtain ⟨j, rfl⟩ : ∃ j, k = j + 1 := ⟨k - 1, by omega⟩
  exact hn j (by omega)

theorem settles_eval {r : Bool} {σ : Scope} {e : Expr} {v : Val} (h : Yields r σ e v) :
    Settles (fun k => Storeless.eval r k σ e) (.ok v) := by
  obtain ⟨n, hn⟩ := h
  refine ⟨n, fun k hk => ?_⟩
  simp only [Storeless.eval_mono hk σ e (by rw [hn]; exact nofun), hn]

theorem yields_of_settles {r : Bool} {σ : Scope} {e : Expr} {v : Val}
    (h : Settles (fun k => Storeless.eval r k σ e) (.ok v)) : Yields r σ e v := by
  obtain ⟨n, hn⟩ := h
  exact ⟨n, hn n (Nat.le_refl n)⟩

/-- The error is one of call by name too. -/
def Mirrored (d : Discipline) (e : EvalError) : Prop :=
  d.strategy = .name ∨ (d.strategy = .need ∧ e.kind ≠ .selfReference)

/-- What the computation on the machine ends with, the storeless ones settle on. -/
def Reflects (d : Discipline) {α β : Type} (R : World → α → β → Prop) (w : World) (x : Eval α)
    (p : Nat → Course β) : Prop :=
  ∀ m, Models d w m →
    (∀ a m', x m = .ok a m' →
      ∃ b w', Settles p (.ok b) ∧ w ≤ w' ∧ Models d w' m' ∧ R w' a b) ∧
    ∀ e m', x m = .error (.error e) m' → Mirrored d e →
      ∃ e', Settles p (.error (.error e')) ∧ SameError e e'

namespace Reflects

variable {d : Discipline} {α β α' β' : Type} {w : World}

theorem silent {R : World → α → β → Prop} {x : Eval α} {b : β}
    (h : ∀ m, Models d w m → Silently (fun _ => False) d w m x fun w' _ a => R w' a b) :
    Reflects d R w x fun _ => pure b := by
  intro m hm
  obtain ⟨a, m', w', hx, hle, hm', -, -, hR⟩ := h m hm
  rw [hx]
  refine ⟨fun a₁ m₁ h₁ => ?_, fun e m₁ h₁ => (nomatch h₁)⟩
  cases h₁
  exact ⟨b, w', ⟨0, fun _ _ => rfl⟩, hle, hm', hR⟩

theorem bind {R : World → α → β → Prop} {R' : World → α' → β' → Prop} {x : Eval α}
    {p : Nat → Course β} {f : α → Eval α'} {g : Nat → β → Course β'} (h : Reflects d R w x p)
    (hf : ∀ w' a b, w ≤ w' → R w' a b → Reflects d R' w' (f a) fun k => g k b) :
    Reflects d R' w (x >>= f) fun k => p k >>= g k := by
  intro m hm
  obtain ⟨hok, herr⟩ := h m hm
  cases hx : x m with
  | ok a m₁ =>
    rw [Eval.bind_of_ok hx]
    obtain ⟨b, w₁, hb, hle, hm₁, hR⟩ := hok a m₁ hx
    obtain ⟨hok', herr'⟩ := hf w₁ a b hle hR m₁ hm₁
    refine ⟨fun a' m' h' => ?_, fun e m' h' he => ?_⟩
    · obtain ⟨b', w', hb', hle', hm', hR'⟩ := hok' a' m' h'
      exact ⟨b', w', hb.bind_ok hb', World.le_trans hle hle', hm', hR'⟩
    · obtain ⟨e', hs, hee⟩ := herr' e m' h' he
      exact ⟨e', hb.bind_ok hs, hee⟩
  | error s m₁ =>
    rw [Eval.bind_of_error hx]
    refine ⟨fun a' m' h' => (nomatch h'), fun e m' h' he => ?_⟩
    cases h'
    obtain ⟨e', hs, hee⟩ := herr e m₁ hx he
    exact ⟨e', hs.bind_error, hee⟩

theorem fail {R : World → α → β → Prop} {e e' : EvalError} (h : SameError e e') :
    Reflects d R w (Eval.fail e) fun _ => Course.fail e' := by
  refine fun m hm => ⟨fun a m' h' => (nomatch h'), fun e₁ m' h' _ => ?_⟩
  cases h'
  exact ⟨e', ⟨0, fun _ _ => rfl⟩, h⟩

theorem report {v : Value} {u : Val} (h : Stands d w v u) :
    Reflects d (Stands d) w (fun m => .ok v (m.report v))
      fun _ => Course.report u.bare.render u := by
  refine fun m hm => ⟨fun a m' h' => ?_, fun e m' h' => (nomatch h')⟩
  cases h'
  exact ⟨u, w, ⟨0, fun _ _ => rfl⟩, World.le_refl w, hm.congr rfl rfl, h⟩

section Parts

variable {run : Env → Expr → Eval Value}
  (hrun : ∀ {w : World} {env : Env} {σ : Scope} {e : Expr}, Stack w env σ → Fit d e →
    Reflects d (Stands d) w (run env e) fun k => Storeless.eval d.recursiveLet k σ e)

include hrun

/-- Computing a shared binding for the first time. -/
theorem force {i : BindingId} {x : String} {e : Expr} {env : Env} {τ : Scope}
    (hd : d.strategy = .need) (hi : w.thunks[i]? = some (some (e, τ))) (hs : Stack w env τ) :
    Reflects d (Stands d) w (Eval.force run i x e env)
      fun k => Storeless.eval d.recursiveLet k τ e := by
  intro m hm
  have hm₁ := hm.setBinding (b := .need x (.running e env)) hi ⟨hd, rfl, hs⟩
  obtain ⟨hok, herr⟩ := hrun hs (fun hv => by rw [hd] at hv; cases hv) _ hm₁
  unfold Eval.force
  cases hx : run env e (m.setBinding i (.need x (.running e env))) with
  | ok v m₂ =>
    obtain ⟨u, w₂, hu, hle, hm₂, hv⟩ := hok v m₂ hx
    refine ⟨fun a m' h' => ?_, fun e m' h' => (nomatch h')⟩
    cases h'
    exact ⟨u, w₂, hu, hle, hm₂.setBinding (World.thunk_mono hle hi)
      ⟨hd, u, yields_of_settles hu, hv⟩, hv⟩
  | error s m₂ =>
    refine ⟨fun a m' h' => (nomatch h'), fun e' m' h' he => ?_⟩
    cases h'
    exact herr e' m₂ hx he

/-- Resolving the binding of an expression. -/
theorem resolve {i : BindingId} {e : Expr} {τ : Scope} (hi : w.thunks[i]? = some (some (e, τ))) :
    Reflects d (Stands d) w (Eval.resolve run i)
      fun k => Storeless.eval d.recursiveLet k τ e := by
  intro m hm
  have hcell := hm.cells hi
  have lazy : d.strategy ≠ .value → Fit d e := fun h hv => absurd hv h
  unfold Eval.resolve
  cases hb : m.binding i with
  | undefined x => rw [hb] at hcell; exact hcell.elim
  | value x v =>
    rw [hb] at hcell
    obtain ⟨hd, u, hu, hv⟩ := hcell
    refine ⟨fun a m' h' => ?_, fun e m' h' => (nomatch h')⟩
    cases h'
    exact ⟨u, w, settles_eval hu, World.le_refl w, hm, hv⟩
  | name x e' env =>
    rw [hb] at hcell
    obtain ⟨hd, rfl, hs⟩ := hcell
    exact hrun hs (lazy (by rw [hd]; exact nofun)) m hm
  | need x memo =>
    rw [hb] at hcell
    cases memo with
    | pending e' env =>
      obtain ⟨hd, rfl, hs⟩ := hcell
      exact force hrun hd hi hs m hm
    | running e' env =>
      -- the one error that is of call by need alone
      refine ⟨fun a m' h' => (nomatch h'), fun e₁ m' h' he => ?_⟩
      cases h'
      rcases he with he | he
      · rw [hcell.1] at he; cases he
      · exact absurd rfl he.2
    | done v =>
      obtain ⟨hd, u, hu, hv⟩ := hcell
      refine ⟨fun a m' h' => ?_, fun e m' h' => (nomatch h')⟩
      cases h'
      exact ⟨u, w, settles_eval hu, World.le_refl w, hm, hv⟩

theorem var {env : Env} {σ : Scope} (x : String) (hs : Stack w env σ) :
    Reflects d (Stands d) w (Eval.lookup env x >>= Eval.resolve run)
      fun k => ofVar (Storeless.eval d.recursiveLet k) σ x := by
  intro m hm
  have hslot := hm.lookup hs x
  unfold ofVar
  cases hl : σ.lookup? x with
  | none =>
    rw [hl] at hslot
    have he : SameError (.unbound x) (.unbound x) := ⟨rfl, nofun⟩
    rw [Eval.lookup_bind_of_none hslot]
    exact fail he m hm
  | some t =>
    rw [hl] at hslot
    obtain ⟨i, hi, ht | ⟨hd, ht⟩⟩ := hslot
    · rw [Eval.lookup_bind_of_some hi]
      exact resolve hrun ht m hm
    · -- a placeholder, and errors of call by value are not claimed to be mirrored
      obtain ⟨y, hb⟩ := hm.cells ht
      rw [Eval.lookup_bind_of_some hi]
      refine ⟨fun a m' h' => ?_, fun e m' h' he => ?_⟩
      · simp only [Eval.resolve, hb] at h'
        cases h'
      · rcases he with he | he
        · rw [hd] at he; cases he
        · rw [hd] at he; cases he.1

theorem bindValue (hd : d.strategy = .value) {env : Env} {σ : Scope} {x : String} {e : Expr}
    (hs : Stack w env σ) (he : Fit d e) :
    Reflects d (fun w' i (_ : Unit) => w'.thunks[i]? = some (some (e, σ))) w
      (Eval.bindVar d run env x e) fun _ => pure () := by
  intro m hm
  obtain ⟨hok, -⟩ := hrun hs he m hm
  have hx : Eval.bindVar d run env x e =
      run env e >>= fun v => Eval.newBinding (.value x v) := by
    unfold Eval.bindVar
    rw [hd]
  rw [hx]
  refine ⟨fun i m' h' => ?_, fun e m' h' he => ?_⟩
  · cases hv : run env e m with
    | error s m₁ => rw [Eval.bind_of_error hv] at h'; cases h'
    | ok v m₁ =>
      rw [Eval.bind_of_ok hv] at h'
      cases h'
      obtain ⟨u, w₁, hu, hle, hm₁, hvu⟩ := hok v m₁ hv
      refine ⟨(), w₁.addThunk (some (e, σ)), ⟨0, fun _ _ => rfl⟩,
        World.le_trans hle (World.le_addThunk w₁ _),
        hm₁.addBinding ⟨hd, u, yields_of_settles hu, hvu⟩, ?_⟩
      rw [hm₁.bindings]
      exact World.thunks_addThunk_self w₁ _
  · rcases he with he | he
    · rw [hd] at he; cases he
    · rw [hd] at he; cases he.1

end Parts

end Reflects

/-- The simulation of runs on the machine by storeless ones. -/
def backward (d : Discipline) (run : Env → Expr → Eval Value)
    (hrun : ∀ {w : World} {env : Env} {σ : Scope} {e : Expr}, Stack w env σ → Fit d e →
      Reflects d (Stands d) w (run env e) fun k => Storeless.eval d.recursiveLet k σ e) :
    Simulation d run (Storeless.eval d.recursiveLet) where
  Rel := Reflects d
  silent := Reflects.silent
  bind := Reflects.bind
  fail := Reflects.fail
  report := Reflects.report
  parts := hrun
  var := Reflects.var hrun
  bindValue hd _ _ _ _ _ hs he := Reflects.bindValue hrun hd hs he

/-- **What a run on the machine ends with, storeless evaluation ends with too.** -/
theorem reflects_guarded (d : Discipline) (n : Nat) {w : World} {env : Env} {σ : Scope} {e : Expr}
    (hs : Stack w env σ) (he : Fit d e) :
    Reflects d (Stands d) w (Eval.guarded d n env e)
      fun k => Storeless.eval d.recursiveLet k σ e := by
  induction n generalizing w env σ e with
  | zero => exact fun m hm => ⟨fun a m' h' => (nomatch h'), fun e m' h' => (nomatch h')⟩
  | succ n ih =>
    intro m hm
    obtain ⟨hok, herr⟩ := (backward d (Eval.guarded d n) ih).step hs he m hm
    refine ⟨fun a m' h' => ?_, fun e' m' h' hmir => ?_⟩
    · obtain ⟨b, w', hb, hrest⟩ := hok a m' h'
      exact ⟨b, w', Settles.of_succ hb, hrest⟩
    · obtain ⟨e₁, he₁, hsame⟩ := herr e' m' h' hmir
      exact ⟨e₁, Settles.of_succ he₁, hsame⟩

end CallBy
