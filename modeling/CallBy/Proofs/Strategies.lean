import CallBy.Proofs.Backward
import CallBy.Proofs.Forward

/-!
How the outcomes of the three strategies are related.

A run is carried from the machine to storeless evaluation (`reflects_guarded`) and from there to the
machine under another strategy (`follows_guarded`). Both are about evaluation that refuses to
compare closures, which is evaluation for a run that compares none.

* `Eval.Ends d n e o`: from the empty environment the expression ends with `o`;
* `Eval.Ends.carry`: what a run ends with, the lazy strategies end with, unless it is an error of
  the first strategy alone;
* `name_need_agree`: call by name and call by need;
* `lazy_of_value`: call by value and the lazy strategies.
-/

namespace CallBy

open Storeless

namespace Eval

/-- How a run ends, without the machine that it leaves. -/
def ending {α : Type} : EStateM.Result Stop Machine α → Except Stop α
  | .ok a _ => .ok a
  | .error s _ => .error s

/-- How the evaluation of an expression from the empty environment ends. -/
def outcome (d : Discipline) (n : Nat) (e : Expr) : Except Stop Value :=
  ending (evalClosed d n e Machine.initial)

/-- The evaluation of an expression from the empty environment, with at most `n` nested evaluations,
ends with a value or an error of the program. -/
def Ends (d : Discipline) (n : Nat) (e : Expr) (o : Except EvalError Value) : Prop :=
  outcome d n e = o.mapError .error

/-- How guarded evaluation of an expression from the empty environment ends. -/
def guardedOutcome (d : Discipline) (n : Nat) (e : Expr) : Except Stop Value :=
  ending (guardedClosed d n e Machine.initial)

/-! ### Guarded and plain outcomes -/

section Outcome

variable {d : Discipline} {n k : Nat} {e : Expr}

theorem comparesNoClosures_iff :
    ComparesNoClosures d n e ↔ ∀ s, guardedOutcome d n e = .error s → ¬ Refused s := by
  unfold ComparesNoClosures guardedOutcome
  cases guardedClosed d n e Machine.initial with
  | ok v m => exact ⟨fun _ s h => (nomatch h), fun _ s m h => (nomatch h)⟩
  | error s m =>
    refine ⟨fun h s' hs => ?_, fun h s' m' hs => ?_⟩
    · cases hs
      exact h s m rfl
    · cases hs
      exact h s rfl

/-- A refusal names one of the two comparisons. -/
theorem refused_iff (s : Stop) :
    Refused s ↔ ∃ op ∈ ["=", "!="], s = .error (.unknownBinary op) := by
  simp [Refused, isComparison]

instance : DecidablePred Refused := fun s => decidable_of_iff _ (refused_iff s).symm

instance : Decidable (ComparesNoClosures d n e) :=
  match h : guardedOutcome d n e with
  | .ok _ => .isTrue (comparesNoClosures_iff.mpr (by rw [h]; exact nofun))
  | .error s => decidable_of_iff (¬ Refused s) (by
      rw [comparesNoClosures_iff, h]
      exact ⟨fun hs s' h' => by cases h'; exact hs, fun hs => hs s rfl⟩)

instance (o : Except EvalError Value) : Decidable (Ends d n e o) :=
  inferInstanceAs (Decidable (outcome d n e = o.mapError .error))

/-- A run that compares no closures ends as the guarded one. -/
theorem outcome_eq (h : ComparesNoClosures d n e) : outcome d n e = guardedOutcome d n e := by
  unfold outcome guardedOutcome
  congr 1
  exact guarded_agree n [0] e (Machine.initial.addFrame Frame.empty) h

theorem guardedOutcome_mono (hk : n ≤ k) (h : guardedOutcome d n e ≠ .error .tooDeep) :
    guardedOutcome d k e = guardedOutcome d n e := by
  unfold guardedOutcome at h ⊢
  congr 1
  refine guarded_mono hk [0] e (Machine.initial.addFrame Frame.empty) fun s m hs hdeep => h ?_
  subst hdeep
  exact congrArg ending hs

/-- What hits the bound in guarded evaluation hits it in evaluation. -/
theorem outcome_tooDeep (h : guardedOutcome d n e = .error .tooDeep) :
    outcome d n e = .error .tooDeep := by
  rw [outcome_eq, h]
  rw [comparesNoClosures_iff, h]
  rintro s hs ⟨op, -, rfl⟩
  cases hs

/-- Every outcome but the one of the bound is a value or an error of the program. -/
theorem exists_mapError {x : Except Stop Value} (h : x ≠ .error .tooDeep) :
    ∃ o : Except EvalError Value, x = o.mapError .error := by
  match x with
  | .ok v => exact ⟨.ok v, rfl⟩
  | .error (.error e) => exact ⟨.error e, rfl⟩
  | .error .tooDeep => exact absurd rfl h

theorem mapError_ne_tooDeep (o : Except EvalError Value) :
    o.mapError Stop.error ≠ .error .tooDeep := by
  cases o <;> exact nofun

theorem mapError_injective {o o' : Except EvalError Value}
    (h : o.mapError Stop.error = o'.mapError Stop.error) : o = o' := by
  cases o <;> cases o' <;> cases h <;> rfl

end Outcome

end Eval

open Eval

/-! ### From strategy to strategy -/

/-- The outcomes are the same but for the identity and environment of closures, and no error of call
by need alone. -/
def SameOutcome : Except EvalError Value → Except EvalError Val → Prop :=
  Results fun v u => v.bare = u.bare

theorem SameOutcome.alike {o o' : Except EvalError Value} {p : Except EvalError Val}
    (h : SameOutcome o p) (h' : SameOutcome o' p) : Alike o o' := by
  match o, o', p with
  | .ok v, .ok v', .ok u => exact .ok (Eq.trans h (Eq.symm h'))
  | .error e, .error e', .error e'' => exact .error (h.1.trans h'.1.symm)
  | .ok _, _, .error _ => exact h.elim
  | .error _, _, .ok _ => exact h.elim
  | _, .ok _, .error _ => exact h'.elim
  | _, .error _, .ok _ => exact h'.elim

/-- A refused comparison is refused by every strategy. -/
theorem SameOutcome.not_refused {o o' : Except EvalError Value} {p : Except EvalError Val}
    (h : SameOutcome o p) (h' : SameOutcome o' p)
    (ho : ∀ e, o = .error e → ¬ Refused (.error e)) :
    ∀ e, o' = .error e → ¬ Refused (.error e) := by
  rintro e' rfl ⟨op, hop, he'⟩
  cases he'
  match o, p with
  | .ok v, .ok u => exact h'
  | .error e, .ok u => exact h
  | .ok v, .error e'' => exact h
  | .error e, .error e'' =>
    refine ho e rfl ⟨op, hop, ?_⟩
    have hbare : e.bare = .unknownBinary op := h.1.trans h'.1.symm
    cases e <;> cases hbare
    rfl

theorem SameOutcome.not_selfReference {e : EvalError} {p : Except EvalError Val}
    (h : SameOutcome (.error e) p) : e.kind ≠ .selfReference := by
  match p with
  | .ok u => exact h.elim
  | .error e' => exact h.2

section Carry

variable {d : Discipline} {n : Nat} {e : Expr}

/-- The world of the machine at the beginning of a run. -/
theorem models_start (d : Discipline) :
    Models d ⟨[.top], []⟩ (Machine.initial.addFrame Frame.empty) := by
  have hm : Models d ⟨[], []⟩ Machine.initial :=
    ⟨rfl, rfl, fun hf => (nomatch hf), fun hi => (nomatch hi)⟩
  exact hm.addFrame (σ := .top) fun _ x => rfl

theorem stack_start : Stack ⟨[.top], []⟩ [0] .top := .top rfl

/-- What guarded evaluation ends with, storeless evaluation settles on. -/
theorem settles_of_guardedOutcome {o : Except EvalError Value}
    (h : guardedOutcome d n e = o.mapError .error) (hfit : Fit d e)
    (hmir : ∀ err, o = .error err → Mirrored d err) :
    ∃ p : Except EvalError Val,
      Settles (fun k => Storeless.eval d.recursiveLet k .top e) (p.mapError .error) ∧
        SameOutcome o p := by
  obtain ⟨hok, herr⟩ := reflects_guarded d n stack_start hfit _ (models_start d)
  unfold guardedOutcome at h
  change ending (guarded d n [0] e (Machine.initial.addFrame Frame.empty)) = _ at h
  match o with
  | .ok v =>
    cases hx : guarded d n [0] e (Machine.initial.addFrame Frame.empty) with
    | error s m => rw [hx] at h; cases h
    | ok a m =>
      rw [hx] at h
      cases h
      obtain ⟨u, w, hu, -, -, hv⟩ := hok v m hx
      exact ⟨.ok u, hu, hv.bare_eq⟩
  | .error err =>
    cases hx : guarded d n [0] e (Machine.initial.addFrame Frame.empty) with
    | ok a m => rw [hx] at h; cases h
    | error s m =>
      rw [hx] at h
      cases h
      obtain ⟨err', hs, hsame⟩ := herr err m hx (hmir err rfl)
      exact ⟨.error err', hs, hsame⟩

/-- What storeless evaluation settles on, guarded evaluation under a lazy strategy ends with. -/
theorem guardedOutcome_of_settles {p : Except EvalError Val} (hlazy : d.strategy ≠ .value)
    (h : Settles (fun k => Storeless.eval d.recursiveLet k .top e) (p.mapError .error)) :
    ∃ (o : Except EvalError Value) (n : Nat), SameOutcome o p ∧
      ∀ k ≥ n, guardedOutcome d k e = o.mapError .error := by
  obtain ⟨n, hn⟩ := h
  have hA : Asleep d n ⟨[.top], []⟩ (Machine.initial.addFrame Frame.empty) :=
    fun k _ i e τ hi => (nomatch hi)
  obtain ⟨hok, herr⟩ :=
    follows_guarded hlazy n n (Nat.le_refl n) (e := e) stack_start _ (models_start d) hA
  have hn := hn n (Nat.le_refl n)
  -- within the bound that suffices, and so within every greater one
  have hends : ∃ o : Except EvalError Value, SameOutcome o p ∧
      guardedOutcome d n e = o.mapError .error := by
    cases p with
    | ok u =>
      obtain ⟨v, m, w, hx, -, -, -, -, hv⟩ := hok u hn
      exact ⟨.ok v, hv.bare_eq, congrArg ending hx⟩
    | error err =>
      obtain ⟨err', m, hx, -, hsame⟩ := herr err hn
      exact ⟨.error err', hsame, congrArg ending hx⟩
  obtain ⟨o, hop, ho⟩ := hends
  refine ⟨o, n, hop, fun k hk => ?_⟩
  rw [guardedOutcome_mono hk (by rw [ho]; exact mapError_ne_tooDeep o), ho]

/-- Where one of two runs with the same outcome compares no closures, so does the other. -/
theorem comparesNoClosures_of_same {o o' : Except EvalError Value} {p : Except EvalError Val}
    (hop : SameOutcome o p) (hop' : SameOutcome o' p) (hcmp : ComparesNoClosures d n e)
    (hg : guardedOutcome d n e = o.mapError .error) {d' : Discipline} {k : Nat}
    (hk : guardedOutcome d' k e = o'.mapError .error) : ComparesNoClosures d' k e := by
  have hnot : ∀ err, o = .error err → ¬ Refused (.error err) := by
    rintro err rfl
    exact comparesNoClosures_iff.mp hcmp _ hg
  rw [comparesNoClosures_iff, hk]
  intro stop hs
  match o' with
  | .ok v => cases hs
  | .error err => cases hs; exact hop.not_refused hop' hnot err rfl

/-- **What a run ends with, the lazy strategies end with**, unless it is an error of the strategy of
the run alone. -/
theorem Eval.Ends.carry {o : Except EvalError Value} (h : Ends d n e o)
    (hcmp : ComparesNoClosures d n e) (hfit : Fit d e)
    (hmir : ∀ err, o = .error err → Mirrored d err) {s : Strategy} (hlazy : s ≠ .value) :
    ∃ (o' : Except EvalError Value) (n' : Nat),
      Alike o o' ∧ ∀ k ≥ n', Ends ⟨s, d.recursiveLet⟩ k e o' := by
  have hg : guardedOutcome d n e = o.mapError .error := (outcome_eq hcmp).symm.trans h
  obtain ⟨p, hp, hop⟩ := settles_of_guardedOutcome hg hfit hmir
  obtain ⟨o', n', hop', ho'⟩ := guardedOutcome_of_settles (d := ⟨s, d.recursiveLet⟩) hlazy hp
  refine ⟨o', n', hop.alike hop', fun k hk => ?_⟩
  have hcmp' := comparesNoClosures_of_same hop hop' hcmp hg (ho' k hk)
  exact (outcome_eq hcmp').trans (ho' k hk)

/-- A run of call by name that ends leads to one of call by need that is stopped by no
self-reference. -/
theorem outcome_name_of_selfReference {r : Bool} {err : EvalError}
    (h : Ends ⟨.need, r⟩ n e (.error err)) (hcmp : ComparesNoClosures ⟨.need, r⟩ n e)
    (hself : err.kind = .selfReference) (k : Nat) :
    outcome ⟨.name, r⟩ k e = .error .tooDeep := by
  refine outcome_tooDeep ?_
  by_contra hne
  obtain ⟨o, ho⟩ := exists_mapError hne
  obtain ⟨p, hp, -⟩ := settles_of_guardedOutcome ho (fun hv => (nomatch hv)) fun _ _ => .inl rfl
  obtain ⟨o', n', hop', ho'⟩ := guardedOutcome_of_settles (d := ⟨.need, r⟩) nofun hp
  have hg : guardedOutcome ⟨.need, r⟩ n e = .error (.error err) := (outcome_eq hcmp).symm.trans h
  have hmax := guardedOutcome_mono (Nat.le_max_left n n') (by rw [hg]; exact nofun)
  rw [ho' _ (Nat.le_max_right n n'), hg] at hmax
  obtain rfl : o' = .error err := mapError_injective hmax
  exact hop'.not_selfReference hself

end Carry

/-- **Call by name and call by need agree.** Within a bound on nested evaluations that suffices,
what call by name ends with call by need ends with, and the other way round but for the
self-reference of call by need: where it meets one, call by name hits every bound. -/
theorem name_need_agree (r : Bool) (e : Expr) (n : Nat) :
    (∀ o, Ends ⟨.name, r⟩ n e o → ComparesNoClosures ⟨.name, r⟩ n e →
      ∃ o' n', Alike o o' ∧ ∀ k ≥ n', Ends ⟨.need, r⟩ k e o') ∧
    (∀ o, Ends ⟨.need, r⟩ n e o → ComparesNoClosures ⟨.need, r⟩ n e →
      (∀ err, o = .error err → err.kind ≠ .selfReference) →
      ∃ o' n', Alike o o' ∧ ∀ k ≥ n', Ends ⟨.name, r⟩ k e o') ∧
    ∀ err, Ends ⟨.need, r⟩ n e (.error err) → ComparesNoClosures ⟨.need, r⟩ n e →
      err.kind = .selfReference → ∀ k, outcome ⟨.name, r⟩ k e = .error .tooDeep := by
  refine ⟨fun o h hcmp => ?_, fun o h hcmp hself => ?_, fun err h hcmp hself => ?_⟩
  · exact h.carry hcmp (fun hv => (nomatch hv)) (fun _ _ => .inl rfl) nofun
  · refine h.carry hcmp (fun hv => (nomatch hv)) (fun err herr => .inr ⟨rfl, ?_⟩) nofun
    exact hself err herr
  · exact outcome_name_of_selfReference h hcmp hself

/-- The list of the numbers from 2 down to 1, by a recursive function. -/
def countdown : Expr :=
  .letIn [("f", .map ["n"] (.ite (.binary "=" (.var "n") (.int 0)) .null
    (.app (.prim .cons) [.var "n", .app (.var "f") [.binary "-" (.var "n") (.int 1)]])))]
    (.app (.var "f") [.int 2])

/-- A variable that is defined by itself. -/
def circular : Expr := .letIn [("x", .binary "+" (.var "x") (.int 1))] (.var "x")

/-- Both strategies count down, and a circular definition stops the one and keeps the other busy. -/
theorem name_need_agree_countdown :
    let v := Value.cons (.int 2) (.cons (.int 1) .empty)
    let err := EvalError.selfReference "x" (.binary "+" (.var "x") (.int 1))
    (Ends ⟨.name, true⟩ 20 countdown (.ok v) ∧ ComparesNoClosures ⟨.name, true⟩ 20 countdown ∧
      ∃ o n, Alike (.ok v) o ∧ ∀ k ≥ n, Ends ⟨.need, true⟩ k countdown o) ∧
    (Ends ⟨.need, true⟩ 20 countdown (.ok v) ∧ ComparesNoClosures ⟨.need, true⟩ 20 countdown ∧
      ∃ o n, Alike (.ok v) o ∧ ∀ k ≥ n, Ends ⟨.name, true⟩ k countdown o) ∧
    (Ends ⟨.need, true⟩ 20 circular (.error err) ∧ ComparesNoClosures ⟨.need, true⟩ 20 circular ∧
      ∀ k, outcome ⟨.name, true⟩ k circular = .error .tooDeep) := by
  intro v err
  have hname : Ends ⟨.name, true⟩ 20 countdown (.ok v) := by decide +kernel
  have hneed : Ends ⟨.need, true⟩ 20 countdown (.ok v) := by decide +kernel
  have hself : Ends ⟨.need, true⟩ 20 circular (.error err) := by decide +kernel
  have hname' : ComparesNoClosures ⟨.name, true⟩ 20 countdown := by decide +kernel
  have hneed' : ComparesNoClosures ⟨.need, true⟩ 20 countdown := by decide +kernel
  have hself' : ComparesNoClosures ⟨.need, true⟩ 20 circular := by decide +kernel
  obtain ⟨hto, hfrom, -⟩ := name_need_agree true countdown 20
  obtain ⟨-, -, hnever⟩ := name_need_agree true circular 20
  exact ⟨⟨hname, hname', hto _ hname hname'⟩, ⟨hneed, hneed', hfrom _ hneed hneed' nofun⟩,
    hself, hself', hnever err hself hself' rfl⟩

/-- **Laziness is conservative over call by value**: what call by value ends with, the lazy
strategies end with. -/
theorem lazy_of_value {r : Bool} {e : Expr} {n : Nat} {v : Value} (hdist : e.Distinct)
    (h : Ends ⟨.value, r⟩ n e (.ok v)) (hcmp : ComparesNoClosures ⟨.value, r⟩ n e) {s : Strategy}
    (hs : s ≠ .value) :
    ∃ v' n', v'.bare = v.bare ∧ v'.render = v.render ∧ ∀ k ≥ n', Ends ⟨s, r⟩ k e (.ok v') := by
  obtain ⟨o, n', halike, hends⟩ := h.carry hcmp (fun _ => hdist) nofun hs
  match o with
  | .ok v' => exact ⟨v', n', halike.1.symm, halike.2.symm, hends⟩
  | .error err => exact halike.elim

theorem lazy_of_value_countdown :
    let v := Value.cons (.int 2) (.cons (.int 1) .empty)
    countdown.Distinct ∧ Ends ⟨.value, true⟩ 20 countdown (.ok v) ∧
      ComparesNoClosures ⟨.value, true⟩ 20 countdown ∧
      ∃ v' n', v'.bare = v.bare ∧ v'.render = v.render ∧
        ∀ k ≥ n', Ends ⟨.need, true⟩ k countdown (.ok v') := by
  have hdist : countdown.Distinct := by
    refine .letIn (by decide) ?_ (.app (.var _) ?_)
    · rintro _ (_ | ⟨_, ⟨⟩⟩)
      refine .map (by decide) (.ite (.binary (.var _) (.int _)) .null (.app (.prim _) ?_))
      rintro _ (_ | ⟨_, _ | ⟨_, ⟨⟩⟩⟩)
      · exact .var _
      · refine .app (.var _) ?_
        rintro _ (_ | ⟨_, ⟨⟩⟩)
        exact .binary (.var _) (.int _)
    · rintro _ (_ | ⟨_, ⟨⟩⟩)
      exact .int _
  exact ⟨hdist, by decide +kernel, by decide +kernel,
    lazy_of_value (n := 20) hdist (by decide +kernel) (by decide +kernel) nofun⟩

end CallBy
