import CallBy.Proofs.RoundTrip
import CallBy.Proofs.Substitution

/-!
Rendering keeps the meaning of expressions with negative integers.

What the text of such an expression spells differs from it where a negative integer stands: there is
an operator with an operand, and the operand takes in all applications of the integer. Either of the
two gives the integer or, if it is applied, fails to apply it; the operator takes one level more.

* `eval_calls_int`: what comes of an integer that is applied any number of times;
* `Theory.reread`: the theory of expressions and what they are reread as. `Reread.eval`: either run
  keeps up with the other if it has one level to spare;
* `render_keeps_meaning`.
-/

namespace CallBy

/-! ### Integers that are applied -/

namespace Expr

/-- The expression applied to lists of arguments, one after the other. -/
def calls (f : Expr) (ass : List (List Expr)) : Expr := ass.foldl .app f

theorem calls_concat (f : Expr) (ass : List (List Expr)) (as : List Expr) :
    f.calls (ass ++ [as]) = .app (f.calls ass) as := by
  rw [calls, List.foldl_append]
  rfl

/-- A text that begins with the sign of an integer spells an integer that is applied. -/
theorem exists_calls_of_isNegative {e : Expr} (h : e.isNegative = true) :
    ∃ k ass, k < 0 ∧ e = (int k).calls ass ∧
      e.unsigned = (int k.natAbs).calls (ass.map (·.map reread)) := by
  induction e with
  | int k => exact ⟨k, [], by simpa [isNegative] using h, rfl, rfl⟩
  | app f as ihf _ =>
    obtain ⟨k, ass, hk, hf, hunsigned⟩ := ihf h
    refine ⟨k, ass ++ [as], hk, ?_, ?_⟩
    · rw [calls_concat, ← hf]
    · rw [unsigned, rereadArgs_eq_map, hunsigned, List.map_append, List.map_singleton,
        calls_concat]
  | _ => cases h

end Expr

section Calls

variable (d : Discipline) (n : Nat) (env : Env) (k : Int) (ass : List (List Expr)) (m : Machine)

/-- **An integer that is applied**: arguments are not looked at. -/
theorem eval_calls_int :
    Eval.eval d n env ((Expr.int k).calls ass) m =
      if n ≤ ass.length then .error .tooDeep m
      else if ass = [] then .ok (.int k) m
      else .error (.error (.notFunction (.int k))) m := by
  induction ass using List.reverseRecOn generalizing n with
  | nil => cases n <;> rfl
  | append_singleton ass as ih =>
    rw [Expr.calls_concat, if_neg (c := ass ++ [as] = []) (by simp), List.length_append,
      List.length_singleton]
    cases n with
    | zero => rfl
    | succ n =>
      have happ : Eval.eval d (n + 1) env (.app ((Expr.int k).calls ass) as) =
          Eval.eval d n env ((Expr.int k).calls ass) >>= fun v =>
            Eval.apply d (Eval.eval d n) env v as := rfl
      have hf := ih n
      rw [happ]
      split at hf
      · rw [Eval.bind_of_error hf, if_pos (by omega)]
      · rw [if_neg (by omega)]
        split at hf
        · rw [Eval.bind_of_ok hf]
          rfl
        · rw [Eval.bind_of_error hf]

/-- The same under a minus sign. -/
theorem eval_minus_calls_int :
    Eval.eval d n env (.unary "-" ((Expr.int k).calls ass)) m =
      if n ≤ ass.length + 1 then .error .tooDeep m
      else if ass = [] then .ok (.int (-k)) m
      else .error (.error (.notFunction (.int k))) m := by
  cases n with
  | zero => rfl
  | succ n =>
    have hminus : Eval.eval d (n + 1) env (.unary "-" ((Expr.int k).calls ass)) =
        Eval.eval d n env ((Expr.int k).calls ass) >>= fun v =>
          Eval.lift (applyUnary "-" v) := rfl
    have hcalls := eval_calls_int d n env k ass m
    rw [hminus]
    split at hcalls
    · rw [Eval.bind_of_error hcalls, if_pos (by omega)]
    · rw [if_neg (by omega)]
      split at hcalls
      · next hass =>
        rw [Eval.bind_of_ok hcalls, if_pos hass]
        rfl
      · next hass => rw [Eval.bind_of_error hcalls, if_neg hass]

end Calls

/-! ### Side by side -/

/-- The theory of expressions and what they are reread as, in environments that stand for each other
frame by frame; parameters are to be seen of closures. -/
def Theory.reread : Theory where
  Rel L env e env' e' := e' = e.reread ∧ L.Twins env env'
  view := .byParams
  kept _ _ _ _ := False
  mono hL h := ⟨h.1, h.2.mono hL⟩
  exact h := h.elim
  enter {L env ps b env' ps' b'} h := by
    obtain ⟨heq, henv⟩ := h
    rw [Expr.reread_of_not_isNegative rfl, Expr.unsigned] at heq
    cases heq
    exact ⟨.refl ps, rfl, fun L₁ hL f f' hf => ⟨rfl, .cons ⟨ps, hf⟩ (henv.mono hL)⟩⟩

namespace Reread

/-- The bounds under which the run that may not fall behind has enough levels: one more for the
reread expression. -/
def Bounds : Slack → Nat → Nat → Prop
  | .left, n, n' => n < n'
  | .right, n, n' => n' ≤ n
  | .none, _, _ => False

variable {c : Slack} {d : Discipline} {n n' : Nat} {L : Link} {env env' : Env}

theorem Bounds.of_succ (h : Bounds c (n + 1) (n' + 1)) : Bounds c n n' := by
  cases c with
  | none => exact h
  | left | right => simp only [Bounds] at h ⊢; omega

theorem Bounds.eq_left (h : Bounds c n n') (hlt : n < n') : c = .left := by
  cases c with
  | left => rfl
  | right => exact absurd h (Nat.not_le_of_lt hlt)
  | none => exact h.elim

theorem Bounds.eq_right (h : Bounds c n n') (hle : n' ≤ n) : c = .right := by
  cases c with
  | left => exact absurd h (Nat.not_lt_of_le hle)
  | right => rfl
  | none => exact h.elim

/-- **An expression that begins with the sign of an integer.** -/
theorem negative (hb : Bounds c n n') {e : Expr} (hneg : e.isNegative = true) :
    Paired .reread c L Theory.reread.Values (Eval.eval d n env e)
      (Eval.eval d n' env' e.reread) := by
  intro m m' hm
  obtain ⟨k, ass, hk, rfl, hunsigned⟩ := Expr.exists_calls_of_isNegative hneg
  rw [Expr.reread_of_isNegative hneg, hunsigned, eval_calls_int, eval_minus_calls_int,
    List.length_map]
  by_cases hn : n ≤ ass.length
  · rw [if_pos hn]
    by_cases hn' : n' ≤ ass.length + 1
    · rw [if_pos hn']
      exact .deep (Link.le_refl L) hm
    · have hc : c = .left := hb.eq_left (by omega)
      rw [if_neg hn']
      split <;> exact .behind hc hm.reports (List.prefix_refl _)
  · rw [if_neg hn]
    by_cases hn' : n' ≤ ass.length + 1
    · have hc : c = .right := hb.eq_right (by omega)
      rw [if_pos hn']
      split <;> exact .ahead hc hm.reports (List.prefix_refl _)
    · rw [if_neg hn']
      have habs : -(k.natAbs : Int) = k := by omega
      simp only [List.map_eq_nil_iff, habs]
      split
      · exact .ok (.refl L) hm (.int k)
      · exact .error (Link.le_refl L) hm ⟨rfl, fun h => h.elim⟩

section Step

variable (hrun : Paired.Runs .reread c L (Eval.eval d n) (Eval.eval d n'))
  (henv : L.Twins env env')

include hrun henv

/-- **One evaluation** of an expression that does not begin so. -/
theorem step {e : Expr} (hneg : e.isNegative = false) :
    Paired .reread c L Theory.reread.Values (Eval.eval d (n + 1) env e)
      (Eval.eval d (n' + 1) env' e.reread) := by
  rw [Expr.reread_of_not_isNegative hneg]
  have part : ∀ a, Theory.reread.Rel L env a env' a.reread := fun a => ⟨rfl, henv⟩
  have congr (hc : Congruent .reread L env env' e e.unsigned) :
      Paired .reread c L Theory.reread.Values (Eval.eval d (n + 1) env e)
        (Eval.eval d (n' + 1) env' e.unsigned) :=
    Paired.step hrun rfl hc fun h => h.elim
  cases e with
  | int k =>
    have hk : (k.natAbs : Int) = k := by
      simp only [Expr.isNegative, decide_eq_false_iff_not] at hneg
      omega
    refine congr ?_
    rw [Expr.unsigned, hk]
    exact .int k
  | bool b => exact congr (.bool b)
  | null => exact congr .null
  | prim p => exact congr (.prim p)
  | datum s i => exact congr (.datum s i)
  | var x => exact congr (.var (henv.looks x))
  | unary op a => exact congr (.unary op (part a))
  | binary op l r => exact congr (.binary op (part l) (part r))
  | ite t c a => exact congr (.ite (part t) (part c) (part a))
  | map ps b => exact congr (.map (part (.map ps b)))
  | app f as =>
    have hf := part f
    rw [Expr.reread_of_not_isNegative (e := f) hneg] at hf
    refine congr ?_
    rw [Expr.unsigned, Expr.rereadArgs_eq_map]
    refine .app hf ?_
    rw [List.forall₂_map_right_iff]
    exact List.forall₂_same.mpr fun a _ => part a
  | letIn ds b =>
    have hnames : (ds.map fun p => (p.1, p.2.reread)).map (·.1) = ds.map (·.1) := by
      simp only [List.map_map, Function.comp_def]
    have under : ∀ a : Expr, Under Theory.reread.Rel L env (ds.map (·.1)) a env' (ds.map (·.1))
        a.reread := fun a L₁ hL f f' hf => ⟨rfl, .cons ⟨_, hf⟩ (henv.mono hL)⟩
    rw [Expr.unsigned, Expr.rereadDefs_eq_map]
    refine Paired.letIn hrun (hnames ▸ .refl _) ?_ (hnames ▸ under b)
    rw [Defined, hnames]
    split
    · rw [List.forall₂_map_right_iff]
      exact List.forall₂_same.mpr fun p _ => ⟨fun _ => rfl, under p.2⟩
    · rw [List.forall₂_map_right_iff]
      exact List.forall₂_same.mpr fun p _ => ⟨fun _ => rfl, part p.2⟩

end Step

/-- **Whole evaluations.** -/
theorem eval (d : Discipline) (hb : Bounds c n n') (L : Link) :
    Paired.Runs .reread c L (Eval.eval d n) (Eval.eval d n') := by
  induction n generalizing n' L with
  | zero =>
    intro L₁ _ env e env' e' _ m m' hm
    cases n' with
    | zero => exact .deep (Link.le_refl L₁) hm
    | succ n' =>
      exact .behind (hb.eq_left (by omega)) hm.reports
        (Steady.prefix_final (Eval.eval d (n' + 1) env' e') m')
  | succ n ih =>
    rintro L₁ - env e env' e' ⟨rfl, henv⟩
    cases hneg : e.isNegative with
    | true => exact negative hb hneg
    | false =>
      cases n' with
      | zero =>
        intro m m' hm
        exact .ahead (hb.eq_right (by omega)) hm.reports
          (Steady.prefix_final (Eval.eval d (n + 1) env e) m)
      | succ n' => exact step (ih hb.of_succ L₁) henv hneg

end Reread

/-! ### Outcomes -/

/-- **Rendering keeps the meaning**, of negative integers too. The text of an expression that is
well formed up to sign is that of a program, and the program has the same outcome as the expression
under every discipline. -/
theorem render_keeps_meaning {e : Expr} (h : e.FormedUpToSign) :
    ∃ e', Expr.parse e.render = .ok e' ∧ ∀ d, SameOutcomes
      (fun n => Eval.evalClosed d n e .initial) (fun n => Eval.evalClosed d n e' .initial) := by
  obtain ⟨ts, hs, hd⟩ := (respelled h).exp
  refine ⟨e.reread, parse_of_spells hs hd, fun d => ?_⟩
  have hstart : Theory.reread.Rel .start [0] e [0] e.reread := ⟨rfl, Link.twins_start⟩
  have hkept : ∀ f x e env, ¬ Theory.reread.kept f x e env := fun _ _ _ _ h => h
  refine .of_keepsUp (fun n => ⟨n + 1, fun k hk => ?_⟩) fun n => ⟨n, fun k hk => ?_⟩
  · have hb : Reread.Bounds .left n k := by simp only [Reread.Bounds]; omega
    exact .of_behind rfl ((Reread.eval d hb .start).start hkept hstart)
  · exact .of_ahead rfl ((Reread.eval (c := .right) d hk .start).start hkept hstart)

/-- Negative integers as operands, as an argument and as a function, with the text
`let f := map x to x - -3; in if -1 < 0 then f(-2) else -5(1)(f)`. -/
def negatives : Expr :=
  .letIn [("f", .map ["x"] (.binary "-" (.var "x") (.int (-3))))]
    (.ite (.binary "<" (.int (-1)) (.int 0)) (.app (.var "f") [.int (-2)])
      (.app (.app (.int (-5)) [.int 1]) [.var "f"]))

theorem render_keeps_meaning_negatives :
    negatives.FormedUpToSign ∧ ¬ negatives.WellFormed ∧
      ∃ e', Expr.parse negatives.render = .ok e' ∧ ∀ d, SameOutcomes
        (fun n => Eval.evalClosed d n negatives .initial)
        (fun n => Eval.evalClosed d n e' .initial) := by
  have hf : Expr.IsName "f" := ⟨by decide, by decide⟩
  have hx : Expr.IsName "x" := ⟨by decide, by decide⟩
  have hform : negatives.FormedUpToSign := by
    refine .letIn (by simp) (by simpa using hf) (by simp) ?_ (.ite ?_ ?_ ?_)
    · simpa using Expr.FormedUpToSign.map (by simpa using hx) (by simp)
        (.binary (by decide) (.var hx) (.int (-3)))
    · exact .binary (by decide) (.int (-1)) (.int 0)
    · exact .app (.var hf) (by simpa using Expr.FormedUpToSign.int (-2))
    · refine .app (.app (.int (-5)) ?_) (by simpa using Expr.FormedUpToSign.var hf)
      simpa using Expr.FormedUpToSign.int 1
  have hnot : ¬ negatives.WellFormed := fun h => absurd h.reread_eq (by decide +kernel)
  exact ⟨hform, hnot, render_keeps_meaning hform⟩

/-- The sign in front of an application is read as an operator on all of it. -/
example :
    (Expr.app (.app (.int (-5)) [.int (-1)]) [.var "f"]).reread =
      .unary "-" (.app (.app (.int 5) [.unary "-" (.int 1)]) [.var "f"]) := by
  rfl

end CallBy
