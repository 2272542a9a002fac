import CallBy.Proofs.Acyclic
import CallBy.Proofs.Pairing

/-!
What is known of a machine at a moment of a run.

A run goes along with itself. At every moment its machine agrees with the machine of the other run,
where expressions are the same and environments are made of frames that stand for each other
(`Theory.identical`); so it agrees with itself, under any theory in which an expression does what it
does.

* `Machine.Known m env`: the machine goes along with another, and the environment is made of frames
  that do. `Machine.Known.moment`: this holds at every moment of an evaluation in a known
  environment, and `known_of_passes`: so it does at every moment of a run;
* `Machine.Known.reaches`: what can be reached from a known environment is known;
* `Agree.square`: the agreement of a machine with itself.
-/

namespace CallBy

namespace Link

variable {L L₁ : Link} {env env' : Env}

/-- The environments are made of frames with the same variables that stand for each other. -/
def Twins (L : Link) (env env' : Env) : Prop :=
  List.Forall₂ (fun f f' => ∃ ps, L.Framed f ps f' ps) env env'

theorem Twins.mono (hL : L ≤ L₁) (h : L.Twins env env') : L₁.Twins env env' :=
  h.imp fun _ _ ⟨ps, hf⟩ => ⟨ps, hf.mono hL⟩

theorem Twins.append {roots roots' : Env} (h : L.Twins env env') (h' : L.Twins roots roots') :
    L.Twins (env ++ roots) (env' ++ roots') := List.rel_append h h'

theorem Twins.of_append {roots both : Env} (h : L.Twins (env ++ roots) both) :
    ∃ env' roots', L.Twins env env' ∧ L.Twins roots roots' ∧ both = env' ++ roots' := by
  have hleft := List.forall₂_take env.length h
  have hright := List.forall₂_drop env.length h
  rw [List.take_left] at hleft
  rw [List.drop_left] at hright
  exact ⟨_, _, hleft, hright, (List.take_append_drop env.length both).symm⟩

theorem Twins.has (h : L.Twins env env') : L.Has env env' := by
  induction h with
  | nil => exact ⟨nofun, nofun⟩
  | cons hf _ ih =>
    obtain ⟨ps, hf⟩ := hf
    exact hf.has ih

theorem Twins.exists_framed (h : L.Twins env env') {f : FrameId} (hf : f ∈ env) :
    ∃ f' ps, L.Framed f ps f' ps := by
  induction h with
  | nil => cases hf
  | @cons g g' _ _ hg _ ih =>
    rcases List.mem_cons.mp hf with rfl | hf
    · exact ⟨g', hg⟩
    · exact ih hf

/-- Every variable leads to slots that stand for each other. -/
theorem Twins.looks (h : L.Twins env env') (x : String) : L.Looks env x env' x := by
  induction h with
  | nil => exact .none
  | cons hf _ ih =>
    obtain ⟨ps, hf⟩ := hf
    by_cases hx : x ∈ ps
    · exact hf.looks_new (Lined.mem_zip_self.mpr ⟨rfl, hx⟩)
    · exact hf.looks_old hx hx ih

end Link

/-- The theory in which an expression does what it does, in environments that stand for each other
frame by frame. -/
def Theory.identical : Theory where
  Rel L env e env' e' := e = e' ∧ L.Twins env env'
  view := .whole
  kept _ _ _ _ := False
  mono hL h := ⟨h.1, h.2.mono hL⟩
  exact _ h := h.1
  enter {L env ps b env' ps' b'} h := by
    obtain ⟨heq, henv⟩ := h
    cases heq
    exact ⟨.refl ps, rfl, fun L₁ hL f f' hf => ⟨rfl, .cons ⟨ps, hf⟩ (henv.mono hL)⟩⟩

section Step

variable {d : Discipline} {run run' : Env → Expr → Eval Value} {L : Link}

theorem Paired.identical (hrun : Paired.Runs .identical .none L run run')
    [∀ env e, Steady (run env e)] [∀ env e, Steady (run' env e)] {env env' : Env}
    (henv : L.Twins env env') (e : Expr) :
    Paired .identical .none L Theory.identical.Values (Eval.step d run env e)
      (Eval.step d run' env' e) := by
  have part : ∀ a, Theory.identical.Rel L env a env' a := fun a => ⟨rfl, henv⟩
  have under : ∀ ps a, Under Theory.identical.Rel L env ps a env' ps a :=
    fun ps a L₁ hL f f' hf => ⟨rfl, .cons ⟨ps, hf⟩ (henv.mono hL)⟩
  have congr (hlet : e.isLet = false) : Paired .identical .none L Theory.identical.Values
      (Eval.step d run env e) (Eval.step d run' env' e) :=
    Paired.step hrun rfl (.same (fun a _ => part a) (fun x _ => henv.looks x) (fun _ _ _ => part e)
      hlet) fun _ => rfl
  cases e with
  | letIn ds b =>
    refine Paired.letIn hrun (.refl _) (List.forall₂_same.mpr fun p _ => ⟨fun _ => rfl, ?_⟩)
      (under _ b)
    split
    · exact under _ p.2
    · exact part p.2
  | _ => exact congr rfl

end Step

/-! ### Moments -/

/-- The machine goes along with another one, and the environment is made of frames that do. -/
def Machine.Known (m : Machine) (env : Env) : Prop :=
  ∃ L m' env', Agree .identical L m m' ∧ L.Twins env env'

section Watched

variable {watch : Env → Machine → Bool} {alarm : Stop}

theorem Eval.leaves_attend {α : Type} (env : Env) (x : Eval α) (m : Machine) :
    Eval.leaves (Eval.attend watch alarm env x) m = Eval.leaves x m := by
  simp only [Eval.leaves, Eval.attend]
  cases x m with
  | ok a m' => cases hw : watch env m' <;> simp [hw]
  | error s m' => cases hw : watch env m' <;> simp [hw]

instance Steady.attend {α : Type} (env : Env) (x : Eval α) [Steady x] :
    Steady (Eval.attend watch alarm env x) := by
  refine ⟨fun m => ?_⟩
  rw [Eval.leaves_attend]
  exact keeps m

instance Steady.attendPart (run : Env → Expr → Eval Value) [∀ env e, Steady (run env e)] (env : Env)
    (e : Expr) (env' : Env) (e' : Expr) :
    Steady (Eval.attendPart watch alarm run env e env' e') := by
  by_cases he : ∃ x, e = .var x
  · obtain ⟨x, rfl⟩ := he
    exact inferInstanceAs (Steady (run env' e'))
  · rw [Eval.attendPart_of_ne_var fun x hx => he ⟨x, hx⟩]
    infer_instance

instance Steady.watched (d : Discipline) (n : Nat) (env : Env) (e : Expr) :
    Steady (Eval.watched watch alarm d n env e) := by
  induction n generalizing env e with
  | zero =>
    have : Steady (throw .tooDeep : Eval Value) := ⟨growing_reports.refl⟩
    exact inferInstanceAs (Steady (Eval.attend watch alarm env (throw .tooDeep : Eval Value)))
  | succ n ih =>
    exact inferInstanceAs (Steady (Eval.attend watch alarm env (pure ()) >>= fun _ =>
      Eval.attend watch alarm env
        (Eval.step d (Eval.attendPart watch alarm (Eval.watched watch alarm d n) env e) env e)))

variable {roots roots' : Env} (hwatch : ∀ env m, m.Known (env ++ roots) → watch env m = false)
  {L : Link} (hroots : L.Twins roots roots')

include hwatch hroots

/-- A watch that does not object to what is known does not disturb. -/
theorem Paired.attend {α β : Type} {P : Link → α → β → Prop} {x : Eval α} {x' : Eval β}
    (h : Paired .identical .none L P x x') {env env' : Env} (henv : L.Twins env env') :
    Paired .identical .none L P (Eval.attend watch alarm env x) x' := by
  intro m m' hm
  have quiet : ∀ {L₁ m₁ m₁'}, L ≤ L₁ → Agree .identical L₁ m₁ m₁' → watch env m₁ = false :=
    fun hL hm₁ => hwatch _ _ ⟨_, _, env' ++ roots', hm₁, (henv.append hroots).mono hL⟩
  match hx : x m, hx' : x' m', h hm with
  | _, _, .ok hL hm₁ ha =>
    rw [Eval.attend_of_ok hx, quiet hL.le hm₁]
    exact .ok hL hm₁ ha
  | _, _, .error hL hm₁ he =>
    rw [Eval.attend_of_error hx, quiet hL hm₁]
    exact .error hL hm₁ he
  | _, _, .deep hL hm₁ =>
    rw [Eval.attend_of_error hx, quiet hL hm₁]
    exact .deep hL hm₁

/-- **A watched run goes along with an unwatched one**, if the watch does not object to what is
known. -/
theorem paired_watched (d : Discipline) (n : Nat) :
    Paired.Runs .identical .none L (Eval.watched watch alarm d n) (Eval.eval d n) := by
  induction n generalizing L with
  | zero =>
    rintro L₁ hL env e env' e' ⟨rfl, henv⟩
    have hdeep : Paired .identical .none L₁ Theory.identical.Values
        (throw .tooDeep) (throw .tooDeep) := fun _ _ hm => .deep (Link.le_refl L₁) hm
    exact Paired.attend hwatch (hroots.mono hL) hdeep henv
  | succ n ih =>
    rintro L₁ hL env e env' e' ⟨rfl, henv⟩
    have hroots := hroots.mono hL
    have hbegin : Paired .identical .none L₁ (fun _ _ _ => True)
        (Eval.attend watch alarm env (pure ())) (pure ()) :=
      Paired.attend hwatch hroots (Paired.pure trivial) henv
    have heq : Eval.eval d (n + 1) env' e =
        (pure () >>= fun _ => Eval.step d (Eval.eval d n) env' e) := (pure_bind _ _).symm
    rw [heq]
    refine Paired.bind hbegin fun L₂ _ _ hL₂ _ => ?_
    have henv₂ := henv.mono hL₂.le
    have hroots₂ := hroots.mono hL₂.le
    refine Paired.attend hwatch hroots₂ (Paired.identical (fun L₃ hL₃ η a η' a' ha => ?_) henv₂ e)
      henv₂
    have hpart := (ih (hroots₂.mono hL₃)).apply ha
    by_cases he : ∃ x, e = .var x
    · obtain ⟨x, rfl⟩ := he
      exact hpart
    · rw [Eval.attendPart_of_ne_var fun x hx => he ⟨x, hx⟩]
      exact Paired.attend hwatch (hroots₂.mono hL₃) hpart (henv₂.mono hL₃)

end Watched

/-- The empty environment is made of one frame. -/
theorem Link.twins_start : Link.start.Twins [0] [0] := .cons ⟨[], rfl, rfl, nofun⟩ .nil

/-- The machine with nothing but an empty frame is known. -/
theorem known_start : (Machine.initial.addFrame Frame.empty).Known [0] :=
  ⟨.start, _, [0], Agree.start _ fun _ _ _ _ hk => hk, Link.twins_start⟩

/-- **At every moment of an evaluation the machine is known**, with the environment of the evaluator
at work and the frames that were known before. -/
theorem Machine.Known.moment {d : Discipline} {n : Nat} {env roots η : Env} {e : Expr}
    {m m' : Machine} (hm : m.Known (env ++ roots)) (h : Eval.ComesTo d n env e m η m') :
    m'.Known (η ++ roots) := by
  obtain ⟨L, m₁, twins, hm, htwins⟩ := hm
  obtain ⟨env', roots', henv, hroots, rfl⟩ := htwins.of_append
  by_contra hno
  have hwatch : ∀ env' m'', m''.Known (env' ++ roots) → (env' == η && m'' == m') = false := by
    intro env' m'' hk
    by_contra hobj
    simp only [Bool.not_eq_false, Bool.and_eq_true, beq_iff_eq] at hobj
    exact hno (hobj.1 ▸ hobj.2 ▸ hk)
  -- the unwatched evaluation would end with errors of different kinds
  have hkind : ∀ err : EvalError, ∃ err', Eval.ending (Eval.eval d n env' e m₁) =
      .error (.error err') ∧ err.kind = err'.kind := by
    intro err
    have hrun : Paired.Runs .identical .none L
        (Eval.watched (fun env' m'' => env' == η && m'' == m') (.error err) d n)
        (Eval.eval d n) := paired_watched hwatch hroots d n
    have hrel : Theory.identical.Rel L env e env' e := ⟨rfl, henv⟩
    have hend := hrun.apply hrel hm
    have hraised := h (.error err)
    generalize Eval.watched _ _ d n env e m = r, Eval.eval d n env' e m₁ = r' at hend hraised ⊢
    cases hend with
    | ok _ _ _ => cases hraised
    | error _ _ hlike =>
      cases hraised
      exact ⟨_, rfl, hlike.1⟩
    | deep _ _ => cases hraised
    | behind hc _ _ => cases hc
    | ahead hc _ _ => cases hc
  obtain ⟨err, herr, hk⟩ := hkind (.unbound "")
  obtain ⟨err', herr', hk'⟩ := hkind (.selfReference "" .null)
  rw [herr] at herr'
  cases herr'
  rw [← hk] at hk'
  cases hk'

/-- **At every moment of a run the machine is known**, with the environment of the evaluator at
work. -/
theorem known_of_passes {d : Discipline} {n : Nat} {e : Expr} {env : Env} {m : Machine}
    (h : Eval.Passes d n e env m) : m.Known env := by
  have hstart : (Machine.initial.addFrame Frame.empty).Known ([0] ++ []) := known_start
  have hcomes : Eval.ComesTo d n [0] e (Machine.initial.addFrame Frame.empty) env m := h
  have hm := hstart.moment hcomes
  rwa [List.append_nil] at hm

/-! ### What can be reached -/

section Reaches

variable {L : Link} {m m' : Machine} {env env' η : Env}

theorem exists_framed_of_values {v v' : Value} (h : Theory.identical.Values L v v') {f : FrameId}
    (hf : f ∈ v.frames) : ∃ f' ps, L.Framed f ps f' ps := by
  induction h with
  | cons _ _ iha ihr => exact (List.mem_append.mp hf).elim iha ihr
  | closure hc => exact hc.2.2.exists_framed hf
  | _ => cases hf

theorem exists_framed_of_bindings {b b' : Binding} (h : Theory.identical.Bindings L b b')
    {f : FrameId} (hf : f ∈ b.frames) : ∃ f' ps, L.Framed f ps f' ps := by
  cases h with
  | undefined _ => cases hf
  | value hv => exact exists_framed_of_values hv hf
  | name hr => exact hr.2.exists_framed hf
  | pending _ hr => exact hr.2.exists_framed hf
  | running _ hr => exact hr.2.exists_framed hf
  | done hv => exact exists_framed_of_values hv hf

/-- The frame or the binding is linked. -/
def Link.Knows (L : Link) : Node → Prop
  | .frame f => ∃ f' ps, L.Framed f ps f' ps
  | .cell i => ∃ i', L.bindings i i'

/-- What is linked refers to what is linked. -/
theorem Agree.knows_of_ref (h : Agree .identical L m m') {a b : Node} (ha : L.Knows a)
    (hb : b ∈ m.refs a) : L.Knows b := by
  cases a with
  | frame f =>
    obtain ⟨f', ps, hf⟩ := ha
    obtain ⟨s, hs, rfl⟩ := List.mem_map.mp hb
    have hget := (h.left.binds f).get?_of_mem hs
    have hx : s.1 ∈ ps := by
      rw [← hf.names_left]
      exact (h.left.names f s.1).mp (by rw [hget]; rfl)
    obtain ⟨j, j', hj, -, hlink⟩ := h.slots (hf.slots (Lined.mem_zip_self.mpr ⟨rfl, hx⟩))
    rw [hget] at hj
    cases hj
    exact ⟨j', hlink⟩
  | cell i =>
    obtain ⟨i', hi⟩ := ha
    obtain ⟨f, hf, rfl⟩ := List.mem_map.mp hb
    exact exists_framed_of_bindings (h.bindings hi).2.2 hf

/-- **What can be reached from a known environment is known.** -/
theorem Machine.Known.reaches (h : m.Known env) (hη : ∀ f ∈ η, m.Reaches env (.frame f)) :
    m.Known η := by
  obtain ⟨L, m', env', hm, henv⟩ := h
  have hknows : ∀ {a}, m.Reaches env a → L.Knows a := by
    intro a ha
    induction ha with
    | env hf => exact henv.exists_framed hf
    | ref _ hb ih => exact hm.knows_of_ref ih hb
  suffices htwins : ∃ η', L.Twins η η' by
    obtain ⟨η', htwins⟩ := htwins
    exact ⟨L, m', η', hm, htwins⟩
  induction η with
  | nil => exact ⟨[], .nil⟩
  | cons f η ih =>
    obtain ⟨hf, hη⟩ := List.forall_mem_cons.mp hη
    obtain ⟨f', ps, hframed⟩ := hknows hf
    obtain ⟨η', htwins⟩ := ih hη
    exact ⟨f' :: η', .cons ⟨ps, hframed⟩ htwins⟩

end Reaches

/-! ### A machine and itself -/

/-- What is linked to the same stands for itself. -/
def Link.square (L : Link) : Link where
  vars := L.vars
  vars' := L.vars
  slots f x g y := ∃ f' x', L.slots f x f' x' ∧ L.slots g y f' x'
  bindings i j := ∃ i', L.bindings i i' ∧ L.bindings j i'
  closures c d := ∃ c', L.closures c c' ∧ L.closures d c'

section Square

variable {L : Link} {m m' : Machine} {env env' : Env}

theorem Link.Twins.square (h : L.Twins env env') : L.square.Twins env env := by
  refine List.forall₂_same.mpr fun f hf => ?_
  obtain ⟨f', ps, hframed⟩ := h.exists_framed hf
  refine ⟨ps, hframed.left, hframed.left, fun {x x'} hx => ?_⟩
  obtain ⟨rfl, -⟩ := Lined.mem_zip_self.mp hx
  exact ⟨f', x, hframed.slots hx, hframed.slots hx⟩

variable {T : Theory}
  (hrel : ∀ {env e}, L.square.Twins env env → T.Rel L.square env e env e)

include hrel

theorem Theory.Values.square {v v' : Value} (h : Theory.identical.Values L v v') :
    T.Values L.square v v := by
  induction h with
  | int n => exact .int n
  | bool b => exact .bool b
  | empty => exact .empty
  | cons _ _ iha ihr => exact .cons iha ihr
  | closure hc => exact .closure ⟨⟨_, hc.1, hc.1⟩, hrel hc.2.2.square⟩
  | prim p => exact .prim p

theorem Theory.Bindings.square {b b' : Binding} (h : Theory.identical.Bindings L b b') :
    T.Bindings L.square b b := by
  cases h with
  | undefined _ => exact .undefined fun _ => rfl
  | value hv => exact .value (Theory.Values.square hrel hv)
  | name hr => exact .name (hrel hr.2.square)
  | pending _ hr => exact .pending (fun _ => rfl) (hrel hr.2.square)
  | running _ hr => exact .running (fun _ => rfl) (hrel hr.2.square)
  | done hv => exact .done (Theory.Values.square hrel hv)

/-- **A machine that goes along with another agrees with itself**, under any theory in which
expressions do what they do. -/
theorem Agree.square (h : Agree .identical L m m') (hkept : ∀ f x e env, ¬ T.kept f x e env) :
    Agree T L.square m m := by
  refine ⟨h.left, h.left, ?_, ?_, ?_, ?_, ?_, ?_, fun hk => absurd hk (hkept _ _ _ _),
    .refl _ m⟩
  · rintro f x g y ⟨f', x', hs, ht⟩
    obtain ⟨rfl, rfl⟩ := (h.slots_iff hs ht).mpr ⟨rfl, rfl⟩
    obtain ⟨i, i', hi, -, hb⟩ := h.slots hs
    exact ⟨i, i, hi, hi, i', hb, hb⟩
  · rintro f x g y f₁ x₁ g₁ y₁ ⟨f', x', hs, ht⟩ ⟨f₁', x₁', hs₁, ht₁⟩
    rw [h.slots_iff hs hs₁, h.slots_iff ht ht₁]
  · rintro i j ⟨i', hi, hj⟩
    obtain rfl := (h.bindings_iff hi hj).mpr rfl
    have hb := h.bindings hi
    exact ⟨hb.1, hb.1, hb.2.2.square hrel⟩
  · rintro i j i₁ j₁ ⟨i', hi, hj⟩ ⟨i₁', hi₁, hj₁⟩
    rw [h.bindings_iff hi hi₁, h.bindings_iff hj hj₁]
  · rintro c d ⟨c', hc, hd⟩
    exact ⟨(h.closures hc).1, (h.closures hd).1⟩
  · rintro c d c₁ d₁ ⟨c', hc, hd⟩ ⟨c₁', hc₁, hd₁⟩
    rw [h.closures_iff hc hc₁, h.closures_iff hd hd₁]

end Square

end CallBy
