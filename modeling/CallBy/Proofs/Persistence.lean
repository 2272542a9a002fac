import CallBy.Proofs.Cells
import CallBy.Proofs.LetRule
import CallBy.Proofs.Standards

/-!
Frames are persistent.

An evaluation leaves every frame that it finds as it is, with what it extends, and of the bindings
that it finds it writes to shared ones only. A recursive `let` does write to a frame that others
see already: to its own new one, whose slots are undefined until their definitions are reached.

* `Machine.Completed m m'`: what comes of a machine in an evaluation that ends with a value; none of
  the new frames has an undefined slot. `Machine.CompletedBut` is the same with some slots waiting
  for their definitions;
* `Eval.Completes m P x`: if the computation ends with a value, the machine is completed by it;
* `completes_eval`: every evaluation does this;
* `frames_persistent`: what an evaluation does to frames and bindings.
-/

namespace CallBy

namespace Machine

/-- There is a binding at the address, and its definition has been reached. -/
def IsDefined (m : Machine) (i : BindingId) : Prop := ∀ x, m.binding i ≠ .undefined x

theorem IsDefined.lt_size {m : Machine} {i : BindingId} (h : m.IsDefined i) :
    i < m.bindings.size := by
  by_contra hge
  exact h "" (by simp [binding, Array.getElem?_eq_none (Nat.le_of_not_lt hge)])

/-- What is defined stays so. -/
theorem IsDefined.later {m m' : Machine} {i : BindingId} (h : m.IsDefined i) (hl : m.Later m') :
    m'.IsDefined i := by
  have hold := hl.old i h.lt_size
  unfold IsDefined at h ⊢
  generalize m.binding i = b at h hold
  generalize m'.binding i = b' at hold
  cases hold with
  | same => exact h
  | done => exact nofun

theorem isDefined_addBinding (m : Machine) {b : Binding} (hb : ∀ x, b ≠ .undefined x) :
    (m.addBinding b).IsDefined m.bindings.size := by
  intro x
  rw [binding_addBinding, if_pos rfl]
  exact hb x

/-- **What comes of a machine**: the old frames are as they were, the old bindings are as they were
or done, and a variable of a new frame has a defined binding unless it is waiting for one. -/
structure CompletedBut (waiting : FrameId → String → Prop) (m m' : Machine) : Prop where
  frames : m.SameFrames m'
  later : m.Later m'
  slots : ∀ {f x i}, m.frames.size ≤ f → (m'.frame f).get? x = some i →
    m'.IsDefined i ∨ waiting f x

/-- What comes of a machine by the time that no variable is waiting. -/
abbrev Completed : Machine → Machine → Prop := CompletedBut fun _ _ => False

namespace CompletedBut

variable {waiting waiting' : FrameId → String → Prop} {m m' m'' : Machine}

/-- As long as there is no new frame, nothing is waiting. -/
theorem of_frames (hl : m.Later m') (hf : m'.frames = m.frames) : CompletedBut waiting m m' := by
  have hframe : ∀ f, m'.frame f = m.frame f := fun f => by rw [frame, frame, hf]
  refine ⟨⟨by simp [hf], fun _ => hframe _⟩, hl, fun {f x i} hge hget => ?_⟩
  rw [hframe, frame, Array.getElem?_eq_none hge] at hget
  cases hget

theorem refl (m : Machine) : CompletedBut waiting m m := of_frames (growing_later.refl m) rfl

theorem weaken (h : CompletedBut waiting m m') (hw : ∀ f x, waiting f x → waiting' f x) :
    CompletedBut waiting' m m' :=
  ⟨h.frames, h.later, fun hf hget => (h.slots hf hget).imp_right (hw _ _)⟩

/-- A completed evaluation in between changes nothing in what is waiting. -/
theorem trans (h : CompletedBut waiting m m') (h' : m'.Completed m'') :
    CompletedBut waiting m m'' := by
  refine ⟨growing_sameFrames.trans h.frames h'.frames, h.later.trans h'.later,
    fun {f x i} hf hget => ?_⟩
  by_cases hlt : f < m'.frames.size
  · rw [h'.frames.frame hlt] at hget
    exact (h.slots hf hget).imp_left fun hi => hi.later h'.later
  · exact (h'.slots (by omega) hget).imp_right False.elim

theorem addFrame (h : CompletedBut waiting m m') {F : Frame}
    (hF : ∀ x i, F.get? x = some i → m'.IsDefined i ∨ waiting m'.frames.size x) :
    CompletedBut waiting m (m'.addFrame F) := by
  refine ⟨growing_sameFrames.trans h.frames (growing_sameFrames.addFrame m' F),
    h.later.trans (growing_later.addFrame m' F), fun {f x i} hf hget => ?_⟩
  rw [frame_addFrame] at hget
  split at hget
  · next heq => exact heq ▸ hF x i hget
  · exact h.slots hf hget

/-- A slot of a new frame is written, for which a variable may have been waiting. -/
theorem setSlot (h : CompletedBut waiting m m') {f : FrameId} (hge : m.frames.size ≤ f)
    (hlt : f < m'.frames.size) {x : String} {i : BindingId} (hi : m'.IsDefined i)
    (hw : ∀ g y, waiting g y → (f = g ∧ x = y) ∨ waiting' g y) :
    CompletedBut waiting' m (m'.setSlot f x i) := by
  refine ⟨growing_sameFrames.setSlot h.frames hge x i, growing_later.setSlot h.later hge x i,
    fun {g y j} hg hget => ?_⟩
  have hset : (f = g ∧ x = y ∧ i = j) ∨ (¬ (f = g ∧ x = y) ∧ (m'.frame g).get? y = some j) := by
    rw [frame_setSlot m' hlt] at hget
    split at hget
    · next hfg =>
      subst hfg
      rw [Frame.get?_set] at hget
      split at hget
      · next hxy => exact .inl ⟨rfl, hxy, by simpa using hget⟩
      · next hxy => exact .inr ⟨fun heq => hxy heq.2, hget⟩
    · next hfg => exact .inr ⟨fun heq => hfg heq.1, hget⟩
  rcases hset with ⟨-, -, rfl⟩ | ⟨hne, hold⟩
  · exact .inl hi
  · exact (h.slots hg hold).imp_right fun hwait => (hw g y hwait).resolve_left hne

/-- A shared binding has been computed in between. -/
theorem force {i : BindingId} {x : String} {e : Expr} {env : Env}
    (hi : m.binding i = .need x (.pending e env))
    (h : CompletedBut waiting (m.setBinding i (.need x (.running e env))) m') (v : Value) :
    CompletedBut waiting m (m'.setBinding i (.need x (.done v))) := by
  refine ⟨⟨h.frames.frames_le, h.frames.frame⟩, h.later.force hi (hi ▸ .done x e env v),
    fun {f y j} hf hget => (h.slots hf hget).imp_left fun hj => ?_⟩
  by_cases hij : i = j
  · subst hij
    intro z
    rw [binding_setBinding_self m' _ hj.lt_size]
    exact nofun
  · intro z
    rw [binding_setBinding_of_ne m' _ hij]
    exact hj z

end CompletedBut

end Machine

/-! ### Computations -/

open Machine (Completed CompletedBut IsDefined)

/-- **If the computation ends with a value, the machine is completed by it**, and the value is as
`P` says. -/
def Eval.Completes (m : Machine) {α : Type} (P : Machine → α → Prop) (x : Eval α) : Prop :=
  ∀ ⦃a m'⦄, x m = .ok a m' → m.Completed m' ∧ P m' a

namespace Eval.Completes

variable {m : Machine} {α β : Type} {P : Machine → α → Prop} {Q : Machine → β → Prop}

theorem bind {x : Eval α} {f : α → Eval β} (hx : Completes m P x)
    (hf : ∀ a m₁, m.Completed m₁ → P m₁ a → Completes m₁ Q (f a)) : Completes m Q (x >>= f) := by
  intro b m₂ hb
  cases hxm : x m with
  | ok a m₁ =>
    rw [Eval.bind_of_ok hxm] at hb
    obtain ⟨hm₁, ha⟩ := hx hxm
    obtain ⟨hm₂, hb⟩ := hf a m₁ hm₁ ha hb
    exact ⟨hm₁.trans hm₂, hb⟩
  | error s m₁ =>
    rw [Eval.bind_of_error hxm] at hb
    cases hb

theorem pure {a : α} (h : P m a) : Completes m P (Pure.pure a) := by
  rintro _ _ ⟨⟩
  exact ⟨.refl m, h⟩

theorem fail (e : EvalError) : Completes m P (Eval.fail e) := nofun

theorem lift (r : Except EvalError α) : Completes m (fun _ _ => True) (Eval.lift r) := by
  cases r with
  | ok a => exact pure trivial
  | error e => exact fail e

theorem newBinding {b : Binding} (hnew : b.IsNew) (hb : ∀ x, b ≠ .undefined x) :
    Completes m IsDefined (Eval.newBinding b) := by
  rintro _ _ ⟨⟩
  exact ⟨.of_frames (.addBinding m hnew) rfl, m.isDefined_addBinding hb⟩

/-- A frame of defined bindings. -/
theorem newFrame {slots : List (String × BindingId)} (h : ∀ s ∈ slots, m.IsDefined s.2) :
    Completes m (fun _ _ => True) (Eval.newFrame (Frame.ofSlots slots)) := by
  rintro _ _ ⟨⟩
  refine ⟨(CompletedBut.refl m).addFrame fun x i hget => .inl ?_, trivial⟩
  rw [get?_ofSlots] at hget
  exact h _ (mem_of_lastOf? hget)

theorem newClosure (ps : List String) (b : Expr) (env : Env) :
    Completes m (fun _ _ => True) (Eval.newClosure ps b env) := by
  rintro _ _ ⟨⟩
  exact ⟨.of_frames (Machine.growing_later.addClosure m) rfl, trivial⟩

theorem lookup (env : Env) (x : String) : Completes m (fun _ _ => True) (Eval.lookup env x) := by
  intro i m' hi
  unfold Eval.lookup at hi
  split at hi
  · cases hi
    exact ⟨.refl m, trivial⟩
  · cases hi

theorem callPrim (p : Prim) (vs : List Value) :
    Completes m (fun _ _ => True) (Eval.callPrim p vs) := by
  by_cases ht : ∃ v, p = .tick ∧ vs = [v]
  · obtain ⟨v, rfl, rfl⟩ := ht
    rintro _ _ ⟨⟩
    exact ⟨.of_frames (Machine.growing_later.report m v) rfl, trivial⟩
  · rw [Eval.callPrim_eq_lift fun v hv => ht ⟨v, hv⟩]
    exact lift _

/-- Undefined bindings for variables that are to wait. -/
theorem reserve (ds : List (String × Expr)) :
    Completes m (fun _ slots => slots.map (·.1) = ds.map (·.1)) (Eval.reserve ds) := by
  induction ds generalizing m with
  | nil => exact pure rfl
  | cons p ds ih =>
    have hnew : Completes m (fun _ _ => True) (Eval.newBinding (.undefined p.1)) := by
      rintro _ _ ⟨⟩
      exact ⟨.of_frames (.addBinding m nofun) rfl, trivial⟩
    refine bind hnew fun i m₁ _ _ => ?_
    exact bind ih fun later m₂ _ hlater => pure (by simp [hlater])

/-! ### Evaluation in terms of the evaluation of parts -/

/-- Nested evaluations complete the machine. -/
def Runs (run : Env → Expr → Eval Value) : Prop :=
  ∀ m env e, Completes m (fun _ _ => True) (run env e)

section Step

variable {d : Discipline} {run : Env → Expr → Eval Value} (hrun : Runs run)

include hrun

theorem force {i : BindingId} {x : String} {e : Expr} {env : Env}
    (hi : m.binding i = .need x (.pending e env)) :
    Completes m (fun _ _ => True) (Eval.force run i x e env) := by
  intro v m' hv
  cases hx : run env e (m.setBinding i (.need x (.running e env))) with
  | ok u m₁ =>
    rw [Eval.force_of_ok hx] at hv
    cases hv
    exact ⟨(hrun _ env e hx).1.force hi v, trivial⟩
  | error s m₁ =>
    rw [Eval.force_of_error hx] at hv
    cases hv

theorem resolve (i : BindingId) : Completes m (fun _ _ => True) (Eval.resolve run i) := by
  intro v m' hv
  unfold Eval.resolve at hv
  split at hv
  · cases hv
  · cases hv
    exact ⟨.refl m, trivial⟩
  · exact hrun m _ _ hv
  · next hb => exact force hrun hb hv
  · cases hv
  · cases hv
    exact ⟨.refl m, trivial⟩

theorem bindVar (env : Env) (x : String) (e : Expr) :
    Completes m IsDefined (Eval.bindVar d run env x e) := by
  unfold Eval.bindVar
  cases d.strategy with
  | value => exact bind (hrun m env e) fun v m₁ _ _ => newBinding nofun nofun
  | name => exact newBinding nofun nofun
  | need =>
    refine newBinding (fun y memo h => ?_) nofun
    cases h
    exact ⟨e, env, rfl⟩

theorem bindAll (env : Env) (ds : List (String × Expr)) :
    Completes m (fun m' slots => ∀ s ∈ slots, m'.IsDefined s.2) (Eval.bindAll d run env ds) := by
  induction ds generalizing m with
  | nil => exact pure nofun
  | cons p ds ih =>
    refine bind (bindVar hrun env p.1 p.2) fun i m₁ _ hi => ?_
    refine bind ih fun later m₂ hm₂ hlater => pure ?_
    exact List.forall_mem_cons.mpr ⟨hi.later hm₂.later, hlater⟩

/-- **Filling a new frame**, whose variables are waiting for their definitions. -/
theorem fill {f : FrameId} {env : Env} {ds : List (String × Expr)} {m₀ : Machine}
    (h : CompletedBut (fun g x => g = f ∧ x ∈ ds.map (·.1)) m₀ m) (hge : m₀.frames.size ≤ f)
    (hlt : f < m.frames.size) {m' : Machine} (hfill : Eval.fill d run f env ds m = .ok () m') :
    m₀.Completed m' := by
  induction ds generalizing m with
  | nil =>
    cases hfill
    exact h.weaken fun _ _ hw => nomatch hw.2
  | cons p ds ih =>
    rw [Eval.fill] at hfill
    cases hb : Eval.bindVar d run env p.1 p.2 m with
    | error s m₁ =>
      rw [Eval.bind_of_error hb] at hfill
      cases hfill
    | ok i m₁ =>
      rw [Eval.bind_of_ok hb] at hfill
      obtain ⟨hm₁, hi⟩ := bindVar hrun env p.1 p.2 hb
      have hlt₁ : f < m₁.frames.size := Nat.lt_of_lt_of_le hlt hm₁.frames.frames_le
      refine ih ((h.trans hm₁).setSlot hge hlt₁ hi fun g y hw => ?_) (by simpa using hlt₁) hfill
      obtain ⟨rfl, hy⟩ := hw
      rcases List.mem_cons.mp hy with rfl | hy
      · exact .inl ⟨rfl, rfl⟩
      · exact .inr ⟨rfl, hy⟩

theorem define (env : Env) (ds : List (String × Expr)) :
    Completes m (fun _ _ => True) (Eval.define d run env ds) := by
  unfold Eval.define
  split
  · -- until it is filled the frame is in the machine with variables that are waiting
    intro env' m' hdef
    cases hr : Eval.reserve ds m with
    | error s m₁ => rw [Eval.bind_of_error hr] at hdef; cases hdef
    | ok slots m₁ =>
      obtain ⟨hm₁, hslots⟩ := reserve ds hr
      have hnew : Eval.newFrame (Frame.ofSlots slots) m₁ =
          .ok m₁.frames.size (m₁.addFrame (Frame.ofSlots slots)) := rfl
      have hframe : CompletedBut (fun g x => g = m₁.frames.size ∧ x ∈ ds.map (·.1)) m
          (m₁.addFrame (Frame.ofSlots slots)) := by
        refine (hm₁.weaken fun _ _ => False.elim).addFrame fun x i hget => .inr ⟨rfl, ?_⟩
        rw [get?_ofSlots] at hget
        rw [← hslots]
        exact List.mem_map_of_mem (mem_of_lastOf? hget)
      rw [Eval.bind_of_ok hr, Eval.bind_of_ok hnew] at hdef
      cases hf : Eval.fill d run m₁.frames.size (m₁.frames.size :: env) ds
          (m₁.addFrame (Frame.ofSlots slots)) with
      | error s m₂ => rw [Eval.bind_of_error hf] at hdef; cases hdef
      | ok u m₂ =>
        rw [Eval.bind_of_ok hf] at hdef
        cases hdef
        exact ⟨fill hrun hframe hm₁.frames.frames_le (by simp) hf, trivial⟩
  · refine bind (bindAll hrun env ds) fun slots m₁ _ hslots => ?_
    exact bind (newFrame hslots) fun f m₂ _ _ => pure trivial

theorem evalAll (env : Env) (es : List Expr) :
    Completes m (fun _ _ => True) (Eval.evalAll run env es) := by
  induction es generalizing m with
  | nil => exact pure trivial
  | cons e es ih =>
    refine bind (hrun m env e) fun v m₁ _ _ => ?_
    exact bind ih fun later m₂ _ _ => pure trivial

theorem apply (env : Env) (v : Value) (as : List Expr) :
    Completes m (fun _ _ => True) (Eval.apply d run env v as) := by
  unfold Eval.apply
  split
  · split
    · refine bind (bindAll hrun env _) fun slots m₁ _ hslots => ?_
      exact bind (newFrame hslots) fun f m₂ _ _ => hrun m₂ _ _
    · exact fail _
  · split
    · exact bind (evalAll hrun env as) fun vs m₁ _ _ => callPrim _ vs
    · exact fail _
  · exact fail _

theorem connect (c : Connective) (env : Env) (l r : Expr) :
    Completes m (fun _ _ => True) (Eval.connect run c env l r) := by
  unfold Eval.connect
  refine bind (hrun m env l) fun a m₁ _ _ => ?_
  refine bind (lift _) fun b m₂ _ _ => ?_
  split
  · exact pure trivial
  · refine bind (hrun m₂ env r) fun c m₃ _ _ => ?_
    exact bind (lift _) fun t m₄ _ _ => pure trivial

theorem branch (env : Env) (t c a : Expr) :
    Completes m (fun _ _ => True) (Eval.branch run env t c a) := by
  unfold Eval.branch
  refine bind (hrun m env t) fun v m₁ _ _ => ?_
  split
  · exact hrun m₁ env c
  · exact hrun m₁ env a
  · exact fail _

/-- **One evaluation completes the machine if its parts do.** -/
theorem step (env : Env) (e : Expr) : Completes m (fun _ _ => True) (Eval.step d run env e) := by
  cases e with
  | int | bool | null | prim => exact pure trivial
  | var x => exact bind (lookup env x) fun i m₁ _ _ => resolve hrun i
  | unary op a => exact bind (hrun m env a) fun v m₁ _ _ => lift _
  | binary op l r =>
    simp only [Eval.step]
    split
    · exact connect hrun _ env l r
    · refine bind (hrun m env l) fun a m₁ _ _ => ?_
      exact bind (hrun m₁ env r) fun b m₂ _ _ => lift _
  | ite t c a => exact branch hrun env t c a
  | map ps b => exact newClosure ps b env
  | app f as => exact bind (hrun m env f) fun v m₁ _ _ => apply hrun env v as
  | letIn ds b => exact bind (define hrun env ds) fun env' m₁ _ _ => hrun m₁ env' b
  | datum s i => exact fail _

end Step

end Eval.Completes

/-- **Every evaluation that ends with a value completes the machine.** -/
theorem completes_eval (d : Discipline) (n : Nat) : Eval.Completes.Runs (Eval.eval d n) := by
  induction n with
  | zero => exact fun m env e => nofun
  | succ n ih => exact fun m env e => Eval.Completes.step ih env e

/-! ### Persistence -/

/-- Nothing is asked of a machine but that it has links. -/
def Standard.any : Standard where
  expr := fun _ => True
  proper := False
  shared := True
  children := fun _ _ => trivial

/-- What becomes of a binding in a run changes the computation of a shared one only. -/
theorem Binding.Later.eq_or_need {b b' : Binding} (h : b.Later b') :
    b' = b ∨ ∃ x memo memo', b = .need x memo ∧ b' = .need x memo' := by
  cases h with
  | same => exact .inl rfl
  | done x e env v => exact .inr ⟨x, _, _, rfl, rfl⟩

/-- **Frames are persistent.** However an evaluation ends, every frame that there was has the same
slots and extends what it extended, and every binding that there was is the same but for the
computation in a shared one; and if it ends with a value, no new frame has a variable that is bound
to an undefined binding. -/
theorem frames_persistent (d : Discipline) (n : Nat) (env : Env) (e : Expr) (m : Machine) :
    (m.frames.size ≤ (Eval.leaves (Eval.eval d n env e) m).frames.size ∧
      ∀ f, f < m.frames.size → (Eval.leaves (Eval.eval d n env e) m).frame f = m.frame f) ∧
    (∀ w, m.Meets .any w → w.Chains env →
      ∃ w', w <+: w' ∧ (Eval.leaves (Eval.eval d n env e) m).Meets .any w' ∧
        ∀ v m', Eval.eval d n env e m = .ok v m' → v.Meets .any w') ∧
    (m.bindings.size ≤ (Eval.leaves (Eval.eval d n env e) m).bindings.size ∧
      ∀ i, i < m.bindings.size →
        (Eval.leaves (Eval.eval d n env e) m).binding i = m.binding i ∨
        ∃ x memo memo', m.binding i = .need x memo ∧
          (Eval.leaves (Eval.eval d n env e) m).binding i = .need x memo') ∧
    ∀ v m', Eval.eval d n env e m = .ok v m' → ∀ f, m.frames.size ≤ f → ∀ x i,
      (m'.frame f).get? x = some i → ∀ y, m'.binding i ≠ .undefined y := by
  have hframes := eval_sameFrames d n env e m
  have hlater := eval_later d n env e m
  refine ⟨⟨hframes.frames_le, fun f hf => hframes.frame hf⟩, fun w hm henv => ?_,
    ⟨hlater.bindings, fun i hi => (hlater.old i hi).eq_or_need⟩, fun v m' hv f hf x i hget => ?_⟩
  · have hrun := upholds_eval (S := .any) (d := d) (fun _ => trivial) n (e := e) trivial henv m hm
    unfold Eval.leaves
    match Eval.eval d n env e m, hrun with
    | .ok v m', .ok hw hm' hv =>
      exact ⟨_, hw, hm', by rintro _ _ ⟨⟩; exact hv⟩
    | .error s m', .error hw hm' _ => exact ⟨_, hw, hm', nofun⟩
  · exact ((completes_eval d n m env e hv).1.slots hf hget).resolve_right id

/-- A failing definition leaves the variables after it undefined: `let x := -null; y := 1; in y`. -/
example :
    (fun m : Machine => ((m.frame 1).get? "y").map m.binding)
      (Eval.leaves (Eval.evalClosed ⟨.value, true⟩ 3
        (.letIn [("x", .unary "-" .null), ("y", .int 1)] (.var "y"))) .initial) =
      some (.undefined "y") :=
  rfl

end CallBy
