import CallBy.Proofs.Requests

/-!
The parsers of all levels, and those on whole streams, do to a stream only what requests for tokens
do.

* `composed_level`: the parsers of a level are put together from looking, taking and failing;
* `Layered x`: so is the parser on every stream, of as many levels as the stream has tokens;
* `Layered.bears`: before a failure of the reader it asks for more, or makes do with what there is;
* `TakesAt s x`: if the parser succeeds on the stream it has taken a token.
-/

namespace CallBy

open TokenStream
open CallBy.Parser (leaves)

/-! ### The parsers of a level -/

/-- The parsers of the level are put together from looking, taking and failing. -/
structure Phrases.AllComposed (P : Phrases) : Prop where
  exp : Composed P.exp
  term : Composed P.term
  binary : ∀ p, Composed (P.binary p)
  climb : ∀ p e, Composed (P.climb p e)
  calls : ∀ e, Composed (P.calls e)
  args : Composed P.args
  moreArgs : Composed P.moreArgs
  moreParams : ∀ xs, Composed (P.moreParams xs)
  defs : ∀ xs, Composed (P.defs xs)

namespace Phrases.AllComposed

variable {P : Phrases} (h : P.AllComposed)

include h

theorem conditional : Composed P.conditional :=
  h.exp.bind fun _ => (Composed.expect _ _).bind fun _ => h.exp.bind fun _ =>
    (Composed.expect _ _).bind fun _ => h.exp.bind fun _ => .pure _

theorem definitions : Composed P.definitions := by
  refine (h.defs []).bind fun ds => ?_
  dsimp only
  split
  · exact .bind (.throw nofun) fun _ => .bind (.expect _ _) fun _ => h.exp.bind fun _ => .pure _
  · exact .bind (.expect _ _) fun _ => h.exp.bind fun _ => .pure _

theorem params : Composed P.params := by
  refine Composed.peek.bind fun t => ?_
  split
  · exact Composed.advance.bind fun _ => (h.moreParams _).bind fun _ => .pure _
  · exact .pure _

theorem function : Composed P.function :=
  h.params.bind fun _ => (Composed.expect _ _).bind fun _ => h.exp.bind fun _ => .pure _

/-- A factor takes the next token and goes on from it, and fails where there is none. -/
theorem factor_eq : ∃ f, P.factor = advance >>= f ∧ f none = throw .endOfInput ∧
    ∀ t, Composed (f (some t)) := by
  refine ⟨_, rfl, rfl, fun t => ?_⟩
  dsimp only
  split
  · exact .ite (h.exp.bind fun _ => (Composed.expect _ _).bind fun _ => .pure _) (.throw nofun)
  · exact .pure _
  · exact .pure _
  · split
    · exact .pure _
    · exact .throw nofun
  · exact .pure _
  · exact .throw nofun

theorem factor : Composed P.factor := by
  obtain ⟨f, hfactor, hnone, hsome⟩ := h.factor_eq
  rw [hfactor]
  refine Composed.advance.bind fun t => ?_
  cases t with
  | none =>
    rw [hnone]
    exact .throw nofun
  | some t => exact hsome t

theorem callsNext (e : Expr) : Composed (P.callsNext e) :=
  Composed.peek.bind fun _ => .ite
    (Composed.advance.bind fun _ => h.args.bind fun _ => h.calls _) (.pure _)

theorem unaryOperand : Composed P.unaryOperand :=
  (Composed.sees _).bind fun _ => .ite h.exp h.term

theorem termNext : Composed P.termNext := by
  have hcalls : Composed (P.factor >>= P.callsNext) := h.factor.bind h.callsNext
  refine Composed.peek.bind fun t => ?_
  split
  · exact .ite (Composed.advance.bind fun _ => h.unaryOperand.bind fun _ => .pure _) hcalls
  · exact hcalls

theorem operand (p : Nat) : Composed (P.operand p) :=
  (Composed.sees _).bind fun _ => .ite h.exp (h.binary p)

theorem climbNext (p : Nat) (e : Expr) : Composed (P.climbNext p e) := by
  refine Composed.peek.bind fun t => ?_
  split
  · split
    · exact .ite (.pure _)
        (Composed.advance.bind fun _ => (h.operand _).bind fun _ => h.climb _ _)
    · exact .pure _
  · exact .pure _

theorem binaryNext (p : Nat) : Composed (P.binaryNext p) := h.termNext.bind (h.climbNext p)

theorem defsNext (seen : List String) : Composed (P.defsNext seen) := by
  refine Composed.peek.bind fun t => ?_
  split
  · exact Composed.advance.bind fun _ => (Composed.fresh _ _ _).bind fun _ =>
      (Composed.expect _ _).bind fun _ => h.exp.bind fun _ => (Composed.expect _ _).bind fun _ =>
        (h.defs _).bind fun _ => .pure _
  · exact .pure _

theorem moreParamsNext (seen : List String) : Composed (P.moreParamsNext seen) :=
  Composed.peek.bind fun _ => .ite
    (Composed.advance.bind fun _ => (Composed.expect _ _).bind fun _ =>
      (Composed.fresh _ _ _).bind fun _ => (h.moreParams _).bind fun _ => .pure _)
    (.pure _)

theorem expNext : Composed P.expNext :=
  Composed.peek.bind fun _ => .ite (Composed.advance.bind fun _ => h.conditional) <|
    .ite (Composed.advance.bind fun _ => h.definitions) <|
      .ite (Composed.advance.bind fun _ => h.function) (h.binaryNext 1)

theorem moreArgsNext : Composed P.moreArgsNext :=
  Composed.peek.bind fun _ => .ite
    (Composed.advance.bind fun _ => h.exp.bind fun _ => h.moreArgs.bind fun _ => .pure _) (.pure _)

theorem argsNext : Composed P.argsNext :=
  Composed.peek.bind fun _ => .ite (Composed.advance.bind fun _ => .pure _)
    (h.expNext.bind fun _ => h.moreArgsNext.bind fun _ =>
      (Composed.expect _ _).bind fun _ => .pure _)

/-- A level built from composed parsers is composed. -/
theorem next : P.next.AllComposed where
  exp := h.expNext
  term := h.termNext
  binary := h.binaryNext
  climb := h.climbNext
  calls := h.callsNext
  args := h.argsNext
  moreArgs := h.moreArgsNext
  moreParams := h.moreParamsNext
  defs := h.defsNext

end Phrases.AllComposed

/-- **The parsers of all levels are put together from looking, taking and failing.** -/
theorem composed_level (n : Nat) : (Phrases.level n).AllComposed := by
  induction n with
  | zero => constructor <;> intros <;> exact .throw nofun
  | succ n ih => exact ih.next

/-! ### Parsers on whole streams -/

/-- **The parser is composed on every stream**, of more and more levels for longer ones. -/
def Layered {α : Type} (x : Parser α) : Prop :=
  ∃ y : Nat → Parser α, (∀ n, Composed (y n)) ∧ ∀ n s, s.remaining ≤ n → x s = y n s

section Layered

variable {α β : Type} {x : Parser α} {f : α → Parser β} {s : TokenStream} {e : LexError}

theorem Composed.layered (h : Composed x) : Layered x := ⟨fun _ => x, fun _ => h, fun _ _ _ => rfl⟩

theorem Layered.bind (h : Layered x) (hf : ∀ a, Composed (f a)) : Layered (x >>= f) := by
  obtain ⟨y, hy, heq⟩ := h
  refine ⟨fun n => y n >>= f, fun n => (hy n).bind hf, fun n s hs => ?_⟩
  simp only [Bind.bind, EStateM.bind, heq n s hs]

/-- A phrase that is composed on every level, and that does the same on two levels that agree. -/
theorem layered_onStream {phrase : Phrases → Parser α}
    (hcomposed : ∀ {P : Phrases}, P.AllComposed → Composed (phrase P))
    (hsame : ∀ {n P Q s}, Phrases.AgreeBelow n P Q → s.remaining < n + 1 →
      Same s (phrase P) (phrase Q)) : Layered (Phrases.onStream phrase) := by
  refine ⟨fun n => phrase (Phrases.level n), fun n => hcomposed (composed_level n), ?_⟩
  intro n s hs
  exact (hsame (Phrases.agreeBelow_level (Nat.le_refl _) hs) (Nat.lt_succ_self _)).1

theorem layered_exp : Layered Parser.exp :=
  layered_onStream (fun h => h.expNext) fun h => h.expNext

theorem layered_binary (p : Nat) : Layered (Parser.binary p) :=
  layered_onStream (fun h => h.binaryNext p) fun h => h.binaryNext p

theorem layered_term : Layered Parser.term :=
  layered_onStream (fun h => h.termNext) fun h => h.termNext

theorem layered_factor : Layered Parser.factor :=
  layered_onStream (fun h => h.factor) fun h => h.factor

theorem layered_args : Layered Parser.args :=
  layered_onStream (fun h => h.argsNext) fun h => h.argsNext

theorem layered_program : Layered Parser.program := by
  refine layered_exp.bind fun e => Composed.peek.bind fun t => ?_
  cases t with
  | none => exact .pure e
  | some t => exact .throw nofun

theorem Layered.handled (h : Layered x) (s : TokenStream) : ∃ ts, Handled s ts (leaves x s) := by
  obtain ⟨y, hy, heq⟩ := h
  rw [leaves, heq s.remaining s (Nat.le_refl _)]
  exact (hy s.remaining).handled s

theorem Layered.failure_none (h : Layered x) (hs : s.failure = none) :
    (leaves x s).failure = none ∧ ∀ e, ¬ Reports x s e := by
  obtain ⟨y, hy, heq⟩ := h
  unfold Reports
  rw [leaves, heq s.remaining s (Nat.le_refl _)]
  exact (hy s.remaining).failure_none hs

/-- **Before a failure of the reader** a parser asks for more, or makes do with what there is. -/
theorem Layered.bears (h : Layered x) (hs : s.failure = some e) : Bears x s e := by
  obtain ⟨y, hy, heq⟩ := h
  have hself : ∀ n, s.remaining ≤ n → x s = y n s := fun n => heq n s
  -- on one more token the level above the present one is enough, and it decides the matter
  cases (hy (s.remaining + 1)).bears hs with
  | asks hasks hx =>
    refine .asks (fun t f => ?_) ((hself _ (Nat.le_succ _)).trans hx)
    rw [leaves, heq (s.remaining + 1) _ (by simp)]
    exact hasks t f
  | makesDo _ hs₁ hne =>
    have hnot : ∀ e', ¬ Reports x s e' := by
      unfold Reports
      rw [hself _ (Nat.le_succ _)]
      exact hne
    refine .makesDo (fun more f => ?_) ?_ hnot
    · cases (hy (s.remaining + more.length)).bears hs with
      | asks _ hx => exact absurd ⟨_, (hself _ (Nat.le_add_right _ _)).trans hx⟩ (hnot e)
      | makesDo hdo _ _ =>
        rw [heq _ _ (Nat.le_of_eq (remaining_extend s more f)), hself _ (Nat.le_add_right _ _)]
        exact hdo more f
    · rw [leaves, hself _ (Nat.le_succ _)]
      exact hs₁

end Layered

/-! ### Success takes a token -/

/-- If the parser succeeds on the stream, it has taken a token. -/
def TakesAt {α : Type} (s : TokenStream) (x : Parser α) : Prop :=
  ∀ a s', x s = .ok a s' → s'.remaining < s.remaining

namespace TakesAt

variable {α β : Type} {x y : Parser α} {f : α → Parser β} {s : TokenStream}

theorem ite {c : Prop} [Decidable c] (hx : c → TakesAt s x) (hy : ¬ c → TakesAt s y) :
    TakesAt s (if c then x else y) := by
  split
  · next hc => exact hx hc
  · next hc => exact hy hc

/-- What follows puts nothing back. -/
theorem bind (h : TakesAt s x) (hf : ∀ a, Composed (f a)) : TakesAt s (x >>= f) := by
  intro b s' hb
  cases hx : x s with
  | error err s₁ => cases (Parser.bind_of_error hx).symm.trans hb
  | ok a s₁ =>
    have hlt := h a s₁ hx
    have hle := (hf a).remaining_le ((Parser.bind_of_ok hx).symm.trans hb)
    omega

theorem peek_bind {f : Option Token → Parser β}
    (hf : ∀ s', s'.toList.head? = s.toList.head? → TakesAt s' (f s.toList.head?)) :
    TakesAt s (peek >>= f) := by
  intro b s' hb
  cases hx : peek s with
  | error err s₁ => cases (Parser.bind_of_error hx).symm.trans hb
  | ok t s₁ =>
    have hr := remaining_of_peek hx
    obtain ⟨hl, rfl⟩ := toList_of_peek hx
    have hlt := hf s₁ (by rw [hl]) b s' ((Parser.bind_of_ok hx).symm.trans hb)
    omega

theorem advance_of_some {t : Token} (hs : s.toList.head? = some t) : TakesAt s advance := by
  intro o s' ho
  obtain ⟨s₁, hadv⟩ := advance_of_head? hs
  rw [hadv] at ho
  cases ho
  have := remaining_of_advance hadv
  simp only [Option.toList_some, List.length_singleton] at this
  omega

end TakesAt

namespace Phrases.AllComposed

variable {P : Phrases} (h : P.AllComposed) (s : TokenStream)

include h

theorem takesAt_factor : TakesAt s P.factor := by
  obtain ⟨f, hfactor, hnone, hsome⟩ := h.factor_eq
  rw [hfactor]
  intro e s' he
  cases hx : advance s with
  | error err s₁ => cases (Parser.bind_of_error hx).symm.trans he
  | ok t s₁ =>
    rw [Parser.bind_of_ok hx] at he
    have hadv := remaining_of_advance hx
    cases t with
    | none =>
      rw [hnone] at he
      cases he
    | some t =>
      have hle := (hsome t).remaining_le he
      simp only [Option.toList_some, List.length_singleton] at hadv
      omega

theorem takesAt_termNext : TakesAt s P.termNext := by
  have hfactor : ∀ s, TakesAt s (P.factor >>= P.callsNext) := fun s =>
    (h.takesAt_factor s).bind h.callsNext
  refine .peek_bind fun s₁ hhead => ?_
  split
  · next op hop =>
    refine .ite (fun _ => ?_) fun _ => hfactor s₁
    exact (TakesAt.advance_of_some (hhead.trans hop)).bind fun _ =>
      h.unaryOperand.bind fun _ => .pure _
  · exact hfactor s₁

theorem takesAt_binaryNext (p : Nat) : TakesAt s (P.binaryNext p) :=
  (h.takesAt_termNext s).bind (h.climbNext p)

theorem takesAt_expNext : TakesAt s P.expNext := by
  refine .peek_bind fun s₁ hhead => ?_
  refine .ite (fun hk => ?_) fun _ => .ite (fun hk => ?_) fun _ => .ite (fun hk => ?_) fun _ => ?_
  · exact (TakesAt.advance_of_some (hhead.trans hk)).bind fun _ => h.conditional
  · exact (TakesAt.advance_of_some (hhead.trans hk)).bind fun _ => h.definitions
  · exact (TakesAt.advance_of_some (hhead.trans hk)).bind fun _ => h.function
  · exact h.takesAt_binaryNext s₁ 1

theorem takesAt_argsNext : TakesAt s P.argsNext := by
  refine .peek_bind fun s₁ hhead => .ite (fun hk => ?_) fun _ => ?_
  · exact (TakesAt.advance_of_some (hhead.trans hk)).bind fun _ => .pure _
  · exact (h.takesAt_expNext s₁).bind fun _ => h.moreArgsNext.bind fun _ =>
      (Composed.expect _ _).bind fun _ => .pure _

end Phrases.AllComposed

theorem takesAt_onStream {α : Type} {phrase : Phrases → Parser α} {s : TokenStream}
    (h : ∀ {P : Phrases}, P.AllComposed → TakesAt s (phrase P)) :
    TakesAt s (Phrases.onStream phrase) := h (composed_level s.remaining)

end CallBy
