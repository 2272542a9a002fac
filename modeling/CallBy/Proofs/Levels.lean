import CallBy.Expr.Parser

/-!
The levels of the parsers never run out: a phrase takes a token before it calls for another one, so
on a stream of fewer than `n` tokens every level from `n` on does the same.

* `Same s x y`: on the stream `s` the two parsers do the same, and the stream does not grow;
* `AgreeBelow n P Q`: the parsers of the two levels do the same on streams of fewer than `n` tokens;
* `Phrases.limit`: the parsers on whole streams, which are built from themselves
  (`Phrases.limit_exp` and so on).
-/

namespace CallBy

open TokenStream

/-! ### Streams -/

theorem remaining_of_peek {s s' : TokenStream} {t : Option Token} (h : peek s = .ok t s') :
    s'.remaining = s.remaining := congrArg List.length (toList_of_peek h).1

theorem remaining_of_advance {s s' : TokenStream} {t : Option Token} (h : advance s = .ok t s') :
    s.remaining = s'.remaining + t.toList.length := by
  have hl := congrArg List.length (toList_of_advance h)
  rw [List.length_append] at hl
  simp only [remaining]
  omega

/-- At a token, taking one succeeds. -/
theorem advance_of_head? {s : TokenStream} {t : Token} (h : s.toList.head? = some t) :
    ∃ s', advance s = .ok (some t) s' := by
  obtain ⟨buffer, pending, failure⟩ := s
  rcases buffer with _ | b
  · rcases pending with _ | ⟨p, ps⟩
    · cases h
    · cases h
      exact ⟨_, rfl⟩
  · cases h
    exact ⟨_, rfl⟩

/-- A parser that takes the next token and looks at it does so before everything else. -/
theorem demand_eq_ok {s s' : TokenStream} {test : Token → Bool} {wanted a : String}
    (h : demand test wanted s = .ok a s') :
    ∃ t, advance s = .ok (some t) s' ∧ test t = true ∧ a = t.text := by
  cases hs : advance s with
  | error e s₁ => simp [demand, bind, EStateM.bind, hs] at h
  | ok t? s₁ =>
    simp only [demand, bind, EStateM.bind, hs] at h
    cases t? with
    | none => cases h
    | some t =>
      simp only at h
      split at h
      · next ht =>
        cases h
        exact ⟨t, rfl, ht, rfl⟩
      · cases h

/-! ### Parsers that do the same -/

/-- On the stream the two parsers do the same, and they put no token back. -/
def Same {α : Type} (s : TokenStream) (x y : Parser α) : Prop :=
  x s = y s ∧ ∀ a s', x s = .ok a s' → s'.remaining ≤ s.remaining

namespace Same

variable {α β : Type} {s : TokenStream} {x y : Parser α} {f g : α → Parser β}

theorem pure (a : α) : Same s (pure a) (pure a) := by
  refine ⟨rfl, fun b s' h => ?_⟩
  cases h
  exact Nat.le_refl _

theorem throw (e : ParseError) : Same s (throw e : Parser α) (throw e) := ⟨rfl, nofun⟩

theorem bind (h : Same s x y)
    (hf : ∀ a s', x s = .ok a s' → s'.remaining ≤ s.remaining → Same s' (f a) (g a)) :
    Same s (x >>= f) (y >>= g) := by
  obtain ⟨heq, hle⟩ := h
  simp only [Same, Bind.bind, EStateM.bind, ← heq]
  cases hx : x s with
  | error e s₁ => exact ⟨rfl, nofun⟩
  | ok a s₁ =>
    have h₁ := hle a s₁ hx
    obtain ⟨heq₁, hle₁⟩ := hf a s₁ hx h₁
    refine ⟨heq₁, fun b s' hb => ?_⟩
    have := hle₁ b s' hb
    omega

theorem peek_bind {f g : Option Token → Parser β}
    (hf : ∀ s', s'.remaining = s.remaining → s'.toList.head? = s.toList.head? →
      Same s' (f s.toList.head?) (g s.toList.head?)) :
    Same s (peek >>= f) (peek >>= g) := by
  refine bind ⟨rfl, fun a s' h => Nat.le_of_eq (remaining_of_peek h)⟩ fun a s' h _ => ?_
  have hr := remaining_of_peek h
  obtain ⟨hl, rfl⟩ := toList_of_peek h
  exact hf s' hr (by rw [hl])

/-- Once a token has been taken, fewer remain. -/
theorem advance_bind (hs : s.toList.head?.isSome = true)
    (hf : ∀ s', s'.remaining < s.remaining → Same s' x y) :
    Same s (advance >>= fun _ => x) (advance >>= fun _ => y) := by
  obtain ⟨t, ht⟩ := Option.isSome_iff_exists.mp hs
  obtain ⟨s₁, hadv⟩ := advance_of_head? ht
  refine bind ⟨rfl, fun a s' h => ?_⟩ fun a s' h _ => hf s' ?_
  · have := remaining_of_advance h
    omega
  · rw [hadv] at h
    cases h
    have := remaining_of_advance hadv
    simp only [Option.toList_some, List.length_singleton] at this
    omega

theorem expect_bind {f g : String → Parser β} (k : Kind) (text? : Option String)
    (hf : ∀ a s', s'.remaining < s.remaining → Same s' (f a) (g a)) :
    Same s (expect k text? >>= f) (expect k text? >>= g) := by
  have hlt : ∀ {a s'}, expect k text? s = .ok a s' → s'.remaining < s.remaining := by
    intro a s' h
    obtain ⟨t, hadv, -⟩ := demand_eq_ok h
    have := remaining_of_advance hadv
    simp only [Option.toList_some, List.length_singleton] at this
    omega
  exact bind ⟨rfl, fun a s' h => Nat.le_of_lt (hlt h)⟩ fun a s' h _ => hf a s' (hlt h)

theorem fresh_bind {f g : Unit → Parser β} {construct x : String} {seen : List String}
    (hf : Same s (f ()) (g ())) :
    Same s (Phrases.fresh construct x seen >>= f) (Phrases.fresh construct x seen >>= g) := by
  unfold Phrases.fresh
  split
  · exact bind (throw _) nofun
  · exact hf

end Same

namespace Phrases

/-- The parsers do the same on streams of fewer than `n` tokens. -/
structure AgreeBelow (n : Nat) (P Q : Phrases) : Prop where
  exp : ∀ {s}, s.remaining < n → Same s P.exp Q.exp
  term : ∀ {s}, s.remaining < n → Same s P.term Q.term
  binary : ∀ {s} p, s.remaining < n → Same s (P.binary p) (Q.binary p)
  climb : ∀ {s} p e, s.remaining < n → Same s (P.climb p e) (Q.climb p e)
  calls : ∀ {s} e, s.remaining < n → Same s (P.calls e) (Q.calls e)
  args : ∀ {s}, s.remaining < n → Same s P.args Q.args
  moreArgs : ∀ {s}, s.remaining < n → Same s P.moreArgs Q.moreArgs
  moreParams : ∀ {s} xs, s.remaining < n → Same s (P.moreParams xs) (Q.moreParams xs)
  defs : ∀ {s} xs, s.remaining < n → Same s (P.defs xs) (Q.defs xs)

namespace AgreeBelow

variable {n : Nat} {P Q : Phrases} (h : AgreeBelow n P Q) {s : TokenStream}

include h

theorem conditional (hs : s.remaining < n) : Same s P.conditional Q.conditional := by
  unfold Phrases.conditional
  refine .bind (h.exp hs) fun test s₁ _ h₁ => ?_
  refine .expect_bind _ _ fun _ s₂ h₂ => ?_
  refine .bind (h.exp (by omega)) fun conseq s₃ _ h₃ => ?_
  refine .expect_bind _ _ fun _ s₄ h₄ => ?_
  refine .bind (h.exp (by omega)) fun alt s₅ _ h₅ => ?_
  exact .pure _

theorem definitions (hs : s.remaining < n) : Same s P.definitions Q.definitions := by
  unfold Phrases.definitions
  refine .bind (h.defs [] hs) fun ds s₁ _ h₁ => ?_
  split
  · exact .bind (.throw _) nofun
  · refine .expect_bind _ _ fun _ s₂ h₂ => ?_
    refine .bind (h.exp (by omega)) fun body s₃ _ h₃ => ?_
    exact .pure _

theorem params (hs : s.remaining < n) : Same s P.params Q.params := by
  unfold Phrases.params
  refine .peek_bind fun s₁ hr hh => ?_
  rw [← hr] at hs
  split
  · next x hx =>
    refine .advance_bind (by rw [hh, hx]; rfl) fun s₂ h₂ => ?_
    exact .bind (h.moreParams _ (Nat.lt_trans h₂ hs)) fun _ _ _ _ => .pure _
  · exact .pure _

theorem function (hs : s.remaining < n) : Same s P.function Q.function := by
  unfold Phrases.function
  refine .bind (h.params hs) fun xs s₁ _ h₁ => ?_
  refine .expect_bind _ _ fun _ s₂ h₂ => ?_
  refine .bind (h.exp (by omega)) fun body s₃ _ h₃ => ?_
  exact .pure _

theorem factor (hs : s.remaining < n + 1) : Same s P.factor Q.factor := by
  unfold Phrases.factor
  refine .bind ⟨rfl, fun t s₁ h₁ => ?_⟩ fun t s₁ h₁ _ => ?_
  · have := remaining_of_advance h₁
    omega
  have hadv := remaining_of_advance h₁
  cases t with
  | none => exact .throw _
  | some t =>
    simp only [Option.toList_some, List.length_singleton] at hadv
    dsimp only
    split
    · split
      · refine .bind (h.exp (by omega)) fun e s₂ _ h₂ => ?_
        exact .expect_bind _ _ fun _ s₃ h₃ => .pure _
      · exact .throw _
    · exact .pure _
    · exact .pure _
    · split
      · exact .pure _
      · exact .throw _
    · exact .pure _
    · exact .throw _

theorem callsNext (e : Expr) (hs : s.remaining < n + 1) :
    Same s (P.callsNext e) (Q.callsNext e) := by
  unfold Phrases.callsNext
  refine .peek_bind fun s₁ hr hh => ?_
  rw [← hr] at hs
  split
  · next ht =>
    refine .advance_bind (by rw [hh, ht]; rfl) fun s₂ h₂ => ?_
    refine .bind (h.args (by omega)) fun as s₃ _ h₃ => ?_
    exact h.calls _ (by omega)
  · exact .pure _

theorem unaryOperand (hs : s.remaining < n) : Same s P.unaryOperand Q.unaryOperand := by
  unfold Phrases.unaryOperand sees
  simp only [bind_assoc, pure_bind]
  refine .peek_bind fun s₁ hr hh => ?_
  rw [← hr] at hs
  split
  · exact h.exp hs
  · exact h.term hs

theorem operand (p : Nat) (hs : s.remaining < n) : Same s (P.operand p) (Q.operand p) := by
  unfold Phrases.operand sees
  simp only [bind_assoc, pure_bind]
  refine .peek_bind fun s₁ hr hh => ?_
  rw [← hr] at hs
  split
  · exact h.exp hs
  · exact h.binary p hs

theorem termNext (hs : s.remaining < n + 1) : Same s P.termNext Q.termNext := by
  unfold Phrases.termNext
  refine .peek_bind fun s₁ hr hh => ?_
  rw [← hr] at hs
  have hfactor : Same s₁ (P.factor >>= P.callsNext) (Q.factor >>= Q.callsNext) :=
    .bind (h.factor hs) fun e s₂ _ h₂ => h.callsNext e (Nat.lt_of_le_of_lt h₂ hs)
  split
  · next op hop =>
    split
    · refine .advance_bind (by rw [hh, hop]; rfl) fun s₂ h₂ => ?_
      exact .bind (h.unaryOperand (by omega)) fun _ _ _ _ => .pure _
    · exact hfactor
  · exact hfactor

theorem climbNext (p : Nat) (e : Expr) (hs : s.remaining < n + 1) :
    Same s (P.climbNext p e) (Q.climbNext p e) := by
  unfold Phrases.climbNext
  refine .peek_bind fun s₁ hr hh => ?_
  rw [← hr] at hs
  split
  · next op hop =>
    split
    · split
      · exact .pure _
      · refine .advance_bind (by rw [hh, hop]; rfl) fun s₂ h₂ => ?_
        refine .bind (h.operand _ (by omega)) fun right s₃ _ h₃ => ?_
        exact h.climb _ _ (by omega)
    · exact .pure _
  · exact .pure _

theorem binaryNext (p : Nat) (hs : s.remaining < n + 1) :
    Same s (P.binaryNext p) (Q.binaryNext p) := by
  unfold Phrases.binaryNext
  refine .bind (h.termNext hs) fun e s₁ _ h₁ => ?_
  exact h.climbNext p e (by omega)

theorem defsNext (xs : List String) (hs : s.remaining < n + 1) :
    Same s (P.defsNext xs) (Q.defsNext xs) := by
  unfold Phrases.defsNext
  refine .peek_bind fun s₁ hr hh => ?_
  rw [← hr] at hs
  split
  · next x hx =>
    refine .advance_bind (by rw [hh, hx]; rfl) fun s₂ h₂ => ?_
    refine .fresh_bind ?_
    refine .expect_bind _ _ fun _ s₃ h₃ => ?_
    refine .bind (h.exp (by omega)) fun e s₄ _ h₄ => ?_
    refine .expect_bind _ _ fun _ s₅ h₅ => ?_
    refine .bind (h.defs _ (by omega)) fun later s₆ _ h₆ => ?_
    exact .pure _
  · exact .pure _

theorem moreParamsNext (xs : List String) (hs : s.remaining < n + 1) :
    Same s (P.moreParamsNext xs) (Q.moreParamsNext xs) := by
  unfold Phrases.moreParamsNext
  refine .peek_bind fun s₁ hr hh => ?_
  rw [← hr] at hs
  split
  · next ht =>
    refine .advance_bind (by rw [hh, ht]; rfl) fun s₂ h₂ => ?_
    refine .expect_bind _ _ fun y s₃ h₃ => ?_
    refine .fresh_bind ?_
    refine .bind (h.moreParams _ (by omega)) fun later s₄ _ h₄ => ?_
    exact .pure _
  · exact .pure _

theorem expNext (hs : s.remaining < n + 1) : Same s P.expNext Q.expNext := by
  unfold Phrases.expNext
  refine .peek_bind fun s₁ hr hh => ?_
  rw [← hr] at hs
  have block : ∀ {x y : Parser Expr} {k : String}, s.toList.head? = some (keyword k) →
      (∀ {s}, s.remaining < n → Same s x y) →
      Same s₁ (advance >>= fun _ => x) (advance >>= fun _ => y) := by
    intro x y k hk hxy
    refine .advance_bind (by rw [hh, hk]; rfl) fun s₂ h₂ => hxy (by omega)
  split
  · next hk => exact block hk h.conditional
  · split
    · next hk => exact block hk h.definitions
    · split
      · next hk => exact block hk h.function
      · exact h.binaryNext 1 hs

theorem moreArgsNext (hs : s.remaining < n + 1) : Same s P.moreArgsNext Q.moreArgsNext := by
  unfold Phrases.moreArgsNext
  refine .peek_bind fun s₁ hr hh => ?_
  rw [← hr] at hs
  split
  · next ht =>
    refine .advance_bind (by rw [hh, ht]; rfl) fun s₂ h₂ => ?_
    refine .bind (h.exp (by omega)) fun e s₃ _ h₃ => ?_
    refine .bind (h.moreArgs (by omega)) fun later s₄ _ h₄ => ?_
    exact .pure _
  · exact .pure _

theorem argsNext (hs : s.remaining < n + 1) : Same s P.argsNext Q.argsNext := by
  unfold Phrases.argsNext
  refine .peek_bind fun s₁ hr hh => ?_
  rw [← hr] at hs
  split
  · next ht => exact .advance_bind (by rw [hh, ht]; rfl) fun s₂ h₂ => .pure _
  · refine .bind (h.expNext hs) fun e s₂ _ h₂ => ?_
    refine .bind (h.moreArgsNext (by omega)) fun later s₃ _ h₃ => ?_
    exact .expect_bind _ _ fun _ s₄ h₄ => .pure _

/-- What a phrase calls for has one token less. -/
theorem next : AgreeBelow (n + 1) P.next Q.next where
  exp := h.expNext
  term := h.termNext
  binary := h.binaryNext
  climb := h.climbNext
  calls := h.callsNext
  args := h.argsNext
  moreArgs := h.moreArgsNext
  moreParams := h.moreParamsNext
  defs := h.defsNext

end AgreeBelow

/-- On a stream of fewer than `n` tokens every level from `n` on does the same. -/
theorem agreeBelow_level {n k j : Nat} (hk : n ≤ k) (hj : n ≤ j) :
    AgreeBelow n (level k) (level j) := by
  induction n generalizing k j with
  | zero => constructor <;> intros <;> omega
  | succ n ih =>
    obtain ⟨k, rfl⟩ : ∃ i, k = i + 1 := ⟨k - 1, by omega⟩
    obtain ⟨j, rfl⟩ : ∃ i, j = i + 1 := ⟨j - 1, by omega⟩
    exact (ih (by omega) (by omega)).next

/-- The parsers on whole streams. -/
def limit : Phrases where
  exp := onStream expNext
  term := onStream termNext
  binary p := onStream (binaryNext · p)
  climb p e := onStream (climbNext · p e)
  calls e := onStream (callsNext · e)
  args := onStream argsNext
  moreArgs := onStream moreArgsNext
  moreParams xs := onStream (moreParamsNext · xs)
  defs xs := onStream (defsNext · xs)

theorem same_onStream {α : Type} (phrase : Phrases → Parser α) {s : TokenStream} {x : Parser α}
    (h : Same s (phrase (level s.remaining)) x) : Same s (onStream phrase) x := h

/-- On a stream of fewer than `n` tokens the level `n` does what the parsers on whole streams do. -/
theorem agreeBelow_limit (n : Nat) : AgreeBelow n limit (level n) := by
  cases n with
  | zero => constructor <;> intros <;> omega
  | succ n =>
    have h : ∀ {s : TokenStream}, s.remaining < n + 1 →
        AgreeBelow s.remaining (level s.remaining) (level n) := fun hs =>
      agreeBelow_level (Nat.le_refl _) (Nat.le_of_lt_succ hs)
    have lt := fun s : TokenStream => Nat.lt_succ_self s.remaining
    constructor
    · exact fun hs => same_onStream expNext ((h hs).expNext (lt _))
    · exact fun hs => same_onStream termNext ((h hs).termNext (lt _))
    · exact fun p hs => same_onStream (binaryNext · p) ((h hs).binaryNext p (lt _))
    · exact fun p e hs => same_onStream (climbNext · p e) ((h hs).climbNext p e (lt _))
    · exact fun e hs => same_onStream (callsNext · e) ((h hs).callsNext e (lt _))
    · exact fun hs => same_onStream argsNext ((h hs).argsNext (lt _))
    · exact fun hs => same_onStream moreArgsNext ((h hs).moreArgsNext (lt _))
    · exact fun xs hs => same_onStream (moreParamsNext · xs) ((h hs).moreParamsNext xs (lt _))
    · exact fun xs hs => same_onStream (defsNext · xs) ((h hs).defsNext xs (lt _))

/-! ### The parsers on whole streams are built from themselves -/

theorem limit_exp : limit.exp = limit.expNext :=
  funext fun s => ((agreeBelow_limit s.remaining).expNext (Nat.lt_succ_self _)).1.symm

theorem limit_term : limit.term = limit.termNext :=
  funext fun s => ((agreeBelow_limit s.remaining).termNext (Nat.lt_succ_self _)).1.symm

theorem limit_binary : limit.binary = limit.binaryNext :=
  funext fun p => funext fun s =>
    ((agreeBelow_limit s.remaining).binaryNext p (Nat.lt_succ_self _)).1.symm

theorem limit_climb : limit.climb = limit.climbNext :=
  funext fun p => funext fun e => funext fun s =>
    ((agreeBelow_limit s.remaining).climbNext p e (Nat.lt_succ_self _)).1.symm

theorem limit_calls : limit.calls = limit.callsNext :=
  funext fun e => funext fun s =>
    ((agreeBelow_limit s.remaining).callsNext e (Nat.lt_succ_self _)).1.symm

theorem limit_args : limit.args = limit.argsNext :=
  funext fun s => ((agreeBelow_limit s.remaining).argsNext (Nat.lt_succ_self _)).1.symm

theorem limit_moreArgs : limit.moreArgs = limit.moreArgsNext :=
  funext fun s => ((agreeBelow_limit s.remaining).moreArgsNext (Nat.lt_succ_self _)).1.symm

theorem limit_moreParams : limit.moreParams = limit.moreParamsNext :=
  funext fun xs => funext fun s =>
    ((agreeBelow_limit s.remaining).moreParamsNext xs (Nat.lt_succ_self _)).1.symm

theorem limit_defs : limit.defs = limit.defsNext :=
  funext fun xs => funext fun s =>
    ((agreeBelow_limit s.remaining).defsNext xs (Nat.lt_succ_self _)).1.symm

end Phrases

end CallBy
