import CallBy.Proofs.Levels

/-!
What parsers can do to a stream.

A parser gets at the tokens of a stream by looking at the next one and by taking it, and in no other
way. So nothing is taken out of turn, and what a parser leaves is what it has not taken, whether it
succeeds or fails.

* `Requested look take s ts s'`: from one state to another by looking and taking, with the tokens
  taken, and `Handled`: so from one stream to another;
* `Composed x`: the parser is put together from looking, taking and failing, and `Composed.handled`:
  what it does to a stream it does by looking and taking;
* `AsksBeyond x s`: the parser asks for a token past the last one of the stream, `MakesDo x s`: it
  makes do with those there are;
* `Composed.bears`: before a failure of the reader it does one or the other, and reports the failure
  if and only if it asks for more.
-/

namespace CallBy

open TokenStream

/-! ### Streams -/

namespace Parser

variable {σ α β : Type} {x : Parser α} {f : α → Parser β} {s s' : TokenStream}

/-- The state that the computation leaves, however it ends. -/
def leaves (x : EStateM ParseError σ α) (s : σ) : σ :=
  match x s with
  | .ok _ s' => s'
  | .error _ s' => s'

/-- The tokens that the computation hands out: one, or none at the end. -/
def handed (x : EStateM ParseError σ (Option Token)) (s : σ) : List Token :=
  match x s with
  | .ok t _ => t.toList
  | .error _ _ => []

theorem leaves_of_ok {a : α} (h : x s = .ok a s') : leaves x s = s' := by
  simp only [leaves, h]

theorem leaves_of_error {e : ParseError} (h : x s = .error e s') : leaves x s = s' := by
  simp only [leaves, h]

theorem bind_of_ok {a : α} (h : x s = .ok a s') : (x >>= f) s = f a s' := by
  simp only [Bind.bind, EStateM.bind, h]

theorem bind_of_error {e : ParseError} (h : x s = .error e s') : (x >>= f) s = .error e s' := by
  simp only [Bind.bind, EStateM.bind, h]

theorem leaves_bind_of_ok {a : α} (h : x s = .ok a s') :
    leaves (x >>= f) s = leaves (f a) s' := by
  simp only [leaves, bind_of_ok h]

end Parser

open CallBy.Parser (leaves handed)

namespace TokenStream

/-- The stream at the end of the text. -/
def ended : TokenStream := { pending := [] }

/-- The stream with more tokens after its own and another end. -/
def extend (s : TokenStream) (more : List Token) (f : Option LexError) : TokenStream :=
  { s with pending := s.pending ++ more, failure := f }

@[simp] theorem remaining_extend (s : TokenStream) (more : List Token) (f : Option LexError) :
    (s.extend more f).remaining = s.remaining + more.length := by
  simp only [remaining, toList, extend, List.length_append]
  omega

/-- The four forms of a stream: a token has been looked at, the next one is still to be fetched, the
reader has failed after the last one, or the text has ended. -/
theorem forms {P : TokenStream → Prop} (seen : ∀ t ts f, P ⟨some t, ts, f⟩)
    (unseen : ∀ t ts f, P ⟨none, t :: ts, f⟩) (broken : ∀ e, P ⟨none, [], some e⟩)
    (ended : P ended) (s : TokenStream) : P s :=
  match s with
  | ⟨some t, ts, f⟩ => seen t ts f
  | ⟨none, t :: ts, f⟩ => unseen t ts f
  | ⟨none, [], some e⟩ => broken e
  | ⟨none, [], none⟩ => ended

@[simp] theorem toList_leaves_peek (s : TokenStream) : (leaves peek s).toList = s.toList := by
  cases s using forms <;> rfl

theorem toList_eq_handed (s : TokenStream) :
    s.toList = handed advance s ++ (leaves advance s).toList := by
  cases s using forms <;> rfl

/-- Taking a token hands out the first one if there is one. -/
theorem handed_eq_take (s : TokenStream) : handed advance s = s.toList.take 1 := by
  cases s using forms <;> rfl

theorem pending_leaves_peek (s : TokenStream) : (leaves peek s).pending <:+ s.pending := by
  cases s using forms with
  | unseen t ts f => exact List.suffix_cons t ts
  | _ => exact List.suffix_refl _

theorem pending_leaves_advance (s : TokenStream) : (leaves advance s).pending <:+ s.pending := by
  cases s using forms with
  | unseen t ts f => exact List.suffix_cons t ts
  | _ => exact List.suffix_refl _

end TokenStream

/-- **From one state to another by looking and taking**, with the tokens that were handed out. -/
inductive Requested {σ : Type} (look take : EStateM ParseError σ (Option Token)) :
    σ → List Token → σ → Prop
  | refl (s : σ) : Requested look take s [] s
  | look {s s' : σ} {ts : List Token} : Requested look take (leaves look s) ts s' →
      Requested look take s ts s'
  | take {s s' : σ} {ts : List Token} : Requested look take (leaves take s) ts s' →
      Requested look take s (handed take s ++ ts) s'

theorem Requested.trans {σ : Type} {look take : EStateM ParseError σ (Option Token)}
    {s s' s'' : σ} {ts us : List Token} (h : Requested look take s ts s')
    (h' : Requested look take s' us s'') : Requested look take s (ts ++ us) s'' := by
  induction h with
  | refl => exact h'
  | look _ ih => exact (ih h').look
  | take _ ih =>
    rw [List.append_assoc]
    exact (ih h').take

/-- From one stream to another by looking and taking. -/
abbrev Handled : TokenStream → List Token → TokenStream → Prop := Requested peek advance

namespace Handled

variable {s s' : TokenStream} {ts : List Token}

/-- **Nothing is lost and nothing is duplicated**: what was handed out and what is left is what
there was. -/
theorem toList_eq (h : Handled s ts s') : s.toList = ts ++ s'.toList := by
  induction h with
  | refl => rfl
  | look _ ih => rw [← ih, toList_leaves_peek]
  | take _ ih => rw [List.append_assoc, ← ih, ← toList_eq_handed]

theorem remaining_eq (h : Handled s ts s') : s.remaining = ts.length + s'.remaining := by
  rw [remaining, h.toList_eq, List.length_append]
  rfl

theorem pending_suffix (h : Handled s ts s') : s'.pending <:+ s.pending := by
  induction h with
  | refl => exact List.suffix_refl _
  | look _ ih => exact ih.trans (pending_leaves_peek _)
  | take _ ih => exact ih.trans (pending_leaves_advance _)

end Handled

/-! ### Parsers put together from looking, taking and failing -/

/-- **The parser is put together from looking at the next token, taking it, and failing** for
reasons of its own. -/
inductive Composed : {α : Type} → Parser α → Prop
  | pure {α : Type} (a : α) : Composed (pure a)
  | throw {α : Type} {err : ParseError} : (∀ e, err ≠ .lexical e) →
      Composed (throw err : Parser α)
  | peek : Composed peek
  | advance : Composed advance
  | bind {α β : Type} {x : Parser α} {f : α → Parser β} : Composed x → (∀ a, Composed (f a)) →
      Composed (x >>= f)

/-- The parser fails on the stream with a failure of the reader. -/
def Reports {α : Type} (x : Parser α) (s : TokenStream) (e : LexError) : Prop :=
  ∃ s', x s = .error (.lexical e) s'

section Reports

variable {α β : Type} {x : Parser α} {f : α → Parser β} {s s' : TokenStream} {e : LexError}

theorem not_reports_throw {err : ParseError} (herr : ∀ e, err ≠ .lexical e) (s : TokenStream)
    (e : LexError) : ¬ Reports (throw err : Parser α) s e := by
  rintro ⟨s', h⟩
  cases h
  exact herr e rfl

theorem not_reports_of_ok {a : α} (h : x s = .ok a s') (e : LexError) : ¬ Reports x s e := by
  rintro ⟨s₁, h₁⟩
  cases h.symm.trans h₁

theorem reports_bind_of_ok {a : α} (h : x s = .ok a s') :
    Reports (x >>= f) s e ↔ Reports (f a) s' e := by
  simp only [Reports, Parser.bind_of_ok h]

theorem reports_bind_of_error {err : ParseError} (h : x s = .error err s') :
    Reports (x >>= f) s e ↔ Reports x s e := by
  simp only [Reports, Parser.bind_of_error h, h, EStateM.Result.error.injEq]

end Reports

namespace Composed

variable {α : Type} {x y : Parser α}

theorem ite {c : Prop} [Decidable c] (hx : Composed x) (hy : Composed y) :
    Composed (if c then x else y) := by
  split
  · exact hx
  · exact hy

theorem sees (test : Token → Bool) : Composed (sees test) := peek.bind fun _ => .pure _

theorem demand (test : Token → Bool) (wanted : String) : Composed (demand test wanted) := by
  refine advance.bind fun t => ?_
  cases t with
  | none => exact .throw nofun
  | some t => exact .ite (.pure _) (.throw nofun)

theorem expect (k : Kind) (text? : Option String) : Composed (expect k text?) := demand _ _

theorem fresh (construct x : String) (seen : List String) :
    Composed (Phrases.fresh construct x seen) := .ite (.throw nofun) (.pure _)

/-- What a parser does to a stream it does by looking and taking. -/
theorem handled (h : Composed x) (s : TokenStream) : ∃ ts, Handled s ts (leaves x s) := by
  induction h generalizing s with
  | pure a => exact ⟨[], .refl s⟩
  | throw _ => exact ⟨[], .refl s⟩
  | peek => exact ⟨[], .look (.refl _)⟩
  | advance => exact ⟨_, .take (.refl _)⟩
  | @bind _ _ x f _ _ ihx ihf =>
    obtain ⟨ts, hts⟩ := ihx s
    cases hx : x s with
    | error e s₁ =>
      rw [Parser.leaves_of_error hx] at hts
      rw [Parser.leaves_of_error (Parser.bind_of_error hx)]
      exact ⟨ts, hts⟩
    | ok a s₁ =>
      obtain ⟨us, hus⟩ := ihf a s₁
      rw [Parser.leaves_of_ok hx] at hts
      rw [Parser.leaves_bind_of_ok hx]
      exact ⟨ts ++ us, hts.trans hus⟩

theorem remaining_le (h : Composed x) {s s' : TokenStream} {a : α} (hx : x s = .ok a s') :
    s'.remaining ≤ s.remaining := by
  obtain ⟨ts, hts⟩ := h.handled s
  rw [Parser.leaves_of_ok hx] at hts
  have := hts.remaining_eq
  omega

/-- Where the reader has not failed, or its failure has been reported, none is reported. -/
theorem failure_none (h : Composed x) {s : TokenStream} (hs : s.failure = none) :
    (leaves x s).failure = none ∧ ∀ e, ¬ Reports x s e := by
  induction h generalizing s with
  | pure a => exact ⟨hs, not_reports_of_ok rfl⟩
  | throw herr => exact ⟨hs, not_reports_throw herr s⟩
  | peek | advance =>
    cases s using forms with
    | seen | unseen => exact ⟨hs, not_reports_of_ok rfl⟩
    | broken => cases hs
    | ended => exact ⟨rfl, not_reports_of_ok rfl⟩
  | @bind _ _ x f _ _ ihx ihf =>
    obtain ⟨hs₁, hne⟩ := ihx hs
    cases hx : x s with
    | error err s₁ =>
      rw [Parser.leaves_of_error hx] at hs₁
      rw [Parser.leaves_of_error (Parser.bind_of_error hx)]
      exact ⟨hs₁, fun e he => hne e ((reports_bind_of_error hx).mp he)⟩
    | ok a s₁ =>
      rw [Parser.leaves_of_ok hx] at hs₁
      rw [Parser.leaves_bind_of_ok hx]
      obtain ⟨hs₂, hne'⟩ := ihf a hs₁
      exact ⟨hs₂, fun e he => hne' e ((reports_bind_of_ok hx).mp he)⟩

end Composed

/-! ### Before a failure of the reader -/

section Bears

variable {α β : Type}

/-- The parser asks for a token past the last one of the stream: whatever token came next, the
parser would fetch it. -/
def AsksBeyond (x : Parser α) (s : TokenStream) : Prop :=
  ∀ t f, (leaves x (s.extend [t] f)).pending = []

/-- The result with more tokens after those of the stream that is left, and another end. -/
def extendResult (more : List Token) (f : Option LexError) :
    EStateM.Result ParseError TokenStream α → EStateM.Result ParseError TokenStream α
  | .ok a s => .ok a (s.extend more f)
  | .error err s => .error err (s.extend more f)

/-- The parser makes do with the tokens of the stream: whatever came after them, it would do the
same and leave it where it is. -/
def MakesDo (x : Parser α) (s : TokenStream) : Prop :=
  ∀ more f, x (s.extend more f) = extendResult more f (x s)

section Bind

variable {x : Parser α} {f : α → Parser β} {s s' : TokenStream}

/-- Once the token beyond has been fetched it stays so. -/
theorem AsksBeyond.bind (h : AsksBeyond x s) (hf : ∀ a, Composed (f a)) :
    AsksBeyond (x >>= f) s := by
  intro t g
  have hx := h t g
  cases hres : x (s.extend [t] g) with
  | error err s₁ =>
    rw [Parser.leaves_of_error hres] at hx
    rwa [Parser.leaves_of_error (Parser.bind_of_error hres)]
  | ok a s₁ =>
    rw [Parser.leaves_of_ok hres] at hx
    rw [Parser.leaves_bind_of_ok hres]
    obtain ⟨ts, hts⟩ := (hf a).handled s₁
    have hsuffix := hts.pending_suffix
    rw [hx] at hsuffix
    exact List.suffix_nil.mp hsuffix

theorem MakesDo.eq_ok (h : MakesDo x s) {a : α} (hx : x s = .ok a s') (more : List Token)
    (g : Option LexError) : x (s.extend more g) = .ok a (s'.extend more g) := by
  rw [h more g, hx, extendResult]

theorem MakesDo.eq_error (h : MakesDo x s) {err : ParseError} (hx : x s = .error err s')
    (more : List Token) (g : Option LexError) :
    x (s.extend more g) = .error err (s'.extend more g) := by
  rw [h more g, hx, extendResult]

theorem MakesDo.bind_of_error (h : MakesDo x s) {err : ParseError} (hx : x s = .error err s') :
    MakesDo (x >>= f) s := by
  intro more g
  rw [Parser.bind_of_error (h.eq_error hx more g), Parser.bind_of_error hx, extendResult]

theorem MakesDo.bind (h : MakesDo x s) {a : α} (hx : x s = .ok a s') (hf : MakesDo (f a) s') :
    MakesDo (x >>= f) s := by
  intro more g
  rw [Parser.bind_of_ok (h.eq_ok hx more g), Parser.bind_of_ok hx, hf more g]

theorem MakesDo.asks_bind (h : MakesDo x s) {a : α} (hx : x s = .ok a s')
    (hf : AsksBeyond (f a) s') : AsksBeyond (x >>= f) s := by
  intro t g
  rw [Parser.leaves_bind_of_ok (h.eq_ok hx [t] g)]
  exact hf t g

theorem MakesDo.not_asks (h : MakesDo x s) : ¬ AsksBeyond x s := by
  intro hasks
  have hnil := hasks ⟨.op, ""⟩ none
  cases hx : x s with
  | ok a s' =>
    rw [Parser.leaves_of_ok (h.eq_ok hx _ none)] at hnil
    simp [extend] at hnil
  | error err s' =>
    rw [Parser.leaves_of_error (h.eq_error hx _ none)] at hnil
    simp [extend] at hnil

end Bind

/-- What a parser does on a stream that a failure of the reader ends. -/
inductive Bears (x : Parser α) (s : TokenStream) (e : LexError) : Prop
  | asks : AsksBeyond x s → x s = .error (.lexical e) ended → Bears x s e
  | makesDo : MakesDo x s → (leaves x s).failure = some e → (∀ e', ¬ Reports x s e') → Bears x s e

/-- The next token is fetched for the one who looks at it and for the one who takes it, unless it
has been fetched before. -/
theorem bears_of_fetch {x : Parser (Option Token)} {s : TokenStream} {e : LexError}
    (hx : x = peek ∨ x = advance) (hs : s.failure = some e) : Bears x s e := by
  cases s using forms with
  | seen t ts f | unseen t ts f =>
    rcases hx with rfl | rfl
    · exact .makesDo (fun _ _ => rfl) hs (not_reports_of_ok rfl)
    · exact .makesDo (fun _ _ => rfl) hs (not_reports_of_ok rfl)
  | broken e' =>
    cases hs
    rcases hx with rfl | rfl
    · exact .asks (fun _ _ => rfl) rfl
    · exact .asks (fun _ _ => rfl) rfl
  | ended => cases hs

/-- **Before a failure of the reader** a parser either asks for more than there is, which is the end
of it and of the stream, or makes do with what there is and leaves the failure in place. -/
theorem Composed.bears {x : Parser α} (h : Composed x) {s : TokenStream} {e : LexError}
    (hs : s.failure = some e) : Bears x s e := by
  induction h generalizing s with
  | pure a => exact .makesDo (fun _ _ => rfl) hs (not_reports_of_ok rfl)
  | throw herr => exact .makesDo (fun _ _ => rfl) hs (not_reports_throw herr s)
  | peek => exact bears_of_fetch (.inl rfl) hs
  | advance => exact bears_of_fetch (.inr rfl) hs
  | @bind _ _ x f _ hf ihx ihf =>
    cases ihx hs with
    | asks hasks hx => exact .asks (hasks.bind hf) (Parser.bind_of_error hx)
    | makesDo hdo hs₁ hne =>
      cases hx : x s with
      | error err s₁ =>
        rw [Parser.leaves_of_error hx] at hs₁
        refine .makesDo (hdo.bind_of_error hx) ?_ fun e' he => ?_
        · rwa [Parser.leaves_of_error (Parser.bind_of_error hx)]
        · exact hne e' ((reports_bind_of_error hx).mp he)
      | ok a s₁ =>
        rw [Parser.leaves_of_ok hx] at hs₁
        cases ihf a hs₁ with
        | asks hasks hf =>
          exact .asks (hdo.asks_bind hx hasks) ((Parser.bind_of_ok hx).trans hf)
        | makesDo hdo' hs₂ hne' =>
          refine .makesDo (hdo.bind hx hdo') ?_ fun e' he => ?_
          · rwa [Parser.leaves_bind_of_ok hx]
          · exact hne' e' ((reports_bind_of_ok hx).mp he)

end Bears

end CallBy
