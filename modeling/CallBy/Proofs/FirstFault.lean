import CallBy.Proofs.Completion

/-!
Syntax errors are reported at the first token that no program has there.

Whether the parser has decided on some tokens shows when they are followed by a failure of the
reader: it reports that failure as long as the tokens are the beginning of a program, and otherwise
what it reports is what it reports with whatever tokens after them. The first token after which it
has decided is the one at fault.

* `Viable`, `viable_iff`: the beginnings of programs are where the reader's failure is reported;
* `exists_first_fault`: tokens that begin no program have a first token at fault;
* `first_fault`.
-/

namespace CallBy

open TokenStream

/-- The tokens are a program. -/
def Accepted (ts : List Token) : Prop := ∃ e s, Parser.program { pending := ts } = .ok e s

/-- The tokens are rejected for this reason. -/
def Rejected (ts : List Token) (err : ParseError) : Prop :=
  ∃ s, Parser.program { pending := ts } = .error err s

/-- The tokens are the beginning of a program whose further tokens occur in texts. -/
def Viable (ts : List Token) : Prop := Completes Accepted ts

theorem accepted_iff (ts : List Token) : Accepted ts ↔ Phrase.exp.Spelled ts := by
  constructor
  · rintro ⟨e, s', h⟩
    exact ⟨e, (derives_of_program h).2⟩
  · rintro ⟨e, h⟩
    obtain ⟨s', h, -⟩ := takes_program h { pending := ts } rfl rfl
    exact ⟨e, s', h⟩

theorem Rejected.not_accepted {ts : List Token} {err : ParseError} (h : Rejected ts err) :
    ¬ Accepted ts := by
  rintro ⟨e, s', h'⟩
  obtain ⟨s, h⟩ := h
  cases h.symm.trans h'

/-- The tokens before a failure of the reader. -/
def broken (ts : List Token) (e : LexError) : TokenStream := { pending := ts, failure := some e }

/-- **On tokens before a failure of the reader** the parser reports that failure and the tokens are
the beginning of a program, or it reports what it reports with whatever tokens after them. -/
theorem broken_cases (ts : List Token) (e : LexError) :
    (Viable ts ∧ ∃ s', Parser.program (broken ts e) = .error (.lexical e) s') ∨
    ∃ err s', Parser.program (broken ts e) = .error err s' ∧ (∀ e, err ≠ .lexical e) ∧
      ∀ us, Rejected (ts ++ us) err := by
  cases decisive_program (broken ts e) e rfl with
  | wants s' h =>
    have hviable := completes_of_program ⟨e, s', h⟩
    exact .inl ⟨hviable.mono fun us hus => (accepted_iff us).mpr hus, s', h⟩
  | gives a s' h _ _ => cases (derives_of_program h).1
  | fails err s' h hne hmore => exact .inr ⟨err, s', h, hne, fun us => hmore us none⟩

theorem viable_iff (ts : List Token) (e : LexError) :
    Viable ts ↔ ∃ s', Parser.program (broken ts e) = .error (.lexical e) s' := by
  rcases broken_cases ts e with ⟨hviable, h⟩ | ⟨err, s', h, hne, hmore⟩
  · exact ⟨fun _ => h, fun _ => hviable⟩
  · constructor
    · rintro ⟨more, -, hmore'⟩
      exact absurd hmore' (hmore more).not_accepted
    · rintro ⟨s'', h'⟩
      cases h.symm.trans h'
      exact absurd rfl (hne e)

theorem viable_nil : Viable [] := (viable_iff [] (.unterminatedComment 0)).mpr ⟨_, rfl⟩

/-- Tokens that are not the beginning of a program are rejected whatever follows. -/
theorem rejected_of_not_viable {ts : List Token} (h : ¬ Viable ts) :
    ∃ err, ∀ us, Rejected (ts ++ us) err := by
  rcases broken_cases ts (.unterminatedComment 0) with ⟨hviable, -⟩ | ⟨err, -, -, -, hmore⟩
  · exact absurd hviable h
  · exact ⟨err, hmore⟩

/-- **Tokens that are not the beginning of a program have a first token at fault.** -/
theorem exists_first_fault {ts : List Token} (h : ¬ Viable ts) :
    ∃ k < ts.length, Viable (ts.take k) ∧ ¬ Viable (ts.take (k + 1)) := by
  have step : ∀ n, ¬ Viable (ts.take n) →
      ∃ k < n, Viable (ts.take k) ∧ ¬ Viable (ts.take (k + 1)) := by
    intro n hn
    induction n with
    | zero => exact absurd viable_nil hn
    | succ n ih =>
      by_cases hviable : Viable (ts.take n)
      · exact ⟨n, Nat.lt_succ_self n, hviable, hn⟩
      · obtain ⟨k, hk, hfault⟩ := ih hviable
        exact ⟨k, Nat.lt_succ_of_lt hk, hfault⟩
  exact step ts.length (by rwa [List.take_length])

theorem parse_eq_of_failure {source : String} {e : LexError} (h : (lex source).failure = some e)
    {err : ParseError} : Expr.parse source = .error err ↔
      ∃ s', Parser.program (broken (lex source).tokens e) = .error err s' := by
  have hstream : ofSource source = broken (lex source).tokens e := by
    rw [ofSource, h]
    rfl
  unfold Expr.parse
  rw [hstream]
  cases Parser.program (broken (lex source).tokens e) with
  | ok a s' => simp
  | error err' s' => simp

/-- **Syntax errors are reported at the first token at fault.** Rejected tokens have a longest part
that begins a program; unless it is all of them, they are rejected for the same reason with whatever
follows the token after it. Where the reader fails, its own failure is reported if and only if the
tokens before it begin a program, and otherwise what the tokens alone are rejected for. -/
theorem first_fault :
    (∀ (ts : List Token) (err : ParseError), Rejected ts err → ∃ k ≤ ts.length,
      Viable (ts.take k) ∧ (k < ts.length → ∀ us, Rejected (ts.take (k + 1) ++ us) err) ∧
      (k = ts.length → Viable ts)) ∧
    ∀ (source : String) (e : LexError), (lex source).failure = some e →
      (Expr.parse source = .error (.lexical e) ↔ Viable (lex source).tokens) ∧
      (¬ Viable (lex source).tokens →
        ∃ err, Rejected (lex source).tokens err ∧ Expr.parse source = .error err) := by
  refine ⟨fun ts err hts => ?_, fun source e he => ⟨?_, fun hnot => ?_⟩⟩
  · by_cases hviable : Viable ts
    · refine ⟨ts.length, Nat.le_refl _, by rwa [List.take_length], fun hlt => ?_, fun _ => hviable⟩
      exact absurd hlt (Nat.lt_irrefl _)
    · obtain ⟨k, hk, hprefix, hfault⟩ := exists_first_fault hviable
      refine ⟨k, Nat.le_of_lt hk, hprefix, fun _ us => ?_, fun heq => by omega⟩
      obtain ⟨err', hall⟩ := rejected_of_not_viable hfault
      -- the tokens themselves are one of the continuations
      have hwhole := hall (ts.drop (k + 1))
      rw [List.take_append_drop] at hwhole
      obtain ⟨s, h⟩ := hts
      obtain ⟨s', h'⟩ := hwhole
      cases h.symm.trans h'
      exact hall us
  · rw [parse_eq_of_failure he, viable_iff _ e]
  · rcases broken_cases (lex source).tokens e with ⟨hviable, -⟩ | ⟨err, s', h, -, hmore⟩
    · exact absurd hviable hnot
    · have hrejected := hmore []
      rw [List.append_nil] at hrejected
      exact ⟨err, hrejected, (parse_eq_of_failure he).mpr ⟨s', h⟩⟩

end CallBy
