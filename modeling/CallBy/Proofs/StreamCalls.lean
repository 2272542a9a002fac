import CallBy.Proofs.Layers

/-!
A token stream loses and duplicates nothing, whatever is called on it.

The calls on a stream are those that look at tokens and take them and those that parse. They can be
made in any order, and each goes on with the stream that the last one left, also after a failure.

* `Queue`: a stream that keeps what has been looked at in a list, and `Handled.queue`: that it does
  what a stream with at most one such token does;
* `Call`, `Call.run`: the calls, and `streamAfter`: the stream after a sequence of them;
* `Call.Removes`: how many tokens a call removes;
* `failure_streamAfter`: the failure of the reader stays until a call asks for a token past the last
  one, and that call reports it;
* `stream_conserved`.
-/

namespace CallBy

open TokenStream
open CallBy.Parser (leaves handed)

/-! ### The buffer as a list -/

/-- A stream that keeps the tokens that have been looked at in a list. -/
structure Queue where
  buffer : List Token
  pending : List Token
  failure : Option LexError

namespace Queue

/-- The next token that has not been looked at. -/
def pull : EStateM ParseError Queue (Option Token) := fun q =>
  match q.pending with
  | t :: ts => .ok (some t) { q with pending := ts }
  | [] =>
    match q.failure with
    | some e => .error (.lexical e) { q with failure := none }
    | none => .ok none q

/-- The first token of the list; if the list is empty the next token is put there before. -/
def peek : EStateM ParseError Queue (Option Token) := fun q =>
  match q.buffer with
  | t :: _ => .ok (some t) q
  | [] =>
    match pull q with
    | .ok (some t) q => .ok (some t) { q with buffer := q.buffer ++ [t] }
    | .ok none q => .ok none q
    | .error e q => .error e q

/-- Takes the first token of the list, or the next token if the list is empty. -/
def advance : EStateM ParseError Queue (Option Token) := fun q =>
  match q.buffer with
  | t :: ts => .ok (some t) { q with buffer := ts }
  | [] => pull q

/-- From one to another by looking and taking. -/
abbrev Handled : Queue → List Token → Queue → Prop := Requested peek advance

theorem length_leaves_advance (q : Queue) :
    (leaves advance q).buffer.length ≤ q.buffer.length := by
  obtain ⟨buffer, pending, failure⟩ := q
  cases buffer with
  | cons t ts => exact Nat.le_succ _
  | nil =>
    cases pending with
    | cons t ts => exact Nat.zero_le _
    | nil => cases failure <;> exact Nat.zero_le _

/-- Looking puts a token into the list only if there is none. -/
theorem length_leaves_peek (q : Queue) :
    (leaves peek q).buffer.length ≤ max 1 q.buffer.length := by
  obtain ⟨buffer, pending, failure⟩ := q
  cases buffer with
  | cons t ts => exact Nat.le_max_right _ _
  | nil =>
    cases pending with
    | cons t ts => exact Nat.le_max_left _ _
    | nil => cases failure <;> exact Nat.zero_le _

/-- The list never holds more than one token. -/
theorem Handled.length_le {q q' : Queue} {ts : List Token} (h : Handled q ts q')
    (hq : q.buffer.length ≤ 1) : q'.buffer.length ≤ 1 := by
  induction h with
  | refl => exact hq
  | @look q _ _ _ ih =>
    have := length_leaves_peek q
    exact ih (by omega)
  | @take q _ _ _ ih =>
    have := length_leaves_advance q
    exact ih (by omega)

end Queue

/-- The stream with what has been looked at in a list. -/
def TokenStream.queue (s : TokenStream) : Queue := ⟨s.buffer.toList, s.pending, s.failure⟩

/-- The result with the queue of the stream that is left. -/
def queueResult : EStateM.Result ParseError TokenStream (Option Token) →
    EStateM.Result ParseError Queue (Option Token)
  | .ok a s => .ok a s.queue
  | .error e s => .error e s.queue

section Requests

variable {x : Parser (Option Token)} {y : EStateM ParseError Queue (Option Token)} {s : TokenStream}

theorem leaves_queue (h : y s.queue = queueResult (x s)) :
    leaves y s.queue = (leaves x s).queue := by
  rw [leaves, leaves, h]
  cases x s <;> rfl

theorem handed_queue (h : y s.queue = queueResult (x s)) : handed y s.queue = handed x s := by
  rw [handed, handed, h]
  cases x s <;> rfl

end Requests

theorem peek_queue (s : TokenStream) : Queue.peek s.queue = queueResult (peek s) := by
  cases s using forms <;> rfl

theorem advance_queue (s : TokenStream) : Queue.advance s.queue = queueResult (advance s) := by
  cases s using forms <;> rfl

/-- **The stream that keeps what has been looked at in a list does the same** at every request. -/
theorem Handled.queue {s s' : TokenStream} {ts : List Token} (h : Handled s ts s') :
    s.queue.Handled ts s'.queue := by
  induction h with
  | refl s => exact .refl _
  | @look s _ _ _ ih =>
    rw [← leaves_queue (peek_queue s)] at ih
    exact ih.look
  | @take s _ _ _ ih =>
    rw [← leaves_queue (advance_queue s)] at ih
    rw [← handed_queue (advance_queue s)]
    exact ih.take

/-! ### Calls -/

/-- What a stream can be asked to parse. -/
inductive Parsing where
  | program | exp | term | factor | args
  | binary (least : Int)

namespace Parsing

/-- What comes of parsing. -/
def Answer : Parsing → Type
  | args => List Expr
  | _ => Expr

/-- The parser. A least precedence below zero is met by all operators, as zero is. -/
def run : (p : Parsing) → Parser p.Answer
  | program => Parser.program
  | exp => Parser.exp
  | term => Parser.term
  | factor => Parser.factor
  | args => Parser.args
  | binary least => Parser.binary least.toNat

theorem layered (p : Parsing) : Layered p.run := by
  cases p with
  | program => exact layered_program
  | exp => exact layered_exp
  | term => exact layered_term
  | factor => exact layered_factor
  | args => exact layered_args
  | binary least => exact layered_binary _

/-- Parsing that succeeds has taken a token. -/
theorem takesAt (p : Parsing) (s : TokenStream) : TakesAt s p.run := by
  have hexp : TakesAt s Parser.exp := takesAt_onStream fun h => h.takesAt_expNext s
  cases p with
  | program =>
    refine hexp.bind fun e => Composed.peek.bind fun t => ?_
    cases t with
    | none => exact .pure e
    | some t => exact .throw nofun
  | exp => exact hexp
  | term => exact takesAt_onStream fun h => h.takesAt_termNext s
  | factor => exact takesAt_onStream fun h => h.takesAt_factor s
  | args => exact takesAt_onStream fun h => h.takesAt_argsNext s
  | binary least => exact takesAt_onStream fun h => h.takesAt_binaryNext s _

end Parsing

/-- A call on a stream. -/
inductive Call where
  /-- Looks at the next token. -/
  | peek
  /-- Looks whether the next token passes a test. -/
  | sees (test : Token → Bool)
  /-- Takes the next token. -/
  | advance
  /-- Takes the next token and fails unless it passes a test. -/
  | demand (test : Token → Bool) (wanted : String)
  /-- Parses. -/
  | parse (p : Parsing)

namespace Call

/-- What comes of a call that succeeds. -/
def Answer : Call → Type
  | peek | advance => Option Token
  | sees _ => Bool
  | demand _ _ => String
  | parse p => p.Answer

/-- What the call does. -/
def run : (c : Call) → Parser c.Answer
  | peek => TokenStream.peek
  | sees test => TokenStream.sees test
  | advance => TokenStream.advance
  | demand test wanted => TokenStream.demand test wanted
  | parse p => p.run

/-- The stream that the call leaves, whether it succeeds or fails. -/
def after (c : Call) (s : TokenStream) : TokenStream := leaves c.run s

/-- How many tokens the call removes: looking removes none, taking one if there is one, also when
the token is not the one that is wanted, and parsing that succeeds at least one. -/
def Removes (c : Call) (s : TokenStream) (ts : List Token) : Prop :=
  match c with
  | peek | sees _ => ts = []
  | advance | demand _ _ => ts = s.toList.take 1
  | parse p => ∀ a s', p.run s = .ok a s' → ts ≠ []

theorem leaves_sees (test : Token → Bool) (s : TokenStream) :
    leaves (TokenStream.sees test) s = leaves TokenStream.peek s := by
  cases s using forms <;> rfl

theorem leaves_demand (test : Token → Bool) (wanted : String) (s : TokenStream) :
    leaves (TokenStream.demand test wanted) s = leaves TokenStream.advance s := by
  cases hx : TokenStream.advance s with
  | error err s₁ =>
    rw [Parser.leaves_of_error hx]
    exact Parser.leaves_of_error (Parser.bind_of_error hx)
  | ok t s₁ =>
    rw [Parser.leaves_of_ok hx]
    refine (Parser.leaves_bind_of_ok hx).trans ?_
    cases t with
    | none => rfl
    | some t =>
      dsimp only
      split <;> rfl

theorem layered (c : Call) : Layered c.run := by
  cases c with
  | peek => exact Composed.peek.layered
  | sees test => exact (Composed.sees test).layered
  | advance => exact Composed.advance.layered
  | demand test wanted => exact (Composed.demand test wanted).layered
  | parse p => exact p.layered

/-- **A call does what it does by looking and taking**, and removes as many tokens as it should. -/
theorem removes (c : Call) (s : TokenStream) : ∃ ts, Handled s ts (c.after s) ∧ c.Removes s ts := by
  have htake : handed TokenStream.advance s ++ [] = s.toList.take 1 := by
    rw [List.append_nil, handed_eq_take]
  cases c with
  | peek => exact ⟨[], .look (.refl _), rfl⟩
  | sees test =>
    have hafter : after (sees test) s = leaves TokenStream.peek s := leaves_sees test s
    rw [hafter]
    exact ⟨[], .look (.refl _), rfl⟩
  | advance => exact ⟨_, .take (.refl _), htake⟩
  | demand test wanted =>
    have hafter : after (demand test wanted) s = leaves TokenStream.advance s :=
      leaves_demand test wanted s
    rw [hafter]
    exact ⟨_, .take (.refl _), htake⟩
  | parse p =>
    obtain ⟨ts, hts⟩ := p.layered.handled s
    refine ⟨ts, hts, fun a s' ha hnil => ?_⟩
    have hlt := p.takesAt s a s' ha
    rw [Parser.leaves_of_ok ha, hnil] at hts
    have heq := hts.remaining_eq
    simp only [List.length_nil] at heq
    omega

end Call

/-- The stream after some calls, one after the other. -/
def streamAfter (s : TokenStream) : List Call → TokenStream
  | [] => s
  | c :: cs => streamAfter (c.after s) cs

/-- One of the calls asks for a token past the last one. -/
def SomeAsks (s : TokenStream) : List Call → Prop
  | [] => False
  | c :: cs => AsksBeyond c.run s ∨ SomeAsks (c.after s) cs

theorem handled_streamAfter (s : TokenStream) (cs : List Call) :
    ∃ taken, Handled s taken (streamAfter s cs) := by
  induction cs generalizing s with
  | nil => exact ⟨[], .refl s⟩
  | cons c cs ih =>
    obtain ⟨ts, hts, -⟩ := c.removes s
    obtain ⟨us, hus⟩ := ih (c.after s)
    exact ⟨ts ++ us, hts.trans hus⟩

/-! ### The failure of the reader -/

theorem eq_ended {s : TokenStream} (hl : s.toList = []) (hf : s.failure = none) : s = ended := by
  cases s using forms with
  | seen | unseen => cases hl
  | broken => cases hf
  | ended => rfl

/-- A stream at its end stays there. -/
theorem streamAfter_ended (cs : List Call) : streamAfter ended cs = ended := by
  induction cs with
  | nil => rfl
  | cons c cs ih =>
    have hafter : c.after ended = ended := by
      obtain ⟨ts, hts, -⟩ := c.removes ended
      have hnil : ts ++ (c.after ended).toList = [] := hts.toList_eq.symm
      exact eq_ended (List.append_eq_nil_iff.mp hnil).2 (c.layered.failure_none rfl).1
    rw [streamAfter, hafter, ih]

theorem failure_none_streamAfter {s : TokenStream} (hs : s.failure = none) (cs : List Call) :
    (streamAfter s cs).failure = none := by
  induction cs generalizing s with
  | nil => exact hs
  | cons c cs ih => exact ih (c.layered.failure_none hs).1

/-- **The failure of the reader stays until a call asks for a token past the last one**, and then
the stream is at its end. -/
theorem failure_streamAfter {s : TokenStream} {e : LexError} (hs : s.failure = some e)
    (cs : List Call) : (SomeAsks s cs → streamAfter s cs = ended) ∧
      (¬ SomeAsks s cs → (streamAfter s cs).failure = some e) := by
  induction cs generalizing s with
  | nil => exact ⟨nofun, fun _ => hs⟩
  | cons c cs ih =>
    cases c.layered.bears hs with
    | asks hasks hx =>
      have hafter : c.after s = ended := Parser.leaves_of_error hx
      refine ⟨fun _ => ?_, fun hnot => absurd (.inl hasks) hnot⟩
      rw [streamAfter, hafter, streamAfter_ended]
    | makesDo hdo hs₁ _ =>
      obtain ⟨hended, hkept⟩ := ih (s := c.after s) hs₁
      refine ⟨fun hsome => hended ?_, fun hnot => hkept fun hsome => hnot (.inr hsome)⟩
      exact hsome.resolve_left hdo.not_asks

/-- A call reports a failure of the reader if and only if the stream still has it and the call asks
for a token past the last one. -/
theorem reports_iff (c : Call) (s : TokenStream) (e : LexError) :
    Reports c.run s e ↔ s.failure = some e ∧ AsksBeyond c.run s := by
  cases hs : s.failure with
  | none =>
    have hnot := (c.layered.failure_none hs).2 e
    exact ⟨fun h => absurd h hnot, fun h => nomatch h.1⟩
  | some e₀ =>
    cases c.layered.bears hs with
    | asks hasks hx =>
      constructor
      · rintro ⟨s', h⟩
        cases hx.symm.trans h
        exact ⟨rfl, hasks⟩
      · rintro ⟨he, -⟩
        cases he
        exact ⟨ended, hx⟩
    | makesDo hdo _ hne =>
      exact ⟨fun h => absurd h (hne e), fun h => absurd h.2 hdo.not_asks⟩

/-- **A token stream loses and duplicates nothing.** After any sequence of calls on the stream of a
text, each of which may have succeeded or failed:

* the tokens taken so far, those in the buffer and those still to be fetched are together the tokens
  of the text, in order, and there is at most one in the buffer, also where it is a list;
* looking removes no token, taking one if there is one, and parsing that succeeds at least one, by
  looking and taking;
* the failure of the reader is reported by the first call that asks for a token past the last one
  and by no other, and from then on the stream is at its end. -/
theorem stream_conserved (source : String) (cs : List Call) (c : Call) :
    let s := streamAfter (ofSource source) cs
    (∃ taken, Handled (ofSource source) taken s ∧
      (ofSource source).queue.Handled taken s.queue ∧
      taken ++ (s.queue.buffer ++ s.queue.pending) = (lex source).tokens ∧
      s.queue.buffer.length ≤ 1) ∧
    (∃ ts, Handled s ts (c.after s) ∧ c.Removes s ts) ∧
    (∀ e, Reports c.run s e ↔ (lex source).failure = some e ∧ AsksBeyond c.run s ∧
      ¬ SomeAsks (ofSource source) cs) ∧
    ∀ e, (lex source).failure = some e → SomeAsks (ofSource source) cs → s = ended := by
  intro s
  refine ⟨?_, c.removes s, fun e => ?_, fun e he hsome => ?_⟩
  · obtain ⟨taken, htaken⟩ := handled_streamAfter (ofSource source) cs
    exact ⟨taken, htaken, htaken.queue, htaken.toList_eq.symm,
      htaken.queue.length_le (Nat.zero_le _)⟩
  · rw [reports_iff]
    cases hlex : (lex source).failure with
    | none =>
      have hs : s.failure = none := failure_none_streamAfter hlex cs
      rw [hs]
      exact ⟨fun h => (nomatch h.1), fun h => (nomatch h.1)⟩
    | some e₀ =>
      obtain ⟨hended, hkept⟩ := failure_streamAfter (s := ofSource source) hlex cs
      constructor
      · rintro ⟨hs, hasks⟩
        have hnot : ¬ SomeAsks (ofSource source) cs := by
          intro hsome
          rw [show s = ended from hended hsome] at hs
          cases hs
        rw [show s.failure = some e₀ from hkept hnot] at hs
        exact ⟨hs, hasks, hnot⟩
      · rintro ⟨he, hasks, hnot⟩
        exact ⟨(hkept hnot).trans he, hasks⟩
  · exact (failure_streamAfter (s := ofSource source) he cs).1 hsome

end CallBy
