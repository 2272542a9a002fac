import CallBy.Proofs.Layers

/-!
The parsers decide as soon as they can.

A stream whose text could not be read to its end fails with the reader's failure when the parser
asks for a token that is not there. So whether a parser has decided on the tokens seen so far shows
when they are given such an end: either it asks for more, or what it does is what it does with
whatever tokens and whatever end after them (`Outlook`).

* `Decisive x`: the parser `x` does one or the other on every stream;
* `Layered.decisive`: a parser that gets at the tokens by looking and taking is decisive;
* `decisive_program`: so is the parser of programs.
-/

namespace CallBy

/-- What the parser does on a stream that ends with a failure of the reader: it runs into that
failure, or it succeeds or fails as it does with whatever comes after the tokens. -/
inductive Outlook {α : Type} (x : Parser α) (s : TokenStream) (e : LexError) : Prop
  | wants (s' : TokenStream) : x s = .error (.lexical e) s' → Outlook x s e
  | gives (a : α) (s' : TokenStream) : x s = .ok a s' → s'.failure = some e →
      (∀ more f, x (s.extend more f) = .ok a (s'.extend more f)) → Outlook x s e
  | fails (err : ParseError) (s' : TokenStream) : x s = .error err s' → (∀ e, err ≠ .lexical e) →
      (∀ more f, ∃ s'', x (s.extend more f) = .error err s'') → Outlook x s e

/-- **The parser decides as soon as it can.** -/
def Decisive {α : Type} (x : Parser α) : Prop := ∀ s e, s.failure = some e → Outlook x s e

theorem Layered.decisive {α : Type} {x : Parser α} (h : Layered x) : Decisive x := by
  intro s e hs
  cases h.bears hs with
  | asks _ hx => exact .wants _ hx
  | makesDo hdo hs₁ hne =>
    cases hx : x s with
    | ok a s' =>
      rw [Parser.leaves_of_ok hx] at hs₁
      exact .gives a s' hx hs₁ (hdo.eq_ok hx)
    | error err s' =>
      refine .fails err s' hx (fun e' he => hne e' ⟨s', ?_⟩) fun more f => ?_
      · rw [hx, he]
      · exact ⟨_, hdo.eq_error hx more f⟩

/-- **The parser of programs decides as soon as it can.** -/
theorem decisive_program : Decisive Parser.program := layered_program.decisive

end CallBy
