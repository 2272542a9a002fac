import CallBy.Proofs.ProperLists
import CallBy.Proofs.RoundTrip

/-!
Printed results are unambiguous.

The text of a value without closures is made of lexemes of the language, with blanks only where they
keep two of them apart, so the reader finds the tokens of the value in it. The tokens decode in one
way: a parenthesis opens a list and nothing else, no element begins with the closing one, and every
other value is a word, a number or a number with its sign. So no value's tokens begin another's.

* `Value.tokens`, `Value.spells_render`: the tokens of the text of a value;
* `Value.decodes`: they decode in one way, whatever follows;
* `render_unambiguous`: values with one text are the same.
-/

namespace CallBy

open Phrases (symbol)

namespace Prim

theorem isWord_name (p : Prim) : Expr.IsWord p.name := by
  cases p <;> decide

theorem kind_name (p : Prim) : Kind.ofName p.name = .prim ∨ Kind.ofName p.name = .id := by
  cases p <;> decide

theorem name_injective {p q : Prim} (h : p.name = q.name) : p = q := by
  revert h
  cases p <;> cases q <;> decide

end Prim

namespace Value

/-- The value is made of integers, truth values, primitives and proper lists. -/
structure IsPlain (v : Value) : Prop where
  proper : v.Proper
  noClosure : v.hasClosure = false

instance : DecidablePred IsPlain := fun v =>
  decidable_of_iff (v.Proper ∧ v.hasClosure = false)
    ⟨fun ⟨hp, hc⟩ => ⟨hp, hc⟩, fun ⟨hp, hc⟩ => ⟨hp, hc⟩⟩

theorem IsPlain.parts {a r : Value} (h : (cons a r).IsPlain) :
    a.IsPlain ∧ r.IsPlain ∧ r.isList = true := by
  obtain ⟨hproper, hclosure⟩ := h
  obtain ⟨ha, hr, hlist⟩ := proper_cons hproper
  rw [hasClosure, Bool.or_eq_false_iff] at hclosure
  exact ⟨⟨ha, hclosure.1⟩, ⟨hr, hclosure.2⟩, hlist⟩

/-! ### The tokens of a text -/

mutual

/-- The tokens of the text of a value; the text of a closure is left out. -/
def tokens : Value → List Token
  | .int (.ofNat k) => [⟨.int, k.repr⟩]
  | .int (.negSucc k) => [symbol "-", ⟨.int, (k + 1).repr⟩]
  | .bool b => [⟨.literal, Expr.boolWord b⟩]
  | .empty => [symbol "(", symbol ")"]
  | .cons a r => symbol "(" :: (tokens a ++ restTokens r)
  | .closure _ _ _ _ => []
  | .prim p => [⟨Kind.ofName p.name, p.name⟩]

/-- The tokens of the elements after the first, and of the end of the list. -/
def restTokens : Value → List Token
  | .cons a r => tokens a ++ restTokens r
  | _ => [symbol ")"]

end

/-- A list opens with a parenthesis. -/
theorem tokens_of_isList {l : Value} (h : l.isList = true) :
    l.tokens = symbol "(" :: l.restTokens := by
  cases l with
  | empty | cons => simp [tokens, restTokens]
  | _ => cases h

/-- **The reader finds the tokens of a value in its text**, and those of the rest of a list in what
the text of the list ends with. -/
theorem spells_render {v : Value} (h : v.hasClosure = false) :
    Spells v.render v.tokens ∧ Closed (v.renderRest ++ ")") v.restTokens ∧
      ∃ c ∈ breaks, ∃ cs, (v.renderRest ++ ")").toList = c :: cs := by
  have hend : Closed ("" ++ ")") [symbol ")"] ∧
      ∃ c ∈ breaks, ∃ cs, ("" ++ ")").toList = c :: cs :=
    ⟨closed_close, ')', by decide, [], rfl⟩
  induction v with
  | int n =>
    refine ⟨?_, hend⟩
    cases n with
    | ofNat k => exact spells_digits k
    | negSucc k =>
      have hminus : Closed "-" [symbol "-"] := closed_symbol (c := '-') (by decide)
      exact hminus.append_spells (spells_digits (k + 1))
  | bool b =>
    refine ⟨?_, hend⟩
    cases b with
    | true => exact spells_word (w := "true") (by decide)
    | false => exact spells_word (w := "false") (by decide)
  | empty => exact ⟨(closed_open.append closed_close).spells, hend⟩
  | closure => cases h
  | prim p => exact ⟨spells_word p.isWord_name, hend⟩
  | cons a r iha ihr =>
    rw [hasClosure, Bool.or_eq_false_iff] at h
    obtain ⟨ha, -, -⟩ := iha h.1
    obtain ⟨-, hr, hbreak⟩ := ihr h.2
    have hmiddle : Closed (a.render ++ (r.renderRest ++ ")")) (a.tokens ++ r.restTokens) :=
      ha.append_closed hr hbreak
    have hopen := closed_open.append hmiddle
    have hblank := closed_blank.append hmiddle
    simp only [render, renderRest, tokens, restTokens, String.append_assoc] at hopen hblank ⊢
    refine ⟨hopen.spells, hblank, ' ', by decide, (a.render ++ (r.renderRest ++ ")")).toList, ?_⟩
    rw [String.toList_append]
    rfl

/-! ### Decoding -/

/-- The first token of a value: it opens a list if the value is one, and it closes none. -/
theorem exists_tokens_eq {v : Value} (h : v.hasClosure = false) :
    ∃ t ts, v.tokens = t :: ts ∧ (t = symbol "(" ↔ v.isList = true) ∧ t ≠ symbol ")" := by
  cases v with
  | int n => cases n <;> simp [tokens, isList, symbol]
  | prim p =>
    rcases p.kind_name with hk | hk <;> simp [tokens, isList, symbol, hk]
  | closure => cases h
  | _ => simp [tokens, isList, symbol]

theorem digits_injective {m n : Nat} (h : m.repr = n.repr) : m = n := by
  rw [← decimal_repr m, h, decimal_repr]

/-- Words and numbers are told apart by their tokens. -/
theorem tokens_append_inj_of_not_isList {a b : Value} {s t : List Token}
    (ha : a.hasClosure = false) (hb : b.hasClosure = false) (hla : a.isList = false)
    (hlb : b.isList = false) (h : a.tokens ++ s = b.tokens ++ t) : a = b ∧ s = t := by
  cases a with
  | int m =>
    cases b with
    | int n =>
      cases m <;> cases n <;> simp only [tokens, symbol, List.cons_append, List.nil_append,
        List.cons.injEq, Token.mk.injEq, reduceCtorEq, true_and, false_and] at h
      · obtain ⟨hrepr, hst⟩ := h
        exact ⟨by rw [digits_injective hrepr], hst⟩
      · obtain ⟨hrepr, hst⟩ := h
        have hsucc := digits_injective hrepr
        exact ⟨by rw [Nat.succ.inj hsucc], hst⟩
    | bool c => cases m <;> simp [tokens, symbol] at h
    | prim q => rcases q.kind_name with hq | hq <;> cases m <;> simp [tokens, symbol, hq] at h
    | closure => cases hb
    | empty | cons => cases hlb
  | bool c =>
    cases b with
    | int n => cases n <;> simp [tokens, symbol] at h
    | bool c' => cases c <;> cases c' <;> simp_all [tokens, Expr.boolWord]
    | prim q => rcases q.kind_name with hq | hq <;> simp [tokens, hq] at h
    | closure => cases hb
    | empty | cons => cases hlb
  | prim p =>
    cases b with
    | int n => rcases p.kind_name with hp | hp <;> cases n <;> simp [tokens, symbol, hp] at h
    | bool c' => rcases p.kind_name with hp | hp <;> simp [tokens, hp] at h
    | prim q =>
      simp only [tokens, List.cons_append, List.nil_append, List.cons.injEq, Token.mk.injEq] at h
      obtain ⟨⟨-, hname⟩, hst⟩ := h
      exact ⟨by rw [Prim.name_injective hname], hst⟩
    | closure => cases hb
    | empty | cons => cases hlb
  | closure => cases ha
  | empty | cons => cases hla

/-- Tokens that begin with those of the value do not begin with those of another one. -/
def Decodes (a : Value) : Prop :=
  ∀ b s t, IsPlain b → a.tokens ++ s = b.tokens ++ t → a = b ∧ s = t

/-- The same for the tokens after the opening of a list. -/
def DecodesRest (a : Value) : Prop :=
  ∀ b s t, IsPlain b → b.isList = true → a.restTokens ++ s = b.restTokens ++ t → a = b ∧ s = t

theorem decodes_of_not_isList {a : Value} (ha : a.hasClosure = false) (hla : a.isList = false) :
    a.Decodes := by
  intro b s t hb h
  cases hlb : b.isList with
  | false => exact tokens_append_inj_of_not_isList ha hb.noClosure hla hlb h
  | true =>
    obtain ⟨u, us, hu, hopen, -⟩ := exists_tokens_eq ha
    rw [tokens_of_isList hlb, hu, List.cons_append, List.cons_append, List.cons.injEq] at h
    rw [hopen.mp h.1] at hla
    cases hla

theorem DecodesRest.decodes {a : Value} (h : a.DecodesRest) (hla : a.isList = true) :
    a.Decodes := by
  intro b s t hb heq
  have hlb : b.isList = true := by
    obtain ⟨u, us, hu, hopen, -⟩ := exists_tokens_eq hb.noClosure
    rw [tokens_of_isList hla, hu, List.cons_append, List.cons_append, List.cons.injEq] at heq
    exact hopen.mp heq.1.symm
  rw [tokens_of_isList hla, tokens_of_isList hlb] at heq
  exact h b s t hb hlb (List.cons.inj heq).2

/-- No element begins with the closing parenthesis. -/
theorem restTokens_cons_ne {a r : Value} (ha : a.hasClosure = false) (s t : List Token) :
    (cons a r).restTokens ++ s ≠ empty.restTokens ++ t := by
  intro h
  obtain ⟨u, us, hu, -, hclose⟩ := exists_tokens_eq ha
  simp only [restTokens, hu, List.cons_append, List.cons.injEq] at h
  exact hclose h.1

theorem decodesRest_empty : empty.DecodesRest := by
  intro b s t hb hlb h
  cases b with
  | empty => exact ⟨rfl, List.append_cancel_left h⟩
  | cons b r => exact absurd h.symm (restTokens_cons_ne hb.parts.1.noClosure t s)
  | _ => cases hlb

theorem decodesRest_cons {a r : Value} (ha : a.hasClosure = false) (h : a.Decodes)
    (hr : r.DecodesRest) : (cons a r).DecodesRest := by
  intro b s t hb hlb heq
  cases b with
  | empty => exact absurd heq (restTokens_cons_ne ha s t)
  | cons b r' =>
    obtain ⟨pb, pr, hlist⟩ := hb.parts
    simp only [restTokens, List.append_assoc] at heq
    obtain ⟨rfl, htail⟩ := h b _ _ pb heq
    obtain ⟨rfl, hst⟩ := hr r' s t pr hlist htail
    exact ⟨rfl, hst⟩
  | _ => cases hlb

/-- **The tokens of a value decode in one way**, whatever follows. -/
theorem decodes {a : Value} (ha : a.IsPlain) :
    a.Decodes ∧ (a.isList = true → a.DecodesRest) := by
  induction a with
  | empty => exact ⟨decodesRest_empty.decodes rfl, fun _ => decodesRest_empty⟩
  | cons a r iha ihr =>
    obtain ⟨pa, pr, hlist⟩ := ha.parts
    have hrest := decodesRest_cons pa.noClosure (iha pa).1 ((ihr pr).2 hlist)
    exact ⟨hrest.decodes rfl, fun _ => hrest⟩
  | _ => exact ⟨decodes_of_not_isList ha.noClosure rfl, nofun⟩

/-- Without closures, values are the same only if they are equal. -/
theorem same_iff_eq {a b : Value} (ha : a.hasClosure = false) : a.same b = true ↔ a = b := by
  induction a generalizing b with
  | cons a r iha ihr =>
    rw [hasClosure, Bool.or_eq_false_iff] at ha
    cases b with
    | cons b s => rw [same, Bool.and_eq_true, iha ha.1, ihr ha.2, cons.injEq]
    | _ => simp [same]
  | closure => cases ha
  | _ => cases b <;> simp [same]

end Value

/-- **Printed results are unambiguous**: two values made of integers, truth values, primitives and
proper lists have one text if and only if they are the same. -/
theorem render_unambiguous {a b : Value} (ha : a.IsPlain) (hb : b.IsPlain) :
    a.render = b.render ↔ a.same b = true := by
  rw [Value.same_iff_eq ha.noClosure]
  constructor
  · intro h
    have hlex := (Value.spells_render ha.noClosure).1.lex_eq
    rw [h, (Value.spells_render hb.noClosure).1.lex_eq] at hlex
    have htokens : b.tokens = a.tokens := congrArg Lexed.tokens hlex
    exact ((Value.decodes ha).1 b [] [] hb (by rw [htokens])).1
  · intro h
    rw [h]

/-- The lists `(-1 (() cons) true)` and `(-1 () (cons) true)`, whose texts differ in their brackets
only. -/
theorem render_unambiguous_nested :
    let a := Value.ofList [.int (-1), .ofList [.empty, .prim .cons], .bool true]
    let b := Value.ofList [.int (-1), .empty, .ofList [.prim .cons], .bool true]
    a.IsPlain ∧ b.IsPlain ∧ a.same b = false ∧ a.render ≠ b.render :=
  ⟨by decide, by decide, by decide,
    (render_unambiguous (by decide) (by decide)).not.mpr (by decide)⟩

end CallBy
