import CallBy.Proofs.Grammar
import CallBy.Proofs.Levels

/-!
The parsers accept phrases of the grammar only.

A parser that succeeds has taken the tokens of a phrase, and has stopped at a token that cannot
continue it. The look-ahead matters: a chain can go on as a left operand only because the parser of
its last operand stopped where it did (`Quiet`).

* `Reads s ts s'`: the tokens from one stream to the other;
* `Gives x s a s'`: the parser succeeds, and `Gives.of_bind`: then its parts do;
* `Quiet p b l`: no operator of strength `p` or more follows, and none at all after a block;
* `Sound P`: what the parsers of a level accept, and `sound_level`: every level is sound;
* `derives_of_program`: a program is an expression of the grammar.
-/

namespace CallBy

open TokenStream
open Phrases (keyword symbol opensBlock)

/-! ### Streams and tokens -/

/-- The tokens have been taken from the first stream, which leaves the second. -/
def Reads (s : TokenStream) (ts : List Token) (s' : TokenStream) : Prop :=
  s.toList = ts ++ s'.toList ∧ s'.failure = s.failure

theorem Reads.trans {s s' s'' : TokenStream} {ts us : List Token} (h : Reads s ts s')
    (h' : Reads s' us s'') : Reads s (ts ++ us) s'' :=
  ⟨by rw [h.1, h'.1, List.append_assoc], h'.2.trans h.2⟩

/-- The parser succeeds on the first stream and leaves the second. -/
def Gives {α : Type} (x : Parser α) (s : TokenStream) (a : α) (s' : TokenStream) : Prop :=
  x s = .ok a s'

/-- A parser of two parts succeeds in two parts. -/
theorem Gives.of_bind {α β : Type} {x : Parser α} {f : α → Parser β} {s s' : TokenStream} {b : β}
    (h : Gives (x >>= f) s b s') : ∃ a s₁, Gives x s a s₁ ∧ Gives (f a) s₁ b s' := by
  simp only [Gives, Bind.bind, EStateM.bind] at h
  split at h
  · next a s₁ hx => exact ⟨a, s₁, hx, h⟩
  · cases h

theorem Gives.of_pure {α : Type} {a b : α} {s s' : TokenStream}
    (h : Gives (pure a) s b s') : b = a ∧ s' = s := by
  cases h
  exact ⟨rfl, rfl⟩

theorem failure_of_pull {s s' : TokenStream} {t : Option Token} (h : pull s = .ok t s') :
    s'.failure = s.failure ∧ (t = none → s.failure = none) := by
  unfold pull at h
  split at h
  · cases h
    exact ⟨rfl, nofun⟩
  · split at h
    · cases h
    · next hf =>
      cases h
      exact ⟨rfl, fun _ => hf⟩

theorem failure_of_peek {s s' : TokenStream} {t : Option Token} (h : peek s = .ok t s') :
    s'.failure = s.failure ∧ (t = none → s.failure = none) := by
  unfold peek at h
  split at h
  · cases h
    exact ⟨rfl, nofun⟩
  · split at h
    · next hp =>
      cases h
      obtain ⟨hf, hn⟩ := failure_of_pull hp
      exact ⟨hf, hn⟩
    · cases h

theorem reads_of_peek {s s' : TokenStream} {t : Option Token} (h : Gives peek s t s') :
    Reads s [] s' ∧ t = s'.toList.head? := by
  obtain ⟨hl, ht⟩ := toList_of_peek h
  exact ⟨⟨hl.symm, (failure_of_peek h).1⟩, by rw [hl, ht]⟩

theorem reads_of_advance {s s' : TokenStream} {t : Option Token} (h : Gives advance s t s') :
    Reads s t.toList s' := by
  refine ⟨toList_of_advance h, ?_⟩
  unfold Gives advance at h
  split at h
  · cases h
    rfl
  · exact (failure_of_pull h).1

theorem reads_of_expect_any {s s' : TokenStream} {k : Kind} {a : String}
    (h : Gives (expect k none) s a s') : Reads s [⟨k, a⟩] s' := by
  obtain ⟨⟨k', y⟩, hadv, ht, rfl⟩ := demand_eq_ok h
  simp only [Token.fits, Option.all_none, Bool.and_true, beq_iff_eq] at ht
  subst ht
  exact reads_of_advance hadv

section Parts

variable {β : Type} {s s' : TokenStream} {b : β}

/-- A parser that looks at the next token and goes on. -/
theorem Gives.of_peek_bind {f : Option Token → Parser β} (h : Gives (peek >>= f) s b s') :
    ∃ s₁, Reads s [] s₁ ∧ Gives (f s₁.toList.head?) s₁ b s' := by
  obtain ⟨t, s₁, h₁, h⟩ := h.of_bind
  obtain ⟨hr, rfl⟩ := reads_of_peek h₁
  exact ⟨s₁, hr, h⟩

theorem Gives.of_sees_bind {test : Token → Bool} {f : Bool → Parser β}
    (h : Gives (sees test >>= f) s b s') :
    ∃ s₁, Reads s [] s₁ ∧ Gives (f (s₁.toList.head?.any test)) s₁ b s' := by
  obtain ⟨c, s₁, h₁, h⟩ := h.of_bind
  obtain ⟨s₂, hr, h₁⟩ := h₁.of_peek_bind
  obtain ⟨rfl, rfl⟩ := h₁.of_pure
  exact ⟨s₁, hr, h⟩

/-- A parser that takes the token it has looked at and goes on. -/
theorem Gives.of_advance_bind {x : Parser β} {t : Token}
    (h : Gives (advance >>= fun _ => x) s b s') (ht : s.toList.head? = some t) :
    ∃ s₁, Reads s [t] s₁ ∧ Gives x s₁ b s' := by
  obtain ⟨o, s₁, h₁, h⟩ := h.of_bind
  obtain ⟨s₂, h₂⟩ := advance_of_head? ht
  rw [Gives, h₂] at h₁
  cases h₁
  exact ⟨s₁, reads_of_advance h₂, h⟩

theorem Gives.of_expect_bind {k : Kind} {x : String} {f : String → Parser β}
    (h : Gives (expect k (some x) >>= f) s b s') :
    ∃ a s₁, Reads s [⟨k, x⟩] s₁ ∧ Gives (f a) s₁ b s' := by
  obtain ⟨a, s₁, h₁, hrest⟩ := h.of_bind
  obtain ⟨⟨k', y⟩, hadv, ht, -⟩ := demand_eq_ok h₁
  simp only [Token.fits, Option.all_some, Bool.and_eq_true, beq_iff_eq] at ht
  obtain ⟨rfl, rfl⟩ := ht
  exact ⟨a, s₁, reads_of_advance hadv, hrest⟩

end Parts

theorem fresh_eq_ok {construct x : String} {seen : List String} {s s' : TokenStream} {u : Unit}
    (h : Gives (Phrases.fresh construct x seen) s u s') : x ∉ seen ∧ s' = s := by
  unfold Phrases.fresh at h
  split at h
  · cases h
  · next hx =>
    cases h
    exact ⟨hx, rfl⟩

theorem nodup_concat {seen : List String} {x : String} (h : seen.Nodup) (hx : x ∉ seen) :
    (seen ++ [x]).Nodup := by
  rw [List.nodup_append]
  refine ⟨h, by simp, fun a ha b hb hab => hx ?_⟩
  rw [List.mem_singleton] at hb
  rwa [← hb, ← hab]

/-! ### What follows a phrase -/

/-- No operator that binds so tightly follows, and after a block no operator at all. -/
def Quiet (p : Nat) (endsInBlock : Bool) (l : List Token) : Prop :=
  ∀ op q rest, l = symbol op :: rest → precedence? op = some q → q < p ∧ endsInBlock = false

theorem Quiet.of_block {p : Nat} {b : Bool} {l : List Token} (h : Quiet 1 true l) : Quiet p b l :=
  fun op q rest hl hq => absurd (h op q rest hl hq).2 nofun

theorem Quiet.of_one {b : Bool} {l : List Token} (h : Quiet 1 b l) : Quiet 1 true l := by
  intro op q rest hl hq
  have hlt := (h op q rest hl hq).1
  have hpos := (precedence?_bounds hq).1
  omega

theorem Quiet.of_factor (l : List Token) : Quiet 7 false l := by
  intro op q rest _ hq
  have hle := (precedence?_bounds hq).2
  exact ⟨by omega, rfl⟩

/-- An expression that begins as a block is one. -/
theorem Derives.block_of_opens {ts rest : List Token} {e : Expr} (h : Derives .exp ts e)
    (hb : (ts ++ rest).head?.any opensBlock = true) : Derives .block ts e := by
  cases h with
  | ofBlock h => exact h
  | ofBin h =>
    obtain ⟨t, us, rfl, -, ht⟩ := h.starts
    rw [List.cons_append, List.head?_cons, Option.any_some, ht] at hb
    cases hb

/-! ### The parsers of a level -/

/-- What the parsers of a level accept. -/
structure Sound (P : Phrases) : Prop where
  exp : ∀ {s s' e}, Gives P.exp s e s' →
    ∃ ts, Reads s ts s' ∧ Derives .exp ts e ∧ Quiet 1 true s'.toList
  term : ∀ {s s' e}, Gives P.term s e s' →
    ∃ ts b, Reads s ts s' ∧ Derives (.term b) ts e ∧ Quiet 7 b s'.toList
  binary : ∀ {p s s' e}, 1 ≤ p → p ≤ 6 → Gives (P.binary p) s e s' →
    ∃ ts b, Reads s ts s' ∧ Derives (.bin p b) ts e ∧ Quiet p b s'.toList
  climb : ∀ {p q b us left s s' e}, 1 ≤ p → p ≤ q → q ≤ 6 → Derives (.bin q b) us left →
    Quiet (q + 1) b s.toList → Gives (P.climb p left) s e s' →
    ∃ ts b', Reads s ts s' ∧ Derives (.bin p b') (us ++ ts) e ∧ Quiet p b' s'.toList
  calls : ∀ {us f s s' e}, Derives .calls us f → Gives (P.calls f) s e s' →
    ∃ ts, Reads s ts s' ∧ Derives .calls (us ++ ts) e
  args : ∀ {s s' es}, Gives P.args s es s' → ∃ as : List (List Token × Expr),
    Reads s (separated (as.map (·.1)) ++ [symbol ")"]) s' ∧ es = as.map (·.2) ∧
      ∀ a ∈ as, Derives .exp a.1 a.2
  moreArgs : ∀ {s s' es}, Gives P.moreArgs s es s' → ∃ as : List (List Token × Expr),
    Reads s ((as.map (·.1)).flatMap (symbol "," :: ·)) s' ∧ es = as.map (·.2) ∧
      ∀ a ∈ as, Derives .exp a.1 a.2
  moreParams : ∀ {seen s s' xs}, Gives (P.moreParams seen) s xs s' → seen.Nodup →
    Reads s ((xs.map ([ident ·])).flatMap (symbol "," :: ·)) s' ∧ (seen ++ xs).Nodup
  defs : ∀ {seen s s' eqs}, Gives (P.defs seen) s eqs s' → seen.Nodup →
    ∃ ds : List (String × List Token × Expr),
      Reads s (ds.flatMap fun d => definition d.1 d.2.1) s' ∧
      eqs = ds.map (fun d => (d.1, d.2.2)) ∧ (seen ++ ds.map (·.1)).Nodup ∧
        ∀ d ∈ ds, Derives .exp d.2.1 d.2.2

namespace Sound

variable {P : Phrases} (h : Sound P) {s s' : TokenStream}

include h

/-! ### Blocks -/

theorem conditional {e : Expr} (hs : Gives P.conditional s e s') :
    ∃ ts, Reads s ts s' ∧ Derives .block (keyword "if" :: ts) e ∧ Quiet 1 true s'.toList := by
  obtain ⟨t, s₁, h₁, hs⟩ := hs.of_bind
  obtain ⟨_, s₂, hr₂, hs⟩ := hs.of_expect_bind
  obtain ⟨c, s₃, h₃, hs⟩ := hs.of_bind
  obtain ⟨_, s₄, hr₄, hs⟩ := hs.of_expect_bind
  obtain ⟨a, s₅, h₅, hs⟩ := hs.of_bind
  obtain ⟨rfl, rfl⟩ := hs.of_pure
  obtain ⟨ts, hts, ht, -⟩ := h.exp h₁
  obtain ⟨us, hus, hc, -⟩ := h.exp h₃
  obtain ⟨vs, hvs, ha, hq⟩ := h.exp h₅
  refine ⟨_, (((hts.trans hr₂).trans hus).trans hr₄).trans hvs, ?_, hq⟩
  simpa only [keyword, List.append_assoc, List.cons_append, List.nil_append] using ht.ite hc ha

theorem definitions {e : Expr} (hs : Gives P.definitions s e s') :
    ∃ ts, Reads s ts s' ∧ Derives .block (keyword "let" :: ts) e ∧ Quiet 1 true s'.toList := by
  obtain ⟨eqs, s₁, h₁, hs⟩ := hs.of_bind
  dsimp only at hs
  split at hs
  · cases hs
  · next hne =>
    obtain ⟨_, s₂, hr₂, hs⟩ := hs.of_expect_bind
    obtain ⟨b, s₃, h₃, hs⟩ := hs.of_bind
    obtain ⟨rfl, rfl⟩ := hs.of_pure
    obtain ⟨ds, hds, rfl, hnodup, hder⟩ := h.defs h₁ List.nodup_nil
    obtain ⟨ts, hts, hb, hq⟩ := h.exp h₃
    refine ⟨_, (hds.trans hr₂).trans hts, ?_, hq⟩
    have hne : ds ≠ [] := by
      rintro rfl
      exact hne rfl
    simpa only [keyword, List.append_assoc, List.cons_append, List.nil_append] using
      Derives.letIn hne hnodup hder hb

theorem params {xs : List String} (hs : Gives P.params s xs s') :
    Reads s (separated (xs.map ([ident ·]))) s' ∧ xs.Nodup := by
  obtain ⟨s₁, hr₁, hs⟩ := hs.of_peek_bind
  split at hs
  · next x hx =>
    obtain ⟨s₂, hr₂, hs⟩ := hs.of_advance_bind hx
    obtain ⟨xs, s₃, h₃, hs⟩ := hs.of_bind
    obtain ⟨rfl, rfl⟩ := hs.of_pure
    obtain ⟨hr₃, hnodup⟩ := h.moreParams h₃ (by simp)
    exact ⟨(hr₁.trans hr₂).trans hr₃, hnodup⟩
  · obtain ⟨rfl, rfl⟩ := hs.of_pure
    exact ⟨hr₁, List.nodup_nil⟩

theorem function {e : Expr} (hs : Gives P.function s e s') :
    ∃ ts, Reads s ts s' ∧ Derives .block (keyword "map" :: ts) e ∧ Quiet 1 true s'.toList := by
  obtain ⟨xs, s₁, h₁, hs⟩ := hs.of_bind
  obtain ⟨_, s₂, hr₂, hs⟩ := hs.of_expect_bind
  obtain ⟨b, s₃, h₃, hs⟩ := hs.of_bind
  obtain ⟨rfl, rfl⟩ := hs.of_pure
  obtain ⟨hr, hnodup⟩ := h.params h₁
  obtain ⟨ts, hts, hb, hq⟩ := h.exp h₃
  refine ⟨_, (hr.trans hr₂).trans hts, ?_, hq⟩
  simpa only [keyword, List.append_assoc, List.cons_append, List.nil_append] using
    Derives.map hnodup hb

/-! ### Terms -/

theorem factor {e : Expr} (hs : Gives P.factor s e s') :
    ∃ ts, Reads s ts s' ∧ Derives .factor ts e := by
  obtain ⟨o, s₁, h₁, hs⟩ := hs.of_bind
  have hr := reads_of_advance h₁
  rcases o with _ | ⟨k, x⟩
  · cases hs
  cases k with
  | op =>
    dsimp only at hs
    split at hs
    · next hx =>
      subst hx
      obtain ⟨e, s₂, h₂, hs⟩ := hs.of_bind
      obtain ⟨_, s₃, hr₃, hs⟩ := hs.of_expect_bind
      obtain ⟨rfl, rfl⟩ := hs.of_pure
      obtain ⟨ts, hts, he, -⟩ := h.exp h₂
      exact ⟨_, (hr.trans hts).trans hr₃, he.paren⟩
    · cases hs
  | int =>
    obtain ⟨rfl, rfl⟩ := hs.of_pure
    exact ⟨_, hr, .int x⟩
  | keyword => cases hs
  | literal =>
    obtain ⟨rfl, rfl⟩ := hs.of_pure
    exact ⟨_, hr, .literal x⟩
  | prim =>
    dsimp only at hs
    split at hs
    · next p hp =>
      obtain ⟨rfl, rfl⟩ := hs.of_pure
      exact ⟨_, hr, .prim hp⟩
    · cases hs
  | id =>
    obtain ⟨rfl, rfl⟩ := hs.of_pure
    exact ⟨_, hr, .var x⟩

theorem callsNext {us : List Token} {f e : Expr} (hf : Derives .calls us f)
    (hs : Gives (P.callsNext f) s e s') : ∃ ts, Reads s ts s' ∧ Derives .calls (us ++ ts) e := by
  obtain ⟨s₁, hr₁, hs⟩ := hs.of_peek_bind
  split at hs
  · next ht =>
    obtain ⟨s₂, hr₂, hs⟩ := hs.of_advance_bind ht
    obtain ⟨es, s₃, h₃, hs⟩ := hs.of_bind
    obtain ⟨as, hr₃, rfl, has⟩ := h.args h₃
    obtain ⟨ts, hr, he⟩ := h.calls (hf.app has) hs
    refine ⟨_, ((hr₁.trans hr₂).trans hr₃).trans hr, ?_⟩
    simpa only [List.append_assoc, List.cons_append, List.nil_append] using he
  · obtain ⟨rfl, rfl⟩ := hs.of_pure
    exact ⟨[], hr₁, by rwa [List.append_nil]⟩

theorem unaryOperand {op : String} {e : Expr} (hop : (UnaryOp.ofSymbol? op).isSome = true)
    (hs : Gives P.unaryOperand s e s') : ∃ ts b, Reads s ts s' ∧
      Derives (.term b) (symbol op :: ts) (.unary op e) ∧ Quiet 7 b s'.toList := by
  obtain ⟨s₁, hr₁, hs⟩ := hs.of_sees_bind
  split at hs
  · next hb =>
    obtain ⟨ts, hr, he, hq⟩ := h.exp hs
    rw [hr.1] at hb
    exact ⟨ts, true, hr₁.trans hr, .unaryBlock hop (he.block_of_opens hb), hq.of_block⟩
  · obtain ⟨ts, b, hr, he, hq⟩ := h.term hs
    exact ⟨ts, b, hr₁.trans hr, .unary hop he, hq⟩

theorem termNext {e : Expr} (hs : Gives P.termNext s e s') :
    ∃ ts b, Reads s ts s' ∧ Derives (.term b) ts e ∧ Quiet 7 b s'.toList := by
  obtain ⟨s₁, hr₁, hs⟩ := hs.of_peek_bind
  have calls : Gives (P.factor >>= P.callsNext) s₁ e s' →
      ∃ ts b, Reads s ts s' ∧ Derives (.term b) ts e ∧ Quiet 7 b s'.toList := by
    intro hs
    obtain ⟨f, s₂, h₂, hs⟩ := hs.of_bind
    obtain ⟨us, hus, hf⟩ := h.factor h₂
    obtain ⟨ts, hts, he⟩ := h.callsNext hf.ofFactor hs
    exact ⟨us ++ ts, false, (hr₁.trans hus).trans hts, he.ofCalls, .of_factor _⟩
  split at hs
  · next op hop =>
    split at hs
    · next hun =>
      obtain ⟨s₂, hr₂, hs⟩ := hs.of_advance_bind hop
      obtain ⟨a, s₃, h₃, hs⟩ := hs.of_bind
      obtain ⟨rfl, rfl⟩ := hs.of_pure
      obtain ⟨ts, b, hr, ha, hq⟩ := h.unaryOperand hun h₃
      exact ⟨symbol op :: ts, b, (hr₁.trans hr₂).trans hr, ha, hq⟩
    · exact calls hs
  · exact calls hs

/-! ### Chains -/

/-- An operator with its right operand, after a left operand. -/
theorem operand {op : String} {p : Nat} {us : List Token} {l r : Expr}
    (hp : precedence? op = some p) (hl : Derives (.bin p false) us l)
    (hs : Gives (P.operand (p + 1)) s r s') : ∃ ts b, Reads s ts s' ∧
      Derives (.bin p b) (us ++ symbol op :: ts) (.binary op l r) ∧
        Quiet (p + 1) b s'.toList := by
  obtain ⟨s₁, hr₁, hs⟩ := hs.of_sees_bind
  split at hs
  · next hb =>
    obtain ⟨ts, hr, he, hq⟩ := h.exp hs
    rw [hr.1] at hb
    exact ⟨ts, true, hr₁.trans hr, .binaryBlock hp hl (he.block_of_opens hb), hq.of_block⟩
  · have hle := (precedence?_bounds hp).2
    obtain ⟨ts, b, hr, he, hq⟩ := h.binary (by omega) (by omega) hs
    exact ⟨ts, b, hr₁.trans hr, .binary hp hl he, hq⟩

theorem climbNext {p q : Nat} {b : Bool} {us : List Token} {left e : Expr} (hp : 1 ≤ p)
    (hpq : p ≤ q) (hq6 : q ≤ 6) (hl : Derives (.bin q b) us left) (hq : Quiet (q + 1) b s.toList)
    (hs : Gives (P.climbNext p left) s e s') :
    ∃ ts b', Reads s ts s' ∧ Derives (.bin p b') (us ++ ts) e ∧ Quiet p b' s'.toList := by
  obtain ⟨s₁, hr₁, hs⟩ := hs.of_peek_bind
  rw [hr₁.1, List.nil_append] at hq
  -- the chain ends here
  have stop : Quiet p b s₁.toList → Gives (pure left) s₁ e s' →
      ∃ ts b', Reads s ts s' ∧ Derives (.bin p b') (us ++ ts) e ∧ Quiet p b' s'.toList := by
    intro hstop hs
    obtain ⟨rfl, rfl⟩ := hs.of_pure
    exact ⟨[], b, hr₁, by rw [List.append_nil]; exact hl.loosen hp hpq hq6, hstop⟩
  split at hs
  · next op hop =>
    obtain ⟨rest, hrest⟩ := List.head?_eq_some_iff.mp hop
    split at hs
    · next k hk =>
      obtain ⟨hkq, rfl⟩ := hq op k rest hrest hk
      split at hs
      · next hlt =>
        refine stop (fun op' k' rest' hl' hk' => ⟨?_, rfl⟩) hs
        rw [hrest] at hl'
        cases hl'
        rw [hk] at hk'
        cases hk'
        exact hlt
      · obtain ⟨s₂, hr₂, hs⟩ := hs.of_advance_bind hop
        obtain ⟨r, s₃, h₃, hs⟩ := hs.of_bind
        have hk1 := (precedence?_bounds hk).1
        obtain ⟨vs, b', hvs, hbin, hq'⟩ :=
          h.operand hk (hl.loosen hk1 (by omega) hq6) h₃
        obtain ⟨ts, b'', hts, he, hq''⟩ :=
          h.climb hp (by omega) (by omega) hbin hq' hs
        refine ⟨_, b'', ((hr₁.trans hr₂).trans hvs).trans hts, ?_, hq''⟩
        simpa only [symbol, List.append_assoc, List.cons_append, List.nil_append] using he
    · next hk =>
      refine stop (fun op' k' rest' hl' hk' => ?_) hs
      rw [hrest] at hl'
      cases hl'
      rw [hk] at hk'
      cases hk'
  · next hne =>
    refine stop (fun op' k' rest' hl' _ => ?_) hs
    exact absurd (by rw [hl']; rfl) (hne op')

theorem binaryNext {p : Nat} {e : Expr} (hp : 1 ≤ p) (hp6 : p ≤ 6)
    (hs : Gives (P.binaryNext p) s e s') :
    ∃ ts b, Reads s ts s' ∧ Derives (.bin p b) ts e ∧ Quiet p b s'.toList := by
  obtain ⟨t, s₁, h₁, hs⟩ := hs.of_bind
  obtain ⟨us, b, hus, ht, hq⟩ := h.termNext h₁
  obtain ⟨ts, b', hts, he, hq'⟩ := h.climbNext hp hp6 (Nat.le_refl 6) ht.ofTerm hq hs
  exact ⟨us ++ ts, b', hus.trans hts, he, hq'⟩

theorem expNext {e : Expr} (hs : Gives P.expNext s e s') :
    ∃ ts, Reads s ts s' ∧ Derives .exp ts e ∧ Quiet 1 true s'.toList := by
  obtain ⟨s₁, hr₁, hs⟩ := hs.of_peek_bind
  have block : ∀ {x : Parser Expr} {k : String}, s₁.toList.head? = some (keyword k) →
      (∀ {s}, Gives x s e s' → ∃ ts, Reads s ts s' ∧ Derives .block (keyword k :: ts) e ∧
        Quiet 1 true s'.toList) →
      Gives (advance >>= fun _ => x) s₁ e s' →
      ∃ ts, Reads s ts s' ∧ Derives .exp ts e ∧ Quiet 1 true s'.toList := by
    intro x k hk hx hs
    obtain ⟨s₂, hr₂, hs⟩ := hs.of_advance_bind hk
    obtain ⟨ts, hts, he, hq⟩ := hx hs
    exact ⟨_, (hr₁.trans hr₂).trans hts, he.ofBlock, hq⟩
  split at hs
  · next hk => exact block hk h.conditional hs
  · split at hs
    · next hk => exact block hk h.definitions hs
    · split at hs
      · next hk => exact block hk h.function hs
      · obtain ⟨ts, b, hts, he, hq⟩ := h.binaryNext (Nat.le_refl 1) (by omega) hs
        exact ⟨ts, hr₁.trans hts, he.ofBin, hq.of_one⟩

/-! ### Lists -/

theorem moreArgsNext {es : List Expr} (hs : Gives P.moreArgsNext s es s') :
    ∃ as : List (List Token × Expr), Reads s ((as.map (·.1)).flatMap (symbol "," :: ·)) s' ∧
      es = as.map (·.2) ∧ ∀ a ∈ as, Derives .exp a.1 a.2 := by
  obtain ⟨s₁, hr₁, hs⟩ := hs.of_peek_bind
  split at hs
  · next ht =>
    obtain ⟨s₂, hr₂, hs⟩ := hs.of_advance_bind ht
    obtain ⟨e, s₃, h₃, hs⟩ := hs.of_bind
    obtain ⟨es, s₄, h₄, hs⟩ := hs.of_bind
    obtain ⟨rfl, rfl⟩ := hs.of_pure
    obtain ⟨ts, hts, he, -⟩ := h.exp h₃
    obtain ⟨as, has, rfl, hder⟩ := h.moreArgs h₄
    refine ⟨(ts, e) :: as, ((hr₁.trans hr₂).trans hts).trans has, rfl, ?_⟩
    exact List.forall_mem_cons.mpr ⟨he, hder⟩
  · obtain ⟨rfl, rfl⟩ := hs.of_pure
    exact ⟨[], hr₁, rfl, nofun⟩

theorem argsNext {es : List Expr} (hs : Gives P.argsNext s es s') :
    ∃ as : List (List Token × Expr),
      Reads s (separated (as.map (·.1)) ++ [symbol ")"]) s' ∧ es = as.map (·.2) ∧
        ∀ a ∈ as, Derives .exp a.1 a.2 := by
  obtain ⟨s₁, hr₁, hs⟩ := hs.of_peek_bind
  split at hs
  · next ht =>
    obtain ⟨s₂, hr₂, hs⟩ := hs.of_advance_bind ht
    obtain ⟨rfl, rfl⟩ := hs.of_pure
    exact ⟨[], hr₁.trans hr₂, rfl, nofun⟩
  · obtain ⟨e, s₂, h₂, hs⟩ := hs.of_bind
    obtain ⟨es, s₃, h₃, hs⟩ := hs.of_bind
    obtain ⟨_, s₄, hr₄, hs⟩ := hs.of_expect_bind
    obtain ⟨rfl, rfl⟩ := hs.of_pure
    obtain ⟨ts, hts, he, -⟩ := h.expNext h₂
    obtain ⟨as, has, rfl, hder⟩ := h.moreArgsNext h₃
    refine ⟨(ts, e) :: as, ((hr₁.trans hts).trans has).trans hr₄, rfl, ?_⟩
    exact List.forall_mem_cons.mpr ⟨he, hder⟩

theorem moreParamsNext {seen xs : List String} (hs : Gives (P.moreParamsNext seen) s xs s')
    (hseen : seen.Nodup) :
    Reads s ((xs.map ([ident ·])).flatMap (symbol "," :: ·)) s' ∧ (seen ++ xs).Nodup := by
  obtain ⟨s₁, hr₁, hs⟩ := hs.of_peek_bind
  split at hs
  · next ht =>
    obtain ⟨s₂, hr₂, hs⟩ := hs.of_advance_bind ht
    obtain ⟨x, s₃, h₃, hs⟩ := hs.of_bind
    obtain ⟨_, s₄, h₄, hs⟩ := hs.of_bind
    obtain ⟨xs, s₅, h₅, hs⟩ := hs.of_bind
    obtain ⟨rfl, rfl⟩ := hs.of_pure
    obtain ⟨hx, rfl⟩ := fresh_eq_ok h₄
    obtain ⟨hr, hnodup⟩ := h.moreParams h₅ (nodup_concat hseen hx)
    have hx := reads_of_expect_any h₃
    refine ⟨((hr₁.trans hr₂).trans hx).trans hr, ?_⟩
    simpa only [List.append_assoc, List.singleton_append] using hnodup
  · obtain ⟨rfl, rfl⟩ := hs.of_pure
    exact ⟨hr₁, by rwa [List.append_nil]⟩

theorem defsNext {seen : List String} {eqs : List (String × Expr)}
    (hs : Gives (P.defsNext seen) s eqs s') (hseen : seen.Nodup) :
    ∃ ds : List (String × List Token × Expr),
      Reads s (ds.flatMap fun d => definition d.1 d.2.1) s' ∧
      eqs = ds.map (fun d => (d.1, d.2.2)) ∧ (seen ++ ds.map (·.1)).Nodup ∧
        ∀ d ∈ ds, Derives .exp d.2.1 d.2.2 := by
  obtain ⟨s₁, hr₁, hs⟩ := hs.of_peek_bind
  split at hs
  · next x hx =>
    obtain ⟨s₂, hr₂, hs⟩ := hs.of_advance_bind hx
    obtain ⟨_, s₃, h₃, hs⟩ := hs.of_bind
    obtain ⟨_, s₄, hr₄, hs⟩ := hs.of_expect_bind
    obtain ⟨e, s₅, h₅, hs⟩ := hs.of_bind
    obtain ⟨_, s₆, hr₆, hs⟩ := hs.of_expect_bind
    obtain ⟨eqs, s₇, h₇, hs⟩ := hs.of_bind
    obtain ⟨rfl, rfl⟩ := hs.of_pure
    obtain ⟨hfresh, rfl⟩ := fresh_eq_ok h₃
    obtain ⟨ts, hts, he, -⟩ := h.exp h₅
    obtain ⟨ds, hds, rfl, hnodup, hder⟩ := h.defs h₇ (nodup_concat hseen hfresh)
    have hhead := hr₁.trans hr₂
    have hdef := ((hhead.trans hr₄).trans hts).trans hr₆
    refine ⟨(x, ts, e) :: ds, hdef.trans hds, rfl, ?_, List.forall_mem_cons.mpr ⟨he, hder⟩⟩
    simpa only [List.append_assoc, List.singleton_append, List.map_cons] using hnodup
  · obtain ⟨rfl, rfl⟩ := hs.of_pure
    exact ⟨[], hr₁, rfl, by rwa [List.map_nil, List.append_nil], nofun⟩

/-- What a sound level is built into is sound. -/
theorem next : Sound P.next where
  exp := h.expNext
  term := h.termNext
  binary := h.binaryNext
  climb := h.climbNext
  calls := h.callsNext
  args := h.argsNext
  moreArgs := h.moreArgsNext
  moreParams := h.moreParamsNext
  defs := h.defsNext

end Sound

/-- **The parsers accept phrases of the grammar only**, at every level. -/
theorem sound_level (n : Nat) : Sound (Phrases.level n) := by
  induction n with
  | zero => constructor <;> intros <;> contradiction
  | succ n ih => exact ih.next

/-- A program is an expression of the grammar, read to the end. -/
theorem derives_of_program {s s' : TokenStream} {e : Expr} (h : Gives Parser.program s e s') :
    s.failure = none ∧ Derives .exp s.toList e := by
  obtain ⟨_, s₁, h₁, h⟩ := h.of_bind
  obtain ⟨o, s₂, h₂, h⟩ := h.of_bind
  obtain ⟨ts, hts, he, -⟩ := (sound_level s.remaining).expNext h₁
  cases o with
  | some t => cases h
  | none =>
    obtain ⟨rfl, -⟩ := h.of_pure
    obtain ⟨hl, hhead⟩ := toList_of_peek h₂
    have hnil : s₁.toList = [] := List.head?_eq_none_iff.mp hhead.symm
    rw [hts.1, hnil, List.append_nil]
    exact ⟨hts.2.symm.trans ((failure_of_peek h₂).2 rfl), he⟩

end CallBy
