import CallBy.Proofs.Accepts

/-!
The parsers accept all phrases of the grammar, and so a list of tokens spells at most one
expression.

A phrase is recognized in front of any tokens that cannot continue it (`Stops`). The loops of the
parser build chains and argument lists from the left, so the claim for these is about what is left
of a loop: having taken the phrase, the loop goes on from there (`Recognized`).

* `Takes x l a l'`: on every stream of the tokens `l` the parser gives `a` and leaves `l'`;
* `Derives.recognized`: the induction over derivations;
* `program_iff_derives`: the parser and the grammar agree.
-/

namespace CallBy

open TokenStream
open Phrases

/-! ### Parsers on lists of tokens -/

/-- On every stream of the tokens `l` the parser gives `a` and leaves the tokens `l'`. -/
def Takes {α : Type} (x : Parser α) (l : List Token) (a : α) (l' : List Token) : Prop :=
  ∀ s : TokenStream, s.toList = l → s.failure = none →
    ∃ s', Gives x s a s' ∧ s'.toList = l' ∧ s'.failure = none

namespace Takes

variable {α β : Type} {l l' l'' : List Token}

theorem pure (a : α) : Takes (pure a) l a l := fun s hl hf => ⟨s, rfl, hl, hf⟩

theorem bind {x : Parser α} {f : α → Parser β} {a : α} {b : β} (h : Takes x l a l')
    (h' : Takes (f a) l' b l'') : Takes (x >>= f) l b l'' := by
  intro s hl hf
  obtain ⟨s₁, h₁, hl₁, hf₁⟩ := h s hl hf
  obtain ⟨s₂, h₂, hl₂, hf₂⟩ := h' s₁ hl₁ hf₁
  refine ⟨s₂, ?_, hl₂, hf₂⟩
  unfold Gives at h₁ h₂ ⊢
  simp only [Bind.bind, EStateM.bind, h₁, h₂]

theorem peek : Takes peek l l.head? l := by
  intro s hl hf
  obtain ⟨buffer, pending, failure⟩ := s
  cases hf
  subst hl
  rcases buffer with _ | b
  · rcases pending with _ | ⟨p, ps⟩ <;> exact ⟨_, rfl, rfl, rfl⟩
  · exact ⟨_, rfl, rfl, rfl⟩

theorem advance (t : Token) : Takes advance (t :: l) (some t) l := by
  intro s hl hf
  obtain ⟨s', h⟩ := advance_of_head? (s := s) (t := t) (by rw [hl]; rfl)
  obtain ⟨hl', hf'⟩ := reads_of_advance h
  rw [hl] at hl'
  exact ⟨s', h, (List.cons.inj hl').2.symm, hf'.trans hf⟩

/-- The parser looks at the next token. -/
theorem peek_bind {f : Option Token → Parser β} {b : β} (h : Takes (f l.head?) l b l') :
    Takes (TokenStream.peek >>= f) l b l' := peek.bind h

/-- The parser takes a token that it has looked at. -/
theorem advance_bind {x : Parser β} {b : β} (t : Token) (h : Takes x l b l') :
    Takes (TokenStream.advance >>= fun _ => x) (t :: l) b l' := (advance t).bind h

theorem sees_bind {test : Token → Bool} {f : Bool → Parser β} {b : β}
    (h : Takes (f (l.head?.any test)) l b l') : Takes (sees test >>= f) l b l' :=
  .bind (.bind peek (.pure (l.head?.any test))) h

theorem expect_bind {f : String → Parser β} {b : β} (k : Kind) {text? : Option String} {x : String}
    (hx : text?.all (x == ·) = true) (h : Takes (f x) l b l') :
    Takes (expect k text? >>= f) (⟨k, x⟩ :: l) b l' := by
  have hfits : Token.fits k text? ⟨k, x⟩ = true := by simp [Token.fits, hx]
  refine .bind (.bind (advance ⟨k, x⟩) ?_) h
  dsimp only
  rw [if_pos hfits]
  exact .pure x

theorem fresh_bind {f : Unit → Parser β} {b : β} {construct x : String} {seen : List String}
    (hx : x ∉ seen) (h : Takes (f ()) l b l') :
    Takes (Phrases.fresh construct x seen >>= f) l b l' := by
  unfold Phrases.fresh
  rw [if_neg hx]
  exact h

end Takes

/-! ### What cannot continue a phrase -/

/-- The tokens cannot continue a chain of operators that bind at least so tightly. -/
def Stops (p : Nat) (endsInBlock : Bool) (l : List Token) : Prop :=
  l.head? ≠ some (symbol "(") ∧ Quiet p endsInBlock l

theorem Stops.of_block {p q : Nat} {b : Bool} {l : List Token} (h : Stops p true l) :
    Stops q b l :=
  ⟨h.1, fun op k rest hl hk => absurd (h.2 op k rest hl hk).2 nofun⟩

theorem Stops.weaken {p q : Nat} {b : Bool} {l : List Token} (h : Stops p b l) (hpq : p ≤ q) :
    Stops q b l := by
  refine ⟨h.1, fun op k rest hl hk => ?_⟩
  obtain ⟨hlt, hb⟩ := h.2 op k rest hl hk
  exact ⟨by omega, hb⟩

theorem stops_keyword (k : String) (l : List Token) : Stops 1 true (keyword k :: l) :=
  ⟨nofun, fun _ _ _ h => (nomatch h)⟩

theorem stops_nil : Stops 1 true [] := ⟨nofun, fun _ _ _ h => (nomatch h)⟩

theorem stops_symbol {x : String} (hx : precedence? x = none) (hne : x ≠ "(") (l : List Token) :
    Stops 1 true (symbol x :: l) := by
  refine ⟨fun h => ?_, fun op q rest h hq => ?_⟩
  · cases h
    exact hne rfl
  · cases h
    rw [hx] at hq
    cases hq

/-- An operator stops the chains that bind more tightly. -/
theorem stops_operator {op : String} {p : Nat} (hp : precedence? op = some p) (l : List Token) :
    Stops (p + 1) false (symbol op :: l) := by
  refine ⟨fun h => ?_, fun op' q rest h hq => ?_⟩
  · cases h
    cases hp
  · cases h
    rw [hp] at hq
    cases hq
    exact ⟨Nat.lt_succ_self p, rfl⟩

/-- **The phrase is recognized** in front of tokens that cannot continue it. For chains and calls
the loop that has taken the phrase goes on from there. -/
def Recognized : Phrase → List Token → Expr → Prop
  | .exp, ts, e | .block, ts, e =>
    ∀ rest, Stops 1 true rest → Takes limit.expNext (ts ++ rest) e rest
  | .bin p b, ts, e => ∀ q, q ≤ p → ∀ rest a l', Stops (p + 1) b rest →
    Takes (limit.climbNext q e) rest a l' → Takes (limit.binaryNext q) (ts ++ rest) a l'
  | .term b, ts, e => ∀ rest, Stops 7 b rest → Takes limit.termNext (ts ++ rest) e rest
  | .calls, ts, e => ∀ rest a l', Takes (limit.callsNext e) rest a l' →
    Takes (limit.factor >>= limit.callsNext) (ts ++ rest) a l'
  | .factor, ts, e => ∀ rest, Takes limit.factor (ts ++ rest) e rest

/-! ### Expressions by their first token -/

variable {l l' : List Token}

theorem takes_if {e : Expr} (h : Takes limit.conditional l e l') :
    Takes limit.expNext (keyword "if" :: l) e l' := by
  refine .peek_bind ?_
  rw [List.head?_cons, if_pos rfl]
  exact .advance_bind _ h

theorem takes_let {e : Expr} (h : Takes limit.definitions l e l') :
    Takes limit.expNext (keyword "let" :: l) e l' := by
  refine .peek_bind ?_
  rw [List.head?_cons, if_neg (by decide), if_pos rfl]
  exact .advance_bind _ h

theorem takes_map {e : Expr} (h : Takes limit.function l e l') :
    Takes limit.expNext (keyword "map" :: l) e l' := by
  refine .peek_bind ?_
  rw [List.head?_cons, if_neg (by decide), if_neg (by decide), if_pos rfl]
  exact .advance_bind _ h

theorem takes_chain {t : Token} {e : Expr} (ht : opensBlock t = false)
    (h : Takes (limit.binaryNext 1) (t :: l) e l') : Takes limit.expNext (t :: l) e l' := by
  simp only [opensBlock, Bool.or_eq_false_iff, beq_eq_false_iff_ne] at ht
  obtain ⟨⟨hif, hlet⟩, hmap⟩ := ht
  refine .peek_bind ?_
  rw [List.head?_cons, if_neg (by simpa using hif), if_neg (by simpa using hlet),
    if_neg (by simpa using hmap)]
  exact h

/-! ### Lists -/

theorem stops_moreArgs (tss : List (List Token)) (rest : List Token) :
    Stops 1 true (tss.flatMap (symbol "," :: ·) ++ symbol ")" :: rest) := by
  cases tss with
  | nil => exact stops_symbol (by decide) (by decide) _
  | cons => exact stops_symbol (by decide) (by decide) _

theorem takes_moreArgs {as : List (List Token × Expr)}
    (has : ∀ a ∈ as, Recognized .exp a.1 a.2) (rest : List Token) :
    Takes limit.moreArgsNext ((as.map (·.1)).flatMap (symbol "," :: ·) ++ symbol ")" :: rest)
      (as.map (·.2)) (symbol ")" :: rest) := by
  induction as with
  | nil =>
    refine .peek_bind ?_
    rw [if_neg (by simp [symbol])]
    exact .pure _
  | cons a as ih =>
    obtain ⟨ha, has⟩ := List.forall_mem_cons.mp has
    have hfirst := ha _ (stops_moreArgs (as.map (·.1)) rest)
    have hlater := ih has
    rw [← limit_exp] at hfirst
    rw [← limit_moreArgs] at hlater
    simp only [List.map_cons, List.flatMap_cons, List.cons_append, List.append_assoc]
    refine .peek_bind ?_
    rw [List.head?_cons, if_pos rfl]
    exact .advance_bind _ (.bind hfirst (.bind hlater (.pure _)))

theorem takes_args {as : List (List Token × Expr)} (hder : ∀ a ∈ as, Derives .exp a.1 a.2)
    (has : ∀ a ∈ as, Recognized .exp a.1 a.2) (rest : List Token) :
    Takes limit.argsNext (separated (as.map (·.1)) ++ symbol ")" :: rest) (as.map (·.2)) rest := by
  cases as with
  | nil =>
    refine .peek_bind ?_
    rw [List.map_nil, separated, List.nil_append, List.head?_cons, if_pos rfl]
    exact .advance_bind _ (.pure _)
  | cons a as =>
    obtain ⟨ha, has⟩ := List.forall_mem_cons.mp has
    obtain ⟨t, us, hts, hne, -⟩ := (hder a List.mem_cons_self).starts
    have hfirst := ha _ (stops_moreArgs (as.map (·.1)) rest)
    have hlater := takes_moreArgs has rest
    simp only [List.map_cons, separated, List.append_assoc]
    refine .peek_bind ?_
    rw [if_neg (by rw [hts]; simpa using hne)]
    exact .bind hfirst (.bind hlater (.expect_bind .op (by decide) (.pure _)))

theorem takes_moreParams {seen xs : List String} (hnodup : (seen ++ xs).Nodup)
    (rest : List Token) :
    Takes (limit.moreParamsNext seen)
      ((xs.map ([ident ·])).flatMap (symbol "," :: ·) ++ keyword "to" :: rest) xs
      (keyword "to" :: rest) := by
  induction xs generalizing seen with
  | nil =>
    refine .peek_bind ?_
    rw [if_neg (by simp [symbol, keyword])]
    exact .pure _
  | cons x xs ih =>
    have hx : x ∉ seen := fun hmem =>
      (List.nodup_append.mp hnodup).2.2 x hmem x List.mem_cons_self rfl
    have hlater : Takes (limit.moreParamsNext (seen ++ [x])) _ xs (keyword "to" :: rest) :=
      ih (by simpa using hnodup)
    rw [← limit_moreParams] at hlater
    simp only [List.map_cons, List.flatMap_cons, List.cons_append, List.nil_append]
    refine .peek_bind ?_
    rw [List.head?_cons, if_pos rfl]
    exact .advance_bind _ (.expect_bind .id rfl (.fresh_bind hx (.bind hlater (.pure _))))

theorem takes_params {xs : List String} (hnodup : xs.Nodup) (rest : List Token) :
    Takes limit.params (separated (xs.map ([ident ·])) ++ keyword "to" :: rest) xs
      (keyword "to" :: rest) := by
  cases xs with
  | nil => exact .peek_bind (.pure _)
  | cons x xs =>
    have hlater : Takes (limit.moreParamsNext [x]) _ xs (keyword "to" :: rest) :=
      takes_moreParams hnodup rest
    rw [← limit_moreParams] at hlater
    exact .peek_bind (.advance_bind _ (.bind hlater (.pure _)))

theorem takes_defs (seen : List String) {ds : List (String × List Token × Expr)}
    (hnodup : (seen ++ ds.map (·.1)).Nodup) (hds : ∀ d ∈ ds, Recognized .exp d.2.1 d.2.2)
    (rest : List Token) :
    Takes (limit.defsNext seen)
      (ds.flatMap (fun d => definition d.1 d.2.1) ++ keyword "in" :: rest)
      (ds.map fun d => (d.1, d.2.2)) (keyword "in" :: rest) := by
  induction ds generalizing seen with
  | nil => exact .peek_bind (.pure _)
  | cons d ds ih =>
    obtain ⟨hd, hds⟩ := List.forall_mem_cons.mp hds
    have hx : d.1 ∉ seen := fun hmem =>
      (List.nodup_append.mp hnodup).2.2 d.1 hmem d.1 List.mem_cons_self rfl
    have hlater : Takes (limit.defsNext (seen ++ [d.1])) _ _ (keyword "in" :: rest) :=
      ih _ (by simpa using hnodup) hds
    rw [← limit_defs] at hlater
    have hexp := hd _ (stops_symbol (x := ";") (by decide) (by decide)
      (ds.flatMap (fun d => definition d.1 d.2.1) ++ keyword "in" :: rest))
    rw [← limit_exp] at hexp
    have htail : Takes (expect .op (some ";") >>= fun _ => limit.defs (seen ++ [d.1]) >>=
        fun later => pure ((d.1, d.2.2) :: later)) _ _ (keyword "in" :: rest) :=
      .expect_bind .op (x := ";") (by decide) (.bind hlater (.pure _))
    simp only [List.flatMap_cons, definition, List.cons_append, List.append_assoc, List.nil_append]
    exact .peek_bind (.advance_bind _ (.fresh_bind hx
      (.expect_bind .op (by decide) (.bind hexp htail))))

/-! ### Blocks -/

theorem recognized_ite {ts us vs : List Token} {t c a : Expr} (ht : Recognized .exp ts t)
    (hc : Recognized .exp us c) (ha : Recognized .exp vs a) :
    Recognized .block (keyword "if" :: ts ++ keyword "then" :: us ++ keyword "else" :: vs)
      (.ite t c a) := by
  intro rest hrest
  have ht := ht _ (stops_keyword "then" (us ++ keyword "else" :: (vs ++ rest)))
  have hc := hc _ (stops_keyword "else" (vs ++ rest))
  have ha := ha rest hrest
  rw [← limit_exp] at ht hc ha
  simp only [List.cons_append, List.append_assoc]
  exact takes_if (.bind ht (.expect_bind .keyword (by decide)
    (.bind hc (.expect_bind .keyword (by decide) (.bind ha (.pure _))))))

theorem recognized_letIn {ds : List (String × List Token × Expr)} {ts : List Token} {e : Expr}
    (hne : ds ≠ []) (hnodup : (ds.map (·.1)).Nodup)
    (hds : ∀ d ∈ ds, Recognized .exp d.2.1 d.2.2) (he : Recognized .exp ts e) :
    Recognized .block
      (keyword "let" :: ds.flatMap (fun d => definition d.1 d.2.1) ++ keyword "in" :: ts)
      (.letIn (ds.map fun d => (d.1, d.2.2)) e) := by
  intro rest hrest
  have hdefs := takes_defs [] hnodup hds (ts ++ rest)
  have he := he rest hrest
  rw [← limit_defs] at hdefs
  rw [← limit_exp] at he
  simp only [List.cons_append, List.append_assoc]
  refine takes_let (.bind hdefs ?_)
  dsimp only
  rw [if_neg (by simpa using hne)]
  exact .expect_bind .keyword (by decide) (.bind he (.pure _))

theorem recognized_map {xs : List String} {ts : List Token} {e : Expr} (hnodup : xs.Nodup)
    (he : Recognized .exp ts e) :
    Recognized .block (keyword "map" :: separated (xs.map ([ident ·])) ++ keyword "to" :: ts)
      (.map xs e) := by
  intro rest hrest
  have he := he rest hrest
  rw [← limit_exp] at he
  simp only [List.cons_append, List.append_assoc]
  exact takes_map (.bind (takes_params hnodup (ts ++ rest))
    (.expect_bind .keyword (by decide) (.bind he (.pure _))))

/-! ### Chains -/

/-- Tokens that cannot continue the chain end its loop. -/
theorem takes_climb_of_stops {p : Nat} {b : Bool} {e : Expr} (h : Stops p b l) :
    Takes (limit.climbNext p e) l e l := by
  unfold Phrases.climbNext
  refine .peek_bind ?_
  split
  · next op hop =>
    obtain ⟨rest, hl⟩ := List.head?_eq_some_iff.mp hop
    split
    · next k hk =>
      rw [if_pos (h.2 op k rest hl hk).1]
      exact .pure e
    · exact .pure e
  · exact .pure e

/-- An operator that binds tightly enough continues the loop after its right operand. -/
theorem takes_climb_of_operator {p q : Nat} {op : String} {us : List Token} {r a : Expr}
    (left : Expr) (hp : precedence? op = some p) (hq : q ≤ p)
    (hr : Takes (limit.operand (p + 1)) (us ++ l) r l)
    (ha : Takes (limit.climbNext q (.binary op left r)) l a l') :
    Takes (limit.climbNext q left) (symbol op :: (us ++ l)) a l' := by
  rw [← limit_climb] at ha
  have hnot : ¬ p < q := by omega
  refine .peek_bind ?_
  simp only [List.head?_cons, symbol, hp, if_neg hnot]
  exact .advance_bind _ (.bind hr ha)

theorem takes_operand_of_bin {p : Nat} {b : Bool} {us : List Token} {r : Expr}
    (hder : Derives (.bin p b) us r) (hr : Recognized (.bin p b) us r) (h : Stops p b l) :
    Takes (limit.operand p) (us ++ l) r l := by
  obtain ⟨t, us, rfl, -, ht⟩ := hder.starts
  refine .sees_bind ?_
  rw [List.cons_append, List.head?_cons, Option.any_some, ht, limit_binary]
  exact hr p (Nat.le_refl p) l r l (h.weaken (Nat.le_succ p)) (takes_climb_of_stops h)

theorem takes_operand_of_block {p : Nat} {us : List Token} {r : Expr}
    (hder : Derives .block us r) (hr : Recognized .block us r) (h : Stops 1 true l) :
    Takes (limit.operand p) (us ++ l) r l := by
  obtain ⟨t, us, rfl, -, ht⟩ := hder.starts
  refine .sees_bind ?_
  rw [List.cons_append, List.head?_cons, Option.any_some, ht, limit_exp]
  exact hr l h

/-- A chain before an operator of its strength, and the operator with its right operand. -/
theorem recognized_operator {p : Nat} {b : Bool} {op : String} {ts us : List Token} {e r : Expr}
    (hp : precedence? op = some p) (hl : Recognized (.bin p false) ts e)
    (hr : ∀ rest, Stops (p + 1) b rest → Takes (limit.operand (p + 1)) (us ++ rest) r rest) :
    Recognized (.bin p b) (ts ++ symbol op :: us) (.binary op e r) := by
  intro q hq rest a l' hrest ha
  have hclimb := takes_climb_of_operator e hp hq (hr rest hrest) ha
  rw [List.append_assoc, List.cons_append]
  -- the operator stops every tighter chain, so the left operand ends before it
  exact hl q hq _ a l' (stops_operator hp _) hclimb

/-! ### Terms -/

theorem recognized_unary {b : Bool} {op : String} {ts : List Token} {e : Expr}
    (hop : (UnaryOp.ofSymbol? op).isSome = true)
    (he : ∀ rest, Stops 7 b rest → Takes limit.unaryOperand (ts ++ rest) e rest) :
    Recognized (.term b) (symbol op :: ts) (.unary op e) := by
  intro rest hrest
  refine .peek_bind ?_
  simp only [List.cons_append, List.head?_cons, symbol, hop, if_true]
  exact .advance_bind _ (.bind (he rest hrest) (.pure _))

theorem takes_unaryOperand_of_term {b : Bool} {ts : List Token} {e : Expr}
    (hder : Derives (.term b) ts e) (he : Recognized (.term b) ts e) (h : Stops 7 b l) :
    Takes limit.unaryOperand (ts ++ l) e l := by
  obtain ⟨t, us, rfl, -, ht⟩ := hder.starts
  refine .sees_bind ?_
  rw [List.cons_append, List.head?_cons, Option.any_some, ht, limit_term]
  exact he l h

theorem takes_unaryOperand_of_block {ts : List Token} {e : Expr} (hder : Derives .block ts e)
    (he : Recognized .block ts e) (h : Stops 1 true l) :
    Takes limit.unaryOperand (ts ++ l) e l := by
  obtain ⟨t, us, rfl, -, ht⟩ := hder.starts
  refine .sees_bind ?_
  rw [List.cons_append, List.head?_cons, Option.any_some, ht, limit_exp]
  exact he l h

theorem recognized_calls {ts : List Token} {e : Expr} (hder : Derives .calls ts e)
    (he : Recognized .calls ts e) : Recognized (.term false) ts e := by
  intro rest hrest
  have hcalls : Takes (limit.callsNext e) rest e rest := by
    refine .peek_bind ?_
    rw [if_neg hrest.1]
    exact .pure e
  have hterm := he rest e rest hcalls
  obtain ⟨t, us, rfl, -, -, ht⟩ := hder.starts
  unfold Phrases.termNext
  refine .peek_bind ?_
  split
  · next op hop =>
    rw [ht op (Option.some.inj hop)]
    exact hterm
  · exact hterm

theorem recognized_app {ts : List Token} {e : Expr} {as : List (List Token × Expr)}
    (he : Recognized .calls ts e) (hder : ∀ a ∈ as, Derives .exp a.1 a.2)
    (has : ∀ a ∈ as, Recognized .exp a.1 a.2) :
    Recognized .calls (ts ++ symbol "(" :: separated (as.map (·.1)) ++ [symbol ")"])
      (.app e (as.map (·.2))) := by
  intro rest a l' ha
  have hargs := takes_args hder has rest
  rw [← limit_args] at hargs
  rw [← limit_calls] at ha
  have hcalls : Takes (limit.callsNext e)
      (symbol "(" :: (separated (as.map (·.1)) ++ symbol ")" :: rest)) a l' := by
    refine .peek_bind ?_
    rw [List.head?_cons, if_pos rfl]
    exact .advance_bind _ (.bind hargs ha)
  have hterm := he _ a l' hcalls
  simpa only [List.append_assoc, List.cons_append, List.nil_append] using hterm

theorem recognized_paren {ts : List Token} {e : Expr} (he : Recognized .exp ts e) :
    Recognized .factor (symbol "(" :: ts ++ [symbol ")"]) e := by
  intro rest
  have he := he _ (stops_symbol (x := ")") (by decide) (by decide) rest)
  rw [← limit_exp] at he
  simp only [List.cons_append, List.append_assoc, List.nil_append]
  exact .bind (.advance _) (.bind he (.expect_bind .op (by decide) (.pure _)))

/-- **Every phrase of the grammar is recognized.** -/
theorem Derives.recognized {c : Phrase} {ts : List Token} {e : Expr} (h : Derives c ts e) :
    Recognized c ts e := by
  induction h with
  | ofBlock _ ih => exact ih
  | ofBin h ih =>
    intro rest hrest
    have hbin := ih 1 (Nat.le_refl 1) rest _ rest hrest.of_block (takes_climb_of_stops hrest)
    obtain ⟨t, us, rfl, -, ht⟩ := h.starts
    exact takes_chain ht hbin
  | ite _ _ _ iht ihc iha => exact recognized_ite iht ihc iha
  | letIn hne hnodup _ _ ihds ihe => exact recognized_letIn hne hnodup ihds ihe
  | map hnodup _ ih => exact recognized_map hnodup ih
  | tighter _ _ _ ih =>
    -- the loop was entered with some `q` of at most `p`, so also of at most `p + 1`
    exact fun q hq rest a l' hrest => ih q (by omega) rest a l' (hrest.weaken (by omega))
  | binary hp _ hr ihl ihr =>
    exact recognized_operator hp ihl fun rest => takes_operand_of_bin hr ihr
  | binaryBlock hp _ hr ihl ihr =>
    exact recognized_operator hp ihl fun rest hrest => takes_operand_of_block hr ihr hrest.of_block
  | ofTerm _ ih => exact fun q _ rest a l' hrest ha => .bind (ih rest hrest) ha
  | unary hop h ih => exact recognized_unary hop fun rest => takes_unaryOperand_of_term h ih
  | unaryBlock hop h ih =>
    exact recognized_unary hop fun rest hrest => takes_unaryOperand_of_block h ih hrest.of_block
  | ofCalls h ih => exact recognized_calls h ih
  | app _ has ihe ihas => exact recognized_app ihe has ihas
  | ofFactor _ ih => exact fun rest a l' ha => .bind (ih rest) ha
  | paren _ ih => exact recognized_paren ih
  | int s => exact fun rest => .bind (.advance _) (.pure _)
  | literal s => exact fun rest => .bind (.advance _) (.pure _)
  | prim hp =>
    refine fun rest => .bind (.advance _) ?_
    simp only [hp]
    exact .pure _
  | var x => exact fun rest => .bind (.advance _) (.pure _)

/-! ### Whole programs -/

theorem takes_program {ts : List Token} {e : Expr} (h : Derives .exp ts e) :
    Takes Parser.program ts e [] := by
  have hexp := h.recognized [] stops_nil
  rw [List.append_nil, ← limit_exp] at hexp
  exact .bind hexp (.peek_bind (.pure e))

/-- On a stream that ends as it should, the parser and the grammar agree. -/
theorem program_iff_derives {s : TokenStream} (hs : s.failure = none) (e : Expr) :
    (∃ s', Gives Parser.program s e s') ↔ Derives .exp s.toList e := by
  constructor
  · rintro ⟨s', h⟩
    exact (derives_of_program h).2
  · intro h
    obtain ⟨s', h, -⟩ := takes_program h s rfl hs
    exact ⟨s', h⟩

/-- A list of tokens spells at most one expression. -/
theorem Derives.unique {ts : List Token} {e e' : Expr} (h : Derives .exp ts e)
    (h' : Derives .exp ts e') : e = e' := by
  obtain ⟨s₁, h₁, -⟩ := takes_program h { pending := ts } rfl rfl
  obtain ⟨s₂, h₂, -⟩ := takes_program h' { pending := ts } rfl rfl
  rw [Gives, h₁] at h₂
  cases h₂
  rfl

/-- A program text spells the expression that its tokens spell, if it can be read to its end. -/
theorem parse_iff_derives (source : String) (e : Expr) :
    Expr.parse source = .ok e ↔
      (lex source).failure = none ∧ Derives .exp (lex source).tokens e := by
  have hparse : Expr.parse source = .ok e ↔
      ∃ s', Gives Parser.program (ofSource source) e s' := by
    unfold Expr.parse Gives
    cases Parser.program (ofSource source) with
    | ok e' s' => simp
    | error err s' => simp
  rw [hparse]
  constructor
  · rintro ⟨s', h⟩
    exact derives_of_program h
  · rintro ⟨hf, h⟩
    exact (program_iff_derives (s := ofSource source) hf e).mpr h

/-- **The parser accepts exactly the grammar and builds its one expression**: over lists of tokens,
and over program texts that can be read to their end. It never runs out of levels. -/
theorem parser_meets_grammar :
    (∀ (ts : List Token) (e : Expr),
      (∃ s', Parser.program { pending := ts } = .ok e s') ↔ Derives .exp ts e) ∧
    (∀ (ts : List Token) (e e' : Expr), Derives .exp ts e → Derives .exp ts e' → e = e') ∧
    (∀ (source : String) (e : Expr), Expr.parse source = .ok e ↔
      (lex source).failure = none ∧ Derives .exp (lex source).tokens e) ∧
    ∀ (s : TokenStream) (n : Nat), s.remaining ≤ n →
      (Phrases.level n).expNext s = Parser.exp s := by
  refine ⟨fun ts e => ?_, fun ts e e' => Derives.unique, parse_iff_derives, fun s n hn => ?_⟩
  · exact program_iff_derives (s := { pending := ts }) rfl e
  · have hagree := Phrases.agreeBelow_level hn (Nat.le_refl s.remaining)
    exact (hagree.expNext (Nat.lt_succ_self _)).1

end CallBy
