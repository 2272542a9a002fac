import CallBy.Proofs.Lookahead
import CallBy.Proofs.Recognizes
import CallBy.Proofs.Spelling

/-!
What the parsers have taken when they ask for more tokens can be completed to a phrase.

A parser asks for more (`Wants`) where the tokens end. Each of its calls has begun a phrase that it
can still finish: with an operand, with the words and brackets that are missing, or with a name that
the construct has not bound yet.

* `Completes D ts`: the tokens `ts` can be completed to one of the lists `D`;
* `Completable P`: the parsers of a level ask for more only on tokens that can be completed, and
  `completable_level`: so it is at every level;
* `completes_of_program`: the parser of programs asks for more on beginnings of programs only.
-/

namespace CallBy

open TokenStream
open Phrases (keyword symbol opensBlock)

/-! ### Completions -/

/-- The token occurs in some program text. -/
def Token.Readable (t : Token) : Prop := ∃ source, t ∈ (lex source).tokens

/-- The constant that completions use for operands. -/
def zero : Token := ⟨.int, "0"⟩

/-- The tokens that completions use, names apart. -/
def completers : List Token :=
  [zero, keyword "then", keyword "else", keyword "in", keyword "to", symbol ":=", symbol ";",
    symbol ")"]

theorem readable_of_completers {t : Token} (h : t ∈ completers) : t.Readable := by
  have hread : ∀ t ∈ completers, t ∈ (lex t.text).tokens := by decide +kernel
  exact ⟨t.text, hread t h⟩

theorem readable_ident {x : String} (h : Expr.IsName x) : (ident x).Readable := by
  refine ⟨x, ?_⟩
  rw [(spells_word h.1).lex_eq, h.2]
  exact List.mem_singleton_self _

/-- A long word is a name. -/
theorem isName_of_length {x : String} (hx : Expr.IsWord x) (hlen : 9 < x.length) :
    Expr.IsName x := by
  have hshort : ∀ ws ∈ [keywordNames, literalNames, primNames], ∀ w ∈ ws, w.length ≤ 9 := by
    decide
  have hnot : ∀ ws ∈ [keywordNames, literalNames, primNames], x ∉ ws := fun ws hws hmem => by
    have := hshort ws hws x hmem
    omega
  have hid : IsNameKind .id x :=
    .id (hnot _ (by simp)) (hnot _ (by simp)) (hnot _ (by simp))
  exact ⟨hx, (isNameKind_iff.mp hid).symm⟩

/-- There is always another name. -/
theorem exists_fresh_name (seen : List String) : ∃ x, Expr.IsName x ∧ x ∉ seen := by
  obtain ⟨n, hn⟩ : ∃ n, ∀ y ∈ seen, y.length ≤ n := by
    induction seen with
    | nil => exact ⟨0, nofun⟩
    | cons y seen ih =>
      obtain ⟨n, hn⟩ := ih
      refine ⟨max y.length n, List.forall_mem_cons.mpr ⟨Nat.le_max_left _ _, fun z hz => ?_⟩⟩
      exact Nat.le_trans (hn z hz) (Nat.le_max_right _ _)
  have hlen : (String.ofList (List.replicate (n + 10) 'x')).length = n + 10 := by simp
  refine ⟨String.ofList (List.replicate (n + 10) 'x'), isName_of_length ?_ (by omega), fun h => ?_⟩
  · refine ⟨'x', List.replicate (n + 9) 'x', by simp [List.replicate_succ], by decide, ?_⟩
    intro c hc
    rw [List.eq_of_mem_replicate hc]
    decide
  · have := hn _ h
    omega

/-- The tokens can be completed, by tokens that occur in texts, to one of these lists. -/
def Completes (D : List Token → Prop) (ts : List Token) : Prop :=
  ∃ more, (∀ t ∈ more, t.Readable) ∧ D (ts ++ more)

namespace Completes

variable {D D' : List Token → Prop} {s s₁ : TokenStream} {ts us : List Token}

theorem of_nil (hs : s.toList = []) (more : List Token) (hmore : ∀ t ∈ more, t ∈ completers)
    (h : D more) : Completes D s.toList := by
  rw [hs]
  exact ⟨more, fun t ht => readable_of_completers (hmore t ht), h⟩

/-- The tokens taken so far stand in front of what is completed. -/
theorem after (hr : Reads s ts s₁) (h : Completes (fun us => D (ts ++ us)) s₁.toList) :
    Completes D s.toList := by
  obtain ⟨more, hmore, h⟩ := h
  rw [hr.1]
  exact ⟨more, hmore, by rw [List.append_assoc]; exact h⟩

/-- A part that is completed, and what then completes the whole. -/
theorem inside (h : Completes D us) (tail : List Token) (htail : ∀ t ∈ tail, t ∈ completers)
    (hD : ∀ vs, D vs → D' (vs ++ tail)) : Completes D' us := by
  obtain ⟨more, hmore, h⟩ := h
  refine ⟨more ++ tail, fun t ht => ?_, by rw [← List.append_assoc]; exact hD _ h⟩
  rcases List.mem_append.mp ht with ht | ht
  · exact hmore t ht
  · exact readable_of_completers (htail t ht)

theorem mono (h : Completes D us) (hD : ∀ vs, D vs → D' vs) : Completes D' us :=
  h.inside [] (by decide) fun vs hvs => by rw [List.append_nil]; exact hD vs hvs

end Completes

/-! ### Parsers that ask for more -/

/-- The parser asks for a token after the last one of the stream. -/
def Wants {α : Type} (x : Parser α) (s : TokenStream) : Prop :=
  ∃ e s', x s = .error (.lexical e) s'

namespace Wants

variable {α β : Type} {x : Parser α} {f : α → Parser β} {s : TokenStream}

theorem not_pure {a : α} : ¬ Wants (pure a) s := nofun

theorem not_throw {err : ParseError} (h : ∀ e, err ≠ .lexical e) :
    ¬ Wants (throw err : Parser α) s := by
  rintro ⟨e, s', hx⟩
  cases hx
  exact h e rfl

/-- A parser of two parts asks for more in the first part, or in the second. -/
theorem of_bind (h : Wants (x >>= f) s) :
    Wants x s ∨ ∃ a s₁, Gives x s a s₁ ∧ Wants (f a) s₁ := by
  obtain ⟨e, s', h⟩ := h
  simp only [Bind.bind, EStateM.bind] at h
  split at h
  · next a s₁ hx => exact .inr ⟨a, s₁, hx, e, s', h⟩
  · next hx =>
    cases h
    exact .inl ⟨e, s', hx⟩

theorem of_advance (h : Wants advance s) : s.toList = [] := by
  obtain ⟨e, s', h⟩ := h
  obtain ⟨buffer, pending, failure⟩ := s
  rcases buffer with _ | t
  · rcases pending with _ | ⟨t, ts⟩
    · rfl
    · cases h
  · cases h

theorem of_peek (h : Wants peek s) : s.toList = [] := by
  obtain ⟨e, s', h⟩ := h
  obtain ⟨buffer, pending, failure⟩ := s
  rcases buffer with _ | t
  · rcases pending with _ | ⟨t, ts⟩
    · rfl
    · cases h
  · cases h

theorem of_expect {k : Kind} {text? : Option String} (h : Wants (expect k text?) s) :
    s.toList = [] := by
  rcases h.of_bind with h | ⟨t, s₁, -, h⟩
  · exact h.of_advance
  · exfalso
    cases t with
    | none => exact absurd h (not_throw nofun)
    | some t =>
      dsimp only at h
      split at h
      · exact absurd h not_pure
      · exact absurd h (not_throw nofun)

theorem not_fresh {construct x : String} {seen : List String} :
    ¬ Wants (Phrases.fresh construct x seen) s := by
  unfold Phrases.fresh
  split
  · exact not_throw nofun
  · exact not_pure

theorem of_peek_bind {f : Option Token → Parser β} (h : Wants (peek >>= f) s) :
    s.toList = [] ∨ ∃ s₁, Reads s [] s₁ ∧ Wants (f s₁.toList.head?) s₁ := by
  rcases h.of_bind with h | ⟨t, s₁, h₁, h⟩
  · exact .inl h.of_peek
  · obtain ⟨hr, rfl⟩ := reads_of_peek h₁
    exact .inr ⟨s₁, hr, h⟩

theorem of_sees_bind {test : Token → Bool} {f : Bool → Parser β} (h : Wants (sees test >>= f) s) :
    s.toList = [] ∨ ∃ s₁, Reads s [] s₁ ∧ Wants (f (s₁.toList.head?.any test)) s₁ := by
  unfold sees at h
  simp only [bind_assoc, pure_bind] at h
  exact h.of_peek_bind

theorem of_advance_bind {x : Parser β} {t : Token} (h : Wants (advance >>= fun _ => x) s)
    (ht : s.toList.head? = some t) : ∃ s₁, Reads s [t] s₁ ∧ Wants x s₁ := by
  obtain ⟨s₂, hadv⟩ := advance_of_head? ht
  rcases h.of_bind with h | ⟨o, s₁, h₁, h⟩
  · obtain ⟨e, s', h⟩ := h
    cases hadv.symm.trans h
  · cases hadv.symm.trans h₁
    exact ⟨_, reads_of_advance hadv, h⟩

theorem of_expect_bind {k : Kind} {x : String} {f : String → Parser β}
    (h : Wants (expect k (some x) >>= f) s) :
    s.toList = [] ∨ ∃ a s₁, Reads s [⟨k, x⟩] s₁ ∧ Wants (f a) s₁ := by
  rcases h.of_bind with h | ⟨a, s₁, h₁, hrest⟩
  · exact .inl h.of_expect
  · obtain ⟨⟨k', y⟩, hadv, ht, -⟩ := demand_eq_ok h₁
    simp only [Token.fits, Option.all_some, Bool.and_eq_true, beq_iff_eq] at ht
    obtain ⟨rfl, rfl⟩ := ht
    exact .inr ⟨a, s₁, reads_of_advance hadv, hrest⟩

end Wants

/-! ### The parsers of a level -/

/-- The tokens are a phrase of this kind. -/
def Phrase.Spelled (c : Phrase) (ts : List Token) : Prop := ∃ e, Derives c ts e

theorem derives_zero_factor : Derives .factor [zero] (.int 0) := .int "0"

theorem derives_zero_term : Derives (.term false) [zero] (.int 0) :=
  derives_zero_factor.ofFactor.ofCalls

theorem derives_zero_bin {p : Nat} (hp : 1 ≤ p) (hp6 : p ≤ 6) :
    Derives (.bin p false) [zero] (.int 0) :=
  derives_zero_term.ofTerm.loosen hp hp6 (Nat.le_refl 6)

theorem derives_zero : Derives .exp [zero] (.int 0) :=
  .ofBin (derives_zero_bin (Nat.le_refl 1) (by omega))

/-- The parsers of the level ask for more only on tokens that can be completed. -/
structure Completable (P : Phrases) : Prop where
  exp : ∀ {s}, Wants P.exp s → Completes Phrase.exp.Spelled s.toList
  term : ∀ {s}, Wants P.term s → Completes (fun ts => ∃ b, (Phrase.term b).Spelled ts) s.toList
  binary : ∀ {p s}, 1 ≤ p → p ≤ 6 → Wants (P.binary p) s →
    Completes (fun ts => ∃ b, (Phrase.bin p b).Spelled ts) s.toList
  climb : ∀ {p q b us left s}, 1 ≤ p → p ≤ q → q ≤ 6 → Derives (.bin q b) us left →
    Quiet (q + 1) b s.toList → Wants (P.climb p left) s →
    Completes (fun ts => ∃ b, (Phrase.bin p b).Spelled (us ++ ts)) s.toList
  calls : ∀ {us f s}, Derives .calls us f → Wants (P.calls f) s →
    Completes (fun ts => Phrase.calls.Spelled (us ++ ts)) s.toList
  args : ∀ {s}, Wants P.args s → Completes (fun ts => ∃ as : List (List Token × Expr),
    ts = separated (as.map (·.1)) ++ [symbol ")"] ∧ ∀ a ∈ as, Derives .exp a.1 a.2) s.toList
  moreArgs : ∀ {s}, Wants P.moreArgs s → Completes (fun ts => ∃ as : List (List Token × Expr),
    ts = (as.map (·.1)).flatMap (symbol "," :: ·) ∧ ∀ a ∈ as, Derives .exp a.1 a.2) s.toList
  moreParams : ∀ {seen s}, seen.Nodup → Wants (P.moreParams seen) s →
    Completes (fun ts => ∃ xs : List String, ts = (xs.map ([ident ·])).flatMap (symbol "," :: ·) ∧
      (seen ++ xs).Nodup) s.toList
  defs : ∀ {seen s}, seen.Nodup → Wants (P.defs seen) s →
    Completes (fun ts => ∃ ds : List (String × List Token × Expr), ds ≠ [] ∧
      ts = ds.flatMap (fun d => definition d.1 d.2.1) ∧ (seen ++ ds.map (·.1)).Nodup ∧
        ∀ d ∈ ds, Derives .exp d.2.1 d.2.2) s.toList

namespace Completable

variable {P : Phrases} (w : Completable P) (h : Sound P) {s : TokenStream}

include w h

/-- An expression and a token after it: the expression can be completed, or both are there. -/
theorem exp_expect {β : Type} {k : Kind} {x : String} {f : Expr → String → Parser β}
    (hw : Wants (P.exp >>= fun e => expect k (some x) >>= f e) s) :
    Completes Phrase.exp.Spelled s.toList ∨ ∃ ts e a s₁, Derives .exp ts e ∧
      Reads s (ts ++ [⟨k, x⟩]) s₁ ∧ Wants (f e a) s₁ := by
  rcases hw.of_bind with hw | ⟨e, s₁, h₁, hw⟩
  · exact .inl (w.exp hw)
  · obtain ⟨ts, hts, he, -⟩ := h.exp h₁
    rcases hw.of_expect_bind with hnil | ⟨a, s₂, hr, hw⟩
    · exact .inl (.after hts (.of_nil hnil [] (by decide) ⟨e, by rwa [List.append_nil]⟩))
    · exact .inr ⟨ts, e, a, s₂, he, hts.trans hr, hw⟩

omit h in
/-- An expression at the end of a phrase. -/
theorem exp_last {f : Expr → Expr} (hw : Wants (P.exp >>= fun e => pure (f e)) s) :
    Completes Phrase.exp.Spelled s.toList := by
  rcases hw.of_bind with hw | ⟨e, s₁, -, hw⟩
  · exact w.exp hw
  · exact absurd hw Wants.not_pure

omit h in
/-- An expression that begins as a block is completed to one. -/
theorem block (hb : s.toList.head?.any opensBlock = true) (hw : Wants P.exp s) :
    Completes Phrase.block.Spelled s.toList := by
  obtain ⟨more, hmore, e, he⟩ := w.exp hw
  have hopens : (s.toList ++ more ++ []).head?.any opensBlock = true := by
    cases hl : s.toList with
    | nil =>
      rw [hl] at hb
      cases hb
    | cons t ts =>
      rw [hl] at hb
      exact hb
  exact ⟨more, hmore, e, he.block_of_opens hopens⟩

/-! ### Blocks -/

theorem conditional (hw : Wants P.conditional s) :
    Completes (fun ts => Phrase.block.Spelled (keyword "if" :: ts)) s.toList := by
  rcases w.exp_expect h hw with htest | ⟨ts, t, _, s₁, ht, hr₁, hw⟩
  · refine htest.inside [keyword "then", zero, keyword "else", zero] (by decide) ?_
    rintro vs ⟨t, ht⟩
    exact ⟨_, by simpa using ht.ite derives_zero derives_zero⟩
  refine .after hr₁ ?_
  rcases w.exp_expect h hw with hconseq | ⟨us, c, _, s₂, hc, hr₂, hw⟩
  · refine hconseq.inside [keyword "else", zero] (by decide) ?_
    rintro vs ⟨c, hc⟩
    exact ⟨_, by simpa [keyword] using ht.ite hc derives_zero⟩
  refine .after hr₂ ((w.exp_last hw).mono ?_)
  rintro vs ⟨a, ha⟩
  exact ⟨_, by simpa [keyword] using ht.ite hc ha⟩

theorem definitions (hw : Wants P.definitions s) :
    Completes (fun ts => Phrase.block.Spelled (keyword "let" :: ts)) s.toList := by
  rcases hw.of_bind with hw | ⟨eqs, s₁, h₁, hw⟩
  · refine (w.defs List.nodup_nil hw).inside [keyword "in", zero] (by decide) ?_
    rintro vs ⟨ds, hne, rfl, hnodup, hds⟩
    exact ⟨_, .letIn hne hnodup hds derives_zero⟩
  obtain ⟨ds, hr₁, rfl, hnodup, hds⟩ := h.defs h₁ List.nodup_nil
  refine .after hr₁ ?_
  dsimp only at hw
  split at hw
  · rcases hw.of_bind with hw | ⟨_, _, ⟨⟩, _⟩
    exact absurd hw (Wants.not_throw nofun)
  next hne =>
  have hne : ds ≠ [] := by
    rintro rfl
    exact hne rfl
  rcases hw.of_expect_bind with hnil | ⟨_, s₂, hr₂, hw⟩
  · refine .of_nil hnil [keyword "in", zero] (by decide) ?_
    exact ⟨_, .letIn hne hnodup hds derives_zero⟩
  refine .after hr₂ ((w.exp_last hw).mono ?_)
  rintro vs ⟨b, hb⟩
  exact ⟨_, .letIn hne hnodup hds hb⟩

omit h in
theorem params (hw : Wants P.params s) :
    Completes (fun ts => ∃ xs : List String, ts = separated (xs.map ([ident ·])) ∧ xs.Nodup)
      s.toList := by
  rcases hw.of_peek_bind with hnil | ⟨s₁, hr₁, hw⟩
  · exact .of_nil hnil [] (by decide) ⟨[], rfl, List.nodup_nil⟩
  refine .after hr₁ ?_
  split at hw
  · next x hx =>
    obtain ⟨s₂, hr₂, hw⟩ := hw.of_advance_bind hx
    refine .after hr₂ ?_
    rcases hw.of_bind with hw | ⟨xs, s₃, -, hw⟩
    · refine (w.moreParams (by simp) hw).mono ?_
      rintro vs ⟨xs, rfl, hnodup⟩
      exact ⟨x :: xs, rfl, hnodup⟩
    · exact absurd hw Wants.not_pure
  · exact absurd hw Wants.not_pure

theorem function (hw : Wants P.function s) :
    Completes (fun ts => Phrase.block.Spelled (keyword "map" :: ts)) s.toList := by
  rcases hw.of_bind with hw | ⟨xs, s₁, h₁, hw⟩
  · refine (w.params hw).inside [keyword "to", zero] (by decide) ?_
    rintro vs ⟨xs, rfl, hnodup⟩
    exact ⟨_, .map hnodup derives_zero⟩
  obtain ⟨hr₁, hnodup⟩ := h.params h₁
  refine .after hr₁ ?_
  rcases hw.of_expect_bind with hnil | ⟨_, s₂, hr₂, hw⟩
  · exact .of_nil hnil [keyword "to", zero] (by decide) ⟨_, .map hnodup derives_zero⟩
  refine .after hr₂ ((w.exp_last hw).mono ?_)
  rintro vs ⟨b, hb⟩
  exact ⟨_, .map hnodup hb⟩

/-! ### Terms -/

theorem factor (hw : Wants P.factor s) : Completes Phrase.factor.Spelled s.toList := by
  rcases hw.of_bind with hw | ⟨o, s₁, h₁, hw⟩
  · exact .of_nil hw.of_advance [zero] (by decide) ⟨_, derives_zero_factor⟩
  refine .after (reads_of_advance h₁) ?_
  rcases o with _ | ⟨k, x⟩
  · exact absurd hw (Wants.not_throw nofun)
  cases k with
  | op =>
    dsimp only at hw
    split at hw
    · next hx =>
      subst hx
      rcases w.exp_expect h hw with hexp | ⟨_, _, _, _, _, _, hw⟩
      · refine hexp.inside [symbol ")"] (by decide) ?_
        rintro vs ⟨e, he⟩
        exact ⟨e, he.paren⟩
      · exact absurd hw Wants.not_pure
    · exact absurd hw (Wants.not_throw nofun)
  | int => exact absurd hw Wants.not_pure
  | keyword => exact absurd hw (Wants.not_throw nofun)
  | literal => exact absurd hw Wants.not_pure
  | prim =>
    dsimp only at hw
    split at hw
    · exact absurd hw Wants.not_pure
    · exact absurd hw (Wants.not_throw nofun)
  | id => exact absurd hw Wants.not_pure

theorem callsNext {us : List Token} {f : Expr} (hf : Derives .calls us f)
    (hw : Wants (P.callsNext f) s) :
    Completes (fun ts => Phrase.calls.Spelled (us ++ ts)) s.toList := by
  rcases hw.of_peek_bind with hnil | ⟨s₁, hr₁, hw⟩
  · exact .of_nil hnil [] (by decide) ⟨f, by rwa [List.append_nil]⟩
  refine .after hr₁ ?_
  split at hw
  · next ht =>
    obtain ⟨s₂, hr₂, hw⟩ := hw.of_advance_bind ht
    refine .after hr₂ ?_
    rcases hw.of_bind with hw | ⟨es, s₃, h₃, hw⟩
    · refine (w.args hw).mono ?_
      rintro vs ⟨as, rfl, has⟩
      exact ⟨_, by simpa using hf.app has⟩
    · obtain ⟨as, hr₃, rfl, has⟩ := h.args h₃
      refine .after hr₃ ((w.calls (hf.app has) hw).mono ?_)
      rintro vs ⟨e, he⟩
      exact ⟨e, by simpa using he⟩
  · exact absurd hw Wants.not_pure

omit h in
theorem unaryOperand {op : String} (hop : (UnaryOp.ofSymbol? op).isSome = true)
    (hw : Wants P.unaryOperand s) :
    Completes (fun ts => ∃ b, (Phrase.term b).Spelled (symbol op :: ts)) s.toList := by
  rcases hw.of_sees_bind with hnil | ⟨s₁, hr₁, hw⟩
  · exact .of_nil hnil [zero] (by decide) ⟨false, _, .unary hop derives_zero_term⟩
  refine .after hr₁ ?_
  split at hw
  · next hb =>
    refine (w.block hb hw).mono ?_
    rintro vs ⟨e, he⟩
    exact ⟨true, _, .unaryBlock hop he⟩
  · refine (w.term hw).mono ?_
    rintro vs ⟨b, e, he⟩
    exact ⟨b, _, .unary hop he⟩

theorem termNext (hw : Wants P.termNext s) :
    Completes (fun ts => ∃ b, (Phrase.term b).Spelled ts) s.toList := by
  rcases hw.of_peek_bind with hnil | ⟨s₁, hr₁, hw⟩
  · exact .of_nil hnil [zero] (by decide) ⟨false, _, derives_zero_term⟩
  refine .after hr₁ ?_
  have calls : Wants (P.factor >>= P.callsNext) s₁ →
      Completes (fun ts => ∃ b, (Phrase.term b).Spelled ts) s₁.toList := by
    intro hw
    rcases hw.of_bind with hw | ⟨f, s₂, h₂, hw⟩
    · refine (w.factor h hw).mono ?_
      rintro vs ⟨e, he⟩
      exact ⟨false, e, he.ofFactor.ofCalls⟩
    · obtain ⟨us, hus, hf⟩ := h.factor h₂
      refine .after hus ((w.callsNext h hf.ofFactor hw).mono ?_)
      rintro vs ⟨e, he⟩
      exact ⟨false, e, he.ofCalls⟩
  split at hw
  · next op hop =>
    split at hw
    · next hun =>
      obtain ⟨s₂, hr₂, hw⟩ := hw.of_advance_bind hop
      refine .after hr₂ ?_
      rcases hw.of_bind with hw | ⟨a, s₃, -, hw⟩
      · exact w.unaryOperand hun hw
      · exact absurd hw Wants.not_pure
    · exact calls hw
  · exact calls hw

/-! ### Chains -/

omit h in
theorem operand {op : String} {p : Nat} {us : List Token} {l : Expr} (hp : precedence? op = some p)
    (hl : Derives (.bin p false) us l) (hw : Wants (P.operand (p + 1)) s) :
    Completes (fun ts => ∃ b, (Phrase.bin p b).Spelled (us ++ symbol op :: ts)) s.toList := by
  have hle := (precedence?_bounds hp).2
  rcases hw.of_sees_bind with hnil | ⟨s₁, hr₁, hw⟩
  · refine .of_nil hnil [zero] (by decide) ?_
    exact ⟨false, _, .binary hp hl (derives_zero_bin (by omega) (by omega))⟩
  refine .after hr₁ ?_
  split at hw
  · next hb =>
    refine (w.block hb hw).mono ?_
    rintro vs ⟨e, he⟩
    exact ⟨true, _, .binaryBlock hp hl he⟩
  · refine (w.binary (by omega) (by omega) hw).mono ?_
    rintro vs ⟨b, e, he⟩
    exact ⟨b, _, .binary hp hl he⟩

theorem climbNext {p q : Nat} {b : Bool} {us : List Token} {left : Expr} (hp : 1 ≤ p)
    (hpq : p ≤ q) (hq6 : q ≤ 6) (hl : Derives (.bin q b) us left) (hq : Quiet (q + 1) b s.toList)
    (hw : Wants (P.climbNext p left) s) :
    Completes (fun ts => ∃ b, (Phrase.bin p b).Spelled (us ++ ts)) s.toList := by
  rcases hw.of_peek_bind with hnil | ⟨s₁, hr₁, hw⟩
  · refine .of_nil hnil [] (by decide) ⟨b, left, ?_⟩
    rw [List.append_nil]
    exact hl.loosen hp hpq hq6
  rw [hr₁.1, List.nil_append] at hq
  refine .after hr₁ ?_
  split at hw
  · next op hop =>
    obtain ⟨rest, hrest⟩ := List.head?_eq_some_iff.mp hop
    split at hw
    · next k hk =>
      obtain ⟨hkq, rfl⟩ := hq op k rest hrest hk
      split at hw
      · exact absurd hw Wants.not_pure
      · next hge =>
        obtain ⟨s₂, hr₂, hw⟩ := hw.of_advance_bind hop
        have hk1 := (precedence?_bounds hk).1
        have hl := hl.loosen hk1 (by omega) hq6
        refine .after hr₂ ?_
        rcases hw.of_bind with hw | ⟨r, s₃, h₃, hw⟩
        · refine (w.operand hk hl hw).mono ?_
          rintro vs ⟨b, e, he⟩
          exact ⟨b, e, he.loosen hp (by omega) (by omega)⟩
        · obtain ⟨vs, b, hvs, hbin, hq'⟩ := h.operand hk hl h₃
          refine .after hvs ((w.climb hp (by omega) (by omega) hbin hq' hw).mono ?_)
          rintro ts ⟨b, e, he⟩
          exact ⟨b, e, by simpa [symbol] using he⟩
    · exact absurd hw Wants.not_pure
  · exact absurd hw Wants.not_pure

theorem binaryNext {p : Nat} (hp : 1 ≤ p) (hp6 : p ≤ 6) (hw : Wants (P.binaryNext p) s) :
    Completes (fun ts => ∃ b, (Phrase.bin p b).Spelled ts) s.toList := by
  rcases hw.of_bind with hw | ⟨t, s₁, h₁, hw⟩
  · refine (w.termNext h hw).mono ?_
    rintro vs ⟨b, e, he⟩
    exact ⟨b, e, he.ofTerm.loosen hp hp6 (Nat.le_refl 6)⟩
  · obtain ⟨us, b, hus, ht, hq⟩ := h.termNext h₁
    exact .after hus (w.climbNext h hp hp6 (Nat.le_refl 6) ht.ofTerm hq hw)

theorem expNext (hw : Wants P.expNext s) : Completes Phrase.exp.Spelled s.toList := by
  rcases hw.of_peek_bind with hnil | ⟨s₁, hr₁, hw⟩
  · exact .of_nil hnil [zero] (by decide) ⟨_, derives_zero⟩
  refine .after hr₁ ?_
  have block : ∀ {x : Parser Expr} {k : String}, s₁.toList.head? = some (keyword k) →
      (∀ {s}, Wants x s →
        Completes (fun ts => Phrase.block.Spelled (keyword k :: ts)) s.toList) →
      Wants (advance >>= fun _ => x) s₁ → Completes Phrase.exp.Spelled s₁.toList := by
    intro x k hk hx hw
    obtain ⟨s₂, hr₂, hw⟩ := hw.of_advance_bind hk
    refine .after hr₂ ((hx hw).mono ?_)
    rintro vs ⟨e, he⟩
    exact ⟨e, he.ofBlock⟩
  split at hw
  · next hk => exact block hk (w.conditional h) hw
  · split at hw
    · next hk => exact block hk (w.definitions h) hw
    · split at hw
      · next hk => exact block hk (w.function h) hw
      · refine (w.binaryNext h (Nat.le_refl 1) (by omega) hw).mono ?_
        rintro vs ⟨b, e, he⟩
        exact ⟨e, he.ofBin⟩

/-! ### Lists -/

theorem moreArgsNext (hw : Wants P.moreArgsNext s) :
    Completes (fun ts => ∃ as : List (List Token × Expr),
      ts = (as.map (·.1)).flatMap (symbol "," :: ·) ∧ ∀ a ∈ as, Derives .exp a.1 a.2) s.toList := by
  rcases hw.of_peek_bind with hnil | ⟨s₁, hr₁, hw⟩
  · exact .of_nil hnil [] (by decide) ⟨[], rfl, nofun⟩
  refine .after hr₁ ?_
  split at hw
  · next ht =>
    obtain ⟨s₂, hr₂, hw⟩ := hw.of_advance_bind ht
    refine .after hr₂ ?_
    rcases hw.of_bind with hw | ⟨e, s₃, h₃, hw⟩
    · refine (w.exp hw).mono ?_
      rintro vs ⟨e, he⟩
      exact ⟨[(vs, e)], by simp, by simpa using he⟩
    obtain ⟨ts, hts, he, -⟩ := h.exp h₃
    refine .after hts ?_
    rcases hw.of_bind with hw | ⟨es, s₄, -, hw⟩
    · refine (w.moreArgs hw).mono ?_
      rintro vs ⟨as, rfl, has⟩
      exact ⟨(ts, e) :: as, rfl, List.forall_mem_cons.mpr ⟨he, has⟩⟩
    · exact absurd hw Wants.not_pure
  · exact absurd hw Wants.not_pure

theorem argsNext (hw : Wants P.argsNext s) :
    Completes (fun ts => ∃ as : List (List Token × Expr),
      ts = separated (as.map (·.1)) ++ [symbol ")"] ∧ ∀ a ∈ as, Derives .exp a.1 a.2) s.toList := by
  rcases hw.of_peek_bind with hnil | ⟨s₁, hr₁, hw⟩
  · exact .of_nil hnil [symbol ")"] (by decide) ⟨[], rfl, nofun⟩
  refine .after hr₁ ?_
  split at hw
  · next ht =>
    obtain ⟨s₂, -, hw⟩ := hw.of_advance_bind ht
    exact absurd hw Wants.not_pure
  · rcases hw.of_bind with hw | ⟨e, s₂, h₂, hw⟩
    · refine (w.expNext h hw).inside [symbol ")"] (by decide) ?_
      rintro vs ⟨e, he⟩
      exact ⟨[(vs, e)], by simp [separated], by simpa using he⟩
    obtain ⟨ts, hts, he, -⟩ := h.expNext h₂
    refine .after hts ?_
    rcases hw.of_bind with hw | ⟨es, s₃, h₃, hw⟩
    · refine (w.moreArgsNext h hw).inside [symbol ")"] (by decide) ?_
      rintro vs ⟨as, rfl, has⟩
      exact ⟨(ts, e) :: as, by simp [separated], List.forall_mem_cons.mpr ⟨he, has⟩⟩
    obtain ⟨as, hr₃, -, has⟩ := h.moreArgsNext h₃
    refine .after hr₃ ?_
    rcases hw.of_expect_bind with hnil | ⟨_, s₄, -, hw⟩
    · refine .of_nil hnil [symbol ")"] (by decide) ⟨(ts, e) :: as, by simp [separated], ?_⟩
      exact List.forall_mem_cons.mpr ⟨he, has⟩
    · exact absurd hw Wants.not_pure

omit h in
theorem moreParamsNext {seen : List String} (hseen : seen.Nodup)
    (hw : Wants (P.moreParamsNext seen) s) :
    Completes (fun ts => ∃ xs : List String, ts = (xs.map ([ident ·])).flatMap (symbol "," :: ·) ∧
      (seen ++ xs).Nodup) s.toList := by
  rcases hw.of_peek_bind with hnil | ⟨s₁, hr₁, hw⟩
  · exact .of_nil hnil [] (by decide) ⟨[], rfl, by rwa [List.append_nil]⟩
  refine .after hr₁ ?_
  split at hw
  · next ht =>
    obtain ⟨s₂, hr₂, hw⟩ := hw.of_advance_bind ht
    refine .after hr₂ ?_
    rcases hw.of_bind with hw | ⟨x, s₃, h₃, hw⟩
    · -- a name is missing, and there is one that has not been bound
      obtain ⟨x, hx, hfresh⟩ := exists_fresh_name seen
      rw [hw.of_expect]
      refine ⟨[ident x], by simpa using readable_ident hx, [x], rfl, nodup_concat hseen hfresh⟩
    have hr₃ := reads_of_expect_any h₃
    refine .after hr₃ ?_
    rcases hw.of_bind with hw | ⟨_, s₄, h₄, hlater⟩
    · exact absurd hw Wants.not_fresh
    obtain ⟨hfresh, rfl⟩ := fresh_eq_ok h₄
    rcases hlater.of_bind with hw | ⟨xs, s₅, -, hw⟩
    · refine (w.moreParams (nodup_concat hseen hfresh) hw).mono ?_
      rintro vs ⟨xs, rfl, hnodup⟩
      exact ⟨x :: xs, rfl, by simpa using hnodup⟩
    · exact absurd hw Wants.not_pure
  · exact absurd hw Wants.not_pure

theorem defsNext {seen : List String} (hseen : seen.Nodup) (hw : Wants (P.defsNext seen) s) :
    Completes (fun ts => ∃ ds : List (String × List Token × Expr), ds ≠ [] ∧
      ts = ds.flatMap (fun d => definition d.1 d.2.1) ∧ (seen ++ ds.map (·.1)).Nodup ∧
        ∀ d ∈ ds, Derives .exp d.2.1 d.2.2) s.toList := by
  rcases hw.of_peek_bind with hnil | ⟨s₁, hr₁, hw⟩
  · obtain ⟨x, hx, hfresh⟩ := exists_fresh_name seen
    rw [hnil]
    refine ⟨definition x [zero], ?_, [(x, [zero], .int 0)], List.cons_ne_nil _ _, by simp,
      nodup_concat hseen hfresh, by simpa using derives_zero⟩
    refine List.forall_mem_cons.mpr ⟨readable_ident hx, fun t ht => readable_of_completers ?_⟩
    revert t
    decide
  refine .after hr₁ ?_
  split at hw
  · next x hx =>
    obtain ⟨s₂, hr₂, hw⟩ := hw.of_advance_bind hx
    refine .after hr₂ ?_
    rcases hw.of_bind with hw | ⟨_, s₃, h₃, hdef⟩
    · exact absurd hw Wants.not_fresh
    obtain ⟨hfresh, rfl⟩ := fresh_eq_ok h₃
    have hnodup := nodup_concat hseen hfresh
    rcases hdef.of_expect_bind with hnil | ⟨_, s₄, hr₄, hw⟩
    · refine .of_nil hnil [symbol ":=", zero, symbol ";"] (by decide) ?_
      exact ⟨[(x, [zero], .int 0)], List.cons_ne_nil _ _, rfl, hnodup, by simpa using derives_zero⟩
    refine .after hr₄ ?_
    rcases w.exp_expect h hw with hexp | ⟨ts, e, _, s₅, he, hr₅, hw⟩
    · refine hexp.inside [symbol ";"] (by decide) ?_
      rintro vs ⟨e, he⟩
      exact ⟨[(x, vs, e)], List.cons_ne_nil _ _, by simp [definition, ident, symbol], hnodup,
        by simpa using he⟩
    refine .after hr₅ ?_
    rcases hw.of_bind with hw | ⟨eqs, s₆, -, hw⟩
    · refine (w.defs hnodup hw).mono ?_
      rintro vs ⟨ds, -, rfl, hnodup, hds⟩
      exact ⟨(x, ts, e) :: ds, List.cons_ne_nil _ _, by simp [definition, ident, symbol],
        by simpa using hnodup, List.forall_mem_cons.mpr ⟨he, hds⟩⟩
    · exact absurd hw Wants.not_pure
  · exact absurd hw Wants.not_pure

/-- A level built from completable parsers is completable. -/
theorem next : Completable P.next where
  exp := w.expNext h
  term := w.termNext h
  binary := w.binaryNext h
  climb := w.climbNext h
  calls := w.callsNext h
  args := w.argsNext h
  moreArgs := w.moreArgsNext h
  moreParams := w.moreParamsNext
  defs := w.defsNext h

end Completable

/-- **The parsers ask for more only on tokens that can be completed**, at every level. -/
theorem completable_level (n : Nat) : Completable (Phrases.level n) := by
  induction n with
  | zero =>
    have never : ∀ {α : Type} {s}, ¬ Wants (throw .endOfInput : Parser α) s :=
      Wants.not_throw nofun
    constructor <;> intros <;> exact absurd ‹Wants _ _› never
  | succ n ih => exact ih.next (sound_level n)

/-- **The parser of programs asks for more on beginnings of programs only.** -/
theorem completes_of_program {s : TokenStream} (hw : Wants Parser.program s) :
    Completes Phrase.exp.Spelled s.toList := by
  rcases hw.of_bind with hw | ⟨e, s₁, h₁, hw⟩
  · exact (completable_level s.remaining).expNext (sound_level s.remaining) hw
  · obtain ⟨ts, hts, he, -⟩ := (sound_level s.remaining).expNext h₁
    refine .after hts ?_
    rcases hw.of_peek_bind with hnil | ⟨s₂, -, hw⟩
    · exact .of_nil hnil [] (by decide) ⟨e, by rwa [List.append_nil]⟩
    · exfalso
      split at hw
      · exact absurd hw Wants.not_pure
      · exact absurd hw (Wants.not_throw nofun)

end CallBy
