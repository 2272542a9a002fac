import CallBy.Expr.Render
import CallBy.Proofs.Recognizes
import CallBy.Proofs.Sign
import CallBy.Proofs.Spelling
import Mathlib.Tactic.Choose

/-!
Rendering and parsing are inverse to each other.

* `respelled`: the text of an expression that is well formed up to sign has tokens that spell what
  it is reread as, and `spelled_of_wellFormed`: a well-formed expression is reread as it is;
* `wellFormed_of_parse`: what a program text spells is well formed;
* `parse_render_inverse`: the round trip.
-/

namespace CallBy

open Phrases (keyword symbol)

/-! ### Fixed parts of texts -/

theorem closed_empty : Closed "" [] := fun _ _ => rfl

/-- Words that are followed by a blank. -/
theorem closed_keyword {w : String} (hw : w ∈ ["if", "then", "else", "let", "in", "map", "to"]) :
    Closed (w ++ " ") [keyword w] := by
  have hword : Expr.IsWord w ∧ Kind.ofName w = .keyword := by
    revert w
    decide
  have hclosed := (spells_word hword.1).append_closed closed_blank ⟨' ', by decide, [], rfl⟩
  rw [hword.2] at hclosed
  exact hclosed

theorem closed_between {w : String} (hw : w ∈ ["if", "then", "else", "let", "in", "map", "to"]) :
    Closed (" " ++ (w ++ " ")) [keyword w] := closed_blank.append (closed_keyword hw)

theorem closed_open : Closed "(" [symbol "("] := closed_symbol (c := '(') (by decide)

theorem closed_close : Closed ")" [symbol ")"] := closed_symbol (c := ')') (by decide)

theorem closed_comma : Closed ", " [symbol ","] :=
  Closed.append (closed_symbol (c := ',') (by decide)) closed_blank

theorem closed_define : Closed " := " [symbol ":="] := by
  intro total rest
  have hl : lexeme? (':' :: '=' :: ' ' :: rest) = some (symbol ":=", ' ' :: rest) := rfl
  have hg := skipGap_of_solid (c := ':') ('=' :: ' ' :: rest) rfl (by decide)
  calc lexFrom total (' ' :: ':' :: '=' :: ' ' :: rest)
    _ = lexFrom total (':' :: '=' :: ' ' :: rest) := lexFrom_blank _ _
    _ = (lexFrom total (' ' :: rest)).prepend [symbol ":="] := lexFrom_of_lexeme hg hl
    _ = (lexFrom total rest).prepend [symbol ":="] := by rw [lexFrom_blank]

theorem closed_unary {op : String} (h : op ∈ Expr.unarySymbols) : Closed op [symbol op] := by
  simp only [Expr.unarySymbols, List.mem_cons, List.not_mem_nil, or_false] at h
  rcases h with rfl | rfl | rfl
  · exact closed_symbol (c := '+') (by decide)
  · exact closed_symbol (c := '-') (by decide)
  · exact closed_symbol (c := '~') (by decide)

/-! ### Lists -/

/-- Texts with commas between them. -/
theorem spells_separated (ps : List (String × List Token)) (h : ∀ p ∈ ps, Spells p.1 p.2) :
    Spells (", ".intercalate (ps.map (·.1))) (separated (ps.map (·.2))) := by
  induction ps with
  | nil => exact closed_empty.spells
  | cons p ps ih =>
    obtain ⟨hp, hps⟩ := List.forall_mem_cons.mp h
    cases ps with
    | nil => simpa [separated] using hp
    | cons q ps =>
      have hhead := hp.append_closed closed_comma ⟨',', by decide, [' '], rfl⟩
      simpa [separated] using hhead.append_spells (ih hps)

/-- Closed texts with blanks between them. -/
theorem closed_joined (ps : List (String × List Token)) (h : ∀ p ∈ ps, Closed p.1 p.2) :
    Closed (" ".intercalate (ps.map (·.1))) (ps.flatMap (·.2)) := by
  induction ps with
  | nil => exact closed_empty
  | cons p ps ih =>
    obtain ⟨hp, hps⟩ := List.forall_mem_cons.mp h
    cases ps with
    | nil => simpa using hp
    | cons q ps => simpa using (hp.append closed_blank).append (ih hps)

theorem closed_mapHead {xs : List String} (hxs : ∀ x ∈ xs, Expr.IsName x) :
    Closed (Expr.mapHead xs)
      (keyword "map" :: separated (xs.map ([ident ·])) ++ [keyword "to"]) := by
  have hmap : Closed "map " [keyword "map"] := closed_keyword (w := "map") (by decide)
  have hto : Closed " to " [keyword "to"] := closed_between (w := "to") (by decide)
  cases xs with
  | nil => exact hmap.append (closed_keyword (w := "to") (by decide))
  | cons x xs =>
    have hnames := spells_separated ((x :: xs).map fun x => (x, [ident x])) (by
      simp only [List.mem_map]
      rintro _ ⟨y, hy, rfl⟩
      have hname := hxs y hy
      have hspells := spells_word hname.1
      rwa [hname.2] at hspells)
    simp only [List.map_map, Function.comp_def, List.map_id'] at hnames
    exact (hmap.append_spells hnames).append_closed hto ⟨' ', by decide, _, rfl⟩

/-! ### The text of an expression -/

/-- The text of the expression has tokens that spell it, and that can be applied to arguments if the
expression stands bare as an operand. -/
def Spelled (e : Expr) : Prop :=
  ∃ ts, Spells e.render ts ∧ Derives .exp ts e ∧ (e.isAtomic = true → Derives .calls ts e)

/-- The token of the sign that the text of the expression begins with. -/
def Expr.sign (e : Expr) : List Token := if e.isNegative then [symbol "-"] else []

/-- The text of the expression has tokens that spell what it is reread as. Those after the sign can
be applied to arguments if the expression stands bare as an operand. -/
def Respelled (e : Expr) : Prop :=
  ∃ ts, Spells e.render (e.sign ++ ts) ∧ Derives .exp (e.sign ++ ts) e.reread ∧
    (e.isAtomic = true → Derives .calls ts e.unsigned)

theorem Expr.sign_of_isNegative {e : Expr} (h : e.isNegative = true) : e.sign = [symbol "-"] :=
  if_pos h

theorem Expr.sign_of_not_isNegative {e : Expr} (h : e.isNegative = false) : e.sign = [] :=
  if_neg (by rw [h]; decide)

/-- What is in parentheses as an operand does not begin with a sign. -/
theorem Expr.isNegative_of_not_isAtomic {e : Expr} (h : e.isAtomic = false) :
    e.isNegative = false := by
  cases e with
  | int | app => cases h
  | _ => rfl

/-- The sign makes an operator of a chain of applications. -/
theorem Derives.withSign {ts : List Token} {e : Expr} (h : Derives .calls ts e.unsigned) :
    Derives (.term false) (e.sign ++ ts) e.reread := by
  cases hneg : e.isNegative with
  | true =>
    rw [Expr.sign_of_isNegative hneg, Expr.reread_of_isNegative hneg]
    exact .unary (by decide) h.ofCalls
  | false =>
    rw [Expr.sign_of_not_isNegative hneg, Expr.reread_of_not_isNegative hneg]
    exact h.ofCalls

theorem Derives.bin_of_term {p : Nat} {ts : List Token} {e : Expr} (hp : 1 ≤ p) (hp6 : p ≤ 6)
    (h : Derives (.term false) ts e) : Derives (.bin p false) ts e :=
  h.ofTerm.loosen hp hp6 (Nat.le_refl 6)

theorem respelled_of_calls {ts : List Token} {e : Expr} (hs : Spells e.render (e.sign ++ ts))
    (h : Derives .calls ts e.unsigned) : Respelled e :=
  ⟨ts, hs, (h.withSign.bin_of_term (by decide) (by decide)).ofBin, fun _ => h⟩

theorem respelled_of_exp {ts : List Token} {e : Expr} (hs : Spells e.render ts)
    (h : Derives .exp ts e.unsigned) (ha : e.isAtomic = false) : Respelled e := by
  have hneg := Expr.isNegative_of_not_isAtomic ha
  refine ⟨ts, ?_, ?_, fun ht => by rw [ha] at ht; cases ht⟩
  · rwa [Expr.sign_of_not_isNegative hneg]
  · rwa [Expr.sign_of_not_isNegative hneg, Expr.reread_of_not_isNegative hneg]

/-- An operand is in parentheses, or can be applied as it is but for its sign. -/
theorem Respelled.operand {e : Expr} (h : Respelled e) :
    ∃ ts, Spells (Expr.enclosed e.isAtomic e.render) (e.sign ++ ts) ∧
      Derives .calls ts e.unsigned := by
  obtain ⟨ts, hs, hexp, hcalls⟩ := h
  cases ha : e.isAtomic with
  | true => exact ⟨ts, hs, hcalls ha⟩
  | false =>
    have hneg := Expr.isNegative_of_not_isAtomic ha
    rw [Expr.sign_of_not_isNegative hneg] at hs hexp ⊢
    rw [Expr.reread_of_not_isNegative hneg] at hexp
    have hparen := (closed_open.append_spells hs).append_closed closed_close
      ⟨')', by decide, [], rfl⟩
    exact ⟨_, hparen.spells, hexp.paren.ofFactor⟩

/-- With its sign an operand is a term. -/
theorem Respelled.term {e : Expr} (h : Respelled e) :
    ∃ ts, Spells (Expr.enclosed e.isAtomic e.render) ts ∧ Derives (.term false) ts e.reread := by
  obtain ⟨ts, hs, hcalls⟩ := h.operand
  exact ⟨e.sign ++ ts, hs, hcalls.withSign⟩

/-- In other places it is as it stands. -/
theorem Respelled.exp {e : Expr} (h : Respelled e) :
    ∃ ts, Spells e.render ts ∧ Derives .exp ts e.reread :=
  h.imp' (e.sign ++ ·) fun _ ht => ⟨ht.1, ht.2.1⟩

theorem respelled_unary {op : String} {a : Expr} (hop : op ∈ Expr.unarySymbols)
    (ha : Respelled a) : Respelled (.unary op a) := by
  obtain ⟨ts, hs, hd⟩ := ha.term
  have hterm := Derives.unary (Expr.mem_unarySymbols.mp hop) hd
  have hbin := hterm.bin_of_term (p := 1) (by decide) (by decide)
  exact respelled_of_exp ((closed_unary hop).append_spells hs) hbin.ofBin rfl

theorem respelled_binary {op : String} {l r : Expr} (hop : op ∈ Expr.binarySymbols)
    (hl : Respelled l) (hr : Respelled r) : Respelled (.binary op l r) := by
  obtain ⟨ts, hts, hl⟩ := hl.term
  obtain ⟨us, hus, hr⟩ := hr.term
  obtain ⟨p, hp⟩ := Option.isSome_iff_exists.mp (Expr.mem_binarySymbols.mp hop)
  obtain ⟨hp1, hp5⟩ := precedence?_bounds hp
  have hbin := Derives.binary hp (hl.bin_of_term hp1 (by omega))
    (hr.bin_of_term (p := p + 1) (by omega) (by omega))
  refine respelled_of_exp ?_ (hbin.loosen (p := 1) (by decide) hp1 (by omega)).ofBin rfl
  have hspace := closed_blank.append (closed_operator hop)
  have hleft := hts.append_closed hspace ⟨' ', by decide, _, by rw [String.toList_append]; rfl⟩
  simpa [Expr.render, symbol, String.append_assoc] using hleft.append_spells hus

theorem respelled_ite {t c a : Expr} (ht : Respelled t) (hc : Respelled c) (ha : Respelled a) :
    Respelled (.ite t c a) := by
  obtain ⟨ts, hts, ht⟩ := ht.exp
  obtain ⟨us, hus, hc⟩ := hc.exp
  obtain ⟨vs, hvs, ha⟩ := ha.exp
  have hif : Closed "if " [keyword "if"] := closed_keyword (w := "if") (by decide)
  have hthen : Closed " then " [keyword "then"] := closed_between (w := "then") (by decide)
  have helse : Closed " else " [keyword "else"] := closed_between (w := "else") (by decide)
  have htest := (hif.append_spells hts).append_closed hthen ⟨' ', by decide, _, rfl⟩
  have hconseq := (htest.append_spells hus).append_closed helse ⟨' ', by decide, _, rfl⟩
  refine respelled_of_exp ?_ (ht.ite hc ha).ofBlock rfl
  simpa [Expr.render, String.append_assoc] using hconseq.append_spells hvs

theorem respelled_map {xs : List String} {b : Expr} (hxs : ∀ x ∈ xs, Expr.IsName x)
    (hnodup : xs.Nodup) (hb : Respelled b) : Respelled (.map xs b) := by
  obtain ⟨ts, hts, hb⟩ := hb.exp
  refine respelled_of_exp ?_ (Derives.map hnodup hb).ofBlock rfl
  simpa [Expr.render] using (closed_mapHead hxs).append_spells hts

theorem respelled_app {f : Expr} {as : List Expr} (hf : Respelled f)
    (has : ∀ a ∈ as, Respelled a) : Respelled (.app f as) := by
  obtain ⟨ts, hts, hf⟩ := hf.operand
  choose! toks htoks using fun a ha => (has a ha).exp
  have hargs := spells_separated (as.map fun a => (a.render, toks a)) (by
    simp only [List.mem_map]
    rintro _ ⟨a, ha, rfl⟩
    exact (htoks a ha).1)
  have happ := @Derives.app ts f.unsigned (as.map fun a => (toks a, a.reread)) hf (by
    simp only [List.mem_map]
    rintro _ ⟨a, ha, rfl⟩
    exact (htoks a ha).2)
  have hhead := hts.append_closed closed_open ⟨'(', by decide, [], rfl⟩
  have htext := (hhead.append_spells hargs).append_closed closed_close ⟨')', by decide, [], rfl⟩
  simp only [List.map_map, Function.comp_def] at happ htext
  have hsign : (Expr.app f as).sign = f.sign := rfl
  refine respelled_of_calls ?_ (by rwa [Expr.unsigned, Expr.rereadArgs_eq_map])
  simpa [Expr.render, hsign] using htext.spells

theorem respelled_letIn {ds : List (String × Expr)} {b : Expr} (hne : ds ≠ [])
    (hnames : ∀ d ∈ ds, Expr.IsName d.1) (hnodup : (ds.map (·.1)).Nodup)
    (hds : ∀ d ∈ ds, Respelled d.2) (hb : Respelled b) : Respelled (.letIn ds b) := by
  obtain ⟨ts, hts, hb⟩ := hb.exp
  choose! toks htoks using fun d hd => (hds d hd).exp
  have hlet : Closed "let " [keyword "let"] := closed_keyword (w := "let") (by decide)
  have hin : Closed " in " [keyword "in"] := closed_between (w := "in") (by decide)
  have hsemi : Closed ";" [symbol ";"] := closed_symbol (c := ';') (by decide)
  have hdef : ∀ d ∈ ds, Closed (d.1 ++ " := " ++ d.2.render ++ ";") (definition d.1 (toks d)) := by
    intro d hd
    have hname := spells_word (hnames d hd).1
    rw [(hnames d hd).2] at hname
    have hhead := hname.append_closed closed_define ⟨' ', by decide, _, rfl⟩
    have hbody := (hhead.append_spells (htoks d hd).1).append_closed hsemi ⟨';', by decide, [], rfl⟩
    simpa [definition, ident] using hbody
  have hdefs := closed_joined (ds.map fun d =>
      (d.1 ++ " := " ++ d.2.render ++ ";", definition d.1 (toks d))) (by
    simp only [List.mem_map]
    rintro _ ⟨d, hd, rfl⟩
    exact hdef d hd)
  have hder := @Derives.letIn (ds.map fun d => (d.1, toks d, d.2.reread)) ts b.reread
    (by simpa using hne) (by simpa [Function.comp_def] using hnodup) (by
      simp only [List.mem_map]
      rintro _ ⟨d, hd, rfl⟩
      exact (htoks d hd).2) hb
  simp only [List.map_map, Function.comp_def, List.flatMap_map] at hder hdefs
  refine respelled_of_exp ?_ (by rw [Expr.unsigned, Expr.rereadDefs_eq_map]; exact hder.ofBlock) rfl
  simpa [Expr.render, String.append_assoc] using ((hlet.append hdefs).append hin).append_spells hts

theorem respelled_int (n : Int) : Respelled (.int n) := by
  have hd := Derives.int n.natAbs.repr
  rw [decimal_repr] at hd
  refine respelled_of_calls ?_ hd.ofFactor
  cases n with
  | ofNat k => exact spells_digits k
  | negSucc k =>
    have hminus : Closed "-" [symbol "-"] := closed_symbol (c := '-') (by decide)
    have hneg : (Expr.int (.negSucc k)).isNegative = true := by
      simp [Expr.isNegative, Int.negSucc_lt_zero]
    rw [Expr.sign_of_isNegative hneg]
    exact hminus.append_spells (spells_digits (k + 1))

theorem respelled_literal {e : Expr} (w : String) (hr : e.render = w) (hsign : e.sign = [])
    (hw : Expr.IsWord w ∧ Kind.ofName w = .literal) (he : constantOf w = e.unsigned) :
    Respelled e := by
  have hs := spells_word hw.1
  have hd := (Derives.literal w).ofFactor
  rw [hw.2, ← hr] at hs
  rw [he] at hd
  refine respelled_of_calls ?_ (hr ▸ hd)
  rwa [hsign]

theorem respelled_prim {p : Prim} (hp : p ∈ Prim.named) : Respelled (.prim p) := by
  have hword : Expr.IsWord p.name ∧ Kind.ofName p.name = .prim := by
    revert p
    decide
  have hs := spells_word hword.1
  rw [hword.2] at hs
  exact respelled_of_calls hs (Derives.prim (Prim.ofName?_name hp)).ofFactor

/-- **The text of an expression that is well formed up to sign has tokens that spell what it is
reread as.** -/
theorem respelled {e : Expr} (h : e.FormedUpToSign) : Respelled e := by
  induction h with
  | int n => exact respelled_int n
  | bool b =>
    cases b with
    | true => exact respelled_literal "true" rfl rfl (by decide) rfl
    | false => exact respelled_literal "false" rfl rfl (by decide) rfl
  | null => exact respelled_literal "null" rfl rfl (by decide) rfl
  | prim hp => exact respelled_prim hp
  | var hx =>
    have hs := spells_word hx.1
    rw [hx.2] at hs
    exact respelled_of_calls hs (Derives.var _).ofFactor
  | unary hop _ iha => exact respelled_unary hop iha
  | binary hop _ _ ihl ihr => exact respelled_binary hop ihl ihr
  | ite _ _ _ iht ihc iha => exact respelled_ite iht ihc iha
  | map hxs hnodup _ ihb => exact respelled_map hxs hnodup ihb
  | app _ _ ihf ihas => exact respelled_app ihf ihas
  | letIn hne hnames hnodup _ _ ihds ihb => exact respelled_letIn hne hnames hnodup ihds ihb

/-- **The text of a well-formed expression has tokens that spell it.** -/
theorem spelled_of_wellFormed {e : Expr} (h : e.WellFormed) : Spelled e := by
  obtain ⟨ts, hs, hexp, hcalls⟩ := respelled h.upToSign
  obtain ⟨hneg, heq⟩ := h.unsigned_eq
  rw [Expr.sign_of_not_isNegative hneg] at hs hexp
  rw [h.reread_eq] at hexp
  rw [heq] at hcalls
  exact ⟨ts, hs, hexp, hcalls⟩

theorem parse_of_spells {s : String} {ts : List Token} {e : Expr} (hs : Spells s ts)
    (hd : Derives .exp ts e) : Expr.parse s = .ok e := by
  rw [parse_iff_derives, hs.lex_eq]
  exact ⟨rfl, hd⟩

theorem parse_of_spelled {e : Expr} (h : Spelled e) : Expr.parse e.render = .ok e := by
  obtain ⟨ts, hs, hd, -⟩ := h
  exact parse_of_spells hs hd

/-! ### What a program text spells -/

/-- Every name token is a name that is free for variables. -/
def Named (ts : List Token) : Prop := ∀ t ∈ ts, t.kind = .id → Expr.IsName t.text

theorem named_append {ts us : List Token} : Named (ts ++ us) ↔ Named ts ∧ Named us :=
  List.forall_mem_append

theorem named_cons {t : Token} {ts : List Token} :
    Named (t :: ts) ↔ (t.kind = .id → Expr.IsName t.text) ∧ Named ts :=
  List.forall_mem_cons

theorem named_of_operator {c : Char} {cs rest : List Char} {t : Token}
    (h : operator? c cs = some (t, rest)) : t.kind = .op := by
  unfold operator? at h
  split at h
  · split at h
    · cases h; rfl
    · split at h
      · cases h; rfl
      · cases h
  · split at h
    · cases h; rfl
    · cases h

/-- A name token holds a word that is nothing else. -/
theorem isName_of_lexeme {cs rest : List Char} {t : Token} (h : lexeme? cs = some (t, rest))
    (ht : t.kind = .id) : Expr.IsName t.text := by
  unfold lexeme? at h
  split at h
  · cases h
  · next c cs =>
    split at h
    · cases h
      cases ht
    · split at h
      · next hc =>
        cases h
        refine ⟨⟨c, _, String.toList_ofList, hc, fun x hx => ?_⟩, ht⟩
        exact List.all_eq_true.mp List.all_takeWhile x hx
      · rw [named_of_operator h] at ht
        cases ht

theorem named_lexFrom (total : Nat) (cs : List Char) : Named (lexFrom total cs).tokens := by
  fun_induction lexFrom total cs with
  | case1 => exact nofun
  | case2 => exact nofun
  | case3 => exact nofun
  | case4 cs c rest hg t after hl _ later ih =>
    exact named_cons.mpr ⟨isName_of_lexeme hl, ih⟩

theorem named_separated {tss : List (List Token)} :
    Named (separated tss) → ∀ ts ∈ tss, Named ts := by
  intro h ts hts
  cases tss with
  | nil => cases hts
  | cons us tss =>
    rw [separated, named_append] at h
    rcases List.mem_cons.mp hts with rfl | hts
    · exact h.1
    · intro t ht
      exact h.2 t (List.mem_flatMap.mpr ⟨ts, hts, List.mem_cons_of_mem _ ht⟩)

theorem isName_of_definition {x : String} {ts : List Token} (h : Named (definition x ts)) :
    Expr.IsName x ∧ Named ts := by
  rw [definition, named_append, named_cons, named_cons] at h
  exact ⟨h.1.1 rfl, h.1.2.2⟩

/-- **What tokens spell is well formed** if their names are. -/
theorem Derives.wellFormed {c : Phrase} {ts : List Token} {e : Expr} (h : Derives c ts e)
    (hts : Named ts) : e.WellFormed := by
  induction h with
  | ofBlock _ ih | ofBin _ ih | tighter _ _ _ ih | ofTerm _ ih | ofCalls _ ih | ofFactor _ ih =>
    exact ih hts
  | ite _ _ _ iht ihc iha =>
    simp only [List.cons_append, named_cons, named_append] at hts
    exact .ite (iht hts.2.1.1) (ihc hts.2.1.2.2) (iha hts.2.2.2)
  | @letIn ds ts e hne hnodup _ _ ihds ihe =>
    simp only [List.cons_append, named_cons, named_append] at hts
    have hdef : ∀ d ∈ ds, Expr.IsName d.1 ∧ Named d.2.1 := fun d hd =>
      isName_of_definition fun t ht => hts.2.1 t (List.mem_flatMap.mpr ⟨d, hd, ht⟩)
    refine .letIn (by simpa using hne) ?_ (by simpa [Function.comp_def] using hnodup) ?_
      (ihe hts.2.2.2)
    · simp only [List.mem_map]
      rintro _ ⟨d, hd, rfl⟩
      exact (hdef d hd).1
    · simp only [List.mem_map]
      rintro _ ⟨d, hd, rfl⟩
      exact ihds d hd (hdef d hd).2
  | @map xs ts e hnodup _ ihe =>
    simp only [List.cons_append, named_cons, named_append] at hts
    refine .map (fun x hx => ?_) hnodup (ihe hts.2.2.2)
    have hx := named_separated hts.2.1 [ident x] (List.mem_map.mpr ⟨x, hx, rfl⟩)
    exact hx (ident x) List.mem_cons_self rfl
  | binary hp _ _ ihl ihr | binaryBlock hp _ _ ihl ihr =>
    rw [named_append, named_cons] at hts
    exact .binary (Expr.mem_binarySymbols.mpr (by rw [hp]; rfl)) (ihl hts.1) (ihr hts.2.2)
  | unary hop _ ih | unaryBlock hop _ ih =>
    exact .unary (Expr.mem_unarySymbols.mpr hop) (ih (named_cons.mp hts).2)
  | @app ts e as _ _ ihe ihas =>
    simp only [List.append_assoc, List.cons_append, named_cons, named_append] at hts
    refine .app (ihe hts.1) ?_
    simp only [List.mem_map]
    rintro _ ⟨a, ha, rfl⟩
    exact ihas a ha (named_separated hts.2.2.1 a.1 (List.mem_map.mpr ⟨a, ha, rfl⟩))
  | paren _ ih =>
    simp only [List.cons_append, named_cons, named_append] at hts
    exact ih hts.2.1
  | int s => exact .int (Int.natCast_nonneg _)
  | literal s =>
    unfold constantOf
    split
    · exact .null
    · exact .bool _
  | prim hp => exact .prim (Prim.mem_named_of_ofName? hp)
  | var x => exact .var (hts (ident x) List.mem_cons_self rfl)

theorem wellFormed_of_parse {source : String} {e : Expr} (h : Expr.parse source = .ok e) :
    e.WellFormed :=
  ((parse_iff_derives source e).mp h).2.wellFormed (named_lexFrom _ _)

/-- **Rendering and parsing are inverse to each other**: the well-formed expressions are those that
some text spells, and their own text is one that does. -/
theorem parse_render_inverse (e : Expr) :
    ((∃ source, Expr.parse source = .ok e) ↔ e.WellFormed) ∧
      (e.WellFormed → Expr.parse e.render = .ok e) := by
  have hrender : e.WellFormed → Expr.parse e.render = .ok e := fun h =>
    parse_of_spelled (spelled_of_wellFormed h)
  exact ⟨⟨fun ⟨_, h⟩ => wellFormed_of_parse h, fun h => ⟨e.render, hrender h⟩⟩, hrender⟩

/-- A chain whose operands need parentheses, with the text `(-10) - (map x to x(null))`. -/
def enclosedOperands : Expr :=
  .binary "-" (.unary "-" (.int 10)) (.map ["x"] (.app (.var "x") [.null]))

theorem parse_render_inverse_enclosedOperands :
    enclosedOperands.WellFormed ∧ Expr.parse enclosedOperands.render = .ok enclosedOperands := by
  have hname : Expr.IsName "x" := ⟨by decide, by decide⟩
  have hform : enclosedOperands.WellFormed := by
    refine .binary (by decide) (.unary (by decide) (.int (by decide))) (.map ?_ (by simp) ?_)
    · simpa using hname
    · exact .app (.var hname) (by simpa using Expr.WellFormed.null)
  exact ⟨hform, (parse_render_inverse enclosedOperands).2 hform⟩

end CallBy
