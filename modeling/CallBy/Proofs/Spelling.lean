import CallBy.Proofs.Form

/-!
Texts with known tokens.

The reader takes the longest lexeme, so the tokens of a text depend on what follows it. A text is
`Closed` if nothing after it matters, as when it ends with a blank or a bracket, and it `Spells` its
tokens if they are the same before every text that begins with a blank or a delimiter (`Breaks`).
The tokens of a longer text are put together from those of its parts.

* `IsNameKind`, `isNameKind_iff`: the kinds of names, by lists of words;
* `closed_operator`, `spells_word`, `spells_digits`: the lexemes;
* `Closed.append`, `Closed.append_spells`, `Spells.append_closed`: joining texts;
* `Spells.lex_eq`: the tokens of a whole text.
-/

namespace CallBy

open Text

/-! ### One lexeme at a time -/

/-- The reader's result with more tokens in front. -/
def Lexed.prepend (ts : List Token) (r : Lexed) : Lexed := ⟨ts ++ r.tokens, r.failure⟩

@[simp] theorem Lexed.prepend_prepend (ts us : List Token) (r : Lexed) :
    (r.prepend us).prepend ts = r.prepend (ts ++ us) := by
  simp [Lexed.prepend]

/-- The reader's result once the gap at the front of the text has been dropped. -/
def lexAfterGap (total : Nat) : Except (List Char) (List Char) → Lexed
  | .error opening => ⟨[], some (.unterminatedComment (total - opening.length))⟩
  | .ok [] => ⟨[], none⟩
  | .ok (c :: rest) =>
    match lexeme? (c :: rest) with
    | none => ⟨[], some (.unexpectedChar (total - (c :: rest).length) c)⟩
    | some (t, after) => (lexFrom total after).prepend [t]

theorem lexFrom_eq (total : Nat) (cs : List Char) :
    lexFrom total cs = lexAfterGap total (skipGap .plain cs) := by
  rw [lexFrom]
  split
  · next h => rw [h, lexAfterGap]
  · next h => rw [h, lexAfterGap]
  · next h =>
    split
    · next hl => rw [h, lexAfterGap, hl]
    · next hl =>
      simp only [h, lexAfterGap, hl]
      rfl

/-- A character that is neither blank nor a slash begins no gap. -/
theorem skipGap_of_solid {c : Char} (cs : List Char) (hb : isBlank c = false) (hs : c ≠ '/') :
    skipGap .plain (c :: cs) = .ok (c :: cs) := by
  unfold skipGap
  split
  · next h => exact absurd (List.cons.inj h).1 hs
  · next h => exact absurd (List.cons.inj h).1 hs
  · next h =>
    cases h
    rw [hb]
    rfl
  all_goals simp_all

theorem lexFrom_of_lexeme {total : Nat} {cs rest after : List Char} {t : Token}
    (hg : skipGap .plain cs = .ok rest) (hl : lexeme? rest = some (t, after)) :
    lexFrom total cs = (lexFrom total after).prepend [t] := by
  rw [lexFrom_eq, hg]
  cases rest with
  | nil => cases hl
  | cons c rest => rw [lexAfterGap, hl]

theorem lexFrom_blank (total : Nat) (cs : List Char) :
    lexFrom total (' ' :: cs) = lexFrom total cs := by
  have hg : skipGap .plain (' ' :: cs) = skipGap .plain cs := rfl
  rw [lexFrom_eq, hg, ← lexFrom_eq]

theorem lexFrom_nil (total : Nat) : lexFrom total [] = ⟨[], none⟩ := by
  rw [lexFrom_eq]
  rfl

/-! ### Joining texts -/

/-- The characters that no lexeme of a word or a number goes on with. -/
def breaks : List Char := [' ', '(', ')', ',', ';']

/-- The text is empty or begins with a blank or a delimiter. -/
def Breaks (cs : List Char) : Prop := ∀ c ∈ cs.head?, c ∈ breaks

/-- The tokens of the text are these, whatever follows it. -/
def Closed (s : String) (ts : List Token) : Prop :=
  ∀ total rest, lexFrom total (s.toList ++ rest) = (lexFrom total rest).prepend ts

/-- The tokens of the text are these before a blank or a delimiter. -/
def Spells (s : String) (ts : List Token) : Prop :=
  ∀ total rest, Breaks rest → lexFrom total (s.toList ++ rest) = (lexFrom total rest).prepend ts

variable {a b : String} {ts us : List Token}

theorem Closed.spells (h : Closed a ts) : Spells a ts := fun total rest _ => h total rest

theorem Closed.append (h : Closed a ts) (h' : Closed b us) : Closed (a ++ b) (ts ++ us) := by
  intro total rest
  rw [String.toList_append, List.append_assoc, h, h', Lexed.prepend_prepend]

theorem Closed.append_spells (h : Closed a ts) (h' : Spells b us) : Spells (a ++ b) (ts ++ us) := by
  intro total rest hrest
  rw [String.toList_append, List.append_assoc, h, h' total rest hrest, Lexed.prepend_prepend]

/-- A text that begins with a blank or a delimiter ends the lexeme before it. -/
theorem Spells.append_closed (h : Spells a ts) (h' : Closed b us)
    (hb : ∃ c ∈ breaks, ∃ cs, b.toList = c :: cs) : Closed (a ++ b) (ts ++ us) := by
  intro total rest
  obtain ⟨c, hc, cs, hcs⟩ := hb
  have hbreaks : Breaks (b.toList ++ rest) := by
    rw [hcs]
    rintro c' ⟨⟩
    exact hc
  rw [String.toList_append, List.append_assoc, h _ _ hbreaks, h', Lexed.prepend_prepend]

/-- The tokens of a whole text. -/
theorem Spells.lex_eq (h : Spells a ts) : lex a = ⟨ts, none⟩ := by
  have hlex := h a.length [] nofun
  rw [List.append_nil, lexFrom_nil] at hlex
  rw [lex, hlex, Lexed.prepend, List.append_nil]

/-! ### Operators and delimiters -/

theorem closed_blank : Closed " " [] := fun total rest => lexFrom_blank total rest

/-- A character that forms no operator with a following one. -/
theorem closed_symbol {c : Char} (hc : c ∈ ['(', ')', ',', ';', '+', '-', '~']) :
    Closed (String.ofList [c]) [⟨.op, String.ofList [c]⟩] := by
  have hclass : isDigit c = false ∧ isNameStart c = false ∧ isBlank c = false ∧ c ≠ '/' ∧
      c ∉ compoundOps ∧ c ∈ simpleOps := by
    simp only [List.mem_cons, List.not_mem_nil, or_false] at hc
    rcases hc with rfl | rfl | rfl | rfl | rfl | rfl | rfl <;> decide
  obtain ⟨hd, hn, hb, hslash, hcomp, hsimple⟩ := hclass
  intro total rest
  have hop : operator? c rest = some (⟨.op, String.ofList [c]⟩, rest) := by
    unfold operator?
    split
    · rw [if_neg hcomp, if_pos hsimple]
    · rw [if_pos hsimple]
  have hl : lexeme? (c :: rest) = some (⟨.op, String.ofList [c]⟩, rest) := by
    rw [lexeme?, hd, hn, if_neg Bool.false_ne_true, if_neg Bool.false_ne_true, hop]
  have hg := skipGap_of_solid rest hb hslash
  rw [String.toList_ofList, List.singleton_append, lexFrom_of_lexeme hg hl]

/-- The symbols between operands, of one or two characters, before a blank. -/
theorem lexeme?_operator {op : String} (h : op ∈ Expr.binarySymbols) (rest : List Char) :
    ∃ c cs, op.toList = c :: cs ∧ skipGap .plain (c :: (cs ++ ' ' :: rest)) =
      .ok (c :: (cs ++ ' ' :: rest)) ∧
      lexeme? (c :: (cs ++ ' ' :: rest)) = some (⟨.op, op⟩, ' ' :: rest) := by
  simp only [Expr.binarySymbols, List.mem_cons, List.not_mem_nil, or_false] at h
  rcases h with rfl | rfl | rfl | rfl | rfl | rfl | rfl | rfl | rfl | rfl | rfl | rfl
  · exact ⟨'|', [], rfl, rfl, rfl⟩
  · exact ⟨'&', [], rfl, rfl, rfl⟩
  · exact ⟨'=', [], rfl, rfl, rfl⟩
  · exact ⟨'!', ['='], rfl, rfl, rfl⟩
  · exact ⟨'<', [], rfl, rfl, rfl⟩
  · exact ⟨'>', [], rfl, rfl, rfl⟩
  · exact ⟨'<', ['='], rfl, rfl, rfl⟩
  · exact ⟨'>', ['='], rfl, rfl, rfl⟩
  · exact ⟨'+', [], rfl, rfl, rfl⟩
  · exact ⟨'-', [], rfl, rfl, rfl⟩
  · exact ⟨'*', [], rfl, rfl, rfl⟩
  · exact ⟨'/', [], rfl, rfl, rfl⟩

theorem closed_operator {op : String} (h : op ∈ Expr.binarySymbols) :
    Closed (op ++ " ") [⟨.op, op⟩] := by
  intro total rest
  obtain ⟨c, cs, hop, hg, hl⟩ := lexeme?_operator h rest
  have htext : (op ++ " ").toList ++ rest = c :: (cs ++ ' ' :: rest) := by
    rw [String.toList_append, hop, List.append_assoc]
    rfl
  rw [htext, lexFrom_of_lexeme hg hl, lexFrom_blank]

/-! ### Words -/

theorem toNat_of_isNameStart {c : Char} (h : isNameStart c = true) :
    63 ≤ c.toNat ∧ c.toNat ≤ 122 := by
  change (((decide (65 ≤ c.toNat ∧ c.toNat ≤ 90) || (decide (97 ≤ c.toNat) &&
    decide (c.toNat ≤ 122))) || c == '_') || c == '?') = true at h
  simp only [Bool.or_eq_true, Bool.and_eq_true, decide_eq_true_eq, beq_iff_eq] at h
  rcases h with ((⟨h₁, h₂⟩ | ⟨h₁, h₂⟩) | rfl) | rfl
  · omega
  · omega
  · decide
  · decide

theorem isNameStart_class {c : Char} (h : isNameStart c = true) :
    isDigit c = false ∧ isBlank c = false ∧ c ≠ '/' := by
  obtain ⟨h₁, h₂⟩ := toNat_of_isNameStart h
  have hcode : ∀ n ≤ 122, 63 ≤ n → (zeros.find? fun z => z ≤ n && n < z + 10) = none ∧
      isBlankCode n = false := by decide
  obtain ⟨hd, hb⟩ := hcode c.toNat h₂ h₁
  refine ⟨?_, hb, ?_⟩
  · rw [isDigit, digitValue?, hd]
    rfl
  · rintro rfl
    revert h₁
    decide

/-- The names that are keywords. -/
def keywordNames : List String := ["if", "then", "else", "let", "in", "map", "to"]

/-- The names that are literals. -/
def literalNames : List String := ["true", "false", "null"]

/-- The names of primitives. -/
def primNames : List String :=
  ["number?", "function?", "list?", "null?", "cons?", "arity", "cons", "first", "rest"]

/-- **The kind of a name** is that of the list of words it is in; a name in none of them is an
identifier. -/
inductive IsNameKind : Kind → String → Prop
  | keyword {w : String} : w ∈ keywordNames → IsNameKind .keyword w
  | literal {w : String} : w ∈ literalNames → IsNameKind .literal w
  | prim {w : String} : w ∈ primNames → IsNameKind .prim w
  | id {w : String} : w ∉ keywordNames → w ∉ literalNames → w ∉ primNames → IsNameKind .id w

theorem mem_primNames_of_ofName? {w : String} (h : (Prim.ofName? w).isSome) : w ∈ primNames := by
  have hnames : Prim.named.map Prim.name = primNames := rfl
  obtain ⟨p, hp⟩ := Option.isSome_iff_exists.mp h
  rw [← hnames, ← Prim.name_of_ofName? hp]
  exact List.mem_map_of_mem (Prim.mem_named_of_ofName? hp)

/-- The reader knows the kinds of names. -/
theorem isNameKind_iff {k : Kind} {w : String} : IsNameKind k w ↔ k = Kind.ofName w := by
  have of_isNameKind : ∀ {k}, IsNameKind k w → k = Kind.ofName w := by
    intro k h
    cases h with
    | keyword hw =>
      have hall : ∀ w ∈ keywordNames, .keyword = Kind.ofName w := by decide
      exact hall w hw
    | literal hw =>
      have hall : ∀ w ∈ literalNames, .literal = Kind.ofName w := by decide
      exact hall w hw
    | prim hw =>
      have hall : ∀ w ∈ primNames, .prim = Kind.ofName w := by decide
      exact hall w hw
    | id hk hl hp =>
      rw [keywordNames] at hk
      rw [literalNames] at hl
      rw [Kind.ofName, if_neg hk, if_neg hl, if_neg (mt mem_primNames_of_ofName? hp)]
  refine ⟨of_isNameKind, fun h => ?_⟩
  obtain ⟨k', hk'⟩ : ∃ k', IsNameKind k' w := by
    by_cases hk : w ∈ keywordNames
    · exact ⟨_, .keyword hk⟩
    · by_cases hl : w ∈ literalNames
      · exact ⟨_, .literal hl⟩
      · by_cases hp : w ∈ primNames
        · exact ⟨_, .prim hp⟩
        · exact ⟨_, .id hk hl hp⟩
  rwa [h, ← of_isNameKind hk']

/-- A run of characters of a class ends before a character that is not of it. -/
theorem takeWhile_of_stops {p : Char → Bool} {cs rest : List Char} (hcs : ∀ c ∈ cs, p c = true)
    (hrest : ∀ c ∈ rest.head?, p c = false) :
    (cs ++ rest).takeWhile p = cs ∧ (cs ++ rest).dropWhile p = rest := by
  rw [List.takeWhile_append_of_pos hcs, List.dropWhile_append_of_pos hcs]
  cases rest with
  | nil => simp
  | cons c rest => simp [hrest c rfl]

theorem takeWhile_of_breaks {p : Char → Bool} (hp : breaks.any p = false) {cs rest : List Char}
    (hcs : ∀ c ∈ cs, p c = true) (hrest : Breaks rest) :
    (cs ++ rest).takeWhile p = cs ∧ (cs ++ rest).dropWhile p = rest :=
  takeWhile_of_stops hcs fun c hc => by simpa using List.any_eq_false.mp hp c (hrest c hc)

theorem spells_word {w : String} (hw : Expr.IsWord w) : Spells w [⟨Kind.ofName w, w⟩] := by
  intro total rest hrest
  obtain ⟨c, cs, htext, hc, hcs⟩ := hw
  obtain ⟨hd, hb, hs⟩ := isNameStart_class hc
  obtain ⟨htake, hdrop⟩ := takeWhile_of_breaks (p := isNameChar) (by decide) hcs hrest
  have hl : lexeme? (c :: (cs ++ rest)) = some (⟨Kind.ofName w, w⟩, rest) := by
    rw [lexeme?, hd, hc, if_neg Bool.false_ne_true, if_pos rfl, htake, hdrop, ← htext,
      String.ofList_toList]
  rw [htext, List.cons_append, lexFrom_of_lexeme (skipGap_of_solid _ hb hs) hl]

/-! ### Numbers -/

theorem digitValue?_of_isDigit {c : Char} (h : c.isDigit = true) :
    digitValue? c = some (c.toNat - 48) := by
  simp only [Char.isDigit, Bool.and_eq_true, decide_eq_true_eq] at h
  have h₁ : 48 ≤ c.toNat := h.1
  have h₂ : c.toNat ≤ 57 := h.2
  have hfind : (zeros.find? fun z => z ≤ c.toNat && c.toNat < z + 10) = some 48 := by
    rw [zeros, List.find?_cons_of_pos]
    simp only [Bool.and_eq_true, decide_eq_true_eq]
    omega
  rw [digitValue?, hfind]
  rfl

theorem isDigit_class {c : Char} (h : c.isDigit = true) :
    isDigit c = true ∧ isBlank c = false ∧ c ≠ '/' := by
  have hd : isDigit c = true := by rw [isDigit, digitValue?_of_isDigit h]; rfl
  simp only [Char.isDigit, Bool.and_eq_true, decide_eq_true_eq] at h
  have h₁ : 48 ≤ c.toNat := h.1
  have h₂ : c.toNat ≤ 57 := h.2
  have hcode : ∀ n ≤ 57, 48 ≤ n → isBlankCode n = false := by decide
  refine ⟨hd, hcode c.toNat h₂ h₁, ?_⟩
  rintro rfl
  revert h₁
  decide

theorem spells_digits (n : Nat) : Spells n.repr [⟨.int, n.repr⟩] := by
  intro total rest hrest
  have hall : ∀ c ∈ n.repr.toList, c.isDigit = true := by
    rw [Nat.toList_repr]
    exact fun c hc => Nat.isDigit_of_mem_toDigits (by decide) (by decide) hc
  obtain ⟨c, cs, htext⟩ : ∃ c cs, n.repr.toList = c :: cs :=
    List.exists_cons_of_ne_nil (by rw [Nat.toList_repr]; exact Nat.toDigits_ne_nil)
  rw [htext, List.forall_mem_cons] at hall
  obtain ⟨hd, hb, hs⟩ := isDigit_class hall.1
  have hcs : ∀ c ∈ cs, isDigit c = true := fun c hc => (isDigit_class (hall.2 c hc)).1
  obtain ⟨htake, hdrop⟩ := takeWhile_of_breaks (p := isDigit) (by decide) hcs hrest
  have hl : lexeme? (c :: (cs ++ rest)) = some (⟨.int, n.repr⟩, rest) := by
    rw [lexeme?, hd, if_pos rfl, htake, hdrop, ← htext, String.ofList_toList]
  rw [htext, List.cons_append, lexFrom_of_lexeme (skipGap_of_solid _ hb hs) hl]

/-- The digits of a number write it. -/
theorem decimal_repr (n : Nat) : decimal n.repr.toList = n := by
  have hfold : ∀ (cs : List Char) (k : Nat), (∀ c ∈ cs, c.isDigit = true) →
      cs.foldl (fun n c => 10 * n + (digitValue? c).getD 0) k = Nat.ofDigitChars 10 cs k := by
    intro cs
    induction cs with
    | nil => exact fun k _ => rfl
    | cons c cs ih =>
      intro k hcs
      obtain ⟨hc, hcs⟩ := List.forall_mem_cons.mp hcs
      rw [List.foldl_cons, digitValue?_of_isDigit hc, Nat.ofDigitChars_cons]
      exact ih _ hcs
  rw [Nat.toList_repr, decimal, hfold, Nat.ofDigitChars_ten_toDigits]
  exact fun c hc => Nat.isDigit_of_mem_toDigits (by decide) (by decide) hc

end CallBy
