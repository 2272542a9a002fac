import CallBy.Proofs.Spelling
import Mathlib.Data.List.Infix
import Mathlib.Data.List.TakeWhile

/-!
What the reader of program texts takes for gaps and lexemes.

A gap and a lexeme are said to be such before the rest of the text: a comment may end with the text,
and a lexeme ends where nothing that follows could belong to it. A text is read as a gap and then
lexemes, each with a gap after it (`Lexes`). There is at most one way to read a text so, and the
reader finds it, or comes to a place where there is none.

* `IsGap`, `gap_cases`: a text begins with a gap that cannot be extended, or a comment in it has no
  end;
* `IsLexeme`, `IsLexeme.lexeme?_eq`, `isLexeme_of_lexeme?`: the lexemes are what the reader takes
  for lexemes;
* `Lexes`, `Lexes.unique`, `lexFrom_cases`: what the reader does, on success and on failure;
* `lex_maximal_munch`.
-/

namespace CallBy

open Text

/-! ### Gaps -/

/-- **A gap before the rest of a text**: blanks, comments up to the end of their line or of the
text, and bracketed comments up to the first closing bracket. -/
inductive IsGap : List Char → List Char → Prop
  | empty {rest : List Char} : IsGap [] rest
  | blank {c : Char} {g rest : List Char} : isBlank c = true → IsGap g rest → IsGap (c :: g) rest
  | line {body g rest : List Char} : '\n' ∉ body → IsGap g rest →
      IsGap ('/' :: '/' :: (body ++ '\n' :: g)) rest
  | lastLine {body : List Char} : '\n' ∉ body → IsGap ('/' :: '/' :: body) []
  | block {body g rest : List Char} : ¬ ['*', '/'] <:+: body → IsGap g rest →
      IsGap ('/' :: '*' :: (body ++ '*' :: '/' :: g)) rest

/-- No gap and no comment begins here. -/
structure Solid (cs : List Char) : Prop where
  blank : ∀ c ∈ cs.head?, isBlank c = false
  line : ¬ ['/', '/'] <+: cs
  block : ¬ ['/', '*'] <+: cs

/-- A bracketed comment without an end. -/
def Unclosed (cs : List Char) : Prop := ∃ body, cs = '/' :: '*' :: body ∧ ¬ ['*', '/'] <:+: body

section Gaps

variable {g rest cs : List Char}

/-- A gap is one before another text too, unless it needs the end of the text. -/
theorem IsGap.before {rest' : List Char} (h : IsGap g rest) (hrest : rest = [] → rest' = []) :
    IsGap g rest' := by
  induction h with
  | empty => exact .empty
  | blank hc _ ih => exact .blank hc (ih hrest)
  | line hb _ ih => exact .line hb (ih hrest)
  | lastLine hb => exact hrest rfl ▸ .lastLine hb
  | block hb _ ih => exact .block hb (ih hrest)

/-- What is not in a text is not in its tail. -/
theorem not_infix_of_cons {c : Char} {w body : List Char} (h : ¬ w <:+: c :: body) :
    ¬ w <:+: body :=
  fun hin => h (hin.trans (List.suffix_cons c body).isInfix)

theorem skipGap_line_of_ne {c : Char} (hc : c ≠ '\n') (cs : List Char) :
    skipGap .line (c :: cs) = skipGap .line cs := by
  conv => lhs; unfold skipGap
  split
  case h_5 h => exact absurd (List.cons.inj h).1 hc
  case h_6 h => cases h; rfl
  all_goals contradiction

theorem skipGap_block_of_not {c : Char} {cs : List Char} (hc : ¬ ['*', '/'] <+: c :: cs)
    (opening : List Char) : skipGap (.block opening) (c :: cs) = skipGap (.block opening) cs := by
  conv => lhs; unfold skipGap
  split
  case h_8 h => cases h; exact absurd ⟨_, rfl⟩ hc
  case h_9 hg h => cases h; cases hg; rfl
  all_goals contradiction

theorem skipGap_plain_of_not {c : Char} {cs : List Char} (hl : ¬ ['/', '/'] <+: c :: cs)
    (hb : ¬ ['/', '*'] <+: c :: cs) :
    skipGap .plain (c :: cs) = if isBlank c then skipGap .plain cs else .ok (c :: cs) := by
  conv => lhs; unfold skipGap
  split
  case h_1 h => cases h; exact absurd ⟨_, rfl⟩ hl
  case h_2 h => cases h; exact absurd ⟨_, rfl⟩ hb
  case h_3 h => cases h; rfl
  all_goals contradiction

theorem skipGap_line {body : List Char} (h : '\n' ∉ body) (cs : List Char) :
    skipGap .line (body ++ '\n' :: cs) = skipGap .plain cs := by
  induction body with
  | nil => rfl
  | cons c body ih =>
    obtain ⟨hc, hbody⟩ := List.ne_and_not_mem_of_not_mem_cons h
    rw [List.cons_append, skipGap_line_of_ne hc.symm, ih hbody]

theorem skipGap_lastLine {body : List Char} (h : '\n' ∉ body) : skipGap .line body = .ok [] := by
  induction body with
  | nil => rfl
  | cons c body ih =>
    obtain ⟨hc, hbody⟩ := List.ne_and_not_mem_of_not_mem_cons h
    rw [skipGap_line_of_ne hc.symm, ih hbody]

theorem skipGap_block {body : List Char} (h : ¬ ['*', '/'] <:+: body) (opening cs : List Char) :
    skipGap (.block opening) (body ++ '*' :: '/' :: cs) = skipGap .plain cs := by
  induction body with
  | nil => rfl
  | cons c body ih =>
    have hbody := not_infix_of_cons h
    rw [List.cons_append, skipGap_block_of_not _ opening, ih hbody]
    -- a closing bracket cannot begin here: its second character would be in the body
    rintro ⟨cs', hcs'⟩
    obtain ⟨rfl, htail⟩ := List.cons.inj hcs'
    cases body with
    | nil => cases htail
    | cons d body =>
      cases htail
      exact h (List.IsPrefix.isInfix ⟨body, rfl⟩)

theorem skipGap_unclosed {body : List Char} (h : ¬ ['*', '/'] <:+: body) (opening : List Char) :
    skipGap (.block opening) body = .error opening := by
  induction body with
  | nil => rfl
  | cons c body ih =>
    have hbody := not_infix_of_cons h
    rw [skipGap_block_of_not (fun hpre => h hpre.isInfix), ih hbody]

/-- **Gaps are skipped.** -/
theorem IsGap.skipGap_append (h : IsGap g rest) :
    skipGap .plain (g ++ rest) = skipGap .plain rest := by
  induction h with
  | empty => rfl
  | @blank c g rest hc _ ih =>
    have hslash : ∀ d, ¬ ['/', d] <+: c :: (g ++ rest) := by
      rintro d hpre
      obtain ⟨rfl, -⟩ := List.cons_prefix_cons.mp hpre
      revert hc
      decide
    rw [List.cons_append, skipGap_plain_of_not (hslash '/') (hslash '*'), if_pos hc, ih]
  | @line body g rest hb _ ih =>
    change skipGap .line ((body ++ '\n' :: g) ++ rest) = _
    rw [List.append_assoc, List.cons_append, skipGap_line hb, ih]
  | @lastLine body hb =>
    change skipGap .line (body ++ []) = .ok []
    rw [List.append_nil, skipGap_lastLine hb]
  | @block body g rest hb _ ih =>
    change skipGap (.block _) ((body ++ '*' :: '/' :: g) ++ rest) = _
    rw [List.append_assoc, List.cons_append, List.cons_append, skipGap_block hb, ih]

theorem Solid.skipGap_eq (h : Solid cs) : skipGap .plain cs = .ok cs := by
  cases cs with
  | nil => rfl
  | cons c cs =>
    rw [skipGap_plain_of_not h.line h.block, h.blank c rfl]
    rfl

theorem Unclosed.skipGap_eq (h : Unclosed cs) : skipGap .plain cs = .error cs := by
  obtain ⟨body, rfl, hbody⟩ := h
  exact skipGap_unclosed hbody _

/-- A text with a closing bracket has a first one. -/
theorem exists_first_close (cs : List Char) :
    ¬ ['*', '/'] <:+: cs ∨ ∃ body cs', cs = body ++ '*' :: '/' :: cs' ∧ ¬ ['*', '/'] <:+: body := by
  induction cs with
  | nil => exact .inl (by decide)
  | cons c cs ih =>
    by_cases hc : ['*', '/'] <+: c :: cs
    · obtain ⟨cs', hcs'⟩ := hc
      exact .inr ⟨[], cs', hcs'.symm, by decide⟩
    · rcases ih with hno | ⟨body, cs', rfl, hbody⟩
      · exact .inl fun hin => (List.infix_cons_iff.mp hin).elim hc hno
      · refine .inr ⟨c :: body, cs', rfl, fun hin => ?_⟩
        rcases List.infix_cons_iff.mp hin with hpre | hin
        · exact hc (hpre.trans (List.prefix_append (c :: body) _))
        · exact hbody hin

/-- **A text begins with a gap that cannot be extended**, or a comment in its gap has no end. -/
theorem gap_cases (cs : List Char) :
    ∃ g rest, cs = g ++ rest ∧ IsGap g rest ∧ (Solid rest ∨ Unclosed rest) := by
  induction hn : cs.length using Nat.strong_induction_on generalizing cs with
  | _ n ih =>
    subst hn
    by_cases hline : ['/', '/'] <+: cs
    · obtain ⟨body, rfl⟩ := hline
      by_cases hend : '\n' ∈ body
      · obtain ⟨body, cs', rfl, hbody⟩ := List.eq_append_cons_of_mem hend
        obtain ⟨g, rest, rfl, hg, hrest⟩ := ih cs'.length (by simp; omega) cs' rfl
        exact ⟨'/' :: '/' :: (body ++ '\n' :: g), rest, by simp, .line hbody hg, hrest⟩
      · refine ⟨_, [], (List.append_nil _).symm, .lastLine hend, .inl ⟨nofun, ?_, ?_⟩⟩ <;> decide
    · by_cases hblock : ['/', '*'] <+: cs
      · obtain ⟨body, rfl⟩ := hblock
        rcases exists_first_close body with hno | ⟨body, cs', rfl, hbody⟩
        · exact ⟨[], _, rfl, .empty, .inr ⟨body, rfl, hno⟩⟩
        · obtain ⟨g, rest, rfl, hg, hrest⟩ := ih cs'.length (by simp; omega) cs' rfl
          exact ⟨'/' :: '*' :: (body ++ '*' :: '/' :: g), rest, by simp, .block hbody hg, hrest⟩
      · by_cases hblank : ∃ c ∈ cs.head?, isBlank c = true
        · obtain ⟨c, hc, hb⟩ := hblank
          obtain ⟨cs', rfl⟩ : ∃ cs', cs = c :: cs' := List.head?_eq_some_iff.mp hc
          obtain ⟨g, rest, rfl, hg, hrest⟩ := ih cs'.length (by simp) cs' rfl
          exact ⟨c :: g, rest, rfl, .blank hb hg, hrest⟩
        · refine ⟨[], cs, rfl, .empty, .inl ⟨fun c hc => ?_, hline, hblock⟩⟩
          simpa using fun hb => hblank ⟨c, hc, hb⟩

end Gaps

/-! ### Lexemes -/

/-- The operators of two characters. -/
def compounds : List (List Char) := [[':', '='], ['!', '='], ['<', '='], ['>', '=']]

/-- **A lexeme before the rest of a text**, with its kind: all of a run of digits, an operator of
two characters, an operator or delimiter of one character that forms no longer one and opens no
comment, or all of a name, which is of the kind that the lists of reserved words give it. -/
inductive IsLexeme : Kind → List Char → List Char → Prop
  | int {ds rest : List Char} : ds ≠ [] → (∀ c ∈ ds, isDigit c = true) →
      (∀ c ∈ rest.head?, isDigit c = false) → IsLexeme .int ds rest
  | compound {w rest : List Char} : w ∈ compounds → IsLexeme .op w rest
  | simple {c : Char} {rest : List Char} : c ∈ simpleOps →
      (∀ d ∈ rest.head?, [c, d] ∉ compounds ∧ (c = '/' → d ≠ '/' ∧ d ≠ '*')) →
      IsLexeme .op [c] rest
  | name {k : Kind} {c : Char} {cs rest : List Char} : isNameStart c = true →
      (∀ d ∈ cs, isNameChar d = true) → (∀ d ∈ rest.head?, isNameChar d = false) →
      IsNameKind k (String.ofList (c :: cs)) → IsLexeme k (c :: cs) rest

section Lexemes

variable {k : Kind} {w rest : List Char} {t : Token} {cs : List Char}

theorem IsLexeme.ne_nil (h : IsLexeme k w rest) : w ≠ [] := by
  cases h with
  | int hne _ _ => exact hne
  | compound hw =>
    rintro rfl
    revert hw
    decide
  | simple _ _ => exact List.cons_ne_nil _ _
  | name _ _ _ _ => exact List.cons_ne_nil _ _

/-- A lexeme is one before less of the text too. -/
theorem IsLexeme.before {more : List Char} (h : IsLexeme k w (rest ++ more)) :
    IsLexeme k w rest := by
  have hhead : ∀ c ∈ rest.head?, c ∈ (rest ++ more).head? := by
    rintro c hc
    obtain ⟨cs, rfl⟩ := List.head?_eq_some_iff.mp hc
    rfl
  cases h with
  | int hne hds hrest => exact .int hne hds fun c hc => hrest c (hhead c hc)
  | compound hw => exact .compound hw
  | simple hc hrest => exact .simple hc fun d hd => hrest d (hhead d hd)
  | name hc hcs hrest hk => exact .name hc hcs (fun d hd => hrest d (hhead d hd)) hk

/-- The characters of operators begin neither numbers nor names, nor are they blank. -/
theorem operator_class {c : Char} (h : c ∈ simpleOps ++ compoundOps) :
    isDigit c = false ∧ isNameStart c = false ∧ isBlank c = false := by
  have hall : (simpleOps ++ compoundOps).all fun c =>
      !isDigit c && !isNameStart c && !isBlank c := by decide
  simpa [and_assoc] using List.all_eq_true.mp hall c h

/-- Digits of whatever script are neither blank nor slashes. -/
theorem digit_class {c : Char} (h : isDigit c = true) : isBlank c = false ∧ c ≠ '/' := by
  have hcode : ∀ z ∈ zeros, ∀ i < 10, isBlankCode (z + i) = false ∧ z + i ≠ '/'.toNat := by
    decide +kernel
  rw [isDigit, digitValue?, Option.isSome_map, List.find?_isSome] at h
  obtain ⟨z, hz, hc⟩ := h
  simp only [Bool.and_eq_true, decide_eq_true_eq] at hc
  have hclass := hcode z hz (c.toNat - z) (by omega)
  rw [Nat.add_sub_cancel' hc.1] at hclass
  exact ⟨hclass.1, fun heq => hclass.2 (congrArg Char.toNat heq)⟩

theorem Solid.of_ne_slash {c : Char} (hb : isBlank c = false) (hc : c ≠ '/') (cs : List Char) :
    Solid (c :: cs) := by
  refine ⟨fun d hd => ?_, fun hpre => hc ?_, fun hpre => hc ?_⟩
  · cases hd
    exact hb
  · exact (List.cons_prefix_cons.mp hpre).1.symm
  · exact (List.cons_prefix_cons.mp hpre).1.symm

theorem mem_compounds_iff : w ∈ compounds ↔ ∃ c ∈ compoundOps, w = [c, '='] := by
  simp [compounds, compoundOps]

/-- **No gap begins where a lexeme stands.** -/
theorem IsLexeme.solid (h : IsLexeme k w rest) : Solid (w ++ rest) := by
  cases h with
  | int hne hds _ =>
    obtain ⟨c, ds, rfl⟩ := List.exists_cons_of_ne_nil hne
    obtain ⟨hb, hc⟩ := digit_class (hds c List.mem_cons_self)
    exact .of_ne_slash hb hc _
  | compound hw =>
    obtain ⟨c, hc, rfl⟩ := mem_compounds_iff.mp hw
    have hslash : c ≠ '/' := by
      rintro rfl
      revert hc
      decide
    exact .of_ne_slash (operator_class (List.mem_append_right _ hc)).2.2 hslash _
  | @simple c _ hc hrest =>
    have hb := (operator_class (List.mem_append_left _ hc)).2.2
    by_cases hslash : c = '/'
    · subst hslash
      -- what follows would make it a comment
      refine ⟨fun d hd => by cases hd; exact hb, ?_, ?_⟩
      · rintro ⟨cs, hcs⟩
        cases hcs
        exact ((hrest '/' rfl).2 rfl).1 rfl
      · rintro ⟨cs, hcs⟩
        cases hcs
        exact ((hrest '*' rfl).2 rfl).2 rfl
    · exact .of_ne_slash hb hslash _
  | name hc _ _ _ =>
    obtain ⟨-, hb, hslash⟩ := isNameStart_class hc
    exact .of_ne_slash hb hslash _

theorem IsLexeme.operator? {c : Char} (hc : c ∈ simpleOps)
    (h : ∀ d ∈ rest.head?, [c, d] ∉ compounds) :
    CallBy.operator? c rest = some (⟨.op, String.ofList [c]⟩, rest) := by
  unfold CallBy.operator?
  split
  · have hno : c ∉ compoundOps := fun hmem => h '=' rfl (mem_compounds_iff.mpr ⟨c, hmem, rfl⟩)
    rw [if_neg hno, if_pos hc]
  · rw [if_pos hc]

/-- **A lexeme is taken**, and no more than it. -/
theorem IsLexeme.lexeme?_eq (h : IsLexeme k w rest) :
    lexeme? (w ++ rest) = some (⟨k, String.ofList w⟩, rest) := by
  cases h with
  | int hne hds hrest =>
    obtain ⟨c, ds, rfl⟩ := List.exists_cons_of_ne_nil hne
    obtain ⟨hc, hds⟩ := List.forall_mem_cons.mp hds
    obtain ⟨htake, hdrop⟩ := takeWhile_of_stops hds hrest
    rw [List.cons_append, lexeme?, if_pos hc, htake, hdrop]
  | compound hw =>
    obtain ⟨c, hc, rfl⟩ := mem_compounds_iff.mp hw
    obtain ⟨hd, hn, -⟩ := operator_class (List.mem_append_right simpleOps hc)
    rw [List.cons_append, List.cons_append, lexeme?, hd, hn, if_neg Bool.false_ne_true,
      if_neg Bool.false_ne_true, CallBy.operator?, if_pos hc]
    rfl
  | simple hc hrest =>
    obtain ⟨hd, hn, -⟩ := operator_class (List.mem_append_left compoundOps hc)
    rw [List.cons_append, lexeme?, hd, hn, if_neg Bool.false_ne_true, if_neg Bool.false_ne_true]
    exact IsLexeme.operator? hc fun d hd => (hrest d hd).1
  | name hc hcs hrest hk =>
    obtain ⟨hd, -, -⟩ := isNameStart_class hc
    obtain ⟨htake, hdrop⟩ := takeWhile_of_stops hcs hrest
    rw [List.cons_append, lexeme?, hd, hc, if_neg Bool.false_ne_true, if_pos rfl, htake, hdrop,
      isNameKind_iff.mp hk]

theorem head?_dropWhile {p : Char → Bool} (cs : List Char) :
    ∀ c ∈ (cs.dropWhile p).head?, p c = false := by
  intro c hc
  have h := List.head?_dropWhile_not p cs
  rw [hc] at h
  exact h

theorem isLexeme_of_operator? {c : Char} (hs : Solid (c :: cs))
    (h : operator? c cs = some (t, rest)) : IsLexeme t.kind t.text.toList rest := by
  have simple : ∀ {cs' : List Char}, cs = cs' → c ∈ simpleOps →
      (∀ d ∈ cs'.head?, [c, d] ∉ compounds) → IsLexeme .op [c] cs' := by
    rintro cs' rfl hc hno
    refine .simple hc fun d hd => ⟨hno d hd, ?_⟩
    rintro rfl
    obtain ⟨cs', rfl⟩ := List.head?_eq_some_iff.mp hd
    exact ⟨by rintro rfl; exact hs.line ⟨cs', rfl⟩, by rintro rfl; exact hs.block ⟨cs', rfl⟩⟩
  unfold operator? at h
  split at h
  · split at h
    · next hc =>
      cases h
      rw [String.toList_ofList]
      exact .compound (mem_compounds_iff.mpr ⟨c, hc, rfl⟩)
    · next hnot =>
      split at h
      · next hc =>
        cases h
        rw [String.toList_ofList]
        refine simple rfl hc fun d hd hmem => hnot ?_
        obtain ⟨c', hc', heq⟩ := mem_compounds_iff.mp hmem
        cases heq
        exact hc'
      · cases h
  · next hne =>
    split at h
    · next hc =>
      cases h
      rw [String.toList_ofList]
      refine simple rfl hc fun d hd hmem => ?_
      obtain ⟨c', -, heq⟩ := mem_compounds_iff.mp hmem
      cases heq
      obtain ⟨cs', rfl⟩ := List.head?_eq_some_iff.mp hd
      exact hne cs' rfl
    · cases h

/-- **What is taken for a lexeme is one.** -/
theorem isLexeme_of_lexeme? (hs : Solid cs) (h : lexeme? cs = some (t, rest)) :
    IsLexeme t.kind t.text.toList rest := by
  unfold lexeme? at h
  split at h
  · cases h
  · next c cs =>
    split at h
    · next hc =>
      cases h
      rw [String.toList_ofList]
      refine .int (List.cons_ne_nil _ _) (List.forall_mem_cons.mpr ⟨hc, fun d hd => ?_⟩)
        (head?_dropWhile cs)
      exact List.mem_takeWhile_imp hd
    · split at h
      · next hc =>
        cases h
        rw [String.toList_ofList]
        exact .name hc (fun d hd => List.mem_takeWhile_imp hd) (head?_dropWhile cs)
          (isNameKind_iff.mpr rfl)
      · exact isLexeme_of_operator? hs h

end Lexemes

/-! ### Whole texts -/

/-- **The text is a gap and then lexemes, each with a gap after it.** -/
inductive Lexes : List Char → List Char → List (Token × List Char) → Prop
  | last {g : List Char} : IsGap g [] → Lexes g g []
  | next {g : List Char} {t : Token} {text g' : List Char} {ps : List (Token × List Char)} :
      IsGap g (t.text.toList ++ text) → IsLexeme t.kind t.text.toList text → Lexes text g' ps →
      Lexes (g ++ (t.text.toList ++ text)) g ((t, g') :: ps)

/-- The place of the failure. -/
def LexError.pos : LexError → Nat
  | .unterminatedComment p => p
  | .unexpectedChar p _ => p

/-- **What stands where the reader fails**: a comment without an end, or a character that begins
neither a gap nor a lexeme. -/
def LexError.StandsAt (cs : List Char) : LexError → Prop
  | .unterminatedComment _ => Unclosed cs
  | .unexpectedChar _ c => cs.head? = some c ∧ Solid cs ∧
      ∀ k w rest, cs = w ++ rest → ¬ IsLexeme k w rest

section Texts

variable {text g : List Char} {ps : List (Token × List Char)}

/-- How the reading of a text begins. -/
theorem Lexes.begins (h : Lexes text g ps) :
    ∃ rest, text = g ++ rest ∧ skipGap .plain text = .ok rest ∧
      (rest = [] ∧ ps = [] ∨ ∃ t after g' ps', lexeme? rest = some (t, after) ∧
        Lexes after g' ps' ∧ ps = (t, g') :: ps') := by
  cases h with
  | last hg =>
    have hskip := hg.skipGap_append
    rw [List.append_nil] at hskip
    exact ⟨[], (List.append_nil _).symm, hskip, .inl ⟨rfl, rfl⟩⟩
  | @next _ t after g' ps hg ht hafter =>
    refine ⟨_, rfl, hg.skipGap_append.trans ht.solid.skipGap_eq, .inr ⟨t, after, g', ps, ?_⟩⟩
    rw [ht.lexeme?_eq, String.ofList_toList]
    exact ⟨rfl, hafter, rfl⟩

/-- **A text that can be read is read so.** -/
theorem Lexes.lexFrom_eq (h : Lexes text g ps) (total : Nat) :
    lexFrom total text = ⟨ps.map (·.1), none⟩ := by
  induction ps generalizing text g with
  | nil =>
    obtain ⟨rest, -, hskip, ⟨rfl, -⟩ | ⟨_, _, _, _, _, _, ⟨⟩⟩⟩ := h.begins
    rw [CallBy.lexFrom_eq, hskip]
    rfl
  | cons p ps ih =>
    obtain ⟨rest, -, hskip, ⟨_, ⟨⟩⟩ | ⟨t, after, g', _, hlex, hafter, ⟨⟩⟩⟩ := h.begins
    rw [lexFrom_of_lexeme hskip hlex, ih hafter]
    rfl

/-- **There is at most one way to read a text.** -/
theorem Lexes.unique {g' : List Char} {ps' : List (Token × List Char)} (h : Lexes text g ps)
    (h' : Lexes text g' ps') : g = g' ∧ ps = ps' := by
  induction ps generalizing text g g' ps' with
  | nil =>
    obtain ⟨rest, htext, hskip, ⟨rfl, -⟩ | ⟨_, _, _, _, _, _, ⟨⟩⟩⟩ := h.begins
    obtain ⟨rest', htext', hskip', hrest'⟩ := h'.begins
    obtain rfl : [] = rest' := Except.ok.inj (hskip.symm.trans hskip')
    rcases hrest' with ⟨-, rfl⟩ | ⟨_, _, _, _, ⟨⟩, _, _⟩
    exact ⟨List.append_cancel_right (htext.symm.trans htext'), rfl⟩
  | cons p ps ih =>
    obtain ⟨rest, htext, hskip, ⟨_, ⟨⟩⟩ | ⟨t, after, k, _, hlex, hafter, ⟨⟩⟩⟩ := h.begins
    obtain ⟨rest', htext', hskip', hrest'⟩ := h'.begins
    obtain rfl : rest = rest' := Except.ok.inj (hskip.symm.trans hskip')
    rcases hrest' with ⟨rfl, -⟩ | ⟨t', after', k', ps', hlex', hafter', rfl⟩
    · cases hlex
    · cases hlex.symm.trans hlex'
      obtain ⟨rfl, rfl⟩ := ih hafter hafter'
      exact ⟨List.append_cancel_right (htext.symm.trans htext'), rfl⟩

/-- **What the reader does with a text**: it reads all of it, or what comes before a place where
nothing can be read. -/
theorem lexFrom_cases (total : Nat) (cs : List Char) :
    (∃ g ps, Lexes cs g ps) ∨ ∃ pre bad g ps e, cs = pre ++ bad ∧ Lexes pre g ps ∧
      lexFrom total cs = ⟨ps.map (·.1), some e⟩ ∧ e.pos = total - bad.length ∧ e.StandsAt bad := by
  induction hn : cs.length using Nat.strong_induction_on generalizing cs with
  | _ n ih =>
    subst hn
    obtain ⟨g, rest, rfl, hg, hrest⟩ := gap_cases cs
    have hskip := hg.skipGap_append
    rcases hrest with hs | hun
    · rw [hs.skipGap_eq] at hskip
      cases hl : lexeme? rest with
      | none =>
        cases rest with
        | nil => exact .inl ⟨g, [], by simpa using Lexes.last hg⟩
        | cons c cs =>
          refine .inr ⟨g, c :: cs, g, [], .unexpectedChar (total - (c :: cs).length) c, rfl,
            .last (hg.before nofun), ?_, rfl, rfl, hs, ?_⟩
          · rw [lexFrom_eq, hskip, lexAfterGap, hl]
            rfl
          · intro k w rest heq hlex
            rw [heq, hlex.lexeme?_eq] at hl
            cases hl
      | some p =>
        obtain ⟨t, after⟩ := p
        have ht := isLexeme_of_lexeme? hs hl
        obtain rfl : t.text.toList ++ after = rest := lexeme?_append hl
        have hne : t.text.toList ++ after ≠ [] :=
          fun heq => ht.ne_nil (List.append_eq_nil_iff.mp heq).1
        have hlt : after.length < (g ++ (t.text.toList ++ after)).length := by
          have := List.length_pos_iff.mpr ht.ne_nil
          simp only [List.length_append]
          omega
        rcases ih after.length hlt after rfl with
          ⟨g', ps, hread⟩ | ⟨pre, bad, g', ps, e, rfl, hread, hlex, hpos, hbad⟩
        · exact .inl ⟨g, (t, g') :: ps, .next hg ht hread⟩
        · refine .inr ⟨g ++ (t.text.toList ++ pre), bad, g, (t, g') :: ps, e, by simp,
            .next (hg.before fun heq => absurd heq hne) ht.before hread, ?_, hpos, hbad⟩
          rw [lexFrom_of_lexeme hskip hl, hlex]
          rfl
    · rw [hun.skipGap_eq] at hskip
      refine .inr ⟨g, rest, g, [], .unterminatedComment (total - rest.length), rfl,
        .last (hg.before fun _ => rfl), ?_, rfl, hun⟩
      rw [lexFrom_eq, hskip]
      rfl

/-- **The reader takes the longest lexemes.** It succeeds on exactly the texts that are gaps and
lexemes in turn, in one way only, and yields these lexemes. Where it fails, it would have read what
comes before, and there stands a comment without an end or a character that begins nothing. -/
theorem lex_maximal_munch (source : String) :
    (∀ ts, lex source = ⟨ts, none⟩ ↔ ∃ g ps, Lexes source.toList g ps ∧ ps.map (·.1) = ts) ∧
    (∀ g ps g' ps', Lexes source.toList g ps → Lexes source.toList g' ps' → g = g' ∧ ps = ps') ∧
    ∀ e, (lex source).failure = some e →
      lex (String.ofList (source.toList.take e.pos)) = ⟨(lex source).tokens, none⟩ ∧
      e.StandsAt (source.toList.drop e.pos) := by
  refine ⟨fun ts => ⟨fun hlex => ?_, ?_⟩, fun _ _ _ _ h h' => h.unique h', fun e he => ?_⟩
  · rcases lexFrom_cases source.length source.toList with
      ⟨g, ps, hread⟩ | ⟨_, _, _, _, e, _, _, hfail, _, _⟩
    · have hts := (hread.lexFrom_eq source.length).symm.trans hlex
      exact ⟨g, ps, hread, congrArg Lexed.tokens hts⟩
    · cases hfail.symm.trans hlex
  · rintro ⟨g, ps, hread, rfl⟩
    exact hread.lexFrom_eq source.length
  · rcases lexFrom_cases source.length source.toList with
      ⟨g, ps, hread⟩ | ⟨pre, bad, g, ps, e', hsource, hread, hfail, hpos, hbad⟩
    · rw [lex, hread.lexFrom_eq] at he
      cases he
    · have hlex : lex source = ⟨ps.map (·.1), some e'⟩ := hfail
      rw [hlex] at he ⊢
      cases he
      have hlen : e.pos = pre.length := by
        rw [hpos, ← String.length_toList, hsource, List.length_append, Nat.add_sub_cancel]
      rw [hsource, hlen, List.take_left, List.drop_left, lex, String.toList_ofList]
      exact ⟨hread.lexFrom_eq _, hbad⟩

-- a comment that a slash after its opening does not close
example : lex "1 /*/ 2 */<=" = ⟨[⟨.int, "1"⟩, ⟨.op, "<="⟩], none⟩ := by decide +kernel

end Texts

end CallBy
