import CallBy.Expr.Parser

/-!
The form of expressions: distinct names (`Expr.Distinct`), and the expressions that program texts
can spell (`Expr.WellFormed`).
-/

namespace CallBy

namespace Expr

/-- In every `let` and every `map` of the expression the bound names are pairwise distinct. -/
inductive Distinct : Expr → Prop
  | int (n : Int) : Distinct (.int n)
  | bool (b : Bool) : Distinct (.bool b)
  | null : Distinct .null
  | prim (p : Prim) : Distinct (.prim p)
  | var (x : String) : Distinct (.var x)
  | datum (s i : String) : Distinct (.datum s i)
  | unary {op : String} {a : Expr} : Distinct a → Distinct (.unary op a)
  | binary {op : String} {l r : Expr} : Distinct l → Distinct r → Distinct (.binary op l r)
  | ite {t c a : Expr} : Distinct t → Distinct c → Distinct a → Distinct (.ite t c a)
  | map {ps : List String} {b : Expr} : ps.Nodup → Distinct b → Distinct (.map ps b)
  | app {f : Expr} {as : List Expr} : Distinct f → (∀ a ∈ as, Distinct a) → Distinct (.app f as)
  | letIn {ds : List (String × Expr)} {b : Expr} : (ds.map (·.1)).Nodup →
      (∀ d ∈ ds, Distinct d.2) → Distinct b → Distinct (.letIn ds b)

/-- The text is a word: a letter, underscore or question mark and then such characters and
digits. -/
def IsWord (x : String) : Prop :=
  ∃ c cs, x.toList = c :: cs ∧ isNameStart c = true ∧ ∀ c ∈ cs, isNameChar c = true

theorem isWord_iff (x : String) : IsWord x ↔
    (match x.toList with
      | [] => false
      | c :: cs => isNameStart c && cs.all isNameChar) = true := by
  unfold IsWord
  cases x.toList with
  | nil => simp
  | cons c cs =>
    simp only [Bool.and_eq_true, List.all_eq_true]
    constructor
    · rintro ⟨_, _, ⟨⟩, hc, hcs⟩
      exact ⟨hc, hcs⟩
    · exact fun ⟨hc, hcs⟩ => ⟨c, cs, rfl, hc, hcs⟩

instance : DecidablePred IsWord := fun x => decidable_of_iff _ (isWord_iff x).symm

/-- The text is a name that is free for variables: a word, and no keyword, literal or primitive. -/
def IsName (x : String) : Prop := IsWord x ∧ Kind.ofName x = .id

/-- The symbols of the unary operators. -/
def unarySymbols : List String := ["+", "-", "~"]

/-- The symbols that can stand between two operands. -/
def binarySymbols : List String :=
  ["|", "&", "=", "!=", "<", ">", "<=", ">=", "+", "-", "*", "/"]

/-- **The expression can be spelled**: its integers are not negative, its operators and primitives
are known, its names are free for variables, its `let`s have definitions, and no `let` or `map`
binds a name twice. -/
inductive WellFormed : Expr → Prop
  | int {n : Int} : 0 ≤ n → WellFormed (.int n)
  | bool (b : Bool) : WellFormed (.bool b)
  | null : WellFormed .null
  | prim {p : Prim} : p ∈ Prim.named → WellFormed (.prim p)
  | var {x : String} : IsName x → WellFormed (.var x)
  | unary {op : String} {a : Expr} : op ∈ unarySymbols → WellFormed a → WellFormed (.unary op a)
  | binary {op : String} {l r : Expr} : op ∈ binarySymbols → WellFormed l → WellFormed r →
      WellFormed (.binary op l r)
  | ite {t c a : Expr} : WellFormed t → WellFormed c → WellFormed a → WellFormed (.ite t c a)
  | map {ps : List String} {b : Expr} : (∀ x ∈ ps, IsName x) → ps.Nodup → WellFormed b →
      WellFormed (.map ps b)
  | app {f : Expr} {as : List Expr} : WellFormed f → (∀ a ∈ as, WellFormed a) →
      WellFormed (.app f as)
  | letIn {ds : List (String × Expr)} {b : Expr} : ds ≠ [] → (∀ d ∈ ds, IsName d.1) →
      (ds.map (·.1)).Nodup → (∀ d ∈ ds, WellFormed d.2) → WellFormed b → WellFormed (.letIn ds b)

theorem mem_unarySymbols {op : String} :
    op ∈ unarySymbols ↔ (UnaryOp.ofSymbol? op).isSome = true := by
  constructor
  · revert op
    decide
  · intro h
    unfold UnaryOp.ofSymbol? at h
    split at h <;> simp_all [unarySymbols]

theorem mem_binarySymbols {op : String} : op ∈ binarySymbols ↔ (precedence? op).isSome = true := by
  constructor
  · revert op
    decide
  · intro h
    unfold precedence? at h
    split at h <;> simp_all [binarySymbols]

end Expr

end CallBy
