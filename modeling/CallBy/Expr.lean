import CallBy.Prim

/-!
Expressions of the language, an induction principle that reaches into argument lists and
definitions, and decidable equality.
-/

namespace CallBy

/-- An expression.

Operators are kept by their symbols: an expression may hold any symbol, and one that stands for no
operator is reported only when the expression is evaluated. A `datum` is a value placed where an
expression belongs; it is known by its two texts, the shown and the inspected one, and evaluating
it is an error. -/
inductive Expr where
  | int (n : Int)
  | bool (b : Bool)
  | null
  | prim (p : Prim)
  | var (x : String)
  | unary (op : String) (arg : Expr)
  | binary (op : String) (left right : Expr)
  | ite (test conseq alt : Expr)
  | map (params : List String) (body : Expr)
  | app (fn : Expr) (args : List Expr)
  | letIn (defs : List (String × Expr)) (body : Expr)
  | datum (shown inspected : String)
  deriving Repr, Inhabited

namespace Expr

/-- The `let` of some variables and as many defining expressions; `none` if the numbers differ. -/
def letOf? (vars : List String) (exps : List Expr) (body : Expr) : Option Expr :=
  if vars.length = exps.length then some (.letIn (vars.zip exps) body) else none

/-- Induction on expressions, with a hypothesis for every argument of an application and for every
defining expression of a `let`. -/
@[induction_eliminator]
theorem induct {P : Expr → Prop} (int : ∀ n, P (.int n)) (bool : ∀ b, P (.bool b))
    (null : P .null) (prim : ∀ p, P (.prim p)) (var : ∀ x, P (.var x))
    (unary : ∀ op arg, P arg → P (.unary op arg))
    (binary : ∀ op left right, P left → P right → P (.binary op left right))
    (ite : ∀ test conseq alt, P test → P conseq → P alt → P (.ite test conseq alt))
    (map : ∀ params body, P body → P (.map params body))
    (app : ∀ fn args, P fn → (∀ a ∈ args, P a) → P (.app fn args))
    (letIn : ∀ defs body, (∀ d ∈ defs, P d.2) → P body → P (.letIn defs body))
    (datum : ∀ shown inspected, P (.datum shown inspected)) (e : Expr) : P e :=
  @Expr.rec P (fun args => ∀ a ∈ args, P a) (fun defs => ∀ d ∈ defs, P d.2) (fun d => P d.2)
    int bool null prim var unary binary ite map app letIn datum
    (fun _ h => nomatch h)
    (fun _ _ hd tl => List.forall_mem_cons.2 ⟨hd, tl⟩)
    (fun _ h => nomatch h)
    (fun _ _ hd tl => List.forall_mem_cons.2 ⟨hd, tl⟩)
    (fun _ _ h => h) e

mutual

/-- The two expressions are the same tree. -/
def same : Expr → Expr → Bool
  | .int m, .int n => m == n
  | .bool a, .bool b => a == b
  | .null, .null => true
  | .prim p, .prim q => p == q
  | .var x, .var y => x == y
  | .unary op a, .unary op' a' => op == op' && same a a'
  | .binary op l r, .binary op' l' r' => op == op' && same l l' && same r r'
  | .ite t c a, .ite t' c' a' => same t t' && same c c' && same a a'
  | .map ps b, .map ps' b' => ps == ps' && same b b'
  | .app f as, .app f' as' => same f f' && sameArgs as as'
  | .letIn ds b, .letIn ds' b' => sameDefs ds ds' && same b b'
  | .datum s i, .datum s' i' => s == s' && i == i'
  | _, _ => false

/-- The two argument lists are the same. -/
def sameArgs : List Expr → List Expr → Bool
  | [], [] => true
  | a :: as, b :: bs => same a b && sameArgs as bs
  | _, _ => false

/-- The two lists of definitions are the same. -/
def sameDefs : List (String × Expr) → List (String × Expr) → Bool
  | [], [] => true
  | (x, a) :: ds, (y, b) :: ds' => x == y && same a b && sameDefs ds ds'
  | _, _ => false

end

theorem sameArgs_iff_of {as : List Expr} (h : ∀ a ∈ as, ∀ b, same a b = true ↔ a = b) :
    ∀ bs, sameArgs as bs = true ↔ as = bs := by
  induction as with
  | nil => intro bs; cases bs <;> simp [sameArgs]
  | cons a as ih =>
    intro bs
    have ⟨ha, has⟩ := List.forall_mem_cons.1 h
    cases bs <;> simp [sameArgs, ha, ih has]

theorem sameDefs_iff_of {ds : List (String × Expr)}
    (h : ∀ d ∈ ds, ∀ b, same d.2 b = true ↔ d.2 = b) :
    ∀ ds', sameDefs ds ds' = true ↔ ds = ds' := by
  induction ds with
  | nil => intro ds'; cases ds' <;> simp [sameDefs]
  | cons d ds ih =>
    intro ds'
    obtain ⟨x, a⟩ := d
    have ⟨ha, has⟩ := List.forall_mem_cons.1 h
    rcases ds' with _ | ⟨⟨y, b⟩, ds'⟩
    · simp [sameDefs]
    · simp [sameDefs, ha b, ih has, and_assoc]

/-- The test for one tree decides equality. -/
theorem same_iff (a b : Expr) : same a b = true ↔ a = b := by
  induction a generalizing b with
  | app f as hf has => cases b <;> simp [same, hf, sameArgs_iff_of has]
  | letIn ds e hds he => cases b <;> simp [same, he, sameDefs_iff_of hds]
  | _ => cases b <;> simp_all [same, and_assoc]

instance : DecidableEq Expr := fun a b => decidable_of_iff _ (same_iff a b)

end Expr

end CallBy
