import CallBy.Proofs.Form

/-!
Negative integers in expressions.

No text spells a negative integer. Its own text is read as an operator with an operand, and the
operand takes in the arguments that the integer is applied to: the text `-2(x)` of an application of
`-2` spells the negative of an application of `2`.

* `Expr.FormedUpToSign`: the well-formed expressions, with negative integers among them;
* `Expr.reread`: what the text of such an expression spells. `Expr.unsigned` is what it spells
  without the sign that it may begin with (`Expr.isNegative`);
* `Expr.WellFormed.reread_eq`: well-formed expressions are reread as they are.
-/

namespace CallBy.Expr

/-- **The expression is well formed but for the signs of integers.** -/
inductive FormedUpToSign : Expr → Prop
  | int (n : Int) : FormedUpToSign (.int n)
  | bool (b : Bool) : FormedUpToSign (.bool b)
  | null : FormedUpToSign .null
  | prim {p : Prim} : p ∈ Prim.named → FormedUpToSign (.prim p)
  | var {x : String} : IsName x → FormedUpToSign (.var x)
  | unary {op : String} {a : Expr} : op ∈ unarySymbols → FormedUpToSign a →
      FormedUpToSign (.unary op a)
  | binary {op : String} {l r : Expr} : op ∈ binarySymbols → FormedUpToSign l →
      FormedUpToSign r → FormedUpToSign (.binary op l r)
  | ite {t c a : Expr} : FormedUpToSign t → FormedUpToSign c → FormedUpToSign a →
      FormedUpToSign (.ite t c a)
  | map {ps : List String} {b : Expr} : (∀ x ∈ ps, IsName x) → ps.Nodup → FormedUpToSign b →
      FormedUpToSign (.map ps b)
  | app {f : Expr} {as : List Expr} : FormedUpToSign f → (∀ a ∈ as, FormedUpToSign a) →
      FormedUpToSign (.app f as)
  | letIn {ds : List (String × Expr)} {b : Expr} : ds ≠ [] → (∀ d ∈ ds, IsName d.1) →
      (ds.map (·.1)).Nodup → (∀ d ∈ ds, FormedUpToSign d.2) → FormedUpToSign b →
      FormedUpToSign (.letIn ds b)

/-- The expression is a negative integer, applied any number of times. -/
def isNegative : Expr → Bool
  | .int n => n < 0
  | .app f _ => f.isNegative
  | _ => false

/-- The operand `u` with the sign that the text of the expression begins with. -/
def withSign (e u : Expr) : Expr := if e.isNegative then .unary "-" u else u

mutual

/-- What the text of the expression spells without the sign that it may begin with. -/
def unsigned : Expr → Expr
  | .int n => .int n.natAbs
  | .unary op a => .unary op (a.withSign a.unsigned)
  | .binary op l r => .binary op (l.withSign l.unsigned) (r.withSign r.unsigned)
  | .ite t c a => .ite (t.withSign t.unsigned) (c.withSign c.unsigned) (a.withSign a.unsigned)
  | .map ps b => .map ps (b.withSign b.unsigned)
  | .app f as => .app f.unsigned (rereadArgs as)
  | .letIn ds b => .letIn (rereadDefs ds) (b.withSign b.unsigned)
  | .bool b => .bool b
  | .null => .null
  | .prim p => .prim p
  | .var x => .var x
  | .datum s i => .datum s i

/-- What the texts of the arguments spell. -/
def rereadArgs : List Expr → List Expr
  | [] => []
  | a :: as => a.withSign a.unsigned :: rereadArgs as

/-- What the texts of the definitions spell. -/
def rereadDefs : List (String × Expr) → List (String × Expr)
  | [] => []
  | (x, e) :: ds => (x, e.withSign e.unsigned) :: rereadDefs ds

end

/-- **What the text of the expression spells.** -/
def reread (e : Expr) : Expr := e.withSign e.unsigned

@[simp] theorem withSign_unsigned (e : Expr) : e.withSign e.unsigned = e.reread := rfl

@[simp] theorem rereadArgs_eq_map (as : List Expr) : rereadArgs as = as.map reread := by
  induction as with
  | nil => rfl
  | cons a as ih => simp [rereadArgs, ih]

@[simp] theorem rereadDefs_eq_map (ds : List (String × Expr)) :
    rereadDefs ds = ds.map fun p => (p.1, p.2.reread) := by
  induction ds with
  | nil => rfl
  | cons p ds ih => simp [rereadDefs, ih]

variable {e : Expr}

theorem reread_of_isNegative (h : e.isNegative = true) : e.reread = .unary "-" e.unsigned :=
  if_pos h

theorem reread_of_not_isNegative (h : e.isNegative = false) : e.reread = e.unsigned :=
  if_neg (by rw [h]; decide)

/-- In a well-formed expression there is no sign to be read as an operator. -/
theorem WellFormed.unsigned_eq (h : e.WellFormed) : e.isNegative = false ∧ e.unsigned = e := by
  have self : ∀ {a : Expr}, a.isNegative = false ∧ a.unsigned = a → a.reread = a :=
    fun ha => (reread_of_not_isNegative ha.1).trans ha.2
  induction h with
  | int hn => exact ⟨by simpa [isNegative] using hn, by simp [unsigned, Int.natAbs_of_nonneg hn]⟩
  | bool | null | prim | var => exact ⟨rfl, rfl⟩
  | unary _ _ iha => exact ⟨rfl, by simp [unsigned, self iha]⟩
  | binary _ _ _ ihl ihr => exact ⟨rfl, by simp [unsigned, self ihl, self ihr]⟩
  | ite _ _ _ iht ihc iha => exact ⟨rfl, by simp [unsigned, self iht, self ihc, self iha]⟩
  | map _ _ _ ihb => exact ⟨rfl, by simp [unsigned, self ihb]⟩
  | app _ _ ihf ihas =>
    have hargs := List.map_congr_left fun a ha => self (ihas a ha)
    exact ⟨ihf.1, by simp [unsigned, ihf.2, hargs]⟩
  | letIn _ _ _ _ _ ihds ihb =>
    have hdefs := List.map_congr_left fun p hp => congrArg (Prod.mk p.1) (self (ihds p hp))
    exact ⟨rfl, by simp [unsigned, self ihb, hdefs]⟩

/-- **Well-formed expressions are reread as they are.** -/
theorem WellFormed.reread_eq (h : e.WellFormed) : e.reread = e :=
  (reread_of_not_isNegative h.unsigned_eq.1).trans h.unsigned_eq.2

theorem WellFormed.upToSign (h : e.WellFormed) : e.FormedUpToSign := by
  induction h with
  | @int n _ => exact .int n
  | bool b => exact .bool b
  | null => exact .null
  | prim hp => exact .prim hp
  | var hx => exact .var hx
  | unary hop _ iha => exact .unary hop iha
  | binary hop _ _ ihl ihr => exact .binary hop ihl ihr
  | ite _ _ _ iht ihc iha => exact .ite iht ihc iha
  | map hxs hnodup _ ihb => exact .map hxs hnodup ihb
  | app _ _ ihf ihas => exact .app ihf ihas
  | letIn hne hnames hnodup _ _ ihds ihb => exact .letIn hne hnames hnodup ihds ihb

end CallBy.Expr
