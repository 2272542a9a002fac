import CallBy.Expr

/-!
The program text of an expression. Operands are put in parentheses by their form alone: constants,
names and applications stand bare, everything else is enclosed.
-/

namespace CallBy.Expr

/-- The expression stands as an operand without parentheses. -/
def isAtomic : Expr → Bool
  | .int _ | .bool _ | .null | .prim _ | .var _ | .app _ _ => true
  | _ => false

/-- The text of an operand, given whether it stands bare and its own text. -/
def enclosed (bare : Bool) (s : String) : String := if bare then s else "(" ++ s ++ ")"

/-- The word for a truth value. -/
def boolWord (b : Bool) : String := if b then "true" else "false"

/-- The head of a function text, up to its body. -/
def mapHead (params : List String) : String :=
  if params.isEmpty then "map to " else "map " ++ ", ".intercalate params ++ " to "

mutual

/-- **The program text of an expression.** -/
def render : Expr → String
  | .int n => n.repr
  | .bool b => boolWord b
  | .null => "null"
  | .prim p => p.name
  | .var x => x
  | .unary op a => op ++ enclosed a.isAtomic (render a)
  | .binary op l r =>
    enclosed l.isAtomic (render l) ++ " " ++ op ++ " " ++ enclosed r.isAtomic (render r)
  | .ite t c a => "if " ++ render t ++ " then " ++ render c ++ " else " ++ render a
  | .map ps b => mapHead ps ++ render b
  | .app f as => enclosed f.isAtomic (render f) ++ "(" ++ ", ".intercalate (renderArgs as) ++ ")"
  | .letIn ds b => "let " ++ " ".intercalate (renderDefs ds) ++ " in " ++ render b
  | .datum s _ => s

/-- The texts of the arguments. -/
def renderArgs : List Expr → List String
  | [] => []
  | a :: as => render a :: renderArgs as

/-- The texts of the definitions. -/
def renderDefs : List (String × Expr) → List String
  | [] => []
  | (x, e) :: ds => (x ++ " := " ++ render e ++ ";") :: renderDefs ds

end

/-- The text of an expression in operand position. -/
def operand (e : Expr) : String := enclosed e.isAtomic e.render

@[simp] theorem renderArgs_eq (as : List Expr) : renderArgs as = as.map render := by
  induction as with
  | nil => rfl
  | cons a as ih => simp [renderArgs, ih]

@[simp] theorem renderDefs_eq (ds : List (String × Expr)) :
    renderDefs ds = ds.map fun d => d.1 ++ " := " ++ d.2.render ++ ";" := by
  induction ds with
  | nil => rfl
  | cons d ds ih => simp [renderDefs, ih]

end CallBy.Expr
