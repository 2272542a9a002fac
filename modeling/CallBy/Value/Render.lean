import CallBy.Expr.Inspect
import CallBy.Expr.Render
import CallBy.Value

/-!
The two texts of a value: the one that results and messages show, and the structural one.
-/

namespace CallBy.Value

mutual

/-- **The text of a value.** A list shows its elements with blanks between them, and no ending. -/
def render : Value → String
  | .int n => n.repr
  | .bool b => Expr.boolWord b
  | .empty => "()"
  | .cons a r => "(" ++ render a ++ renderRest r ++ ")"
  | .closure _ ps b _ => "(closure: " ++ Expr.mapHead ps ++ b.render ++ ")"
  | .prim p => p.name

/-- The text of the elements after the first. -/
def renderRest : Value → String
  | .cons a r => " " ++ render a ++ renderRest r
  | _ => ""

end

/-- The structural text of a value. -/
def inspect : Value → String
  | .int n => n.repr
  | .bool b => if b then "TRUE" else "FALSE"
  | .empty => "EMPTY"
  | .cons a r => "Cons(" ++ inspect a ++ ", " ++ inspect r ++ ")"
  | v@(.closure _ _ _ _) => v.render
  | .prim p => Expr.inspectPrim p

/-- The value as it stands in the place of an expression: a primitive is one, any other value is a
datum. -/
def toExpr : Value → Expr
  | .prim p => .prim p
  | v => .datum v.render v.inspect

end CallBy.Value
