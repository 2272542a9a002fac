import CallBy.Expr
import CallBy.Text.Quoted

/-!
The structural text of an expression: every node by its kind and its parts.
-/

namespace CallBy.Expr

open Text

/-- A group of texts in parentheses; a group of one keeps a comma after it. -/
def group : List String → String
  | [s] => "(" ++ s ++ ",)"
  | ss => "(" ++ ", ".intercalate ss ++ ")"

/-- The structural text of a variable. -/
def inspectVar (x : String) : String := "Variable(" ++ quoted x ++ ")"

/-- The structural text of a primitive. -/
def inspectPrim (p : Prim) : String := "PrimFun(" ++ quoted p.name ++ ")"

mutual

/-- **The structural text of an expression.** -/
def inspect : Expr → String
  | .int n => "IntConstant(value=" ++ n.repr ++ ")"
  | .bool b => "BoolConstant(value=" ++ (if b then "True" else "False") ++ ")"
  | .null => "NullConstant()"
  | .prim p => inspectPrim p
  | .var x => inspectVar x
  | .unary op a => "UnOpApp(op=" ++ quoted op ++ ", arg=" ++ inspect a ++ ")"
  | .binary op l r =>
    "BinOpApp(op=" ++ quoted op ++ ", left=" ++ inspect l ++ ", right=" ++ inspect r ++ ")"
  | .ite t c a =>
    "If(test=" ++ inspect t ++ ", conseq=" ++ inspect c ++ ", alt=" ++ inspect a ++ ")"
  | .map ps b => "Map(params=" ++ group (ps.map inspectVar) ++ ", body=" ++ inspect b ++ ")"
  | .app f as => "App(rator=" ++ inspect f ++ ", args=" ++ group (inspectArgs as) ++ ")"
  | .letIn ds b =>
    "Let(vars=" ++ group (ds.map fun d => inspectVar d.1) ++ ", exps=" ++ group (inspectDefs ds) ++
      ", body=" ++ inspect b ++ ")"
  | .datum _ i => i

/-- The structural texts of the arguments. -/
def inspectArgs : List Expr → List String
  | [] => []
  | a :: as => inspect a :: inspectArgs as

/-- The structural texts of the defining expressions. -/
def inspectDefs : List (String × Expr) → List String
  | [] => []
  | (_, e) :: ds => inspect e :: inspectDefs ds

end

end CallBy.Expr
