import CallBy.Machine
import CallBy.Strategy
import CallBy.Value.Render

/-!
The texts of bindings, frames, environments and of an evaluator at work in one.
-/

namespace CallBy

namespace Memo

/-- The word for the state of a shared computation. -/
def stateWord : Memo → String
  | pending _ _ => "unevaluated"
  | running _ _ => "in progress"
  | done _ => "evaluated"

end Memo

namespace Binding

/-- The word for the form of a binding. -/
def form : Binding → String
  | undefined _ => "Undefined"
  | value _ _ => "ValueBinding"
  | name _ _ _ => "NameBinding"
  | need _ _ => "NeedBinding"

/-- What the text of a binding says after the variable. -/
def details : Binding → List String
  | undefined _ => []
  | value _ v | need _ (.done v) => [v.render]
  | name _ e _ => [e.render]
  | need _ memo@(.pending e _) | need _ memo@(.running e _) => [e.render, memo.stateWord]

/-- The text of a binding: its form, variable and details. -/
def inspect (b : Binding) : String :=
  b.form ++ "(" ++ ", ".intercalate (b.var :: b.details) ++ ")"

/-- The word for the state of a shared binding. -/
def stateWord? : Binding → Option String
  | need _ memo => some memo.stateWord
  | _ => none

end Binding

namespace Machine

/-- The text of a frame: its variables with their bindings. -/
def inspectFrame (m : Machine) (f : FrameId) : String :=
  "\x7b" ++
    ", ".intercalate ((m.frame f).slots.map fun s => s.1 ++ ": " ++ (m.binding s.2).inspect) ++
    "\x7d"

/-- The text of an environment: its innermost frame, and whether there are more. -/
def renderEnv (m : Machine) : Env → String
  | [] => ""
  | [f] => m.inspectFrame f
  | f :: _ => m.inspectFrame f ++ " -> ..."

/-- The text of an environment with all its frames. -/
def inspectEnv (m : Machine) (env : Env) : String :=
  "<Environment chain: " ++ " -> ".intercalate (env.map m.inspectFrame) ++ ">"

end Machine

/-- The text of an evaluator: its strategy and how deep its environment is. -/
def Strategy.inspectAt (s : Strategy) (env : Env) : String :=
  "Evaluator(" ++ s.inspect ++ ", depth=" ++ env.depth.repr ++ ")"

end CallBy
