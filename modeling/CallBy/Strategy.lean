/-!
Evaluation strategies, and the mode words that choose them.
-/

namespace CallBy

/-- When the expression bound to a variable is computed: before the binding, anew for every use, or
once for the first use. -/
inductive Strategy where
  | value | name | need
  deriving DecidableEq, Repr

namespace Strategy

/-- The mode word of a strategy. -/
def mode : Strategy → String
  | value => "value"
  | name => "name"
  | need => "need"

/-- All strategies. -/
def all : List Strategy := [value, name, need]

/-- The strategy that a mode word chooses. -/
def ofMode? (s : String) : Option Strategy := all.find? (·.mode == s)

/-- The structural text of a strategy. -/
def inspect : Strategy → String
  | value => "CallByValue()"
  | name => "CallByName()"
  | need => "CallByNeed()"

end Strategy

/-- How programs are evaluated: the strategy, and whether the definitions of a `let` see the frame
they fill. -/
structure Discipline where
  strategy : Strategy
  recursiveLet : Bool := true
  deriving DecidableEq, Repr

end CallBy
