import CallBy.Expr.Parser
import CallBy.Failure

/-!
Programs: an expression to be run any number of times, each time from an empty environment, under
any strategy. Making and running a program reports events, which are kept also when it fails.

The `let` rule of a program is the one asked for, else the default one, else that of the settings.
The mode of a run is the one asked for, else the default one, else that of the settings.
-/

namespace CallBy

/-- What is reported while a program is made and run. -/
inductive Event where
  /-- A file is about to be read. -/
  | loading (path : String)
  /-- A text has been parsed. -/
  | parsed (e : Expr)
  /-- A run is about to begin. -/
  | evaluating (mode : String) (recursiveLet : Bool)
  deriving DecidableEq, Repr

/-- The wording of the event. -/
def Event.message : Event → String
  | loading path => "Loading program from " ++ path
  | parsed e => "AST: " ++ e.render
  | evaluating mode recursiveLet =>
    "Evaluating by " ++ mode ++ " (recursive let: " ++ (if recursiveLet then "True" else "False") ++
      ")"

/-- A computation that reports events. -/
abbrev Logged := EStateM Failure (List Event)

namespace Logged

/-- Reports an event. -/
def log (e : Event) : Logged Unit := fun es => .ok () (es ++ [e])

/-- A result, or a failure of one part as a failure of the whole. -/
def lift {ε α : Type} (wrap : ε → Failure) : Except ε α → Logged α
  | .ok a => pure a
  | .error e => throw (wrap e)

end Logged

/-- What requests leave open is taken from here: the defaults first, then the settings. -/
structure Setup where
  settings : Settings := {}
  defaultMode : Option String := none
  defaultRecursiveLet : Option Bool := none
  deriving DecidableEq, Repr

namespace Setup

/-- The `let` rule for a program. -/
def letIsRecursive (s : Setup) (asked : Option Bool) : Except SettingError Bool :=
  match asked.or s.defaultRecursiveLet with
  | some r => .ok r
  | none => s.settings.letIsRecursive

/-- The mode word for a run; an empty default counts as none. -/
def mode (s : Setup) (asked : Option String) : Except SettingError String :=
  match asked.or (s.defaultMode.filter (!·.isEmpty)) with
  | some m => .ok m
  | none => s.settings.strategy.map Strategy.mode

end Setup

/-- A program. -/
structure Program where
  expr : Expr
  recursiveLet : Bool
  deriving DecidableEq, Repr

namespace Program

open Logged

/-- The program of an expression. -/
def ofExpr (s : Setup) (recursiveLet : Option Bool) (e : Expr) : Logged Program := do
  return ⟨e, ← lift .setting (s.letIsRecursive recursiveLet)⟩

/-- The program that a text spells. -/
def ofSource (s : Setup) (recursiveLet : Option Bool) (source : String) : Logged Program := do
  let e ← lift .parsing (Expr.parse source)
  log (.parsed e)
  ofExpr s recursiveLet e

/-- The text with every end of line written as a single line feed. -/
def plainLines : List Char → List Char
  | '\r' :: '\n' :: cs => '\n' :: plainLines cs
  | '\r' :: cs => '\n' :: plainLines cs
  | c :: cs => c :: plainLines cs
  | [] => []

/-- The program in a file, given by its path and, if it exists, its bytes. -/
def ofFile (s : Setup) (recursiveLet : Option Bool) (path : String) (bytes : Option ByteArray) :
    Logged Program := do
  log (.loading path)
  match bytes with
  | none => throw .noSuchFile
  | some bytes =>
    match String.fromUTF8? bytes with
    | none => throw .notUtf8
    | some text => ofSource s recursiveLet (String.ofList (plainLines text.toList))

/-- The discipline of the program under a strategy. -/
def discipline (p : Program) (strategy : Strategy) : Discipline := ⟨strategy, p.recursiveLet⟩

/-- The outcome of the program under a strategy, with the machine at its end. -/
def outcome (p : Program) (strategy : Strategy) : EStateM.Result Stop Machine Value :=
  Eval.evalClosed (p.discipline strategy) Eval.nestingLimit p.expr Machine.initial

/-- The value of the program under a strategy, with the machine that its closures refer to. -/
def callBy (p : Program) (strategy : Strategy) : Logged (Value × Machine) :=
  match p.outcome strategy with
  | .ok v m => pure (v, m)
  | .error stop _ => throw (.stopped stop)

/-- **Runs the program** in the mode asked for. -/
def run (s : Setup) (p : Program) (asked : Option String) : Logged (Value × Machine) := do
  let mode ← lift .setting (s.mode asked)
  log (.evaluating mode p.recursiveLet)
  let strategy ← lift .setting (Strategy.ofMode mode)
  p.callBy strategy

end Program

end CallBy
