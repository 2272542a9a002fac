import CallBy.Strategy
import CallBy.Text.Blank
import CallBy.Text.Quoted

/-!
Settings: two optional texts that say which strategy programs are run with and whether the
definitions of a `let` see each other.
-/

namespace CallBy

open Text

/-- Why a mode or a setting is refused. -/
inductive SettingError where
  /-- The mode word chooses no strategy. -/
  | unknownMode (mode : String)
  /-- The setting of the mode holds no mode word. -/
  | badMode (raw : String)
  /-- The setting of the `let` rule holds no flag word. -/
  | badFlag (raw : String)
  deriving DecidableEq, Repr

/-- The wording of the refusal. -/
def SettingError.message : SettingError → String
  | unknownMode mode =>
    "Unknown evaluation mode " ++ quoted mode ++ "; expected one of ['name', 'need', 'value']"
  | badMode raw => "JAM_EVAL_MODE must be one of value, name, need; got " ++ quoted raw
  | badFlag raw => "JAM_RECURSIVE_LET must be a boolean flag; got " ++ quoted raw

/-- The strategy that a mode word chooses. -/
def Strategy.ofMode (mode : String) : Except SettingError Strategy :=
  match ofMode? mode with
  | some s => .ok s
  | none => .error (.unknownMode mode)

/-- The texts of the settings; `none` for one that is not set. -/
structure Settings where
  mode : Option String := none
  recursiveLet : Option String := none
  deriving DecidableEq, Repr

namespace Settings

/-- A setting without blanks around it and in lower case. The words of the settings have ASCII
letters only, and no other letter has one of those in lower case. -/
def plain (raw : String) : String := String.ofList ((trim raw).toList.map Char.toLower)

/-- The words that turn a flag on. -/
def onWords : List String := ["1", "true", "yes", "on"]

/-- The words that turn a flag off. -/
def offWords : List String := ["0", "false", "no", "off"]

/-- The strategy of the settings: call by value if nothing is set. -/
def strategy (s : Settings) : Except SettingError Strategy :=
  match s.mode with
  | none => .ok .value
  | some raw =>
    if raw.isEmpty then .ok .value
    else
      match Strategy.ofMode? (plain raw) with
      | some st => .ok st
      | none => .error (.badMode raw)

/-- The `let` rule of the settings: recursive if nothing is set or the text is blank. -/
def letIsRecursive (s : Settings) : Except SettingError Bool :=
  match s.recursiveLet with
  | none => .ok true
  | some raw =>
    let word := plain raw
    if word.isEmpty then .ok true
    else if word ∈ onWords then .ok true
    else if word ∈ offWords then .ok false
    else .error (.badFlag raw)

end Settings

end CallBy
