import CallBy.Eval
import CallBy.Settings
import CallBy.Token.Stream

/-!
Everything that can keep a request from being answered.
-/

namespace CallBy

/-- Why a request has no answer. -/
inductive Failure where
  /-- A program text is rejected. -/
  | parsing (e : ParseError)
  /-- A mode or a setting is refused. -/
  | setting (e : SettingError)
  /-- An evaluation stops without a value. -/
  | stopped (s : Stop)
  /-- A `let` with different numbers of variables and defining expressions. -/
  | unevenLet
  /-- The file does not exist. -/
  | noSuchFile
  /-- The bytes of the file are no UTF-8 text. -/
  | notUtf8
  /-- Nothing has the name that the request uses. -/
  | missing
  deriving DecidableEq, Repr

/-- The wording of the failure. -/
def Failure.message : Failure → String
  | parsing e => e.message
  | setting e => e.message
  | stopped (.error e) => e.message
  | stopped .tooDeep => "Evaluations are nested too deeply"
  | unevenLet => "Let requires one defining expression per variable"
  | noSuchFile => "No such file"
  | notUtf8 => "The file is no UTF-8 text"
  | missing => "No such name"

end CallBy
