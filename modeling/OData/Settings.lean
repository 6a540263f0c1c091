import OData.DepthLimit
import OData.Text.Utf8
import OData.Text.White

/-!
# Settings

What the environment sets: the level of the log, the layout of the output, and the depth limit.
A variable whose bytes are no UTF-8 counts as unset.
-/

namespace OData

open Text

/-- The bytes of the variables that are set, by name. -/
abbrev Environment := String → Option (List UInt8)

/-- The text of a variable, if it is set and holds UTF-8. -/
def Environment.text? (environment : Environment) (name : String) : Option (List Char) :=
  (environment name).bind decode?

/-- The settings of a run. -/
structure Settings where
  /-- The filter of the log. -/
  logLevel : String := "info"
  /-- Whether the output is laid out over several lines. -/
  pretty : Bool := true
  /-- The greatest depth of a group, if there is a limit. -/
  maxExpandDepth : Option UInt64 := none
deriving DecidableEq

/-- A setting that cannot be used. -/
inductive SettingError where
  /-- The depth is no positive number of 64 bits; `text` is how it was given. -/
  | badDepth (text : List Char)
deriving DecidableEq

/-- The error in words. -/
def SettingError.message : SettingError → String
  | .badDepth text =>
    "configuration error: ODATA_MAX_EXPAND_DEPTH must be a positive integer, got '"
      ++ String.ofList text ++ "'"

namespace Settings

/-- The depth that a text sets, white space around it aside. -/
def parseDepth (text : List Char) : Except SettingError UInt64 :=
  match unsigned? (trim text) with
  | none => .error (.badDepth text)
  | some n => if 0 < n ∧ n < UInt64.size then .ok (UInt64.ofNat n) else .error (.badDepth text)

/-- The texts that stand for yes. -/
def yesTexts : List String := ["1", "true", "yes", "TRUE", "YES"]

/-- The settings of an environment. -/
def ofEnvironment (environment : Environment) : Except SettingError Settings :=
  let logLevel := ((environment.text? "LOG_LEVEL").map String.ofList).getD "info"
  let pretty := ((environment.text? "ODATA_PRETTY").map fun text =>
    yesTexts.contains (String.ofList text)).getD true
  match environment.text? "ODATA_MAX_EXPAND_DEPTH" with
  | none => .ok { logLevel, pretty }
  | some text => (parseDepth text).map fun depth => { logLevel, pretty, maxExpandDepth := some depth }

/-- The depth limit for reading clauses. -/
def depthLimit (settings : Settings) : DepthLimit := settings.maxExpandDepth.map UInt64.toNat

end Settings

end OData
