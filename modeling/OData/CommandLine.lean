import OData.LogFilter
import OData.Query.Json
import OData.Query.Read
import OData.Settings

/-!
# The command line

A run reads one query, from its first argument or from its input, and prints it as JSON. What can go
wrong before that ends the run: first the settings, then the log filter, then the arguments and the
input. Whether a text is a log filter is for the log to say, so a run is given the answer as a
function.

Arguments are bytes, and begin with the name that the program is run under. A run that comes across
one that is no UTF-8 has no words for it and panics; what stands behind the first argument is never
looked at.
-/

namespace OData.CommandLine

open Text

/-- Why a run ends without an answer. -/
inductive Failure where
  | settings (error : SettingError)
  /-- The log filter, as it was given, is refused for a reason. -/
  | logFilter (filter reason : String)
  /-- An argument that is read is no UTF-8. -/
  | argument
  /-- The input is no UTF-8. -/
  | input
deriving DecidableEq

/-- The failure in words, if there are any. -/
def Failure.message? : Failure → Option String
  | .settings error => some ("failed to load configuration: " ++ error.message)
  | .logFilter filter reason => some ("invalid log level filter: " ++ filter ++ ": " ++ reason)
  | .argument => none
  | .input => some "failed to read query string from stdin: stream did not contain valid UTF-8"

/-- What a run leaves behind, the lines of its log aside. -/
inductive Outcome where
  | exits (status : Nat) (output errors : List Char)
  /-- The run breaks off. The report of a panic is none of its own errors. -/
  | panics
deriving DecidableEq

namespace Outcome

def status : Outcome → Nat
  | .exits status _ _ => status
  | .panics => 101

def output : Outcome → List Char
  | .exits _ output _ => output
  | .panics => []

def errors : Outcome → List Char
  | .exits _ _ errors => errors
  | .panics => []

end Outcome

/-- What a run leaves behind that ends without an answer. -/
def Failure.outcome (failure : Failure) : Outcome :=
  match failure.message? with
  | some message => .exits 1 [] ("rsodata: " ++ message ++ "\n").toList
  | none => .panics

/-- Refuses a log filter, unless there is one in `RUST_LOG`: that one takes its place, and is not
checked. -/
def checkFilter (refusal? : String → Option String) (environment : Environment) (filter : String) :
    Except Failure Unit :=
  match environment.text? "RUST_LOG" with
  | some _ => .ok ()
  | none =>
    match refusal? filter with
    | none => .ok ()
    | some reason => .error (.logFilter filter reason)

/-- Whether a character ends a line. -/
def isLineEnd (c : Char) : Bool := c == '\r' || c == '\n'

/-- The argument at an index, if there is one. Those before it are read as well, and all that are
read have to be UTF-8. -/
def argument? : List (List UInt8) → Nat → Except Failure (Option (List Char))
  | [], _ => .ok none
  | argument :: arguments, index =>
    match decode? argument with
    | none => .error .argument
    | some text =>
      match index with
      | 0 => .ok (some text)
      | index + 1 => argument? arguments index

/-- The input without the line ends at its end. -/
def inputText (input : List UInt8) : Except Failure (List Char) :=
  match decode? input with
  | some text => .ok (dropEndWhile isLineEnd text)
  | none => .error .input

/-- The query string: the first argument behind the name of the program, or the input. -/
def queryText (arguments : List (List UInt8)) (input : List UInt8) : Except Failure (List Char) := do
  match ← argument? arguments 1 with
  | some text => return text
  | none => inputText input

/-- The text of a query in the layout that the settings ask for. -/
def render (settings : Settings) (query : Query) : List Char :=
  Json.render (if settings.pretty then .indented else .compact) query.toJson

/-- The settings of a run, and the query it reads. -/
def answer (refusal? : String → Option String) (environment : Environment)
    (arguments : List (List UInt8)) (input : List UInt8) : Except Failure (Settings × Query) := do
  let settings ← (Settings.ofEnvironment environment).mapError .settings
  checkFilter refusal? environment settings.logLevel
  let text ← queryText arguments input
  return (settings, Query.ofOptions settings.depthLimit (.ofQuery text))

/-- A whole run, for what the log says against filters. Its status is 0 for a query without an
error. -/
def runWith (refusal? : String → Option String) (environment : Environment)
    (arguments : List (List UInt8)) (input : List UInt8) : Outcome :=
  match answer refusal? environment arguments input with
  | .error failure => failure.outcome
  | .ok (settings, query) =>
    .exits (if query.error.isSome then 1 else 0) (render settings query ++ ['\n']) []

/-- A whole run. -/
def run : Environment → List (List UInt8) → List UInt8 → Outcome := runWith LogFilter.refusal?

end OData.CommandLine
