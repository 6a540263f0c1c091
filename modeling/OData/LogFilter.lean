import OData.Text.Decimal

/-!
# Log filters

A log filter is a list of directives between commas. A directive without `=` names a level or a
target; behind the first `=` there has to be a level, or nothing.

This only approximates what the log takes for a filter. The log has rules for the characters of a
target too, and for the spans and fields that a directive can name in brackets: it refuses `!`, which
is a target here, and accepts `a[b{c=d}]=info`, which is refused here over the level `d}]=info`. Just
the run of the program itself asks this module; what is proved of runs holds for every log.
-/

namespace OData.LogFilter

open Text

/-- The names of the levels. -/
def levelNames : List String := ["off", "error", "warn", "info", "debug", "trace"]

/-- Whether a text is a level: one of the names in any case, or its number from 0 to 5. -/
def isLevel (text : List Char) : Bool :=
  levelNames.contains (String.ofList (text.map Char.toLower)) || (unsigned? text).any (· ≤ 5)

/-- Whether a text is a directive. -/
def isDirective (text : List Char) : Bool :=
  match text.dropWhile (· != '=') with
  | [] => true
  | _ :: level => level.isEmpty || isLevel level

/-- Whether a text is a filter. -/
def isValid (filter : List Char) : Bool :=
  ((filter.splitOn ',').filter fun piece => !piece.isEmpty).all isDirective

/-- What is said about a level that is none. -/
def levelMessage : String :=
  "error parsing level filter: expected one of \"off\", \"error\", \"warn\", \"info\", "
    ++ "\"debug\", \"trace\", or a number 0-5"

/-- What is said against a filter, if it is none: the error and its cause, which are the same. -/
def refusal? (filter : String) : Option String :=
  if isValid filter.toList then none else some (levelMessage ++ ": " ++ levelMessage)

end OData.LogFilter
