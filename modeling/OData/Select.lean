import OData.Fault
import OData.Options
import OData.Text.Identifier
import OData.Text.White

/-!
# Field lists

The value of `$select`: fields between commas, each an identifier or `*`, with white space allowed
around it. There is no empty list, because the empty text holds one empty field.
-/

namespace OData.Select

open Text

/-- Whether a text is a field: an identifier, or `*` for all of them. -/
def isField (text : List Char) : Bool := text == ['*'] || isIdentifier text

/-- The field in one piece of a list. -/
def parseField (piece : List Char) : Except Fault String :=
  if isField (trim piece) then .ok (String.ofList (trim piece)) else .error .malformedSelect

/-- The fields of a list, in its order and with its repetitions. -/
def parse (list : List Char) : Except Fault (List String) := (list.splitOn ',').mapM parseField

/-- The fields that options select, if they hold a field list at all. -/
def ofOptions (options : Options) : Except Fault (Option (List String)) :=
  match options.first? Options.selectKey with
  | none => .ok none
  | some list => (parse list).map some

end OData.Select
