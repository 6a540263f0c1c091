import OData.Json.Basic
import OData.Json.Literal

/-!
# Records in JSON

A record is an object whose keys are the names of its fields, or an array of its fields in their
order. An object may have other keys, which are ignored with their values; an array may only leave
out fields at its end, and only so many.

## Nesting

Values are read from arrays and objects nested up to a limit. The readers take the number of levels
that are left; ignored values do not count.
-/

namespace OData.Json

/-- The number of arrays and objects that values are read from inside each other. -/
def nestingLimit : Nat := 127

/-- The value of the one member with a key: unset without a member, refused with several. -/
def field? (members : List (List Char × Json)) (name : String) : Option (Option Json) :=
  match members.filter fun member => member.1 == name.toList with
  | [] => some none
  | [member] => some (some member.2)
  | _ => none

/-- The members of an object by the texts of their keys. -/
def decodeKeys? (members : List (List Char × Json)) : Option (List (List Char × Json)) :=
  members.mapM fun member => (text? member.1).map (·, member.2)

/-- The values of the named fields of a record, unset where it has none. An array has to give the
first `required` of them. -/
def fields? (names : List String) (required : Nat) : Json → Option (List (Option Json))
  | .object members => (decodeKeys? members).bind fun members => names.mapM (field? members)
  | .array items =>
    if required ≤ items.length ∧ items.length ≤ names.length then
      some (items.map some ++ List.replicate (names.length - items.length) none)
    else none
  | _ => none

/-- Reads a field that may be unset or null. -/
def optional? {α : Type} (read? : Json → Option α) : Option Json → Option (Option α)
  | none => some none
  | some .null => some none
  | some value => (read? value).map some

/-- Reads a text. -/
def string? : Json → Option String
  | .string literal => (text? literal).map String.ofList
  | _ => none

/-- Reads a truth value. -/
def bool? : Json → Option Bool
  | .bool value => some value
  | _ => none

/-- Reads a natural number below `2 ^ 64`, written without sign, fraction and exponent. -/
def word64? : Json → Option UInt64
  | .number literal =>
    (Text.natural? literal).bind fun n =>
      if n < UInt64.size then some (UInt64.ofNat n) else none
  | _ => none

/-- Reads a list of texts. -/
def strings? : Nat → Json → Option (List String)
  | _ + 1, .array items => items.mapM string?
  | _, _ => none

/-! ## Writing -/

/-- The value of a text. -/
def ofString (text : String) : Json := .string (escape text.toList)

/-- The value of a list of texts. -/
def ofStrings (texts : List String) : Json := .array (texts.map ofString)

/-- A member under a name. -/
def member (name : String) (value : Json) : List Char × Json := (escape name.toList, value)

end OData.Json
