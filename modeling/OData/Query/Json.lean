import OData.Json.Reader
import OData.Json.Record
import OData.Json.Writer
import OData.Query.Basic

/-!
# Queries in JSON

How queries and their error records are written as JSON values, and read back. A part
that is not set is not written; a part that is set but empty is.
-/

namespace OData

open Json

/-! ## Writing -/

namespace ErrorCode

/-- The value of a code. -/
def toJson (code : ErrorCode) : Json := .ofString code.text

end ErrorCode

namespace QueryError

/-- The value of an error record. -/
def toJson (error : QueryError) : Json :=
  .object [Json.member "code" error.code.toJson, Json.member "message" (.ofString error.message)]

end QueryError

/-- The member of a field list, if it is set. -/
def selectMember : Option (List String) → List (List Char × Json)
  | none => []
  | some fields => [Json.member "$select" (.ofStrings fields)]

namespace Expansion

mutual

/-- The value of what is asked of one related entity. -/
def toJson : Expansion → Json
  | ⟨select, expand⟩ => .object (selectMember select ++ expandMember expand)

/-- The member of a map of related entities, if it is set. -/
def expandMember : Option (List (String × Expansion)) → List (List Char × Json)
  | none => []
  | some map => [Json.member "$expand" (.object (mapMembers map))]

/-- The members of a map of related entities. -/
def mapMembers : List (String × Expansion) → List (List Char × Json)
  | [] => []
  | (name, node) :: rest => Json.member name node.toJson :: mapMembers rest

end

end Expansion

namespace Query

/-- The member of an error record, if it is set. -/
def errorMember : Option QueryError → List (List Char × Json)
  | none => []
  | some error => [Json.member "error" error.toJson]

/-- The value of a query. -/
def toJson (query : Query) : Json :=
  .object (errorMember query.error ++ selectMember query.select
    ++ Expansion.expandMember query.expand)

end Query

/-! ## Reading -/

namespace ErrorCode

/-- The code with a text. -/
def ofText? (text : String) : Option ErrorCode := if text = "0x0" then some .badQuery else none

/-- Reads a code: its text, or an object with null under that text as its only member. -/
def ofJson? : Nat → Json → Option ErrorCode
  | _, .string literal => (Json.text? literal).bind fun text => ofText? (String.ofList text)
  | _ + 1, .object [(key, .null)] =>
    (Json.text? key).bind fun text => ofText? (String.ofList text)
  | _, _ => none

/-- The code that a text writes. -/
def decode? (text : List Char) : Option ErrorCode := (Json.parse? text).bind (ofJson? nestingLimit)

end ErrorCode

namespace QueryError

/-- Reads an error record. -/
def ofJson? : Nat → Json → Option QueryError
  | 0, _ => none
  | levels + 1, value =>
    match fields? ["code", "message"] 2 value with
    | some [some code, some message] => do
      let code ← ErrorCode.ofJson? levels code
      let message ← Json.string? message
      return { code, message }
    | _ => none

/-- The error record that a text writes. -/
def decode? (text : List Char) : Option QueryError := (Json.parse? text).bind (ofJson? nestingLimit)

end QueryError

namespace Expansion

/-- Reads what is asked of one related entity. -/
def ofJson? : Nat → Json → Option Expansion
  | 0, _ => none
  | levels + 1, value =>
    match fields? ["$select", "$expand"] 0 value with
    | some [select, expand] => do
      let select ← Json.optional? (Json.strings? levels) select
      let expand ← Json.optional? (mapOfJson? levels) expand
      return { select, expand }
    | _ => none
where
  /-- Reads a map of related entities; of members with the same key the last one counts. -/
  mapOfJson? : Nat → Json → Option (List (String × Expansion))
  | levels + 1, .object members => do
    let entries ← members.mapM fun member => do
      let name ← Json.text? member.1
      let node ← ofJson? levels member.2
      return (String.ofList name, node)
    return NameMap.ofEntries entries
  | _, _ => none

/-- The related entity that a text writes. -/
def decode? (text : List Char) : Option Expansion := (Json.parse? text).bind (ofJson? nestingLimit)

end Expansion

namespace Query

/-- Reads a query. -/
def ofJson? : Nat → Json → Option Query
  | 0, _ => none
  | levels + 1, value =>
    match fields? ["error", "$select", "$expand"] 0 value with
    | some [error, select, expand] => do
      let error ← Json.optional? (QueryError.ofJson? levels) error
      let select ← Json.optional? (Json.strings? levels) select
      let expand ← Json.optional? (Expansion.ofJson?.mapOfJson? levels) expand
      return { error, select, expand }
    | _ => none

/-- The query that a text writes. -/
def decode? (text : List Char) : Option Query := (Json.parse? text).bind (ofJson? nestingLimit)

end Query

end OData
