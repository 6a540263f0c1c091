/-!
# JSON values

Values as they are spelled: the literals of strings, keys and numbers are kept as written, and an
object keeps its members in order, equal keys included. What a literal stands for is asked only of
the values that something is read from.
-/

namespace OData

/-- A JSON value, its literals as spelled. -/
inductive Json where
  | null
  | bool (value : Bool)
  | number (literal : List Char)
  /-- The text between the quotes. -/
  | string (literal : List Char)
  | array (items : List Json)
  /-- Keys, as the text between their quotes, with their values. -/
  | object (members : List (List Char × Json))

namespace Json

/-- The lexical units of JSON. -/
inductive Token where
  | openArray
  | closeArray
  | openObject
  | closeObject
  | comma
  | colon
  | null
  | bool (value : Bool)
  | number (literal : List Char)
  | string (literal : List Char)
deriving DecidableEq

/-! ## The tokens of a value -/

mutual

/-- The tokens that a value is written with. -/
def tokens : Json → List Token
  | .null => [.null]
  | .bool value => [.bool value]
  | .number literal => [.number literal]
  | .string literal => [.string literal]
  | .array items => .openArray :: itemTokens items ++ [.closeArray]
  | .object members => .openObject :: memberTokens members ++ [.closeObject]

/-- The tokens of items with commas between them. -/
def itemTokens : List Json → List Token
  | [] => []
  | [item] => item.tokens
  | item :: next :: rest => item.tokens ++ .comma :: itemTokens (next :: rest)

/-- The tokens of members with commas between them. -/
def memberTokens : List (List Char × Json) → List Token
  | [] => []
  | [(key, value)] => .string key :: .colon :: value.tokens
  | (key, value) :: next :: rest =>
    .string key :: .colon :: value.tokens ++ .comma :: memberTokens (next :: rest)

end

end Json

end OData
