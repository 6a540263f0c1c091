import OData.Json.Basic
import OData.Json.Literal

/-!
# Writing JSON values

The two layouts differ in white space alone: after a colon, and around the parts of arrays and
objects that are not empty.
-/

namespace OData.Json

/-- How a value is laid out. -/
structure Layout where
  /-- What stands before a part at a depth, and before the mark that closes the parts. -/
  newline : Nat → List Char
  /-- What stands between a key and its value. -/
  colon : List Char

/-- All in one line, without white space. -/
def Layout.compact : Layout := ⟨fun _ => [], [':']⟩

/-- A line for each part, indented by two spaces for each array or object around it. -/
def Layout.indented : Layout := ⟨fun depth => '\n' :: List.replicate (2 * depth) ' ', [':', ' ']⟩

/-- A string literal in its quotes. -/
def quoted (literal : List Char) : List Char := '"' :: literal ++ ['"']

mutual

/-- Writes a value that stands inside `depth` arrays and objects. -/
def write (layout : Layout) (depth : Nat) : Json → List Char
  | .null => "null".toList
  | .bool true => "true".toList
  | .bool false => "false".toList
  | .number literal => literal
  | .string literal => quoted literal
  | .array [] => ['[', ']']
  | .array (item :: rest) =>
    '[' :: writeItems layout (depth + 1) (item :: rest) ++ layout.newline depth ++ [']']
  | .object [] => ['\x7b', '\x7d']
  | .object (member :: rest) =>
    '\x7b' :: writeMembers layout (depth + 1) (member :: rest) ++ layout.newline depth ++ ['\x7d']

/-- Writes items with commas between them. -/
def writeItems (layout : Layout) (depth : Nat) : List Json → List Char
  | [] => []
  | [item] => layout.newline depth ++ write layout depth item
  | item :: next :: rest =>
    layout.newline depth ++ write layout depth item ++ ',' :: writeItems layout depth (next :: rest)

/-- Writes members with commas between them. -/
def writeMembers (layout : Layout) (depth : Nat) : List (List Char × Json) → List Char
  | [] => []
  | [(key, value)] => layout.newline depth ++ quoted key ++ layout.colon ++ write layout depth value
  | (key, value) :: next :: rest =>
    layout.newline depth ++ quoted key ++ layout.colon ++ write layout depth value
      ++ ',' :: writeMembers layout depth (next :: rest)

end

/-- The text of a value. -/
def render (layout : Layout) (value : Json) : List Char := write layout 0 value

end OData.Json
