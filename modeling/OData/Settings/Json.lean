import OData.Json.Reader
import OData.Json.Record
import OData.Settings

/-!
# Settings in JSON

The three settings are written and read as a record. The depth is null without a limit; an object may
leave it out, an array may not.
-/

namespace OData.Settings

open Json

/-- The value of settings. -/
def toJson (settings : Settings) : Json :=
  .object
    [Json.member "logLevel" (.ofString settings.logLevel),
     Json.member "pretty" (.bool settings.pretty),
     Json.member "maxExpandDepth"
      (match settings.maxExpandDepth with
        | none => .null
        | some depth => .number (Text.digits depth.toNat))]

/-- Reads settings. -/
def ofJson? : Nat → Json → Option Settings
  | 0, _ => none
  | _ + 1, value =>
    match fields? ["logLevel", "pretty", "maxExpandDepth"] 3 value with
    | some [some logLevel, some pretty, depth] => do
      let logLevel ← Json.string? logLevel
      let pretty ← Json.bool? pretty
      let maxExpandDepth ← Json.optional? Json.word64? depth
      return { logLevel, pretty, maxExpandDepth }
    | _ => none

/-- The settings that a text writes. -/
def decode? (text : List Char) : Option Settings := (Json.parse? text).bind (ofJson? nestingLimit)

end OData.Settings
