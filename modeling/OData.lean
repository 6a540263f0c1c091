import OData.Main
import OData.Settings.Json
import OData.Proofs.Text.Balanced
import OData.Proofs.Text.Outside
import OData.Proofs.Select
import OData.Proofs.Form
import OData.Proofs.Options
import OData.Proofs.Expand.Steps
import OData.Proofs.Expand.Depth
import OData.Proofs.Expand.Grammar
import OData.Proofs.Expand.WellFormed
import OData.Proofs.Text.Written
import OData.Proofs.Expand.Printed
import OData.Proofs.Expand.Pieces
import OData.Proofs.Form.Escaped
import OData.Proofs.Expand.Nested
import OData.Proofs.Json.Lexing
import OData.Proofs.Json.Record
import OData.Proofs.Json.RoundTrip
import OData.Proofs.Query.Filling
import OData.Proofs.Options.Ampersand
import OData.Proofs.Text.Utf8
import OData.Proofs.Settings
import OData.Proofs.CommandLine
import OData.Proofs.Form.Encoded
import OData.Proofs.Expand.Places
import OData.Proofs.Expand.Closing
import OData.Proofs.Options.Bytes
import OData.Proofs.Expand.Shrinking
import OData.Proofs.Expand.Amplification
import OData.Proofs.Query.OtherOptions
import OData.Proofs.Expand.GroupEnd
import OData.Proofs.Expand.NameLists
import OData.Proofs.Form.Trailing
import OData.Proofs.Text.Trailing
import OData.Proofs.Expand.Trailing
import OData.Proofs.Expand.Spacing
import OData.Proofs.Expand.Separators
import OData.Proofs.Options.Semicolon
import OData.Proofs.Select.Exact
import OData.Proofs.Expand.Joined
import OData.Proofs.Text.ByteOrder
import OData.Proofs.CommandLine.ItemOrder
import OData.Proofs.Settings.Spelling
import OData.Proofs.Text.Boundary
import OData.Proofs.Expand.Cursor
import OData.Proofs.Expand.GroupPieces
import OData.Proofs.Json.Texts
import OData.Proofs.Json.Members
import OData.Proofs.Query.Parts
import OData.Proofs.Query.Rewriting
