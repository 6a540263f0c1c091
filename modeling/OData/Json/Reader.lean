import OData.Json.Lexer

/-!
# Reading JSON values

A value is read token by token. The reader keeps the arrays and objects that are still open, the
innermost first, and what may come next.

## Main statement

* `ofTokens?_tokens` — the tokens of a value read as that value
-/

namespace OData.Json

/-- An array or an object that is still open, the parts read so far in reverse. -/
inductive Frame where
  | array (items : List Json)
  /-- The value of `key` is being read. -/
  | object (members : List (List Char × Json)) (key : List Char)

/-- What may come next, inside the arrays and objects that are still open. -/
inductive Reader where
  /-- A value. -/
  | newValue (outer : List Frame)
  /-- The first item of an array, or its end. -/
  | firstItem (outer : List Frame)
  /-- The first key of an object, or its end. -/
  | firstKey (outer : List Frame)
  /-- A further key of an object. -/
  | nextKey (members : List (List Char × Json)) (outer : List Frame)
  /-- The colon after a key. -/
  | colon (members : List (List Char × Json)) (key : List Char) (outer : List Frame)
  /-- What follows a value just read. -/
  | after (value : Json) (outer : List Frame)

namespace Reader

/-- Reads the first token of a value. -/
def beginValue (outer : List Frame) : Token → Option Reader
  | .null => some (.after .null outer)
  | .bool value => some (.after (.bool value) outer)
  | .number literal => some (.after (.number literal) outer)
  | .string literal => some (.after (.string literal) outer)
  | .openArray => some (.firstItem outer)
  | .openObject => some (.firstKey outer)
  | _ => none

/-- Reads a token. -/
def step : Reader → Token → Option Reader
  | .newValue outer, token => beginValue outer token
  | .firstItem outer, .closeArray => some (.after (.array []) outer)
  | .firstItem outer, token => beginValue (.array [] :: outer) token
  | .firstKey outer, .closeObject => some (.after (.object []) outer)
  | .firstKey outer, .string key => some (.colon [] key outer)
  | .nextKey members outer, .string key => some (.colon members key outer)
  | .colon members key outer, .colon => some (.newValue (.object members key :: outer))
  | .after value (.array items :: outer), .comma => some (.newValue (.array (value :: items) :: outer))
  | .after value (.array items :: outer), .closeArray =>
    some (.after (.array (value :: items).reverse) outer)
  | .after value (.object members key :: outer), .comma =>
    some (.nextKey ((key, value) :: members) outer)
  | .after value (.object members key :: outer), .closeObject =>
    some (.after (.object ((key, value) :: members).reverse) outer)
  | _, _ => none

/-- The value read, when it is whole and nothing is open. -/
def result? : Reader → Option Json
  | .after value [] => some value
  | _ => none

end Reader

/-- The value that tokens write. -/
def ofTokens? (tokens : List Token) : Option Json :=
  (tokens.foldlM Reader.step (.newValue [])).bind Reader.result?

/-- The value that a text writes, with white space around its tokens. -/
def parse? (text : List Char) : Option Json := (lex text).bind ofTokens?

/-! ## The tokens of a value -/

/-- The first token of a value closes nothing, so it may also be the first in an array. -/
theorem foldlM_firstItem (value : Json) (rest : List Token) (outer : List Frame) :
    (value.tokens ++ rest).foldlM Reader.step (.firstItem outer)
      = (value.tokens ++ rest).foldlM Reader.step (.newValue (.array [] :: outer)) := by
  cases value <;> rfl

mutual

/-- The tokens of a value lead from where a value may come to what follows it. -/
theorem foldlM_tokens : (value : Json) → (outer : List Frame) →
    value.tokens.foldlM Reader.step (.newValue outer) = some (.after value outer)
  | .null, _ | .bool _, _ | .number _, _ | .string _, _ => rfl
  | .array [], _ => rfl
  | .array (item :: rest), outer => by
    have h := foldlM_itemTokens (item :: rest) (List.cons_ne_nil item rest) [] outer
    have hfirst : ∃ tail, itemTokens (item :: rest) ++ [Token.closeArray] = item.tokens ++ tail := by
      cases rest with
      | nil => exact ⟨_, by rw [itemTokens]⟩
      | cons next rest => exact ⟨_, by rw [itemTokens, List.append_assoc]⟩
    obtain ⟨tail, htail⟩ := hfirst
    rw [htail] at h
    rw [tokens, List.cons_append, htail, List.foldlM_cons]
    exact (foldlM_firstItem item tail outer).trans h
  | .object [], _ => rfl
  | .object (member :: rest), outer => by
    have h := foldlM_memberTokens (member :: rest) (List.cons_ne_nil member rest) [] outer
    have hfirst : ∃ tail, memberTokens (member :: rest) ++ [Token.closeObject]
        = .string member.1 :: tail := by
      cases rest with
      | nil => exact ⟨_, by rw [memberTokens, List.cons_append]⟩
      | cons next rest => exact ⟨_, by rw [memberTokens, List.cons_append, List.cons_append]⟩
    obtain ⟨tail, htail⟩ := hfirst
    rw [htail] at h
    rw [tokens, List.cons_append, htail, List.foldlM_cons]
    exact h

/-- The tokens of items, and the end of their array, lead to what follows the array. -/
theorem foldlM_itemTokens : (items : List Json) → items ≠ [] → (done : List Json) →
    (outer : List Frame) →
    (itemTokens items ++ [Token.closeArray]).foldlM Reader.step (.newValue (.array done :: outer))
      = some (.after (.array (done.reverse ++ items)) outer)
  | [], h, _, _ => absurd rfl h
  | [item], _, done, outer => by
    rw [itemTokens, List.foldlM_append, foldlM_tokens item]
    simp [Reader.step]
  | item :: next :: rest, _, done, outer => by
    have h := foldlM_itemTokens (next :: rest) (List.cons_ne_nil next rest) (item :: done) outer
    rw [itemTokens, List.append_assoc, List.foldlM_append, foldlM_tokens item]
    simpa [Reader.step] using h

/-- The tokens of members, and the end of their object, lead to what follows the object. -/
theorem foldlM_memberTokens : (members : List (List Char × Json)) → members ≠ [] →
    (done : List (List Char × Json)) → (outer : List Frame) →
    (memberTokens members ++ [Token.closeObject]).foldlM Reader.step (.nextKey done outer)
      = some (.after (.object (done.reverse ++ members)) outer)
  | [], h, _, _ => absurd rfl h
  | [(key, value)], _, done, outer => by
    rw [memberTokens, List.cons_append, List.cons_append, List.foldlM_cons]
    change ((value.tokens ++ [Token.closeObject]).foldlM Reader.step
      (.newValue (.object done key :: outer))) = _
    rw [List.foldlM_append, foldlM_tokens value]
    simp [Reader.step]
  | (key, value) :: next :: rest, _, done, outer => by
    have h := foldlM_memberTokens (next :: rest) (List.cons_ne_nil next rest)
      ((key, value) :: done) outer
    rw [memberTokens, List.cons_append, List.cons_append, List.append_assoc, List.foldlM_cons]
    change ((value.tokens ++ (Token.comma :: memberTokens (next :: rest)
      ++ [Token.closeObject])).foldlM Reader.step (.newValue (.object done key :: outer))) = _
    rw [List.foldlM_append, foldlM_tokens value]
    simpa [Reader.step] using h

end

/-- **The tokens of a value read as that value.** -/
theorem ofTokens?_tokens (value : Json) : ofTokens? value.tokens = some value := by
  rw [ofTokens?, foldlM_tokens]
  rfl

end OData.Json
