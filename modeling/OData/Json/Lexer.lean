import OData.Json.Basic
import OData.Json.Literal

/-!
# JSON tokens in a text

White space, the six punctuation marks, string literals, and words: the longest runs of other
characters, each of which has to be a number or one of `null`, `true` and `false`. Taking the longest
run loses nothing, because no two words may follow each other without a mark between them.
-/

namespace OData.Json

/-- White space between tokens. -/
def isBlank (c : Char) : Bool := c == ' ' || c == '\t' || c == '\n' || c == '\r'

/-- The token of a punctuation mark. -/
def punctuation? (c : Char) : Option Token :=
  match c with
  | '[' => some .openArray
  | ']' => some .closeArray
  | '\x7b' => some .openObject
  | '\x7d' => some .closeObject
  | ',' => some .comma
  | ':' => some .colon
  | _ => none

/-- Whether a character is part of a word. -/
def isWordChar (c : Char) : Bool := !isBlank c && (punctuation? c).isNone && c != '"'

/-- The token of a word. -/
def word? (word : List Char) : Option Token :=
  if word = "null".toList then some .null
  else if word = "true".toList then some (.bool true)
  else if word = "false".toList then some (.bool false)
  else if isNumber word then some (.number word)
  else none

/-- The text up to the quote that ends a literal, and the text after that quote. A backslash takes
the character after it along. -/
def splitLiteral? : List Char → Option (List Char × List Char)
  | [] => none
  | '"' :: rest => some ([], rest)
  | '\\' :: c :: rest => (splitLiteral? rest).map fun cut => ('\\' :: c :: cut.1, cut.2)
  | c :: rest => (splitLiteral? rest).map fun cut => (c :: cut.1, cut.2)

theorem length_splitLiteral? {text literal rest : List Char}
    (h : splitLiteral? text = some (literal, rest)) : rest.length < text.length := by
  fun_induction splitLiteral? text generalizing literal with
  | case1 => nomatch h
  | case2 tail =>
    obtain ⟨-, rfl⟩ : _ ∧ tail = rest := by simpa using h
    simp
  | case3 c tail ih =>
    obtain ⟨cut, hcut, heq⟩ := Option.map_eq_some_iff.1 h
    obtain ⟨-, rfl⟩ : _ ∧ cut.2 = rest := by simpa using heq
    have := ih hcut
    simp only [List.length_cons]
    omega
  | case4 c tail _ _ ih =>
    obtain ⟨cut, hcut, heq⟩ := Option.map_eq_some_iff.1 h
    obtain ⟨-, rfl⟩ : _ ∧ cut.2 = rest := by simpa using heq
    have := ih hcut
    simp only [List.length_cons]
    omega

/-- The token at the front of a text that starts with no white space, and the text after it. -/
def token? (c : Char) (rest : List Char) : Option (Token × List Char) :=
  if c = '"' then
    match splitLiteral? rest with
    | none => none
    | some (literal, after) =>
      if (codePoints? literal).isSome then some (.string literal, after) else none
  else
    match punctuation? c with
    | some mark => some (mark, rest)
    | none => (word? (c :: rest.takeWhile isWordChar)).map (·, rest.dropWhile isWordChar)

theorem length_token? {c : Char} {rest after : List Char} {token : Token}
    (h : token? c rest = some (token, after)) : after.length ≤ rest.length := by
  rw [token?] at h
  split at h
  · split at h
    · nomatch h
    · rename_i literal tail hcut
      split at h
      · obtain ⟨-, rfl⟩ : _ ∧ tail = after := by simpa using h
        exact Nat.le_of_lt (length_splitLiteral? hcut)
      · nomatch h
  · split at h
    · obtain ⟨-, rfl⟩ : _ ∧ rest = after := by simpa using h
      exact Nat.le_refl _
    · obtain ⟨_, -, heq⟩ := Option.map_eq_some_iff.1 h
      obtain ⟨-, rfl⟩ : _ ∧ rest.dropWhile isWordChar = after := by simpa using heq
      exact (List.dropWhile_suffix isWordChar).length_le

/-- The tokens of a text. -/
def lex : List Char → Option (List Token)
  | [] => some []
  | c :: rest =>
    if isBlank c then lex rest
    else
      match _ : token? c rest with
      | none => none
      | some (token, after) => (lex after).map (token :: ·)
termination_by text => text.length
decreasing_by
  · simp
  · exact Nat.lt_succ_of_le (length_token? ‹_›)

end OData.Json
