import OData.Text.Decimal
import OData.Text.Hex

/-!
# JSON literals

Strings and numbers as they are spelled. A string literal is kept as the text between its quotes,
because whether its escapes form characters matters only where its text is wanted: `\ud800` alone is
a fine literal, but it is no text.

## Main statements

* `text?_escape` — an escaped text is a literal for that text
-/

namespace OData.Json

open Text

/-! ## Strings -/

/-- The character that a letter after a backslash stands for. -/
def shortEscape? (c : Char) : Option Char :=
  match c with
  | '"' => some '"'
  | '\\' => some '\\'
  | '/' => some '/'
  | 'b' => some (Char.ofNat 0x08)
  | 'f' => some (Char.ofNat 0x0C)
  | 'n' => some '\n'
  | 'r' => some '\r'
  | 't' => some '\t'
  | _ => none

/-- The number that four hexadecimal digits write. -/
def hexQuad? (a b c d : Char) : Option Nat :=
  match hexValue? a, hexValue? b, hexValue? c, hexValue? d with
  | some a, some b, some c, some d => some (((a * 16 + b) * 16 + c) * 16 + d)
  | _, _, _, _ => none

/-- The code points that a literal spells, halves of surrogate pairs among them. A literal has no
control character below `U+0020` and no escape but the eight short ones and `\uXXXX`. -/
def codePoints? : List Char → Option (List Nat)
  | [] => some []
  | '\\' :: 'u' :: a :: b :: c :: d :: rest =>
    match hexQuad? a b c d with
    | some n => (codePoints? rest).map (n :: ·)
    | none => none
  | '\\' :: c :: rest =>
    match shortEscape? c with
    | some e => (codePoints? rest).map (e.toNat :: ·)
    | none => none
  | c :: rest => if c = '\\' ∨ c.toNat < 0x20 then none else (codePoints? rest).map (c.toNat :: ·)

/-- Whether a number is the first half of a surrogate pair. -/
def isHighHalf (n : Nat) : Bool := 0xD800 ≤ n && n < 0xDC00

/-- Whether a number is the second half of a surrogate pair. -/
def isLowHalf (n : Nat) : Bool := 0xDC00 ≤ n && n < 0xE000

/-- The characters of code points, each first half of a pair being followed by a second. -/
def joinHalves? : List Nat → Option (List Char)
  | [] => some []
  | [n] => if isHighHalf n || isLowHalf n then none else some [Char.ofNat n]
  | n :: m :: rest =>
    if isHighHalf n then
      if isLowHalf m then
        (joinHalves? rest).map (Char.ofNat (0x10000 + (n - 0xD800) * 0x400 + (m - 0xDC00)) :: ·)
      else none
    else if isLowHalf n then none
    else (joinHalves? (m :: rest)).map (Char.ofNat n :: ·)

/-- The text that a literal spells. -/
def text? (literal : List Char) : Option (List Char) := (codePoints? literal).bind joinHalves?

/-- How a character is written in a literal. -/
def escapeChar (c : Char) : List Char :=
  if c = '"' then ['\\', '"']
  else if c = '\\' then ['\\', '\\']
  else if c = '\n' then ['\\', 'n']
  else if c = '\r' then ['\\', 'r']
  else if c = '\t' then ['\\', 't']
  else if c.toNat = 0x08 then ['\\', 'b']
  else if c.toNat = 0x0C then ['\\', 'f']
  else if c.toNat < 0x20 then
    ['\\', 'u', '0', '0', hexDigit (c.toNat / 16), hexDigit (c.toNat % 16)]
  else [c]

/-- The literal of a text: only quotes, backslashes and control characters are escaped. -/
def escape (text : List Char) : List Char := text.flatMap escapeChar

/-! ## An escaped text reads as itself -/

/-- An escaped character spells the code point of that character. -/
theorem codePoints?_escapeChar (c : Char) (rest : List Char) :
    codePoints? (escapeChar c ++ rest) = (codePoints? rest).map (c.toNat :: ·) := by
  rw [escapeChar]
  split
  · subst_vars; rfl
  split
  · subst_vars; rfl
  split
  · subst_vars; rfl
  split
  · subst_vars; rfl
  split
  · subst_vars; rfl
  split
  · rename_i h; rw [h]; rfl
  split
  · rename_i h; rw [h]; rfl
  split
  · have hquad : hexQuad? '0' '0' (hexDigit (c.toNat / 16)) (hexDigit (c.toNat % 16))
        = some c.toNat := by
      rw [hexQuad?, hexValue?_hexDigit (by omega), hexValue?_hexDigit (by omega)]
      have h0 : hexValue? '0' = some 0 := by decide
      simp only [h0, Option.some.injEq]
      omega
    simp only [List.cons_append, List.nil_append, codePoints?, hquad]
  · rename_i hquote hslash _ _ _ _ _ hcontrol
    rw [List.singleton_append, codePoints?.eq_4, if_neg (by simp [hslash, hcontrol])]
    · exact fun _ _ _ _ _ h => absurd h hslash
    · exact fun _ _ h => absurd h hslash

theorem codePoints?_escape (text : List Char) :
    codePoints? (escape text) = some (text.map Char.toNat) := by
  induction text with
  | nil => rfl
  | cons c rest ih =>
    rw [escape, List.flatMap_cons, codePoints?_escapeChar]
    rw [escape] at ih
    rw [ih]
    rfl

/-- The code point of a character is no half of a pair. -/
theorem not_isHalf_toNat (c : Char) : isHighHalf c.toNat = false ∧ isLowHalf c.toNat = false := by
  have hc : c.toNat < 0xD800 ∨ (0xDFFF < c.toNat ∧ c.toNat < 0x110000) := c.valid
  simp only [isHighHalf, isLowHalf, Bool.and_eq_false_iff, decide_eq_false_iff_not]
  omega

theorem joinHalves?_toNat (text : List Char) : joinHalves? (text.map Char.toNat) = some text := by
  induction text with
  | nil => rfl
  | cons c rest ih =>
    obtain ⟨hhigh, hlow⟩ := not_isHalf_toNat c
    cases rest with
    | nil => simp [joinHalves?, hhigh, hlow, Char.ofNat_toNat]
    | cons d rest =>
      rw [List.map_cons, List.map_cons, joinHalves?, hhigh, hlow]
      rw [List.map_cons] at ih
      simp [ih, Char.ofNat_toNat]

/-- **An escaped text is a literal for that text.** -/
theorem text?_escape (text : List Char) : text? (escape text) = some text := by
  rw [text?, codePoints?_escape, Option.bind_some, joinHalves?_toNat]

/-! ## Numbers -/

/-- What follows a sign, if there is one. -/
def dropSign (signs : List Char) : List Char → List Char
  | [] => []
  | c :: rest => if signs.contains c then rest else c :: rest

/-- What follows one or more digits. -/
def dropDigits? (text : List Char) : Option (List Char) :=
  if (text.takeWhile Char.isDigit).isEmpty then none else some (text.dropWhile Char.isDigit)

/-- What follows the whole part of a number, which has no leading zero. -/
def dropWhole? : List Char → Option (List Char)
  | '0' :: rest => some rest
  | text => dropDigits? text

/-- What follows the fraction, if there is one. -/
def dropFraction? : List Char → Option (List Char)
  | '.' :: rest => dropDigits? rest
  | text => some text

/-- What follows the exponent, if there is one. -/
def dropExponent? : List Char → Option (List Char)
  | 'e' :: rest => dropDigits? (dropSign ['+', '-'] rest)
  | 'E' :: rest => dropDigits? (dropSign ['+', '-'] rest)
  | text => some text

/-- Whether a text is a number literal. -/
def isNumber (text : List Char) : Bool :=
  (((dropWhole? (dropSign ['-'] text)).bind dropFraction?).bind dropExponent?) == some []

end OData.Json
