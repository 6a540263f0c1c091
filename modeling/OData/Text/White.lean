/-!
# White space

The characters with the Unicode property `White_Space`, and the two cuts made with them: off the
front of a text, and off both of its ends.
-/

namespace OData.Text

/-- The first and last code points of each run of characters with the property `White_Space`. -/
def whiteRanges : List (Nat × Nat) :=
  [(0x09, 0x0D), (0x20, 0x20), (0x85, 0x85), (0xA0, 0xA0), (0x1680, 0x1680), (0x2000, 0x200A),
   (0x2028, 0x2029), (0x202F, 0x202F), (0x205F, 0x205F), (0x3000, 0x3000)]

/-- Whether a character has the property `White_Space`. -/
def isWhite (c : Char) : Bool :=
  whiteRanges.any fun range => range.1 ≤ c.toNat && c.toNat ≤ range.2

/-- The text without the white space it starts with. -/
def skipWhite (text : List Char) : List Char := text.dropWhile isWhite

/-- The text without the characters at its end that satisfy `p`. -/
def dropEndWhile (p : Char → Bool) (text : List Char) : List Char :=
  (text.reverse.dropWhile p).reverse

/-- The text without the white space at its two ends. -/
def trim (text : List Char) : List Char := dropEndWhile isWhite (skipWhite text)

/-! ## Lemmas -/

theorem skipWhite_suffix (text : List Char) : skipWhite text <:+ text :=
  List.dropWhile_suffix isWhite

/-- What is left starts with no white space. -/
theorem skipWhite_cons {text rest : List Char} {c : Char} (h : skipWhite text = c :: rest) :
    isWhite c = false := by
  have := List.head?_dropWhile_not isWhite text
  simp only [skipWhite] at h
  simpa [h] using this

end OData.Text
