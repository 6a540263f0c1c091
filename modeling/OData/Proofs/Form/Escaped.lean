import OData.Proofs.Form
import OData.Proofs.Text.Words

/-!
# Escaped form text

How a text is written so that nothing in it is read as a mark: of the bytes of its UTF-8, those of
ASCII letters and digits are left as they are and every other one becomes `%XX`. What is written has
neither parentheses nor separators in it, whatever the text, and stands for the text.

## Main statements

* `decode_escape` — an escaped text stands for the text
* `not_mem_escape` — letters, digits and `%` are all that is written
-/

namespace OData.Form

open Text

/-- The hexadecimal digit of a value below sixteen, in upper case. -/
def upperHexDigit (n : Nat) : Char :=
  Char.ofNat (if n < 10 then '0'.toNat + n else 'A'.toNat + (n - 10))

/-- A digit of a value below sixteen, in either case. -/
def HexDigit (n : Nat) (digit : Char) : Prop := digit = hexDigit n ∨ digit = upperHexDigit n

/-- How a byte is written: as itself for an ASCII letter or digit, and as `%XX` otherwise. -/
def escapeByte (b : UInt8) : List Char :=
  if (Char.ofNat b.toNat).isAlphanum then [Char.ofNat b.toNat]
  else ['%', upperHexDigit (b.toNat / 16), upperHexDigit (b.toNat % 16)]

/-- A text with every byte of its UTF-8 written so. -/
def escape (text : List Char) : List Char := (encode text).flatMap escapeByte

/-! ## Digits -/

theorem hexValue?_upperHexDigit {n : Nat} (h : n < 16) :
    hexValue? (upperHexDigit n) = some n := by
  have hall : ∀ m ∈ List.range 16, hexValue? (upperHexDigit m) = some m := by decide
  exact hall n (List.mem_range.2 h)

theorem HexDigit.hexValue? {n : Nat} {digit : Char} (h : HexDigit n digit) (hn : n < 16) :
    hexValue? digit = some n := by
  rcases h with rfl | rfl
  · exact hexValue?_hexDigit hn
  · exact hexValue?_upperHexDigit hn

theorem HexDigit.isAlphanum {n : Nat} {digit : Char} (h : HexDigit n digit) (hn : n < 16) :
    digit.isAlphanum = true := by
  have hall : ∀ m ∈ List.range 16,
      (hexDigit m).isAlphanum = true ∧ (upperHexDigit m).isAlphanum = true := by decide
  obtain ⟨hlower, hupper⟩ := hall n (List.mem_range.2 hn)
  rcases h with rfl | rfl
  · exact hlower
  · exact hupper

/-- The two digits of a byte write that byte. -/
theorem hexByte?_of_hexDigit {b : UInt8} {high low : Char} (hhigh : HexDigit (b.toNat / 16) high)
    (hlow : HexDigit (b.toNat % 16) low) : hexByte? high low = some b := by
  have hb : b.toNat < 256 := b.toNat_lt_size
  have hsum : 16 * (b.toNat / 16) + b.toNat % 16 = b.toNat := by omega
  rw [hexByte?, hhigh.hexValue? (by omega), hlow.hexValue? (by omega)]
  show some (UInt8.ofNat (16 * (b.toNat / 16) + b.toNat % 16)) = some b
  rw [hsum, UInt8.ofNat_toNat]

theorem unescape_percent {high low : Char} {b : UInt8} (h : hexByte? high low = some b)
    (rest : List Char) : unescape ('%' :: high :: low :: rest) = b :: unescape rest := by
  rw [unescape, h]

/-! ## Reading what was written -/

theorem toNat_ofNat_of_lt {n : Nat} (h : n < 256) : (Char.ofNat n).toNat = n := by
  have hvalid : n.isValidChar := Or.inl (Nat.lt_trans h (by decide))
  rw [Char.ofNat, dif_pos hvalid]
  rfl

/-- ASCII letters and digits are bytes of their own. -/
theorem encodeChar_of_isAlphanum {c : Char} (h : c.isAlphanum = true) :
    encodeChar c = [UInt8.ofNat c.toNat] := by
  have hrange := continuesIdentifier_range (c := c) (by rw [continuesIdentifier, h]; rfl)
  rw [encodeChar, if_pos (by omega)]

theorem unescape_escapeByte (b : UInt8) (rest : List Char) :
    unescape (escapeByte b ++ rest) = b :: unescape rest := by
  rw [escapeByte]
  split
  · rename_i h
    have hpercent : Char.ofNat b.toNat ≠ '%' := fun hc => by rw [hc] at h; nomatch h
    have hplus : Char.ofNat b.toNat ≠ '+' := fun hc => by rw [hc] at h; nomatch h
    rw [List.singleton_append, unescape_cons_of_ne hpercent, plainChar, if_neg hplus,
      encodeChar_of_isAlphanum h, toNat_ofNat_of_lt b.toNat_lt_size, UInt8.ofNat_toNat]
    rfl
  · exact unescape_percent (hexByte?_of_hexDigit (Or.inr rfl) (Or.inr rfl)) rest

theorem unescape_escape (text : List Char) : unescape (escape text) = encode text := by
  unfold escape
  induction encode text with
  | nil => rfl
  | cons b bytes ih => rw [List.flatMap_cons, unescape_escapeByte, ih]

/-- **An escaped text stands for the text.** -/
theorem decode_escape (text : List Char) : decode (escape text) = text := by
  rw [decode, unescape_escape, decodeLossy_encode]

/-- **Letters, digits and `%` are all that is written.** -/
theorem not_mem_escape {c : Char} (halphanum : c.isAlphanum = false) (hpercent : c ≠ '%')
    (text : List Char) : c ∉ escape text := by
  intro hmem
  obtain ⟨b, -, hc⟩ := List.mem_flatMap.1 hmem
  have hb : b.toNat < 256 := b.toNat_lt_size
  rw [escapeByte] at hc
  split at hc
  · rename_i hplain
    obtain rfl := List.mem_singleton.1 hc
    rw [hplain] at halphanum
    nomatch halphanum
  · have hhigh := HexDigit.isAlphanum (n := b.toNat / 16) (Or.inr rfl) (by omega)
    have hlow := HexDigit.isAlphanum (n := b.toNat % 16) (Or.inr rfl) (by omega)
    simp only [List.mem_cons, List.not_mem_nil, or_false] at hc
    rcases hc with rfl | rfl | rfl
    · exact hpercent rfl
    · rw [hhigh] at halphanum
      nomatch halphanum
    · rw [hlow] at halphanum
      nomatch halphanum

end OData.Form
