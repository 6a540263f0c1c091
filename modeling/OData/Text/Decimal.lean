/-!
# Decimal numbers

Natural numbers written with ASCII digits.
-/

namespace OData.Text

/-- The digits of a number, with no leading zero. -/
def digits (n : Nat) : List Char := Nat.toDigits 10 n

/-- The number that a text of one or more digits writes. -/
def natural? (text : List Char) : Option Nat :=
  if !text.isEmpty && text.all Char.isDigit then some (Nat.ofDigitChars 10 text 0) else none

/-- The number that decimal digits write, with or without one `+` in front of them. -/
def unsigned? (text : List Char) : Option Nat :=
  natural? (if text.head? = some '+' then text.drop 1 else text)

/-- **The digits of a number read as that number.** -/
theorem natural?_digits (n : Nat) : natural? (digits n) = some n := by
  have hne : (Nat.toDigits 10 n).isEmpty = false := by
    simp [List.isEmpty_eq_false_iff]
  have hall : (Nat.toDigits 10 n).all Char.isDigit = true :=
    List.all_eq_true.2 fun c hc => Nat.isDigit_of_mem_toDigits (by decide) (by decide) hc
  rw [natural?, digits, hne, hall, Nat.ofDigitChars_ten_toDigits]
  rfl

end OData.Text
