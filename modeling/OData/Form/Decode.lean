import OData.Text.Hex
import OData.Text.Utf8

/-!
# Form decoding

How a key or a value is read from `application/x-www-form-urlencoded` text: `+` stands for a space,
`%XX` for a byte, and the bytes so written are read as UTF-8, each broken place becoming `U+FFFD`.
A `%` that two hexadecimal digits do not follow stands for itself.

## Why decoding never makes a text longer

Characters left as they are always read as themselves, so a broken place holds only bytes that were
written `%XX`. It has one such byte at least, which took three bytes of the text, and `U+FFFD` takes
three. This is what lets a clause nested in a decoded value be read by recursion on its size.

## Main statement

* `byteLength_decode_le` — a decoded text takes no more bytes than the text it was written as
-/

namespace OData.Form

open Text

/-- The byte that two hexadecimal digits write. -/
def hexByte? (high low : Char) : Option UInt8 :=
  (hexValue? high).bind fun h => (hexValue? low).map fun l => UInt8.ofNat (16 * h + l)

/-- What a character stands for outside an escape. -/
def plainChar (c : Char) : Char := if c = '+' then ' ' else c

/-- The bytes that a text stands for. -/
def unescape : List Char → List UInt8
  | [] => []
  | '%' :: high :: low :: rest =>
    match hexByte? high low with
    | some b => b :: unescape rest
    | none => encodeChar '%' ++ unescape (high :: low :: rest)
  | c :: rest => encodeChar (plainChar c) ++ unescape rest

/-- The text that a key or a value stands for. -/
def decode (text : List Char) : List Char := decodeLossy (unescape text)

/-! ## Size -/

/-- The bytes that a character, or a broken place, takes in the decoded text. -/
def decodedSize (chars : List (Option Char)) : Nat :=
  byteLength (chars.map fun c => c.getD (Char.ofNat 0xFFFD))

@[simp] theorem decodedSize_nil : decodedSize [] = 0 := rfl

@[simp] theorem decodedSize_append (a b : List (Option Char)) :
    decodedSize (a ++ b) = decodedSize a + decodedSize b := by
  simp [decodedSize]

@[simp] theorem decodedSize_none_cons (rest : List (Option Char)) :
    decodedSize (none :: rest) = 3 + decodedSize rest := rfl

@[simp] theorem decodedSize_some_cons (c : Char) (rest : List (Option Char)) :
    decodedSize (some c :: rest) = c.utf8Size + decodedSize rest := rfl

/-- The bytes that a pending character has already been paid for with. -/
def credit : Option Pending → Nat
  | none => 0
  | some _ => 3

theorem decodedSize_beginChar_le (b : Nat) :
    decodedSize (beginChar b).1 + credit (beginChar b).2 ≤ 3 := by
  rw [beginChar]
  split
  · rename_i h
    have hall : ∀ n ∈ List.range 0x80, (Char.ofNat n).utf8Size = 1 := by decide +kernel
    simp [hall b (List.mem_range.2 h), credit]
  · repeat' split
    all_goals simp [credit]

/-- An escaped byte takes three bytes of the text, and gives at most three. -/
theorem decodedSize_readByte_le (pending : Option Pending) (b : Nat) :
    decodedSize (readByte pending b).1 + credit (readByte pending b).2 ≤ 3 + credit pending := by
  have hbegin := decodedSize_beginChar_le b
  cases pending with
  | none => simpa [readByte, credit] using hbegin
  | some p =>
    simp only [readByte]
    split
    · split
      · have := (Char.ofNat (p.bits * 64 + (b - 0x80))).utf8Size_le_four
        simp only [decodedSize_some_cons, decodedSize_nil, credit]
        omega
      · simp [credit]
    · simp only [decodedSize_none_cons, credit] at hbegin ⊢
      omega

/-- The ranges of a pending character hold only bytes that continue one. -/
theorem range_of_beginChar {b : Nat} {p : Pending} (h : (beginChar b).2 = some p) :
    0x80 ≤ p.low ∧ p.high ≤ 0xBF := by
  rw [beginChar] at h
  split at h
  · cases h
  split at h
  · cases h
  split at h
  · obtain rfl := Option.some.inj h
    exact ⟨Nat.le_refl _, Nat.le_refl _⟩
  split at h
  · obtain rfl := Option.some.inj h
    dsimp only
    exact ⟨by split <;> omega, by split <;> omega⟩
  split at h
  · obtain rfl := Option.some.inj h
    dsimp only
    exact ⟨by split <;> omega, by split <;> omega⟩
  · cases h

theorem range_of_readByte {pending : Option Pending} {b : Nat} {p : Pending}
    (h : (readByte pending b).2 = some p) : 0x80 ≤ p.low ∧ p.high ≤ 0xBF := by
  cases pending with
  | none => exact range_of_beginChar h
  | some q =>
    rw [readByte] at h
    split at h
    · dsimp only at h
      split at h
      · simp at h
      · obtain rfl := Option.some.inj h
        exact ⟨Nat.le_refl _, Nat.le_refl _⟩
    · exact range_of_beginChar h

/-- A character left as it is gives itself, after a broken place if one was pending. -/
theorem decodedSize_encodeChar_append_le {pending : Option Pending}
    (hrange : ∀ p, pending = some p → 0x80 ≤ p.low ∧ p.high ≤ 0xBF) (c : Char)
    (rest : List UInt8) :
    decodedSize (scanFrom pending (encodeChar c ++ rest)) ≤
      credit pending + c.utf8Size + decodedSize (scanFrom none rest) := by
  cases pending with
  | none => simp [scan_encodeChar, credit]
  | some p =>
    obtain ⟨hlow, hhigh⟩ := hrange p rfl
    simp only [scan_pending_encodeChar hlow hhigh, decodedSize_none_cons, decodedSize_some_cons,
      credit]
    omega

theorem decodedSize_scanFrom_le (text : List Char) (pending : Option Pending)
    (hrange : ∀ p, pending = some p → 0x80 ≤ p.low ∧ p.high ≤ 0xBF) :
    decodedSize (scanFrom pending (unescape text)) ≤ byteLength text + credit pending := by
  fun_induction unescape text generalizing pending with
  | case1 =>
    cases pending with
    | none => simp [scanFrom]
    | some p => simp [scanFrom, credit]
  | case2 high low rest b hb ih =>
    have hstep := decodedSize_readByte_le pending b.toNat
    have hnext := ih (readByte pending b.toNat).2 fun p hp => range_of_readByte hp
    have h1 := high.utf8Size_pos
    have h2 := low.utf8Size_pos
    have h3 : ('%' : Char).utf8Size = 1 := by decide
    have hscan : scanFrom pending (b :: unescape rest) =
        (readByte pending b.toNat).1 ++ scanFrom (readByte pending b.toNat).2 (unescape rest) := by
      cases pending <;> rfl
    rw [hscan]
    simp only [decodedSize_append, byteLength_cons, h3] at hnext ⊢
    omega
  | case3 high low rest hb ih =>
    have hstep := decodedSize_encodeChar_append_le hrange '%' (unescape (high :: low :: rest))
    have hnext := ih none (by simp)
    simp only [byteLength_cons, credit] at hstep hnext ⊢
    omega
  | case4 c rest hc ih =>
    have hstep := decodedSize_encodeChar_append_le hrange (plainChar c) (unescape rest)
    have hnext := ih none (by simp)
    have hplain : (plainChar c).utf8Size = c.utf8Size := by
      rw [plainChar]
      split
      · rename_i h
        rw [h]
        decide
      · rfl
    simp only [byteLength_cons, credit, hplain] at hstep hnext ⊢
    omega

/-- **A decoded text takes no more bytes than the text it was written as.** -/
theorem byteLength_decode_le (text : List Char) : byteLength (decode text) ≤ byteLength text :=
  decodedSize_scanFrom_le text none (by simp)

end OData.Form
