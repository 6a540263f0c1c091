/-!
# UTF-8

Characters as bytes, and bytes as characters. The decoder is one machine for both kinds of reader:
it marks every place where the bytes are no UTF-8, and a strict reader refuses such a mark while a
lenient one puts `U+FFFD` there.

## What counts as one broken place

A broken place is a longest beginning of a character that the bytes do not finish, or a single byte
that begins none. The byte that breaks a beginning is read again, as the first byte of what follows.

## Main statements

* `scan_encodeChar` — a written character reads as itself
* `scan_pending_encodeChar` — a character after an unfinished beginning is still read whole
-/

namespace OData.Text

/-! ## Sizes -/

/-- The number of bytes that the characters of a text take. -/
def byteLength : List Char → Nat
  | [] => 0
  | c :: rest => c.utf8Size + byteLength rest

@[simp] theorem byteLength_nil : byteLength [] = 0 := rfl

@[simp] theorem byteLength_cons (c : Char) (rest : List Char) :
    byteLength (c :: rest) = c.utf8Size + byteLength rest := rfl

@[simp] theorem byteLength_append (a b : List Char) :
    byteLength (a ++ b) = byteLength a + byteLength b := by
  induction a with
  | nil => simp
  | cons c rest ih => simp [ih, Nat.add_assoc]

theorem byteLength_le_of_suffix {a b : List Char} (h : a <:+ b) : byteLength a ≤ byteLength b := by
  obtain ⟨front, rfl⟩ := h
  simp

/-- A piece is no longer than the pieces joined. -/
theorem byteLength_le_of_mem_intercalate (separator : Char) {pieces : List (List Char)}
    {piece : List Char} (h : piece ∈ pieces) :
    byteLength piece ≤ byteLength ([separator].intercalate pieces) := by
  induction pieces with
  | nil => nomatch h
  | cons first rest ih =>
    cases rest with
    | nil =>
      obtain rfl : piece = first := by simpa using h
      simp [List.intercalate]
    | cons second rest =>
      have hjoin : [separator].intercalate (first :: second :: rest)
          = first ++ separator :: [separator].intercalate (second :: rest) := by
        simp [List.intercalate]
      rw [hjoin, byteLength_append, byteLength_cons]
      rcases List.mem_cons.1 h with rfl | h
      · omega
      · have := ih h
        omega

theorem utf8Size_eq (c : Char) : c.utf8Size =
    if c.toNat < 0x80 then 1 else if c.toNat < 0x800 then 2
    else if c.toNat < 0x10000 then 3 else 4 := by
  simp only [Char.utf8Size, UInt32.le_iff_toNat_le, Char.toNat]
  have h1 : (UInt32.ofNatLT 0x7F (by decide)).toNat = 0x7F := rfl
  have h2 : (UInt32.ofNatLT 0x7FF (by decide)).toNat = 0x7FF := rfl
  have h3 : (UInt32.ofNatLT 0xFFFF (by decide)).toNat = 0xFFFF := rfl
  rw [h1, h2, h3]
  simp only [Nat.lt_succ_iff.symm]

/-- The code points of the characters are the numbers below `0x110000` that are no surrogates. -/
theorem toNat_range (c : Char) :
    c.toNat < 0xD800 ∨ (0xDFFF < c.toNat ∧ c.toNat < 0x110000) := c.valid

/-! ## Writing -/

/-- A byte that continues a character and carries the six lowest bits of `n`. -/
def tailByte (n : Nat) : UInt8 := UInt8.ofNat (0x80 + n % 64)

/-- The bytes of a character. -/
def encodeChar (c : Char) : List UInt8 :=
  if c.toNat < 0x80 then [UInt8.ofNat c.toNat]
  else if c.toNat < 0x800 then [UInt8.ofNat (0xC0 + c.toNat / 64), tailByte c.toNat]
  else if c.toNat < 0x10000 then
    [UInt8.ofNat (0xE0 + c.toNat / 4096), tailByte (c.toNat / 64), tailByte c.toNat]
  else
    [UInt8.ofNat (0xF0 + c.toNat / 262144), tailByte (c.toNat / 4096), tailByte (c.toNat / 64),
      tailByte c.toNat]

/-- The bytes of a text. -/
def encode (text : List Char) : List UInt8 := text.flatMap encodeChar

theorem encode_cons (c : Char) (rest : List Char) :
    encode (c :: rest) = encodeChar c ++ encode rest :=
  List.flatMap_cons

theorem length_encodeChar (c : Char) : (encodeChar c).length = c.utf8Size := by
  rw [utf8Size_eq, encodeChar]
  split
  · rfl
  · split
    · rfl
    · split <;> rfl

/-- **A text takes as many bytes as are written for it.** -/
theorem length_encode (text : List Char) : (encode text).length = byteLength text := by
  induction text with
  | nil => rfl
  | cons c rest ih => simp [encode, length_encodeChar] at ih ⊢; omega

/-! ## Reading -/

/-- A character of which some bytes have been read: the bits they carry, the number of bytes still
missing after the next one, and the first and last values that the next one may have. -/
structure Pending where
  bits : Nat
  missing : Nat
  low : Nat
  high : Nat

/-- Reads a byte that begins a character: what it decides at once, and what it leaves open. The
narrower ranges keep out the forms that are too long, the surrogates, and what lies above
`U+10FFFF`. -/
def beginChar (b : Nat) : List (Option Char) × Option Pending :=
  if b < 0x80 then ([some (Char.ofNat b)], none)
  else if b < 0xC2 then ([none], none)
  else if b < 0xE0 then ([], some ⟨b - 0xC0, 0, 0x80, 0xBF⟩)
  else if b < 0xF0 then
    ([], some ⟨b - 0xE0, 1, if b = 0xE0 then 0xA0 else 0x80, if b = 0xED then 0x9F else 0xBF⟩)
  else if b < 0xF5 then
    ([], some ⟨b - 0xF0, 2, if b = 0xF0 then 0x90 else 0x80, if b = 0xF4 then 0x8F else 0xBF⟩)
  else ([none], none)

/-- Reads a byte where a character may be pending. -/
def readByte (pending : Option Pending) (b : Nat) : List (Option Char) × Option Pending :=
  match pending with
  | none => beginChar b
  | some p =>
    if p.low ≤ b ∧ b ≤ p.high then
      let bits := p.bits * 64 + (b - 0x80)
      match p.missing with
      | 0 => ([some (Char.ofNat bits)], none)
      | missing + 1 => ([], some ⟨bits, missing, 0x80, 0xBF⟩)
    else (none :: (beginChar b).1, (beginChar b).2)

/-- The characters that bytes hold, with `none` for each broken place. -/
def scanFrom : Option Pending → List UInt8 → List (Option Char)
  | none, [] => []
  | some _, [] => [none]
  | pending, b :: rest =>
    (readByte pending b.toNat).1 ++ scanFrom (readByte pending b.toNat).2 rest

/-- The characters that bytes hold, with `none` for each broken place. -/
def scan (bytes : List UInt8) : List (Option Char) := scanFrom none bytes

/-- The text that bytes hold, if they hold nothing else. -/
def decode? (bytes : List UInt8) : Option (List Char) := (scan bytes).mapM id

/-- The text that bytes hold, with `U+FFFD` for each broken place. -/
def decodeLossy (bytes : List UInt8) : List Char :=
  (scan bytes).map fun c => c.getD (Char.ofNat 0xFFFD)

/-! ## Reading what was written -/

theorem toNat_ofNat_byte {n : Nat} (h : n < 256) : (UInt8.ofNat n).toNat = n := by
  simp [Nat.mod_eq_of_lt h]

theorem toNat_tailByte (n : Nat) : (tailByte n).toNat = 0x80 + n % 64 :=
  toNat_ofNat_byte (by omega)

theorem readByte_last {bits low high n : Nat} (hlow : low ≤ 0x80 + n % 64)
    (hhigh : 0x80 + n % 64 ≤ high) :
    readByte (some ⟨bits, 0, low, high⟩) (0x80 + n % 64)
      = ([some (Char.ofNat (bits * 64 + n % 64))], none) := by
  rw [readByte, if_pos ⟨hlow, hhigh⟩]
  simp only [Nat.add_sub_cancel_left]

theorem readByte_more {bits missing low high n : Nat} (hlow : low ≤ 0x80 + n % 64)
    (hhigh : 0x80 + n % 64 ≤ high) :
    readByte (some ⟨bits, missing + 1, low, high⟩) (0x80 + n % 64)
      = ([], some ⟨bits * 64 + n % 64, missing, 0x80, 0xBF⟩) := by
  rw [readByte, if_pos ⟨hlow, hhigh⟩]
  simp only [Nat.add_sub_cancel_left]

theorem beginChar_two {n : Nat} (h : 2 ≤ n) (h' : n < 0x20) :
    beginChar (0xC0 + n) = ([], some ⟨n, 0, 0x80, 0xBF⟩) := by
  rw [beginChar, if_neg (by omega), if_neg (by omega), if_pos (by omega), Nat.add_sub_cancel_left]

theorem beginChar_three {n : Nat} (h : n < 0x10) :
    beginChar (0xE0 + n) =
      ([], some ⟨n, 1, if n = 0 then 0xA0 else 0x80, if n = 0xD then 0x9F else 0xBF⟩) := by
  rw [beginChar, if_neg (by omega), if_neg (by omega), if_neg (by omega), if_pos (by omega),
    Nat.add_sub_cancel_left]
  simp [show (0xE0 + n = 0xED) ↔ n = 0xD by omega]

theorem beginChar_four {n : Nat} (h : n < 5) :
    beginChar (0xF0 + n) =
      ([], some ⟨n, 2, if n = 0 then 0x90 else 0x80, if n = 4 then 0x8F else 0xBF⟩) := by
  rw [beginChar, if_neg (by omega), if_neg (by omega), if_neg (by omega), if_neg (by omega),
    if_pos (by omega), Nat.add_sub_cancel_left]
  simp [show (0xF0 + n = 0xF4) ↔ n = 4 by omega]

/-- **A written character reads as itself.** -/
theorem scan_encodeChar (c : Char) (rest : List UInt8) :
    scanFrom none (encodeChar c ++ rest) = some c :: scanFrom none rest := by
  have hc := toNat_range c
  have hback : Char.ofNat c.toNat = c := Char.ofNat_toNat c
  rw [encodeChar]
  split
  · rename_i h
    simp [scanFrom, readByte, beginChar, toNat_ofNat_byte (show c.toNat < 256 by omega), h, hback]
  · split
    · simp only [List.cons_append, List.nil_append, scanFrom, toNat_tailByte,
        toNat_ofNat_byte (show 0xC0 + c.toNat / 64 < 256 by omega)]
      rw [show readByte none (0xC0 + c.toNat / 64) = _ from beginChar_two (by omega) (by omega)]
      simp only [List.nil_append]
      rw [readByte_last (by omega) (by omega),
        show c.toNat / 64 * 64 + c.toNat % 64 = c.toNat by omega, hback]
      rfl
    · split
      · simp only [List.cons_append, List.nil_append, scanFrom, toNat_tailByte,
          toNat_ofNat_byte (show 0xE0 + c.toNat / 4096 < 256 by omega)]
        rw [show readByte none (0xE0 + c.toNat / 4096) = _ from beginChar_three (by omega)]
        simp only [List.nil_append]
        rw [readByte_more (by split <;> omega) (by split <;> omega)]
        simp only [List.nil_append]
        rw [readByte_last (by omega) (by omega),
          show (c.toNat / 4096 * 64 + c.toNat / 64 % 64) * 64 + c.toNat % 64 = c.toNat by omega,
          hback]
        rfl
      · simp only [List.cons_append, List.nil_append, scanFrom, toNat_tailByte,
          toNat_ofNat_byte (show 0xF0 + c.toNat / 262144 < 256 by omega)]
        rw [show readByte none (0xF0 + c.toNat / 262144) = _ from beginChar_four (by omega)]
        simp only [List.nil_append]
        rw [readByte_more (by split <;> omega) (by split <;> omega)]
        simp only [List.nil_append]
        rw [readByte_more (by omega) (by omega)]
        simp only [List.nil_append]
        rw [readByte_last (by omega) (by omega),
          show ((c.toNat / 262144 * 64 + c.toNat / 4096 % 64) * 64 + c.toNat / 64 % 64) * 64
            + c.toNat % 64 = c.toNat by omega, hback]
        rfl

/-- A byte that begins a character ends what is pending, and is then read as if nothing was. -/
theorem scanFrom_pending_cons {p : Pending} {b : UInt8} (rest : List UInt8)
    (h : b.toNat < p.low ∨ p.high < b.toNat) :
    scanFrom (some p) (b :: rest) = none :: scanFrom none (b :: rest) := by
  have hread : readByte (some p) b.toNat = (none :: (beginChar b.toNat).1, (beginChar b.toNat).2) := by
    rw [readByte, if_neg (by omega)]
  rw [scanFrom, scanFrom, hread]
  rfl

/-- The first byte of a character continues none. -/
theorem encodeChar_head (c : Char) :
    ∃ b bytes, encodeChar c = b :: bytes ∧ (b.toNat < 0x80 ∨ 0xBF < b.toNat) := by
  have hc := toNat_range c
  rw [encodeChar]
  split
  · exact ⟨_, _, rfl, by rw [toNat_ofNat_byte (by omega)]; omega⟩
  · split
    · exact ⟨_, _, rfl, by rw [toNat_ofNat_byte (by omega)]; omega⟩
    · split
      · exact ⟨_, _, rfl, by rw [toNat_ofNat_byte (by omega)]; omega⟩
      · exact ⟨_, _, rfl, by rw [toNat_ofNat_byte (by omega)]; omega⟩

/-- **A character after an unfinished beginning is still read whole.** -/
theorem scan_pending_encodeChar {p : Pending} (hlow : 0x80 ≤ p.low) (hhigh : p.high ≤ 0xBF)
    (c : Char) (rest : List UInt8) :
    scanFrom (some p) (encodeChar c ++ rest) = none :: some c :: scanFrom none rest := by
  obtain ⟨b, bytes, hb, hrange⟩ := encodeChar_head c
  rw [← scan_encodeChar, hb, List.cons_append, scanFrom_pending_cons _ (by omega)]

theorem scan_encode (text : List Char) : scan (encode text) = text.map some := by
  induction text with
  | nil => rfl
  | cons c rest ih =>
    simp only [scan, encode, List.flatMap_cons, scan_encodeChar, List.map_cons] at ih ⊢
    rw [ih]

/-- **A written text reads as itself.** -/
theorem decode?_encode (text : List Char) : decode? (encode text) = some text := by
  rw [decode?, scan_encode]
  induction text with
  | nil => rfl
  | cons c rest ih => simp [List.mapM_cons, ih]

/-- **A written text has no broken place.** -/
theorem decodeLossy_encode (text : List Char) : decodeLossy (encode text) = text := by
  rw [decodeLossy, scan_encode, List.map_map]
  exact List.map_id' text

end OData.Text
