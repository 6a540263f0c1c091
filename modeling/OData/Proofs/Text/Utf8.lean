import OData.Text.Utf8

/-!
# Which bytes are UTF-8

The bytes that the reader accepts are the ones that are written for some text, and it gives that
text. The reader goes through them byte by byte; here they are taken apart character by character.

## Main statements

* `scan_eq_some_cons_iff` — a character that is read was written in front of the rest
* `decode?_eq_some_iff` — a text that is read was written
-/

namespace OData.Text

/-! ## Bytes of a character -/

theorem ofNat_eq_of_toNat {b : UInt8} {n : Nat} (h : n = b.toNat) : UInt8.ofNat n = b := by
  rw [h, UInt8.ofNat_toNat]

theorem toNat_ofNat_char {n : Nat} (h : n < 0xD800 ∨ 0xDFFF < n ∧ n < 0x110000) :
    (Char.ofNat n).toNat = n := by
  rw [Char.ofNat, dif_pos h]
  rfl

theorem encodeChar_ofNat_one {b : UInt8} (h : b.toNat < 0x80) :
    encodeChar (Char.ofNat b.toNat) = [b] := by
  rw [encodeChar, toNat_ofNat_char (by omega), if_pos h, UInt8.ofNat_toNat]

theorem encodeChar_ofNat_two {a b : UInt8} (ha : 0xC2 ≤ a.toNat ∧ a.toNat < 0xE0)
    (hb : 0x80 ≤ b.toNat ∧ b.toNat ≤ 0xBF) :
    encodeChar (Char.ofNat ((a.toNat - 0xC0) * 64 + (b.toNat - 0x80))) = [a, b] := by
  generalize hn : (a.toNat - 0xC0) * 64 + (b.toNat - 0x80) = n
  rw [encodeChar, toNat_ofNat_char (by omega), if_neg (by omega), if_pos (by omega), tailByte,
    ofNat_eq_of_toNat (b := a) (by omega), ofNat_eq_of_toNat (b := b) (by omega)]

theorem encodeChar_ofNat_three {a b c : UInt8} (ha : 0xE0 ≤ a.toNat ∧ a.toNat < 0xF0)
    (hb : (if a.toNat = 0xE0 then 0xA0 else 0x80) ≤ b.toNat ∧
      b.toNat ≤ if a.toNat = 0xED then 0x9F else 0xBF)
    (hc : 0x80 ≤ c.toNat ∧ c.toNat ≤ 0xBF) :
    encodeChar (Char.ofNat (((a.toNat - 0xE0) * 64 + (b.toNat - 0x80)) * 64 + (c.toNat - 0x80))) =
      [a, b, c] := by
  obtain ⟨hlow, hhigh⟩ := hb
  have hb : 0x80 ≤ b.toNat ∧ b.toNat ≤ 0xBF :=
    ⟨by split at hlow <;> omega, by split at hhigh <;> omega⟩
  have hlong : a.toNat = 0xE0 → 0xA0 ≤ b.toNat := fun ha => by rwa [if_pos ha] at hlow
  have hhalf : a.toNat = 0xED → b.toNat ≤ 0x9F := fun ha => by rwa [if_pos ha] at hhigh
  generalize hn : ((a.toNat - 0xE0) * 64 + (b.toNat - 0x80)) * 64 + (c.toNat - 0x80) = n
  rw [encodeChar, toNat_ofNat_char (by omega), if_neg (by omega), if_neg (by omega),
    if_pos (by omega), tailByte, tailByte, ofNat_eq_of_toNat (b := a) (by omega),
    ofNat_eq_of_toNat (b := b) (by omega), ofNat_eq_of_toNat (b := c) (by omega)]

theorem encodeChar_ofNat_four {a b c d : UInt8} (ha : 0xF0 ≤ a.toNat ∧ a.toNat < 0xF5)
    (hb : (if a.toNat = 0xF0 then 0x90 else 0x80) ≤ b.toNat ∧
      b.toNat ≤ if a.toNat = 0xF4 then 0x8F else 0xBF)
    (hc : 0x80 ≤ c.toNat ∧ c.toNat ≤ 0xBF) (hd : 0x80 ≤ d.toNat ∧ d.toNat ≤ 0xBF) :
    encodeChar (Char.ofNat ((((a.toNat - 0xF0) * 64 + (b.toNat - 0x80)) * 64
      + (c.toNat - 0x80)) * 64 + (d.toNat - 0x80))) = [a, b, c, d] := by
  obtain ⟨hlow, hhigh⟩ := hb
  have hb : 0x80 ≤ b.toNat ∧ b.toNat ≤ 0xBF :=
    ⟨by split at hlow <;> omega, by split at hhigh <;> omega⟩
  have hlong : a.toNat = 0xF0 → 0x90 ≤ b.toNat := fun ha => by rwa [if_pos ha] at hlow
  have hlast : a.toNat = 0xF4 → b.toNat ≤ 0x8F := fun ha => by rwa [if_pos ha] at hhigh
  generalize hn : (((a.toNat - 0xF0) * 64 + (b.toNat - 0x80)) * 64 + (c.toNat - 0x80)) * 64
    + (d.toNat - 0x80) = n
  rw [encodeChar, toNat_ofNat_char (by omega), if_neg (by omega), if_neg (by omega),
    if_neg (by omega), tailByte, tailByte, tailByte, ofNat_eq_of_toNat (b := a) (by omega),
    ofNat_eq_of_toNat (b := b) (by omega), ofNat_eq_of_toNat (b := c) (by omega),
    ofNat_eq_of_toNat (b := d) (by omega)]

/-! ## Reading one character -/

variable {bits missing low high : Nat} {c : Char} {chars : List (Option Char)} {bytes : List UInt8}

/-- The last byte of a pending character. -/
theorem scanFrom_last (h : scanFrom (some ⟨bits, 0, low, high⟩) bytes = some c :: chars) :
    ∃ b rest, bytes = b :: rest ∧ (low ≤ b.toNat ∧ b.toNat ≤ high) ∧
      c = Char.ofNat (bits * 64 + (b.toNat - 0x80)) ∧ scanFrom none rest = chars := by
  cases bytes with
  | nil => simp [scanFrom] at h
  | cons b rest =>
    rw [scanFrom, readByte] at h
    dsimp only at h
    split at h
    · rename_i hrange
      obtain ⟨hc, hrest⟩ := List.cons.inj h
      exact ⟨b, rest, rfl, hrange, (Option.some.inj hc).symm, hrest⟩
    · simp at h

/-- A byte of a pending character that is not the last. -/
theorem scanFrom_more
    (h : scanFrom (some ⟨bits, missing + 1, low, high⟩) bytes = some c :: chars) :
    ∃ b rest, bytes = b :: rest ∧ (low ≤ b.toNat ∧ b.toNat ≤ high) ∧
      scanFrom (some ⟨bits * 64 + (b.toNat - 0x80), missing, 0x80, 0xBF⟩) rest =
        some c :: chars := by
  cases bytes with
  | nil => simp [scanFrom] at h
  | cons b rest =>
    rw [scanFrom, readByte] at h
    dsimp only at h
    split at h
    · rename_i hrange
      exact ⟨b, rest, rfl, hrange, h⟩
    · simp at h

theorem scanFrom_pending_ne_nil (p : Pending) (bytes : List UInt8) :
    scanFrom (some p) bytes ≠ [] := by
  induction bytes generalizing p with
  | nil => simp [scanFrom]
  | cons b rest ih =>
    rw [scanFrom, readByte]
    dsimp only
    split
    · split
      · simp
      · exact ih _
    · simp

/-- What the first byte leaves open, when it decides on no broken place. -/
theorem scan_cons (a : UInt8) (rest : List UInt8) :
    (a.toNat < 0x80 ∧ scan (a :: rest) = some (Char.ofNat a.toNat) :: scan rest) ∨
    (0xC2 ≤ a.toNat ∧ a.toNat < 0xE0 ∧
      scan (a :: rest) = scanFrom (some ⟨a.toNat - 0xC0, 0, 0x80, 0xBF⟩) rest) ∨
    (0xE0 ≤ a.toNat ∧ a.toNat < 0xF0 ∧ scan (a :: rest) =
      scanFrom (some ⟨a.toNat - 0xE0, 1, if a.toNat = 0xE0 then 0xA0 else 0x80,
        if a.toNat = 0xED then 0x9F else 0xBF⟩) rest) ∨
    (0xF0 ≤ a.toNat ∧ a.toNat < 0xF5 ∧ scan (a :: rest) =
      scanFrom (some ⟨a.toNat - 0xF0, 2, if a.toNat = 0xF0 then 0x90 else 0x80,
        if a.toNat = 0xF4 then 0x8F else 0xBF⟩) rest) ∨
    scan (a :: rest) = none :: scan rest := by
  simp only [scan, scanFrom, readByte, beginChar]
  by_cases h1 : a.toNat < 0x80
  · exact Or.inl ⟨h1, by simp [h1]⟩
  by_cases h2 : a.toNat < 0xC2
  · simp [h1, h2]
  by_cases h3 : a.toNat < 0xE0
  · exact Or.inr (Or.inl ⟨by omega, h3, by simp [h1, h2, h3]⟩)
  by_cases h4 : a.toNat < 0xF0
  · exact Or.inr (Or.inr (Or.inl ⟨by omega, h4, by simp [h1, h2, h3, h4]⟩))
  by_cases h5 : a.toNat < 0xF5
  · exact Or.inr (Or.inr (Or.inr (Or.inl ⟨by omega, h5, by simp [h1, h2, h3, h4, h5]⟩)))
  · simp [h1, h2, h3, h4, h5]

/-- Bytes that hold nothing are none. -/
theorem eq_nil_of_scan (h : scan bytes = []) : bytes = [] := by
  cases bytes with
  | nil => rfl
  | cons a rest =>
    rcases scan_cons a rest with ⟨-, hscan⟩ | ⟨-, -, hscan⟩ | ⟨-, -, hscan⟩ | ⟨-, -, hscan⟩ | hscan
    · nomatch hscan.symm.trans h
    · exact absurd (hscan.symm.trans h) (scanFrom_pending_ne_nil _ _)
    · exact absurd (hscan.symm.trans h) (scanFrom_pending_ne_nil _ _)
    · exact absurd (hscan.symm.trans h) (scanFrom_pending_ne_nil _ _)
    · nomatch hscan.symm.trans h

/-- **A character that is read was written in front of the rest.** -/
theorem scan_eq_some_cons_iff :
    scan bytes = some c :: chars ↔ ∃ rest, bytes = encodeChar c ++ rest ∧ scan rest = chars := by
  constructor
  · intro h
    cases bytes with
    | nil => nomatch h
    | cons a rest =>
      rcases scan_cons a rest with ⟨ha, hscan⟩ | ⟨hlow, hhigh, hscan⟩ | ⟨hlow, hhigh, hscan⟩ |
        ⟨hlow, hhigh, hscan⟩ | hscan
      · obtain ⟨hc, hrest⟩ := List.cons.inj (hscan.symm.trans h)
        obtain rfl := Option.some.inj hc
        exact ⟨rest, by rw [encodeChar_ofNat_one ha]; rfl, hrest⟩
      · obtain ⟨b, rest, rfl, hb, hchar, hrest⟩ := scanFrom_last (hscan.symm.trans h)
        exact ⟨rest, by rw [hchar, encodeChar_ofNat_two ⟨hlow, hhigh⟩ hb]; rfl, hrest⟩
      · obtain ⟨b, rest, rfl, hb, h⟩ := scanFrom_more (hscan.symm.trans h)
        obtain ⟨c, rest, rfl, hc, hchar, hrest⟩ := scanFrom_last h
        exact ⟨rest, by rw [hchar, encodeChar_ofNat_three ⟨hlow, hhigh⟩ hb hc]; rfl, hrest⟩
      · obtain ⟨b, rest, rfl, hb, h⟩ := scanFrom_more (hscan.symm.trans h)
        obtain ⟨c, rest, rfl, hc, h⟩ := scanFrom_more h
        obtain ⟨d, rest, rfl, hd, hchar, hrest⟩ := scanFrom_last h
        exact ⟨rest, by rw [hchar, encodeChar_ofNat_four ⟨hlow, hhigh⟩ hb hc hd]; rfl, hrest⟩
      · nomatch hscan.symm.trans h
  · rintro ⟨rest, rfl, rfl⟩
    exact scan_encodeChar c rest

theorem scan_eq_map_some_iff {text : List Char} :
    scan bytes = text.map some ↔ bytes = encode text := by
  constructor
  · intro h
    induction text generalizing bytes with
    | nil => exact eq_nil_of_scan h
    | cons c rest ih =>
      obtain ⟨after, rfl, hafter⟩ := scan_eq_some_cons_iff.1 h
      rw [ih hafter, encode_cons]
  · rintro rfl
    exact scan_encode text

/-- The strict reader accepts characters without a broken place among them. -/
theorem mapM_id_eq_some_iff {chars : List (Option Char)} {text : List Char} :
    chars.mapM id = some text ↔ chars = text.map some := by
  constructor
  · intro h
    induction chars generalizing text with
    | nil =>
      obtain rfl : [] = text := Option.some.inj h
      rfl
    | cons first rest ih =>
      rw [List.mapM_cons] at h
      obtain ⟨c, hc, h⟩ := Option.bind_eq_some_iff.1 h
      obtain ⟨tail, htail, h⟩ := Option.bind_eq_some_iff.1 h
      obtain rfl : c :: tail = text := Option.some.inj h
      rw [List.map_cons, ← ih htail]
      exact congrArg (· :: rest) hc
  · rintro rfl
    induction text with
    | nil => rfl
    | cons c rest ih => rw [List.map_cons, List.mapM_cons, ih]; rfl

/-- **The text that is read is the one whose bytes these are.** -/
theorem decode?_eq_some_iff {text : List Char} :
    decode? bytes = some text ↔ bytes = encode text := by
  rw [decode?, mapM_id_eq_some_iff, scan_eq_map_some_iff]

/-- Bytes that are refused are the bytes of no text. -/
theorem decode?_eq_none_iff : decode? bytes = none ↔ ∀ text, bytes ≠ encode text := by
  simp only [Option.eq_none_iff_forall_ne_some, ne_eq, decode?_eq_some_iff]

end OData.Text
