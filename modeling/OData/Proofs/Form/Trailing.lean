import OData.Proofs.Form
import OData.Proofs.Text.Words

/-!
# White space behind a form value

Decoding a value leaves the white space behind it as it is. This takes an argument, for the value
may end in the middle of something: in a `%` whose digits are missing, and white space holds no
digit, or in a character of which some bytes are missing, and white space continues no character.

## Main statements

* `scanFrom_append_encode` — bytes that end in the middle of a character do not spoil what follows
* `decode_append_white` — white space behind a value stands for itself
-/

namespace OData

open Text

/-! ## Bytes -/

/-- **A text behind any bytes is read as itself.** -/
theorem Text.scanFrom_append_encode (text : List Char) (bytes : List UInt8)
    {pending : Option Pending} (h : ∀ p, pending = some p → 0x80 ≤ p.low ∧ p.high ≤ 0xBF) :
    scanFrom pending (bytes ++ encode text) = scanFrom pending bytes ++ text.map some := by
  induction bytes generalizing pending with
  | nil =>
    cases pending with
    | none => exact scan_encode text
    | some p =>
      obtain ⟨hlow, hhigh⟩ := h p rfl
      cases text with
      | nil => rfl
      | cons c rest =>
        have hchar := scan_pending_encodeChar hlow hhigh c (encode rest)
        rw [show scanFrom none (encode rest) = rest.map some from scan_encode rest] at hchar
        exact hchar
  | cons b bytes ih =>
    have hnext := ih fun p (hp : (readByte pending b.toNat).2 = some p) =>
      Form.range_of_readByte hp
    cases pending <;> simp only [List.cons_append, scanFrom, hnext, List.append_assoc]

namespace Form

theorem decodeLossy_append_encode (bytes : List UInt8) (text : List Char) :
    decodeLossy (bytes ++ encode text) = decodeLossy bytes ++ text := by
  have hscan : scan (bytes ++ encode text) = scan bytes ++ text.map some :=
    scanFrom_append_encode text bytes nofun
  rw [decodeLossy, hscan, List.map_append, List.map_map]
  exact congrArg _ (List.map_id' text)

/-! ## Escapes -/

theorem hexValue?_of_isWhite {c : Char} (h : isWhite c = true) : hexValue? c = none := by
  have hrange : ∀ low high : Char, low ≤ c ∧ c ≤ high →
      low.toNat ≤ c.toNat ∧ c.toNat ≤ high.toNat :=
    fun low high hc => ⟨UInt32.le_iff_toNat_le.1 hc.1, UInt32.le_iff_toNat_le.1 hc.2⟩
  have hdigit := hrange '0' '9'
  have hlower := hrange 'a' 'f'
  have hupper := hrange 'A' 'F'
  simp only [isWhite, whiteRanges, List.any_cons, List.any_nil, Bool.or_false, Bool.or_eq_true,
    Bool.and_eq_true, decide_eq_true_eq] at h
  have h0 : '0'.toNat = 48 := rfl
  have h9 : '9'.toNat = 57 := rfl
  have ha : 'a'.toNat = 97 := rfl
  have hf : 'f'.toNat = 102 := rfl
  have hA : 'A'.toNat = 65 := rfl
  have hF : 'F'.toNat = 70 := rfl
  rw [hexValue?, if_neg fun hc => by have := hdigit hc; omega,
    if_neg fun hc => by have := hlower hc; omega, if_neg fun hc => by have := hupper hc; omega]

theorem hexByte?_of_isWhite {high low : Char} (h : isWhite high = true ∨ isWhite low = true) :
    hexByte? high low = none := by
  rcases h with h | h
  · rw [hexByte?, hexValue?_of_isWhite h]
    rfl
  · rw [hexByte?, hexValue?_of_isWhite h]
    cases hexValue? high <;> rfl

theorem plain_of_allWhite {white : List Char} (h : AllWhite white) : Plain white :=
  fun c hc => ⟨ne_of_isWhite (h c hc) (by decide), ne_of_isWhite (h c hc) (by decide)⟩

theorem unescape_of_allWhite {white : List Char} (h : AllWhite white) :
    unescape white = encode white := by
  have hplain := unescape_append (plain_of_allWhite h) []
  rwa [List.append_nil, unescape, List.append_nil] at hplain

/-- A `%` without two digits behind it stands for itself. -/
theorem unescape_percent_cons {rest : List Char}
    (h : ∀ high low tail, rest = high :: low :: tail → hexByte? high low = none) :
    unescape ('%' :: rest) = encodeChar '%' ++ unescape rest := by
  match rest with
  | [] => rfl
  | [high] => rfl
  | high :: low :: tail => rw [unescape, h high low tail rfl]

theorem unescape_append_white {white : List Char} (h : AllWhite white) (text : List Char) :
    unescape (text ++ white) = unescape text ++ encode white := by
  fun_induction unescape text with
  | case1 => exact unescape_of_allWhite h
  | case2 high low rest b hb ih =>
    simp only [List.cons_append, unescape, hb, ih]
  | case3 high low rest hb ih =>
    simp only [List.cons_append, unescape, hb, List.append_assoc]
    exact congrArg _ ih
  | case4 c rest hc ih =>
    rw [List.append_assoc, ← ih, List.cons_append]
    by_cases hpercent : c = '%'
    · -- the text ends too soon for two digits, and the white space has none
      subst hpercent
      refine unescape_percent_cons fun high low tail hdigits => hexByte?_of_isWhite ?_
      rcases rest with - | ⟨digit, - | ⟨second, rest⟩⟩
      · obtain rfl : white = high :: low :: tail := hdigits
        exact Or.inl (h high List.mem_cons_self)
      · obtain ⟨-, rfl⟩ : digit = high ∧ white = low :: tail := by simpa using hdigits
        exact Or.inr (h low List.mem_cons_self)
      · exact absurd rfl (hc digit second rest rfl)
    · exact unescape_cons_of_ne hpercent _

/-- **White space behind a value stands for itself.** -/
theorem decode_append_white {white : List Char} (h : AllWhite white) (text : List Char) :
    decode (text ++ white) = decode text ++ white := by
  rw [decode, unescape_append_white h, decodeLossy_append_encode]
  rfl

/-- **White space behind a key and a value belongs to the value.** -/
theorem pairOf_append_white {piece white : List Char} (hmem : '=' ∈ piece) (h : AllWhite white) :
    pairOf (piece ++ white) = ((pairOf piece).1, (pairOf piece).2 ++ white) := by
  obtain ⟨key, value, rfl, hkey⟩ := List.eq_append_cons_of_mem hmem
  rw [List.append_assoc, List.cons_append, pairOf_append_cons hkey, pairOf_append_cons hkey,
    decode_append_white h]

end Form

end OData
