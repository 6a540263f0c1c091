import OData.Form.Pairs

/-!
# Plain form text

Text without `%` and `+` is decoded to itself, and without `&` it is one piece. Most of what is
written in a query string is of this kind: names, parentheses, commas, and the keys of options.
-/

namespace OData.Form

open Text

/-- Text that decoding leaves as it is. -/
def Plain (text : List Char) : Prop := ∀ c ∈ text, c ≠ '%' ∧ c ≠ '+'

theorem unescape_cons_of_ne {c : Char} (h : c ≠ '%') (rest : List Char) :
    unescape (c :: rest) = encodeChar (plainChar c) ++ unescape rest := by
  rw [unescape]
  intro high low tail hc
  exact absurd hc h

theorem unescape_append {a : List Char} (h : Plain a) (b : List Char) :
    unescape (a ++ b) = encode a ++ unescape b := by
  induction a with
  | nil => rfl
  | cons c rest ih =>
    obtain ⟨hpercent, hplus⟩ := h c List.mem_cons_self
    rw [List.cons_append, unescape_cons_of_ne hpercent, plainChar, if_neg hplus,
      ih fun x hx => h x (List.mem_cons_of_mem _ hx)]
    simp [encode]

/-- **Plain text stands for itself.** -/
theorem decode_of_plain {text : List Char} (h : Plain text) : decode text = text := by
  have := unescape_append h []
  rw [List.append_nil, unescape, List.append_nil] at this
  rw [decode, this, decodeLossy_encode]

/-- So does a plain character in front of other text. -/
theorem decode_cons_of_ne {c : Char} (hpercent : c ≠ '%') (hplus : c ≠ '+') (rest : List Char) :
    decode (c :: rest) = c :: decode rest := by
  rw [decode, unescape_cons_of_ne hpercent, plainChar, if_neg hplus, decodeLossy, scan,
    scan_encodeChar]
  rfl

/-- **Without a `%` only the `+` of a text stand for something else.** -/
theorem decode_of_not_mem {text : List Char} (h : '%' ∉ text) :
    decode text = text.map plainChar := by
  have hbytes : unescape text = encode (text.map plainChar) := by
    induction text with
    | nil => rfl
    | cons c rest ih =>
      obtain ⟨hc, hrest⟩ := List.ne_and_not_mem_of_not_mem_cons h
      rw [unescape_cons_of_ne hc.symm, ih hrest]
      rfl
  rw [decode, hbytes, decodeLossy_encode]

theorem ne_of_not_mem {c : Char} {text : List Char} (h : c ∉ text) :
    ∀ d ∈ text, (d != c) = true := by
  intro d hd
  rw [bne_iff_ne]
  rintro rfl
  exact h hd

/-- **The first `=` of a piece ends its key.** -/
theorem pairOf_append_cons {key value : List Char} (hkey : '=' ∉ key) :
    pairOf (key ++ '=' :: value) = (decode key, decode value) := by
  have hne := ne_of_not_mem hkey
  rw [pairOf, List.takeWhile_append_of_pos hne, List.dropWhile_append_of_pos hne]
  simp

theorem pairOf_of_not_mem {key : List Char} (hkey : '=' ∉ key) : pairOf key = (decode key, []) := by
  have hne := ne_of_not_mem hkey
  have htake := List.takeWhile_append_dropWhile (p := (· != '=')) (l := key)
  have hdrop : key.dropWhile (· != '=') = [] := by
    rw [← List.append_nil key, List.dropWhile_append_of_pos hne, List.dropWhile_nil]
  rw [hdrop, List.append_nil] at htake
  rw [pairOf, htake, hdrop]
  rfl

theorem pairs_of_not_mem {text : List Char} (hne : text ≠ []) (h : '&' ∉ text) :
    pairs text = [pairOf text] := by
  simp [pairs, List.splitOn_eq_singleton h, hne]

/-- **Every `&` separates pairs**, whatever stands around it. -/
theorem pairs_append_cons (front back : List Char) :
    pairs (front ++ '&' :: back) = pairs front ++ pairs back := by
  simp [pairs, List.splitOn_append_cons_self]

end OData.Form
