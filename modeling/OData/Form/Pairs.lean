import OData.Form.Decode

/-!
# Form pairs

The pairs of `application/x-www-form-urlencoded` text: pieces between `&`, empty ones dropped, each
cut at its first `=` and its two sides decoded. A piece without `=` is a key with an empty value.
-/

namespace OData.Form

open Text

/-- The key and the value that one piece stands for. -/
def pairOf (piece : List Char) : List Char × List Char :=
  (decode (piece.takeWhile (· != '=')), decode ((piece.dropWhile (· != '=')).drop 1))

/-- The pairs of a text, in its order. -/
def pairs (text : List Char) : List (List Char × List Char) :=
  ((text.splitOn '&').filter fun piece => !piece.isEmpty).map pairOf

@[simp] theorem pairs_nil : pairs [] = [] := by simp [pairs, List.splitOn_nil]

/-! ## Size -/

theorem byteLength_pairOf_le (piece : List Char) :
    byteLength (pairOf piece).1 + byteLength (pairOf piece).2 ≤ byteLength piece := by
  have hkey := byteLength_decode_le (piece.takeWhile (· != '='))
  have hvalue := byteLength_decode_le ((piece.dropWhile (· != '=')).drop 1)
  have hdrop := byteLength_le_of_suffix (List.drop_suffix 1 (piece.dropWhile (· != '=')))
  have hcut : byteLength (piece.takeWhile (· != '=')) + byteLength (piece.dropWhile (· != '='))
      = byteLength piece := by
    rw [← byteLength_append, List.takeWhile_append_dropWhile]
  simp only [pairOf]
  omega

/-- **A pair takes no more bytes than the text it was read from.** -/
theorem byteLength_le_of_mem_pairs {text : List Char} {pair : List Char × List Char}
    (h : pair ∈ pairs text) : byteLength pair.1 + byteLength pair.2 ≤ byteLength text := by
  obtain ⟨piece, hmem, rfl⟩ := List.mem_map.1 h
  have hpiece := byteLength_le_of_mem_intercalate '&' (List.mem_filter.1 hmem).1
  rw [List.intercalate_splitOn] at hpiece
  exact Nat.le_trans (byteLength_pairOf_le piece) hpiece

end OData.Form
