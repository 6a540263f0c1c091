import Mathlib.Algebra.GroupWithZero.Nat
import Mathlib.Algebra.Order.BigOperators.Group.List
import Mathlib.Algebra.Order.Group.Nat
import OData.Proofs.Options

/-!
# The bytes of options

Options are decoded text, so they are no part of the group that they were read from. Still they take
no more bytes than the group, all of them together: decoding makes no text longer, and no two
options were written with the same bytes.

## Main statements

* `sum_pairBytes_ofGroup_le` — the options of a group take no more bytes than the group
* `pairBytes_first?_add_le` — nor do its field list and its clause together
-/

namespace OData

open Text

/-! ## Texts -/

namespace Text

theorem byteLength_pos {text : List Char} (h : text ≠ []) : 0 < byteLength text := by
  obtain ⟨c, rest, rfl⟩ := List.exists_cons_of_ne_nil h
  exact Nat.lt_of_lt_of_le c.utf8Size_pos (Nat.le_add_right _ _)

theorem sum_byteLength_le_intercalate (separator : Char) (pieces : List (List Char)) :
    (pieces.map byteLength).sum ≤ byteLength ([separator].intercalate pieces) := by
  induction pieces with
  | nil => simp
  | cons piece rest ih =>
    cases rest with
    | nil => simp
    | cons next rest =>
      rw [List.intercalate_cons_cons, List.map_cons, List.sum_cons, byteLength_append,
        byteLength_append]
      omega

/-- Texts with separators between them take two bytes each, but for the last. -/
theorem two_mul_length_le_intercalate (separator : Char) {pieces : List (List Char)}
    (h : ∀ piece ∈ pieces, piece ≠ []) :
    2 * pieces.length ≤ byteLength ([separator].intercalate pieces) + 1 := by
  induction pieces with
  | nil => exact Nat.zero_le _
  | cons piece rest ih =>
    obtain ⟨hpiece, hrest⟩ := List.forall_mem_cons.1 h
    have hpos := byteLength_pos hpiece
    cases rest with
    | nil =>
      rw [List.intercalate_singleton, List.length_singleton]
      omega
    | cons next rest =>
      have hseparator := separator.utf8Size_pos
      have hnext := ih hrest
      rw [List.intercalate_cons_cons, byteLength_append, byteLength_append, byteLength_cons]
      simp only [List.length_cons, byteLength_nil] at hnext ⊢
      omega

end Text

/-! ## Pairs -/

namespace Form

/-- The bytes that a pair is written with at least: those of its key and of its value, and the `=`
in front of a value that is not empty. -/
def pairBytes (pair : List Char × List Char) : Nat :=
  byteLength pair.1 + byteLength pair.2 + if pair.2 = [] then 0 else 1

theorem pairBytes_pairOf_le (piece : List Char) :
    pairBytes (pairOf piece) ≤ byteLength piece := by
  generalize hpair : pairOf piece = pair
  cases Options.optionText_iff.2 hpair with
  | key hkey => simpa [pairBytes] using byteLength_decode_le piece
  | @keyValue key value hkey =>
    have hname := byteLength_decode_le key
    have hvalue := byteLength_decode_le value
    have hequals : ('=' : Char).utf8Size = 1 := by decide
    rw [pairBytes, byteLength_append, byteLength_cons, hequals]
    dsimp only
    split <;> omega

theorem sum_pairBytes_pairs_le (text : List Char) :
    ((pairs text).map pairBytes).sum ≤ byteLength text := by
  calc ((pairs text).map pairBytes).sum
      ≤ (((text.splitOn '&').filter fun piece => !piece.isEmpty).map byteLength).sum := by
        rw [pairs, List.map_map]
        exact List.sum_le_sum fun piece _ => pairBytes_pairOf_le piece
    _ ≤ ((text.splitOn '&').map byteLength).sum :=
        (List.filter_sublist.map byteLength).sum_le_sum fun _ _ => Nat.zero_le _
    _ ≤ byteLength (['&'].intercalate (text.splitOn '&')) := sum_byteLength_le_intercalate '&' _
    _ = byteLength text := by rw [List.intercalate_splitOn]

end Form

/-! ## Options of a group -/

namespace Options

open Form

variable {text key value : List Char}

/-- **The options of a group take no more bytes than the group.** -/
theorem sum_pairBytes_ofGroup_le (text : List Char) :
    ((ofGroup text).pairs.map pairBytes).sum ≤ byteLength text := by
  calc ((ofGroup text).pairs.map pairBytes).sum
      = ((splitOutside ';' text).map fun piece => ((Form.pairs piece).map pairBytes).sum).sum := by
        rw [ofGroup, List.map_flatMap, List.flatMap_def, List.sum_flatten, List.map_map]
        rfl
    _ ≤ ((splitOutside ';' text).map byteLength).sum :=
        List.sum_le_sum fun piece _ => sum_pairBytes_pairs_le piece
    _ ≤ byteLength ([';'].intercalate (splitOutside ';' text)) :=
        sum_byteLength_le_intercalate ';' _
    _ = byteLength text := by rw [intercalate_splitOutside]

theorem pairBytes_first?_le (h : (ofGroup text).first? key = some value) :
    pairBytes (key, value) ≤ byteLength text := by
  refine Nat.le_trans ?_ (sum_pairBytes_ofGroup_le text)
  exact List.le_sum_of_mem (List.mem_map_of_mem (mem_of_first? h))

/-- **Two options under different keys take no more bytes than the group, together.** -/
theorem pairBytes_first?_add_le {other otherValue : List Char} (hne : key ≠ other)
    (h : (ofGroup text).first? key = some value)
    (hother : (ofGroup text).first? other = some otherValue) :
    pairBytes (key, value) + pairBytes (other, otherValue) ≤ byteLength text := by
  -- the second pair stands before or after the first one, so the sum of all counts both
  obtain ⟨before, after, hpairs⟩ := List.append_of_mem (mem_of_first? h)
  have hsum := sum_pairBytes_ofGroup_le text
  have hmem := mem_of_first? hother
  rw [hpairs, List.map_append, List.map_cons, List.sum_append, List.sum_cons] at hsum
  rw [hpairs, List.mem_append, List.mem_cons] at hmem
  rcases hmem with hbefore | heq | hafter
  · have := List.le_sum_of_mem (List.mem_map_of_mem (f := pairBytes) hbefore)
    omega
  · exact absurd (congrArg Prod.fst heq).symm hne
  · have := List.le_sum_of_mem (List.mem_map_of_mem (f := pairBytes) hafter)
    omega

end Options

end OData
