import OData.Form.Pairs
import OData.Text.Parens

/-!
# Query options

The options of a request as decoded pairs, in the order written. They come from the query string of
a URL, or from the inside of a group of `$expand`, where `;` separates options as well as `&` does.

## Main statement

* `byteLength_first?_le` — the value found under a key is shorter than the text by the key at least
-/

namespace OData

open Text

/-- Decoded query options. -/
structure Options where
  /-- Keys and values, in the order written. -/
  pairs : List (List Char × List Char) := []
deriving DecidableEq

namespace Options

/-- The key of the field list. -/
def selectKey : List Char := "$select".toList

/-- The key of the expand clause. -/
def expandKey : List Char := "$expand".toList

/-- The options of a query string, with or without the `?` in front of it. -/
def ofQuery (text : List Char) : Options :=
  ⟨Form.pairs (if text.head? = some '?' then text.drop 1 else text)⟩

/-- The options inside a group. A `;` that stands in a deeper group separates nothing here. -/
def ofGroup (text : List Char) : Options := ⟨(splitOutside ';' text).flatMap Form.pairs⟩

/-- The number of options. -/
def size (options : Options) : Nat := options.pairs.length

/-- Whether there are no options. -/
def isEmpty (options : Options) : Bool := options.pairs.isEmpty

/-- The value of the first option with the given key. -/
def first? (options : Options) (key : List Char) : Option (List Char) :=
  (options.pairs.find? fun pair => pair.1 == key).map Prod.snd

/-! ## Lemmas -/

@[simp] theorem byteLength_selectKey : byteLength selectKey = 7 := by decide

@[simp] theorem byteLength_expandKey : byteLength expandKey = 7 := by decide

theorem mem_of_first? {options : Options} {key value : List Char}
    (h : options.first? key = some value) : (key, value) ∈ options.pairs := by
  obtain ⟨⟨k, v⟩, hfind, rfl⟩ := Option.map_eq_some_iff.1 h
  have hkey : k = key := by simpa using List.find?_some hfind
  exact hkey ▸ List.mem_of_find?_eq_some hfind

/-- **The value found under a key of a group is shorter than the group by the key at least.** -/
theorem byteLength_first?_le {text key value : List Char}
    (h : (ofGroup text).first? key = some value) :
    byteLength key + byteLength value ≤ byteLength text := by
  obtain ⟨segment, hsegment, hpair⟩ := List.mem_flatMap.1 (mem_of_first? h)
  have hle := Form.byteLength_le_of_mem_pairs hpair
  have hseg := byteLength_le_of_mem_intercalate ';' hsegment
  rw [intercalate_splitOutside] at hseg
  exact Nat.le_trans hle hseg

end Options

end OData
