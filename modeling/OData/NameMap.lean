/-!
# Maps by name

A map from names to values is the list of its entries in ascending order of name, each name once.
The order of `String` is by code point, which for UTF-8 is the order of the bytes.

## Main statements

* `ordered_insert` — inserting keeps the order
* `lookup_insert` — a name just inserted has the new value, every other name its old one
-/

namespace OData.NameMap

variable {α : Type}

/-- The names ascend strictly. -/
def Ordered (map : List (String × α)) : Prop := map.Pairwise fun a b => a.1 < b.1

/-- The map with a value under a name, in place of the value it had there. -/
def insert (name : String) (value : α) : List (String × α) → List (String × α)
  | [] => [(name, value)]
  | (other, old) :: rest =>
    if name < other then (name, value) :: (other, old) :: rest
    else if name = other then (name, value) :: rest
    else (other, old) :: insert name value rest

/-- The map of the given entries; of entries with the same name the last one counts. -/
def ofEntries (entries : List (String × α)) : List (String × α) :=
  entries.foldl (fun map entry => insert entry.1 entry.2 map) []

/-! ## Lemmas -/

theorem mem_insert {name : String} {value : α} {map : List (String × α)} {entry : String × α}
    (h : entry ∈ insert name value map) : entry = (name, value) ∨ entry ∈ map := by
  induction map with
  | nil => simpa [insert] using h
  | cons first rest ih =>
    obtain ⟨other, old⟩ := first
    rw [insert] at h
    split at h
    · simpa using h
    · split at h
      · rcases List.mem_cons.1 h with h | h
        · exact Or.inl h
        · exact Or.inr (List.mem_cons_of_mem _ h)
      · rcases List.mem_cons.1 h with rfl | h
        · exact Or.inr List.mem_cons_self
        · exact (ih h).imp_right (List.mem_cons_of_mem _)

/-- **Inserting keeps the order.** -/
theorem ordered_insert {map : List (String × α)} (h : Ordered map) (name : String) (value : α) :
    Ordered (insert name value map) := by
  induction map with
  | nil => simp [insert, Ordered]
  | cons first rest ih =>
    obtain ⟨other, old⟩ := first
    obtain ⟨hfirst, hrest⟩ := List.pairwise_cons.1 h
    rw [insert]
    split
    · rename_i hlt
      refine List.pairwise_cons.2 ⟨fun entry hmem => ?_, h⟩
      rcases List.mem_cons.1 hmem with rfl | hmem
      · exact hlt
      · exact String.lt_trans hlt (hfirst entry hmem)
    · split
      · rename_i heq
        exact List.pairwise_cons.2 ⟨fun entry hmem => heq ▸ hfirst entry hmem, hrest⟩
      · rename_i hnlt hne
        refine List.pairwise_cons.2 ⟨fun entry hmem => ?_, ih hrest⟩
        rcases mem_insert hmem with rfl | hmem
        · exact Std.lt_of_le_of_ne (String.not_lt.1 hnlt) (Ne.symm hne)
        · exact hfirst entry hmem

theorem lookup_cons (name : String) (entry : String × α) (rest : List (String × α)) :
    (entry :: rest).lookup name = if name = entry.1 then some entry.2 else rest.lookup name := by
  rw [List.lookup_cons]
  by_cases h : name = entry.1
  · simp [h]
  · simp [h, beq_eq_false_iff_ne.2 h]

/-- **A name just inserted has the new value, every other name its old one.** -/
theorem lookup_insert (name : String) (value : α) (map : List (String × α)) (other : String) :
    (insert name value map).lookup other = if other = name then some value else map.lookup other := by
  induction map with
  | nil => rw [insert, lookup_cons]
  | cons first rest ih =>
    obtain ⟨n, old⟩ := first
    rw [insert]
    split
    · rw [lookup_cons]
    · split
      · rename_i heq
        subst heq
        rw [lookup_cons, lookup_cons]
        by_cases h : other = name <;> simp [h]
      · rename_i hne
        rw [lookup_cons, ih, lookup_cons]
        by_cases h : other = n
        · have hother : other ≠ name := fun hn => hne (hn ▸ h)
          rw [if_pos h, if_neg hother, if_pos h]
        · rw [if_neg h, if_neg h]

theorem ordered_ofEntries (entries : List (String × α)) : Ordered (ofEntries entries) := by
  suffices h : ∀ map, Ordered map →
      Ordered (entries.foldl (fun map entry => insert entry.1 entry.2 map) map) from
    h [] List.Pairwise.nil
  induction entries with
  | nil => exact fun map h => h
  | cons entry rest ih => exact fun map h => ih _ (ordered_insert h entry.1 entry.2)

end OData.NameMap
