import Mathlib.Data.List.Induction
import OData.NameMap

/-!
# Maps by name as sets of entries

A map is determined by what it says of each name, so the map of a list of entries can be described
without the insertions that build it: it ascends, and what it says of a name is what the last entry
with that name says.

## Main statements

* `lastWins_iff` — the map built from entries is the one in which the last entry of a name wins
* `ofEntries_of_perm` — entries of a map in any order build the map again
* `ofEntries_eq_of_perm` — entries with different names build the same map in any order
-/

namespace OData.NameMap

variable {α : Type} {name : String} {value : α} {entries map other : List (String × α)}

/-- The map of the entries: of each name it has the value that the last entry of the name has. -/
structure LastWins (entries map : List (String × α)) : Prop where
  ordered : Ordered map
  lookup : ∀ name, map.lookup name = entries.reverse.lookup name

/-! ## What determines a map -/

/-- **When no name comes twice, looking up is being an entry.** -/
theorem mem_iff_lookup (h : entries.Pairwise fun a b => a.1 ≠ b.1) :
    (name, value) ∈ entries ↔ entries.lookup name = some value := by
  constructor
  · intro hmem
    obtain ⟨before, after, rfl⟩ := List.append_of_mem hmem
    refine List.lookup_eq_some_iff.2 ⟨before, after, rfl, fun entry hentry => ?_⟩
    rw [bne_iff_ne]
    exact Ne.symm ((List.pairwise_append.1 h).2.2 entry hentry _ List.mem_cons_self)
  · intro hlookup
    obtain ⟨before, after, rfl, -⟩ := List.lookup_eq_some_iff.1 hlookup
    simp

theorem Ordered.distinct (h : Ordered map) : map.Pairwise fun a b => a.1 ≠ b.1 := by
  refine List.Pairwise.imp (fun {a b} hlt heq => ?_) h
  rw [heq] at hlt
  exact String.lt_irrefl _ hlt

theorem Ordered.nodup (h : Ordered map) : map.Nodup :=
  h.distinct.imp fun hne heq => hne (congrArg Prod.fst heq)

/-- **Two maps that say the same of every name are the same.** -/
theorem Ordered.ext (hmap : Ordered map) (hother : Ordered other)
    (h : ∀ name, map.lookup name = other.lookup name) : map = other := by
  -- the same entries in the same order, as the order is that of the names
  have hperm : map.Perm other := by
    refine (List.perm_ext_iff_of_nodup hmap.nodup hother.nodup).2 fun ⟨name, value⟩ => ?_
    rw [mem_iff_lookup hmap.distinct, mem_iff_lookup hother.distinct, h name]
  refine hperm.eq_of_pairwise (fun a b _ _ hab hba => ?_) hmap hother
  exact absurd (String.lt_trans hab hba) (String.lt_irrefl _)

/-! ## The map of a list of entries -/

theorem lookup_ofEntries (entries : List (String × α)) (name : String) :
    (ofEntries entries).lookup name = entries.reverse.lookup name := by
  -- the last entry is inserted last, so the induction takes entries off the end
  unfold ofEntries
  induction entries using List.reverseRecOn with
  | nil => rfl
  | append_singleton front entry ih =>
    rw [List.foldl_append, List.foldl_cons, List.foldl_nil, lookup_insert, ih, List.reverse_append,
      List.reverse_singleton, List.singleton_append, lookup_cons]

/-- **The map built from entries is the one in which the last entry of a name wins.** -/
theorem lastWins_iff : LastWins entries map ↔ ofEntries entries = map := by
  constructor
  · intro h
    refine (ordered_ofEntries entries).ext h.ordered fun name => ?_
    rw [lookup_ofEntries, h.lookup]
  · rintro rfl
    exact ⟨ordered_ofEntries entries, lookup_ofEntries entries⟩

/-- What is in the map was among the entries. -/
theorem mem_of_mem_ofEntries {entry : String × α} (h : entry ∈ ofEntries entries) :
    entry ∈ entries := by
  unfold ofEntries at h
  induction entries using List.reverseRecOn with
  | nil => exact h
  | append_singleton front last ih =>
    rw [List.foldl_append, List.foldl_cons, List.foldl_nil] at h
    rw [List.mem_append, List.mem_singleton]
    rcases mem_insert h with rfl | h
    · exact Or.inr rfl
    · exact Or.inl (ih h)

/-- **The map has the names of the entries.** -/
theorem mem_names_ofEntries :
    name ∈ (ofEntries entries).map Prod.fst ↔ name ∈ entries.map Prod.fst := by
  have hnames : ∀ list : List (String × α),
      name ∈ list.map Prod.fst ↔ (list.lookup name).isSome = true := by
    intro list
    simp [List.lookup_isSome_iff]
  rw [hnames, lookup_ofEntries, ← hnames, List.map_reverse, List.mem_reverse]

theorem ofEntries_ne_nil (h : entries ≠ []) : ofEntries entries ≠ [] := by
  intro hnil
  obtain ⟨entry, rest, hcons⟩ := List.exists_cons_of_ne_nil (mt List.reverse_eq_nil_iff.1 h)
  have hlookup := lookup_ofEntries entries entry.1
  rw [hnil, hcons, lookup_cons, if_pos rfl] at hlookup
  nomatch hlookup

/-- **The entries of a map in any order build the map again.** -/
theorem ofEntries_of_perm (h : Ordered map) (hperm : entries.Perm map) :
    ofEntries entries = map := by
  refine lastWins_iff.1 ⟨h, fun name => Option.ext fun value => ?_⟩
  have hreverse : entries.reverse.Perm map := entries.reverse_perm.trans hperm
  have hdistinct : entries.reverse.Pairwise fun a b => a.1 ≠ b.1 :=
    hreverse.symm.pairwise h.distinct Ne.symm
  rw [← mem_iff_lookup hdistinct, ← mem_iff_lookup h.distinct, hreverse.mem_iff]

/-- A map is the map of its entries. -/
theorem ofEntries_ofEntries (entries : List (String × α)) :
    ofEntries (ofEntries entries) = ofEntries entries :=
  ofEntries_of_perm (ordered_ofEntries entries) (.refl _)

/-- Entries with different names are all in the map. -/
theorem perm_ofEntries (h : entries.Pairwise fun a b => a.1 ≠ b.1) :
    (ofEntries entries).Perm entries := by
  have hreverse : entries.reverse.Pairwise fun a b => a.1 ≠ b.1 :=
    entries.reverse_perm.symm.pairwise h Ne.symm
  have hnodup : entries.Nodup := h.imp fun hne heq => hne (congrArg Prod.fst heq)
  refine (List.perm_ext_iff_of_nodup (ordered_ofEntries entries).nodup hnodup).2 ?_
  rintro ⟨name, value⟩
  rw [mem_iff_lookup (ordered_ofEntries entries).distinct, lookup_ofEntries,
    ← mem_iff_lookup hreverse, List.mem_reverse]

/-- **Entries with different names build the same map in any order.** -/
theorem ofEntries_eq_of_perm (h : entries.Pairwise fun a b => a.1 ≠ b.1)
    (hperm : other.Perm entries) : ofEntries other = ofEntries entries :=
  ofEntries_of_perm (ordered_ofEntries entries) (hperm.trans (perm_ofEntries h).symm)

/-- A map built from entries says of a name the same from its end as from its front. -/
theorem lookup_reverse_ofEntries (entries : List (String × α)) (name : String) :
    (ofEntries entries).reverse.lookup name = entries.reverse.lookup name := by
  rw [← lookup_ofEntries, ofEntries_ofEntries, lookup_ofEntries]

/-- **Maps of two lists of entries build the map of all the entries.** -/
theorem ofEntries_append (entries other : List (String × α)) :
    ofEntries (ofEntries entries ++ ofEntries other) = ofEntries (entries ++ other) := by
  refine (ordered_ofEntries _).ext (ordered_ofEntries _) fun name => ?_
  simp only [lookup_ofEntries, List.reverse_append, List.lookup_append, lookup_reverse_ofEntries]

/-- **An entry whose name comes again later has no part in the map.** -/
theorem ofEntries_replaced (before between after : List (String × α)) (name : String)
    (value later : α) :
    ofEntries (before ++ (name, value) :: (between ++ (name, later) :: after)) =
      ofEntries (before ++ (between ++ (name, later) :: after)) := by
  refine (ordered_ofEntries _).ext (ordered_ofEntries _) fun other => ?_
  simp only [lookup_ofEntries, List.reverse_append, List.reverse_cons, List.lookup_append,
    lookup_cons, List.lookup_nil]
  by_cases hother : other = name
  · rw [if_pos hother, if_pos hother]
    cases after.reverse.lookup other <;> rfl
  · rw [if_neg hother, if_neg hother]
    simp

end OData.NameMap
