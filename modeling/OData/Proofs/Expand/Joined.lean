import Mathlib.Data.List.Perm.Basic
import OData.Proofs.Expand.Pieces

/-!
# Clauses joined by commas

A clause that is accepted leaves no group open, so a comma behind it stands outside parentheses, and
what follows is read as if it stood alone. Joined by commas, clauses therefore give the map of all
their entries, one clause after the other. If no name comes twice, it does not matter after which.

## Main statements

* `parse_intercalate` — the map of clauses joined by commas
* `parse_intercalate_perm` — the order of items with different names makes no difference
-/

namespace OData.Expand

open Text

variable {limit : DepthLimit} {text rest : List Char} {texts order : List (List Char)}

/-! ## Behind an accepted clause -/

/-- **A clause that is accepted leaves no group open.** -/
theorem openAfter_of_entries {list : List (String × Expansion)}
    (h : entries limit 0 text = .ok list) : openAfter 0 text = 0 := by
  -- along the items; what their groups hold does not matter here
  refine (clause_induction
    (P := fun text => ∀ list, entries limit 0 text = .ok list → openAfter 0 text = 0)
    (Q := fun _ => True) ?_ fun _ _ => trivial).1 text list h
  intro text ih list h
  obtain ⟨item, value, hitem, -, hnext⟩ := entries_eq_ok_iff.1 h
  obtain ⟨front, hfront, hclosed⟩ := (readItem_eq_ok_iff.1 hitem).exists_append
  rw [hfront, openAfter_append, hclosed]
  rcases hnext with ⟨hend, -⟩ | ⟨rest, tail, hcomma, htail, -⟩
  · exact openAfter_of_noParens (continuation_eq_none_iff.1 hend).noParens 0
  · obtain ⟨white, hwhite, hafter⟩ := continuation_eq_some_iff.1 hcomma
    rw [hafter, openAfter_append, openAfter_of_noParens hwhite.noParens, openAfter_cons,
      depthAfter_of_ne (by decide)]
    exact (ih item hitem).2 rest hcomma tail htail

theorem entries_append_of_ok {list others : List (String × Expansion)}
    (h : entries limit 0 text = .ok list) (hrest : entries limit 0 rest = .ok others) :
    entries limit 0 (text ++ ',' :: rest) = .ok (list ++ others) := by
  have hclosed := openAfter_of_entries h
  rw [entries_eq_ok_iff_pieces] at h hrest ⊢
  rw [splitOutside_append_separator (by decide) hclosed]
  exact List.rel_append h hrest

/-- **Two clauses joined by a comma give the map of both, the second one replacing.** -/
theorem parse_append_of_ok {map other : List (String × Expansion)}
    (h : parse limit text = .ok map) (hrest : parse limit rest = .ok other) :
    parse limit (text ++ ',' :: rest) = .ok (NameMap.ofEntries (map ++ other)) := by
  obtain ⟨list, hlist, rfl⟩ := map_eq_ok_iff.1 h
  obtain ⟨others, hothers, rfl⟩ := map_eq_ok_iff.1 hrest
  rw [NameMap.ofEntries_append]
  exact map_eq_ok_iff.2 ⟨_, entries_append_of_ok hlist hothers, rfl⟩

/-! ## Lists of clauses -/

theorem ofEntries_of_parse {map : List (String × Expansion)} (h : parse limit text = .ok map) :
    NameMap.ofEntries map = map := by
  obtain ⟨list, -, rfl⟩ := map_eq_ok_iff.1 h
  exact NameMap.ofEntries_ofEntries list

/-- **The map of clauses joined by commas is that of their entries, one clause after the other.** -/
theorem parse_intercalate {maps : List (List (String × Expansion))}
    (h : List.Forall₂ (fun text map => parse limit text = .ok map) texts maps) (hne : texts ≠ []) :
    parse limit ([','].intercalate texts) = .ok (NameMap.ofEntries maps.flatten) := by
  induction h with
  | nil => exact absurd rfl hne
  | @cons text map texts maps hmap hrest ih =>
    cases hrest with
    | nil =>
      rw [List.intercalate_singleton, List.flatten_singleton, ofEntries_of_parse hmap]
      exact hmap
    | cons hnext hrest =>
      have hjoined := parse_append_of_ok hmap (ih (List.cons_ne_nil _ _))
      rw [← ofEntries_of_parse hmap, NameMap.ofEntries_append] at hjoined
      rw [List.intercalate_cons_cons, List.append_assoc, List.singleton_append, List.flatten_cons]
      exact hjoined

/-! ## Items with different names -/

variable {items : List (String × Expansion)}

theorem pairwise_of_nodup_names (h : (items.map Prod.fst).Nodup) :
    items.Pairwise fun a b => a.1 ≠ b.1 :=
  List.pairwise_map.1 h

/-- Joined by commas, clauses of one entry each give these entries. -/
theorem parse_items (h : List.Forall₂ (fun text item => parse limit text = .ok [item]) texts items)
    (hne : texts ≠ []) : parse limit ([','].intercalate texts) = .ok (NameMap.ofEntries items) := by
  have hmaps : List.Forall₂ (fun text map => parse limit text = .ok map) texts
      (items.map fun item => [item]) := List.forall₂_map_right_iff.2 h
  rw [parse_intercalate hmaps hne, ← List.flatMap_def, List.flatMap_singleton']

/-- If their names are different, the map has just these entries. -/
theorem exists_perm_of_items
    (h : List.Forall₂ (fun text item => parse limit text = .ok [item]) texts items)
    (hnames : (items.map Prod.fst).Nodup) (hne : texts ≠ []) :
    ∃ map, parse limit ([','].intercalate texts) = .ok map ∧ map.Perm items :=
  ⟨_, parse_items h hne, NameMap.perm_ofEntries (pairwise_of_nodup_names hnames)⟩

/-- **The order of items with different names makes no difference.** -/
theorem parse_intercalate_perm
    (h : List.Forall₂ (fun text item => parse limit text = .ok [item]) texts items)
    (hnames : (items.map Prod.fst).Nodup) (hperm : order.Perm texts) :
    parse limit ([','].intercalate order) = parse limit ([','].intercalate texts) := by
  by_cases hne : texts = []
  · subst hne
    rw [hperm.eq_nil]
  · obtain ⟨other, hother, hitems⟩ := List.perm_comp_forall₂ hperm h
    have hempty : order ≠ [] := fun horder => hne (horder ▸ hperm).symm.eq_nil
    rw [parse_items hother hempty, parse_items h hne,
      NameMap.ofEntries_eq_of_perm (pairwise_of_nodup_names hnames) hitems]

end OData.Expand
