import OData.Proofs.Expand.Shrinking
import OData.Proofs.Expand.WellFormed

/-!
# What a map costs

Nothing that is read is larger than the text it was read from. Every node and every field takes two
bytes of the text, a character of its own and a comma, with one byte to spare as the last of them
needs no comma; and every level of maps takes eleven. Items that are replaced, options that are
ignored and bytes that are decoded only add to the text.

## Main statements

* `weight_le_of_entries` — nodes and fields, counted in the bytes of the clause
* `below_le_of_entries` — levels of maps, counted in the bytes of the clause
* `parse_no_amplification` — the two of them for the map of a clause
-/

namespace OData

open Text Form

namespace Expansion

mutual

/-- The node itself, the fields stored in it, and the nodes and fields of its map. -/
def weight : Expansion → Nat
  | ⟨select, expand⟩ => 1 + (select.getD []).length + expandWeight expand

/-- The nodes and fields of a map, if it is set. -/
def expandWeight : Option (List (String × Expansion)) → Nat
  | none => 0
  | some map => mapWeight map

/-- The nodes of a map at all depths, and the fields stored in them. -/
def mapWeight : List (String × Expansion) → Nat
  | [] => 0
  | (_, node) :: rest => node.weight + mapWeight rest

end

/-! ## Maps of entries -/

theorem mapWeight_insert_le (name : String) (node : Expansion) (map : List (String × Expansion)) :
    mapWeight (NameMap.insert name node map) ≤ node.weight + mapWeight map := by
  induction map with
  | nil => exact Nat.le_refl _
  | cons first rest ih =>
    obtain ⟨other, old⟩ := first
    rw [NameMap.insert]
    split
    · exact Nat.le_refl _
    · split
      · simp only [mapWeight]
        omega
      · simp only [mapWeight]
        omega

/-- **A map weighs no more than the entries it is built from.** -/
theorem mapWeight_ofEntries_le (entries : List (String × Expansion)) :
    mapWeight (NameMap.ofEntries entries) ≤ mapWeight entries := by
  suffices h : ∀ map, mapWeight (entries.foldl (fun map entry => NameMap.insert entry.1 entry.2 map)
      map) ≤ mapWeight entries + mapWeight map from h []
  induction entries with
  | nil => exact fun map => Nat.le_add_left _ _
  | cons entry rest ih =>
    intro map
    have hrest := ih (NameMap.insert entry.1 entry.2 map)
    have hinsert := mapWeight_insert_le entry.1 entry.2 map
    rw [List.foldl_cons, mapWeight]
    omega

end Expansion

/-! ## Fields -/

namespace Select

theorem FieldPiece.ne_nil {piece : List Char} {field : String} (h : FieldPiece piece field) :
    piece ≠ [] := by
  obtain ⟨hfield, before, after, -, -, rfl⟩ := h
  intro hnil
  obtain ⟨-, rfl, -⟩ : before = [] ∧ field = "" ∧ after = [] := by simpa using hnil
  exact absurd hfield (by decide)

/-- **Every field takes two bytes of the list, but for the last.** -/
theorem FieldList.two_mul_length_le {list : List Char} {fields : List String}
    (h : FieldList list fields) : 2 * fields.length ≤ byteLength list + 1 := by
  obtain ⟨pieces, -, rfl, hpieces⟩ := h
  rw [← hpieces.length_eq]
  refine two_mul_length_le_intercalate ',' ?_
  induction hpieces with
  | nil => nofun
  | cons hpiece _ ih => exact List.forall_mem_cons.2 ⟨hpiece.ne_nil, ih⟩

end Select

namespace Expand

open Expansion

variable {limit : DepthLimit}

/-! ## Nodes and fields -/

/-- What the fields of a group weigh, with the bytes of their option. -/
theorem fields_le_of_ofOptions {group : List Char} {select : Option (List String)}
    (h : Select.ofOptions (.ofGroup group) = .ok select) :
    select = none ∨ ∃ list, (Options.ofGroup group).first? Options.selectKey = some list ∧
      2 * (select.getD []).length ≤ byteLength list + 1 := by
  rcases Select.ofOptions_eq_ok_iff.1 h with ⟨-, rfl⟩ | ⟨list, fields, hlist, hfields, rfl⟩
  · exact Or.inl rfl
  · exact Or.inr ⟨list, hlist, hfields.two_mul_length_le⟩

/-- **A group takes four bytes more than two for each node and each field in it.** -/
theorem weight_le_of_node {depth : Nat} {group : List Char} {value : Expansion}
    (ih : ∀ text, (Options.ofGroup group).first? Options.expandKey = some text →
      ∀ depth list, entries limit depth text = .ok list →
        2 * mapWeight list ≤ byteLength text + 1)
    (h : node limit depth group = .ok value) : 2 * value.weight + 4 ≤ byteLength group := by
  obtain ⟨-, select, hselect, hclause⟩ := node_eq_ok_iff.1 h
  rcases hclause with ⟨-, hsome, rfl⟩ | ⟨clause, list, hclause, hlist, rfl⟩
  · rcases fields_le_of_ofOptions hselect with rfl | ⟨fields, hfields, hcount⟩
    · nomatch hsome
    · have hpair := Options.pairBytes_first?_le hfields
      simp only [weight, expandWeight, pairBytes, Options.byteLength_selectKey] at hpair ⊢
      omega
  · have hmap := Nat.le_trans (Nat.mul_le_mul_left 2 (mapWeight_ofEntries_le list))
      (ih clause hclause depth list hlist)
    rcases fields_le_of_ofOptions hselect with rfl | ⟨fields, hfields, hcount⟩
    · have hpair := Options.pairBytes_first?_le hclause
      simp only [weight, expandWeight, pairBytes, Options.byteLength_expandKey, Option.getD_none,
        List.length_nil] at hpair ⊢
      omega
    · have hpairs := Options.pairBytes_first?_add_le (by decide) hfields hclause
      simp only [weight, expandWeight, pairBytes, Options.byteLength_selectKey,
        Options.byteLength_expandKey] at hpairs ⊢
      omega

/-- **Every node and every field takes two bytes of the clause, but for the last.** -/
theorem weight_le_of_entries {depth : Nat} {text : List Char} {list : List (String × Expansion)}
    (h : entries limit depth text = .ok list) : 2 * mapWeight list ≤ byteLength text + 1 := by
  refine (clause_induction
    (P := fun text => ∀ depth list, entries limit depth text = .ok list →
      2 * mapWeight list ≤ byteLength text + 1)
    (Q := fun group => ∀ depth value, node limit depth group = .ok value →
      2 * value.weight + 4 ≤ byteLength group)
    ?_ fun group ih depth value => weight_le_of_node ih).1 text depth list h
  intro text ih depth list h
  obtain ⟨item, value, hitem, hnode, hnext⟩ := entries_eq_ok_iff.1 h
  obtain ⟨hinside, hrest⟩ := ih item hitem
  have hle := byteLength_item_le hitem
  -- a bare node is paid for by its name and a comma, any other by its group and the parentheses
  have hvalue : 2 * value.weight ≤ 2 + groupBytes item.group := by
    cases hg : item.group with
    | none =>
      rw [hg] at hnode
      obtain rfl := Except.ok.inj hnode
      exact Nat.le_refl 2
    | some group =>
      rw [hg] at hnode
      have := hinside group hg _ value hnode
      rw [groupBytes]
      omega
  rcases hnext with ⟨-, rfl⟩ | ⟨rest, tail, hcomma, htail, rfl⟩
  · simp only [mapWeight]
    omega
  · have hlt := byteLength_continuation_le hcomma
    have htail := hrest rest hcomma depth tail htail
    simp only [mapWeight]
    omega

/-! ## Levels of maps -/

/-- What lies below a map lies below the entries it is built from. -/
theorem Below.of_ofEntries {list nested : List (String × Expansion)} {levels : Nat}
    (h : Below (NameMap.ofEntries list) levels nested) : ∃ other, Below list levels other := by
  cases h with
  | here => exact ⟨list, .here⟩
  | there hentry hinner hbelow =>
    exact ⟨nested, .there (NameMap.mem_of_mem_ofEntries hentry) hinner hbelow⟩

/-- **Every level of maps takes eleven bytes of the clause, and the last one a byte.** -/
theorem below_le_of_entries {depth : Nat} {text : List Char} {list : List (String × Expansion)}
    (h : entries limit depth text = .ok list) {levels : Nat} {nested : List (String × Expansion)}
    (hbelow : Below list levels nested) : 11 * levels + 1 ≤ byteLength text := by
  refine (clause_induction
    (P := fun text => ∀ depth list, entries limit depth text = .ok list →
      ∀ levels nested, Below list levels nested → 11 * levels + 1 ≤ byteLength text)
    (Q := fun group => ∀ depth value, node limit depth group = .ok value →
      ∀ map, value.expand = some map → ∀ levels nested, Below map levels nested →
        11 * levels + 9 ≤ byteLength group) ?_ ?_).1 text depth list h levels nested hbelow
  · intro text ih depth list h levels nested hbelow
    obtain ⟨item, value, hitem, hnode, hnext⟩ := entries_eq_ok_iff.1 h
    obtain ⟨hinside, hrest⟩ := ih item hitem
    have hle := byteLength_item_le hitem
    -- the levels below the first node are those of the clause in its group
    have hfirst : ∀ inner, value.expand = some inner → ∀ levels nested,
        Below inner levels nested → 11 * (levels + 1) + 1 ≤ byteLength text := by
      intro inner hinner levels nested hbelow
      cases hg : item.group with
      | none =>
        rw [hg] at hnode
        obtain rfl := Except.ok.inj hnode
        nomatch hinner
      | some group =>
        rw [hg] at hnode
        have := hinside group hg _ value hnode inner hinner levels nested hbelow
        rw [hg, groupBytes] at hle
        omega
    cases hbelow with
    | here => omega
    | there hentry hinner hbelow =>
      rcases hnext with ⟨-, rfl⟩ | ⟨rest, tail, hcomma, htail, rfl⟩
      · obtain rfl := List.mem_singleton.1 hentry
        exact hfirst _ hinner _ _ hbelow
      · rcases List.mem_cons.1 hentry with rfl | hentry
        · exact hfirst _ hinner _ _ hbelow
        · have hlt := byteLength_continuation_le hcomma
          have := hrest rest hcomma depth tail htail _ nested (.there hentry hinner hbelow)
          omega
  · intro group ih depth value h map hmap levels nested hbelow
    obtain ⟨-, select, -, ⟨-, -, rfl⟩ | ⟨clause, list, hclause, hlist, rfl⟩⟩ := node_eq_ok_iff.1 h
    · cases hmap
    · obtain rfl := Option.some.inj hmap
      obtain ⟨other, hother⟩ := hbelow.of_ofEntries
      have hle := ih clause hclause depth list hlist levels other hother
      have hpair := Options.pairBytes_first?_le hclause
      -- an accepted clause is not empty, so its option has a `=`
      have hne : clause ≠ [] := by
        rintro rfl
        simp at hle
      rw [pairBytes, Options.byteLength_expandKey, if_neg hne] at hpair
      dsimp only at hpair
      omega

/-! ## Maps -/

/-- **Nothing is amplified.** The map of a clause has no more nodes and fields, at all depths, than
half the bytes of the clause and one byte more, and eleven bytes go with every level of maps. -/
theorem parse_no_amplification (limit : DepthLimit) {clause : List Char}
    {map : List (String × Expansion)} (h : parse limit clause = .ok map) :
    2 * mapWeight map ≤ byteLength clause + 1 ∧
      ∀ levels nested, Below map levels nested → 11 * levels + 1 ≤ byteLength clause := by
  obtain ⟨list, hlist, rfl⟩ := map_eq_ok_iff.1 h
  refine ⟨?_, fun levels nested hbelow => ?_⟩
  · have hentries := weight_le_of_entries hlist
    have hmap := mapWeight_ofEntries_le list
    omega
  · obtain ⟨other, hother⟩ := hbelow.of_ofEntries
    exact below_le_of_entries hlist hother

/-- Names of one letter take their two bytes and no more, and a level of maps takes its eleven. -/
theorem parse_no_amplification_least :
    (parse none "A,B,C".toList = .ok [("A", .bare), ("B", .bare), ("C", .bare)] ∧
      2 * mapWeight [("A", .bare), ("B", .bare), ("C", .bare)] ≤ 5 + 1 ∧
      mapWeight [("A", .bare), ("B", .bare), ("C", .bare)] = 3) ∧
    (parse (some 1) "A($expand=B)".toList = .ok [("A", { expand := some [("B", .bare)] })] ∧
      Below [("A", { expand := some [("B", .bare)] })] 1 [("B", .bare)] ∧ 11 * 1 + 1 ≤ 12) := by
  have hnames : parse none "A,B,C".toList = .ok [("A", .bare), ("B", .bare), ("C", .bare)] := by
    decide +kernel
  have hlevel : parse (some 1) "A($expand=B)".toList =
      .ok [("A", { expand := some [("B", .bare)] })] := by
    decide +kernel
  have hbelow : Below [("A", { expand := some [("B", .bare)] })] 1 [("B", .bare)] :=
    .there List.mem_cons_self rfl .here
  exact ⟨⟨hnames, (parse_no_amplification none hnames).1, by decide⟩, hlevel, hbelow,
    (parse_no_amplification (some 1) hlevel).2 1 _ hbelow⟩

end Expand

end OData
