import OData.Proofs.CommandLine
import OData.Proofs.Expand.Joined
import OData.Proofs.Text.ByteOrder

/-!
# Output that does not show the order of items

The order in which the items of a clause are written is lost in its map, and so it cannot show in
what is printed. What does show is the order of the names by their bytes: so they stand in the
objects under `$expand`, at every depth.

The objects are looked for in the printed text itself, read again as a JSON value. Names are
identifiers, which are printed as they are.

## Main statements

* `objectBelow_toJson_iff` — the objects under `$expand` of a query are its maps
* `item_order_not_shown` — items in another order, printed
-/

namespace OData

open Text Json

/-! ## Objects under a key -/

namespace Json

/-- The object under `$expand` in the value, or one that lies `depth` such objects below it. -/
inductive ObjectBelow : Json → Nat → List (List Char × Json) → Prop
  | here {members object : List (List Char × Json)}
      (hobject : ("$expand".toList, .object object) ∈ members) :
      ObjectBelow (.object members) 0 object
  | there {members object nested : List (List Char × Json)} {depth : Nat}
      {member : List Char × Json} (hobject : ("$expand".toList, .object object) ∈ members)
      (hmember : member ∈ object) (hbelow : ObjectBelow member.2 depth nested) :
      ObjectBelow (.object members) (depth + 1) nested

variable {fields : List (String × Option Json)} {object : List (List Char × Json)} {depth : Nat}

theorem objectBelow_record_zero_iff :
    ObjectBelow (record fields) 0 object ↔ ("$expand", some (.object object)) ∈ fields := by
  rw [← member_mem_record_iff]
  constructor
  · rintro ⟨hobject⟩
    exact hobject
  · exact .here

theorem objectBelow_record_succ_iff :
    ObjectBelow (record fields) (depth + 1) object ↔
      ∃ outer, ("$expand", some (.object outer)) ∈ fields ∧
        ∃ member ∈ outer, ObjectBelow member.2 depth object := by
  simp only [← member_mem_record_iff]
  constructor
  · rintro (_ | ⟨hobject, hmember, hbelow⟩)
    exact ⟨_, hobject, _, hmember, hbelow⟩
  · rintro ⟨outer, hobject, member, hmember, hbelow⟩
    exact .there hobject hmember hbelow

end Json

/-! ## Objects of maps -/

namespace Expansion

variable {before : List (String × Option Json)} {expand : Option (List (String × Expansion))}
  {object : List (List Char × Json)} {depth : Nat}

theorem expand_mem_iff (h : "$expand" ∉ before.map Prod.fst) :
    ("$expand", some (.object object)) ∈ before ++ [("$expand", expand.map mapToJson)] ↔
      ∃ map, expand = some map ∧ object = mapMembers map := by
  have hbefore : ("$expand", some (.object object)) ∉ before := fun hmem =>
    h (List.mem_map_of_mem hmem)
  rw [List.mem_append, or_iff_right hbefore, List.mem_singleton, Prod.mk.injEq]
  cases expand <;> simp [mapToJson, eq_comm]

/-- **Where a record ends with a map under `$expand`, the objects there are the map and those below
it.** -/
theorem objectBelow_record_iff (h : "$expand" ∉ before.map Prod.fst) :
    ObjectBelow (record (before ++ [("$expand", expand.map mapToJson)])) depth object ↔
      ∃ map nested, expand = some map ∧ Expand.Below map depth nested ∧
        object = mapMembers nested := by
  induction depth generalizing before expand with
  | zero =>
    rw [objectBelow_record_zero_iff, expand_mem_iff h]
    constructor
    · rintro ⟨map, hmap, rfl⟩
      exact ⟨map, map, hmap, .here, rfl⟩
    · rintro ⟨map, _, hmap, ⟨⟩, rfl⟩
      exact ⟨map, hmap, rfl⟩
  | succ depth ih =>
    have hnode : ∀ node : Expansion, ObjectBelow node.toJson depth object ↔
        ∃ map nested, node.expand = some map ∧ Expand.Below map depth nested ∧
          object = mapMembers nested := by
      intro node
      rw [toJson_eq]
      have hselect : "$expand" ∉ [("$select", node.select.map ofStrings)].map Prod.fst := by simp
      exact ih hselect
    simp only [objectBelow_record_succ_iff, expand_mem_iff h]
    constructor
    · rintro ⟨_, ⟨map, hmap, rfl⟩, member, hmember, hbelow⟩
      rw [mapMembers_eq] at hmember
      obtain ⟨entry, hentry, rfl⟩ := List.mem_map.1 hmember
      obtain ⟨inner, nested, hinner, hnested, hobject⟩ := (hnode entry.2).1 hbelow
      exact ⟨map, nested, hmap, .there hentry hinner hnested, hobject⟩
    · rintro ⟨map, nested, hmap, _ | ⟨hentry, hinner, hnested⟩, hobject⟩
      have hmember := List.mem_map_of_mem (f := fun entry => member entry.1 entry.2.toJson) hentry
      rw [← mapMembers_eq] at hmember
      exact ⟨_, ⟨map, hmap, rfl⟩, _, hmember, (hnode _).2 ⟨_, nested, hinner, hnested, hobject⟩⟩

end Expansion

/-- **The objects under `$expand` of a query are its maps.** -/
theorem Query.objectBelow_toJson_iff {query : Query} {depth : Nat}
    {object : List (List Char × Json)} :
    ObjectBelow query.toJson depth object ↔
      ∃ map nested, query.expand = some map ∧ Expand.Below map depth nested ∧
        object = Expansion.mapMembers nested := by
  have hothers : "$expand" ∉ [("error", query.error.map QueryError.toJson),
      ("$select", query.select.map ofStrings)].map Prod.fst := by
    simp
  rw [toJson_eq]
  exact Expansion.objectBelow_record_iff hothers

/-! ## Names in the text -/

/-- A name is printed as it is. -/
theorem Json.escape_of_isIdentifier {name : List Char} (h : isIdentifier name = true) :
    escape name = name := by
  have hchar : ∀ c ∈ name, escapeChar c = [c] := by
    intro c hc
    have hcontinues := continuesIdentifier_of_isIdentifier h c hc
    have hrange := continuesIdentifier_range hcontinues
    have hne : ∀ d, continuesIdentifier d = false → c ≠ d := by
      rintro d hd rfl
      nomatch hcontinues.symm.trans hd
    rw [escapeChar, if_neg (hne _ rfl), if_neg (hne _ rfl), if_neg (hne _ rfl), if_neg (hne _ rfl),
      if_neg (hne _ rfl), if_neg (by omega), if_neg (by omega), if_neg (by omega)]
  rw [escape, List.flatMap_congr hchar, List.flatMap_singleton']

/-- The objects under `$expand` of a value have the names of a map and of the maps below it, and in
each of them the names ascend by their bytes. -/
structure ListsMap (map : List (String × Expansion)) (value : Json) : Prop where
  names : ∀ depth names, (∃ object, ObjectBelow value depth object ∧ object.map Prod.fst = names) ↔
    ∃ nested, Expand.Below map depth nested ∧ names = nested.map fun entry => entry.1.toList
  ascending : ∀ depth object, ObjectBelow value depth object →
    object.Pairwise fun a b => encode a.1 < encode b.1

theorem Expand.WellFormed.map_fst_mapMembers {map : List (String × Expansion)}
    (h : Expand.WellFormed map) :
    (Expansion.mapMembers map).map Prod.fst = map.map fun entry => entry.1.toList := by
  obtain ⟨-, -, hnames, -⟩ := h
  rw [Expansion.mapMembers_eq, List.map_map]
  exact List.map_congr_left fun entry hentry => escape_of_isIdentifier (hnames entry hentry)

theorem listsMap_toJson {query : Query} {map : List (String × Expansion)}
    (hmap : query.expand = some map) (h : Expand.WellFormed map) : ListsMap map query.toJson where
  names := by
    intro depth names
    simp only [Query.objectBelow_toJson_iff, hmap, Option.some.injEq]
    constructor
    · rintro ⟨_, ⟨_, nested, rfl, hnested, rfl⟩, rfl⟩
      exact ⟨nested, hnested, (h.of_below hnested).map_fst_mapMembers⟩
    · rintro ⟨nested, hnested, rfl⟩
      exact ⟨_, ⟨map, nested, rfl, hnested, rfl⟩, (h.of_below hnested).map_fst_mapMembers⟩
  ascending := by
    intro depth object hobject
    obtain ⟨_, nested, heq, hnested, rfl⟩ := Query.objectBelow_toJson_iff.1 hobject
    obtain rfl := Option.some.inj (hmap.symm.trans heq)
    have hwell := h.of_below hnested
    obtain ⟨-, hordered, -, -⟩ := id hwell
    have hnames : ((Expansion.mapMembers nested).map Prod.fst).Pairwise (encode · < encode ·) := by
      rw [hwell.map_fst_mapMembers, List.pairwise_map]
      exact hordered.imp fun hlt => encode_lt_encode (String.lt_iff.1 hlt)
    rwa [List.pairwise_map] at hnames

namespace CommandLine

/-- **The order of the items of a clause shows neither in its map nor in what is printed.** Items
that are accepted and have different names give the same outcome in every order: a map of just their
entries, if there is an item. A query that holds it has the same text whichever order its map was
read from, in both layouts, and the names in the objects of the text are those of the maps in
ascending order. -/
theorem item_order_not_shown {limit : DepthLimit} {texts : List (List Char)}
    {items : List (String × Expansion)}
    (hitems : List.Forall₂ (fun text item => Expand.parse limit text = .ok [item]) texts items)
    (hnames : (items.map Prod.fst).Nodup) :
    (∀ order, order.Perm texts →
      Expand.parse limit ([','].intercalate order) = Expand.parse limit ([','].intercalate texts)) ∧
    (texts ≠ [] →
      ∃ map, Expand.parse limit ([','].intercalate texts) = .ok map ∧ map.Perm items) ∧
    ∀ order map, order.Perm texts → Expand.parse limit ([','].intercalate order) = .ok map →
      ∀ query : Query, query.expand = some map → ∀ settings,
        (∀ other, Expand.parse limit ([','].intercalate texts) = .ok other →
          render settings query = render settings { query with expand := some other }) ∧
        ∃ value, Json.parse? (render settings query) = some value ∧ ListsMap map value := by
  have hsame : ∀ order, order.Perm texts →
      Expand.parse limit ([','].intercalate order) = Expand.parse limit ([','].intercalate texts) :=
    fun order hperm => Expand.parse_intercalate_perm hitems hnames hperm
  refine ⟨hsame, Expand.exists_perm_of_items hitems hnames, ?_⟩
  intro order map hperm hmap query hexpand settings
  have hwell := Expand.wellFormed_of_parse hmap
  constructor
  · intro other hother
    obtain rfl : map = other := by
      rw [hsame order hperm, hother] at hmap
      exact (Except.ok.inj hmap).symm
    rw [← hexpand]
  · have hordered : query.Ordered := by
      intro inner hinner
      obtain rfl := Option.some.inj (hexpand.symm.trans hinner)
      exact orderedMap_of_wellFormed hwell
    exact ⟨query.toJson, (document_render hordered settings).whole, listsMap_toJson hexpand hwell⟩

/-- The second item comes first in the map, and so does the second one in the group of the first. -/
theorem item_order_not_shown_nested :
    Expand.parse none "A,B($expand=Z,Y)".toList = Expand.parse none "B($expand=Z,Y),A".toList ∧
      ∃ map, Expand.parse none "A,B($expand=Z,Y)".toList = .ok map ∧
        ∀ settings, ∃ value, Json.parse? (render settings { expand := some map }) = some value ∧
          ListsMap map value := by
  have hitems : List.Forall₂ (fun text item => Expand.parse none text = .ok [item])
      ["B($expand=Z,Y)".toList, "A".toList]
      [("B", { expand := some [("Y", .bare), ("Z", .bare)] }), ("A", .bare)] :=
    .cons (by decide +kernel) (.cons (by decide +kernel) .nil)
  obtain ⟨hsame, hread, hprinted⟩ := item_order_not_shown hitems (by decide)
  have hperm : ["A".toList, "B($expand=Z,Y)".toList].Perm ["B($expand=Z,Y)".toList, "A".toList] :=
    .swap ..
  obtain ⟨map, hmap, -⟩ := hread nofun
  have hswapped := (hsame _ hperm).trans hmap
  exact ⟨hsame _ hperm, map, hswapped, fun settings =>
    (hprinted _ map hperm hswapped { expand := some map } rfl settings).2⟩

end CommandLine

end OData
