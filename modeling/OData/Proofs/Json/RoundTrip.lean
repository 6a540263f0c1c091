import OData.Proofs.Expand.WellFormed
import OData.Proofs.Json.Record
import OData.Query.Json
import OData.Settings.Json

/-!
# Queries in JSON and back

A query is read back from its text as it was: what is unset stays unset and what is set but empty
stays so, at every depth, whatever the texts in it. The reader builds each map anew from the members
of an object, and gets the same map because the names in it ascend, as they do in every map. That
they do at every depth of a query is its order here; queries that are read from clauses have it.

## Main statements

* `Expansion.Ordered.readBack` — a node and the maps in it, whenever there are levels enough
* `Query.ordered_ofOptions` — the order of a query that is read from its clauses
* `json_roundTrip` — queries, nodes, error records and settings from their texts
-/

namespace OData

open Json

/-! ## Error records -/

theorem ErrorCode.ofJson?_toJson (code : ErrorCode) (levels : Nat) :
    ErrorCode.ofJson? levels code.toJson = some code := by
  rw [toJson, ofString, ofJson?.eq_1, text?_escape, Option.bind_some, String.ofList_toList]
  cases code
  rfl

namespace QueryError

theorem toJson_eq (error : QueryError) :
    error.toJson =
      record [("code", some error.code.toJson), ("message", some (ofString error.message))] := rfl

theorem nesting_toJson (error : QueryError) : error.toJson.nesting = 1 := rfl

theorem readBack (error : QueryError) : ReadBack toJson ofJson? error where
  spelled := by
    rw [toJson_eq]
    exact spelled_record (by simp [ErrorCode.toJson, spelled_ofString])
  read := by
    intro levels hlevels
    obtain ⟨levels, rfl⟩ := exists_levels_of_nesting_object_le hlevels
    rw [ofJson?, toJson_eq, fields?_record ["code", "message"] (by decide) rfl]
    dsimp only [List.map]
    rw [ErrorCode.ofJson?_toJson, string?_ofString]
    rfl

end QueryError

/-! ## Nodes and maps -/

namespace Expansion

mutual

/-- A map whose names ascend, and the names of the maps in its nodes as well. -/
inductive OrderedMap : List (String × Expansion) → Prop
  | mk {map : List (String × Expansion)} (hordered : NameMap.Ordered map)
      (hnodes : ∀ entry ∈ map, Ordered entry.2) : OrderedMap map

/-- A node that has such a map, if it has one. -/
inductive Ordered : Expansion → Prop
  | mk {node : Expansion} (hexpand : ∀ map ∈ node.expand, OrderedMap map) : Ordered node

end

/-- The value of a map of related entities. -/
def mapToJson (map : List (String × Expansion)) : Json := .object (mapMembers map)

theorem mapMembers_eq (map : List (String × Expansion)) :
    mapMembers map = map.map fun entry => member entry.1 entry.2.toJson := by
  induction map with
  | nil => rw [mapMembers, List.map_nil]
  | cons entry rest ih => rw [mapMembers, ih, List.map_cons]

theorem toJson_eq (node : Expansion) :
    node.toJson = record [("$select", node.select.map ofStrings),
      ("$expand", node.expand.map mapToJson)] := by
  obtain ⟨select, expand⟩ := node
  rw [toJson]
  cases select <;> cases expand <;> rfl

variable {node : Expansion} {map : List (String × Expansion)}

theorem readBack_map (hordered : NameMap.Ordered map)
    (h : ∀ entry ∈ map, ReadBack toJson ofJson? entry.2) :
    ReadBack mapToJson ofJson?.mapOfJson? map where
  spelled := by
    rw [mapToJson, mapMembers_eq]
    refine spelled_object_iff.2 (List.forall_mem_map.2 fun entry hentry => ?_)
    exact ⟨spelled_escape entry.1.toList, (h entry hentry).spelled⟩
  read := by
    intro levels hlevels
    obtain ⟨levels, rfl⟩ := exists_levels_of_nesting_object_le hlevels
    rw [mapToJson, mapMembers_eq] at hlevels ⊢
    rw [nesting_object_le_iff, List.forall_mem_map] at hlevels
    rw [ofJson?.mapOfJson?, List.mapM_map, mapM_eq_some_map (g := id)]
    · show some (NameMap.ofEntries (map.map id)) = some map
      rw [List.map_id, NameMap.ofEntries_of_perm hordered (.refl map)]
    · intro entry hentry
      have hnode := (h entry hentry).read levels (hlevels entry hentry)
      show ((text? (escape entry.1.toList)).bind fun name =>
        (ofJson? levels entry.2.toJson).bind fun node =>
          some (String.ofList name, node)) = some entry
      rw [text?_escape, hnode, Option.bind_some, Option.bind_some, String.ofList_toList]

theorem readBack_node (h : ∀ map ∈ node.expand, ReadBack mapToJson ofJson?.mapOfJson? map) :
    ReadBack toJson ofJson? node where
  spelled := by
    rw [toJson_eq]
    refine spelled_record ?_
    simp only [List.forall_mem_cons]
    exact ⟨spelled_of_readBack fun fields _ => readBack_ofStrings fields, spelled_of_readBack h,
      nofun⟩
  read := by
    intro levels hlevels
    rw [toJson_eq] at hlevels ⊢
    obtain ⟨levels, rfl⟩ := exists_levels_of_nesting_object_le hlevels
    simp only [nesting_record_le_iff, List.forall_mem_cons] at hlevels
    obtain ⟨hselect, hexpand, -⟩ := hlevels
    rw [ofJson?, fields?_record ["$select", "$expand"] (by decide) rfl]
    dsimp only [List.map]
    rw [optional?_of_readBack (fun fields _ => readBack_ofStrings fields) hselect fun _ => nofun,
      optional?_of_readBack h hexpand fun _ => nofun]
    cases node
    rfl

mutual

/-- **A map that is in order at every depth is read back.** -/
theorem OrderedMap.readBack {map : List (String × Expansion)} :
    OrderedMap map → ReadBack mapToJson ofJson?.mapOfJson? map
  | .mk hordered hnodes => readBack_map hordered fun entry hentry => (hnodes entry hentry).readBack

theorem Ordered.readBack {node : Expansion} : Ordered node → ReadBack toJson ofJson? node
  | .mk hexpand => readBack_node fun map hmap => (hexpand map hmap).readBack

end

end Expansion

/-- Every map that is read from a clause is in order at every depth. -/
theorem orderedMap_of_wellFormed {map : List (String × Expansion)} (h : Expand.WellFormed map) :
    Expansion.OrderedMap map := by
  refine h.induction fun map hmap ih => ?_
  obtain ⟨-, hordered, -, -⟩ := hmap
  exact .mk hordered fun entry hentry => .mk (ih entry hentry)

/-! ## Queries -/

namespace Query

/-- The map of related entities, if there is one, is in order at every depth. -/
def Ordered (query : Query) : Prop := ∀ map ∈ query.expand, Expansion.OrderedMap map

theorem toJson_eq (query : Query) :
    query.toJson = record [("error", query.error.map QueryError.toJson),
      ("$select", query.select.map ofStrings),
      ("$expand", query.expand.map Expansion.mapToJson)] := by
  obtain ⟨error, select, expand⟩ := query
  rw [toJson]
  cases error <;> cases select <;> cases expand <;> rfl

theorem readBack {query : Query} (h : query.Ordered) : ReadBack toJson ofJson? query where
  spelled := by
    rw [toJson_eq]
    refine spelled_record ?_
    simp only [List.forall_mem_cons]
    exact ⟨spelled_of_readBack fun error _ => error.readBack,
      spelled_of_readBack fun fields _ => readBack_ofStrings fields,
      spelled_of_readBack fun map hmap => (h map hmap).readBack, nofun⟩
  read := by
    intro levels hlevels
    rw [toJson_eq] at hlevels ⊢
    obtain ⟨levels, rfl⟩ := exists_levels_of_nesting_object_le hlevels
    simp only [nesting_record_le_iff, List.forall_mem_cons] at hlevels
    obtain ⟨herror, hselect, hexpand, -⟩ := hlevels
    rw [ofJson?, fields?_record ["error", "$select", "$expand"] (by decide) rfl]
    dsimp only [List.map]
    rw [optional?_of_readBack (fun error _ => error.readBack) herror fun _ => nofun,
      optional?_of_readBack (fun fields _ => readBack_ofStrings fields) hselect fun _ => nofun,
      optional?_of_readBack (fun map hmap => (h map hmap).readBack) hexpand fun _ => nofun]
    rfl

end Query

/-! ## Settings -/

namespace Settings

/-- The value of a depth limit: null if there is none. -/
def depthToJson : Option UInt64 → Json
  | none => .null
  | some depth => .number (Text.digits depth.toNat)

theorem toJson_eq (settings : Settings) :
    settings.toJson = record [("logLevel", some (ofString settings.logLevel)),
      ("pretty", some (.bool settings.pretty)),
      ("maxExpandDepth", some (depthToJson settings.maxExpandDepth))] := by
  obtain ⟨logLevel, pretty, depth⟩ := settings
  cases depth <;> rfl

theorem nesting_toJson (settings : Settings) : settings.toJson.nesting = 1 := by
  obtain ⟨logLevel, pretty, depth⟩ := settings
  cases depth <;> rfl

theorem spelled_depthToJson (depth : Option UInt64) : (depthToJson depth).Spelled := by
  intro token htoken
  cases depth with
  | none =>
    obtain rfl := List.mem_singleton.1 htoken
    trivial
  | some depth =>
    obtain rfl := List.mem_singleton.1 htoken
    exact spelled_digits depth.toNat

theorem optional?_depthToJson (depth : Option UInt64) :
    optional? word64? (some (depthToJson depth)) = some depth := by
  cases depth with
  | none => rfl
  | some depth =>
    have hread : word64? (.number (Text.digits depth.toNat)) = some depth := by
      rw [word64?, Text.natural?_digits, Option.bind_some, if_pos depth.toNat_lt,
        UInt64.ofNat_toNat]
    show (word64? (.number (Text.digits depth.toNat))).map some = some (some depth)
    rw [hread, Option.map_some]

theorem readBack (settings : Settings) : ReadBack toJson ofJson? settings where
  spelled := by
    rw [toJson_eq]
    refine spelled_record ?_
    have hpretty : (Json.bool settings.pretty).Spelled := by
      intro token htoken
      obtain rfl := List.mem_singleton.1 htoken
      trivial
    simp [spelled_ofString, hpretty, spelled_depthToJson]
  read := by
    intro levels hlevels
    rw [toJson_eq] at hlevels ⊢
    obtain ⟨levels, rfl⟩ := exists_levels_of_nesting_object_le hlevels
    rw [ofJson?, fields?_record ["logLevel", "pretty", "maxExpandDepth"] (by decide) rfl]
    dsimp only [List.map]
    rw [string?_ofString, bool?, optional?_depthToJson]
    rfl

end Settings

/-! ## Round trips -/

theorem Query.roundTrip : RoundTrip Query.Ordered Query.toJson Query.decode? :=
  roundTrip_of_readBack fun _ h => Query.readBack h

theorem Expansion.roundTrip : RoundTrip Expansion.Ordered Expansion.toJson Expansion.decode? :=
  roundTrip_of_readBack fun _ h => h.readBack

theorem QueryError.roundTrip : RoundTrip (fun _ => True) QueryError.toJson QueryError.decode? :=
  roundTrip_of_readBack fun error _ => error.readBack

theorem Settings.roundTrip : RoundTrip (fun _ => True) Settings.toJson Settings.decode? :=
  roundTrip_of_readBack fun settings _ => settings.readBack

/-- **Whatever is written is read back as it was, from both layouts, and nothing else has its
text.** Only a query or a node can nest too deep for the reader; what nests deeper is still told
apart from everything else by its text. -/
theorem json_roundTrip :
    RoundTrip Query.Ordered Query.toJson Query.decode? ∧
      RoundTrip Expansion.Ordered Expansion.toJson Expansion.decode? ∧
      (RoundTrip (fun _ => True) QueryError.toJson QueryError.decode? ∧
        ∀ error : QueryError, error.toJson.nesting ≤ nestingLimit) ∧
      (RoundTrip (fun _ => True) Settings.toJson Settings.decode? ∧
        ∀ settings : Settings, settings.toJson.nesting ≤ nestingLimit) := by
  refine ⟨Query.roundTrip, Expansion.roundTrip, ⟨QueryError.roundTrip, fun error => ?_⟩,
    Settings.roundTrip, fun settings => ?_⟩
  · rw [error.nesting_toJson]
    decide
  · rw [settings.nesting_toJson]
    decide

/-- An error beside empty and nested parts, with quotes, a backslash, a control character and others
that are escaped or not; a field list that is empty has another text than one that is unset. -/
theorem json_roundTrip_nested :
    let query : Query :=
      { error := some ⟨.badQuery, "\"\\\n\x01é"⟩
        select := some []
        expand := some
          [("", { select := some ["\t", "b"] }), ("a", { expand := some [] }), ("ä", {})] }
    Query.decode? (render .compact query.toJson) = some query ∧
      Query.decode? (render .indented query.toJson) = some query ∧
      render .compact ({ select := some [] } : Query).toJson ≠
        render .compact ({} : Query).toJson := by
  intro query
  obtain ⟨hquery, -⟩ := json_roundTrip
  have hordered : query.Ordered := by
    have hempty : Expansion.OrderedMap [] := .mk .nil nofun
    rintro map ⟨⟩
    refine .mk (by unfold NameMap.Ordered; decide) (List.forall_mem_cons.2 ⟨.mk nofun, ?_⟩)
    refine List.forall_mem_cons.2 ⟨.mk ?_, List.forall_mem_singleton.2 (.mk nofun)⟩
    rintro inner ⟨⟩
    exact hempty
  refine ⟨hquery.compact query hordered (by decide), hquery.indented query hordered (by decide),
    fun htext => ?_⟩
  have heq := hquery.distinct .compact List.mem_cons_self .compact List.mem_cons_self
    { select := some [] } {} nofun nofun htext
  nomatch heq

end OData
