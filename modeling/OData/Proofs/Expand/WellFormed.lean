import OData.Proofs.Expand.Steps
import OData.Proofs.NameMap
import OData.Proofs.Query
import OData.Proofs.Select

/-!
# What the reader builds

Every map that is read is well-formed, at every depth: it has an entry, its names are identifiers,
and each of its nodes is bare or asks for something. A limit bounds the depth of the maps in it.

Later items replace earlier ones, and groups are read before the map that they end up in exists, so
the facts are proved of lists of entries and carried over to maps.

## Main statements

* `nodes_of_entries` — what holds of every node that a group builds holds of every entry
* `wellFormed_of_parse` — a map that is read is well-formed
* `below_le_of_parse` — no map lies deeper below it than the limit
-/

namespace OData.Expand

open Text

variable {limit : DepthLimit} {depth : Nat}

/-! ## Well-formed maps -/

/-- A field list is unset, or it is a list of fields that is not empty. -/
def FieldsWellFormed (select : Option (List String)) : Prop :=
  ∀ fields, select = some fields →
    fields ≠ [] ∧ ∀ field ∈ fields, Select.isField field.toList = true

mutual

/-- A map with entries, in order, with identifiers as names and well-formed nodes. -/
inductive WellFormed : List (String × Expansion) → Prop
  | mk {map : List (String × Expansion)} (hne : map ≠ []) (hordered : NameMap.Ordered map)
      (hnames : ∀ entry ∈ map, isIdentifier entry.1.toList = true)
      (hnodes : ∀ entry ∈ map, WellFormedNode entry.2) : WellFormed map

/-- A bare node, or one that asks for fields, for related entities, or for both. -/
inductive WellFormedNode : Expansion → Prop
  | bare : WellFormedNode .bare
  | group {node : Expansion} (hselect : FieldsWellFormed node.select)
      (hexpand : ∀ map, node.expand = some map → WellFormed map) (hset : node.isEmpty = false) :
      WellFormedNode node

end

/-- The last map lies `depth` maps below the first. -/
inductive Below : List (String × Expansion) → Nat → List (String × Expansion) → Prop
  | here {map : List (String × Expansion)} : Below map 0 map
  | there {map inner nested : List (String × Expansion)} {depth : Nat} {entry : String × Expansion}
      (hentry : entry ∈ map) (hinner : entry.2.expand = some inner)
      (hbelow : Below inner depth nested) : Below map (depth + 1) nested

/-- What holds of a well-formed map when it holds of the maps in its nodes holds of them all. -/
theorem WellFormed.induction {P : List (String × Expansion) → Prop}
    (step : ∀ map, WellFormed map →
      (∀ entry ∈ map, ∀ inner, entry.2.expand = some inner → P inner) → P map)
    {map : List (String × Expansion)} (h : WellFormed map) : P map := by
  refine @WellFormed.rec (fun map _ => P map)
    (fun node _ => ∀ inner, node.expand = some inner → P inner) ?_ nofun ?_ map h
  · intro map hne hordered hnames hnodes ih
    exact step map (.mk hne hordered hnames hnodes) ih
  · intro node _ _ _ ih inner hinner
    exact ih inner hinner

theorem WellFormedNode.isEmpty_eq {node : Expansion} (h : WellFormedNode node) :
    node.isEmpty = false := by
  rcases h with _ | ⟨-, -, hset⟩
  · rfl
  · exact hset

theorem WellFormedNode.eq_bare {node : Expansion} (h : WellFormedNode node)
    (hselect : node.select = some []) : node = .bare := by
  rcases h with _ | ⟨hfields, -, -⟩
  · rfl
  · exact absurd rfl (hfields [] hselect).1

theorem WellFormedNode.of_expand {node : Expansion} {map : List (String × Expansion)}
    (h : WellFormedNode node) (hmap : node.expand = some map) : WellFormed map := by
  rcases h with _ | ⟨-, hexpand, -⟩
  · nomatch hmap
  · exact hexpand map hmap

/-- **Well-formedness is the same at every depth.** -/
theorem WellFormed.of_below {map nested : List (String × Expansion)} (h : WellFormed map)
    (hbelow : Below map depth nested) : WellFormed nested := by
  induction hbelow with
  | here => exact h
  | there hentry hinner _ ih =>
    obtain ⟨-, -, -, hnodes⟩ := h
    exact ih ((hnodes _ hentry).of_expand hinner)

/-! ## The invariant of reading -/

/-- At least one entry, all of them with identifiers as names and with nodes of one kind. -/
structure NodesAre (R : Expansion → Prop) (list : List (String × Expansion)) : Prop where
  ne_nil : list ≠ []
  names : ∀ entry ∈ list, isIdentifier entry.1.toList = true
  nodes : ∀ entry ∈ list, R entry.2

theorem NodesAre.ofEntries {R : Expansion → Prop} {list : List (String × Expansion)}
    (h : NodesAre R list) : NodesAre R (NameMap.ofEntries list) where
  ne_nil := NameMap.ofEntries_ne_nil h.ne_nil
  names := fun entry hentry => h.names entry (NameMap.mem_of_mem_ofEntries hentry)
  nodes := fun entry hentry => h.nodes entry (NameMap.mem_of_mem_ofEntries hentry)

theorem fieldsWellFormed_of_ofOptions {options : Options} {select : Option (List String)}
    (h : Select.ofOptions options = .ok select) : FieldsWellFormed select := by
  rintro fields rfl
  rcases Select.ofOptions_eq_ok_iff.1 h with ⟨-, hnone⟩ | ⟨list, _, -, hfields, ⟨⟩⟩
  · nomatch hnone
  · exact ⟨hfields.ne_nil, hfields.isField⟩

/-- **What holds of bare nodes, and of every node that a group builds from such nodes one deeper,
holds of the node of every entry.** -/
theorem nodes_of_entries {R : Nat → Expansion → Prop} (hbare : ∀ depth, R depth .bare)
    (hgroup : ∀ depth node, limit.permits depth = true → FieldsWellFormed node.select →
      node.isEmpty = false → (∀ map, node.expand = some map →
        NameMap.Ordered map ∧ NodesAre (R (depth + 1)) map) → R depth node)
    {text : List Char} {list : List (String × Expansion)}
    (h : entries limit depth text = .ok list) :
    NodesAre (R (depth + 1)) list := by
  refine (clause_induction
    (P := fun text => ∀ depth list, entries limit depth text = .ok list →
      NodesAre (R (depth + 1)) list)
    (Q := fun group => ∀ depth value, node limit depth group = .ok value → R depth value)
    ?_ ?_).1 text depth list h
  · intro text ih depth list h
    obtain ⟨item, value, hitem, hnode, hnext⟩ := entries_eq_ok_iff.1 h
    obtain ⟨hinside, hrest⟩ := ih item hitem
    have hname : isIdentifier (String.ofList item.name).toList = true := by
      rw [String.toList_ofList]
      exact (readItem_eq_ok_iff.1 hitem).isIdentifier
    have hvalue : R (depth + 1) value := by
      cases hg : item.group with
      | none =>
        rw [hg] at hnode
        obtain rfl := Except.ok.inj hnode
        exact hbare _
      | some group =>
        rw [hg] at hnode
        exact hinside group hg _ value hnode
    rcases hnext with ⟨-, rfl⟩ | ⟨rest, tail, hcomma, htail, rfl⟩
    · exact ⟨List.cons_ne_nil _ _, by simpa using hname, by simpa using hvalue⟩
    · have ih := hrest rest hcomma depth tail htail
      exact ⟨List.cons_ne_nil _ _, List.forall_mem_cons.2 ⟨hname, ih.names⟩,
        List.forall_mem_cons.2 ⟨hvalue, ih.nodes⟩⟩
  · -- the clause of a group stands at the depth of the group, its groups one deeper
    intro group ih depth value h
    obtain ⟨hpermits, select, hselect, hclause⟩ := node_eq_ok_iff.1 h
    have hfields := fieldsWellFormed_of_ofOptions hselect
    rcases hclause with ⟨-, hsome, rfl⟩ | ⟨text, list, htext, hlist, rfl⟩
    · refine hgroup depth _ hpermits hfields ?_ nofun
      simpa [Expansion.isEmpty] using hsome
    · refine hgroup depth _ hpermits hfields (by simp [Expansion.isEmpty]) ?_
      rintro map ⟨⟩
      exact ⟨NameMap.ordered_ofEntries list, (ih text htext depth list hlist).ofEntries⟩

/-! ## The two facts about maps -/

/-- **A map that is read is well-formed, whatever the limit.** -/
theorem wellFormed_of_parse {text : List Char} {map : List (String × Expansion)}
    (h : parse limit text = .ok map) : WellFormed map := by
  obtain ⟨list, hlist, rfl⟩ := map_eq_ok_iff.1 h
  have hnodes : NodesAre WellFormedNode list := by
    refine nodes_of_entries (R := fun _ => WellFormedNode) (fun _ => .bare) ?_ hlist
    intro _ node _ hfields hset hmap
    refine .group hfields (fun map hexpand => ?_) hset
    obtain ⟨hordered, hinner⟩ := hmap map hexpand
    exact .mk hinner.ne_nil hordered hinner.names hinner.nodes
  have hmap := hnodes.ofEntries
  exact .mk hmap.ne_nil (NameMap.ordered_ofEntries list) hmap.names hmap.nodes

/-- The maps in the node of a group at the given depth lie no deeper than the bound. -/
def ExpandsWithin (bound depth : Nat) (node : Expansion) : Prop :=
  ∀ inner, node.expand = some inner → ∀ below nested, Below inner below nested →
    depth + below ≤ bound

/-- **No map lies deeper below a map that is read than the limit.** -/
theorem below_le_of_parse {bound : Nat} {text : List Char} {map nested : List (String × Expansion)}
    (h : parse (some bound) text = .ok map) (hbelow : Below map depth nested) : depth ≤ bound := by
  obtain ⟨list, hlist, rfl⟩ := map_eq_ok_iff.1 h
  have hnodes : NodesAre (ExpandsWithin bound 1) list := by
    refine nodes_of_entries (R := ExpandsWithin bound) (fun _ _ => nofun) ?_ hlist
    intro depth node hpermits _ _ hmap inner hexpand below nested hbelow
    obtain ⟨-, hinner⟩ := hmap inner hexpand
    cases hbelow with
    | here => simpa [DepthLimit.permits] using hpermits
    | there hentry hnext hbelow =>
      have := hinner.nodes _ hentry _ hnext _ _ hbelow
      omega
  cases hbelow with
  | here => exact Nat.zero_le _
  | there hentry hinner hbelow =>
    have := hnodes.ofEntries.nodes _ hentry _ hinner _ _ hbelow
    omega

/-! ## Whole queries -/

/-- **A query without an error is well-formed and within the limit.** Its fields are fields, its map
and every map below it are well-formed, and none of them lies too deep; so a field list that is
empty marks a bare node, and nothing else is empty. -/
theorem query_wellFormed (limit : DepthLimit) (options : Options)
    (h : (Query.ofOptions limit options).error = none) :
    FieldsWellFormed (Query.ofOptions limit options).select ∧
      ∀ map, (Query.ofOptions limit options).expand = some map →
        ∀ depth nested, Below map depth nested →
          WellFormed nested ∧ nested ≠ [] ∧
          (∀ entry ∈ nested, isIdentifier entry.1.toList = true ∧ entry.2.isEmpty = false ∧
            (entry.2.select = some [] → entry.2 = .bare)) ∧
          ∀ bound, limit = some bound → depth ≤ bound := by
  rw [Query.ofOptions_eq] at h ⊢
  cases hselect : Select.ofOptions options with
  | error fault => simp [hselect] at h
  | ok select =>
    rw [hselect] at h
    dsimp only at h ⊢
    have hfields := fieldsWellFormed_of_ofOptions hselect
    cases hclause : options.first? Options.expandKey with
    | none => exact ⟨hfields, nofun⟩
    | some clause =>
      rw [hclause] at h
      dsimp only at h ⊢
      cases hparse : parse limit clause with
      | error fault => simp [hparse] at h
      | ok map =>
        refine ⟨hfields, ?_⟩
        rintro map ⟨⟩ depth nested hbelow
        have hnested := (wellFormed_of_parse hparse).of_below hbelow
        obtain ⟨hne, -, hnames, hnodes⟩ := id hnested
        refine ⟨hnested, hne, fun entry hentry => ?_, ?_⟩
        · have hnode := hnodes entry hentry
          exact ⟨hnames entry hentry, hnode.isEmpty_eq, hnode.eq_bare⟩
        · rintro bound rfl
          exact below_le_of_parse hparse hbelow

/-- The inner group is as deep as the limit permits; the map of the outer one lies one map below. -/
theorem query_wellFormed_nested :
    (Query.ofOptions (some 2)
      (.ofQuery "$select=x&$expand=A($expand=B($select=*),C),D".toList)).error = none ∧
    Below [("A", { expand := some [("B", { select := some ["*"] }), ("C", .bare)] }), ("D", .bare)] 1
      [("B", { select := some ["*"] }), ("C", .bare)] ∧
    WellFormed [("B", { select := some ["*"] }), ("C", .bare)] ∧ 1 ≤ 2 := by
  have hquery : Query.ofOptions (some 2)
      (.ofQuery "$select=x&$expand=A($expand=B($select=*),C),D".toList) =
        { select := some ["x"],
          expand := some [("A", { expand := some [("B", { select := some ["*"] }), ("C", .bare)] }),
            ("D", .bare)] } := by
    decide +kernel
  have herror := congrArg Query.error hquery
  have hbelow : Below
      [("A", { expand := some [("B", { select := some ["*"] }), ("C", .bare)] }), ("D", .bare)] 1
      [("B", { select := some ["*"] }), ("C", .bare)] :=
    .there List.mem_cons_self rfl .here
  obtain ⟨hnested, -, -, hdepth⟩ :=
    (query_wellFormed _ _ herror).2 _ (congrArg Query.expand hquery) 1 _ hbelow
  exact ⟨herror, hbelow, hnested, hdepth 2 rfl⟩

end OData.Expand
