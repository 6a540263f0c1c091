import OData.Proofs.Expand.Depth
import OData.Proofs.NameMap
import OData.Proofs.Options

/-!
# The grammar of expand clauses

When a text is an expand clause, and which map it stands for, as relations that mention no reader. A
clause is items between commas, an item a name and maybe a group in parentheses, and a group is a
list of options whose own `$expand` is a clause again, after decoding.

## Main statements

* `itemsText_of_entries` — what is accepted is a clause, under any limit
* `entries_of_itemsText` — every clause is accepted without a limit
* `parse_exact` — the two together, for maps
-/

namespace OData.Expand

open Text Options

variable {limit : DepthLimit} {depth : Nat}

mutual

/-- A clause and its map: of items with the same name the last one counts. -/
inductive ClauseText : List Char → List (String × Expansion) → Prop
  | mk {text : List Char} {list map : List (String × Expansion)} (hitems : ItemsText text list)
      (hmap : NameMap.LastWins list map) : ClauseText text map

/-- Items with commas between them, at least one, and what each of them asks for. -/
inductive ItemsText : List Char → List (String × Expansion) → Prop
  | last {text : List Char} {entry : String × Expansion} (hitem : ItemText text entry) :
      ItemsText text [entry]
  | cons {text rest : List Char} {entry : String × Expansion} {list : List (String × Expansion)}
      (hitem : ItemText text entry) (hrest : ItemsText rest list) :
      ItemsText (text ++ ',' :: rest) (entry :: list)

/-- An item: a name, or a name and a group in parentheses, with white space around the parts. -/
inductive ItemText : List Char → String × Expansion → Prop
  | bare {before after : List Char} {name : String} (hbefore : AllWhite before)
      (hname : isIdentifier name.toList = true) (hafter : AllWhite after) :
      ItemText (before ++ (name.toList ++ after)) (name, .bare)
  | group {before between white inner after : List Char} {name : String} {node : Expansion}
      (hbefore : AllWhite before) (hname : isIdentifier name.toList = true)
      (hbetween : AllWhite between) (hwhite : AllWhite white) (hinner : Balanced inner)
      (hnode : GroupText (skipWhite inner) node) (hafter : AllWhite after) :
      ItemText (before ++ (name.toList ++ (between ++ '(' :: (white ++ (inner ++ ')' :: after)))))
        (name, node)

/-- The inside of a group: options, of which the first `$select` and the first `$expand` count, and
one of the two must be there. -/
inductive GroupText : List Char → Expansion → Prop
  | select {group list : List Char} {pairs : List (List Char × List Char)} {fields : List String}
      (hoptions : GroupOptions group pairs) (hselect : FirstValue pairs selectKey list)
      (hfields : Select.FieldList list fields) (hexpand : Lacks pairs expandKey) :
      GroupText group { select := some fields }
  | expand {group clause : List Char} {pairs : List (List Char × List Char)}
      {map : List (String × Expansion)} (hoptions : GroupOptions group pairs)
      (hselect : Lacks pairs selectKey) (hexpand : FirstValue pairs expandKey clause)
      (hclause : ClauseText clause map) : GroupText group { expand := some map }
  | both {group list clause : List Char} {pairs : List (List Char × List Char)}
      {fields : List String} {map : List (String × Expansion)} (hoptions : GroupOptions group pairs)
      (hselect : FirstValue pairs selectKey list) (hfields : Select.FieldList list fields)
      (hexpand : FirstValue pairs expandKey clause) (hclause : ClauseText clause map) :
      GroupText group { select := some fields, expand := some map }

end

/-! ## What is accepted is a clause -/

/-- The inside of an accepted group, when its own clause is one. -/
theorem groupText_of_node {group : List Char} {value : Expansion} (hgroup : Balanced group)
    (ih : ∀ text, (Options.ofGroup group).first? expandKey = some text → ∀ depth list,
      entries limit depth text = .ok list → ItemsText text list)
    (h : node limit depth group = .ok value) : GroupText group value := by
  obtain ⟨-, select, hselect, hclause⟩ := node_eq_ok_iff.1 h
  have hoptions : GroupOptions group (ofGroup group).pairs := (groupOptions_iff hgroup).2 rfl
  rcases hclause with ⟨hnone, hsome, rfl⟩ | ⟨text, list, htext, hlist, rfl⟩
  · have hexpand := first?_eq_none_iff.1 hnone
    rcases Select.ofOptions_eq_ok_iff.1 hselect with ⟨-, rfl⟩ | ⟨_, _, hfirst, hfields, rfl⟩
    · nomatch hsome
    · exact .select hoptions (first?_eq_some_iff.1 hfirst) hfields hexpand
  · have hexpand := first?_eq_some_iff.1 htext
    have hmap : ClauseText text (NameMap.ofEntries list) :=
      .mk (ih text htext depth list hlist) (NameMap.lastWins_iff.2 rfl)
    rcases Select.ofOptions_eq_ok_iff.1 hselect with ⟨hnone, rfl⟩ | ⟨_, _, hfirst, hfields, rfl⟩
    · exact .expand hoptions (first?_eq_none_iff.1 hnone) hexpand hmap
    · exact .both hoptions (first?_eq_some_iff.1 hfirst) hfields hexpand hmap

/-- An item that was read, with the white space behind it. -/
theorem itemText_of_beginsWith {text white tail : List Char} {item : Item} {value : Expansion}
    (h : BeginsWith text item) (hwhite : AllWhite white) (hafter : item.after = white ++ tail)
    (hnode : itemNode limit depth item.group = .ok value)
    (ih : ∀ group, item.group = some group → Balanced group → ∀ depth value,
      node limit depth group = .ok value → GroupText group value) :
    ∃ front, text = front ++ tail ∧ ItemText front (String.ofList item.name, value) := by
  cases h with
  | @bare before name between after hbefore hname hbetween hends hhead =>
    obtain rfl : Expansion.bare = value := Except.ok.inj hnode
    obtain rfl : after = white ++ tail := hafter
    have hitem : ItemText _ (String.ofList name, _) :=
      .bare hbefore (by simpa using hname) (hbetween.append hwhite)
    refine ⟨_, ?_, hitem⟩
    simp
  | @group before name between gap group after hbefore hname hbetween hgap hgroup hhead =>
    obtain rfl : after = white ++ tail := hafter
    have hinside : GroupText (skipWhite group) value := by
      rw [hhead]
      exact ih group rfl hgroup _ _ hnode
    have hitem : ItemText _ (String.ofList name, _) :=
      .group hbefore (by simpa using hname) hbetween hgap hgroup hinside hwhite
    refine ⟨_, ?_, hitem⟩
    simp

/-- **What is accepted is a clause, under any limit.** -/
theorem itemsText_of_entries {text : List Char} {list : List (String × Expansion)}
    (h : entries limit depth text = .ok list) : ItemsText text list := by
  -- the inside of a group is balanced because the reader cut it off where its `(` is closed
  refine (clause_induction
    (P := fun text => ∀ depth list, entries limit depth text = .ok list → ItemsText text list)
    (Q := fun group => Balanced group → ∀ depth value, node limit depth group = .ok value →
      GroupText group value) ?_ ?_).1 text depth list h
  · intro text ih depth list h
    obtain ⟨item, value, hitem, hnode, hnext⟩ := entries_eq_ok_iff.1 h
    obtain ⟨hgroup, hrest⟩ := ih item hitem
    have hbegins := readItem_eq_ok_iff.1 hitem
    rcases hnext with ⟨hend, rfl⟩ | ⟨rest, tail, hcomma, htail, rfl⟩
    · obtain ⟨front, hfront, hentry⟩ := itemText_of_beginsWith hbegins
        (continuation_eq_none_iff.1 hend) (List.append_nil item.after).symm hnode hgroup
      rw [hfront, List.append_nil]
      exact .last hentry
    · obtain ⟨white, hwhite, hafter⟩ := continuation_eq_some_iff.1 hcomma
      obtain ⟨front, rfl, hentry⟩ := itemText_of_beginsWith hbegins hwhite hafter hnode hgroup
      exact .cons hentry (hrest rest hcomma depth tail htail)
  · intro group ih hgroup depth value h
    exact groupText_of_node hgroup ih h

/-! ## Every clause is accepted -/

/-- Where an item may end: at the end of the clause, or before a comma. -/
def ItemEnd (text : List Char) : Prop := text = [] ∨ ∃ rest, text = ',' :: rest

theorem ItemEnd.head {text : List Char} (h : ItemEnd text) : ∀ c ∈ text.head?, c = ',' := by
  rcases h with rfl | ⟨rest, rfl⟩
  · nofun
  · rintro c ⟨⟩
    rfl

/-- What stands behind the name of an item that asks for the node: nothing, or a group. -/
def InsideText (node : Expansion) : Option (List Char) → Prop
  | none => node = .bare
  | some group => Balanced group ∧ GroupText group node

/-- **Every item is read, up to the white space behind it.** -/
theorem readItem_of_itemText {front tail : List Char} {entry : String × Expansion}
    (h : ItemText front entry) (htail : ItemEnd tail) :
    ∃ item white, readItem (front ++ tail) = .ok item ∧ String.ofList item.name = entry.1 ∧
      InsideText entry.2 item.group ∧ AllWhite white ∧ item.after = white ++ tail := by
  cases h with
  | @bare before after name hbefore hname hafter =>
    have hends : ∀ c ∈ (after ++ tail).head?, continuesIdentifier c = false := by
      refine head_of_allWhite hafter fun c hc => ?_
      rw [htail.head c hc]
      decide
    have hhead : ∀ c ∈ tail.head?, isWhite c = false ∧ c ≠ '(' := by
      intro c hc
      rw [htail.head c hc]
      decide
    have hbegins := BeginsWith.bare hbefore hname hafter hends hhead
    refine ⟨⟨name.toList, none, tail⟩, [], readItem_eq_ok_iff.2 ?_, String.ofList_toList, rfl,
      allWhite_nil, rfl⟩
    simpa using hbegins
  | @group before between white inner after name node hbefore hname hbetween hwhite hinner hnode
      hafter =>
    -- the white space that the inside starts with belongs to the gap behind its parenthesis
    obtain ⟨gap, hgap, hcut⟩ := exists_white_append inner
    have hgroup := hinner.skipWhite
    have hhead := skipWhite_skipWhite inner
    generalize skipWhite inner = group at hcut hgroup hhead hnode
    subst hcut
    have hbegins : BeginsWith _ ⟨_, _, after ++ tail⟩ :=
      .group hbefore hname hbetween (hwhite.append hgap) hgroup hhead
    refine ⟨⟨name.toList, some group, after ++ tail⟩, after, readItem_eq_ok_iff.2 ?_,
      String.ofList_toList, ⟨hgroup, hnode⟩, hafter, rfl⟩
    simpa using hbegins

/-- Every group is accepted, when its own clause is. -/
theorem node_of_groupText {group : List Char} {node : Expansion} (hgroup : Balanced group)
    (ih : ∀ text, (ofGroup group).first? expandKey = some text → ∀ depth list,
      ItemsText text list → entries none depth text = .ok list)
    (h : GroupText group node) (depth : Nat) : Expand.node none depth group = .ok node := by
  refine node_eq_ok_iff.2 ⟨rfl, ?_⟩
  cases h with
  | select hoptions hselect hfields hexpand =>
    have hselected := hoptions.first?_eq_some hgroup hselect
    refine ⟨_, Select.ofOptions_eq_ok_iff.2 (Or.inr ⟨_, _, hselected, hfields, rfl⟩), Or.inl ?_⟩
    exact ⟨hoptions.first?_eq_none hgroup hexpand, rfl, rfl⟩
  | expand hoptions hselect hexpand hclause =>
    have hfirst := hoptions.first?_eq_some hgroup hexpand
    have hnone := hoptions.first?_eq_none hgroup hselect
    obtain ⟨hitems, hmap⟩ := hclause
    obtain rfl := NameMap.lastWins_iff.1 hmap
    refine ⟨none, Select.ofOptions_eq_ok_iff.2 (Or.inl ⟨hnone, rfl⟩), Or.inr ?_⟩
    exact ⟨_, _, hfirst, ih _ hfirst depth _ hitems, rfl⟩
  | both hoptions hselect hfields hexpand hclause =>
    have hselected := hoptions.first?_eq_some hgroup hselect
    have hfirst := hoptions.first?_eq_some hgroup hexpand
    obtain ⟨hitems, hmap⟩ := hclause
    obtain rfl := NameMap.lastWins_iff.1 hmap
    refine ⟨_, Select.ofOptions_eq_ok_iff.2 (Or.inr ⟨_, _, hselected, hfields, rfl⟩), Or.inr ?_⟩
    exact ⟨_, _, hfirst, ih _ hfirst depth _ hitems, rfl⟩

/-- **Every clause is accepted without a limit, with the entries it stands for.** -/
theorem entries_of_itemsText {text : List Char} {list : List (String × Expansion)}
    (h : ItemsText text list) (depth : Nat) : entries none depth text = .ok list := by
  -- induction on what the reader meets: a nested clause is decoded text, not a part of this one
  refine (clause_induction
    (P := fun text => ∀ depth list, ItemsText text list → entries none depth text = .ok list)
    (Q := fun group => Balanced group → ∀ value, GroupText group value → ∀ depth,
      node none depth group = .ok value) ?_ ?_).1 text depth list h
  · intro text ih depth list h
    have hnode : ∀ item value, readItem text = .ok item → InsideText value item.group →
        itemNode none depth item.group = .ok value := by
      intro item value hread hinside
      cases hg : item.group with
      | none =>
        rw [hg] at hinside
        exact congrArg _ hinside.symm
      | some group =>
        rw [hg] at hinside
        exact (ih item hread).1 group hg hinside.1 value hinside.2 (depth + 1)
    cases h with
    | last hitem =>
      obtain ⟨item, white, hread, hname, hinside, hwhite, hafter⟩ :=
        readItem_of_itemText hitem (Or.inl rfl)
      rw [List.append_nil] at hread hafter
      have hend := continuation_eq_none_iff.2 (hafter ▸ hwhite)
      exact entries_eq_ok_iff.2 ⟨item, _, hread, hnode item _ hread hinside,
        Or.inl ⟨hend, by rw [hname]⟩⟩
    | cons hitem hrest =>
      obtain ⟨item, white, hread, hname, hinside, hwhite, hafter⟩ :=
        readItem_of_itemText hitem (Or.inr ⟨_, rfl⟩)
      have hcomma := continuation_eq_some_iff.2 ⟨white, hwhite, hafter⟩
      have htail := (ih item hread).2 _ hcomma depth _ hrest
      exact entries_eq_ok_iff.2 ⟨item, _, hread, hnode item _ hread hinside,
        Or.inr ⟨_, _, hcomma, htail, by rw [hname]⟩⟩
  · intro group ih hgroup value h depth
    exact node_of_groupText hgroup ih h depth

/-! ## Maps -/

theorem clauseText_of_parse {text : List Char} {map : List (String × Expansion)}
    (h : parse limit text = .ok map) : ClauseText text map := by
  obtain ⟨list, hlist, hmap⟩ := map_eq_ok_iff.1 h
  exact .mk (itemsText_of_entries hlist) (NameMap.lastWins_iff.2 hmap)

theorem parse_of_clauseText {text : List Char} {map : List (String × Expansion)}
    (h : ClauseText text map) : parse none text = .ok map := by
  obtain ⟨hitems, hmap⟩ := h
  exact map_eq_ok_iff.2 ⟨_, entries_of_itemsText hitems 0, NameMap.lastWins_iff.1 hmap⟩

/-- **The clauses are what the reader accepts, and it gives the maps they stand for.** A limit only
refuses clauses that nest too deep. -/
theorem parse_exact (text : List Char) (map : List (String × Expansion)) :
    (parse none text = .ok map ↔ ClauseText text map) ∧
      ∀ limit, parse (some limit) text = .ok map ↔ ClauseText text map ∧ deepest text ≤ limit := by
  have hexact : parse none text = .ok map ↔ ClauseText text map :=
    ⟨clauseText_of_parse, parse_of_clauseText⟩
  refine ⟨hexact, fun limit => ?_⟩
  rw [parse_some_eq, ← hexact]
  by_cases h : deepest text ≤ limit
  · rw [if_pos h, and_iff_left h]
  · rw [if_neg h]
    constructor
    · nofun
    · rintro ⟨-, hle⟩
      exact absurd hle h

end OData.Expand
