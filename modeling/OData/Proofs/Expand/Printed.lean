import OData.Proofs.Expand.Grammar
import OData.Proofs.Expand.WellFormed

/-!
# Writing a map as a clause

Every well-formed map is what some clause stands for. A clause for it is written with the items of
each map and the options of each group in any order; whatever the order, reading it gives the map.

## The invariant

The text of a map passes through one cut at parentheses, one cut at semicolons and one decoding for
every group it stands in. That none of them touches it is one property, `Written`, which holds of
the text of every list of items.

## Main statements

* `exists_printed` — a well-formed map can be written in every order of its items
* `printed_itemsText` — what was written is a clause with these items
* `ofText_expand` — a query that holds nothing but a written clause
-/

namespace OData.Expand

open Text Options

/-! ## Writing -/

/-- A field list as it is written. -/
def fieldsText (fields : List String) : List Char := [','].intercalate (fields.map String.toList)

/-- The options of a group: its fields, and the text of its map. -/
def nodeOptions (node : Expansion) (inner : List Char) : List (List Char × List Char) :=
  (node.select.map fun fields => (selectKey, fieldsText fields)).toList ++
    (node.expand.map fun _ => (expandKey, inner)).toList

/-- A text of the items, written in their order: a bare node as its name, any other node with its
options in some order, and the map in it with its items in some order. -/
inductive PrintedItems : List (String × Expansion) → List Char → Prop
  | bare {name : String} : PrintedItems [(name, .bare)] name.toList
  | group {name : String} {node : Expansion} {items : List (String × Expansion)}
      {inner : List Char} {options : List (List Char × List Char)} (hnode : node ≠ .bare)
      (hitems : ∀ map, node.expand = some map → items.Perm map)
      (hinner : ∀ map, node.expand = some map → PrintedItems items inner)
      (hoptions : options.Perm (nodeOptions node inner)) :
      PrintedItems [(name, node)]
        (name.toList ++ ('(' :: [';'].intercalate (options.map write) ++ [')']))
  | cons {entry : String × Expansion} {text rest : List Char} {items : List (String × Expansion)}
      (hentry : PrintedItems [entry] text) (hitems : PrintedItems items rest) :
      PrintedItems (entry :: items) (text ++ ',' :: rest)

/-- A text of the map: its items in some order. -/
def Printed (map : List (String × Expansion)) (text : List Char) : Prop :=
  ∃ items, items.Perm map ∧ PrintedItems items text

/-! ## Fields -/

theorem word_of_isField {field : List Char} (h : Select.isField field = true) : Word field := by
  intro c hc
  rcases Select.mem_field h hc with rfl | hcontinues
  · decide
  · exact isPlainChar_of_continuesIdentifier hcontinues

theorem word_fieldsText {fields : List String}
    (h : ∀ field ∈ fields, Select.isField field.toList = true) : Word (fieldsText fields) := by
  refine forall_mem_intercalate (P := fun c => isPlainChar c = true) (by decide) ?_
  intro piece hpiece
  obtain ⟨field, hfield, rfl⟩ := List.mem_map.1 hpiece
  exact word_of_isField (h field hfield)

theorem fieldList_fieldsText {fields : List String} (hne : fields ≠ [])
    (h : ∀ field ∈ fields, Select.isField field.toList = true) :
    Select.FieldList (fieldsText fields) fields := by
  refine ⟨fields.map String.toList, by simpa using hne, rfl, ?_⟩
  rw [List.forall₂_map_left_iff, List.forall₂_same]
  intro field hfield
  exact ⟨h field hfield, [], [], allWhite_nil, allWhite_nil, by simp⟩

/-! ## Options -/

variable {node : Expansion} {inner : List Char} {options : List (List Char × List Char)}

theorem mem_nodeOptions {key value : List Char} :
    (key, value) ∈ nodeOptions node inner ↔
      (∃ fields, node.select = some fields ∧ key = selectKey ∧ value = fieldsText fields) ∨
        (∃ map, node.expand = some map) ∧ key = expandKey ∧ value = inner := by
  obtain ⟨select, expand⟩ := node
  cases select <;> cases expand <;> simp [nodeOptions]

theorem nodeOptions_distinct : (nodeOptions node inner).Pairwise fun a b => a.1 ≠ b.1 := by
  have hkeys : selectKey ≠ expandKey := by decide
  obtain ⟨select, expand⟩ := node
  cases select <;> cases expand <;> simp [nodeOptions, hkeys]

theorem nodeOptions_ne_nil (h : node.isEmpty = false) : nodeOptions node inner ≠ [] := by
  obtain ⟨select, expand⟩ := node
  cases select <;> cases expand <;> simp [nodeOptions, Expansion.isEmpty] at h ⊢

theorem writtenOptions_nodeOptions (hselect : FieldsWellFormed node.select)
    (hinner : ∀ map, node.expand = some map → Written inner) :
    WrittenOptions (nodeOptions node inner) := by
  have hselectKey : '=' ∉ selectKey ∧ Word (selectKey ++ ['=']) :=
    ⟨by decide, word_of_all (by decide)⟩
  have hexpandKey : '=' ∉ expandKey ∧ Word (expandKey ++ ['=']) :=
    ⟨by decide, word_of_all (by decide)⟩
  rintro ⟨key, value⟩ hmem
  rw [write, List.append_cons]
  rcases mem_nodeOptions.1 hmem with ⟨fields, hfields, rfl, rfl⟩ | ⟨⟨map, hmap⟩, rfl, rfl⟩
  · have hvalue := word_fieldsText (hselect fields hfields).2
    exact ⟨hselectKey.1, written_of_word (hselectKey.2.append hvalue)⟩
  · exact ⟨hexpandKey.1, (written_of_word hexpandKey.2).append (hinner map hmap)⟩

/-- **The options of a group, in any order, are the text of what the group asks for.** -/
theorem groupText_of_options (hselect : FieldsWellFormed node.select) (hset : node.isEmpty = false)
    (hoptions : options.Perm (nodeOptions node inner)) (hwritten : WrittenOptions options)
    (hinner : ∀ map, node.expand = some map → ClauseText inner map) :
    GroupText ([';'].intercalate (options.map write)) node := by
  have hne : options ≠ [] := by
    rintro rfl
    exact nodeOptions_ne_nil hset hoptions.nil_eq.symm
  have hgroup := groupOptions_written hne hwritten
  have hdistinct : options.Pairwise fun a b => a.1 ≠ b.1 :=
    hoptions.symm.pairwise nodeOptions_distinct Ne.symm
  have hkeys : selectKey ≠ expandKey := by decide
  obtain ⟨select, expand⟩ := node
  cases select with
  | none =>
    cases expand with
    | none => nomatch hset
    | some map =>
      have hexpand : (expandKey, inner) ∈ options := hoptions.mem_iff.2 (by simp [mem_nodeOptions])
      have hlacks : Lacks options selectKey := by
        rintro ⟨key, value⟩ hmem rfl
        simpa [mem_nodeOptions, hkeys] using hoptions.mem_iff.1 hmem
      exact .expand hgroup hlacks (firstValue_of_mem hdistinct hexpand) (hinner map rfl)
  | some fields =>
    obtain ⟨hfields, hall⟩ := hselect fields rfl
    have hlist := fieldList_fieldsText hfields hall
    have hmem : (selectKey, fieldsText fields) ∈ options :=
      hoptions.mem_iff.2 (by simp [mem_nodeOptions])
    have hfirst := firstValue_of_mem hdistinct hmem
    cases expand with
    | none =>
      have hlacks : Lacks options expandKey := by
        rintro ⟨key, value⟩ hmem rfl
        simpa [mem_nodeOptions, hkeys.symm] using hoptions.mem_iff.1 hmem
      exact .select hgroup hfirst hlist hlacks
    | some map =>
      have hexpand : (expandKey, inner) ∈ options := hoptions.mem_iff.2 (by simp [mem_nodeOptions])
      exact .both hgroup hfirst hlist (firstValue_of_mem hdistinct hexpand) (hinner map rfl)

/-! ## Items -/

/-- Names are identifiers and nodes are well-formed. -/
def ItemsWellFormed (items : List (String × Expansion)) : Prop :=
  ∀ entry ∈ items, isIdentifier entry.1.toList = true ∧ WellFormedNode entry.2

theorem WellFormed.items {map items : List (String × Expansion)} (h : WellFormed map)
    (hperm : items.Perm map) : ItemsWellFormed items := by
  obtain ⟨-, -, hnames, hnodes⟩ := h
  intro entry hentry
  have hmem := hperm.mem_iff.1 hentry
  exact ⟨hnames entry hmem, hnodes entry hmem⟩

/-- No name comes twice in a map, so the order of its items does not matter. -/
theorem WellFormed.clauseText {map items : List (String × Expansion)} {text : List Char}
    (h : WellFormed map) (hperm : items.Perm map) (hitems : ItemsText text items) :
    ClauseText text map := by
  obtain ⟨-, hordered, -, -⟩ := h
  exact .mk hitems (NameMap.lastWins_iff.2 (NameMap.ofEntries_of_perm hordered hperm))

/-- **A name and a group of options are written, and are an item.** -/
theorem itemText_group {name : String} (hname : isIdentifier name.toList = true)
    (hwritten : WrittenOptions options)
    (hnode : GroupText ([';'].intercalate (options.map write)) node) :
    Written (name.toList ++ ('(' :: [';'].intercalate (options.map write) ++ [')'])) ∧
      ItemText (name.toList ++ ('(' :: [';'].intercalate (options.map write) ++ [')']))
        (name, node) := by
  have hpieces := hwritten.pieces
  have hchars := unescaped_intercalate fun piece hpiece => (hpieces piece hpiece).chars
  have hskip := hchars.skipWhite_eq
  have hbalanced := balanced_intercalate fun piece hpiece => (hpieces piece hpiece).balanced
  have hitem : ItemText _ (name, node) :=
    .group allWhite_nil hname allWhite_nil allWhite_nil hbalanced (hskip.symm ▸ hnode) allWhite_nil
  refine ⟨(written_of_word (word_of_isIdentifier hname)).append (Written.group hpieces), ?_⟩
  simpa using hitem

/-- **What was written is read as it was written, and is a clause with the items.** -/
theorem printed_itemsText {items : List (String × Expansion)} {text : List Char}
    (h : PrintedItems items text) (hitems : ItemsWellFormed items) :
    Written text ∧ ItemsText text items := by
  induction h with
  | @bare name =>
    have hname := (hitems _ List.mem_cons_self).1
    have hitem : ItemText _ (name, .bare) := .bare allWhite_nil hname allWhite_nil
    refine ⟨written_of_word (word_of_isIdentifier hname), .last ?_⟩
    simpa using hitem
  | @group name node items inner options hnode hperm _ hoptions ih =>
    obtain ⟨hname, hnodeWf⟩ := hitems _ List.mem_cons_self
    rcases hnodeWf with _ | ⟨hselect, hexpand, hset⟩
    · exact absurd rfl hnode
    · -- the map in the group is well-formed, so its items are, in the order they are written in
      have hinner : ∀ map, node.expand = some map → Written inner ∧ ClauseText inner map := by
        intro map hmap
        have hmapWf := hexpand map hmap
        obtain ⟨hwritten, htext⟩ := ih map hmap (hmapWf.items (hperm map hmap))
        exact ⟨hwritten, hmapWf.clauseText (hperm map hmap) htext⟩
      have hwritten : WrittenOptions options := fun option hoption =>
        writtenOptions_nodeOptions hselect (fun map hmap => (hinner map hmap).1) option
          (hoptions.mem_iff.1 hoption)
      have hgroup := groupText_of_options hselect hset hoptions hwritten fun map hmap =>
        (hinner map hmap).2
      obtain ⟨htext, hitem⟩ := itemText_group hname hwritten hgroup
      exact ⟨htext, .last hitem⟩
  | cons _ _ ihentry ihitems =>
    obtain ⟨hentry, hrest⟩ := List.forall_mem_cons.1 hitems
    obtain ⟨hfirst, hitem⟩ := ihentry (List.forall_mem_singleton.2 hentry)
    obtain ⟨hothers, hitems⟩ := ihitems hrest
    have hcomma : Written [','] := written_of_word (word_of_all (by decide))
    refine ⟨hfirst.append (hcomma.append hothers), ?_⟩
    -- one entry is one item: no items are left for a comma
    cases hitem with
    | last hitem => exact .cons hitem hitems
    | cons _ hnone => nomatch hnone

/-! ## Every order -/

theorem exists_printed_entry {entry : String × Expansion}
    (ih : ∀ inner, entry.2.expand = some inner → ∃ text, PrintedItems inner text) :
    ∃ text, PrintedItems [entry] text := by
  obtain ⟨name, node⟩ := entry
  by_cases hbare : node = .bare
  · subst hbare
    exact ⟨_, .bare⟩
  · cases hexpand : node.expand with
    | none =>
      have hno : ∀ map : List (String × Expansion), node.expand ≠ some map := by
        rw [hexpand]
        nofun
      exact ⟨_, @PrintedItems.group name node [] [] _ hbare (fun map hmap => absurd hmap (hno map))
        (fun map hmap => absurd hmap (hno map)) (List.Perm.refl _)⟩
    | some map =>
      obtain ⟨inner, hinner⟩ := ih map hexpand
      refine ⟨_, .group hbare (fun other hother => ?_) (fun _ _ => hinner) (List.Perm.refl _)⟩
      rw [Option.some.inj (hexpand.symm.trans hother)]

/-- **A well-formed map can be written, with its items in every order.** -/
theorem exists_printed {map : List (String × Expansion)} (h : WellFormed map) :
    ∀ items, items.Perm map → ∃ text, PrintedItems items text := by
  refine h.induction
    (P := fun map => ∀ items, items.Perm map → ∃ text, PrintedItems items text) ?_
  intro map hmap ih items hperm
  have hentries : ∀ entry ∈ items, ∃ text, PrintedItems [entry] text := by
    intro entry hentry
    refine exists_printed_entry fun inner hinner => ?_
    exact ih entry (hperm.mem_iff.1 hentry) inner hinner inner (List.Perm.refl _)
  have hne : items ≠ [] := by
    rintro rfl
    obtain ⟨hne, -, -, -⟩ := hmap
    exact hne hperm.nil_eq.symm
  -- the order matters no more: from here on any list of entries that can be written will do
  clear hperm
  induction items with
  | nil => exact absurd rfl hne
  | cons entry rest ihrest =>
    obtain ⟨hentry, hrest⟩ := List.forall_mem_cons.1 hentries
    obtain ⟨text, htext⟩ := hentry
    cases rest with
    | nil => exact ⟨text, htext⟩
    | cons next rest =>
      obtain ⟨tail, htail⟩ := ihrest hrest (List.cons_ne_nil _ _)
      exact ⟨_, .cons htext htail⟩

/-! ## Reading what was written -/

/-- A query string with nothing but an expand clause that is read as it is written. -/
theorem ofText_expand {text : List Char} (h : Unescaped text) :
    Query.ofText ("?$expand=".toList ++ text) =
      match parse none text with
      | .error fault => { error := some fault.toError }
      | .ok map => { expand := some map } := by
  have hkey : Written (expandKey ++ ['=']) := written_of_word (word_of_all (by decide))
  have hchars : Unescaped (write (expandKey, text)) := by
    rw [write, List.append_cons]
    exact List.forall_mem_append.2 ⟨hkey.chars, h⟩
  have hpairs : (Options.ofQuery ("?$expand=".toList ++ text)).pairs = [(expandKey, text)] :=
    (pairs_ofQuery_question _).trans (pairs_write (show '=' ∉ expandKey by decide) hchars)
  have hselect : (Options.ofQuery ("?$expand=".toList ++ text)).first? selectKey = none := by
    rw [Options.first?, hpairs]
    rfl
  have hclause : (Options.ofQuery ("?$expand=".toList ++ text)).first? expandKey = some text := by
    rw [Options.first?, hpairs]
    rfl
  have hfields := Select.ofOptions_eq_ok_iff.2 (Or.inl ⟨hselect, rfl⟩)
  refine (Query.ofOptions_of_clause hfields hclause).trans ?_
  cases parse none text <;> rfl

/-- **Reading a written map gives the map.** Every well-formed map can be written, with its items in
every order, and whatever the order of items and options at any depth, the text is read as the map,
as a clause and as a query. -/
theorem printed_roundtrip {map : List (String × Expansion)} (h : WellFormed map) :
    (∀ items, items.Perm map → ∃ text, PrintedItems items text) ∧
      ∀ text, Printed map text → parse none text = .ok map ∧
        Query.ofText ("?$expand=".toList ++ text) =
          { error := none, select := none, expand := some map } := by
  refine ⟨exists_printed h, ?_⟩
  rintro text ⟨items, hperm, hprinted⟩
  obtain ⟨hwritten, hitems⟩ := printed_itemsText hprinted (h.items hperm)
  have hparse := parse_of_clauseText (h.clauseText hperm hitems)
  refine ⟨hparse, ?_⟩
  rw [ofText_expand hwritten.chars, hparse]

/-- Neither the items nor the options stand in the order of the map and of the node. -/
theorem printed_roundtrip_swapped :
    WellFormed [("A", ⟨some ["x", "*"], some [("C", .bare)]⟩), ("B", .bare)] ∧
      Printed [("A", ⟨some ["x", "*"], some [("C", .bare)]⟩), ("B", .bare)]
        "B,A($expand=C;$select=x,*)".toList ∧
      parse none "B,A($expand=C;$select=x,*)".toList =
        .ok [("A", ⟨some ["x", "*"], some [("C", .bare)]⟩), ("B", .bare)] ∧
      Query.ofText ("?$expand=".toList ++ "B,A($expand=C;$select=x,*)".toList) =
        ⟨none, none, some [("A", ⟨some ["x", "*"], some [("C", .bare)]⟩), ("B", .bare)]⟩ := by
  have hinner : WellFormed [("C", .bare)] :=
    .mk (by simp) (List.pairwise_singleton _ _) (by decide) (List.forall_mem_singleton.2 .bare)
  have hnode : WellFormedNode ⟨some ["x", "*"], some [("C", .bare)]⟩ := by
    refine .group ?_ ?_ rfl
    · rintro fields ⟨⟩
      decide
    · rintro map ⟨⟩
      exact hinner
  have hmap : WellFormed [("A", ⟨some ["x", "*"], some [("C", .bare)]⟩), ("B", .bare)] := by
    refine .mk (by simp) (List.pairwise_pair.2 (by decide +kernel)) (by decide) ?_
    exact List.forall_mem_cons.2 ⟨hnode, List.forall_mem_singleton.2 .bare⟩
  have hgroup := @PrintedItems.group "A" ⟨some ["x", "*"], some [("C", .bare)]⟩ [("C", .bare)]
    "C".toList [(expandKey, "C".toList), (selectKey, fieldsText ["x", "*"])] (by decide)
    (by rintro map ⟨⟩; exact .refl _) (fun _ _ => .bare) (.swap _ _ _)
  have hitems := PrintedItems.cons (@PrintedItems.bare "B") hgroup
  have htext : "B".toList ++ ',' :: ("A".toList ++ ('(' :: [';'].intercalate
      ([(expandKey, "C".toList), (selectKey, fieldsText ["x", "*"])].map write) ++ [')'])) =
        "B,A($expand=C;$select=x,*)".toList := by
    decide +kernel
  rw [htext] at hitems
  have hprinted : Printed [("A", ⟨some ["x", "*"], some [("C", .bare)]⟩), ("B", .bare)]
      "B,A($expand=C;$select=x,*)".toList :=
    ⟨_, .swap _ _ _, hitems⟩
  exact ⟨hmap, hprinted, (printed_roundtrip hmap).2 _ hprinted⟩

end OData.Expand
