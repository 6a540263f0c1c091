import OData.Proofs.Json.Members
import OData.Proofs.NameMap
import OData.Query.Json

/-!
# The parts of a query in JSON

A query is read from parts that stand inside each other: the query itself, its error record, maps of
related entities, and the nodes in the maps. A `Place` says where in a value a part stands, with all
that is around it, and any value can be put there.

## What is read at a place

The reader takes from a place what it reads there with the levels left, and nothing else. Two values
that are read there as the same make no difference to the whole, and the whole is refused when
nothing can be read there.

## Main statements

* `Query.ofJson?_object` and its like — records from the fields of an object
* `Place.takes` — what is read at a place is all that the whole takes from it
-/

namespace OData

open Json

variable {members : List (List Char × Json)} {levels : Nat}

/-! ## Records

The reader looks all fields up before it reads the first one. A field that is refused refuses the
record either way, so here each is looked up when it is read.
-/

theorem QueryError.ofJson?_object (members : List (List Char × Json)) (levels : Nat) :
    QueryError.ofJson? (levels + 1) (.object members) =
      (readField (required? (ErrorCode.ofJson? levels)) members "code").bind fun code =>
        (readField (required? Json.string?) members "message").bind fun message =>
          some { code, message } := by
  rw [ofJson?, fields?_object (by simp)]
  simp only [List.mapM_cons, List.mapM_nil, readField]
  rcases lookup? members "code" with - | - | code
  · rfl
  · cases lookup? members "message" <;> rfl
  · rcases lookup? members "message" with - | - | message
    · show none = (ErrorCode.ofJson? levels code).bind fun _ => none
      rw [Option.bind_fun_none]
    · show none = (ErrorCode.ofJson? levels code).bind fun _ => none
      rw [Option.bind_fun_none]
    · rfl

theorem Expansion.ofJson?_object (members : List (List Char × Json)) (levels : Nat) :
    Expansion.ofJson? (levels + 1) (.object members) =
      (readField (optional? (strings? levels)) members "$select").bind fun select =>
        (readField (optional? (ofJson?.mapOfJson? levels)) members "$expand").bind fun expand =>
          some { select, expand } := by
  rw [ofJson?, fields?_object (by simp)]
  simp only [List.mapM_cons, List.mapM_nil, readField]
  cases lookup? members "$select" with
  | none => rfl
  | some select =>
    cases lookup? members "$expand" with
    | none =>
      show none = (optional? (strings? levels) select).bind fun _ => none
      rw [Option.bind_fun_none]
    | some expand => rfl

theorem Query.ofJson?_object (members : List (List Char × Json)) (levels : Nat) :
    Query.ofJson? (levels + 1) (.object members) =
      (readField (optional? (QueryError.ofJson? levels)) members "error").bind fun error =>
        (readField (optional? (strings? levels)) members "$select").bind fun select =>
          (readField (optional? (Expansion.ofJson?.mapOfJson? levels)) members "$expand").bind
            fun expand => some { error, select, expand } := by
  rw [ofJson?, fields?_object (by simp)]
  simp only [List.mapM_cons, List.mapM_nil, readField]
  cases lookup? members "error" with
  | none => rfl
  | some error =>
    cases lookup? members "$select" with
    | none =>
      show none = (optional? (QueryError.ofJson? levels) error).bind fun _ => none
      rw [Option.bind_fun_none]
    | some select =>
      cases lookup? members "$expand" with
      | none =>
        show none = (optional? (QueryError.ofJson? levels) error).bind fun _ =>
          (optional? (strings? levels) select).bind fun _ => none
        simp only [Option.bind_fun_none]
      | some expand => rfl

/-! ## Maps -/

namespace Expansion

/-- Reads an entry of a map. -/
def readEntry (levels : Nat) (member : List Char × Json) : Option (String × Expansion) :=
  (Json.text? member.1).bind fun name =>
    (ofJson? levels member.2).map fun node => (String.ofList name, node)

theorem mapOfJson?_object (members : List (List Char × Json)) (levels : Nat) :
    ofJson?.mapOfJson? (levels + 1) (.object members) =
      (members.mapM (readEntry levels)).map NameMap.ofEntries := by
  have hentry (member : List Char × Json) : readEntry levels member =
      (Json.text? member.1).bind fun name => (ofJson? levels member.2).bind fun node =>
        some (String.ofList name, node) := by
    simp only [readEntry, Option.map_eq_bind, Function.comp_def]
  rw [ofJson?.mapOfJson?, funext hentry, Option.map_eq_bind]
  rfl

/-- The entries before and behind one of them are read whatever it holds. -/
theorem mapM_readEntry_append (before after : List (List Char × Json)) (member : List Char × Json) :
    (before ++ member :: after).mapM (readEntry levels) =
      (before.mapM (readEntry levels)).bind fun front => (readEntry levels member).bind fun entry =>
        (after.mapM (readEntry levels)).bind fun back => some (front ++ entry :: back) := by
  rw [List.mapM_append, List.mapM_cons]
  simp only [Option.bind_eq_bind, Option.pure_def, Option.bind_assoc, Option.bind_some]

theorem readEntry_of_text? {key name : List Char} (hkey : Json.text? key = some name)
    (value : Json) :
    readEntry levels (key, value) =
      (ofJson? levels value).map fun node => (String.ofList name, node) := by
  rw [readEntry, hkey, Option.bind_some]

/-- **An entry whose name comes again later has to be a node, and has no other part in the map.** -/
theorem mapOfJson?_replaced {before between after : List (List Char × Json)} {key key' : List Char}
    {value value' : Json} {name : List Char} (hkey : Json.text? key = some name)
    (hkey' : Json.text? key' = some name) (levels : Nat) :
    ofJson?.mapOfJson? levels
        (.object (before ++ (key, value) :: (between ++ (key', value') :: after))) =
      (ofJson? (levels - 1) value).bind fun _ =>
        ofJson?.mapOfJson? levels (.object (before ++ (between ++ (key', value') :: after))) := by
  cases levels with
  | zero => exact (Option.bind_fun_none _).symm
  | succ levels =>
    generalize htail : between ++ (key', value') :: after = tail
    rw [mapOfJson?_object, mapOfJson?_object, mapM_readEntry_append, List.mapM_append,
      readEntry_of_text? hkey, Nat.add_sub_cancel]
    cases before.mapM (readEntry levels) with
    | none => exact (Option.bind_fun_none _).symm
    | some front =>
      cases ofJson? levels value with
      | none => rfl
      | some node =>
        cases hlater : tail.mapM (readEntry levels) with
        | none => rfl
        | some back =>
          obtain ⟨middle, node', rest, rfl⟩ : ∃ middle node' rest,
              back = middle ++ (String.ofList name, node') :: rest := by
            rw [← htail, mapM_readEntry_append, readEntry_of_text? hkey'] at hlater
            obtain ⟨middle, -, hlater⟩ := Option.bind_eq_some_iff.1 hlater
            obtain ⟨_, hnode, hlater⟩ := Option.bind_eq_some_iff.1 hlater
            obtain ⟨rest, -, hlater⟩ := Option.bind_eq_some_iff.1 hlater
            obtain ⟨node', -, rfl⟩ := Option.map_eq_some_iff.1 hnode
            exact ⟨middle, node', rest, (Option.some.inj hlater).symm⟩
          exact congrArg some (NameMap.ofEntries_replaced front middle rest _ node node')

end Expansion

/-! ## Parts -/

/-- The kinds of values that a query is read from. -/
inductive Part where
  | query
  | error
  | node
  | map

namespace Part

/-- What a part is read as. -/
def Result : Part → Type
  | .query => Query
  | .error => QueryError
  | .node => Expansion
  | .map => List (String × Expansion)

/-- Reads a part, with the number of levels that are left. -/
def read? : (part : Part) → Nat → Json → Option part.Result
  | .query => Query.ofJson?
  | .error => QueryError.ofJson?
  | .node => Expansion.ofJson?
  | .map => Expansion.ofJson?.mapOfJson?

/-- The names of the fields; a map has entries of any name instead. -/
def names : Part → List String
  | .query => ["error", "$select", "$expand"]
  | .error => ["code", "message"]
  | .node => ["$select", "$expand"]
  | .map => []

/-- The fields that may be unset. -/
def optional : Part → List String
  | .error => []
  | part => part.names

/-- How many of the fields an array in the place of the record has to give. -/
def required : Part → Nat
  | .error => 2
  | _ => 0

/-- The part that stands in a field. -/
inductive Holds : Part → String → Part → Prop
  | error : Holds .query "error" .error
  | expand : Holds .query "$expand" .map
  | nested : Holds .node "$expand" .map

theorem read?_zero (part : Part) (value : Json) : part.read? 0 value = none := by
  cases part <;> rfl

variable {part next last : Part} {name : String}

theorem Holds.nodup_names (h : Holds part name next) : part.names.Nodup := by
  cases h <;> decide

theorem Holds.ne_map (h : Holds part name next) : part ≠ .map := by
  cases h <;> nofun

/-- The reader of a record looks at its fields only. -/
theorem read?_congr (hpart : part ≠ .map) {value value' : Json}
    (hfields : fields? part.names part.required value = fields? part.names part.required value') :
    part.read? (levels + 1) value = part.read? (levels + 1) value' := by
  cases part with
  | query =>
    show Query.ofJson? (levels + 1) value = Query.ofJson? (levels + 1) value'
    rw [Query.ofJson?, Query.ofJson?, show fields? ["error", "$select", "$expand"] 0 value = _
      from hfields]
    rfl
  | error =>
    show QueryError.ofJson? (levels + 1) value = QueryError.ofJson? (levels + 1) value'
    rw [QueryError.ofJson?, QueryError.ofJson?, show fields? ["code", "message"] 2 value = _
      from hfields]
    rfl
  | node =>
    show Expansion.ofJson? (levels + 1) value = Expansion.ofJson? (levels + 1) value'
    rw [Expansion.ofJson?, Expansion.ofJson?, show fields? ["$select", "$expand"] 0 value = _
      from hfields]
    rfl
  | map => exact absurd rfl hpart

/-- A record is refused when its fields cannot be looked up. -/
theorem read?_eq_none (hpart : part ≠ .map) {value : Json}
    (hfields : fields? part.names part.required value = none) :
    part.read? (levels + 1) value = none := by
  have hrefused : part.read? (levels + 1) (.bool true) = none := by cases part <;> rfl
  rw [← hrefused]
  exact read?_congr hpart hfields

/-- **A record takes from a member what the part in it is read as.** -/
theorem Holds.takes_object (h : Holds part name next) {key : List Char}
    (hkey : text? key = some name.toList) (before after : List (List Char × Json)) (levels : Nat) :
    Takes (fun value => part.read? (levels + 1) (.object (before ++ (key, value) :: after)))
      (next.read? levels) := by
  have hfield := takes_readField before after hkey (next.read? levels)
  cases h with
  | error =>
    simp only [read?, Query.ofJson?_object, readField_of_ne hkey (by decide : "error" ≠ "$select"),
      readField_of_ne hkey (by decide : "error" ≠ "$expand")]
    exact hfield.bind _
  | expand =>
    simp only [read?, Query.ofJson?_object, readField_of_ne hkey (by decide : "$expand" ≠ "error"),
      readField_of_ne hkey (by decide : "$expand" ≠ "$select")]
    exact .bind_left _ fun error => .bind_left _ fun select => hfield.bind _
  | nested =>
    simp only [read?, Expansion.ofJson?_object,
      readField_of_ne hkey (by decide : "$expand" ≠ "$select")]
    exact .bind_left _ fun select => hfield.bind _

/-- **It takes the same from an item**, when it is written as an array. -/
theorem Holds.takes_array (h : Holds part name next) (before after : List Json)
    (hindex : part.names[before.length]? = some name) (levels : Nat) :
    Takes (fun value => part.read? (levels + 1) (.array (before ++ value :: after)))
      (next.read? levels) := by
  rcases fields?_array_eq_object h.nodup_names part.required hindex with
    hnone | ⟨front, back, hobject⟩
  · rw [funext fun value => read?_eq_none h.ne_map (hnone value)]
    exact .of_none _
  · rw [funext fun value => read?_congr h.ne_map (hobject value)]
    exact h.takes_object (text?_escape name.toList) front back levels

/-- **A map takes from an entry what the node in it is read as.** -/
theorem takes_entry (before after : List (List Char × Json)) (key : List Char) (levels : Nat) :
    Takes (fun value => Part.map.read? (levels + 1) (.object (before ++ (key, value) :: after)))
      (Part.node.read? levels) := by
  simp only [read?, Expansion.mapOfJson?_object, Expansion.mapM_readEntry_append,
    Option.map_eq_bind]
  have hentry : Takes (fun value => Expansion.readEntry levels (key, value))
      (Expansion.ofJson? levels) := by
    simp only [Expansion.readEntry, Option.map_eq_bind]
    exact .bind_left _ fun name => (Takes.refl _).bind _
  exact (Takes.bind_left _ fun front => hentry.bind _).bind _

end Part

/-! ## Places -/

/-- Where a part stands inside another one, with all that is around it. -/
inductive Place : Part → Part → Type
  | here {part : Part} : Place part part
  | member {part next last : Part} {name : String} {key : List Char}
      (hholds : part.Holds name next) (hkey : text? key = some name.toList)
      (before after : List (List Char × Json)) (place : Place next last) : Place part last
  /-- In a record that is written as an array, the index says the name. -/
  | item {part next last : Part} {name : String} (hholds : part.Holds name next)
      (before after : List Json) (hindex : part.names[before.length]? = some name)
      (place : Place next last) : Place part last
  | entry {last : Part} (before after : List (List Char × Json)) (key : List Char)
      (place : Place .node last) : Place .map last

namespace Place

variable {part last : Part} {value : Json}

/-- The whole, with a value at the place. -/
def fill {part last : Part} : Place part last → Json → Json
  | .here, value => value
  | @member _ _ _ _ key _ _ before after place, value =>
    .object (before ++ (key, place.fill value) :: after)
  | .item _ before after _ place, value => .array (before ++ place.fill value :: after)
  | .entry before after key place, value => .object (before ++ (key, place.fill value) :: after)

/-- The number of arrays and objects around the place. -/
def depth {part last : Part} : Place part last → Nat
  | .here => 0
  | .member _ _ _ _ place => place.depth + 1
  | .item _ _ _ _ place => place.depth + 1
  | .entry _ _ _ place => place.depth + 1

theorem fill_ne_null (place : Place part last) (h : value ≠ .null) : place.fill value ≠ .null := by
  cases place with
  | here => exact h
  | member | item | entry => nofun

/-- One more array or object around the place takes one level. -/
theorem takes_step {next : Part} {wrap : Json → Json} {place : Place next last}
    (hwrap : ∀ levels, Takes (fun value => part.read? (levels + 1) (wrap value))
      (next.read? levels))
    (hplace : ∀ levels, Takes (fun value => next.read? levels (place.fill value))
      (last.read? (levels - place.depth))) (levels : Nat) :
    Takes (fun value => part.read? levels (wrap (place.fill value)))
      (last.read? (levels - (place.depth + 1))) := by
  cases levels with
  | zero =>
    simp only [Part.read?_zero]
    exact .of_none _
  | succ levels =>
    rw [Nat.add_sub_add_right]
    exact (hwrap levels).comp (fun value => place.fill_ne_null) (hplace levels)

/-- **What is read at a place is all that the whole takes from it.** -/
theorem takes (place : Place part last) (levels : Nat) :
    Takes (fun value => part.read? levels (place.fill value))
      (last.read? (levels - place.depth)) := by
  induction place generalizing levels with
  | here => exact .refl _
  | member hholds hkey before after place ih =>
    exact takes_step (hholds.takes_object hkey before after) ih levels
  | item hholds before after hindex place ih =>
    exact takes_step (hholds.takes_array before after hindex) ih levels
  | entry before after key place ih =>
    exact takes_step (Part.takes_entry before after key) ih levels

end Place

end OData
