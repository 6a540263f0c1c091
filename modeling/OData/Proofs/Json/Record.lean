import OData.Json.Record
import OData.Proofs.Json.Lexing
import OData.Proofs.Outcome

/-!
# Records that are read back

A record is written with a member for each field that is set, and reading it finds every field as
it was, the unset ones unset. What the fields hold may nest as deep as there are levels left for it.

A value that is read back from what is written for it, whenever there are levels enough, is read
back from its text in every layout, and no other value has that text.

## Main statements

* `fields?_record` — the fields of a written record
* `ReadBack.eq_of_render_eq` — values with the same text
* `roundTrip_of_readBack` — values from their texts
-/

namespace OData.Json

/-! ## Nesting -/

mutual

/-- How many arrays and objects of a value stand inside each other. -/
def nesting : Json → Nat
  | .array items => itemsNesting items + 1
  | .object members => membersNesting members + 1
  | _ => 0

/-- The greatest nesting of the items. -/
def itemsNesting : List Json → Nat
  | [] => 0
  | item :: rest => max item.nesting (itemsNesting rest)

/-- The greatest nesting of the values of the members. -/
def membersNesting : List (List Char × Json) → Nat
  | [] => 0
  | (_, value) :: rest => max value.nesting (membersNesting rest)

end

theorem nesting_object_le_iff {members : List (List Char × Json)} {levels : Nat} :
    (object members).nesting ≤ levels + 1 ↔ ∀ member ∈ members, member.2.nesting ≤ levels := by
  have hmembers :
      membersNesting members ≤ levels ↔ ∀ member ∈ members, member.2.nesting ≤ levels := by
    induction members with
    | nil => simp [membersNesting]
    | cons member rest ih => rw [membersNesting, Nat.max_le, ih, List.forall_mem_cons]
  rw [← hmembers, nesting, Nat.add_le_add_iff_right]

theorem exists_levels_of_nesting_object_le {members : List (List Char × Json)} {levels : Nat}
    (h : (object members).nesting ≤ levels) : ∃ inner, levels = inner + 1 := by
  cases levels with
  | zero => simp [nesting] at h
  | succ inner => exact ⟨inner, rfl⟩

/-! ## Reading back -/

variable {α : Type} {toJson : α → Json} {ofJson? : Nat → Json → Option α}

/-- A value is written with literals as they have to be, and is read back from what is written
whenever there are levels enough. -/
structure ReadBack (toJson : α → Json) (ofJson? : Nat → Json → Option α) (value : α) : Prop where
  spelled : (toJson value).Spelled
  read : ∀ levels, (toJson value).nesting ≤ levels → ofJson? levels (toJson value) = some value

/-- A field that may be unset is read as it was, when its value is read back. -/
theorem optional?_of_readBack {field : Option α} {levels : Nat}
    (h : ∀ value ∈ field, ReadBack toJson ofJson? value)
    (hlevels : ∀ value ∈ field.map toJson, value.nesting ≤ levels)
    (hnull : ∀ value, toJson value ≠ .null) :
    optional? (ofJson? levels) (field.map toJson) = some field := by
  cases field with
  | none => rfl
  | some value =>
    have hread := (h value rfl).read levels (hlevels _ rfl)
    rw [Option.map_some, optional?.eq_3 _ _ (hnull value), hread, Option.map_some]

theorem spelled_of_readBack {field : Option α}
    (h : ∀ value ∈ field, ReadBack toJson ofJson? value) :
    ∀ value ∈ field.map toJson, value.Spelled := by
  intro _ hvalue
  obtain ⟨value, hmem, rfl⟩ := Option.map_eq_some_iff.1 hvalue
  exact (h value hmem).spelled

/-! ## Texts -/

theorem spelled_ofString (text : String) : (ofString text).Spelled := by
  intro token htoken
  obtain rfl := List.mem_singleton.1 htoken
  exact spelled_escape text.toList

theorem escape_injective {a b : List Char} (h : escape a = escape b) : a = b := by
  have hread := congrArg Json.text? h
  rw [text?_escape, text?_escape] at hread
  exact Option.some.inj hread

theorem string?_ofString (text : String) : string? (ofString text) = some text := by
  rw [ofString, string?, text?_escape, Option.map_some, String.ofList_toList]

/-- **A list of texts is read back**, with a level for the array. -/
theorem readBack_ofStrings (texts : List String) : ReadBack ofStrings strings? texts where
  spelled := spelled_array_iff.2 (List.forall_mem_map.2 fun text _ => spelled_ofString text)
  read := by
    intro levels hlevels
    cases levels with
    | zero => simp [ofStrings, nesting] at hlevels
    | succ levels =>
      have hread : texts.mapM (string? ∘ ofString) = some (texts.map id) :=
        mapM_eq_some_map fun text _ => string?_ofString text
      rw [ofStrings, strings?, List.mapM_map, hread, List.map_id]

/-! ## Records -/

variable {fields : List (String × Option Json)}

/-- The fields that are set, with their values. -/
def setFields (fields : List (String × Option Json)) : List (String × Json) :=
  fields.filterMap fun field => field.2.map (field.1, ·)

/-- The value of a record with a member for each field that is set. -/
def record (fields : List (String × Option Json)) : Json :=
  .object ((setFields fields).map fun field => member field.1 field.2)

theorem setFields_append (before after : List (String × Option Json)) :
    setFields (before ++ after) = setFields before ++ setFields after :=
  List.filterMap_append

theorem mem_setFields {field : String × Json} :
    field ∈ setFields fields ↔ (field.1, some field.2) ∈ fields := by
  obtain ⟨name, value⟩ := field
  simp [setFields]

/-- A record has a member under a name just when the field with the name is set. -/
theorem member_mem_record_iff {name : String} {value : Json} :
    member name value ∈ (setFields fields).map (fun field => member field.1 field.2) ↔
      (name, some value) ∈ fields := by
  have hmem : (name, value) ∈ setFields fields ↔ (name, some value) ∈ fields := mem_setFields
  rw [List.mem_map, ← hmem]
  constructor
  · rintro ⟨⟨other, found⟩, hfield, heq⟩
    obtain ⟨hname, rfl⟩ := Prod.mk.inj heq
    obtain rfl := String.toList_inj.1 (escape_injective hname)
    exact hfield
  · intro hfield
    exact ⟨_, hfield, rfl⟩

theorem forall_setFields_iff {P : Json → Prop} :
    (∀ field ∈ setFields fields, P field.2) ↔ ∀ field ∈ fields, ∀ value ∈ field.2, P value := by
  constructor
  · rintro h ⟨name, _⟩ hfield value rfl
    exact h (name, value) (mem_setFields.2 hfield)
  · exact fun h field hfield => h _ (mem_setFields.1 hfield) field.2 rfl

theorem spelled_record (h : ∀ field ∈ fields, ∀ value ∈ field.2, value.Spelled) :
    (record fields).Spelled := by
  refine spelled_object_iff.2 (List.forall_mem_map.2 fun field hfield => ?_)
  exact ⟨spelled_escape field.1.toList, forall_setFields_iff.2 h field hfield⟩

theorem nesting_record_le_iff {levels : Nat} :
    (record fields).nesting ≤ levels + 1 ↔
      ∀ field ∈ fields, ∀ value ∈ field.2, value.nesting ≤ levels := by
  rw [record, nesting_object_le_iff, List.forall_mem_map]
  exact forall_setFields_iff (P := fun value => value.nesting ≤ levels)

theorem decodeKeys?_member (named : List (String × Json)) :
    decodeKeys? (named.map fun field => member field.1 field.2) =
      some (named.map fun field => (field.1.toList, field.2)) := by
  rw [decodeKeys?, List.mapM_map]
  refine mapM_eq_some_map fun field _ => ?_
  rw [Function.comp, member, text?_escape, Option.map_some]

/-- The one field with a name is found, with its value if it is set. -/
theorem field?_setFields (hnames : (fields.map Prod.fst).Nodup) {name : String}
    {value : Option Json} (hfield : (name, value) ∈ fields) :
    field? ((setFields fields).map fun field => (field.1.toList, field.2)) name = some value := by
  obtain ⟨before, after, rfl⟩ := List.append_of_mem hfield
  have hother (fields : List (String × Option Json)) (h : name ∉ fields.map Prod.fst) :
      ((setFields fields).map fun field => (field.1.toList, field.2)).filter
        (fun member => member.1 == name.toList) = [] := by
    rw [List.filter_eq_nil_iff, List.forall_mem_map]
    intro field hmem hname
    have heq : field.1 = name := String.toList_inj.1 (beq_iff_eq.1 hname)
    exact h (heq ▸ List.mem_map_of_mem (mem_setFields.1 hmem))
  rw [List.map_append, List.map_cons, List.nodup_append] at hnames
  obtain ⟨-, hafter, hbefore⟩ := hnames
  have hbefore := hother before fun h => hbefore _ h _ List.mem_cons_self rfl
  have hafter := hother after (List.nodup_cons.1 hafter).1
  rw [field?, ← List.singleton_append, setFields_append, setFields_append, List.map_append,
    List.map_append, List.filter_append, List.filter_append, hbefore, hafter, List.nil_append,
    List.append_nil]
  cases value with
  | none => rfl
  | some value => simp [setFields]

/-- **Every field of a written record is found as it was**, unset if it was unset. -/
theorem fields?_record (names : List String) (hnames : names.Nodup)
    (hfields : fields.map Prod.fst = names) (required : Nat) :
    fields? names required (record fields) = some (fields.map Prod.snd) := by
  subst hfields
  rw [record, fields?, decodeKeys?_member, Option.bind_some, List.mapM_map]
  exact mapM_eq_some_map fun field hfield => field?_setFields hnames hfield

/-! ## From values to texts -/

variable {layout : Layout}

/-- The values that are valid are read back from their texts in both layouts, unless they nest too
deep, and no two of them have the same text. -/
structure RoundTrip (Valid : α → Prop) (toJson : α → Json) (decode? : List Char → Option α) :
    Prop where
  compact : ∀ value, Valid value → (toJson value).nesting ≤ nestingLimit →
    decode? (render .compact (toJson value)) = some value
  indented : ∀ value, Valid value → (toJson value).nesting ≤ nestingLimit →
    decode? (render .indented (toJson value)) = some value
  distinct : ∀ layout ∈ [Layout.compact, .indented], ∀ layout' ∈ [Layout.compact, .indented],
    ∀ value other, Valid value → Valid other →
      render layout (toJson value) = render layout' (toJson other) → value = other

theorem ReadBack.parse? {value : α} (h : ReadBack toJson ofJson? value) (hlayout : layout.Spaced)
    {levels : Nat} (hlevels : (toJson value).nesting ≤ levels) :
    (Json.parse? (render layout (toJson value))).bind (ofJson? levels) = some value := by
  rw [parse?_render hlayout h.spelled, Option.bind_some, h.read levels hlevels]

/-- Values that are read back and have the same text are the same, however deep they nest. -/
theorem ReadBack.eq_of_render_eq {value other : α} {layout' : Layout}
    (h : ReadBack toJson ofJson? value) (hother : ReadBack toJson ofJson? other)
    (hlayout : layout.Spaced) (hlayout' : layout'.Spaced)
    (htext : render layout (toJson value) = render layout' (toJson other)) : value = other := by
  -- the text tells the value, and the value tells its nesting
  have hread := h.parse? hlayout (Nat.le_max_left _ (toJson other).nesting)
  rw [htext, hother.parse? hlayout' (Nat.le_max_right _ _)] at hread
  exact (Option.some.inj hread).symm

/-- **Values that are read back from what is written for them are read back from their texts.** -/
theorem roundTrip_of_readBack {Valid : α → Prop}
    (h : ∀ value, Valid value → ReadBack toJson ofJson? value) :
    RoundTrip Valid toJson fun text => (Json.parse? text).bind (ofJson? nestingLimit) where
  compact := fun value hvalue hnesting => (h value hvalue).parse? Layout.spaced_compact hnesting
  indented := fun value hvalue hnesting => (h value hvalue).parse? Layout.spaced_indented hnesting
  distinct := by
    have hspaced : ∀ layout ∈ [Layout.compact, .indented], layout.Spaced :=
      List.forall_mem_cons.2 ⟨Layout.spaced_compact,
        List.forall_mem_singleton.2 Layout.spaced_indented⟩
    intro layout hlayout layout' hlayout' value other hvalue hother
    exact (h value hvalue).eq_of_render_eq (h other hother) (hspaced layout hlayout)
      (hspaced layout' hlayout')

end OData.Json
