import Mathlib.Data.List.Perm.Basic
import OData.Proofs.Json.Record

/-!
# The fields of an object

What a record gets from an object is decided name by name. All keys have to be readable, and then
the field of a name is what the members with that name hold, unset without one and refused with
several. So the order of members counts for nothing, and neither do members of other names.

An array gives a record the same fields as an object with its items under the names.

## Main statements

* `fields?_object` — the fields of an object, name by name
* `takes_readField` — what a field takes from its value
* `Edit.readField` — what the edits of an object leave as it was
* `fields?_array_eq_object` — an array in the place of an object
-/

namespace OData.Json

variable {α : Type} {before after members members' : List (List Char × Json)} {name : String}
  {key : List Char} {value : Json} {names optional : List String}

/-! ## Members of a name -/

/-- Whether all keys are texts. -/
def readable (members : List (List Char × Json)) : Bool :=
  members.all fun member => (text? member.1).isSome

/-- What the members with a name hold. -/
def values (members : List (List Char × Json)) (name : String) : List Json :=
  members.filterMap fun member => if text? member.1 = some name.toList then some member.2 else none

/-- The only value, if there is one. -/
def single? : List Json → Option (Option Json)
  | [] => some none
  | [value] => some (some value)
  | _ => none

/-- The value of the one member with a name. -/
def lookup? (members : List (List Char × Json)) (name : String) : Option (Option Json) :=
  if readable members then single? (values members name) else none

/-- A key that is no text refuses the whole object. -/
theorem decodeKeys?_eq_none_iff : decodeKeys? members = none ↔ readable members = false := by
  induction members with
  | nil => exact ⟨nofun, nofun⟩
  | cons member rest ih =>
    rw [decodeKeys?, List.mapM_cons]
    change (((text? member.1).map _).bind fun first => (decodeKeys? rest).bind fun tail =>
      some (first :: tail)) = none ↔ _
    rw [readable, List.all_cons, ← readable]
    cases text? member.1 with
    | none => simp
    | some text => cases h : decodeKeys? rest <;> simp_all

theorem values_of_decodeKeys? {decoded : List (List Char × Json)}
    (h : decodeKeys? members = some decoded) (name : String) :
    (decoded.filter fun member => member.1 == name.toList).map Prod.snd = values members name := by
  induction members generalizing decoded with
  | nil =>
    obtain rfl := Option.some.inj h
    rfl
  | cons member rest ih =>
    rw [decodeKeys?, List.mapM_cons] at h
    obtain ⟨first, hfirst, h⟩ := Option.bind_eq_some_iff.1 h
    obtain ⟨tail, htail, h⟩ := Option.bind_eq_some_iff.1 h
    obtain rfl := Option.some.inj h
    obtain ⟨text, htext, rfl⟩ := Option.map_eq_some_iff.1 hfirst
    rw [values, List.filterMap_cons, ← values, ← ih htail, htext]
    by_cases hname : text = name.toList
    · simp [hname]
    · simp [hname]

theorem field?_of_decodeKeys? {decoded : List (List Char × Json)}
    (h : decodeKeys? members = some decoded) (name : String) :
    field? decoded name = lookup? members name := by
  have hreadable : readable members = true := by
    rw [← Bool.not_eq_false, ← decodeKeys?_eq_none_iff, h]
    nofun
  rw [lookup?, if_pos hreadable, ← values_of_decodeKeys? h, field?]
  cases decoded.filter fun member => member.1 == name.toList with
  | nil => rfl
  | cons first rest => cases rest <;> rfl

/-- **The fields of an object are found name by name.** -/
theorem fields?_object (hnames : names ≠ []) (required : Nat) :
    fields? names required (.object members) = names.mapM (lookup? members) := by
  rw [fields?]
  cases h : decodeKeys? members with
  | none =>
    have hnone (name : String) : lookup? members name = none := by
      rw [lookup?, decodeKeys?_eq_none_iff.1 h]
      rfl
    obtain ⟨name, rest, rfl⟩ := List.exists_cons_of_ne_nil hnames
    rw [List.mapM_cons, hnone]
    rfl
  | some decoded =>
    rw [Option.bind_some, funext (field?_of_decodeKeys? h)]

/-! ## Looking up -/

theorem lookup?_perm (h : members.Perm members') (name : String) :
    lookup? members name = lookup? members' name := by
  have hvalues : (values members name).Perm (values members' name) := h.filterMap _
  rw [lookup?, lookup?, readable, readable, h.all_eq]
  congr 1
  generalize values members name = found at hvalues
  generalize values members' name = found' at hvalues
  -- lists of different length are no permutations, and of two values none is the only one
  match found, found', hvalues.length_eq with
  | [], [], _ => rfl
  | [_], [_], _ => rw [List.singleton_perm_singleton.1 hvalues]
  | _ :: _ :: _, _ :: _ :: _, _ => rfl

/-- A member is seen by its own name only. -/
theorem lookup?_of_ne {text : List Char} (hkey : text? key = some text) (hne : text ≠ name.toList) :
    lookup? (before ++ (key, value) :: after) name = lookup? (before ++ after) name := by
  have hvalues : values (before ++ (key, value) :: after) name = values (before ++ after) name := by
    simp [values, hkey, hne]
  have hreadable : readable (before ++ (key, value) :: after) = readable (before ++ after) := by
    simp [readable, hkey]
  rw [lookup?, lookup?, hvalues, hreadable]

/-- **A member is found under its name when there is no other one with the name.** -/
theorem lookup?_of_eq (hkey : text? key = some name.toList) :
    lookup? (before ++ (key, value) :: after) name =
      (lookup? (before ++ after) name).bind fun other =>
        match other with
        | none => some (some value)
        | some _ => none := by
  have hvalues : values (before ++ (key, value) :: after) name =
      values before name ++ value :: values after name := by
    simp [values, hkey]
  have hreadable : readable (before ++ (key, value) :: after) = readable (before ++ after) := by
    simp [readable, hkey]
  have hother : values (before ++ after) name = values before name ++ values after name :=
    List.filterMap_append
  rw [lookup?, lookup?, hvalues, hreadable, hother]
  cases readable (before ++ after) with
  | false => rfl
  | true =>
    rcases values before name with - | ⟨_, - | ⟨_, _⟩⟩ <;>
      rcases values after name with - | ⟨_, - | ⟨_, _⟩⟩ <;> rfl

/-- Two members share the name, anywhere among the others. -/
def Twice (members : List (List Char × Json)) (name : String) : Prop :=
  ∃ before between after key value key' value',
    members = before ++ (key, value) :: (between ++ (key', value') :: after) ∧
      text? key = some name.toList ∧ text? key' = some name.toList

/-- **A name that is given twice is refused.** -/
theorem Twice.lookup?_eq (h : Twice members name) : lookup? members name = none := by
  obtain ⟨before, between, after, key, value, key', value', rfl, hkey, hkey'⟩ := h
  rw [lookup?_of_eq hkey, ← List.append_assoc, lookup?_of_eq hkey']
  rcases lookup? (before ++ between ++ after) name with - | - | _ <;> rfl

/-! ## Fields -/

/-- Reads a field that has to be set. -/
def required? (read? : Json → Option α) : Option Json → Option α
  | none => none
  | some value => read? value

/-- Reads the field of a name. -/
def readField (read? : Option Json → Option α) (members : List (List Char × Json))
    (name : String) : Option α :=
  (lookup? members name).bind read?

/-! ## Readers of parts -/

variable {β γ : Type} {whole : Json → Option β} {part : Json → Option α}

/-- One reader takes from a value what another one makes of it, and nothing else. Null is left out,
as in an optional field it is no value. -/
def Takes (whole : Json → Option β) (part : Json → Option α) : Prop :=
  ∃ finish : α → Option β, ∀ value, value ≠ .null → whole value = (part value).bind finish

namespace Takes

theorem refl (part : Json → Option α) : Takes part part :=
  ⟨some, fun value _ => (Option.bind_fun_some (part value)).symm⟩

theorem of_none (part : Json → Option α) : Takes (fun _ => (none : Option β)) part :=
  ⟨fun _ => none, fun value _ => (Option.bind_fun_none (part value)).symm⟩

/-- What is done with the result takes nothing more. -/
theorem bind (h : Takes whole part) (next : β → Option γ) :
    Takes (fun value => (whole value).bind next) part := by
  obtain ⟨finish, hfinish⟩ := h
  refine ⟨fun result => (finish result).bind next, fun value hvalue => ?_⟩
  show (whole value).bind next = _
  rw [hfinish value hvalue, Option.bind_assoc]

/-- What is read from elsewhere takes nothing more. -/
theorem bind_left {whole : γ → Json → Option β} (other : Option γ)
    (h : ∀ result, Takes (whole result) part) :
    Takes (fun value => other.bind fun result => whole result value) part := by
  cases other with
  | none => exact of_none part
  | some result => exact h result

/-- What is read of the value in another one, which is not null either, takes nothing more. -/
theorem comp (h : Takes whole part) {inner : Json → Option γ} {fill : Json → Json}
    (hfill : ∀ value, value ≠ .null → fill value ≠ .null)
    (hinner : Takes (fun value => part (fill value)) inner) :
    Takes (fun value => whole (fill value)) inner := by
  obtain ⟨finish, hfinish⟩ := h
  obtain ⟨finishInner, hinner⟩ := hinner
  refine ⟨fun result => (finishInner result).bind finish, fun value hvalue => ?_⟩
  show whole (fill value) = _
  rw [hfinish _ (hfill value hvalue)]
  show (part (fill value)).bind finish = _
  rw [show part (fill value) = _ from hinner value hvalue, Option.bind_assoc]

/-- Values that are read as the same in part are read as the same. -/
theorem eq_of_eq (h : Takes whole part) {value value' : Json} (hvalue : value ≠ .null)
    (hvalue' : value' ≠ .null) (heq : part value = part value') : whole value = whole value' := by
  obtain ⟨finish, hfinish⟩ := h
  rw [hfinish value hvalue, hfinish value' hvalue', heq]

/-- A value that cannot be read in part cannot be read. -/
theorem eq_none (h : Takes whole part) {value : Json} (hvalue : value ≠ .null)
    (hnone : part value = none) : whole value = none := by
  obtain ⟨finish, hfinish⟩ := h
  rw [hfinish value hvalue, hnone, Option.bind_none]

/-- What has to be read first in part has to be read first. -/
theorem eq_bind (h : Takes whole part) {value value' : Json} (hvalue : value ≠ .null)
    (hvalue' : value' ≠ .null) {first : Option γ}
    (heq : part value = first.bind fun _ => part value') :
    whole value = first.bind fun _ => whole value' := by
  obtain ⟨finish, hfinish⟩ := h
  rw [hfinish value hvalue, hfinish value' hvalue', heq, Option.bind_assoc]

end Takes

/-- **A field takes from its value what the value is read as.** -/
theorem takes_readField (before after : List (List Char × Json))
    (hkey : text? key = some name.toList) (read? : Json → Option α) :
    Takes (fun value => readField (optional? read?) (before ++ (key, value) :: after) name)
      read? := by
  simp only [readField, lookup?_of_eq hkey]
  rcases lookup? (before ++ after) name with - | - | other
  · exact .of_none read?
  · refine ⟨fun result => some (some result), fun value hvalue => ?_⟩
    show optional? read? (some value) = _
    rw [optional?.eq_3 _ _ hvalue, Option.map_eq_bind]
    rfl
  · exact .of_none read?

/-- The fields of other names do not see the value. -/
theorem readField_of_ne (hkey : text? key = some name.toList) {other : String} (hne : name ≠ other)
    (read? : Option Json → Option α) (value : Json) :
    readField read? (before ++ (key, value) :: after) other =
      readField read? (before ++ after) other := by
  rw [readField, readField, lookup?_of_ne hkey fun heq => hne (String.toList_inj.1 heq)]

/-! ## Edits -/

/-- Two objects that differ in what a record of the names does not look at: the order of members,
members of other names, and null in the place of an optional field that is unset. -/
inductive Edit (names optional : List String) :
    List (List Char × Json) → List (List Char × Json) → Prop
  | permute {members members' : List (List Char × Json)} (h : members.Perm members') :
      Edit names optional members members'
  | foreign {before after : List (List Char × Json)} {key text : List Char} {value : Json}
      (hkey : text? key = some text) (htext : ∀ name ∈ names, text ≠ name.toList) :
      Edit names optional (before ++ after) (before ++ (key, value) :: after)
  | null {before after : List (List Char × Json)} {key : List Char} {name : String}
      (hkey : text? key = some name.toList) (hname : name ∈ optional)
      (hunset : ∀ member ∈ before ++ after, text? member.1 ≠ some name.toList) :
      Edit names optional (before ++ after) (before ++ (key, .null) :: after)

/-- What is found under a name is the same, except that an optional field may be null instead of
unset. -/
theorem Edit.lookup? (h : Edit names optional members members') (hname : name ∈ names) :
    Json.lookup? members name = Json.lookup? members' name ∨
      name ∈ optional ∧ Json.lookup? members name = some none ∧
        Json.lookup? members' name = some (some .null) := by
  cases h with
  | permute h => exact Or.inl (lookup?_perm h name)
  | foreign hkey htext => exact Or.inl (lookup?_of_ne hkey (htext name hname)).symm
  | @null before after key other hkey hother hunset =>
    by_cases heq : other = name
    · subst heq
      have hvalues : values (before ++ after) other = [] :=
        List.filterMap_eq_nil_iff.2 fun member hmember => if_neg (hunset member hmember)
      rw [lookup?_of_eq hkey, Json.lookup?, hvalues]
      cases readable (before ++ after) with
      | false => exact Or.inl rfl
      | true => exact Or.inr ⟨hother, rfl, rfl⟩
    · exact Or.inl (lookup?_of_ne hkey fun h => heq (String.toList_inj.1 h)).symm

/-- **An optional field is read as before.** -/
theorem Edit.readField (h : Edit names optional members members') (hname : name ∈ names)
    (read? : Json → Option α) :
    Json.readField (optional? read?) members name =
      Json.readField (optional? read?) members' name := by
  rw [Json.readField, Json.readField]
  rcases h.lookup? hname with heq | ⟨-, hunset, hnull⟩
  · rw [heq]
  · rw [hunset, hnull]
    rfl

/-- So is any other field. -/
theorem Edit.readField_required (h : Edit names optional members members') (hname : name ∈ names)
    (hoptional : name ∉ optional) (read? : Option Json → Option α) :
    Json.readField read? members name = Json.readField read? members' name := by
  rw [Json.readField, Json.readField]
  rcases h.lookup? hname with heq | ⟨hmem, -⟩
  · rw [heq]
  · exact absurd hmem hoptional

/-! ## Arrays -/

/-- The fields that items give, those before and behind one of them apart. -/
def itemFields (names : List String) (before : List Json) (name : String) (value : Json)
    (after : List Json) : List (String × Option Json) :=
  (names.take before.length).zip (before.map some) ++ (name, some value) ::
    (names.drop (before.length + 1)).zip (after.map some ++
      List.replicate (names.length - (before.length + (after.length + 1))) none)

variable {items items' : List Json}

theorem map_itemFields (hindex : names[items.length]? = some name)
    (hlength : items.length + (items'.length + 1) ≤ names.length) (value : Json) :
    (itemFields names items name value items').map Prod.fst = names ∧
      (itemFields names items name value items').map Prod.snd =
        (items ++ value :: items').map some ++
          List.replicate (names.length - (items ++ value :: items').length) none := by
  obtain ⟨hlt, hget⟩ := List.getElem?_eq_some_iff.1 hindex
  rw [itemFields, List.map_append, List.map_append, List.map_cons, List.map_cons]
  constructor
  · have hfront : (names.take items.length).length ≤ (items.map some).length := by
      rw [List.length_take, List.length_map]
      exact Nat.min_le_left _ _
    rw [List.map_fst_zip hfront, List.map_fst_zip, ← hget, List.getElem_cons_drop,
      List.take_append_drop]
    simp only [List.length_drop, List.length_append, List.length_map, List.length_replicate]
    omega
  · have hfront : (items.map some).length ≤ (names.take items.length).length := by
      rw [List.length_take, List.length_map]
      omega
    rw [List.map_snd_zip hfront, List.map_snd_zip]
    · simp only [List.map_append, List.map_cons, List.length_append, List.length_cons,
        List.append_assoc, List.cons_append]
    · simp only [List.length_drop, List.length_append, List.length_map, List.length_replicate]
      omega

theorem record_append_cons (front back : List (String × Option Json)) (name : String)
    (value : Json) :
    record (front ++ (name, some value) :: back) =
      .object (((setFields front).map fun field => member field.1 field.2) ++
        member name value :: (setFields back).map fun field => member field.1 field.2) := by
  rw [record, setFields_append, List.map_append]
  rfl

/-- **An array gives the fields that an object gives with the items under the names**, unless it
has too few or too many. -/
theorem fields?_array_eq_object (hnames : names.Nodup) (required : Nat)
    (hindex : names[items.length]? = some name) :
    (∀ value, fields? names required (.array (items ++ value :: items')) = none) ∨
      ∃ before after, ∀ value, fields? names required (.array (items ++ value :: items')) =
        fields? names required (.object (before ++ member name value :: after)) := by
  by_cases hlength : required ≤ items.length + (items'.length + 1) ∧
      items.length + (items'.length + 1) ≤ names.length
  · have hrecord (value : Json) : fields? names required (.array (items ++ value :: items')) =
        fields? names required (record (itemFields names items name value items')) := by
      obtain ⟨hfirst, hsecond⟩ := map_itemFields hindex hlength.2 value
      rw [fields?, if_pos (by simpa using hlength), fields?_record names hnames hfirst, hsecond]
    simp only [itemFields, record_append_cons] at hrecord
    exact Or.inr ⟨_, _, hrecord⟩
  · refine Or.inl fun value => ?_
    rw [fields?, if_neg (by simpa using hlength)]

end OData.Json
