import Mathlib.Logic.Relation
import OData.Proofs.Json.Texts
import OData.Proofs.Query.Parts

/-!
# Rewriting the text of a query

What a record does not look at can be written in any way: the white space, the order of its members,
members that are none of its fields, and null for an optional field that is unset. A field that is
given twice is no such thing, it makes the whole text fail. In a map of related entities, which is
no record, an entry gives way to a later one of the same name, once it has been read.

All of this holds wherever in a query the record or the map stands.

## Main statements

* `Part.read?_edit` — a record that is edited is read as before
* `Query.rewriting_ignored` — the texts of a query and of its rewritings
-/

namespace OData

open Json

variable {part : Part} {members members' : List (List Char × Json)} {value value' : Json}
  {text text' : List Char} {name : String}

/-! ## Records -/

/-- **An edited record is read as before**, or refused as before. -/
theorem Part.read?_edit (hpart : part ≠ .map) (h : Edit part.names part.optional members members')
    (levels : Nat) :
    part.read? levels (.object members) = part.read? levels (.object members') := by
  cases levels with
  | zero => rw [read?_zero, read?_zero]
  | succ levels =>
    cases part with
    | query =>
      show Query.ofJson? (levels + 1) (.object members) =
        Query.ofJson? (levels + 1) (.object members')
      rw [Query.ofJson?_object, Query.ofJson?_object, h.readField (by decide),
        h.readField (by decide), h.readField (by decide)]
    | error =>
      show QueryError.ofJson? (levels + 1) (.object members) =
        QueryError.ofJson? (levels + 1) (.object members')
      rw [QueryError.ofJson?_object, QueryError.ofJson?_object,
        h.readField_required (by decide) (by decide), h.readField_required (by decide) (by decide)]
    | node =>
      show Expansion.ofJson? (levels + 1) (.object members) =
        Expansion.ofJson? (levels + 1) (.object members')
      rw [Expansion.ofJson?_object, Expansion.ofJson?_object, h.readField (by decide),
        h.readField (by decide)]
    | map => exact absurd rfl hpart

/-- **A record with a field that is given twice is refused.** -/
theorem Part.read?_twice (hname : name ∈ part.names) (h : Twice members name) (levels : Nat) :
    part.read? levels (.object members) = none := by
  have hpart : part ≠ .map := by
    rintro rfl
    cases hname
  have hfields : fields? part.names part.required (.object members) = none := by
    rw [fields?_object (List.ne_nil_of_mem hname)]
    obtain ⟨front, back, hnames⟩ := List.append_of_mem hname
    rw [hnames, List.mapM_append, List.mapM_cons, h.lookup?_eq]
    exact Option.bind_fun_none _
  cases levels with
  | zero => exact read?_zero part _
  | succ levels => exact read?_eq_none hpart hfields

/-! ## Queries -/

namespace Query

/-- Two values of which one has an edited record, somewhere in the query, in the place of a record
of the other. -/
inductive Rewrites : Json → Json → Prop
  | edit {part : Part} (place : Place .query part) (hpart : part ≠ .map)
      {members members' : List (List Char × Json)}
      (h : Edit part.names part.optional members members') :
      Rewrites (place.fill (.object members)) (place.fill (.object members'))

/-- **A rewritten query is read as before.** -/
theorem Rewrites.ofJson?_eq (h : Rewrites value value') (levels : Nat) :
    ofJson? levels value = ofJson? levels value' := by
  obtain ⟨place, hpart, hedit⟩ := h
  exact (place.takes levels).eq_of_eq nofun nofun (Part.read?_edit hpart hedit _)

/-- So it is after any number of rewritings. -/
theorem ofJson?_eq_of_eqvGen (h : Relation.EqvGen Rewrites value value') (levels : Nat) :
    ofJson? levels value = ofJson? levels value' := by
  induction h with
  | rel _ _ h => exact h.ofJson?_eq levels
  | refl => rfl
  | symm _ _ _ ih => exact ih.symm
  | trans _ _ _ _ _ ih ih' => exact ih.trans ih'

theorem decode?_eq_of_writes (h : Writes text value) :
    decode? text = ofJson? nestingLimit value := by
  rw [decode?, parse?_eq_some_iff.2 h, Option.bind_some]

/-- **What the reader of a query does not look at makes no difference.** Two texts are decoded alike
when one writes the query that the other writes, or a rewriting of it, each with white space of its
own. A text is refused when a record in it, wherever it stands, has a field twice. And an entry of a
map in it has to be read, but apart from that it might as well be missing when a later entry has its
name. -/
theorem rewriting_ignored :
    (∀ text text' value value', Writes text value → Writes text' value' →
      Relation.EqvGen Rewrites value value' → decode? text = decode? text') ∧
    (∀ text part (place : Place .query part) members name, name ∈ part.names →
      Twice members name → Writes text (place.fill (.object members)) → decode? text = none) ∧
    ∀ text text' (place : Place .query .map) before between after key value key' value' name,
      text? key = some name → text? key' = some name →
      Writes text
        (place.fill (.object (before ++ (key, value) :: (between ++ (key', value') :: after)))) →
      Writes text' (place.fill (.object (before ++ (between ++ (key', value') :: after)))) →
      decode? text =
        (Expansion.ofJson? (nestingLimit - (place.depth + 1)) value).bind fun _ =>
          decode? text' := by
  refine ⟨?_, ?_, ?_⟩
  · intro text text' value value' htext htext' h
    rw [decode?_eq_of_writes htext, decode?_eq_of_writes htext', ofJson?_eq_of_eqvGen h]
  · intro text part place members name hname htwice htext
    rw [decode?_eq_of_writes htext]
    exact (place.takes nestingLimit).eq_none nofun (Part.read?_twice hname htwice _)
  · intro text text' place before between after key value key' value' name hkey hkey' htext htext'
    rw [decode?_eq_of_writes htext, decode?_eq_of_writes htext', ← Nat.sub_sub]
    have hmap := @Expansion.mapOfJson?_replaced before between after key key' value value' name
      hkey hkey' (nestingLimit - place.depth)
    exact (place.takes nestingLimit).eq_bind (by nofun) (by nofun) hmap

/-- A node is edited in front and behind, and the text is laid out anew; a node with its field twice
is refused; of two entries of one name the later one counts. -/
theorem rewriting_ignored_nested :
    let query : Query := { expand := some [("A", { select := some ["x"] })] }
    let node : List (List Char × Json) := [Json.member "$select" (ofStrings ["x"])]
    let edited := Json.member "note" (.bool true) :: (node ++ [Json.member "$expand" .null])
    let map (nodes : List (List (List Char × Json))) : Json := .object [Json.member "$expand"
      (.object (nodes.map fun node => Json.member "A" (.object node)))]
    (decode? (render .compact (map [node])) = decode? (render .indented (map [edited])) ∧
        decode? (render .compact (map [node])) = some query) ∧
      decode? (render .compact (map [node ++ node])) = none ∧
      decode? (render .compact (map [[], node])) = decode? (render .indented (map [node])) ∧
        decode? (render .indented (map [node])) = some query := by
  intro query node edited map
  have hwrites {layout : Layout} (hlayout : layout.Spaced) (nodes : List (List (List Char × Json)))
      (h : ∀ node ∈ nodes, (Json.object node).Spelled) :
      Writes (render layout (map nodes)) (map nodes) := by
    have hmap : (Json.object (nodes.map fun node => Json.member "A" (.object node))).Spelled :=
      spelled_object_iff.2 (List.forall_mem_map.2 fun node hnode =>
        ⟨spelled_escape _, h node hnode⟩)
    refine writes_render hlayout (spelled_object_iff.2 (List.forall_mem_singleton.2 ?_))
    exact ⟨spelled_escape "$expand".toList, hmap⟩
  have hselect : (Token.string (escape "$select".toList)).Spelled ∧ (ofStrings ["x"]).Spelled :=
    ⟨spelled_escape _, (readBack_ofStrings ["x"]).spelled⟩
  have hempty : (Json.object []).Spelled := spelled_object_iff.2 nofun
  have hnode : (Json.object node).Spelled :=
    spelled_object_iff.2 (List.forall_mem_singleton.2 hselect)
  have hdouble : (Json.object (node ++ node)).Spelled :=
    spelled_object_iff.2 (List.forall_mem_cons.2 ⟨hselect, List.forall_mem_singleton.2 hselect⟩)
  have hedited : (Json.object edited).Spelled := by
    have htrue : (Json.bool true).Spelled := List.forall_mem_singleton.2 trivial
    have hnull : Json.null.Spelled := List.forall_mem_singleton.2 trivial
    refine spelled_object_iff.2 (List.forall_mem_cons.2 ⟨⟨spelled_escape _, htrue⟩, ?_⟩)
    exact List.forall_mem_cons.2 ⟨hselect, List.forall_mem_singleton.2 ⟨spelled_escape _, hnull⟩⟩
  have hcompact := Layout.spaced_compact
  have hindented := Layout.spaced_indented
  let mapPlace : Place .query .map := .member .expand (text?_escape _) [] [] .here
  let place : Place .query .node :=
    .member .expand (text?_escape _) [] [] (.entry [] [] (escape "A".toList) .here)
  obtain ⟨hrewriting, hrefused, hreplaced⟩ := rewriting_ignored
  refine ⟨⟨?_, by decide +kernel⟩, ?_, ?_, by decide +kernel⟩
  · have hforeign : Edit Part.node.names Part.node.optional ([] ++ node)
        ([] ++ Json.member "note" (.bool true) :: node) :=
      .foreign (text?_escape "note".toList) (by decide)
    have hnull : Edit Part.node.names Part.node.optional
        ((Json.member "note" (.bool true) :: node) ++ []) edited :=
      .null (text?_escape "$expand".toList) (by decide) (by decide)
    refine hrewriting _ _ _ _ (hwrites hcompact [node] (List.forall_mem_singleton.2 hnode))
      (hwrites hindented [edited] (List.forall_mem_singleton.2 hedited)) ?_
    exact .trans _ _ _ (.rel _ _ (.edit place nofun hforeign)) (.rel _ _ (.edit place nofun hnull))
  · refine hrefused _ .node place (node ++ node) "$select" (by decide) ?_
      (hwrites hcompact [node ++ node] (List.forall_mem_singleton.2 hdouble))
    exact ⟨[], [], [], _, _, _, _, rfl, text?_escape _, text?_escape _⟩
  · have htext := hwrites hcompact [[], node]
      (List.forall_mem_cons.2 ⟨hempty, List.forall_mem_singleton.2 hnode⟩)
    have htext' := hwrites hindented [node] (List.forall_mem_singleton.2 hnode)
    exact hreplaced _ _ mapPlace [] [] [] _ _ _ _ _ (text?_escape "A".toList)
      (text?_escape "A".toList) htext htext'

end Query

end OData
