import OData.Proofs.Expand.Pieces
import OData.Proofs.Select

/-!
# Lists of names

Without `(` and `*` a field list and an expand clause are written in the same way: names between
commas, with white space around them. They are read by different means. The one is cut at all its
commas at first, and each piece is trimmed and looked at as a whole; along the other a reader walks,
takes the longest name it finds and looks at what follows. The two accept the same texts.

## Main statements

* `entries_eq_parseField` — a piece read as an item is the piece read as a field
* `entries_eq_fields` — a whole text read as a clause is the text read as a field list
* `name_lists_agree` — the same for options and maps
-/

namespace OData.Expand

open Text

variable {limit : DepthLimit} {depth : Nat} {piece text : List Char}

/-! ## Pieces -/

/-- A name with white space around it is an item without a group. -/
theorem entries_of_fieldPiece {field : String} (h : Select.FieldPiece piece field)
    (hstar : '*' ∉ piece) : entries limit depth piece = .ok [(field, .bare)] := by
  obtain ⟨hfield, before, after, hbefore, hafter, rfl⟩ := h
  have hname : isIdentifier field.toList = true := by
    rcases Bool.or_eq_true_iff.1 hfield with hall | hname
    · have hmem : '*' ∈ field.toList := by simp [show field.toList = ['*'] by simpa using hall]
      exact absurd (List.mem_append_left _ (List.mem_append_right _ hmem)) hstar
    · exact hname
  rw [List.append_assoc, entries_of_readItem (readItem_bare hbefore hname hafter) allWhite_nil,
    String.ofList_toList]
  rfl

/-- An item without a group, behind which the clause ends, is a name with white space around it. -/
theorem fieldPiece_of_entries (hopen : '(' ∉ piece) (hcomma : ',' ∉ piece)
    {list : List (String × Expansion)} (h : entries limit depth piece = .ok list) :
    ∃ field, Select.FieldPiece piece field := by
  obtain ⟨item, value, hread, -, hnext⟩ := entries_eq_ok_iff.1 h
  cases readItem_eq_ok_iff.1 hread with
  | group => exact absurd (by simp) hopen
  | @bare before name between after hbefore hname hbetween hends hhead =>
    rcases hnext with ⟨hend, -⟩ | ⟨rest, _, hrest, -⟩
    · have hafter : AllWhite after := continuation_eq_none_iff.1 hend
      refine ⟨String.ofList name, ?_, before, between ++ after, hbefore, hbetween.append hafter, ?_⟩
      · rw [String.toList_ofList, Select.isField, hname, Bool.or_true]
      · rw [String.toList_ofList, List.append_assoc]
    · exact absurd hrest (continuation_ne_some (not_standsOutside_of_not_mem hcomma 0) hread rest)

/-- What else stands between two commas is no item. -/
theorem entries_eq_malformed (hopen : '(' ∉ piece) (hcomma : ',' ∉ piece) {fault : Fault}
    (h : entries limit depth piece = .error fault) : fault = .malformedExpand := by
  rw [entries_eq_bind] at h
  rcases bind_eq_error_iff.1 h with hread | ⟨item, hread, hrest⟩
  · rcases readItem_eq_error hread with rfl | rfl
    · rfl
    · obtain ⟨front, inside, rfl, -⟩ := exists_open_of_unclosed hread
      exact absurd (by simp) hopen
  cases readItem_eq_ok_iff.1 hread with
  | group => exact absurd (by simp) hopen
  | @bare before name between after hbefore hname hbetween hends hhead =>
    rcases bind_eq_error_iff.1 hrest with hnode | ⟨value, -, hrest⟩
    · nomatch hnode
    rcases bind_eq_error_iff.1 hrest with hafter | ⟨next, hnext, hlist⟩
    · exact continuation_eq_error hafter
    cases next with
    | none => nomatch hlist
    | some rest =>
      exact absurd hnext (continuation_ne_some (not_standsOutside_of_not_mem hcomma 0) hread rest)

/-- **A piece read as an item is the piece read as a field.** -/
theorem entries_eq_parseField (hopen : '(' ∉ piece) (hcomma : ',' ∉ piece) (hstar : '*' ∉ piece) :
    entries limit depth piece =
      ((Select.parseField piece).map fun field => [(field, .bare)]).mapError
        fun _ => .malformedExpand := by
  cases hfield : Select.parseField piece with
  | ok field => exact entries_of_fieldPiece (Select.parseField_eq_ok_iff.1 hfield) hstar
  | error fault =>
    cases hlist : entries limit depth piece with
    | error other => rw [entries_eq_malformed hopen hcomma hlist]; rfl
    | ok list =>
      obtain ⟨field, hpiece⟩ := fieldPiece_of_entries hopen hcomma hlist
      rw [Select.parseField_eq_ok_iff.2 hpiece] at hfield
      nomatch hfield

/-! ## Whole lists -/

/-- **A text without `(` and `*` read as a clause is the text read as a field list.** -/
theorem entries_eq_fields (hopen : '(' ∉ text) (hstar : '*' ∉ text) :
    entries limit depth text =
      ((Select.parse text).map fun fields => fields.map fun field => (field, .bare)).mapError
        fun _ => .malformedExpand := by
  -- without a `(` the pieces between commas are those between commas outside parentheses
  refine outside_induction ',' (P := fun text => '(' ∉ text → '*' ∉ text →
    entries limit depth text =
      ((Select.parse text).map fun fields => fields.map fun field => (field, .bare)).mapError
        fun _ => .malformedExpand) ?_ ?_ text hopen hstar
  · intro text houtside hopen hstar
    have hcomma : ',' ∉ text := fun hmem => houtside (standsOutside_of_mem hopen hmem)
    rw [entries_eq_parseField hopen hcomma hstar, Select.parse_of_not_mem hcomma]
    cases Select.parseField text <;> rfl
  · intro piece rest houtside hclosed ih hopen hstar
    simp only [List.mem_append, List.mem_cons, not_or] at hopen hstar
    have hcomma : ',' ∉ piece := fun hmem => houtside (standsOutside_of_mem hopen.1 hmem)
    rw [entries_append_comma houtside hclosed, ih hopen.2.2 hstar.2.2,
      entries_eq_parseField hopen.1 hcomma hstar.1, Select.parse_append_comma hcomma]
    cases Select.parseField piece with
    | error fault => rfl
    | ok field => cases Select.parse rest <;> rfl

/-- **A text without `(` and `*` is a field list just when it is an expand clause.** Its map has
the names that are its fields, and of each of them nothing special is asked. Otherwise it is refused
as the one and as the other, under every limit. -/
theorem name_lists_agree (limit : DepthLimit) {options : Options} {text : List Char}
    (hfirst : options.first? Options.selectKey = some text) (hopen : '(' ∉ text)
    (hstar : '*' ∉ text) :
    (∃ fields map, Select.ofOptions options = .ok (some fields) ∧ parse limit text = .ok map ∧
      (∀ name, name ∈ map.map Prod.fst ↔ name ∈ fields) ∧ ∀ entry ∈ map, entry.2 = .bare) ∨
    (Select.ofOptions options = .error .malformedSelect ∧
      parse limit text = .error .malformedExpand) := by
  have hselect : Select.ofOptions options = (Select.parse text).map some := by
    rw [Select.ofOptions, hfirst]
  have hentries : entries limit 0 text = _ := entries_eq_fields hopen hstar
  have hparse := congrArg (Except.map NameMap.ofEntries) hentries
  cases hfields : Select.parse text with
  | error fault =>
    rw [hfields] at hselect hparse
    obtain rfl := Select.ofOptions_eq_error hselect
    exact Or.inr ⟨hselect, hparse⟩
  | ok fields =>
    rw [hfields] at hselect hparse
    refine Or.inl ⟨fields, _, hselect, hparse, fun name => ?_, fun entry hentry => ?_⟩
    · rw [NameMap.mem_names_ofEntries, List.map_map]
      simp
    · obtain ⟨field, -, rfl⟩ := List.mem_map.1 (NameMap.mem_of_mem_ofEntries hentry)
      rfl

/-- Names that come twice, with white space that is no ASCII, under a limit that lets no group in;
and a text that ends in a `)`. -/
theorem name_lists_agree_repeated :
    let text := "b,\u2003a ,b".toList
    let other := "a,b)".toList
    '(' ∉ text ∧ '*' ∉ text ∧ '(' ∉ other ∧ '*' ∉ other ∧
      (∃ fields map, Select.ofOptions ⟨[(Options.selectKey, text)]⟩ = .ok (some fields) ∧
        parse (some 0) text = .ok map ∧ (∀ name, name ∈ map.map Prod.fst ↔ name ∈ fields) ∧
        ∀ entry ∈ map, entry.2 = .bare) ∧
      Select.ofOptions ⟨[(Options.selectKey, other)]⟩ = .error .malformedSelect ∧
      parse none other = .error .malformedExpand := by
  intro text other
  have hopen : '(' ∉ text := by decide
  have hstar : '*' ∉ text := by decide
  have hopen' : '(' ∉ other := by decide
  have hstar' : '*' ∉ other := by decide
  refine ⟨hopen, hstar, hopen', hstar', ?_, ?_⟩
  · refine (name_lists_agree (some 0) rfl hopen hstar).resolve_right fun hrefused => ?_
    have haccepted :
        Select.ofOptions ⟨[(Options.selectKey, text)]⟩ = .ok (some ["b", "a", "b"]) := by
      decide +kernel
    rw [haccepted] at hrefused
    nomatch hrefused.1
  · refine (name_lists_agree none rfl hopen' hstar').resolve_left ?_
    rintro ⟨fields, map, -, hparse, -⟩
    have hrefused : parse none other = .error .malformedExpand := by decide +kernel
    rw [hrefused] at hparse
    nomatch hparse

end OData.Expand
