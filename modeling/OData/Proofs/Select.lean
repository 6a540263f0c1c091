import OData.Proofs.Outcome
import OData.Proofs.Text.Words
import OData.Select

/-!
# Field lists as texts

Which texts are field lists, said without the reader: fields between commas, white space around
each of them. A field has neither a comma nor white space in it, so a text names one list of fields
at most.

## Main statement

* `parse_eq_ok_iff` — the reader accepts exactly the field lists, and gives the fields they name
-/

namespace OData.Select

open Text

/-- A piece of a list: a field, and white space around it. -/
def FieldPiece (piece : List Char) (field : String) : Prop :=
  isField field.toList = true ∧
    ∃ before after, AllWhite before ∧ AllWhite after ∧ piece = before ++ field.toList ++ after

/-- A field list: at least one piece, and commas between them. -/
def FieldList (list : List Char) (fields : List String) : Prop :=
  ∃ pieces, pieces ≠ [] ∧ list = [','].intercalate pieces ∧ List.Forall₂ FieldPiece pieces fields

/-! ## Fields -/

/-- A character of a field is a `*` or a character of an identifier. -/
theorem mem_field {field : List Char} (h : isField field = true) {c : Char} (hc : c ∈ field) :
    c = '*' ∨ continuesIdentifier c = true := by
  rcases Bool.or_eq_true_iff.1 h with h | h
  · obtain rfl : field = ['*'] := by simpa using h
    exact Or.inl (by simpa using hc)
  · exact Or.inr (continuesIdentifier_of_isIdentifier h c hc)

theorem isWhite_of_mem_field {field : List Char} (h : isField field = true) :
    ∀ c ∈ field, isWhite c = false := by
  intro c hc
  rcases mem_field h hc with rfl | hc
  · decide
  · exact isWhite_of_continuesIdentifier hc

theorem not_mem_field {field : List Char} (h : isField field = true) {c : Char} (hstar : c ≠ '*')
    (hc : continuesIdentifier c = false) : c ∉ field := by
  intro hmem
  rcases mem_field h hmem with rfl | hcontinues
  · exact hstar rfl
  · rw [hc] at hcontinues
    contradiction

theorem FieldPiece.not_mem_comma {piece : List Char} {field : String} (h : FieldPiece piece field) :
    ',' ∉ piece := by
  obtain ⟨hfield, before, after, hbefore, hafter, rfl⟩ := h
  have hmid := not_mem_field (c := ',') hfield (by decide) (by decide)
  simp [hbefore.not_mem (c := ',') (by decide), hafter.not_mem (c := ',') (by decide), hmid]

/-- **A piece is read as its field, and as nothing when it has none.** -/
theorem parseField_eq_ok_iff {piece : List Char} {field : String} :
    parseField piece = .ok field ↔ FieldPiece piece field := by
  unfold parseField
  constructor
  · intro h
    split at h
    · rename_i hfield
      obtain rfl := Except.ok.inj h
      obtain ⟨before, after, hbefore, hafter, hpiece⟩ := exists_padding piece
      rw [FieldPiece, String.toList_ofList]
      exact ⟨hfield, before, after, hbefore, hafter, hpiece⟩
    · nomatch h
  · rintro ⟨hfield, before, after, hbefore, hafter, rfl⟩
    rw [trim_padded hbefore (isWhite_of_mem_field hfield) hafter, if_pos hfield,
      String.ofList_toList]

theorem parseField_eq_error {piece : List Char} {fault : Fault}
    (h : parseField piece = .error fault) : fault = .malformedSelect := by
  rw [parseField] at h
  split at h
  · nomatch h
  · exact (Except.error.inj h).symm

/-! ## Lists -/

/-- A list without a comma is one field. -/
theorem parse_of_not_mem {piece : List Char} (h : ',' ∉ piece) :
    parse piece = (parseField piece).map fun field => [field] := by
  rw [parse, List.splitOn_eq_singleton h, List.mapM_cons, List.mapM_nil]
  cases parseField piece <;> rfl

/-- **The first comma ends the first field, and the list is read anew behind it.** -/
theorem parse_append_comma {piece : List Char} (h : ',' ∉ piece) (rest : List Char) :
    parse (piece ++ ',' :: rest) =
      parseField piece >>= fun field => parse rest >>= fun fields => pure (field :: fields) := by
  rw [parse, List.splitOn_append_cons_self, List.splitOn_eq_singleton h, List.singleton_append,
    List.mapM_cons]
  rfl

theorem not_mem_comma_of_pieces {pieces : List (List Char)} {fields : List String}
    (h : List.Forall₂ FieldPiece pieces fields) : ∀ piece ∈ pieces, ',' ∉ piece := by
  induction h with
  | nil => nofun
  | cons hpiece _ ih => exact List.forall_mem_cons.2 ⟨hpiece.not_mem_comma, ih⟩

/-- **The reader accepts the field lists, and gives the fields they name.** -/
theorem parse_eq_ok_iff {list : List Char} {fields : List String} :
    parse list = .ok fields ↔ FieldList list fields := by
  have hpieces : ∀ pieces : List (List Char),
      pieces.mapM parseField = .ok fields ↔ List.Forall₂ FieldPiece pieces fields := by
    intro pieces
    simp only [mapM_eq_ok_iff, parseField_eq_ok_iff]
  rw [parse, hpieces]
  constructor
  · intro h
    exact ⟨_, List.splitOn_ne_nil ',' list, (List.intercalate_splitOn ',').symm, h⟩
  · rintro ⟨pieces, hne, rfl, h⟩
    rwa [List.splitOn_intercalate ',' (not_mem_comma_of_pieces h) hne]

/-- Options without a field list are not refused for it, the others only when it is malformed. -/
theorem ofOptions_eq_ok_iff {options : Options} {select : Option (List String)} :
    ofOptions options = .ok select ↔
      (options.first? Options.selectKey = none ∧ select = none) ∨
        ∃ list fields, options.first? Options.selectKey = some list ∧ FieldList list fields ∧
          select = some fields := by
  unfold ofOptions
  cases options.first? Options.selectKey with
  | none => simp [eq_comm]
  | some list =>
    rw [map_eq_ok_iff]
    constructor
    · rintro ⟨fields, hparse, rfl⟩
      exact Or.inr ⟨list, fields, rfl, parse_eq_ok_iff.1 hparse, rfl⟩
    · rintro (⟨h, -⟩ | ⟨other, fields, hlist, hfields, rfl⟩)
      · nomatch h
      · obtain rfl := Option.some.inj hlist
        exact ⟨fields, parse_eq_ok_iff.2 hfields, rfl⟩

theorem ofOptions_eq_error {options : Options} {fault : Fault}
    (h : ofOptions options = .error fault) :
    fault = .malformedSelect := by
  unfold ofOptions at h
  split at h
  · nomatch h
  · rename_i list _
    have hparse : parse list = .error fault := by
      cases hlist : parse list with
      | error other =>
        rw [hlist] at h
        exact congrArg _ (Except.error.inj h)
      | ok fields => rw [hlist] at h; nomatch h
    obtain ⟨piece, -, hpiece⟩ := exists_of_mapM_eq_error hparse
    exact parseField_eq_error hpiece

theorem FieldList.ne_nil {list : List Char} {fields : List String} (h : FieldList list fields) :
    fields ≠ [] := by
  obtain ⟨pieces, hne, -, hpieces⟩ := h
  rintro rfl
  exact hne (List.forall₂_nil_right_iff.1 hpieces)

theorem FieldList.isField {list : List Char} {fields : List String} (h : FieldList list fields) :
    ∀ field ∈ fields, isField field.toList = true := by
  obtain ⟨pieces, -, -, hpieces⟩ := h
  induction hpieces with
  | nil => nofun
  | cons hpiece _ ih => exact List.forall_mem_cons.2 ⟨hpiece.1, ih⟩

end OData.Select
