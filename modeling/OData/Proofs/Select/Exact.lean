import OData.Proofs.Expand.Printed

/-!
# What the reader of field lists answers

The reader of `$select` has three answers: there is no field list, these are its fields, or it is
malformed. Which of them it gives is said here by the first value under the key and by what a field
list is as a text. A list of fields that is written with commas is read back, and lists that are no
such list are never read.

## Main statements

* `ofOptions_eq_none_iff`, `ofOptions_eq_some_iff` and `ofOptions_eq_error_iff` — the three answers
* `ofOptions_queryOf_iff` — the lists of fields that are read back
* `ofOptions_exact` — all of this together
-/

namespace OData.Select

open Text Options

variable {options : Options} {fields : List String}

/-! ## The three answers -/

/-- **There is no field list just when no option has the key.** -/
theorem ofOptions_eq_none_iff : ofOptions options = .ok none ↔ Lacks options.pairs selectKey := by
  rw [ofOptions_eq_ok_iff, first?_eq_none_iff]
  constructor
  · rintro (⟨hlacks, -⟩ | ⟨_, _, _, _, hnone⟩)
    · exact hlacks
    · nomatch hnone
  · exact fun hlacks => Or.inl ⟨hlacks, rfl⟩

/-- **The fields are those that the first value under the key names.** -/
theorem ofOptions_eq_some_iff :
    ofOptions options = .ok (some fields) ↔
      ∃ list, FirstValue options.pairs selectKey list ∧ FieldList list fields := by
  simp only [ofOptions_eq_ok_iff, ← first?_eq_some_iff]
  constructor
  · rintro (⟨-, hnone⟩ | ⟨list, others, hfirst, hlist, heq⟩)
    · nomatch hnone
    · obtain rfl := Option.some.inj heq
      exact ⟨list, hfirst, hlist⟩
  · rintro ⟨list, hfirst, hlist⟩
    exact Or.inr ⟨list, fields, hfirst, hlist, rfl⟩

/-- **It is malformed just when this value names no fields.** -/
theorem ofOptions_eq_error_iff {fault : Fault} :
    ofOptions options = .error fault ↔
      fault = .malformedSelect ∧ ∃ list, FirstValue options.pairs selectKey list ∧
        ∀ fields, ¬ FieldList list fields := by
  constructor
  · intro h
    refine ⟨ofOptions_eq_error h, ?_⟩
    cases hfirst : options.first? selectKey with
    | none =>
      rw [ofOptions_eq_none_iff.2 (first?_eq_none_iff.1 hfirst)] at h
      nomatch h
    | some list =>
      refine ⟨list, first?_eq_some_iff.1 hfirst, fun fields hlist => ?_⟩
      rw [ofOptions_eq_some_iff.2 ⟨list, first?_eq_some_iff.1 hfirst, hlist⟩] at h
      nomatch h
  · rintro ⟨rfl, list, hfirst, hnone⟩
    cases h : ofOptions options with
    | error fault => rw [ofOptions_eq_error h]
    | ok select =>
      rcases ofOptions_eq_ok_iff.1 h with ⟨hlacks, -⟩ | ⟨other, fields, hother, hlist, -⟩
      · rw [first?_eq_some_iff.2 hfirst] at hlacks
        nomatch hlacks
      · obtain rfl := Option.some.inj ((first?_eq_some_iff.2 hfirst).symm.trans hother)
        exact absurd hlist (hnone fields)

/-- What is read is a list of fields, and not empty. -/
theorem fields_of_ofOptions (h : ofOptions options = .ok (some fields)) :
    fields ≠ [] ∧ ∀ field ∈ fields, isField field.toList = true := by
  obtain ⟨list, -, hlist⟩ := ofOptions_eq_some_iff.1 h
  exact ⟨hlist.ne_nil, hlist.isField⟩

/-! ## Writing and reading back -/

/-- The query string with the fields and nothing else. -/
def queryOf (fields : List String) : List Char := "$select=".toList ++ Expand.fieldsText fields

theorem pairs_queryOf (h : ∀ field ∈ fields, isField field.toList = true) :
    (ofQuery (queryOf fields)).pairs = [(selectKey, Expand.fieldsText fields)] := by
  have hkey : Word (selectKey ++ ['=']) := word_of_all (by decide)
  have hchars : Unescaped (write (selectKey, Expand.fieldsText fields)) := by
    rw [write, List.append_cons]
    exact (written_of_word (hkey.append (Expand.word_fieldsText h))).chars
  have hhead : (queryOf fields).head? ≠ some '?' := by
    have hdollar : (queryOf fields).head? = some '$' := rfl
    rw [hdollar]
    decide
  rw [pairs_ofQuery_of_head hhead]
  exact pairs_write (show '=' ∉ selectKey by decide) hchars

/-- **A list is read back from its query string just when it is a list of fields and not empty.** -/
theorem ofOptions_queryOf_iff :
    ofOptions (.ofQuery (queryOf fields)) = .ok (some fields) ↔
      fields ≠ [] ∧ ∀ field ∈ fields, isField field.toList = true := by
  constructor
  · exact fields_of_ofOptions
  · rintro ⟨hne, hall⟩
    refine ofOptions_eq_some_iff.2 ⟨_, ⟨[], [], ?_, nofun⟩, Expand.fieldList_fieldsText hne hall⟩
    rw [pairs_queryOf hall]
    rfl

/-- **The reader answers by the first value under the key.** Without one there is no field list. If
the value is fields between commas, with white space around each of them, the answer is these
fields, in their order and with their repetitions; if it is not, it is malformed. The lists that
are read are the ones that are read back when they are written, so writing and reading again makes
no difference to them. -/
theorem ofOptions_exact (options : Options) :
    (ofOptions options = .ok none ↔ Lacks options.pairs selectKey) ∧
      (∀ fields, ofOptions options = .ok (some fields) ↔
        ∃ list, FirstValue options.pairs selectKey list ∧ FieldList list fields) ∧
      (∀ fault, ofOptions options = .error fault ↔
        fault = .malformedSelect ∧ ∃ list, FirstValue options.pairs selectKey list ∧
          ∀ fields, ¬ FieldList list fields) ∧
      (∀ fields, ofOptions (.ofQuery (queryOf fields)) = .ok (some fields) ↔
        fields ≠ [] ∧ ∀ field ∈ fields, isField field.toList = true) ∧
      ∀ fields, ofOptions options = .ok (some fields) →
        ofOptions (.ofQuery (queryOf fields)) = .ok (some fields) :=
  ⟨ofOptions_eq_none_iff, fun _ => ofOptions_eq_some_iff, fun _ => ofOptions_eq_error_iff,
    fun _ => ofOptions_queryOf_iff, fun _ h => ofOptions_queryOf_iff.2 (fields_of_ofOptions h)⟩

/-- The first value under the key counts, with white space of more than one byte in it; what is read
from it is read back without the white space. -/
theorem ofOptions_exact_padded :
    let options := Options.ofQuery "$top=1&$select= b,*\u2003,b&$select=c".toList
    FirstValue options.pairs selectKey " b,*\u2003,b".toList ∧
      FieldList " b,*\u2003,b".toList ["b", "*", "b"] ∧
      ofOptions options = .ok (some ["b", "*", "b"]) ∧
      ofOptions (.ofQuery "$select=b,*,b".toList) = .ok (some ["b", "*", "b"]) := by
  intro options
  have hfirst : FirstValue options.pairs selectKey " b,*\u2003,b".toList :=
    first?_eq_some_iff.1 (by decide +kernel)
  have hlist : FieldList " b,*\u2003,b".toList ["b", "*", "b"] :=
    parse_eq_ok_iff.1 (by decide +kernel)
  obtain ⟨-, hsome, -, -, hback⟩ := ofOptions_exact options
  have hread := (hsome _).2 ⟨_, hfirst, hlist⟩
  exact ⟨hfirst, hlist, hread, hback _ hread⟩

end OData.Select
