import OData.Query.Read

/-!
# A query from its two clauses

The query that options describe, as one expression in the answers of the two readers. The filling of
a query part by part, the early end for no options, and the parts that a refusal leaves behind are
all gone from it.

## Main statements

* `ofOptions_eq` — the query as one expression
* `ofOptions_eq_iff` — the query as the only one that the answers of the two readers describe
* `ofOptions_from_clauses` — when it carries an error, and that it then carries nothing else
-/

namespace OData.Query

theorem first?_of_isEmpty {options : Options} (h : options.isEmpty = true) (key : List Char) :
    options.first? key = none := by
  obtain ⟨pairs⟩ := options
  obtain rfl : pairs = [] := List.isEmpty_iff.1 h
  rfl

/-- **The field list comes first, then the expand clause; a refusal leaves only its error.** -/
theorem ofOptions_eq (limit : DepthLimit) (options : Options) :
    ofOptions limit options =
      match Select.ofOptions options with
      | .error fault => { error := some fault.toError }
      | .ok select =>
        match options.first? Options.expandKey with
        | none => { select }
        | some clause =>
          match Expand.parse limit clause with
          | .error fault => { error := some fault.toError }
          | .ok map => { select, expand := some map } := by
  unfold ofOptions
  by_cases hempty : options.isEmpty = true
  · rw [if_pos hempty, Select.ofOptions, first?_of_isEmpty hempty, first?_of_isEmpty hempty]
  · rw [if_neg hempty, readSelect]
    cases Select.ofOptions options with
    | error fault => rfl
    | ok select =>
      dsimp only
      unfold readExpand
      cases hclause : options.first? Options.expandKey with
      | none => rfl
      | some clause =>
        rcases hparse : Expand.parse limit clause with fault | map
        · simp only [hparse, Bool.false_eq_true, if_false, if_true]
        · simp only [hparse, Bool.false_eq_true, if_false]

/-- Options with an accepted field list and an expand clause. -/
theorem ofOptions_of_clause {limit : DepthLimit} {options : Options}
    {select : Option (List String)} {clause : List Char}
    (hselect : Select.ofOptions options = .ok select)
    (hclause : options.first? Options.expandKey = some clause) :
    ofOptions limit options =
      match Expand.parse limit clause with
      | .error fault => { error := some fault.toError }
      | .ok map => { select, expand := some map } := by
  rw [ofOptions_eq, hselect, hclause]

/-! ## What the two readers say -/

section

variable {limit : DepthLimit} {options : Options}

/-- One of the two clauses is refused when it is read by itself. -/
def Refused (limit : DepthLimit) (options : Options) : Prop :=
  (∃ fault, Select.ofOptions options = .error fault) ∨
    ∃ clause fault, options.first? Options.expandKey = some clause ∧
      Expand.parse limit clause = .error fault

/-- What the answers of the two readers say about the query of the options. A malformed field list
is reported whatever the expand clause is, and a malformed expand clause drops the fields. -/
inductive Described (limit : DepthLimit) (options : Options) : Query → Prop
  | malformedSelect {fault : Fault} (hselect : Select.ofOptions options = .error fault) :
      Described limit options { error := some fault.toError, select := none, expand := none }
  | refusedExpand {select : Option (List String)} {clause : List Char} {fault : Fault}
      (hselect : Select.ofOptions options = .ok select)
      (hclause : options.first? Options.expandKey = some clause)
      (hparse : Expand.parse limit clause = .error fault) :
      Described limit options { error := some fault.toError, select := none, expand := none }
  | noExpand {select : Option (List String)} (hselect : Select.ofOptions options = .ok select)
      (hclause : options.first? Options.expandKey = none) :
      Described limit options { error := none, select := select, expand := none }
  | expand {select : Option (List String)} {clause : List Char} {map : List (String × Expansion)}
      (hselect : Select.ofOptions options = .ok select)
      (hclause : options.first? Options.expandKey = some clause)
      (hparse : Expand.parse limit clause = .ok map) :
      Described limit options { error := none, select := select, expand := some map }

theorem described_ofOptions (limit : DepthLimit) (options : Options) :
    Described limit options (ofOptions limit options) := by
  rw [ofOptions_eq]
  cases hselect : Select.ofOptions options with
  | error fault => exact .malformedSelect hselect
  | ok select =>
    cases hclause : options.first? Options.expandKey with
    | none => exact .noExpand hselect hclause
    | some clause =>
      dsimp only
      cases hparse : Expand.parse limit clause with
      | error fault => exact .refusedExpand hselect hclause hparse
      | ok map => exact .expand hselect hclause hparse

theorem Described.ofOptions_eq {query : Query} (h : Described limit options query) :
    ofOptions limit options = query := by
  rw [Query.ofOptions_eq]
  cases h with
  | malformedSelect hselect => rw [hselect]
  | refusedExpand hselect hclause hparse => simp only [hselect, hclause, hparse]
  | noExpand hselect hclause => simp only [hselect, hclause]
  | expand hselect hclause hparse => simp only [hselect, hclause, hparse]

/-- **The options describe one query, and it is the one that is read.** -/
theorem ofOptions_eq_iff {query : Query} :
    ofOptions limit options = query ↔ Described limit options query :=
  ⟨fun h => h ▸ described_ofOptions limit options, Described.ofOptions_eq⟩

theorem Described.error_isSome_iff {query : Query} (h : Described limit options query) :
    query.error.isSome = true ↔ Refused limit options := by
  unfold Refused
  cases h with
  | malformedSelect hselect => simp [hselect]
  | refusedExpand hselect hclause hparse => simp [hclause, hparse]
  | noExpand hselect hclause => simp [hselect, hclause]
  | expand hselect hclause hparse => simp [hselect, hclause, hparse]

theorem Described.parts_of_error {query : Query} (h : Described limit options query)
    {error : QueryError} (herror : query.error = some error) :
    query.select = none ∧ query.expand = none := by
  cases h with
  | malformedSelect hselect => exact ⟨rfl, rfl⟩
  | refusedExpand hselect hclause hparse => exact ⟨rfl, rfl⟩
  | noExpand hselect hclause => nomatch herror
  | expand hselect hclause hparse => nomatch herror

theorem Described.parts_of_no_error {query : Query} (h : Described limit options query)
    (herror : query.error = none) : Select.ofOptions options = .ok query.select ∧
      (query.expand = none ↔ options.first? Options.expandKey = none) := by
  cases h with
  | malformedSelect hselect => nomatch herror
  | refusedExpand hselect hclause hparse => nomatch herror
  | noExpand hselect hclause => exact ⟨hselect, by simp [hclause]⟩
  | expand hselect hclause hparse => exact ⟨hselect, by simp [hclause]⟩

end

/-! ## No options -/

/-- The two parts read one after the other into an empty query, whether there are options or not. -/
def readInTurn (limit : DepthLimit) (options : Options) : Query :=
  let (refused, query) := readSelect options {}
  if refused then { error := query.error }
  else
    let (refused, query) := readExpand limit options query
    if refused then { error := query.error } else query

/-- **The early end for no options gives what reading on would give.** -/
theorem ofOptions_eq_readInTurn (limit : DepthLimit) (options : Options) :
    ofOptions limit options = readInTurn limit options := by
  unfold ofOptions
  by_cases hempty : options.isEmpty = true
  · rw [if_pos hempty]
    simp only [readInTurn, readSelect, readExpand, Select.ofOptions, first?_of_isEmpty hempty,
      Bool.false_eq_true, if_false]
  · rw [if_neg hempty, readInTurn]

/-! ## Errors -/

theorem toExcept_of_error {query : Query} {error : QueryError} (h : query.error = some error) :
    query.toExcept = .error error := by
  rw [toExcept, h]

theorem toExcept_of_no_error {query : Query} (h : query.error = none) :
    query.toExcept = .ok query := by
  rw [toExcept, h]

/-- **The query that is read part by part is the one that the readers of the two clauses describe.**
It carries an error just when one of them refuses its clause, and then nothing but the error;
otherwise it has the fields of the one and the map of the other, which is unset only without a
clause. That nothing is read when there are no options makes no difference. -/
theorem ofOptions_from_clauses (limit : DepthLimit) (options : Options) :
    (∀ query, ofOptions limit options = query ↔ Described limit options query) ∧
    ((ofOptions limit options).error.isSome = true ↔ Refused limit options) ∧
    (∀ error, (ofOptions limit options).error = some error →
      (ofOptions limit options).select = none ∧ (ofOptions limit options).expand = none ∧
        (ofOptions limit options).toExcept = .error error) ∧
    ((ofOptions limit options).error = none →
      Select.ofOptions options = .ok (ofOptions limit options).select ∧
        ((ofOptions limit options).expand = none ↔ options.first? Options.expandKey = none) ∧
        (ofOptions limit options).toExcept = .ok (ofOptions limit options)) ∧
    ofOptions limit options = readInTurn limit options := by
  have hdescribed := described_ofOptions limit options
  refine ⟨fun _ => ofOptions_eq_iff, hdescribed.error_isSome_iff, ?_, ?_,
    ofOptions_eq_readInTurn limit options⟩
  · intro error herror
    obtain ⟨hselect, hexpand⟩ := hdescribed.parts_of_error herror
    exact ⟨hselect, hexpand, toExcept_of_error herror⟩
  · intro herror
    obtain ⟨hselect, hexpand⟩ := hdescribed.parts_of_no_error herror
    exact ⟨hselect, hexpand, toExcept_of_no_error herror⟩

/-- The fields are accepted first and dropped when the clause is refused; without the parenthesis
both parts stay. -/
theorem ofOptions_from_clauses_dropped :
    (ofOptions none (.ofQuery "$select=a&$expand=B(".toList)).error =
        some Fault.unclosedGroup.toError ∧
      (ofOptions none (.ofQuery "$select=a&$expand=B(".toList)).select = none ∧
      (ofOptions none (.ofQuery "$select=a&$expand=B".toList)).error = none ∧
      (ofOptions none (.ofQuery "$select=a&$expand=B".toList)).toExcept =
        .ok { select := some ["a"], expand := some [("B", .bare)] } := by
  have hrefused : (ofOptions none (.ofQuery "$select=a&$expand=B(".toList)).error =
      some Fault.unclosedGroup.toError := by
    decide +kernel
  have hread : ofOptions none (.ofQuery "$select=a&$expand=B".toList) =
      { select := some ["a"], expand := some [("B", .bare)] } := by
    decide +kernel
  have herror : (ofOptions none (.ofQuery "$select=a&$expand=B".toList)).error = none := by
    rw [hread]
  obtain ⟨-, -, hdropped, -⟩ :=
    ofOptions_from_clauses none (.ofQuery "$select=a&$expand=B(".toList)
  obtain ⟨-, -, -, hkept, -⟩ := ofOptions_from_clauses none (.ofQuery "$select=a&$expand=B".toList)
  exact ⟨hrefused, (hdropped _ hrefused).1, herror, (hkept herror).2.2.trans (by rw [hread])⟩

end OData.Query
