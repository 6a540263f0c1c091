import Mathlib.Data.List.Forall2
import OData.Proofs.Query

/-!
# Queries filled by many steps

A query can be filled by any number of steps, each of which reads one of the two clauses of some
options into it. What it holds in the end is decided part by part, and for each part by the last
step that writes it; the steps before that one, and the ones that fail to write, leave no trace.

* the error is written by the steps whose clause is refused, and by them alone
* the fields are written by the steps that read a field list and accept it, or find none
* the map is written by the steps that find an expand clause; a refused one unsets it

## Main statements

* `lastWrite_fill` — a part that every step writes or leaves alone, after all the steps
* `filled_by_last_writes` — the flags of the steps and the three parts of the query
-/

namespace OData.Query

/-! ## Steps -/

/-- A step: one of the two clauses of some options is read into a query. -/
inductive Step where
  | select (options : Options)
  /-- There is no limit if `limit` is `none`. -/
  | expand (limit : DepthLimit) (options : Options)

/-- Takes a step. The flag tells whether the clause was refused. -/
def Step.take : Step → Query → Bool × Query
  | .select options, query => query.readSelect options
  | .expand limit options, query => query.readExpand limit options

/-- Takes steps one after the other: the flag of each, and the query after all of them. -/
def fill (query : Query) : List Step → List Bool × Query
  | [] => ([], query)
  | step :: rest =>
    let (refused, next) := step.take query
    let (flags, last) := fill next rest
    (refused :: flags, last)

/-! ## What a step writes -/

/-- The clause of the step is refused when it is read by itself. -/
inductive Step.RefusedFor : Step → Fault → Prop
  | select {options : Options} {fault : Fault} (hselect : Select.ofOptions options = .error fault) :
      RefusedFor (.select options) fault
  | expand {limit : DepthLimit} {options : Options} {clause : List Char} {fault : Fault}
      (hclause : options.first? Options.expandKey = some clause)
      (hparse : Expand.parse limit clause = .error fault) : RefusedFor (.expand limit options) fault

/-- The step writes the error. -/
inductive Step.WritesError : Step → Option QueryError → Prop
  | refused {step : Step} {fault : Fault} (h : step.RefusedFor fault) :
      WritesError step (some fault.toError)

/-- The step writes the fields. -/
inductive Step.WritesSelect : Step → Option (List String) → Prop
  | accepted {options : Options} {select : Option (List String)}
      (hselect : Select.ofOptions options = .ok select) : WritesSelect (.select options) select

/-- The step writes the map. -/
inductive Step.WritesExpand : Step → Option (List (String × Expansion)) → Prop
  | accepted {limit : DepthLimit} {options : Options} {clause : List Char}
      {map : List (String × Expansion)} (hclause : options.first? Options.expandKey = some clause)
      (hparse : Expand.parse limit clause = .ok map) :
      WritesExpand (.expand limit options) (some map)
  | refused {limit : DepthLimit} {options : Options} {clause : List Char} {fault : Fault}
      (hclause : options.first? Options.expandKey = some clause)
      (hparse : Expand.parse limit clause = .error fault) :
      WritesExpand (.expand limit options) none

section

variable {α : Type} {writes : Step → α → Prop}

/-- What one step makes of a value: what it writes, or the value as it was if it writes nothing. -/
inductive WriteOrKeep (writes : Step → α → Prop) (step : Step) (before : α) : α → Prop
  | written {value : α} (h : writes step value) : WriteOrKeep writes step before value
  | kept (h : ∀ value, ¬ writes step value) : WriteOrKeep writes step before before

/-- What steps make of a value: what the last of them to write has written, or the value as it was
if none writes. -/
inductive LastWrite (writes : Step → α → Prop) (steps : List Step) (before : α) : α → Prop
  | written {earlier later : List Step} {step : Step} {value : α}
      (hsteps : steps = earlier ++ step :: later) (hwrites : writes step value)
      (hlater : ∀ other ∈ later, ∀ value, ¬ writes other value) :
      LastWrite writes steps before value
  | kept (h : ∀ step ∈ steps, ∀ value, ¬ writes step value) : LastWrite writes steps before before

/-- A step in front of others counts only if none of them writes. -/
theorem LastWrite.cons {step : Step} {rest : List Step} {before middle after : α}
    (hstep : WriteOrKeep writes step before middle) (hrest : LastWrite writes rest middle after) :
    LastWrite writes (step :: rest) before after := by
  cases hrest with
  | written hsteps hwrites hlater =>
    subst hsteps
    exact .written (List.cons_append ..).symm hwrites hlater
  | kept hrest =>
    cases hstep with
    | written hwrites => exact .written (List.nil_append _).symm hwrites hrest
    | kept hstep => exact .kept (List.forall_mem_cons.2 ⟨hstep, hrest⟩)

/-- **A part that each step writes or leaves alone holds what was written last.** -/
theorem lastWrite_fill {part : Query → α}
    (hstep : ∀ step query, WriteOrKeep writes step (part query) (part (step.take query).2))
    (query : Query) (steps : List Step) :
    LastWrite writes steps (part query) (part (fill query steps).2) := by
  induction steps generalizing query with
  | nil => exact .kept nofun
  | cons step rest ih => exact .cons (hstep step query) (ih (step.take query).2)

end

/-! ## One step -/

/-- What a step does: it is refused, or writes its part, or finds no clause to read. -/
inductive Step.Taken (query : Query) : Step → Bool × Query → Prop
  | selectRefused {options : Options} {fault : Fault}
      (hselect : Select.ofOptions options = .error fault) :
      Taken query (.select options) (true, { query with error := some fault.toError })
  | selectAccepted {options : Options} {select : Option (List String)}
      (hselect : Select.ofOptions options = .ok select) :
      Taken query (.select options) (false, { query with select })
  | expandAbsent {limit : DepthLimit} {options : Options}
      (hclause : options.first? Options.expandKey = none) :
      Taken query (.expand limit options) (false, query)
  | expandRefused {limit : DepthLimit} {options : Options} {clause : List Char} {fault : Fault}
      (hclause : options.first? Options.expandKey = some clause)
      (hparse : Expand.parse limit clause = .error fault) :
      Taken query (.expand limit options)
        (true, { query with expand := none, error := some fault.toError })
  | expandAccepted {limit : DepthLimit} {options : Options} {clause : List Char}
      {map : List (String × Expansion)} (hclause : options.first? Options.expandKey = some clause)
      (hparse : Expand.parse limit clause = .ok map) :
      Taken query (.expand limit options) (false, { query with expand := some map })

namespace Step

theorem taken_take (step : Step) (query : Query) : step.Taken query (step.take query) := by
  cases step with
  | select options =>
    rw [take, readSelect]
    cases hselect : Select.ofOptions options with
    | error fault => exact .selectRefused hselect
    | ok select => exact .selectAccepted hselect
  | expand limit options =>
    rw [take, readExpand]
    cases hclause : options.first? Options.expandKey with
    | none => exact .expandAbsent hclause
    | some clause =>
      dsimp only
      cases hparse : Expand.parse limit clause with
      | error fault => exact .expandRefused hclause hparse
      | ok map => exact .expandAccepted hclause hparse

/-- **A step tells that it was refused just when its clause is.** -/
theorem take_eq_true_iff (step : Step) (query : Query) :
    (step.take query).1 = true ↔ ∃ fault, step.RefusedFor fault := by
  have htaken := taken_take step query
  generalize step.take query = outcome at htaken ⊢
  cases htaken with
  | selectRefused hselect => exact iff_of_true rfl ⟨_, .select hselect⟩
  | expandRefused hclause hparse => exact iff_of_true rfl ⟨_, .expand hclause hparse⟩
  | selectAccepted hselect =>
    refine iff_of_false nofun ?_
    rintro ⟨_, ⟨h⟩⟩
    simp [hselect] at h
  | expandAbsent hclause =>
    refine iff_of_false nofun ?_
    rintro ⟨_, _ | ⟨h, -⟩⟩
    simp [hclause] at h
  | expandAccepted hclause hparse =>
    refine iff_of_false nofun ?_
    rintro ⟨_, _ | ⟨h, hrefused⟩⟩
    obtain rfl := Option.some.inj (hclause.symm.trans h)
    simp [hparse] at hrefused

theorem take_error (step : Step) (query : Query) :
    WriteOrKeep WritesError step query.error (step.take query).2.error := by
  have hflag := take_eq_true_iff step query
  have htaken := taken_take step query
  generalize step.take query = outcome at hflag htaken ⊢
  cases htaken with
  | selectRefused hselect => exact .written (.refused (.select hselect))
  | expandRefused hclause hparse => exact .written (.refused (.expand hclause hparse))
  | _ =>
    -- the flag is down, so there is no fault
    refine .kept ?_
    rintro _ ⟨hrefused⟩
    nomatch hflag.2 ⟨_, hrefused⟩

theorem take_select (step : Step) (query : Query) :
    WriteOrKeep WritesSelect step query.select (step.take query).2.select := by
  have htaken := taken_take step query
  generalize step.take query = outcome at htaken ⊢
  cases htaken with
  | selectAccepted hselect => exact .written (.accepted hselect)
  | selectRefused hselect =>
    refine .kept ?_
    rintro _ ⟨h⟩
    simp [hselect] at h
  | _ => exact .kept nofun

theorem take_expand (step : Step) (query : Query) :
    WriteOrKeep WritesExpand step query.expand (step.take query).2.expand := by
  have htaken := taken_take step query
  generalize step.take query = outcome at htaken ⊢
  cases htaken with
  | expandAccepted hclause hparse => exact .written (.accepted hclause hparse)
  | expandRefused hclause hparse => exact .written (.refused hclause hparse)
  | expandAbsent hclause =>
    refine .kept ?_
    rintro _ (⟨h, -⟩ | ⟨h, -⟩)
    all_goals simp [hclause] at h
  | _ => exact .kept nofun

end Step

/-! ## All the steps -/

variable {steps : List Step}

theorem flags_fill (query : Query) (steps : List Step) :
    List.Forall₂ (fun step refused => refused = true ↔ ∃ fault, step.RefusedFor fault) steps
      (fill query steps).1 := by
  induction steps generalizing query with
  | nil => exact .nil
  | cons step rest ih => exact .cons (step.take_eq_true_iff query) (ih (step.take query).2)

theorem true_mem_flags_iff {flags : List Bool}
    (h : List.Forall₂ (fun step refused => refused = true ↔ ∃ fault, Step.RefusedFor step fault)
      steps flags) :
    true ∈ flags ↔ ∃ step ∈ steps, ∃ fault, step.RefusedFor fault := by
  induction h with
  | nil => simp
  | cons hstep _ ih => rw [List.mem_cons, List.exists_mem_cons_iff, ih, ← hstep, eq_comm]

/-- An error in the end is an old one, or the one of a step that was refused. -/
theorem lastWrite_error_eq_none_iff {before after : Option QueryError}
    (h : LastWrite Step.WritesError steps before after) :
    after = none ↔ before = none ∧ ¬ ∃ step ∈ steps, ∃ fault, step.RefusedFor fault := by
  cases h with
  | written hsteps hwrites hlater =>
    obtain ⟨hrefused⟩ := hwrites
    refine iff_of_false nofun fun h => h.2 ⟨_, ?_, _, hrefused⟩
    simp [hsteps]
  | kept h =>
    refine (and_iff_left ?_).symm
    rintro ⟨step, hstep, fault, hrefused⟩
    exact h step hstep _ (.refused hrefused)

theorem toExcept_eq_ok_iff {query answer : Query} :
    query.toExcept = .ok answer ↔ query.error = none ∧ answer = query := by
  cases herror : query.error with
  | none => simp [toExcept_of_no_error herror, eq_comm]
  | some error => simp [toExcept_of_error herror]

/-- **Whatever steps fill a query, each tells whether its own clause was refused, and each part of
the query is in the end what was last written to it.** The query has no error in the end just when
it had none before and no step was refused. -/
theorem filled_by_last_writes (query : Query) (steps : List Step) :
    List.Forall₂ (fun step refused => refused = true ↔ ∃ fault, step.RefusedFor fault) steps
        (fill query steps).1 ∧
      LastWrite Step.WritesError steps query.error (fill query steps).2.error ∧
      LastWrite Step.WritesSelect steps query.select (fill query steps).2.select ∧
      LastWrite Step.WritesExpand steps query.expand (fill query steps).2.expand ∧
      ((∃ answer, (fill query steps).2.toExcept = .ok answer) ↔
        query.error = none ∧ true ∉ (fill query steps).1) := by
  have hflags := flags_fill query steps
  have herror := lastWrite_fill Step.take_error query steps
  refine ⟨hflags, herror, lastWrite_fill Step.take_select query steps,
    lastWrite_fill Step.take_expand query steps, ?_⟩
  simp only [toExcept_eq_ok_iff, exists_and_left, exists_eq, and_true]
  rw [true_mem_flags_iff hflags]
  exact lastWrite_error_eq_none_iff herror

/-- The refused field list leaves the fields, and the options without one unset them; the refused
clause takes the map away, and its error stays. -/
example :
    fill { select := some ["a"], expand := some [("B", .bare)] }
        [.select (.ofQuery "$select=,".toList), .expand none (.ofQuery "$expand=C(".toList),
          .select (.ofQuery "$top=1".toList), .expand none (.ofQuery "$select=c".toList)] =
      ([true, true, false, false], { error := some Fault.unclosedGroup.toError }) := by
  decide +kernel

end OData.Query
