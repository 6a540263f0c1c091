import OData.Proofs.Expand.Places
import OData.Proofs.Query
import OData.Proofs.Select

/-!
# The depth limit as a threshold

A limit acts on a clause in one way only: it decides whether the reading is cut short. Reading
without a limit enters certain groups before it ends, with an answer or with a fault, and `entered`
lists their depths. A limit that permits them all changes nothing, and every other limit is what the
clause is refused for.

Groups behind the first fault are not entered, so they do not count. Groups whose entry is replaced
later are, and do.

## Main statement

* `parse_some_eq` — the answer under a limit, from the answer without one and the greatest depth
-/

namespace OData.Expand

open Text

/-! ## The groups that are entered -/

/-- The clause that reading a group goes on to, if its field list is not refused. -/
def nestedClause? (group : List Char) : Option (List Char) :=
  match Select.ofOptions (.ofGroup group) with
  | .error _ => none
  | .ok _ => (Options.ofGroup group).first? Options.expandKey

theorem byteLength_nestedClause?_lt {group clause : List Char}
    (h : nestedClause? group = some clause) : byteLength clause < byteLength group := by
  unfold nestedClause? at h
  split at h
  · cases h
  · exact byteLength_clause_lt h

/-- The text that reading goes on to behind an item, if it gets there. -/
def nextItem? (depth : Nat) (item : Item) : Option (List Char) :=
  match itemNode none depth item.group, continuation item.after with
  | .ok _, .ok (some rest) => some rest
  | _, _ => none

theorem continuation_of_nextItem? {item : Item} {rest : List Char}
    (h : nextItem? depth item = some rest) : continuation item.after = .ok (some rest) := by
  unfold nextItem? at h
  split at h
  · rename_i hrest
    rwa [← Option.some.inj h]
  · nomatch h

/-- The depths of the groups that reading a clause without a limit enters, in reading order, when
the clause stands in `depth` groups. -/
def entered (depth : Nat) (text : List Char) : List Nat :=
  match _ : readItem text with
  | .error _ => []
  | .ok item =>
    (match _ : item.group with
      | none => []
      | some group =>
        (depth + 1) ::
          (match _ : nestedClause? group with
            | none => []
            | some clause => entered (depth + 1) clause)) ++
    (match _ : nextItem? depth item with
      | none => []
      | some rest => entered depth rest)
termination_by byteLength text
decreasing_by
  · exact Nat.lt_trans (byteLength_nestedClause?_lt ‹_›) (byteLength_group_lt ‹_› ‹_›)
  · exact Nat.lt_trans (byteLength_continuation_le (continuation_of_nextItem? ‹_›))
      (byteLength_after_lt ‹_›)

/-- The greatest depth of a group that reading a clause enters; zero when it enters none. -/
def deepest (clause : List Char) : Nat := (entered 0 clause).foldr max 0

/-- The depths of the groups that reading the inside of a group enters. -/
def enteredInGroup (depth : Nat) (group : List Char) : List Nat :=
  match nestedClause? group with
  | none => []
  | some clause => entered depth clause

/-- The depths of the groups that reading an item enters. -/
def enteredByItem (depth : Nat) : Option (List Char) → List Nat
  | none => []
  | some group => (depth + 1) :: enteredInGroup (depth + 1) group

theorem entered_of_error {text : List Char} {fault : Fault} (h : readItem text = .error fault) :
    entered depth text = [] := by
  rw [entered]
  split
  · rfl
  · rename_i item hitem
    rw [h] at hitem
    nomatch hitem

theorem entered_of_ok {text : List Char} {item : Item} (h : readItem text = .ok item) :
    entered depth text = enteredByItem depth item.group ++
      (match nextItem? depth item with
        | none => []
        | some rest => entered depth rest) := by
  rw [entered]
  split
  · rename_i fault hfault
    rw [h] at hfault
    nomatch hfault
  · rename_i item' hitem
    rw [h] at hitem
    obtain rfl := Except.ok.inj hitem
    congr 1
    · obtain ⟨name, group, after⟩ := item
      cases group with
      | none => rfl
      | some group =>
        dsimp only [enteredByItem, enteredInGroup]
        cases nestedClause? group <;> rfl
    · cases nextItem? depth item <;> rfl

/-! ## One step under a limit -/

/-- What a limit makes of an answer that was read through groups of the given depths. -/
def cutShort {α : Type} (limit : Nat) (depths : List Nat) (answer : Except Fault α) :
    Except Fault α :=
  if ∀ depth ∈ depths, depth ≤ limit then answer else .error (.tooDeep limit)

variable {α β : Type} {bound : Nat}

@[simp] theorem cutShort_nil (answer : Except Fault α) : cutShort bound [] answer = answer :=
  if_pos nofun

/-- **Steps one after the other are cut short by the depths of both.** -/
theorem cutShort_bind {x : Except Fault α} {f g : α → Except Fault β} {first later : List Nat}
    (herror : ∀ fault, x = .error fault → later = [])
    (hok : ∀ a, x = .ok a → g a = cutShort bound later (f a)) :
    cutShort bound first x >>= g = cutShort bound (first ++ later) (x >>= f) := by
  by_cases h : ∀ depth ∈ first, depth ≤ bound
  · -- the first step gets to its end, and what it says decides whether the second is taken
    rw [cutShort, if_pos h]
    cases x with
    | error fault =>
      rw [herror fault rfl, List.append_nil, cutShort, if_pos h]
      rfl
    | ok a =>
      have hboth : (∀ depth ∈ first ++ later, depth ≤ bound) ↔ ∀ depth ∈ later, depth ≤ bound := by
        rw [List.forall_mem_append, and_iff_right h]
      show g a = cutShort bound (first ++ later) (f a)
      rw [hok a rfl, cutShort, cutShort]
      exact if_congr hboth.symm rfl rfl
  · have hboth : ¬ ∀ depth ∈ first ++ later, depth ≤ bound := by
      intro hall
      exact h fun depth hdepth => hall depth (List.mem_append_left _ hdepth)
    rw [cutShort, if_neg h, cutShort, if_neg hboth]
    rfl

theorem cutShort_bind_same {x : Except Fault α} (f : α → Except Fault β) (depths : List Nat) :
    cutShort bound depths x >>= f = cutShort bound depths (x >>= f) := by
  have hsame : cutShort bound depths x >>= f = cutShort bound (depths ++ []) (x >>= f) :=
    cutShort_bind (fun _ _ => rfl) fun a _ => (cutShort_nil (f a)).symm
  rwa [List.append_nil] at hsame

theorem check_some_eq (depth : Nat) :
    DepthLimit.check (some bound) depth = cutShort bound [depth] (DepthLimit.check none depth) := by
  simp [DepthLimit.check, cutShort]

/-! ## A whole reading under a limit -/

/-- **A group is cut short by its own depth and by those of the groups in it.** -/
theorem node_some_eq {group : List Char}
    (ih : ∀ text, (Options.ofGroup group).first? Options.expandKey = some text →
      ∀ depth, entries (some bound) depth text = cutShort bound (entered depth text)
        (entries none depth text)) (depth : Nat) :
    node (some bound) depth group =
      cutShort bound (depth :: enteredInGroup depth group) (node none depth group) := by
  rw [node_eq_bind, node_eq_bind, check_some_eq, ← List.singleton_append]
  refine cutShort_bind nofun fun _ _ => ?_
  unfold nestedClause?
  cases Select.ofOptions (.ofGroup group) with
  | error fault => exact (cutShort_nil _).symm
  | ok select =>
    show nodeClause _ _ _ _ = cutShort _ _ (nodeClause _ _ _ _)
    rw [nodeClause, nodeClause]
    dsimp only
    cases hfirst : (Options.ofGroup group).first? Options.expandKey with
    | none => exact (cutShort_nil _).symm
    | some text =>
      dsimp only
      rw [ih text hfirst, cutShort_bind_same]

/-- **A clause is cut short by the depths of the groups that its reading enters.** -/
theorem entries_some_eq (text : List Char) (depth : Nat) :
    entries (some bound) depth text =
      cutShort bound (entered depth text) (entries none depth text) := by
  refine (clause_induction
    (P := fun text => ∀ depth, entries (some bound) depth text =
      cutShort bound (entered depth text) (entries none depth text))
    (Q := fun group => ∀ depth, node (some bound) depth group =
      cutShort bound (depth :: enteredInGroup depth group) (node none depth group))
    ?_ fun group ih => node_some_eq ih).1 text depth
  intro text ih depth
  rw [entries_eq_bind, entries_eq_bind]
  cases hitem : readItem text with
  | error fault =>
    rw [entered_of_error hitem]
    exact (cutShort_nil _).symm
  | ok item =>
    obtain ⟨hgroup, hrest⟩ := ih item hitem
    have hnode : itemNode (some bound) depth item.group =
        cutShort bound (enteredByItem depth item.group) (itemNode none depth item.group) := by
      cases hg : item.group with
      | none => exact (cutShort_nil _).symm
      | some group => exact hgroup group hg (depth + 1)
    rw [entered_of_ok hitem]
    show (itemNode (some bound) depth item.group >>= _) = cutShort _ _ (itemNode _ _ _ >>= _)
    rw [hnode]
    -- groups behind the item count only when its own group and the text behind it are accepted
    refine cutShort_bind (fun fault hfault => ?_) fun value hvalue => ?_
    · rw [nextItem?, hfault]
    · rw [nextItem?, hvalue]
      cases hnext : continuation item.after with
      | error fault => exact (cutShort_nil _).symm
      | ok next =>
        cases next with
        | none => exact (cutShort_nil _).symm
        | some rest =>
          show (entries (some bound) depth rest >>= _) =
            cutShort _ _ (entries none depth rest >>= _)
          rw [hrest rest hnext depth, cutShort_bind_same]

/-! ## The threshold -/

theorem le_deepest (clause : List Char) : ∀ depth ∈ entered 0 clause, depth ≤ deepest clause := by
  unfold deepest
  induction entered 0 clause with
  | nil => nofun
  | cons first rest ih =>
    intro depth hdepth
    rw [List.foldr_cons]
    rcases List.mem_cons.1 hdepth with rfl | hdepth
    · exact Nat.le_max_left _ _
    · exact Nat.le_trans (ih depth hdepth) (Nat.le_max_right _ _)

theorem deepest_eq_zero_or_mem (clause : List Char) :
    entered 0 clause = [] ∧ deepest clause = 0 ∨ deepest clause ∈ entered 0 clause := by
  unfold deepest
  induction entered 0 clause with
  | nil => exact Or.inl ⟨rfl, rfl⟩
  | cons first rest ih =>
    right
    rw [List.foldr_cons]
    rcases ih with ⟨rfl, -⟩ | hmem
    · simp
    · rcases Nat.le_total first (rest.foldr max 0) with hle | hle
      · rw [Nat.max_eq_right hle]
        exact List.mem_cons_of_mem _ hmem
      · rw [Nat.max_eq_left hle]
        exact List.mem_cons_self

theorem deepest_le_iff {clause : List Char} :
    deepest clause ≤ bound ↔ ∀ depth ∈ entered 0 clause, depth ≤ bound := by
  constructor
  · intro h depth hdepth
    exact Nat.le_trans (le_deepest clause depth hdepth) h
  · intro h
    rcases deepest_eq_zero_or_mem clause with ⟨-, hzero⟩ | hmem
    · omega
    · exact h _ hmem

/-- **A limit below the greatest depth is what the clause is refused for; any other changes
nothing.** -/
theorem parse_some_eq (clause : List Char) (limit : Nat) :
    parse (some limit) clause =
      if deepest clause ≤ limit then parse none clause else .error (.tooDeep limit) := by
  rw [parse, parse, entries_some_eq, cutShort]
  by_cases h : deepest clause ≤ limit
  · rw [if_pos h, if_pos (deepest_le_iff.1 h)]
  · rw [if_neg h, if_neg fun hall => h (deepest_le_iff.2 hall)]
    rfl

/-! ## Reading without a limit -/

/-- **No group is too deep when there is no limit.** -/
theorem entries_none_ne_tooDeep (text : List Char) (depth limit : Nat) :
    entries none depth text ≠ .error (.tooDeep limit) := by
  intro h
  obtain ⟨place, -, hrefuses⟩ := entries_eq_error_iff.1 h
  nomatch hrefuses.tooDeep.1

theorem parse_none_ne_tooDeep (clause : List Char) (limit : Nat) :
    parse none clause ≠ .error (.tooDeep limit) := by
  intro h
  unfold parse at h
  cases hlist : entries none 0 clause with
  | error fault =>
    rw [hlist] at h
    exact entries_none_ne_tooDeep clause 0 limit (hlist.trans (congrArg _ (Except.error.inj h)))
  | ok list =>
    rw [hlist] at h
    nomatch h

theorem parse_raise {clause : List Char} {low high : Nat} (h : low ≤ high)
    {map : List (String × Expansion)} (hlow : parse (some low) clause = .ok map) :
    parse (some high) clause = .ok map ∧ parse none clause = .ok map := by
  rw [parse_some_eq] at hlow ⊢
  by_cases hdeep : deepest clause ≤ low
  · rw [if_pos hdeep] at hlow
    rw [if_pos (Nat.le_trans hdeep h)]
    exact ⟨hlow, hlow⟩
  · rw [if_neg hdeep] at hlow
    nomatch hlow

/-! ## The whole law -/

/-- **The greatest depth entered is a threshold.** Limits from it on leave the answer of the reading
without a limit, be it a map or a fault; limits below it are what the clause is refused for. The
same is so for a query that reads the clause. -/
theorem limit_threshold (clause : List Char) :
    (∀ depth ∈ entered 0 clause, depth ≤ deepest clause) ∧
    (entered 0 clause = [] ∧ deepest clause = 0 ∨ deepest clause ∈ entered 0 clause) ∧
    (∀ limit, parse (some limit) clause =
      if deepest clause ≤ limit then parse none clause else .error (.tooDeep limit)) ∧
    (∀ limit, parse none clause ≠ .error (.tooDeep limit)) ∧
    (∀ low high map, low ≤ high → parse (some low) clause = .ok map →
      parse (some high) clause = .ok map ∧ parse none clause = .ok map) ∧
    ∀ options select, Select.ofOptions options = .ok select →
      options.first? Options.expandKey = some clause → ∀ limit,
        Query.ofOptions (some limit) options =
          if deepest clause ≤ limit then Query.ofOptions none options
          else { error := some (Fault.tooDeep limit).toError } := by
  refine ⟨le_deepest clause, deepest_eq_zero_or_mem clause, parse_some_eq clause,
    parse_none_ne_tooDeep clause, ?_, ?_⟩
  · intro low high map h hlow
    exact parse_raise h hlow
  · intro options select hselect hclause limit
    rw [Query.ofOptions_of_clause hselect hclause, Query.ofOptions_of_clause hselect hclause,
      parse_some_eq]
    by_cases h : deepest clause ≤ limit
    · rw [if_pos h, if_pos h]
    · rw [if_neg h, if_neg h]

/-- A group two deep counts although a later item takes its place. -/
theorem limit_threshold_replaced :
    let clause := "B($expand=C($select=x)),B".toList
    let options := Options.ofQuery ("$select=y&$expand=".toList ++ clause)
    deepest clause = 2 ∧ parse (some 1) clause = .error (.tooDeep 1) ∧
      (2 ≤ 3 ∧ parse (some 2) clause = .ok [("B", .bare)] ∧
        parse (some 3) clause = .ok [("B", .bare)]) ∧
      Select.ofOptions options = .ok (some ["y"]) ∧
      options.first? Options.expandKey = some clause ∧
      Query.ofOptions (some 1) options = { error := some (Fault.tooDeep 1).toError } := by
  intro clause options
  have hdeep : deepest clause = 2 := by decide +kernel
  have htwo : parse (some 2) clause = .ok [("B", .bare)] := by decide +kernel
  have hselect : Select.ofOptions options = .ok (some ["y"]) := by decide +kernel
  have hclause : options.first? Options.expandKey = some clause := by decide +kernel
  obtain ⟨-, -, hlimit, -, hraise, hquery⟩ := limit_threshold clause
  have hone := hlimit 1
  have hquery := hquery options _ hselect hclause 1
  rw [hdeep, if_neg (by decide)] at hone hquery
  exact ⟨hdeep, hone, ⟨by decide, htwo, (hraise 2 3 _ (by decide) htwo).1⟩, hselect, hclause,
    hquery⟩

end OData.Expand
