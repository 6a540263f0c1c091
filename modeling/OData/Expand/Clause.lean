import OData.DepthLimit
import OData.Expand.Item
import OData.Query.Basic
import OData.Select

/-!
# Expand clauses

The value of `$expand` as a map from names to what is asked of them. The inside of a group is a list
of options again, and its own `$expand`, decoded once more, is a clause one level deeper.

## Which fault is reported

The first one in reading order. A group is read before the text after it is looked at; in a group
the depth is checked first, then come the field list, the nested clause, and last whether there was
either of the two.

## Termination

A clause nested in a group is shorter than the group by `$expand` at least, also when it was written
with escapes, so the recursion is on the size of the text in bytes.

## Main statements

* `entries_eq` and `node_eq` — the two functions as sequences of steps
-/

namespace OData.Expand

open Text

mutual

/-- The entries of a clause whose groups stand at depth `depth + 1`, in the order written. -/
def entries (limit : DepthLimit) (depth : Nat) (text : List Char) :
    Except Fault (List (String × Expansion)) :=
  match _ : readItem text with
  | .error fault => .error fault
  | .ok item =>
    match
      (match _ : item.group with
        | none => .ok .bare
        | some group => node limit (depth + 1) group : Except Fault Expansion) with
    | .error fault => .error fault
    | .ok value =>
      match _ : continuation item.after with
      | .error fault => .error fault
      | .ok none => .ok [(String.ofList item.name, value)]
      | .ok (some rest) =>
        match entries limit depth rest with
        | .error fault => .error fault
        | .ok tail => .ok ((String.ofList item.name, value) :: tail)
termination_by byteLength text
decreasing_by
  · exact byteLength_group_lt ‹_› ‹_›
  · exact Nat.lt_trans (byteLength_continuation_le ‹_›) (byteLength_after_lt ‹_›)

/-- What the inside of a group at the given depth asks for. -/
def node (limit : DepthLimit) (depth : Nat) (group : List Char) : Except Fault Expansion :=
  match limit.check depth with
  | .error fault => .error fault
  | .ok () =>
    match Select.ofOptions (.ofGroup group) with
    | .error fault => .error fault
    | .ok select =>
      match _ : (Options.ofGroup group).first? Options.expandKey with
      | none => if select.isNone then .error .emptyGroup else .ok { select }
      | some clause =>
        match entries limit depth clause with
        | .error fault => .error fault
        | .ok list => .ok { select, expand := some (NameMap.ofEntries list) }
termination_by byteLength group
decreasing_by
  have h := Options.byteLength_first?_le ‹_ = some clause›
  have hkey : byteLength Options.expandKey = 7 := by decide
  omega

end

/-- The map that a clause describes. -/
def parse (limit : DepthLimit) (clause : List Char) :
    Except Fault (List (String × Expansion)) :=
  (entries limit 0 clause).map NameMap.ofEntries

/-! ## The steps -/

/-- **A clause is an item, then its group, then what follows.** -/
theorem entries_eq (limit : DepthLimit) (depth : Nat) (text : List Char) :
    entries limit depth text = do
      let item ← readItem text
      let value ← match item.group with
        | none => pure .bare
        | some group => node limit (depth + 1) group
      match ← continuation item.after with
      | none => return [(String.ofList item.name, value)]
      | some rest => return (String.ofList item.name, value) :: (← entries limit depth rest) := by
  rw [entries]
  split
  · rename_i hitem
    rw [hitem]
    rfl
  · rename_i item hitem
    rw [hitem]
    simp only [bind, Except.bind, pure, Except.pure]
    obtain ⟨name, group, after⟩ := item
    cases group with
    | none =>
      dsimp only
      cases continuation after with
      | error fault => rfl
      | ok next =>
        cases next with
        | none => rfl
        | some rest => dsimp only; cases entries limit depth rest <;> rfl
    | some group =>
      dsimp only
      cases node limit (depth + 1) group with
      | error fault => rfl
      | ok value =>
        dsimp only
        cases continuation after with
        | error fault => rfl
        | ok next =>
          cases next with
          | none => rfl
          | some rest => dsimp only; cases entries limit depth rest <;> rfl

/-- **A group is its depth, then its field list, then its clause.** -/
theorem node_eq (limit : DepthLimit) (depth : Nat) (group : List Char) :
    node limit depth group = do
      limit.check depth
      let options := Options.ofGroup group
      let select ← Select.ofOptions options
      match options.first? Options.expandKey with
      | none => if select.isNone then throw .emptyGroup else return { select }
      | some clause =>
        let list ← entries limit depth clause
        return { select, expand := some (NameMap.ofEntries list) } := by
  rw [node]
  simp only [bind, Except.bind, pure, Except.pure]
  cases limit.check depth with
  | error fault => rfl
  | ok _ =>
    dsimp only
    cases Select.ofOptions (Options.ofGroup group) with
    | error fault => rfl
    | ok select =>
      dsimp only
      cases (Options.ofGroup group).first? Options.expandKey with
      | none => rfl
      | some clause => dsimp only; cases entries limit depth clause <;> rfl

end OData.Expand
