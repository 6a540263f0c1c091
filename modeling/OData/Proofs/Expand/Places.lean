import Mathlib.Logic.Relation
import OData.Proofs.Expand.Steps
import OData.Proofs.Select

/-!
# The places of a clause

Reading a clause goes from item to item, and from an item into the clause of its group. The places
that it gets to in this way are texts with a number of groups around them, and what is said of a
whole reading is said of these places one by one: a fault is found at one of them, and what a move
from one place to the next preserves holds of all of them.

## Main statements

* `wellFounded_moves` — no reading goes on without end
* `entries_eq_error_iff` — a clause is refused for what is found at one of its places
-/

namespace OData.Expand

open Text

variable {limit : DepthLimit} {fault : Fault} {bound : Nat}

/-! ## Places -/

/-- Where a reading stands: in how many groups, and the text from the next item on. -/
structure Place where
  depth : Nat
  text : List Char

/-- The item in front of the text has a group. -/
def OpensGroup (text group : List Char) : Prop :=
  ∃ item, readItem text = .ok item ∧ item.group = some group

/-- From an item to the one behind the comma. -/
inductive Advances (limit : DepthLimit) : Place → Place → Prop
  | mk {depth : Nat} {text rest : List Char} {item : Item} {value : Expansion}
      (hitem : readItem text = .ok item) (hnode : itemNode limit depth item.group = .ok value)
      (hnext : continuation item.after = .ok (some rest)) :
      Advances limit ⟨depth, text⟩ ⟨depth, rest⟩

/-- From an item into the clause of its group. -/
inductive Descends (limit : DepthLimit) : Place → Place → Prop
  | mk {depth : Nat} {text group clause : List Char} {select : Option (List String)}
      (hgroup : OpensGroup text group) (hdepth : limit.permits (depth + 1) = true)
      (hselect : Select.ofOptions (.ofGroup group) = .ok select)
      (hclause : (Options.ofGroup group).first? Options.expandKey = some clause) :
      Descends limit ⟨depth, text⟩ ⟨depth + 1, clause⟩

/-- From a place to the next one. -/
def Moves (limit : DepthLimit) (place next : Place) : Prop :=
  Advances limit place next ∨ Descends limit place next

/-- From a place to one that the reading gets to later, or to itself. -/
abbrev Reaches (limit : DepthLimit) : Place → Place → Prop := Relation.ReflTransGen (Moves limit)

/-- The reading ends at the place with the fault. -/
inductive Refuses (limit : DepthLimit) : Place → Fault → Prop
  | item {depth : Nat} {text : List Char} {fault : Fault}
      (hitem : readItem text = .error fault) : Refuses limit ⟨depth, text⟩ fault
  | depth {depth : Nat} {text group : List Char} {fault : Fault}
      (hgroup : OpensGroup text group) (hdepth : limit.check (depth + 1) = .error fault) :
      Refuses limit ⟨depth, text⟩ fault
  | select {depth : Nat} {text group : List Char} {fault : Fault} (hgroup : OpensGroup text group)
      (hdepth : limit.permits (depth + 1) = true)
      (hselect : Select.ofOptions (.ofGroup group) = .error fault) :
      Refuses limit ⟨depth, text⟩ fault
  | empty {depth : Nat} {text group : List Char} (hgroup : OpensGroup text group)
      (hdepth : limit.permits (depth + 1) = true)
      (hselect : Select.ofOptions (.ofGroup group) = .ok none)
      (hclause : (Options.ofGroup group).first? Options.expandKey = none) :
      Refuses limit ⟨depth, text⟩ .emptyGroup
  | after {depth : Nat} {text : List Char} {item : Item} {value : Expansion} {fault : Fault}
      (hitem : readItem text = .ok item) (hnode : itemNode limit depth item.group = .ok value)
      (hafter : continuation item.after = .error fault) : Refuses limit ⟨depth, text⟩ fault

/-! ## Moves -/

/-- What stands before the next item is part of the text, and is not empty. -/
theorem Advances.exists_append {place next : Place} (h : Advances limit place next) :
    ∃ front, front ≠ [] ∧ place.text = front ++ next.text := by
  obtain ⟨hitem, -, hnext⟩ := h
  obtain ⟨white, -, hafter⟩ := continuation_eq_some_iff.1 hnext
  obtain ⟨front, hfront, -⟩ := (readItem_eq_ok_iff.1 hitem).exists_append
  exact ⟨front ++ white ++ [','], by simp, by simp [hfront, hafter]⟩

theorem Advances.depth_eq {place next : Place} (h : Advances limit place next) :
    next.depth = place.depth := by
  cases h
  rfl

theorem Descends.depth_eq {place next : Place} (h : Descends limit place next) :
    next.depth = place.depth + 1 ∧ limit.permits next.depth = true := by
  obtain ⟨-, hdepth, -, -⟩ := h
  exact ⟨rfl, hdepth⟩

theorem Advances.byteLength_lt {place next : Place} (h : Advances limit place next) :
    byteLength next.text < byteLength place.text := by
  obtain ⟨hitem, -, hnext⟩ := h
  exact Nat.lt_trans (byteLength_continuation_le hnext) (byteLength_after_lt hitem)

theorem Descends.byteLength_lt {place next : Place} (h : Descends limit place next) :
    byteLength next.text < byteLength place.text := by
  obtain ⟨⟨item, hitem, hgroup⟩, -, -, hclause⟩ := h
  exact Nat.lt_trans (byteLength_clause_lt hclause) (byteLength_group_lt hitem hgroup)

theorem Moves.byteLength_lt {place next : Place} (h : Moves limit place next) :
    byteLength next.text < byteLength place.text :=
  h.elim Advances.byteLength_lt Descends.byteLength_lt

/-- **No reading goes on without end.** -/
theorem wellFounded_moves (limit : DepthLimit) :
    WellFounded fun next place => Moves limit place next :=
  Subrelation.wf Moves.byteLength_lt (measure fun place : Place => byteLength place.text).wf

/-! ## One place -/

theorem exists_group_of_itemNode_eq_error {depth : Nat} {group : Option (List Char)}
    (h : itemNode limit depth group = .error fault) :
    ∃ inner, group = some inner ∧ node limit (depth + 1) inner = .error fault := by
  cases group with
  | none => nomatch h
  | some inner => exact ⟨inner, rfl, h⟩

/-- A clause whose first group is refused is refused for it. -/
theorem entries_eq_error_of_node {depth : Nat} {text group : List Char}
    (hgroup : OpensGroup text group) (hnode : node limit (depth + 1) group = .error fault) :
    entries limit depth text = .error fault := by
  obtain ⟨item, hitem, hinner⟩ := hgroup
  rw [entries_eq_bind, bind_eq_error_iff]
  refine Or.inr ⟨item, hitem, bind_eq_error_iff.2 (Or.inl ?_)⟩
  rw [hinner]
  exact hnode

theorem Refuses.entries_eq_error {place : Place} (h : Refuses limit place fault) :
    entries limit place.depth place.text = .error fault := by
  cases h with
  | item hitem =>
    rw [entries_eq_bind, bind_eq_error_iff]
    exact Or.inl hitem
  | depth hgroup hdepth =>
    exact entries_eq_error_of_node hgroup (node_eq_error_iff.2 (Or.inl hdepth))
  | select hgroup hdepth hselect =>
    exact entries_eq_error_of_node hgroup (node_eq_error_iff.2 (Or.inr ⟨hdepth, Or.inl hselect⟩))
  | empty hgroup hdepth hselect hclause =>
    refine entries_eq_error_of_node hgroup (node_eq_error_iff.2 (Or.inr ⟨hdepth, Or.inr ?_⟩))
    exact ⟨none, hselect, nodeClause_eq_error_iff.2 (Or.inl ⟨hclause, rfl, rfl⟩)⟩
  | after hitem hnode hafter =>
    rw [entries_eq_bind, bind_eq_error_iff]
    refine Or.inr ⟨_, hitem, bind_eq_error_iff.2 (Or.inr ⟨_, hnode, ?_⟩)⟩
    exact bind_eq_error_iff.2 (Or.inl hafter)

theorem Moves.entries_eq_error {place next : Place} (h : Moves limit place next)
    (hnext : entries limit next.depth next.text = .error fault) :
    entries limit place.depth place.text = .error fault := by
  rcases h with ⟨hitem, hnode, hrest⟩ | ⟨hgroup, hdepth, hselect, hclause⟩
  · rw [entries_eq_bind, bind_eq_error_iff]
    refine Or.inr ⟨_, hitem, bind_eq_error_iff.2 (Or.inr ⟨_, hnode, ?_⟩)⟩
    refine bind_eq_error_iff.2 (Or.inr ⟨_, hrest, ?_⟩)
    exact bind_eq_error_iff.2 (Or.inl hnext)
  · refine entries_eq_error_of_node hgroup (node_eq_error_iff.2 (Or.inr ⟨hdepth, Or.inr ?_⟩))
    exact ⟨_, hselect, nodeClause_eq_error_iff.2 (Or.inr ⟨_, hclause, hnext⟩)⟩

/-- **A fault is found at the place itself or handed on from the next one.** -/
theorem refuses_or_moves {place : Place}
    (h : entries limit place.depth place.text = .error fault) :
    Refuses limit place fault ∨
      ∃ next, Moves limit place next ∧ entries limit next.depth next.text = .error fault := by
  obtain ⟨depth, text⟩ := place
  rw [entries_eq_bind] at h
  rcases bind_eq_error_iff.1 h with hitem | ⟨item, hitem, h⟩
  · exact Or.inl (.item hitem)
  rcases bind_eq_error_iff.1 h with hnode | ⟨value, hnode, h⟩
  · obtain ⟨group, hinner, hnode⟩ := exists_group_of_itemNode_eq_error hnode
    have hgroup : OpensGroup text group := ⟨item, hitem, hinner⟩
    rcases node_eq_error_iff.1 hnode with hcheck | ⟨hdepth, hselect | ⟨select, hselect, hclause⟩⟩
    · exact Or.inl (.depth hgroup hcheck)
    · exact Or.inl (.select hgroup hdepth hselect)
    rcases nodeClause_eq_error_iff.1 hclause with ⟨hnone, rfl, rfl⟩ | ⟨clause, hfirst, hlist⟩
    · exact Or.inl (.empty hgroup hdepth hselect hnone)
    · exact Or.inr ⟨_, Or.inr (.mk hgroup hdepth hselect hfirst), hlist⟩
  rcases bind_eq_error_iff.1 h with hafter | ⟨next, hnext, h⟩
  · exact Or.inl (.after hitem hnode hafter)
  cases next with
  | none => nomatch h
  | some rest =>
    rcases bind_eq_error_iff.1 h with htail | ⟨tail, -, h⟩
    · exact Or.inr ⟨_, Or.inl (.mk hitem hnode hnext), htail⟩
    · nomatch h

/-! ## All places -/

/-- **A clause is refused for what is found at one of its places.** -/
theorem entries_eq_error_iff {depth : Nat} {text : List Char} :
    entries limit depth text = .error fault ↔
      ∃ last, Reaches limit ⟨depth, text⟩ last ∧ Refuses limit last fault := by
  suffices hplace : ∀ place : Place, entries limit place.depth place.text = .error fault ↔
      ∃ last, Reaches limit place last ∧ Refuses limit last fault from hplace ⟨depth, text⟩
  intro place
  constructor
  · -- as no reading goes on without end, a fault that is handed on is found somewhere
    intro h
    induction place using (wellFounded_moves limit).induction with
    | _ place ih =>
      rcases refuses_or_moves h with hhere | ⟨next, hmove, hnext⟩
      · exact ⟨place, .refl, hhere⟩
      · obtain ⟨last, hreaches, hrefuses⟩ := ih next hmove hnext
        exact ⟨last, .head hmove hreaches, hrefuses⟩
  · rintro ⟨last, hreaches, hrefuses⟩
    induction hreaches using Relation.ReflTransGen.head_induction_on with
    | refl => exact hrefuses.entries_eq_error
    | head hmove _ ih => exact hmove.entries_eq_error ih

/-- **What every move preserves holds of all places.** -/
theorem Reaches.preserves {P : Place → Prop} {place last : Place}
    (hstep : ∀ place next, Moves limit place next → P place → P next)
    (h : Reaches limit place last) (hplace : P place) : P last := by
  induction h with
  | refl => exact hplace
  | tail _ hmove ih => exact hstep _ _ hmove ih

/-! ## Where a fault comes from -/

theorem Refuses.unclosedGroup {place : Place} (h : Refuses limit place .unclosedGroup) :
    readItem place.text = .error .unclosedGroup := by
  generalize hfault : Fault.unclosedGroup = fault at h
  cases h with
  | item hitem => exact hfault ▸ hitem
  | depth hgroup hdepth =>
    obtain ⟨_, -, -, rfl⟩ := DepthLimit.check_eq_error_iff.1 hdepth
    nomatch hfault
  | select hgroup hdepth hselect => nomatch hfault.trans (Select.ofOptions_eq_error hselect)
  | empty hgroup hdepth hselect hclause => nomatch hfault
  | after hitem hnode hafter => nomatch hfault.trans (continuation_eq_error hafter)

/-- A group is too deep when the place in front of it is as deep as the limit permits. -/
theorem Refuses.tooDeep {place : Place} (h : Refuses limit place (.tooDeep bound)) :
    limit = some bound ∧ bound ≤ place.depth ∧ ∃ group, OpensGroup place.text group := by
  generalize hfault : Fault.tooDeep bound = fault at h
  cases h with
  | item hitem =>
    subst hfault
    rcases readItem_eq_error hitem with h | h <;> nomatch h
  | depth hgroup hdepth =>
    obtain ⟨greatest, hlimit, hlt, rfl⟩ := DepthLimit.check_eq_error_iff.1 hdepth
    obtain rfl := Fault.tooDeep.inj hfault
    exact ⟨hlimit, Nat.le_of_lt_succ hlt, _, hgroup⟩
  | select hgroup hdepth hselect => nomatch hfault.trans (Select.ofOptions_eq_error hselect)
  | empty hgroup hdepth hselect hclause => nomatch hfault
  | after hitem hnode hafter => nomatch hfault.trans (continuation_eq_error hafter)

end OData.Expand
