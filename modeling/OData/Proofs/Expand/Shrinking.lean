import OData.Proofs.Expand.Places
import OData.Proofs.Options.Bytes

/-!
# What a level of nesting costs

A clause nested in a group is shorter than the clause around it: by a name, two parentheses and
`$expand` at least, and by a `=` too unless it is empty. As an empty clause holds no group, every
level but the last takes eleven bytes of the text. So there is no reading without an end, and a
group stands no deeper than the text has bytes for.

## Main statements

* `Descends.byteLength_le` — what is left for a nested clause
* `Reaches.byteLength_le` — what is left for a place at a depth
* `parse_eq_tooDeep_iff` — the fault that a limit adds, by the groups that the reading gets to
* `nested_clauses_shrink` — the bytes that a depth takes, whether the limit permits it or not
-/

namespace OData.Expand

open Text Form

variable {limit : DepthLimit}

/-! ## One move -/

/-- The bytes of a group and its parentheses. -/
def groupBytes : Option (List Char) → Nat
  | none => 0
  | some group => byteLength group + 2

/-- An item takes its name and its group off the text. -/
theorem byteLength_item_le {text : List Char} {item : Item} (h : readItem text = .ok item) :
    1 + groupBytes item.group + byteLength item.after ≤ byteLength text := by
  have hopen : ('(' : Char).utf8Size = 1 := by decide
  have hclose : (')' : Char).utf8Size = 1 := by decide
  cases readItem_eq_ok_iff.1 h with
  | bare hbefore hname hbetween hends hafter =>
    have := byteLength_pos (ne_nil_of_isIdentifier hname)
    simp only [groupBytes, byteLength_append]
    omega
  | group hbefore hname hbetween hwhite hgroup hhead =>
    have := byteLength_pos (ne_nil_of_isIdentifier hname)
    simp only [groupBytes, byteLength_append, byteLength_cons, hopen, hclose]
    omega

theorem OpensGroup.byteLength_le {text group : List Char} (h : OpensGroup text group) :
    byteLength group + 3 ≤ byteLength text := by
  obtain ⟨item, hitem, hgroup⟩ := h
  have hle := byteLength_item_le hitem
  rw [hgroup, groupBytes] at hle
  omega

/-- **A nested clause is shorter by ten bytes, and by eleven unless it is empty.** -/
theorem Descends.byteLength_le {place next : Place} (h : Descends limit place next) :
    byteLength next.text + 10 + (if next.text = [] then 0 else 1) ≤ byteLength place.text := by
  obtain ⟨hgroup, -, -, hclause⟩ := h
  have hitem := hgroup.byteLength_le
  have hpair := Options.pairBytes_first?_le hclause
  rw [pairBytes, Options.byteLength_expandKey] at hpair
  dsimp only at hpair ⊢
  omega

/-! ## Whole readings -/

theorem byteLength_le_of_advances {place last : Place}
    (h : Relation.ReflTransGen (Advances limit) place last) :
    byteLength last.text ≤ byteLength place.text := by
  induction h with
  | refl => exact Nat.le_refl _
  | tail _ hmove ih => exact Nat.le_trans (Nat.le_of_lt hmove.byteLength_lt) ih

/-- **The levels around a place take eleven bytes each.** An empty text at the place stands for one
byte, as its `=` may be missing. -/
theorem Reaches.byteLength_le {clause : List Char} {place : Place}
    (h : Reaches limit ⟨0, clause⟩ place) :
    byteLength place.text + 11 * place.depth ≤
      byteLength clause + if place.text = [] then 1 else 0 := by
  refine h.preserves (P := fun place => byteLength place.text + 11 * place.depth ≤
    byteLength clause + if place.text = [] then 1 else 0) ?_ (Nat.le_add_right _ _)
  intro place next hmove ih
  -- no item stands in an empty text, so only the last place may have one
  have hne : place.text ≠ [] := by
    intro hnil
    have := hmove.byteLength_lt
    simp [hnil] at this
  rw [if_neg hne] at ih
  rcases hmove with hmove | hmove
  · have hdepth := hmove.depth_eq
    have hlt := hmove.byteLength_lt
    omega
  · have hdepth := hmove.depth_eq.1
    have hle := hmove.byteLength_le
    split at hle
    · rename_i hnil
      rw [if_pos hnil]
      omega
    · rename_i hnil
      rw [if_neg hnil]
      omega

/-- No place stands deeper than the limit. -/
theorem Reaches.depth_le {bound : Nat} {clause : List Char} {place : Place}
    (h : Reaches (some bound) ⟨0, clause⟩ place) : place.depth ≤ bound := by
  refine h.preserves (P := fun place => place.depth ≤ bound) ?_ (Nat.zero_le bound)
  rintro place next (hmove | hmove) ih
  · rwa [hmove.depth_eq]
  · simpa [DepthLimit.permits] using hmove.depth_eq.2

/-- Reading the clause gets to the nested one from one of its own items. -/
def Calls (limit : DepthLimit) (depth : Nat) (clause nested : List Char) : Prop :=
  ∃ text, Relation.ReflTransGen (Advances limit) ⟨depth, clause⟩ ⟨depth, text⟩ ∧
    Descends limit ⟨depth, text⟩ ⟨depth + 1, nested⟩

/-- Reading the clause gets to a group at the depth, be it that the limit permits it or not. -/
def Enters (limit : DepthLimit) (clause : List Char) (depth : Nat) (group : List Char) : Prop :=
  ∃ place, Reaches limit ⟨0, clause⟩ place ∧ OpensGroup place.text group ∧
    depth = place.depth + 1

theorem Enters.byteLength_le {clause group : List Char} {depth : Nat}
    (h : Enters limit clause depth group) : 11 * (depth - 1) + 3 ≤ byteLength clause := by
  obtain ⟨place, hreaches, hgroup, rfl⟩ := h
  have hplace := hreaches.byteLength_le
  have hitem := hgroup.byteLength_le
  split at hplace
  · rename_i hnil
    simp [hnil] at hitem
  · omega

/-- **A clause is refused for its depth just when reading it gets to a group that is one deeper than
the limit.** -/
theorem parse_eq_tooDeep_iff {clause : List Char} {bound : Nat} :
    parse limit clause = .error (.tooDeep bound) ↔
      limit = some bound ∧ ∃ group, Enters limit clause (bound + 1) group := by
  constructor
  · intro h
    obtain ⟨place, hreaches, hrefuses⟩ := entries_eq_error_iff.1 (map_eq_error_iff.1 h)
    obtain ⟨rfl, hbound, group, hgroup⟩ := hrefuses.tooDeep
    exact ⟨rfl, group, place, hreaches, hgroup, by rw [Nat.le_antisymm hbound hreaches.depth_le]⟩
  · rintro ⟨rfl, group, place, hreaches, hgroup, hdepth⟩
    have hcheck : DepthLimit.check (some bound) (place.depth + 1) = .error (.tooDeep bound) :=
      DepthLimit.check_eq_error_iff.2 ⟨bound, rfl, by omega, rfl⟩
    exact map_eq_error_iff.2 (entries_eq_error_iff.2 ⟨place, hreaches, .depth hgroup hcheck⟩)

/-- **Nested clauses get shorter, so every reading ends, and its depth is bounded by the bytes of
the text.** -/
theorem nested_clauses_shrink (limit : DepthLimit) :
    WellFounded (fun next place => Moves limit place next) ∧
    (∀ place next, Advances limit place next →
      ∃ front, front ≠ [] ∧ place.text = front ++ next.text) ∧
    (∀ depth clause nested, Calls limit depth clause nested →
      byteLength nested + 10 ≤ byteLength clause) ∧
    ∀ clause,
      (∀ depth group, Enters limit clause depth group →
        11 * (depth - 1) + 3 ≤ byteLength clause ∧ depth ≤ byteLength clause) ∧
      (∀ place, Reaches limit ⟨0, clause⟩ place → place.depth ≤ byteLength clause) ∧
      ∀ bound, parse limit clause = .error (.tooDeep bound) →
        11 * bound + 3 ≤ byteLength clause := by
  refine ⟨wellFounded_moves limit, fun _ _ => Advances.exists_append, ?_,
    fun clause => ⟨?_, ?_, ?_⟩⟩
  · rintro depth clause nested ⟨text, hadvances, hdescends⟩
    have hrest := byteLength_le_of_advances hadvances
    have hnested := hdescends.byteLength_le
    dsimp only at hrest hnested
    omega
  · intro depth group henters
    have := henters.byteLength_le
    exact ⟨this, by omega⟩
  · intro place hreaches
    have hplace := hreaches.byteLength_le
    split at hplace <;> omega
  · intro bound h
    obtain ⟨-, group, henters⟩ := parse_eq_tooDeep_iff.1 h
    exact henters.byteLength_le

/-- A level takes no more than eleven bytes, and a group no more than three; a byte that is broken
takes three in the nested clause as well as in the text. -/
theorem nested_clauses_shrink_least :
    let clause := "A($expand=B())".toList
    let broken := "A($expand=%FF)".toList
    byteLength clause = 14 ∧
    (Advances (some 1) ⟨0, "A, B".toList⟩ ⟨0, " B".toList⟩ ∧
      ∃ front, front ≠ [] ∧ "A, B".toList = front ++ " B".toList) ∧
    (Calls (some 1) 0 broken [Char.ofNat 0xFFFD] ∧
      byteLength [Char.ofNat 0xFFFD] + 10 ≤ byteLength broken) ∧
    (Enters (some 1) clause 2 [] ∧ 11 * (2 - 1) + 3 ≤ byteLength clause ∧
      2 ≤ byteLength clause) ∧
    (Reaches (some 1) ⟨0, clause⟩ ⟨1, "B()".toList⟩ ∧ 1 ≤ byteLength clause) ∧
    parse (some 1) clause = .error (.tooDeep 1) ∧ 11 * 1 + 3 ≤ byteLength clause := by
  intro clause broken
  have hitem : readItem "A, B".toList = .ok ⟨['A'], none, ", B".toList⟩ := rfl
  have hadvances : Advances (some 1) ⟨0, "A, B".toList⟩ ⟨0, " B".toList⟩ := .mk hitem rfl rfl
  have hbroken : Select.ofOptions (.ofGroup "$expand=%FF".toList) = .ok none := by decide +kernel
  have hcalls : Calls (some 1) 0 broken [Char.ofNat 0xFFFD] :=
    ⟨broken, .refl, .mk ⟨⟨['A'], some "$expand=%FF".toList, []⟩, rfl, rfl⟩ rfl hbroken
      (by decide +kernel)⟩
  have hselect : Select.ofOptions (.ofGroup "$expand=B()".toList) = .ok none := by decide +kernel
  have hreaches : Reaches (some 1) ⟨0, clause⟩ ⟨1, "B()".toList⟩ :=
    .single (Or.inr (.mk ⟨⟨['A'], some "$expand=B()".toList, []⟩, rfl, rfl⟩ rfl hselect
      (by decide +kernel)))
  have henters : Enters (some 1) clause 2 [] :=
    ⟨_, hreaches, ⟨⟨['B'], some [], []⟩, rfl, rfl⟩, rfl⟩
  have hdeep : parse (some 1) clause = .error (.tooDeep 1) := by decide +kernel
  obtain ⟨-, hfront, hnested, hclause⟩ := nested_clauses_shrink (some 1)
  obtain ⟨hgroups, hplaces, hfault⟩ := hclause clause
  exact ⟨by decide, ⟨hadvances, hfront _ _ hadvances⟩, ⟨hcalls, hnested _ _ _ hcalls⟩,
    ⟨henters, hgroups _ _ henters⟩, ⟨hreaches, hplaces _ hreaches⟩, hdeep, hfault _ hdeep⟩

end OData.Expand
