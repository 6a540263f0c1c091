import OData.Proofs.Expand.Places
import OData.Proofs.Options

/-!
# Groups without an end

The fault that a group has no end is reported only where one has none. When every `(` of a clause
has its `)`, and nothing in the clause is escaped or cut at a `&`, the same holds of every clause
nested in it: the inside of a group is balanced, and so are the options that it is cut into and what
stands behind the `=` of an option. A `)` too many is another fault.

## Main statements

* `Intact.moves` — from one place of a clause to the next no `)` is lost
* `closed_ne_unclosedGroup` — no place of such a clause has a group without an end
-/

namespace OData

open Text

/-! ## Options -/

namespace Text

/-- A piece is written whole where the pieces are joined. -/
theorem subset_intercalate {separator : Char} {pieces : List (List Char)} {piece : List Char}
    (h : piece ∈ pieces) : piece ⊆ [separator].intercalate pieces := by
  induction pieces with
  | nil => nomatch h
  | cons first rest ih =>
    cases rest with
    | nil =>
      obtain rfl := List.mem_singleton.1 h
      simp
    | cons second rest =>
      rw [List.intercalate_cons_cons]
      rcases List.mem_cons.1 h with rfl | h
      · exact List.subset_append_of_subset_left _ (List.subset_append_left _ _)
      · exact List.subset_append_of_subset_right _ (ih h)

end Text

namespace Options

/-- Without a `&`, an option of a group is one of the pieces between the `;`. -/
theorem exists_piece_of_first? {group key value : List Char} (hgroup : Balanced group)
    (hamp : '&' ∉ group) (h : (ofGroup group).first? key = some value) :
    ∃ piece, Balanced piece ∧ piece ⊆ group ∧ OptionText piece (key, value) := by
  have hmem := mem_of_first? h
  rw [pairs_ofGroup] at hmem
  obtain ⟨piece, hpiece, hpair⟩ := List.mem_map.1 hmem
  obtain ⟨segment, hsegment, hcut⟩ := List.mem_flatMap.1 (List.mem_filter.1 hpiece).1
  have hsub : segment ⊆ group := by
    have hjoined : segment ⊆ [';'].intercalate (splitOutside ';' group) :=
      subset_intercalate hsegment
    rwa [intercalate_splitOutside] at hjoined
  rw [List.splitOn_eq_singleton fun hmem => hamp (hsub hmem), List.mem_singleton] at hcut
  subst hcut
  have houter : OuterPieces ';' group (splitOutside ';' group) :=
    outerPieces_splitOutside (by decide) hgroup
  exact ⟨piece, houter.balanced piece hsegment, hsub, optionText_iff.2 hpair⟩

end Options

namespace Form

theorem plainChar_eq_iff {c d : Char} (hplus : d ≠ '+') (hspace : d ≠ ' ') :
    plainChar c = d ↔ c = d := by
  unfold plainChar
  split
  · rename_i h
    exact iff_of_false hspace.symm fun hc => hplus (hc.symm.trans h)
  · exact Iff.rfl

theorem not_mem_map_plainChar {c : Char} {text : List Char} (h : c ∉ text) (hplus : c ≠ '+')
    (hspace : c ≠ ' ') : c ∉ text.map plainChar := by
  intro hmem
  obtain ⟨d, hd, heq⟩ := List.mem_map.1 hmem
  exact h ((plainChar_eq_iff hplus hspace).1 heq ▸ hd)

/-- A text that stands for one without parentheses has none. -/
theorem noParens_of_map_plainChar {text : List Char} (h : NoParens (text.map plainChar)) :
    NoParens text := by
  intro c hc
  have hmapped := h (plainChar c) (List.mem_map_of_mem hc)
  rw [ne_eq, ne_eq, plainChar_eq_iff (by decide) (by decide),
    plainChar_eq_iff (by decide) (by decide)] at hmapped
  exact hmapped

theorem balanced_map_plainChar {text : List Char} (h : Balanced text) :
    Balanced (text.map plainChar) :=
  h.map (fun _ => plainChar_eq_iff (by decide) (by decide))
    fun _ => plainChar_eq_iff (by decide) (by decide)

end Form

namespace Expand

variable {limit : DepthLimit}

/-- Text that no escape stands in, no separator that acts inside groups, and no group without an
end. -/
structure Intact (text : List Char) : Prop where
  percent : '%' ∉ text
  ampersand : '&' ∉ text
  closed : AllClosed text

/-! ## Clauses of groups -/

/-- The inside of a group is a balanced part of the text. -/
theorem OpensGroup.balanced_subset {text group : List Char} (h : OpensGroup text group) :
    Balanced group ∧ group ⊆ text := by
  obtain ⟨item, hitem, hinner⟩ := h
  cases readItem_eq_ok_iff.1 hitem with
  | bare => nomatch hinner
  | group hbefore hname hbetween hwhite hgroup hhead =>
    obtain rfl := Option.some.inj hinner
    exact ⟨hgroup, fun c hc => by simp [hc]⟩

/-- The clause of an option is balanced, as its key has no parentheses. -/
theorem balanced_clause {piece clause : List Char} (hpiece : Balanced piece)
    (hpercent : '%' ∉ piece) (htext : Options.OptionText piece (Options.expandKey, clause)) :
    Balanced clause ∧ ∃ value, clause = value.map Form.plainChar ∧ value ⊆ piece := by
  generalize hpair : (Options.expandKey, clause) = pair at htext
  cases htext with
  | key hkey =>
    obtain ⟨-, rfl⟩ := Prod.mk.inj hpair
    exact ⟨balanced_of_noParens nofun, [], rfl, nofun⟩
  | @keyValue key value hkey =>
    obtain ⟨hname, rfl⟩ := Prod.mk.inj hpair
    rw [List.mem_append, List.mem_cons, not_or, not_or] at hpercent
    rw [Form.decode_of_not_mem hpercent.1] at hname
    have hparens : NoParens Options.expandKey := by
      have hall : (Options.expandKey.all fun c => c != '(' && c != ')') = true := by decide
      exact fun c hc => by simpa using List.all_eq_true.1 hall c hc
    rw [hname] at hparens
    have hkey := balanced_of_noParens (Form.noParens_of_map_plainChar hparens)
    have hequals : Balanced ['='] := balanced_of_noParens (by simp [NoParens])
    have hvalue := hequals.of_append_left (hkey.of_append_left hpiece)
    rw [Form.decode_of_not_mem hpercent.2.2]
    exact ⟨Form.balanced_map_plainChar hvalue, value, rfl, fun c hc => by simp [hc]⟩

theorem Intact.descends {place next : Place} (h : Intact place.text)
    (hmove : Descends limit place next) : Intact next.text := by
  obtain ⟨hgroup, -, -, hclause⟩ := hmove
  obtain ⟨hbalanced, hsub⟩ := hgroup.balanced_subset
  obtain ⟨piece, hpiece, hin, htext⟩ :=
    Options.exists_piece_of_first? hbalanced (fun hmem => h.ampersand (hsub hmem)) hclause
  have hpercent : '%' ∉ piece := fun hmem => h.percent (hsub (hin hmem))
  have hamp : '&' ∉ piece := fun hmem => h.ampersand (hsub (hin hmem))
  obtain ⟨hvalue, value, rfl, hvalueIn⟩ := balanced_clause hpiece hpercent htext
  exact {
    percent := Form.not_mem_map_plainChar (fun hmem => hpercent (hvalueIn hmem)) (by decide)
      (by decide)
    ampersand := Form.not_mem_map_plainChar (fun hmem => hamp (hvalueIn hmem)) (by decide)
      (by decide)
    closed := hvalue.allClosed }

theorem Intact.advances {place next : Place} (h : Intact place.text)
    (hmove : Advances limit place next) : Intact next.text := by
  obtain ⟨front, -, htext⟩ := hmove.exists_append
  rw [htext] at h
  exact ⟨fun hmem => h.percent (List.mem_append_right _ hmem),
    fun hmem => h.ampersand (List.mem_append_right _ hmem), h.closed.of_append⟩

/-- **From one place of a clause to the next no `)` is lost.** -/
theorem Intact.moves {place next : Place} (h : Intact place.text)
    (hmove : Moves limit place next) : Intact next.text :=
  hmove.elim h.advances h.descends

theorem Intact.reaches {place last : Place} (h : Intact place.text)
    (hreaches : Reaches limit place last) : Intact last.text :=
  hreaches.preserves (P := fun place => Intact place.text) (fun _ _ hmove h => h.moves hmove) h

/-! ## The fault -/

/-- Where every `(` has its `)`, no group is without an end. -/
theorem readItem_ne_unclosedGroup {text : List Char} (h : AllClosed text) :
    readItem text ≠ .error .unclosedGroup := by
  intro hread
  obtain ⟨front, inside, htext, -, hcut⟩ := exists_open_of_unclosed hread
  obtain ⟨inner, after, hinner, hinside⟩ := h front inside htext
  rw [splitGroup?_eq_some_iff.2 ⟨hinside, hinner⟩] at hcut
  nomatch hcut

theorem Intact.entries_ne_unclosedGroup {place : Place} (h : Intact place.text) :
    entries limit place.depth place.text ≠ .error .unclosedGroup := by
  intro hfault
  obtain ⟨last, hreaches, hrefuses⟩ := entries_eq_error_iff.1 hfault
  exact readItem_ne_unclosedGroup (h.reaches hreaches).closed hrefuses.unclosedGroup

/-- **A group without an end is reported only where there is a `(` without its `)`.** In a clause
without `%` and `&` in which every `(` has one, neither the clause nor any clause nested in it is
refused for this fault, whatever the limit and whatever `)` it has too many. -/
theorem closed_ne_unclosedGroup (limit : DepthLimit) {clause : List Char} (hpercent : '%' ∉ clause)
    (hamp : '&' ∉ clause) (hclosed : AllClosed clause) :
    parse limit clause ≠ .error .unclosedGroup ∧
      ∀ place, Reaches limit ⟨0, clause⟩ place →
        entries limit place.depth place.text ≠ .error .unclosedGroup := by
  have hintact : Intact clause := ⟨hpercent, hamp, hclosed⟩
  have hplaces : ∀ place, Reaches limit ⟨0, clause⟩ place →
      entries limit place.depth place.text ≠ .error .unclosedGroup :=
    fun _ hreaches => (Intact.reaches hintact hreaches).entries_ne_unclosedGroup
  exact ⟨fun hfault => hplaces _ .refl (map_eq_error_iff.1 hfault), hplaces⟩

/-- A `)` too many behind the last item is reported, a group in a group is not. -/
theorem closed_ne_unclosedGroup_nested :
    let clause := "A($top=(1);$expand=B($select=+x)),C)".toList
    '%' ∉ clause ∧ '&' ∉ clause ∧ AllClosed clause ∧
      Reaches (some 2) ⟨0, clause⟩ ⟨1, "B($select= x)".toList⟩ ∧
      parse (some 2) clause = .error .malformedExpand ∧
      parse (some 2) clause ≠ .error .unclosedGroup ∧
      entries (some 2) 1 "B($select= x)".toList ≠ .error .unclosedGroup := by
  intro clause
  have hpercent : '%' ∉ clause := by decide
  have hamp : '&' ∉ clause := by decide
  have hclosed : AllClosed clause := allClosed_of_openAfter_eq (by decide)
  let group := "$top=(1);$expand=B($select=+x)".toList
  have hgroup : OpensGroup clause group := ⟨⟨['A'], some group, ",C)".toList⟩, rfl, rfl⟩
  have hselect : Select.ofOptions (.ofGroup group) = .ok none := by decide +kernel
  have hreaches : Reaches (some 2) ⟨0, clause⟩ ⟨1, "B($select= x)".toList⟩ :=
    .single (Or.inr (.mk hgroup rfl hselect (by decide +kernel)))
  obtain ⟨hparse, hplaces⟩ := closed_ne_unclosedGroup (some 2) hpercent hamp hclosed
  exact ⟨hpercent, hamp, hclosed, hreaches, by decide +kernel, hparse, hplaces _ hreaches⟩

end Expand

end OData
