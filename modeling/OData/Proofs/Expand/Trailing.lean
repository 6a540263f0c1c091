import OData.Proofs.Expand.Pieces
import OData.Proofs.Form.Trailing
import OData.Proofs.Query.OtherOptions
import OData.Proofs.Text.Trailing

/-!
# White space behind clauses and groups

A field list and an expand clause are read in the same way with white space behind them, whatever
text they are, as the reader skips it wherever it ends. Behind the inside of a group the white space
goes into the last option, where it does no harm to a value but would make another key of a key.

## Main statements

* `Select.parse_append_white` and `entries_append_white` — white space behind a list and a clause
* `node_of_sameValues` — groups whose values differ in the white space behind them
* `node_append_white` — white space behind a group that ends in a value
-/

namespace OData

open Text Options

variable {white : List Char}

/-! ## Options of a group -/

namespace Options

/-- **What is written behind a group without a separator goes into its last option.** -/
theorem exists_pairs_ofGroup_append (text : List Char) :
    ∃ before piece, ∀ tail, tail ≠ [] → ';' ∉ tail → '&' ∉ tail →
      (ofGroup (text ++ tail)).pairs = before ++ [Form.pairOf (piece ++ tail)] := by
  have hsep : ';' ≠ '(' ∧ ';' ≠ ')' := by decide
  obtain ⟨segments, segment, hsegments⟩ := exists_splitOutside_append hsep text
  obtain ⟨pieces, piece, hpieces⟩ := exists_splitOn_append '&' segment
  refine ⟨(optionTexts segments ++ pieces.filter fun text => !text.isEmpty).map Form.pairOf, piece,
    fun tail hne hsemicolon hamp => ?_⟩
  rw [pairs_ofGroup, hsegments tail hsemicolon]
  simp [optionTexts, hpieces tail hamp, hne]

/-- The options that are read have the same values, up to white space behind them. -/
def SameValues (options other : Options) : Prop :=
  ∀ key ∈ clauseKeys, ∃ white, AllWhite white ∧
    other.first? key = (options.first? key).map (· ++ white)

/-- The text ends in the value of an option: a `=` stands behind its last `;` and its last `&`. -/
def EndsInValue (text : List Char) : Prop :=
  ∃ front back, text = front ++ '=' :: back ∧ ';' ∉ back ∧ '&' ∉ back

/-- White space behind such a text is added to that value, if it is the one that is read. -/
theorem EndsInValue.sameValues {group : List Char} (h : EndsInValue group)
    (hwhite : AllWhite white) :
    SameValues (ofGroup group) (ofGroup (group ++ white)) := by
  obtain ⟨front, back, rfl, hsemicolon, hamp⟩ := h
  obtain ⟨before, piece, hpairs⟩ := exists_pairs_ofGroup_append front
  have hplain := hpairs ('=' :: back) (by simp) (by simpa using hsemicolon) (by simpa using hamp)
  have hpadded := hpairs ('=' :: back ++ white) (by simp)
    (by simp [hsemicolon, hwhite.not_mem (c := ';') (by decide)])
    (by simp [hamp, hwhite.not_mem (c := '&') (by decide)])
  rw [← List.append_assoc, ← List.append_assoc, Form.pairOf_append_white (by simp) hwhite]
    at hpadded
  intro key _
  rw [first?, first?, hpadded, hplain, List.find?_append, List.find?_append]
  cases before.find? (·.1 == key) with
  | some pair => exact ⟨[], allWhite_nil, by simp⟩
  | none =>
    refine ⟨white, hwhite, ?_⟩
    by_cases hkey : (Form.pairOf (piece ++ '=' :: back)).1 = key
    · simp [hkey]
    · simp [hkey]

end Options

/-! ## Field lists -/

/-- **White space behind a field list makes no difference.** -/
theorem Select.parse_append_white (h : AllWhite white) (list : List Char) :
    parse (list ++ white) = parse list := by
  obtain ⟨before, last, hlast⟩ := exists_splitOn_append ',' list
  have hpadded := hlast white (h.not_mem (by decide))
  have hplain := hlast [] nofun
  rw [List.append_nil, List.append_nil] at hplain
  have hfield : parseField (last ++ white) = parseField last := by
    unfold parseField
    rw [trim_append_white h]
  rw [parse, parse, hpadded, hplain, List.mapM_append, List.mapM_append, List.mapM_cons,
    List.mapM_cons, hfield]

namespace Expand

variable {limit : DepthLimit} {depth : Nat}

/-! ## Clauses -/

theorem BeginsWith.append_white {text : List Char} {item : Item} (h : BeginsWith text item)
    (hwhite : AllWhite white) :
    ∃ kept, AllWhite kept ∧
      BeginsWith (text ++ white) { item with after := item.after ++ kept } := by
  cases h with
  | @group before name between gap group after hbefore hname hbetween hgap hgroup hhead =>
    have hitem : BeginsWith _ ⟨name, some group, after ++ white⟩ :=
      .group hbefore hname hbetween hgap hgroup hhead
    exact ⟨white, hwhite, by simpa using hitem⟩
  | @bare before name between after hbefore hname hbetween hends hafter =>
    cases after with
    | nil =>
      -- at the end of the text the white space is skipped with the one behind the name
      have hitem : BeginsWith _ ⟨name, none, []⟩ :=
        .bare hbefore hname (hbetween.append hwhite)
          (head_of_allWhite (hbetween.append hwhite) nofun) nofun
      exact ⟨[], allWhite_nil, by simpa using hitem⟩
    | cons c tail =>
      have hends' : ∀ d ∈ (between ++ (c :: tail ++ white)).head?,
          continuesIdentifier d = false := by
        cases between with
        | nil => exact hends
        | cons first rest => exact hends
      have hitem : BeginsWith _ ⟨name, none, c :: tail ++ white⟩ :=
        .bare hbefore hname hbetween hends' hafter
      exact ⟨white, hwhite, by simpa using hitem⟩

theorem takeIdentifier?_append_white {text : List Char} (h : takeIdentifier? text = none)
    (hwhite : AllWhite white) : takeIdentifier? (text ++ white) = none := by
  cases white with
  | nil => rwa [List.append_nil]
  | cons c rest =>
    refine takeIdentifier?_append_eq_none h (Bool.eq_false_iff.2 fun hstarts => ?_) rest
    have hnot := isWhite_of_continuesIdentifier (continuesIdentifier_of_starts hstarts)
    rw [hwhite c List.mem_cons_self] at hnot
    nomatch hnot

/-- **An item is read as it is without white space behind the text**, and is refused for the same
fault. -/
theorem exists_readItem_append_white (h : AllWhite white) (text : List Char) :
    ∃ kept, AllWhite kept ∧ readItem (text ++ white) =
      (readItem text).map fun item => { item with after := item.after ++ kept } := by
  cases hread : readItem text with
  | ok item =>
    obtain ⟨kept, hkept, hitem⟩ := (readItem_eq_ok_iff.1 hread).append_white h
    exact ⟨kept, hkept, readItem_eq_ok_iff.2 hitem⟩
  | error fault =>
    refine ⟨[], allWhite_nil, ?_⟩
    rcases readItem_eq_error hread with rfl | rfl
    · obtain ⟨kept, hkept, hskip⟩ := exists_skipWhite_append h text
      refine readItem_eq_malformed_iff.2 ?_
      rw [hskip]
      exact takeIdentifier?_append_white (readItem_eq_malformed_iff.1 hread) hkept
    · obtain ⟨before, name, between, inside, hbefore, hname, hbetween, hinside, rfl⟩ :=
        readItem_eq_unclosed_iff.1 hread
      refine readItem_eq_unclosed_iff.2
        ⟨before, name, between, inside ++ white, hbefore, hname, hbetween, ?_, by simp⟩
      rw [splitGroup?_append h.noParens, hinside]
      rfl

theorem continuation_append_white (h : AllWhite white) (text : List Char) :
    continuation (text ++ white) = (continuation text).map (Option.map (· ++ white)) := by
  cases hnext : continuation text with
  | ok next =>
    cases next with
    | none => exact continuation_eq_none_iff.2 ((continuation_eq_none_iff.1 hnext).append h)
    | some rest =>
      obtain ⟨front, hfront, rfl⟩ := continuation_eq_some_iff.1 hnext
      exact continuation_eq_some_iff.2 ⟨front, hfront, by simp⟩
  | error fault =>
    obtain rfl := continuation_eq_error hnext
    obtain ⟨c, tail, hskip, hc⟩ := continuation_eq_error_iff.1 hnext
    obtain ⟨kept, -, hpadded⟩ := exists_skipWhite_append h text
    rw [hskip] at hpadded
    exact continuation_eq_error_iff.2 ⟨c, tail ++ kept, hpadded, hc⟩

/-- **White space behind a clause makes no difference**, whether the clause is accepted or not. -/
theorem entries_append_white (h : AllWhite white) (text : List Char) :
    entries limit depth (text ++ white) = entries limit depth text := by
  -- the white space is handed on from item to item, and no group comes into contact with it
  refine (clause_induction (P := fun text => ∀ white, AllWhite white →
    entries limit depth (text ++ white) = entries limit depth text) (Q := fun _ => True)
    ?_ (fun _ _ => trivial)).1 text white h
  intro text ih white h
  obtain ⟨kept, hkept, hread⟩ := exists_readItem_append_white h text
  rw [entries_eq_bind (text ++ white), entries_eq_bind text, hread]
  cases hitem : readItem text with
  | error fault => rfl
  | ok item =>
    refine congrArg (itemNode limit depth item.group >>= ·) (funext fun value => ?_)
    show (continuation (item.after ++ kept) >>= _) = (continuation item.after >>= _)
    rw [continuation_append_white hkept]
    cases hnext : continuation item.after with
    | error fault => rfl
    | ok next =>
      cases next with
      | none => rfl
      | some rest =>
        show (entries limit depth (rest ++ kept) >>= _) = (entries limit depth rest >>= _)
        rw [(ih item hitem).2 rest hnext kept hkept]

/-! ## Groups -/

/-- **White space behind the values of a group makes no difference.** -/
theorem node_of_sameValues {group other : List Char}
    (h : SameValues (.ofGroup group) (.ofGroup other)) :
    node limit depth other = node limit depth group := by
  obtain ⟨gap, hgap, hlist⟩ := h selectKey (by decide)
  obtain ⟨space, hspace, hclause⟩ := h expandKey (by decide)
  have hselect : Select.ofOptions (.ofGroup other) = Select.ofOptions (.ofGroup group) := by
    unfold Select.ofOptions
    rw [hlist]
    cases (ofGroup group).first? selectKey with
    | none => rfl
    | some list => exact congrArg (Except.map some) (Select.parse_append_white hgap list)
  rw [node_eq_bind, node_eq_bind, hselect]
  refine congrArg _ (funext fun _ => congrArg _ (funext fun select => ?_))
  unfold nodeClause
  rw [hclause]
  cases (ofGroup group).first? expandKey with
  | none => rfl
  | some clause => exact congrArg (· >>= _) (entries_append_white hspace clause)

/-- **White space behind a group makes no difference when the group ends in a value.** -/
theorem node_append_white {group : List Char} (h : EndsInValue group) (hwhite : AllWhite white) :
    node limit depth (group ++ white) = node limit depth group :=
  node_of_sameValues (h.sameValues hwhite)

end Expand

end OData
