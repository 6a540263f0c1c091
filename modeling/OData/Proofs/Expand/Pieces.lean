import OData.Proofs.Expand.Steps
import OData.Proofs.NameMap
import OData.Proofs.Text.Outside

/-!
# A clause as its pieces

The reader walks along a clause and never cuts it at its commas. Still, what it makes of the clause
is what it makes of the pieces between the commas outside parentheses, read each by itself and one
after the other. This holds of every text: a group that does not end takes the rest of the text
into its piece, a `)` too many opens no way back into a group, and a comma with nothing behind it
leaves an empty piece, which is no item.

## Main statements

* `readItem_append_comma` — an item is read off a piece as it is read off the whole text
* `entries_eq_mapM` — the entries of a clause are those of its pieces
* `parse_pieces` — the map of a clause, and its fault, from the maps and the faults of the pieces
-/

namespace OData.Expand

open Text

variable {limit : DepthLimit} {depth : Nat} {text piece rest : List Char}

/-! ## Texts without an item -/

theorem readItem_eq_malformed_iff :
    readItem text = .error .malformedExpand ↔ takeIdentifier? (skipWhite text) = none := by
  unfold readItem
  constructor
  · intro h
    split at h
    · assumption
    · split at h
      · split at h <;> nomatch h
      · nomatch h
  · intro h
    rw [h]

/-! ## Items of a piece -/

theorem BeginsWith.append_comma {item : Item} (h : BeginsWith piece item) (rest : List Char) :
    BeginsWith (piece ++ ',' :: rest) { item with after := item.after ++ ',' :: rest } := by
  cases h with
  | @bare before name between after hbefore hname hbetween hends hafter =>
    have hends' :
        ∀ c ∈ (between ++ (after ++ ',' :: rest)).head?, continuesIdentifier c = false := by
      rw [← List.append_assoc]
      cases hhead : between ++ after with
      | nil => rintro c ⟨⟩; decide
      | cons d tail => rwa [hhead] at hends
    have hafter' : ∀ c ∈ (after ++ ',' :: rest).head?, isWhite c = false ∧ c ≠ '(' := by
      cases after with
      | nil => rintro c ⟨⟩; decide
      | cons d tail => exact hafter
    have hitem := BeginsWith.bare hbefore hname hbetween hends' hafter'
    simpa using hitem
  | @group before name between white group after hbefore hname hbetween hwhite hgroup hhead =>
    have hitem : BeginsWith _ ⟨name, some group, after ++ ',' :: rest⟩ :=
      .group hbefore hname hbetween hwhite hgroup hhead
    simpa using hitem

/-- **An item is read off a piece as it is read off the whole text.** -/
theorem readItem_append_comma (hclosed : openAfter 0 piece = 0) (rest : List Char) :
    readItem (piece ++ ',' :: rest) =
      (readItem piece).map fun item => { item with after := item.after ++ ',' :: rest } := by
  cases hread : readItem piece with
  | error fault =>
    rcases readItem_eq_error hread with rfl | rfl
    · have hnone := readItem_eq_malformed_iff.1 hread
      refine readItem_eq_malformed_iff.2 ?_
      rw [skipWhite_append_cons (by decide)]
      exact takeIdentifier?_append_eq_none hnone (by decide) rest
    · have hopen := openAfter_pos_of_unclosed hread
      omega
  | ok item => exact readItem_eq_ok_iff.2 ((readItem_eq_ok_iff.1 hread).append_comma rest)

/-! ## What follows an item of a piece -/

/-- The clause does not go on inside a piece. -/
theorem continuation_ne_some {item : Item} (h : ¬ StandsOutside ',' 0 piece)
    (hread : readItem piece = .ok item) (next : List Char) :
    continuation item.after ≠ .ok (some next) := by
  intro hnext
  obtain ⟨front, hfront, hclosed⟩ := (readItem_eq_ok_iff.1 hread).exists_append
  obtain ⟨white, hwhite, hafter⟩ := continuation_eq_some_iff.1 hnext
  refine h ⟨front ++ white, next, by rw [hfront, hafter, List.append_assoc], ?_⟩
  rw [openAfter_append, hclosed, openAfter_of_noParens hwhite.noParens]

theorem continuation_eq_error_iff :
    continuation text = .error .malformedExpand ↔
      ∃ c tail, skipWhite text = c :: tail ∧ c ≠ ',' := by
  unfold continuation
  constructor
  · intro h
    split at h
    · nomatch h
    · nomatch h
    · rename_i hnil hcomma
      obtain ⟨c, tail, hskip⟩ := List.exists_cons_of_ne_nil hnil
      exact ⟨c, tail, hskip, fun hc => hcomma tail (hc ▸ hskip)⟩
  · rintro ⟨c, tail, hskip, hc⟩
    rw [hskip]
    split
    · nomatch ‹c :: tail = []›
    · rename_i heq
      exact absurd (List.cons.inj heq).1 hc
    · rfl

/-- It goes on behind the comma after the piece, if nothing else stands before that comma. -/
theorem continuation_append_comma {after : List Char} (rest : List Char)
    (h : ∀ next, continuation after ≠ .ok (some next)) :
    continuation (after ++ ',' :: rest) = (continuation after).map fun _ => some rest := by
  cases hafter : continuation after with
  | ok next =>
    cases next with
    | none => exact continuation_eq_some_iff.2 ⟨after, continuation_eq_none_iff.1 hafter, rfl⟩
    | some next => exact absurd hafter (h next)
  | error fault =>
    obtain rfl := continuation_eq_error hafter
    obtain ⟨c, tail, hskip, hc⟩ := continuation_eq_error_iff.1 hafter
    refine continuation_eq_error_iff.2 ⟨c, tail ++ ',' :: rest, ?_, hc⟩
    rw [skipWhite_append_cons (by decide), hskip]
    rfl

/-! ## Entries of a piece -/

/-- A piece has one entry. -/
theorem exists_entry_of_entries {list : List (String × Expansion)}
    (h : ¬ StandsOutside ',' 0 piece) (hlist : entries limit depth piece = .ok list) :
    ∃ entry, list = [entry] := by
  obtain ⟨item, value, hread, -, ⟨-, rfl⟩ | ⟨next, _, hnext, -⟩⟩ := entries_eq_ok_iff.1 hlist
  · exact ⟨_, rfl⟩
  · exact absurd hnext (continuation_ne_some h hread next)

/-- **Behind a comma outside parentheses the clause is read anew.** -/
theorem entries_append_comma (hpiece : ¬ StandsOutside ',' 0 piece)
    (hclosed : openAfter 0 piece = 0) (rest : List Char) :
    entries limit depth (piece ++ ',' :: rest) =
      entries limit depth piece >>= fun first =>
        entries limit depth rest >>= fun others => pure (first ++ others) := by
  rw [entries_eq_bind (piece ++ ',' :: rest), entries_eq_bind piece, readItem_append_comma hclosed]
  cases hread : readItem piece with
  | error fault => rfl
  | ok item =>
    have hcontinues := continuation_append_comma rest (continuation_ne_some hpiece hread)
    show (itemNode limit depth item.group >>= _) = (itemNode limit depth item.group >>= _) >>= _
    cases itemNode limit depth item.group with
    | error fault => rfl
    | ok value =>
      show (continuation (item.after ++ ',' :: rest) >>= _) = (continuation item.after >>= _) >>= _
      rw [hcontinues]
      cases hafter : continuation item.after with
      | error fault => rfl
      | ok next =>
        cases next with
        | none => rfl
        | some next => exact absurd hafter (continuation_ne_some hpiece hread next)

/-- **The entries of a clause are those of its pieces.** -/
theorem entries_eq_mapM (text : List Char) :
    entries limit depth text =
      ((splitOutside ',' text).mapM (entries limit depth)).map List.flatten := by
  have hcomma : ',' ≠ '(' ∧ ',' ≠ ')' := by decide
  refine outside_induction ',' (P := fun text => entries limit depth text =
    ((splitOutside ',' text).mapM (entries limit depth)).map List.flatten) ?_ ?_ text
  · intro text h
    rw [splitOutside_of_not_standsOutside hcomma h, List.mapM_cons, List.mapM_nil]
    cases hlist : entries limit depth text with
    | error fault => rfl
    | ok list => simp [bind, Except.bind, pure, Except.pure, Except.map]
  · intro piece rest hpiece hclosed ih
    rw [entries_append_comma hpiece hclosed, splitOutside_append_of_closed hcomma hclosed hpiece,
      List.mapM_cons, ih]
    cases entries limit depth piece with
    | error fault => rfl
    | ok first => cases (splitOutside ',' rest).mapM (entries limit depth) <;> rfl

/-- **A clause is refused for the first of its pieces that is refused.** -/
theorem entries_eq_error_iff_pieces {fault : Fault} :
    entries limit depth text = .error fault ↔
      ∃ before piece after, splitOutside ',' text = before ++ piece :: after ∧
        (∀ earlier ∈ before, ∃ list, entries limit depth earlier = .ok list) ∧
        entries limit depth piece = .error fault := by
  rw [entries_eq_mapM, map_eq_error_iff, mapM_eq_error_iff]

/-! ## Maps of pieces -/

theorem parse_eq_error_iff {fault : Fault} :
    parse limit text = .error fault ↔ entries limit 0 text = .error fault :=
  map_eq_error_iff

theorem exists_parse_iff :
    (∃ map, parse limit text = .ok map) ↔ ∃ list, entries limit 0 text = .ok list := by
  unfold parse
  cases entries limit 0 text <;> simp [Except.map]

/-- The one entry of a piece is its map. -/
theorem parse_piece_iff (h : ¬ StandsOutside ',' 0 piece) {entry : String × Expansion} :
    parse limit piece = .ok [entry] ↔ entries limit 0 piece = .ok [entry] := by
  rw [parse, map_eq_ok_iff]
  constructor
  · rintro ⟨list, hlist, hmap⟩
    obtain ⟨other, rfl⟩ := exists_entry_of_entries h hlist
    rwa [← show [other] = [entry] from hmap]
  · intro hlist
    exact ⟨[entry], hlist, rfl⟩

/-- **A clause is accepted when every piece is, and then each piece gives one entry.** -/
theorem entries_eq_ok_iff_pieces (text : List Char) : ∀ list : List (String × Expansion),
    entries limit 0 text = .ok list ↔
      List.Forall₂ (fun piece entry => parse limit piece = .ok [entry])
        (splitOutside ',' text) list := by
  have hcomma : ',' ≠ '(' ∧ ',' ≠ ')' := by decide
  refine outside_induction ',' (P := fun text => ∀ list,
    entries limit 0 text = .ok list ↔
      List.Forall₂ (fun piece entry => parse limit piece = .ok [entry])
        (splitOutside ',' text) list) ?_ ?_ text
  · intro text h list
    rw [splitOutside_of_not_standsOutside hcomma h]
    constructor
    · intro hlist
      obtain ⟨entry, rfl⟩ := exists_entry_of_entries h hlist
      exact .cons ((parse_piece_iff h).2 hlist) .nil
    · rintro (_ | ⟨hentry, _ | _⟩)
      exact (parse_piece_iff h).1 hentry
  · intro piece rest hpiece hclosed ih list
    rw [entries_append_comma hpiece hclosed, splitOutside_append_of_closed hcomma hclosed hpiece,
      bind_eq_ok_iff]
    constructor
    · rintro ⟨first, hfirst, hrest⟩
      obtain ⟨entry, rfl⟩ := exists_entry_of_entries hpiece hfirst
      obtain ⟨others, hothers, heq⟩ := bind_eq_ok_iff.1 hrest
      obtain rfl := pure_eq_ok_iff.1 heq
      exact .cons ((parse_piece_iff hpiece).2 hfirst) ((ih others).1 hothers)
    · rintro (_ | ⟨hentry, hothers⟩)
      have hfirst := (parse_piece_iff hpiece).1 hentry
      exact ⟨_, hfirst, bind_eq_ok_iff.2 ⟨_, (ih _).2 hothers, rfl⟩⟩

/-! ## The whole clause -/

/-- **A clause is read piece by piece.** It is refused for the first piece that is refused by
itself. Otherwise each piece by itself is a map of one entry, and the map of the clause holds these
entries, of those with the same name the last one. -/
theorem parse_pieces (limit : DepthLimit) (text : List Char) :
    (∀ fault, parse limit text = .error fault ↔
      ∃ before piece after, splitOutside ',' text = before ++ piece :: after ∧
        (∀ earlier ∈ before, ∃ map, parse limit earlier = .ok map) ∧
        parse limit piece = .error fault) ∧
    ∀ map, parse limit text = .ok map ↔
      ∃ list, List.Forall₂ (fun piece entry => parse limit piece = .ok [entry])
        (splitOutside ',' text) list ∧ NameMap.LastWins list map := by
  constructor
  · intro fault
    simp only [parse_eq_error_iff, exists_parse_iff]
    exact entries_eq_error_iff_pieces
  · intro map
    simp only [← entries_eq_ok_iff_pieces, NameMap.lastWins_iff]
    exact map_eq_ok_iff

/-- The last piece replaces the entry of the first one; a group that does not end keeps the comma
behind its `(`. -/
theorem parse_pieces_replaced :
    parse none "A($select=x,y), B,A".toList = .ok [("A", .bare), ("B", .bare)] ∧
      parse none "A,B(,C".toList = .error .unclosedGroup := by
  have hcut : splitOutside ',' "A($select=x,y), B,A".toList =
      ["A($select=x,y)".toList, " B".toList, "A".toList] := by
    decide +kernel
  have hunclosed : splitOutside ',' "A,B(,C".toList = ["A".toList, "B(,C".toList] := by
    decide +kernel
  constructor
  · refine ((parse_pieces none _).2 _).2
      ⟨[("A", { select := some ["x", "y"] }), ("B", .bare), ("A", .bare)], ?_, ?_⟩
    · rw [hcut]
      exact .cons (by decide +kernel) (.cons (by decide +kernel) (.cons (by decide +kernel) .nil))
    · exact NameMap.lastWins_iff.2 (by decide +kernel)
  · refine ((parse_pieces none _).1 _).2 ⟨["A".toList], "B(,C".toList, [], hunclosed, ?_, ?_⟩
    · exact List.forall_mem_singleton.2 ⟨[("A", .bare)], by decide +kernel⟩
    · decide +kernel

end OData.Expand
