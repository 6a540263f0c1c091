import OData.Expand.Clause
import OData.Proofs.Outcome
import OData.Proofs.Text.Words

/-!
# One step of a clause

What a step of reading a clause does, said as far as a proof about clauses needs to know: which
texts give an item and what is left after it, when the clause goes on, and what it takes for a
clause and for a group to be accepted. Nothing after this module opens the reader.

## Main statements

* `readItem_eq_ok_iff` — an item is read off a text just where one stands in front of it
* `entries_eq_ok_iff` and `node_eq_ok_iff` — what accepted clauses and accepted groups consist of
* `clause_induction` — induction along the recursion of clauses and groups
-/

namespace OData.Expand

open Text

variable {limit : DepthLimit} {depth : Nat}

/-! ## Items -/

/-- The text begins with the item, and the item's `after` is what follows. -/
inductive BeginsWith : List Char → Item → Prop
  | bare {before name between after : List Char} (hbefore : AllWhite before)
      (hname : isIdentifier name = true) (hbetween : AllWhite between)
      (hends : ∀ c ∈ (between ++ after).head?, continuesIdentifier c = false)
      (hafter : ∀ c ∈ after.head?, isWhite c = false ∧ c ≠ '(') :
      BeginsWith (before ++ (name ++ (between ++ after))) ⟨name, none, after⟩
  | group {before name between white group after : List Char} (hbefore : AllWhite before)
      (hname : isIdentifier name = true) (hbetween : AllWhite between) (hwhite : AllWhite white)
      (hgroup : Balanced group) (hhead : skipWhite group = group) :
      BeginsWith (before ++ (name ++ (between ++ '(' :: (white ++ (group ++ ')' :: after)))))
        ⟨name, some group, after⟩

theorem BeginsWith.isIdentifier {text : List Char} {item : Item} (h : BeginsWith text item) :
    isIdentifier item.name = true := by
  cases h <;> assumption

/-- No group is open behind an item. -/
theorem BeginsWith.exists_append {text : List Char} {item : Item} (h : BeginsWith text item) :
    ∃ front, text = front ++ item.after ∧ openAfter 0 front = 0 := by
  cases h with
  | @bare before name between after hbefore hname hbetween hends hafter =>
    refine ⟨before ++ name ++ between, by simp, ?_⟩
    have hparens := noParens_of_isIdentifier hname
    simp only [openAfter_append, openAfter_of_noParens hbefore.noParens,
      openAfter_of_noParens hparens, openAfter_of_noParens hbetween.noParens]
  | @group before name between white group after hbefore hname hbetween hwhite hgroup hhead =>
    refine ⟨before ++ name ++ between ++ '(' :: (white ++ group ++ [')']), by simp, ?_⟩
    have hparens := noParens_of_isIdentifier hname
    simp only [openAfter_append, openAfter_cons, openAfter_nil, depthAfter_open, depthAfter_close,
      openAfter_of_noParens hbefore.noParens, openAfter_of_noParens hparens,
      openAfter_of_noParens hbetween.noParens, openAfter_of_noParens hwhite.noParens,
      hgroup.openAfter_eq]

theorem takeIdentifier?_rest_head {text name rest : List Char}
    (h : takeIdentifier? text = some (name, rest)) :
    ∀ c ∈ rest.head?, continuesIdentifier c = false := by
  cases text with
  | nil => simp [takeIdentifier?] at h
  | cons first tail =>
    rw [takeIdentifier?] at h
    split at h
    · obtain ⟨-, rfl⟩ : _ ∧ tail.dropWhile continuesIdentifier = rest := by simpa using h
      intro c hc
      have := List.head?_dropWhile_not continuesIdentifier tail
      rw [Option.mem_def.1 hc] at this
      exact this
    · cases h

theorem beginsWith_of_readItem {text : List Char} {item : Item} (h : readItem text = .ok item) :
    BeginsWith text item := by
  obtain ⟨before, hbefore, htext⟩ := exists_white_append text
  unfold readItem at h
  split at h
  · cases h
  · rename_i name rest hname
    obtain ⟨between, hbetween, hrest⟩ := exists_white_append rest
    have hidentifier := isIdentifier_of_takeIdentifier? hname
    have hends := takeIdentifier?_rest_head hname
    rw [← takeIdentifier?_append hname] at htext
    rw [htext]
    split at h
    · rename_i inside hinside
      obtain ⟨white, hwhite, hin⟩ := exists_white_append inside
      split at h
      · cases h
      · rename_i group after hgroup
        obtain rfl := Except.ok.inj h
        obtain ⟨hcut, hbalanced⟩ := splitGroup?_eq_some_iff.1 hgroup
        have hhead : skipWhite group = group := by
          -- the `)` is no white space, so skipping in front of it is skipping in the group
          have := skipWhite_skipWhite inside
          rw [hcut, skipWhite_append_cons (by decide)] at this
          exact List.append_cancel_right this
        rw [hrest, hinside, hin, hcut]
        exact .group hbefore hidentifier hbetween hwhite hbalanced hhead
    · -- no group follows, so the white space behind the name is skipped but not lost
      rename_i hnot
      obtain rfl := Except.ok.inj h
      have hafter : ∀ c ∈ (skipWhite rest).head?, isWhite c = false ∧ c ≠ '(' := by
        intro c hc
        refine ⟨isWhite_head_skipWhite rest c hc, ?_⟩
        rintro rfl
        obtain ⟨tail, htail⟩ := List.head?_eq_some_iff.1 (Option.mem_def.1 hc)
        exact hnot tail htail
      rw [hrest] at hends
      have hitem := BeginsWith.bare hbefore hidentifier hbetween hends hafter
      rwa [← hrest] at hitem

/-- Behind a name and a `(` the end of the group decides. -/
theorem readItem_open {before name between : List Char} (hbefore : AllWhite before)
    (hname : isIdentifier name = true) (hbetween : AllWhite between) (inside : List Char) :
    readItem (before ++ (name ++ (between ++ '(' :: inside))) =
      match splitGroup? (skipWhite inside) with
      | none => .error .unclosedGroup
      | some (group, after) => .ok ⟨name, some group, after⟩ := by
  have hends : ∀ c ∈ (between ++ '(' :: inside).head?, continuesIdentifier c = false := by
    refine head_of_allWhite hbetween ?_
    rintro c ⟨⟩
    decide
  have hskip : skipWhite (between ++ '(' :: inside) = '(' :: inside := by
    rw [skipWhite_append hbetween]
    exact skipWhite_eq_self (by simp; decide)
  rw [readItem, skipWhite_append hbefore, skipWhite_eq_self (head_of_isIdentifier hname _),
    takeIdentifier?_append_eq hname hends]
  dsimp only
  rw [hskip]
  split
  · rename_i inside' hcut
    obtain rfl := (List.cons.inj hcut).2
    rfl
  · rename_i hnot
    exact absurd rfl (hnot _)

theorem readItem_of_beginsWith {text : List Char} {item : Item} (h : BeginsWith text item) :
    readItem text = .ok item := by
  cases h with
  | @bare before name between after hbefore hname hbetween hends hafter =>
    have hskip : skipWhite (between ++ after) = after := by
      rw [skipWhite_append hbetween]
      exact skipWhite_eq_self fun c hc => (hafter c hc).1
    rw [readItem, skipWhite_append hbefore, skipWhite_eq_self (head_of_isIdentifier hname _),
      takeIdentifier?_append_eq hname hends]
    dsimp only
    rw [hskip]
    split
    · exact absurd rfl (hafter '(' rfl).2
    · rfl
  | @group before name between white group after hbefore hname hbetween hwhite hgroup hhead =>
    have hinside : skipWhite (white ++ (group ++ ')' :: after)) = group ++ ')' :: after := by
      rw [skipWhite_append hwhite, skipWhite_append_cons (by decide), hhead]
    rw [readItem_open hbefore hname hbetween, hinside, splitGroup?_eq_some_iff.2 ⟨rfl, hgroup⟩]

/-- **An item is read off a text just where one stands in front of it.** -/
theorem readItem_eq_ok_iff {text : List Char} {item : Item} :
    readItem text = .ok item ↔ BeginsWith text item :=
  ⟨beginsWith_of_readItem, readItem_of_beginsWith⟩

/-- A name with a group right behind it, and anything behind the group. -/
theorem readItem_group {name group : List Char} (hname : isIdentifier name = true)
    (hgroup : Balanced group) (hhead : skipWhite group = group) (rest : List Char) :
    readItem (name ++ '(' :: (group ++ ')' :: rest)) = .ok ⟨name, some group, rest⟩ :=
  readItem_of_beginsWith (.group allWhite_nil hname allWhite_nil allWhite_nil hgroup hhead)

/-- A name and nothing else but white space. -/
theorem readItem_bare {before name after : List Char} (hbefore : AllWhite before)
    (hname : isIdentifier name = true) (hafter : AllWhite after) :
    readItem (before ++ (name ++ after)) = .ok ⟨name, none, []⟩ := by
  have hends : ∀ c ∈ (after ++ []).head?, continuesIdentifier c = false :=
    head_of_allWhite hafter nofun
  have hitem : BeginsWith (before ++ (name ++ (after ++ []))) ⟨name, none, []⟩ :=
    .bare hbefore hname hafter hends nofun
  rw [List.append_nil] at hitem
  exact readItem_of_beginsWith hitem

theorem readItem_eq_error {text : List Char} {fault : Fault} (h : readItem text = .error fault) :
    fault = .malformedExpand ∨ fault = .unclosedGroup := by
  unfold readItem at h
  split at h
  · exact Or.inl (Except.error.inj h).symm
  · split at h
    · split at h
      · exact Or.inr (Except.error.inj h).symm
      · cases h
    · cases h

/-- The text begins with a name and the `(` of a group that has no end. -/
def OpensUnclosed (text : List Char) : Prop :=
  ∃ before name between inside, AllWhite before ∧ isIdentifier name = true ∧ AllWhite between ∧
    splitGroup? inside = none ∧ text = before ++ (name ++ (between ++ '(' :: inside))

/-- **A group is reported as unclosed just where one without an end stands in front.** -/
theorem readItem_eq_unclosed_iff {text : List Char} :
    readItem text = .error .unclosedGroup ↔ OpensUnclosed text := by
  constructor
  · intro h
    obtain ⟨before, hbefore, htext⟩ := exists_white_append text
    unfold readItem at h
    split at h
    · nomatch h
    · rename_i name rest hname
      obtain ⟨between, hbetween, hrest⟩ := exists_white_append rest
      split at h
      · rename_i inside hinside
        split at h
        · rename_i hgroup
          refine ⟨before, name, between, inside, hbefore, isIdentifier_of_takeIdentifier? hname,
            hbetween, splitGroup?_eq_none_of_skipWhite hgroup, ?_⟩
          rw [htext, ← takeIdentifier?_append hname, hrest, hinside]
        · nomatch h
      · nomatch h
  · rintro ⟨before, name, between, inside, hbefore, hname, hbetween, hinside, rfl⟩
    rw [readItem_open hbefore hname hbetween, splitGroup?_skipWhite_eq_none hinside]

/-- **A group without an end has no `)` where the text behind its `(` is balanced.** -/
theorem exists_open_of_unclosed {text : List Char} (h : readItem text = .error .unclosedGroup) :
    ∃ front inside, text = front ++ '(' :: inside ∧ openAfter 0 front = 0 ∧
      splitGroup? inside = none := by
  obtain ⟨before, name, between, inside, hbefore, hname, hbetween, hinside, rfl⟩ :=
    readItem_eq_unclosed_iff.1 h
  refine ⟨before ++ name ++ between, inside, by simp, ?_, hinside⟩
  simp only [openAfter_append, openAfter_of_noParens hbefore.noParens,
    openAfter_of_noParens (noParens_of_isIdentifier hname),
    openAfter_of_noParens hbetween.noParens]

/-- Such a group is still open behind the text. -/
theorem openAfter_pos_of_unclosed {text : List Char} (h : readItem text = .error .unclosedGroup) :
    0 < openAfter 0 text := by
  obtain ⟨front, inside, rfl, hfront, hinside⟩ := exists_open_of_unclosed h
  rw [openAfter_append, hfront, openAfter_cons, depthAfter_open]
  exact openAfter_pos_of_splitGroupFrom? hinside

/-! ## What follows an item -/

theorem continuation_eq_none_iff {text : List Char} :
    continuation text = .ok none ↔ AllWhite text := by
  constructor
  · intro h
    unfold continuation at h
    split at h
    · rename_i hskip
      obtain ⟨white, hwhite, htext⟩ := exists_white_append text
      rw [htext, hskip, List.append_nil]
      exact hwhite
    · cases h
    · cases h
  · intro h
    rw [continuation, skipWhite_of_allWhite h]

theorem continuation_eq_some_iff {text rest : List Char} :
    continuation text = .ok (some rest) ↔
      ∃ white, AllWhite white ∧ text = white ++ ',' :: rest := by
  constructor
  · intro h
    unfold continuation at h
    split at h
    · cases h
    · rename_i tail hskip
      obtain rfl := Option.some.inj (Except.ok.inj h)
      obtain ⟨white, hwhite, htext⟩ := exists_white_append text
      exact ⟨white, hwhite, htext.trans (by rw [hskip])⟩
    · cases h
  · rintro ⟨white, hwhite, rfl⟩
    have hskip : skipWhite (white ++ ',' :: rest) = ',' :: rest := by
      rw [skipWhite_append hwhite]
      exact skipWhite_eq_self (by simp; decide)
    rw [continuation, hskip]
    rfl

theorem continuation_eq_error {text : List Char} {fault : Fault}
    (h : continuation text = .error fault) : fault = .malformedExpand := by
  unfold continuation at h
  split at h
  · cases h
  · cases h
  · exact (Except.error.inj h).symm

/-! ## Clauses and groups -/

/-- What an item asks for, read off the inside of its group if it has one. -/
def itemNode (limit : DepthLimit) (depth : Nat) : Option (List Char) → Except Fault Expansion
  | none => .ok .bare
  | some group => node limit (depth + 1) group

theorem entries_eq_bind (text : List Char) :
    entries limit depth text =
      readItem text >>= fun item => itemNode limit depth item.group >>= fun value =>
        continuation item.after >>= fun next =>
          match next with
          | none => pure [(String.ofList item.name, value)]
          | some rest => entries limit depth rest >>= fun tail =>
              pure ((String.ofList item.name, value) :: tail) := by
  rw [entries_eq]
  refine congrArg _ (funext fun item => ?_)
  cases item.group <;> rfl

/-- A clause of one item is what the item asks for. -/
theorem entries_of_readItem {text name after : List Char} {group : Option (List Char)}
    (h : readItem text = .ok ⟨name, group, after⟩) (hafter : AllWhite after) :
    entries limit depth text =
      (itemNode limit depth group).map fun value => [(String.ofList name, value)] := by
  rw [entries_eq_bind, h]
  show (itemNode limit depth group >>= _) = _
  cases itemNode limit depth group with
  | error fault => rfl
  | ok value =>
    show (continuation after >>= _) = _
    rw [continuation_eq_none_iff.2 hafter]
    rfl

/-- **A clause is accepted when its first item is, and the rest of the clause if it goes on.** -/
theorem entries_eq_ok_iff {text : List Char} {list : List (String × Expansion)} :
    entries limit depth text = .ok list ↔
      ∃ item value, readItem text = .ok item ∧ itemNode limit depth item.group = .ok value ∧
        ((continuation item.after = .ok none ∧ list = [(String.ofList item.name, value)]) ∨
          ∃ rest tail, continuation item.after = .ok (some rest) ∧
            entries limit depth rest = .ok tail ∧
            list = (String.ofList item.name, value) :: tail) := by
  rw [entries_eq_bind, bind_eq_ok_iff]
  constructor
  · rintro ⟨item, hitem, hrest⟩
    obtain ⟨value, hnode, hrest⟩ := bind_eq_ok_iff.1 hrest
    obtain ⟨next, hnext, hlist⟩ := bind_eq_ok_iff.1 hrest
    refine ⟨item, value, hitem, hnode, ?_⟩
    cases next with
    | none => exact Or.inl ⟨hnext, (pure_eq_ok_iff.1 hlist).symm⟩
    | some rest =>
      obtain ⟨tail, htail, heq⟩ := bind_eq_ok_iff.1 hlist
      exact Or.inr ⟨rest, tail, hnext, htail, (pure_eq_ok_iff.1 heq).symm⟩
  · rintro ⟨item, value, hitem, hnode, hrest⟩
    refine ⟨item, hitem, bind_eq_ok_iff.2 ⟨value, hnode, bind_eq_ok_iff.2 ?_⟩⟩
    rcases hrest with ⟨hnext, rfl⟩ | ⟨rest, tail, hnext, htail, rfl⟩
    · exact ⟨none, hnext, rfl⟩
    · exact ⟨some rest, hnext, bind_eq_ok_iff.2 ⟨tail, htail, rfl⟩⟩

/-- What a group asks for when its field list is known. -/
def nodeClause (limit : DepthLimit) (depth : Nat) (group : List Char)
    (select : Option (List String)) : Except Fault Expansion :=
  match (Options.ofGroup group).first? Options.expandKey with
  | none => if select.isNone then .error .emptyGroup else .ok { select }
  | some clause => entries limit depth clause >>= fun list =>
      pure { select, expand := some (NameMap.ofEntries list) }

theorem node_eq_bind (group : List Char) :
    node limit depth group =
      limit.check depth >>= fun _ => Select.ofOptions (.ofGroup group) >>= fun select =>
        nodeClause limit depth group select := by
  rw [node_eq]
  refine congrArg _ (funext fun _ => congrArg _ (funext fun select => ?_))
  dsimp only [nodeClause]
  cases (Options.ofGroup group).first? Options.expandKey <;> rfl

theorem nodeClause_eq_ok_iff {group : List Char} {select : Option (List String)}
    {value : Expansion} :
    nodeClause limit depth group select = .ok value ↔
      ((Options.ofGroup group).first? Options.expandKey = none ∧ select.isSome = true ∧
          value = { select }) ∨
        ∃ clause list, (Options.ofGroup group).first? Options.expandKey = some clause ∧
          entries limit depth clause = .ok list ∧
          value = { select, expand := some (NameMap.ofEntries list) } := by
  unfold nodeClause
  cases (Options.ofGroup group).first? Options.expandKey with
  | none => cases select <;> simp [eq_comm]
  | some clause =>
    rw [bind_eq_ok_iff]
    constructor
    · rintro ⟨list, hlist, heq⟩
      exact Or.inr ⟨clause, list, rfl, hlist, (pure_eq_ok_iff.1 heq).symm⟩
    · rintro (⟨h, -⟩ | ⟨other, list, hother, hlist, rfl⟩)
      · nomatch h
      · obtain rfl := Option.some.inj hother
        exact ⟨list, hlist, rfl⟩

/-- **A group is accepted at a depth that the limit permits, when its field list and its clause are
accepted and it has one of the two at least.** -/
theorem node_eq_ok_iff {group : List Char} {value : Expansion} :
    node limit depth group = .ok value ↔
      limit.permits depth = true ∧
      ∃ select, Select.ofOptions (.ofGroup group) = .ok select ∧
        (((Options.ofGroup group).first? Options.expandKey = none ∧ select.isSome = true ∧
            value = { select }) ∨
          ∃ clause list, (Options.ofGroup group).first? Options.expandKey = some clause ∧
            entries limit depth clause = .ok list ∧
            value = { select, expand := some (NameMap.ofEntries list) }) := by
  simp only [node_eq_bind, bind_eq_ok_iff, nodeClause_eq_ok_iff]
  rw [← DepthLimit.check_eq_ok_iff]
  constructor
  · rintro ⟨⟨⟩, hdepth, hrest⟩
    exact ⟨hdepth, hrest⟩
  · rintro ⟨hdepth, hrest⟩
    exact ⟨(), hdepth, hrest⟩

theorem nodeClause_eq_error_iff {group : List Char} {select : Option (List String)}
    {fault : Fault} :
    nodeClause limit depth group select = .error fault ↔
      ((Options.ofGroup group).first? Options.expandKey = none ∧ select = none ∧
          fault = .emptyGroup) ∨
        ∃ clause, (Options.ofGroup group).first? Options.expandKey = some clause ∧
          entries limit depth clause = .error fault := by
  unfold nodeClause
  cases (Options.ofGroup group).first? Options.expandKey with
  | none => cases select <;> simp [eq_comm]
  | some clause => simp [bind_eq_error_iff, pure, Except.pure]

/-- **A group is refused for its depth, then for its field list, then for its clause or for having
neither of the two.** -/
theorem node_eq_error_iff {group : List Char} {fault : Fault} :
    node limit depth group = .error fault ↔
      limit.check depth = .error fault ∨
      limit.permits depth = true ∧
        (Select.ofOptions (.ofGroup group) = .error fault ∨
          ∃ select, Select.ofOptions (.ofGroup group) = .ok select ∧
            nodeClause limit depth group select = .error fault) := by
  rw [node_eq_bind, bind_eq_error_iff, ← DepthLimit.check_eq_ok_iff]
  refine or_congr_right ?_
  rw [← bind_eq_error_iff]
  constructor
  · rintro ⟨⟨⟩, hdepth, hrest⟩
    exact ⟨hdepth, hrest⟩
  · rintro ⟨hdepth, hrest⟩
    exact ⟨(), hdepth, hrest⟩

/-! ## Induction -/

/-- A clause is shorter than the group it stands in, by its key at least. -/
theorem byteLength_clause_lt {group clause : List Char}
    (h : (Options.ofGroup group).first? Options.expandKey = some clause) :
    byteLength clause < byteLength group := by
  have hle := Options.byteLength_first?_le h
  rw [Options.byteLength_expandKey] at hle
  omega

/-- **What holds of a clause when it holds of the group of its first item and of the rest of it, and
of a group when it holds of its clause, holds of all clauses and groups.** -/
theorem clause_induction {P Q : List Char → Prop}
    (clause : ∀ text, (∀ item, readItem text = .ok item →
      (∀ group, item.group = some group → Q group) ∧
        ∀ rest, continuation item.after = .ok (some rest) → P rest) → P text)
    (group : ∀ inner, (∀ text, (Options.ofGroup inner).first? Options.expandKey = some text →
      P text) → Q inner) :
    (∀ text, P text) ∧ ∀ inner, Q inner := by
  have hsize : ∀ n text, byteLength text < n → P text ∧ Q text := by
    intro n
    induction n with
    | zero => intro text h; omega
    | succ n ih =>
      -- the clause of a group that is below the bound is one below it, so the group comes first
      have hgroup : ∀ inner, byteLength inner < n + 1 → Q inner := by
        intro inner h
        refine group inner fun text htext => (ih text ?_).1
        have := byteLength_clause_lt htext
        omega
      intro text h
      refine ⟨clause text fun item hitem => ⟨fun inner hinner => ?_, ?_⟩, hgroup text h⟩
      · have := byteLength_group_lt hitem hinner
        exact hgroup inner (by omega)
      · intro rest hrest
        have hafter := byteLength_after_lt hitem
        have hlt := byteLength_continuation_le hrest
        exact (ih rest (by omega)).1
  exact ⟨fun text => (hsize _ text (Nat.lt_succ_self _)).1,
    fun inner => (hsize _ inner (Nat.lt_succ_self _)).2⟩

end OData.Expand
