import OData.Proofs.Expand.Depth
import OData.Proofs.Form.Escaped
import OData.Proofs.Options

/-!
# A clause inside a group

Every text can be put into a group as its expand clause: escaped, it passes through the parentheses
and the separators of the group untouched, and the one decoding on the way gives it back. What the
group then asks for is what the text says by itself, and so is the fault if it is refused.

Inside the group the text stands one level deeper. It is read as under a limit that is one lower,
and the limit is named as it was set.

## Main statements

* `entries_shift` — reading some levels deeper under a limit that is as much higher
* `parse_inGroup` — a clause in a group
* `nested_transparent` — a clause in any number of groups
-/

namespace OData

/-- The fault as it is reported under a limit that is higher by some levels. -/
def Fault.raise (levels : Nat) : Fault → Fault
  | .tooDeep limit => .tooDeep (limit + levels)
  | fault => fault

theorem Fault.raise_zero (fault : Fault) : fault.raise 0 = fault := by
  cases fault <;> rfl

theorem Fault.raise_raise (a b : Nat) (fault : Fault) :
    (fault.raise a).raise b = fault.raise (a + b) := by
  cases fault with
  | tooDeep limit => exact congrArg Fault.tooDeep (Nat.add_assoc limit a b)
  | _ => rfl

theorem DepthLimit.check_shift (limit : DepthLimit) (depth levels : Nat) :
    DepthLimit.check (limit.map (· + levels)) (depth + levels) =
      (limit.check depth).mapError (Fault.raise levels) := by
  cases limit with
  | none => rfl
  | some greatest =>
    simp only [Option.map_some, DepthLimit.check, Nat.add_le_add_iff_right]
    split <;> rfl

namespace Expand

open Text Options

variable {limit : DepthLimit} {depth : Nat}

/-! ## Reading deeper under a higher limit -/

theorem node_shift {levels : Nat} {group : List Char}
    (ih : ∀ clause, (Options.ofGroup group).first? expandKey = some clause →
      ∀ depth, entries (limit.map (· + levels)) (depth + levels) clause =
        (entries limit depth clause).mapError (Fault.raise levels)) (depth : Nat) :
    node (limit.map (· + levels)) (depth + levels) group =
      (node limit depth group).mapError (Fault.raise levels) := by
  rw [node_eq_bind, node_eq_bind, DepthLimit.check_shift, mapError_bind]
  refine congrArg _ (funext fun _ => ?_)
  cases hselect : Select.ofOptions (.ofGroup group) with
  | error fault =>
    obtain rfl := Select.ofOptions_eq_error hselect
    rfl
  | ok select =>
    show nodeClause _ _ group select = (nodeClause _ _ group select).mapError _
    unfold nodeClause
    cases hclause : (Options.ofGroup group).first? expandKey with
    | none => cases select <;> rfl
    | some clause =>
      dsimp only
      rw [ih clause hclause depth, mapError_bind]
      rfl

/-- **A text that stands some levels deeper is read as under a limit that is as much lower.** Only
the limit that a fault names is the higher one. -/
theorem entries_shift (limit : DepthLimit) (levels : Nat) (text : List Char) (depth : Nat) :
    entries (limit.map (· + levels)) (depth + levels) text =
      (entries limit depth text).mapError (Fault.raise levels) := by
  refine (clause_induction
    (P := fun text => ∀ depth, entries (limit.map (· + levels)) (depth + levels) text =
      (entries limit depth text).mapError (Fault.raise levels))
    (Q := fun group => ∀ depth, node (limit.map (· + levels)) (depth + levels) group =
      (node limit depth group).mapError (Fault.raise levels))
    ?_ fun group ih => node_shift ih).1 text depth
  intro text ih depth
  rw [entries_eq_bind, entries_eq_bind]
  cases hitem : readItem text with
  | error fault =>
    rcases readItem_eq_error hitem with rfl | rfl <;> rfl
  | ok item =>
    obtain ⟨hgroup, hrest⟩ := ih item hitem
    have hnode : itemNode (limit.map (· + levels)) (depth + levels) item.group =
        (itemNode limit depth item.group).mapError (Fault.raise levels) := by
      cases hg : item.group with
      | none => rfl
      | some group =>
        have hshift := hgroup group hg (depth + 1)
        rwa [Nat.add_right_comm] at hshift
    show (itemNode _ _ item.group >>= _) = (itemNode _ _ item.group >>= _).mapError _
    rw [hnode, mapError_bind]
    refine congrArg _ (funext fun value => ?_)
    rw [mapError_bind]
    cases hnext : continuation item.after with
    | error fault =>
      obtain rfl := continuation_eq_error hnext
      rfl
    | ok next =>
      cases next with
      | none => rfl
      | some rest =>
        show (entries _ _ rest >>= _) = (entries _ _ rest >>= _).mapError _
        rw [hrest rest hnext depth, mapError_bind]
        rfl

theorem parse_shift (levels : Nat) (text : List Char) :
    (entries (limit.map (· + levels)) levels text).map NameMap.ofEntries =
      (parse limit text).mapError (Fault.raise levels) := by
  have hshift := entries_shift limit levels text 0
  rw [Nat.zero_add] at hshift
  rw [hshift, parse, mapError_map]

/-! ## One group -/

/-- The option that is an escaped clause. -/
def clauseOption (clause : List Char) : List Char := expandKey ++ '=' :: Form.escape clause

/-- A group under a name whose only option is an escaped clause. -/
def inGroup (name : String) (clause : List Char) : List Char :=
  name.toList ++ '(' :: (clauseOption clause ++ [')'])

theorem not_mem_clauseOption {c : Char} (halphanum : c.isAlphanum = false) (hpercent : c ≠ '%')
    (hkey : c ∉ expandKey ++ ['=']) (clause : List Char) : c ∉ clauseOption clause := by
  rw [clauseOption, List.append_cons, List.mem_append]
  rintro (hmem | hmem)
  · exact hkey hmem
  · exact Form.not_mem_escape halphanum hpercent clause hmem

theorem noParens_clauseOption (clause : List Char) : NoParens (clauseOption clause) := by
  intro c hc
  constructor
  · rintro rfl
    exact not_mem_clauseOption (by decide) (by decide) (by decide) clause hc
  · rintro rfl
    exact not_mem_clauseOption (by decide) (by decide) (by decide) clause hc

/-- **The clause comes out of the group as it was before it was escaped.** -/
theorem pairs_clauseOption (clause : List Char) :
    (Options.ofGroup (clauseOption clause)).pairs = [(expandKey, clause)] := by
  have hsemicolon : ';' ∉ clauseOption clause :=
    not_mem_clauseOption (by decide) (by decide) (by decide) clause
  have hamp : '&' ∉ clauseOption clause :=
    not_mem_clauseOption (by decide) (by decide) (by decide) clause
  have hkey : Form.Plain expandKey := by
    have hall : (expandKey.all fun c => c != '%' && c != '+') = true := by decide
    exact fun c hc => by simpa using List.all_eq_true.1 hall c hc
  rw [clauseOption, pairs_ofGroup_option (by decide) hsemicolon hamp, Form.decode_of_plain hkey,
    Form.decode_escape]

theorem readItem_inGroup {name : String} (hname : isIdentifier name.toList = true)
    (clause : List Char) :
    readItem (inGroup name clause) = .ok ⟨name.toList, some (clauseOption clause), []⟩ := by
  have hgroup : Balanced (clauseOption clause) :=
    balanced_of_noParens (noParens_clauseOption clause)
  have hhead : skipWhite (clauseOption clause) = clauseOption clause :=
    skipWhite_eq_self (by rintro c ⟨⟩; decide)
  exact readItem_group hname hgroup hhead []

theorem node_clauseOption (clause : List Char) :
    node limit depth (clauseOption clause) =
      limit.check depth >>= fun _ => (entries limit depth clause).map fun list =>
        { expand := some (NameMap.ofEntries list) } := by
  have hselect : Select.ofOptions (.ofGroup (clauseOption clause)) = .ok none := by
    refine Select.ofOptions_eq_ok_iff.2 (Or.inl ⟨?_, rfl⟩)
    rw [first?, pairs_clauseOption]
    rfl
  have hclause : (Options.ofGroup (clauseOption clause)).first? expandKey = some clause := by
    rw [first?, pairs_clauseOption]
    rfl
  rw [node_eq_bind, hselect]
  refine congrArg _ (funext fun _ => ?_)
  show nodeClause limit depth (clauseOption clause) none = _
  rw [nodeClause, hclause]
  dsimp only
  cases entries limit depth clause <;> rfl

/-- **A clause in a group is read as the clause, under a limit that is higher by one.** -/
theorem parse_inGroup {name : String} (hname : isIdentifier name.toList = true)
    (clause : List Char) :
    parse (limit.map (· + 1)) (inGroup name clause) =
      ((parse limit clause).mapError (Fault.raise 1)).map fun map =>
        [(name, { expand := some map })] := by
  have hcheck : DepthLimit.check (limit.map (· + 1)) 1 = .ok () := by
    have hshift := DepthLimit.check_shift limit 0 1
    rw [Nat.zero_add] at hshift
    rw [hshift, DepthLimit.check_eq_ok_iff.2 (by cases limit <;> simp [DepthLimit.permits])]
    rfl
  rw [← parse_shift, parse, entries_eq_bind, readItem_inGroup hname]
  show Except.map _ (node _ 1 (clauseOption clause) >>= _) = _
  rw [node_clauseOption, hcheck]
  show Except.map _ (Except.map _ (entries _ 1 clause) >>= _) = _
  cases entries (limit.map (· + 1)) 1 clause with
  | error fault => rfl
  | ok list =>
    show Except.ok (NameMap.ofEntries [(String.ofList name.toList, _)]) = _
    rw [String.ofList_toList]
    rfl

/-! ## Any number of groups -/

/-- The clause in groups under the names, the first name outermost, each group escaped with all that
is in it. -/
def nestedText (names : List String) (clause : List Char) : List Char :=
  names.foldr inGroup clause

/-- The map below nodes under the names, the first name outermost. -/
def nestedMap (names : List String) (map : List (String × Expansion)) :
    List (String × Expansion) :=
  names.foldr (fun name inner => [(name, { expand := some inner })]) map

theorem parse_nestedText (limit : DepthLimit) {names : List String}
    (hnames : ∀ name ∈ names, isIdentifier name.toList = true) (clause : List Char) :
    parse (limit.map (· + names.length)) (nestedText names clause) =
      ((parse limit clause).mapError (Fault.raise names.length)).map (nestedMap names) := by
  induction names with
  | nil =>
    have hlimit : limit.map (· + 0) = limit := by cases limit <;> rfl
    have hfault := mapError_eq_self (x := parse limit clause) fun fault _ => Fault.raise_zero fault
    show parse (limit.map (· + 0)) clause = ((parse limit clause).mapError (Fault.raise 0)).map id
    rw [hlimit, hfault]
    cases parse limit clause <;> rfl
  | cons name rest ih =>
    obtain ⟨hname, hrest⟩ := List.forall_mem_cons.1 hnames
    have hlimit :
        limit.map (· + (rest.length + 1)) = (limit.map (· + rest.length)).map (· + 1) := by
      cases limit <;> rfl
    show parse (limit.map (· + (rest.length + 1))) (inGroup name (nestedText rest clause)) = _
    rw [hlimit, parse_inGroup hname, ih hrest]
    cases parse limit clause with
    | error fault =>
      show Except.error ((fault.raise rest.length).raise 1) = Except.error _
      rw [Fault.raise_raise]
      rfl
    | ok map => rfl

/-- **A clause in groups is read as the clause by itself.** Without a limit the map is found below
the names, or the fault is the same. With a limit that is higher by the number of the groups the
same is so, only that a limit named in the fault is the higher one. -/
theorem nested_transparent {names : List String}
    (hnames : ∀ name ∈ names, isIdentifier name.toList = true) (clause : List Char) :
    parse none (nestedText names clause) = (parse none clause).map (nestedMap names) ∧
      ∀ limit, parse (some (limit + names.length)) (nestedText names clause) =
        ((parse (some limit) clause).mapError (Fault.raise names.length)).map
          (nestedMap names) := by
  constructor
  · have hnested := parse_nestedText none hnames clause
    rwa [mapError_eq_self] at hnested
    intro fault hfault
    cases fault with
    | tooDeep limit => exact absurd hfault (parse_none_ne_tooDeep clause limit)
    | _ => rfl
  · intro limit
    exact parse_nestedText (some limit) hnames clause

/-- Two groups around a clause whose own group stands at level three, and around one whose group
does not end. -/
theorem nested_transparent_twice :
    parse none (nestedText ["A", "B"] "C($select=x,%79&$top=+)".toList) =
        .ok (nestedMap ["A", "B"] [("C", { select := some ["x", "y"] })]) ∧
      parse (some 2) (nestedText ["A", "B"] "C($select=x)".toList) = .error (.tooDeep 2) ∧
      parse (some 2) (nestedText ["A", "B"] "é;C(".toList) = .error .malformedExpand ∧
      parse (some 2) (nestedText ["A", "B"] "C(+".toList) = .error .unclosedGroup := by
  have hnames : ∀ name ∈ ["A", "B"], isIdentifier name.toList = true := by decide
  have hrefused {clause fault} (hparse : parse (some 0) clause = .error fault) :
      parse (some 2) (nestedText ["A", "B"] clause) = .error (fault.raise 2) := by
    refine ((nested_transparent hnames clause).2 0).trans ?_
    rw [hparse]
    rfl
  have hparse : parse none "C($select=x,%79&$top=+)".toList =
      .ok [("C", { select := some ["x", "y"] })] := by decide +kernel
  have hdeep : parse (some 0) "C($select=x)".toList = .error (.tooDeep 0) := by decide +kernel
  have hmalformed : parse (some 0) "é;C(".toList = .error .malformedExpand := by decide +kernel
  have hunclosed : parse (some 0) "C(+".toList = .error .unclosedGroup := by decide +kernel
  refine ⟨?_, hrefused hdeep, hrefused hmalformed, hrefused hunclosed⟩
  rw [(nested_transparent hnames _).1, hparse]
  rfl

end Expand

end OData
