import OData.Proofs.Expand.Spacing

/-!
# White space around the semicolons of a group

The options of a group are cut at its semicolons and not trimmed. White space behind an option is
white space behind its value, and makes no difference. White space in front of an option is white
space in front of its key, and keys are compared as they are: the option is there, but it is none of
the two that are read. A field list or a clause is lost in this way, and no fault is reported. Only
in front of the first option of a group is white space skipped, as it stands behind the `(`.

## Main statements

* `PaddedOption.keyOf_padded` — which of the options are found under the keys that are read
* `options_behind_white_ignored` — a group is read as if the others were not written
* `option_behind_white_lost` — so it makes a difference to the group
-/

namespace OData.Expand

open Text Options

variable {limit : DepthLimit} {depth : Nat}

/-! ## Keys -/

/-- White space in front of an option belongs to its key. -/
theorem keyOf_cons_of_isWhite {c : Char} (hc : isWhite c = true) (text : List Char) :
    keyOf (c :: text) = c :: keyOf text := by
  have hequals : (c != '=') = true := bne_iff_ne.2 (ne_of_isWhite hc (by decide))
  rw [keyOf, List.takeWhile_cons, if_pos hequals,
    Form.decode_cons_of_ne (ne_of_isWhite hc (by decide)) (ne_of_isWhite hc (by decide)), keyOf]

/-! ## Options with white space around them -/

/-- An option with a value, and the white space between it and the semicolons of its group. -/
structure PaddedOption where
  before : List Char
  text : List Char
  after : List Char
  white_before : AllWhite before
  white_after : AllWhite after
  alone : StandsAlone text
  value : '=' ∈ text

namespace PaddedOption

/-- The option with its white space. -/
def padded (option : PaddedOption) : List Char := option.before ++ (option.text ++ option.after)

/-- Nothing stands between the option and the semicolon before it. -/
def adjoins (option : PaddedOption) : Bool := option.before.isEmpty

/-- The option adjoins and has the key. -/
def hasKey (key : List Char) (option : PaddedOption) : Bool :=
  option.adjoins && keyOf option.text == key

variable {option : PaddedOption}

theorem padded_of_adjoins (h : option.adjoins = true) :
    option.padded = option.text ++ option.after := by
  rw [padded, List.isEmpty_iff.1 h, List.nil_append]

theorem balanced_padded (option : PaddedOption) : Balanced option.padded :=
  (balanced_of_noParens option.white_before.noParens).append
    (option.alone.balanced.append (balanced_of_noParens option.white_after.noParens))

theorem enclosed_padded (option : PaddedOption) : Enclosed ';' option.padded := by
  have htext : Enclosed ';' option.text :=
    ⟨option.alone.balanced.not_standsOutside_iff.2 option.alone.inside,
      option.alone.balanced.openAfter_eq 0⟩
  exact (enclosed_of_allWhite (by decide) option.white_before).append
    (htext.append (enclosed_of_allWhite (by decide) option.white_after))

theorem not_mem_padded (option : PaddedOption) : '&' ∉ option.padded := by
  simp [padded, option.alone.ampersand, option.white_before.not_mem (c := '&') (by decide),
    option.white_after.not_mem (c := '&') (by decide)]

/-- White space behind an option is behind its value. -/
theorem pairOf_padded (h : option.adjoins = true) :
    Form.pairOf option.padded =
      ((Form.pairOf option.text).1, (Form.pairOf option.text).2 ++ option.after) := by
  rw [padded_of_adjoins h, Form.pairOf_append_white option.value option.white_after]

theorem keyOf_padded_ne (h : option.adjoins = false) {key : List Char} (hkey : key ∈ clauseKeys) :
    keyOf option.padded ≠ key := by
  obtain ⟨c, rest, hbefore⟩ :=
    List.exists_cons_of_ne_nil (show option.before ≠ [] from List.isEmpty_eq_false_iff.1 h)
  have hc : isWhite c = true := option.white_before c (by simp [hbefore])
  rw [padded, hbefore, List.cons_append, keyOf_cons_of_isWhite hc]
  -- the keys that are read begin with a `$`
  have hdollar : ∀ k ∈ clauseKeys, k.head? = some '$' := by decide
  rintro rfl
  exact ne_of_isWhite hc (by decide) (Option.some.inj (hdollar _ hkey))

/-- **An option is found under one of the two keys just when it adjoins and has the key.** -/
theorem keyOf_padded {key : List Char} (hkey : key ∈ clauseKeys) (option : PaddedOption) :
    (keyOf option.padded == key) = option.hasKey key := by
  cases h : option.adjoins with
  | false => simp [hasKey, h, keyOf_padded_ne h hkey]
  | true =>
    have hpair : keyOf option.padded = keyOf option.text := congrArg Prod.fst (pairOf_padded h)
    simp [hasKey, h, hpair]

end PaddedOption

open PaddedOption

/-! ## Groups -/

variable {options : List PaddedOption}

/-- **Of the options of a group, the ones that adjoin are found**, with the white space behind them
in their values. -/
theorem first?_padded (hne : options ≠ []) {key : List Char} (hkey : key ∈ clauseKeys) :
    (ofGroup ([';'].intercalate (options.map padded))).first? key =
      (options.find? (hasKey key)).map fun option => (Form.pairOf option.text).2 ++ option.after := by
  have houter : OuterPieces ';' ([';'].intercalate (options.map padded)) (options.map padded) :=
    { ne_nil := by simpa using hne
      joined := rfl
      balanced := List.forall_mem_map.2 fun option _ => option.balanced_padded
      inside := List.forall_mem_map.2 fun option _ =>
        option.balanced_padded.not_standsOutside_iff.1 option.enclosed_padded.1 }
  have hamp : ∀ text ∈ options.map padded, '&' ∉ text :=
    List.forall_mem_map.2 fun option _ => option.not_mem_padded
  rw [first?_of_outerPieces houter hamp (ne_nil_of_mem_clauseKeys hkey), List.find?_map,
    Option.map_map, show (keyOf · == key) ∘ padded = hasKey key from funext (keyOf_padded hkey)]
  refine Option.map_congr fun option hoption => ?_
  have hkeyed := List.find?_some hoption
  exact congrArg Prod.snd (pairOf_padded (Bool.and_eq_true_iff.1 hkeyed).1)

/-- The options as they are without white space, less those with white space in front of them. -/
def keptTexts (options : List PaddedOption) : List (List Char) :=
  (options.filter adjoins).map text

theorem standsAlone_keptTexts : ∀ text ∈ keptTexts options, StandsAlone text :=
  List.forall_mem_map.2 fun option _ => option.alone

theorem first?_keptTexts {key : List Char} (hkey : key ∈ clauseKeys) :
    (ofGroup ([';'].intercalate (keptTexts options))).first? key =
      (options.find? (hasKey key)).map fun option => (Form.pairOf option.text).2 := by
  rw [first?_ofGroup_intercalate standsAlone_keptTexts (ne_nil_of_mem_clauseKeys hkey), keptTexts,
    List.find?_map, List.find?_filter, Option.map_map]
  simp only [Function.comp_def, Bool.decide_and, Bool.decide_eq_true]
  rfl

theorem sameValues_padded (hne : options ≠ []) :
    SameValues (.ofGroup ([';'].intercalate (keptTexts options)))
      (.ofGroup ([';'].intercalate (options.map padded))) := by
  intro key hkey
  rw [first?_padded hne hkey, first?_keptTexts hkey]
  cases options.find? (hasKey key) with
  | none => exact ⟨[], allWhite_nil, rfl⟩
  | some option => exact ⟨option.after, option.white_after, rfl⟩

/-- **A group is read as if the options with white space in front of them were not written.** -/
theorem node_padded (hne : options ≠ []) :
    node limit depth ([';'].intercalate (options.map padded)) =
      node limit depth ([';'].intercalate (keptTexts options)) :=
  node_of_sameValues (sameValues_padded hne)

theorem keptTexts_eq (h : ∀ option ∈ options, option.before = []) :
    keptTexts options = options.map text := by
  have hadjoin : ∀ option ∈ options, option.adjoins = true :=
    fun option hoption => List.isEmpty_iff.2 (h option hoption)
  rw [keptTexts, List.filter_eq_self.2 hadjoin]

/-! ## Clauses -/

/-- The white space behind the options does not reach the front of the group. -/
theorem head_padded (hfirst : ∀ option ∈ options.head?, option.before = []) :
    ∀ text ∈ (options.map padded).head?, ∀ c ∈ text.head?, isWhite c = false := by
  cases options with
  | nil => nofun
  | cons first rest =>
    obtain ⟨c, tail, htext⟩ := List.exists_cons_of_ne_nil (List.ne_nil_of_mem first.value)
    have hpadded : first.padded = c :: (tail ++ first.after) := by
      rw [padded, hfirst first rfl, htext]
      rfl
    simpa [hpadded] using first.alone.head c (by simp [htext])

theorem entries_padded {name : List Char} (hname : isIdentifier name = true)
    (hfirst : ∀ option ∈ options.head?, option.before = []) (rest : List Char) :
    entries limit depth (groupItem name (options.map padded) ++ rest) =
      entries limit depth (groupItem name (keptTexts options) ++ rest) := by
  cases options with
  | nil => rfl
  | cons first others =>
    have hbalanced : ∀ text ∈ (first :: others).map padded, Balanced text :=
      List.forall_mem_map.2 fun option _ => option.balanced_padded
    rw [entries_eq_bind, entries_eq_bind,
      readItem_groupItem hname hbalanced (head_padded hfirst),
      readItem_standsAlone hname standsAlone_keptTexts]
    show (node limit (depth + 1) _ >>= _) = (node limit (depth + 1) _ >>= _)
    rw [node_padded (List.cons_ne_nil first others)]

/-- **White space between a `;` and the option behind it hides the option.** The clause is read, or
refused, as if just these options were not written. White space between an option and the `;` behind
it makes no difference. -/
theorem options_behind_white_ignored (limit : DepthLimit) {name : List Char}
    (hname : isIdentifier name = true) (options : List PaddedOption)
    (hfirst : ∀ option ∈ options.head?, option.before = []) :
    parse limit (groupItem name (options.map padded)) =
        parse limit (groupItem name (keptTexts options)) ∧
      (∀ depth rest, entries limit depth (groupItem name (options.map padded) ++ rest) =
        entries limit depth (groupItem name (keptTexts options) ++ rest)) ∧
      ((∀ option ∈ options, option.before = []) →
        parse limit (groupItem name (options.map padded)) =
          parse limit (groupItem name (options.map text))) := by
  have hentries : ∀ depth rest, entries limit depth (groupItem name (options.map padded) ++ rest) =
      entries limit depth (groupItem name (keptTexts options) ++ rest) :=
    fun _ => entries_padded hname hfirst
  have hparse : parse limit (groupItem name (options.map padded)) =
      parse limit (groupItem name (keptTexts options)) := by
    have hwhole := hentries 0 []
    rw [List.append_nil, List.append_nil] at hwhole
    exact congrArg (Except.map NameMap.ofEntries) hwhole
  refine ⟨hparse, hentries, fun hadjoin => ?_⟩
  rw [hparse, keptTexts_eq hadjoin]

/-- Behind a hidden clause the next one is found, and without white space in front of an option all
of them are. -/
theorem options_behind_white_ignored_twice :
    parse none "A($select=a ; $expand=B;$expand=C)".toList =
        parse none "A($select=a;$expand=C)".toList ∧
      parse none "A($select=a;$expand=C)".toList =
        .ok [("A", ⟨some ["a"], some [("C", .bare)]⟩)] ∧
      parse none "A($select=a ;$expand=B\t;$expand=C)".toList =
        parse none "A($select=a;$expand=B;$expand=C)".toList ∧
      parse none "A($select=a;$expand=B;$expand=C)".toList =
        .ok [("A", ⟨some ["a"], some [("B", .bare)]⟩)] := by
  have hname : isIdentifier ['A'] = true := by decide
  have hnone : AllWhite [] := allWhite_nil
  have hblank : AllWhite [' '] := by decide
  have htab : AllWhite ['\t'] := by decide
  have halone : ∀ text ∈ ["$select=a".toList, "$expand=B".toList, "$expand=C".toList],
      StandsAlone text := by decide +kernel
  let fields : PaddedOption :=
    ⟨[], "$select=a".toList, [' '], hnone, hblank, halone _ (by decide), by decide⟩
  let hidden : PaddedOption :=
    ⟨[' '], "$expand=B".toList, [], hblank, hnone, halone _ (by decide), by decide⟩
  let clause : PaddedOption :=
    ⟨[], "$expand=B".toList, ['\t'], hnone, htab, halone _ (by decide), by decide⟩
  let last : PaddedOption :=
    ⟨[], "$expand=C".toList, [], hnone, hnone, halone _ (by decide), by decide⟩
  have hhidden := options_behind_white_ignored none hname [fields, hidden, last]
    (by rintro option ⟨⟩; rfl)
  have hall := options_behind_white_ignored none hname [fields, clause, last]
    (by rintro option ⟨⟩; rfl)
  refine ⟨hhidden.1, by decide +kernel, hall.2.2 ?_, by decide +kernel⟩
  simp [fields, clause, last]

/-- White space around the semicolons is not without effect: behind a semicolon it hides the clause
of a group that has a field list and a clause. -/
theorem option_behind_white_lost :
    ¬ ∀ (limit : DepthLimit) (name : List Char) (options : List PaddedOption),
      isIdentifier name = true →
      (∀ option ∈ options, ∃ key ∈ clauseKeys, ∃ value, option.text = key ++ '=' :: value) →
      (∀ option ∈ options.head?, option.before = []) →
      (∀ option ∈ options.getLast?, option.after = []) →
        parse limit (groupItem name (options.map padded)) =
          parse limit (groupItem name (options.map text)) := by
  intro h
  have hnone : AllWhite [] := allWhite_nil
  have hblank : AllWhite [' '] := by decide
  let fields : PaddedOption :=
    ⟨[], "$select=a".toList, [], hnone, hnone, by decide +kernel, by decide⟩
  let hidden : PaddedOption :=
    ⟨[' '], "$expand=B".toList, [], hblank, hnone, by decide +kernel, by decide⟩
  have hkeys : ∀ option ∈ [fields, hidden],
      ∃ key ∈ clauseKeys, ∃ value, option.text = key ++ '=' :: value :=
    List.forall_mem_cons.2 ⟨⟨selectKey, by decide, ['a'], rfl⟩,
      List.forall_mem_singleton.2 ⟨expandKey, by decide, ['B'], rfl⟩⟩
  have hsame : parse none "A($select=a; $expand=B)".toList =
      parse none "A($select=a;$expand=B)".toList :=
    h none ['A'] [fields, hidden] (by decide) hkeys (by rintro option ⟨⟩; rfl)
      (by rintro option ⟨⟩; rfl)
  have hpadded : parse none "A($select=a; $expand=B)".toList =
      .ok [("A", ⟨some ["a"], none⟩)] := by
    decide +kernel
  have hplain : parse none "A($select=a;$expand=B)".toList =
      .ok [("A", ⟨some ["a"], some [("B", .bare)]⟩)] := by
    decide +kernel
  rw [hpadded, hplain] at hsame
  exact absurd hsame (by decide +kernel)

end OData.Expand
