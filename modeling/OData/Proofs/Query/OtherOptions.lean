import OData.Proofs.Expand.Steps
import OData.Proofs.Options
import OData.Proofs.Query

/-!
# Options that make no difference

Of the options of a query, and of a group, two are read: the first field list and the first expand
clause. What else is written, how often and in which order makes no difference. Nor does it matter
which of the two stands first, as a malformed field list is reported whatever the clause is.

The options of a group may hold semicolons and groups themselves. As long as each of them is
balanced and has its semicolons inside parentheses, the group is cut into just these texts.

## Main statements

* `IdleEdit.sameFirsts` — changes to a list that keep the first element with either key
* `first?_of_outerPieces` — the first option of a group among the texts it is written as
* `ofOptions_congr` and `node_congr` — a query and a group from the two options that are read
* `other_options_ignored` — the same for queries, groups and texts with groups
-/

namespace OData

open Text

/-! ## Lists that begin alike -/

namespace Options

/-- The keys of the options that are read. -/
def clauseKeys : List (List Char) := [selectKey, expandKey]

theorem ne_nil_of_mem_clauseKeys {key : List Char} (h : key ∈ clauseKeys) : key ≠ [] := by
  rintro rfl
  exact absurd h (by decide)

variable {α : Type} {key : α → List Char} {list other : List α}

/-- With either key, the first elements of the two lists are the same, or neither list has one. -/
def SameFirsts (key : α → List Char) (list other : List α) : Prop :=
  ∀ k ∈ clauseKeys, list.find? (key · == k) = other.find? (key · == k)

/-- The second list is the first one with another element, which has neither key or a key that came
before, or with two neighbours of different keys the other way round. -/
inductive IdleEdit (key : α → List Char) : List α → List α → Prop
  | insert {before after : List α} {x : α} (h : key x ∉ clauseKeys) :
      IdleEdit key (before ++ after) (before ++ x :: after)
  | again {before after : List α} {x y : α} (hmem : y ∈ before) (h : key y = key x) :
      IdleEdit key (before ++ after) (before ++ x :: after)
  | swap {before after : List α} {x y : α} (h : key x ≠ key y) :
      IdleEdit key (before ++ x :: y :: after) (before ++ y :: x :: after)

/-- **An idle edit keeps the first elements with the two keys.** -/
theorem IdleEdit.sameFirsts (h : IdleEdit key list other) : SameFirsts key list other := by
  intro k hk
  cases h with
  | @insert before after x hx =>
    have hne : (key x == k) = false := by
      rw [beq_eq_false_iff_ne]
      rintro rfl
      exact hx hk
    rw [List.find?_append, List.find?_append, List.find?_cons, hne]
  | @again before after x y hy hkey =>
    rw [List.find?_append, List.find?_append]
    cases hfind : before.find? (key · == k) with
    | some first => rfl
    | none =>
      -- if `x` had the key that is looked for, `y` would have been found before it
      have hne : (key x == k) = false := by
        rw [← hkey]
        simpa using List.find?_eq_none.1 hfind y hy
      rw [List.find?_cons, hne]
  | @swap before after x y hne =>
    rw [List.find?_append, List.find?_append]
    refine congrArg _ ?_
    -- not both of the two have the key that is looked for, so their order does not matter
    by_cases hx : key x = k
    · have hy : (key y == k) = false := beq_eq_false_iff_ne.2 fun hy => hne (hx.trans hy.symm)
      simp only [List.find?_cons, hy]
    · simp only [List.find?_cons, beq_eq_false_iff_ne.2 hx]

/-- The options have the same field list, or none, and the same expand clause, or none. -/
def SameClauses (options other : Options) : Prop :=
  ∀ key ∈ clauseKeys, options.first? key = other.first? key

theorem SameFirsts.sameClauses {pairs others : List (List Char × List Char)}
    (h : SameFirsts Prod.fst pairs others) : SameClauses ⟨pairs⟩ ⟨others⟩ :=
  fun key hkey => congrArg (Option.map Prod.snd) (h key hkey)

/-! ## Texts of a group -/

/-- The key of an option, from its text. -/
def keyOf (text : List Char) : List Char := Form.decode (text.takeWhile (· != '='))

/-- The text can stand in a group as one option: nothing in it separates options, and no white space
in front of it gets lost. -/
structure StandsAlone (text : List Char) : Prop where
  balanced : Balanced text
  ampersand : '&' ∉ text
  inside : ∀ front back, text = front ++ ';' :: back → front.count '(' ≠ front.count ')'
  head : ∀ c ∈ text.head?, isWhite c = false

theorem outerPieces_standsAlone {texts : List (List Char)} (hne : texts ≠ [])
    (h : ∀ text ∈ texts, StandsAlone text) : OuterPieces ';' ([';'].intercalate texts) texts where
  ne_nil := hne
  joined := rfl
  balanced := fun text htext => (h text htext).balanced
  inside := fun text htext => (h text htext).inside

/-- **Whether a text stands alone is seen by cutting it**: as a group it ends at its end, it is one
piece, and nothing is skipped in front of it. -/
theorem standsAlone_iff {text : List Char} :
    StandsAlone text ↔ splitGroup? (text ++ [')']) = some (text, []) ∧
      splitOutside ';' text = [text] ∧ '&' ∉ text ∧ skipWhite text = text := by
  constructor
  · intro h
    have houter :=
      outerPieces_standsAlone (List.cons_ne_nil text []) (List.forall_mem_singleton.2 h)
    rw [List.intercalate_singleton] at houter
    exact ⟨splitGroup?_eq_some_iff.2 ⟨rfl, h.balanced⟩, houter.splitOutside_eq (by decide),
      h.ampersand, skipWhite_eq_self h.head⟩
  · rintro ⟨hgroup, hpieces, hamp, hskip⟩
    have hhead := isWhite_head_skipWhite text
    rw [hskip] at hhead
    have hbalanced := (splitGroup?_eq_some_iff.1 hgroup).2
    have houter : OuterPieces ';' text (splitOutside ';' text) :=
      outerPieces_splitOutside (by decide) hbalanced
    rw [hpieces] at houter
    exact ⟨hbalanced, hamp, houter.inside text List.mem_cons_self, hhead⟩

instance : DecidablePred StandsAlone := fun _ => decidable_of_iff' _ standsAlone_iff

section

variable {texts : List (List Char)}

theorem optionTexts_of_outerPieces {group : List Char} (h : OuterPieces ';' group texts)
    (hamp : ∀ text ∈ texts, '&' ∉ text) :
    optionTexts (splitOutside ';' group) = texts.filter fun text => !text.isEmpty := by
  have hpieces : ∀ text ∈ texts, text.splitOn '&' = [text] :=
    fun text htext => List.splitOn_eq_singleton (hamp text htext)
  rw [h.splitOutside_eq (by decide), optionTexts, List.flatMap_congr hpieces]
  simp

/-- **The first option of a group with a key is the first piece with it.** Pieces that are empty are
no options, but neither do they have a key. -/
theorem first?_of_outerPieces {group : List Char} (h : OuterPieces ';' group texts)
    (hamp : ∀ text ∈ texts, '&' ∉ text) {key : List Char} (hkey : key ≠ []) :
    (ofGroup group).first? key =
      (texts.find? (keyOf · == key)).map fun text => (Form.pairOf text).2 := by
  rw [first?, pairs_ofGroup, optionTexts_of_outerPieces h hamp, List.find?_map, List.find?_filter,
    Option.map_map]
  refine congrArg (Option.map _) (congrArg (List.find? · texts) (funext fun text => ?_))
  cases text with
  | nil =>
    -- the group drops the empty text, and so does the search, which is not for an empty key
    have hempty : (keyOf [] == key) = false := beq_eq_false_iff_ne.2 hkey.symm
    simp [hempty]
  | cons c rest => simp [keyOf, Form.pairOf, beq_eq_decide]

theorem first?_ofGroup_intercalate (h : ∀ text ∈ texts, StandsAlone text) {key : List Char}
    (hkey : key ≠ []) :
    (ofGroup ([';'].intercalate texts)).first? key =
      (texts.find? (keyOf · == key)).map fun text => (Form.pairOf text).2 := by
  cases texts with
  | nil => simp [ofGroup, splitOutside, splitOutsideFrom, first?]
  | cons first rest =>
    exact first?_of_outerPieces (outerPieces_standsAlone (List.cons_ne_nil first rest) h)
      (fun text htext => (h text htext).ampersand) hkey

theorem SameFirsts.sameClauses_ofGroup {others : List (List Char)}
    (h : SameFirsts keyOf texts others) (htexts : ∀ text ∈ texts, StandsAlone text)
    (hothers : ∀ text ∈ others, StandsAlone text) :
    SameClauses (ofGroup ([';'].intercalate texts)) (ofGroup ([';'].intercalate others)) := by
  intro key hkey
  have hne := ne_nil_of_mem_clauseKeys hkey
  rw [first?_ofGroup_intercalate htexts hne, first?_ofGroup_intercalate hothers hne, h key hkey]

theorem skipWhite_intercalate (h : ∀ text ∈ texts.head?, ∀ c ∈ text.head?, isWhite c = false) :
    skipWhite ([';'].intercalate texts) = [';'].intercalate texts := by
  refine skipWhite_eq_self fun c hc => ?_
  match texts with
  | [] => nomatch hc
  | [text] => exact h text rfl c (by simpa using hc)
  | [] :: second :: rest =>
    obtain rfl : ';' = c := by simpa using hc
    decide
  | (d :: tail) :: second :: rest => exact h (d :: tail) rfl c (by simpa using hc)

end

end Options

open Options

variable {limit : DepthLimit}

/-! ## What is read of the options -/

theorem Select.ofOptions_congr {options other : Options} (h : SameClauses options other) :
    Select.ofOptions options = Select.ofOptions other := by
  unfold Select.ofOptions
  rw [h selectKey (by decide)]

namespace Expand

/-- **A group is what its first field list and its first clause are.** -/
theorem node_congr {group other : List Char} (h : SameClauses (.ofGroup group) (.ofGroup other))
    (depth : Nat) : node limit depth group = node limit depth other := by
  rw [node_eq_bind, node_eq_bind, Select.ofOptions_congr h]
  refine congrArg _ (funext fun _ => congrArg _ (funext fun select => ?_))
  unfold nodeClause
  rw [h expandKey (by decide)]

/-- A malformed field list is reported before the clause is looked at. -/
theorem node_of_malformedSelect {depth : Nat} {group : List Char} {fault : Fault}
    (hdepth : limit.permits depth = true) (h : Select.ofOptions (.ofGroup group) = .error fault) :
    node limit depth group = .error fault := by
  rw [node_eq_bind, DepthLimit.check_eq_ok_iff.2 hdepth, h]
  rfl

/-- A name with a group of the texts behind it. -/
def groupItem (name : List Char) (texts : List (List Char)) : List Char :=
  name ++ '(' :: ([';'].intercalate texts ++ [')'])

theorem readItem_groupItem {name : List Char} (hname : isIdentifier name = true)
    {texts : List (List Char)} (hbalanced : ∀ text ∈ texts, Balanced text)
    (hhead : ∀ text ∈ texts.head?, ∀ c ∈ text.head?, isWhite c = false) (rest : List Char) :
    readItem (groupItem name texts ++ rest) =
      .ok ⟨name, some ([';'].intercalate texts), rest⟩ := by
  have hread :=
    readItem_group hname (balanced_intercalate hbalanced) (skipWhite_intercalate hhead) rest
  simpa [groupItem] using hread

theorem readItem_standsAlone {name : List Char} (hname : isIdentifier name = true)
    {texts : List (List Char)} (h : ∀ text ∈ texts, StandsAlone text) (rest : List Char) :
    readItem (groupItem name texts ++ rest) =
      .ok ⟨name, some ([';'].intercalate texts), rest⟩ :=
  readItem_groupItem hname (fun text htext => (h text htext).balanced)
    (fun text htext => (h text (List.mem_of_mem_head? htext)).head) rest

/-- **Groups of texts that begin alike are read alike**, at every depth and whatever follows. -/
theorem entries_groupItem_congr {name : List Char} (hname : isIdentifier name = true)
    {texts others : List (List Char)} (htexts : ∀ text ∈ texts, StandsAlone text)
    (hothers : ∀ text ∈ others, StandsAlone text) (h : SameFirsts keyOf texts others)
    (depth : Nat) (rest : List Char) :
    entries limit depth (groupItem name texts ++ rest) =
      entries limit depth (groupItem name others ++ rest) := by
  have hsame := h.sameClauses_ofGroup htexts hothers
  rw [entries_eq_bind, entries_eq_bind, readItem_standsAlone hname htexts,
    readItem_standsAlone hname hothers]
  show (node limit (depth + 1) _ >>= _) = (node limit (depth + 1) _ >>= _)
  rw [node_congr hsame]

theorem parse_groupItem_congr {name : List Char} (hname : isIdentifier name = true)
    {texts others : List (List Char)} (htexts : ∀ text ∈ texts, StandsAlone text)
    (hothers : ∀ text ∈ others, StandsAlone text) (h : SameFirsts keyOf texts others) :
    parse limit (groupItem name texts) = parse limit (groupItem name others) := by
  have hentries : entries limit 0 (groupItem name texts ++ []) = _ :=
    entries_groupItem_congr hname htexts hothers h 0 []
  rw [List.append_nil, List.append_nil] at hentries
  exact congrArg (Except.map NameMap.ofEntries) hentries

end Expand

namespace Query

open Expand

/-- **A query is what its first field list and its first clause are.** -/
theorem ofOptions_congr {options other : Options} (h : SameClauses options other) :
    ofOptions limit options = ofOptions limit other := by
  rw [ofOptions_eq, ofOptions_eq, Select.ofOptions_congr h, h expandKey (by decide)]

/-- **Other options, repeated keys and the order of options have no effect.** Queries with the same
field list and the same clause, first of their keys, are the same, faults included, and so are the
nodes of such groups at every depth; a group that is written as texts may hold any others, as long
as the first texts with the two keys are the same. Idle edits are of this kind. In a query and in a
group a malformed field list is the fault, whatever the clause is. -/
theorem other_options_ignored (limit : DepthLimit) :
    (∀ options other : Options, options.first? selectKey = other.first? selectKey →
      options.first? expandKey = other.first? expandKey →
        ofOptions limit options = ofOptions limit other) ∧
    (∀ group other, SameClauses (.ofGroup group) (.ofGroup other) →
      ∀ depth, node limit depth group = node limit depth other) ∧
    (∀ name texts others, isIdentifier name = true → (∀ text ∈ texts, StandsAlone text) →
      (∀ text ∈ others, StandsAlone text) → SameFirsts keyOf texts others →
        parse limit (groupItem name texts) = parse limit (groupItem name others) ∧
          ∀ depth rest, entries limit depth (groupItem name texts ++ rest) =
            entries limit depth (groupItem name others ++ rest)) ∧
    (∀ pairs others, IdleEdit Prod.fst pairs others →
      ofOptions limit ⟨pairs⟩ = ofOptions limit ⟨others⟩) ∧
    (∀ name texts others, isIdentifier name = true → (∀ text ∈ texts, StandsAlone text) →
      (∀ text ∈ others, StandsAlone text) → IdleEdit keyOf texts others →
        parse limit (groupItem name texts) = parse limit (groupItem name others)) ∧
    (∀ options fault, Select.ofOptions options = .error fault →
      ofOptions limit options = { error := some fault.toError }) ∧
    (∀ depth group fault, limit.permits depth = true →
      Select.ofOptions (.ofGroup group) = .error fault →
        node limit depth group = .error fault) := by
  refine ⟨?_, fun _ _ h depth => node_congr h depth, ?_, ?_, ?_, ?_, ?_⟩
  · intro options other hselect hexpand
    exact ofOptions_congr (List.forall_mem_cons.2 ⟨hselect, List.forall_mem_singleton.2 hexpand⟩)
  · intro name texts others hname htexts hothers h
    exact ⟨parse_groupItem_congr hname htexts hothers h,
      entries_groupItem_congr hname htexts hothers h⟩
  · intro pairs others h
    exact ofOptions_congr h.sameFirsts.sameClauses
  · intro name texts others hname htexts hothers h
    exact parse_groupItem_congr hname htexts hothers h.sameFirsts
  · intro options fault hselect
    rw [ofOptions_eq, hselect]
  · intro depth group fault hdepth hselect
    exact node_of_malformedSelect hdepth hselect

/-- A clause and an option with semicolons of their own in front of the field list, whose key is
escaped, and a second field list that is malformed; then the malformed field list as the first. -/
theorem other_options_ignored_malformed :
    let fields := "%24select=x,y".toList
    let clause := "$expand=B(;$select=z;)".toList
    let malformed := "$select=".toList
    let texts := [clause, "$top=(;)".toList, fields, malformed]
    (∀ text ∈ texts, StandsAlone text) ∧ SameFirsts keyOf texts [fields, clause] ∧
      parse none (groupItem ['A'] texts) = parse none (groupItem ['A'] [fields, clause]) ∧
      parse none (groupItem ['A'] [fields, clause]) =
        .ok [("A", ⟨some ["x", "y"], some [("B", { select := some ["z"] })]⟩)] ∧
      parse none (groupItem ['A'] [malformed, clause]) =
        parse none (groupItem ['A'] [clause, malformed]) ∧
      node none 1 "$expand=;$select=".toList = .error .malformedSelect ∧
      ofOptions none ⟨[("$top".toList, [])]⟩ = ofOptions none ⟨[]⟩ ∧
      ofOptions none ⟨[(expandKey, []), (selectKey, [])]⟩ =
        { error := some Fault.malformedSelect.toError } := by
  intro fields clause malformed texts
  obtain ⟨hquery, -, hgroup, -, hedit, hselect, hnode⟩ := other_options_ignored none
  have htexts : ∀ text ∈ texts, StandsAlone text := by decide +kernel
  have hfirsts : SameFirsts keyOf texts [fields, clause] :=
    show ∀ k ∈ clauseKeys, texts.find? (keyOf · == k) = [fields, clause].find? (keyOf · == k) by
      decide +kernel
  have hswap : IdleEdit keyOf [malformed, clause] [clause, malformed] :=
    @IdleEdit.swap _ keyOf [] [] malformed clause (by decide +kernel)
  refine ⟨htexts, hfirsts, ?_, by decide +kernel, ?_, ?_, ?_, ?_⟩
  · exact (hgroup ['A'] texts [fields, clause] (by decide) htexts (by decide +kernel) hfirsts).1
  · exact hedit ['A'] _ _ (by decide) (by decide +kernel) (by decide +kernel) hswap
  · exact hnode 1 _ _ rfl (by decide +kernel)
  · exact hquery _ _ (by decide +kernel) (by decide +kernel)
  · exact hselect _ _ (by decide +kernel)

end Query

end OData
