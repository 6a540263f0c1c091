import OData.Proofs.Options

/-!
# The `&` inside groups

Both `;` and `&` separate the options of a group, but only the `;` stays with a deeper group in
which it stands. Every `&` separates options of the outermost group, however deep it stands. So an
expand clause goes whole into its option only while there is no `&` in its group; the first one ends
it in the middle of the group, and what follows is read as options of the group around it.

## Main statements

* `pairs_groupOption` — no `;` of the group separates anything, and every `&` does
* `groupOption_whole_iff` — when the clause stays whole, and what is left of it otherwise
-/

namespace OData

open Text

namespace Form

/-- A text with a character other than `&` holds a pair. -/
theorem pairs_ne_nil {text : List Char} {c : Char} (hmem : c ∈ text) (hc : c ≠ '&') :
    pairs text ≠ [] := by
  intro hnil
  -- without a pair all pieces are empty, and the text has nothing but the `&` between them
  have hpieces : ∀ piece ∈ text.splitOn '&', piece = [] := by simpa [pairs] using hnil
  have hall : ∀ d ∈ ['&'].intercalate (text.splitOn '&'), d = '&' :=
    forall_mem_intercalate rfl fun piece hpiece => by simp [hpieces piece hpiece]
  rw [List.intercalate_splitOn] at hall
  exact hc (hall c hmem)

end Form

namespace Options

/-- An expand clause of one name and its group. -/
def groupClause (name inner : List Char) : List Char := name ++ ('(' :: inner ++ [')'])

/-- The option that is such a clause. -/
def groupOption (name inner : List Char) : List Char := expandKey ++ '=' :: groupClause name inner

variable {name inner : List Char}

/-- No separator stands outside the parentheses of the clause. -/
theorem not_standsOutside_groupOption (hname : isIdentifier name = true) (hinner : Balanced inner) :
    ¬ StandsOutside ';' 0 (groupOption name inner) := by
  have hword : Word (expandKey ++ ['='] ++ name) :=
    (word_of_all (by decide)).append (word_of_isIdentifier hname)
  have hwritten := written_of_word hword
  have hgroup : ¬ StandsOutside ';' 0 ('(' :: inner ++ [')']) :=
    not_standsOutside_group (by decide) hinner
  have htext : groupOption name inner =
      (expandKey ++ ['='] ++ name) ++ ('(' :: inner ++ [')']) := by
    simp [groupOption, groupClause]
  rw [htext, standsOutside_append, hwritten.balanced.openAfter_eq, not_or]
  exact ⟨hwritten.inside, hgroup⟩

/-- **No `;` of the group separates options, and every `&` does.** -/
theorem pairs_groupOption (hname : isIdentifier name = true) (hinner : Balanced inner) :
    (ofGroup (groupOption name inner)).pairs = Form.pairs (groupOption name inner) :=
  pairs_ofGroup_of_not_standsOutside (not_standsOutside_groupOption hname hinner)

theorem not_mem_ampersand_of_isIdentifier (hname : isIdentifier name = true) : '&' ∉ name :=
  (written_of_word (word_of_isIdentifier hname)).chars.not_mem (by decide) (by decide)

/-- An expand clause without `&` is one option. -/
theorem pairs_expandKey {clause : List Char} (h : '&' ∉ clause) :
    Form.pairs (expandKey ++ '=' :: clause) = [(expandKey, Form.decode clause)] := by
  have hword : Word expandKey := word_of_all (by decide)
  have hkey : '&' ∉ expandKey ++ ['='] := by decide
  have hamp : '&' ∉ expandKey ++ '=' :: clause := by
    rw [List.append_cons, List.mem_append]
    exact not_or.2 ⟨hkey, h⟩
  rw [Form.pairs_of_not_mem (by simp) hamp, Form.pairOf_append_cons (by decide),
    Form.decode_of_plain (written_of_word hword).chars.plain]

/-- The first `&` ends the clause, and what is behind it is read like the options around it. -/
theorem pairs_groupOption_append_cons (hname : isIdentifier name = true) {front back : List Char}
    (hinner : Balanced (front ++ '&' :: back)) (hfront : '&' ∉ front) :
    (ofGroup (groupOption name (front ++ '&' :: back))).pairs =
      (expandKey, Form.decode (name ++ '(' :: front)) :: Form.pairs (back ++ [')']) := by
  have hclause : '&' ∉ name ++ '(' :: front := by
    simp [not_mem_ampersand_of_isIdentifier hname, hfront]
  have htext : groupOption name (front ++ '&' :: back) =
      (expandKey ++ '=' :: (name ++ '(' :: front)) ++ '&' :: (back ++ [')']) := by
    simp [groupOption, groupClause]
  rw [pairs_groupOption hname hinner, htext, Form.pairs_append_cons, pairs_expandKey hclause]
  rfl

/-- **A clause of one name and its group is one option just when there is no `&` in the group.**
Otherwise the option has the clause up to the first `&`, and there are options after it that were
written inside the group. -/
theorem groupOption_whole_iff (hname : isIdentifier name = true) (hinner : Balanced inner) :
    ((ofGroup (groupOption name inner)).pairs =
        [(expandKey, Form.decode (groupClause name inner))] ↔ '&' ∉ inner) ∧
    ∀ front back, inner = front ++ '&' :: back → '&' ∉ front →
      (ofGroup (groupOption name inner)).pairs =
          (expandKey, Form.decode (name ++ '(' :: front)) :: Form.pairs (back ++ [')']) ∧
        Form.pairs (back ++ [')']) ≠ [] := by
  have hcut : ∀ front back, inner = front ++ '&' :: back → '&' ∉ front →
      (ofGroup (groupOption name inner)).pairs =
          (expandKey, Form.decode (name ++ '(' :: front)) :: Form.pairs (back ++ [')']) ∧
        Form.pairs (back ++ [')']) ≠ [] := by
    rintro front back rfl hfront
    exact ⟨pairs_groupOption_append_cons hname hinner hfront,
      Form.pairs_ne_nil (c := ')') (by simp) (by decide)⟩
  refine ⟨⟨fun hwhole hmem => ?_, fun hamp => ?_⟩, hcut⟩
  · obtain ⟨front, back, hsplit, hfront⟩ := List.eq_append_cons_of_mem hmem
    obtain ⟨hpairs, hne⟩ := hcut front back hsplit hfront
    exact hne (List.cons.inj (hpairs.symm.trans hwhole)).2
  · rw [pairs_groupOption hname hinner]
    exact pairs_expandKey (by simp [groupClause, not_mem_ampersand_of_isIdentifier hname, hamp])

/-- With a `;` in the group the clause stays whole, with a `&` the field list of the group is found
outside it. -/
theorem groupOption_whole_iff_either :
    (ofGroup (groupOption "n".toList "$select=a;$expand=B(c)".toList)).pairs =
        [(expandKey, "n($select=a;$expand=B(c))".toList)] ∧
      (ofGroup (groupOption "n".toList "$top=1&$select=a".toList)).pairs =
        (expandKey, "n($top=1".toList) :: Form.pairs "$select=a)".toList := by
  have hname : isIdentifier "n".toList = true := by decide
  have hdeeper : Balanced ('(' :: "c".toList ++ [')']) :=
    (balanced_of_noParens (by simp [NoParens])).group
  have hfront : Balanced "$select=a;$expand=B".toList :=
    balanced_of_noParens (by simp [NoParens])
  have hsemicolon : Balanced "$select=a;$expand=B(c)".toList := hfront.append hdeeper
  have hampersand : Balanced "$top=1&$select=a".toList :=
    balanced_of_noParens (by simp [NoParens])
  have hwhole := (groupOption_whole_iff hname hsemicolon).1.2 (by decide)
  have hcut := (groupOption_whole_iff hname hampersand).2 "$top=1".toList "$select=a".toList rfl
    (by decide)
  exact ⟨hwhole, hcut.1⟩

/-- A group does not keep its options to itself: the field list of a balanced group is found among
the options around it. -/
theorem option_leaves_group :
    ¬ ∀ name inner, isIdentifier name = true → Balanced inner →
      (ofGroup (groupOption name inner)).pairs =
        [(expandKey, Form.decode (groupClause name inner))] := by
  intro h
  have hinner : Balanced "$top=1&$select=a&$expand=B".toList :=
    balanced_of_noParens (by simp [NoParens])
  have hone := h "n".toList "$top=1&$select=a&$expand=B".toList (by decide) hinner
  have hselect : (ofGroup (groupOption "n".toList "$top=1&$select=a&$expand=B".toList)).first?
      selectKey = some ['a'] := by
    decide +kernel
  rw [first?, hone] at hselect
  exact Option.some_ne_none _ hselect.symm

end Options

end OData
