import OData.Proofs.Expand.Trailing

/-!
# White space around the parts of an item

White space may stand around names, commas and parentheses. In all places but one the reader skips
it as it goes. Before the `)` of a group it is read with the last option, and is of no account there
when that option has a value for it to stand behind.

## Main statements

* `Spaced.entries_eq` — an item with white space in it is read as the item without it
* `spacing_ignored` — the same for clauses, accepted or refused
-/

namespace OData.Expand

open Text Options

variable {limit : DepthLimit} {depth : Nat}

/-- An item as it is written without white space, and the item with white space between its parts
and around it: before the name and behind it, behind the `(`, before the `)` and behind it. Before
the `)` there is white space only if the inside of the group ends in a value. -/
inductive Spaced : List Char → List Char → Prop
  | bare {name before after : List Char} (hname : isIdentifier name = true)
      (hbefore : AllWhite before) (hafter : AllWhite after) :
      Spaced name (before ++ (name ++ after))
  | group {name inner before between white gap after : List Char} (hname : isIdentifier name = true)
      (hinner : Balanced inner) (hbefore : AllWhite before) (hbetween : AllWhite between)
      (hwhite : AllWhite white) (hgap : AllWhite gap) (hvalue : gap ≠ [] → EndsInValue inner)
      (hafter : AllWhite after) :
      Spaced (name ++ '(' :: (inner ++ [')']))
        (before ++ (name ++ (between ++ '(' :: (white ++ (inner ++ (gap ++ ')' :: after))))))

/-! ## Items -/

/-- An item without white space is one of the ways to write it. -/
theorem Spaced.plain {item padded : List Char} (h : Spaced item padded) : Spaced item item := by
  cases h with
  | bare hname =>
    have hspaced := Spaced.bare hname allWhite_nil allWhite_nil
    simpa using hspaced
  | group hname hinner =>
    have hspaced := Spaced.group hname hinner allWhite_nil allWhite_nil allWhite_nil allWhite_nil
      (fun hne => absurd rfl hne) allWhite_nil
    simpa using hspaced

theorem readItem_spacedGroup {name inner before between white : List Char}
    (hname : isIdentifier name = true) (hinner : Balanced inner) (hbefore : AllWhite before)
    (hbetween : AllWhite between) (hwhite : AllWhite white) (after : List Char) :
    readItem (before ++ (name ++ (between ++ '(' :: (white ++ (inner ++ ')' :: after))))) =
      .ok ⟨name, some (skipWhite inner), after⟩ := by
  have hinside : skipWhite (white ++ (inner ++ ')' :: after)) =
      skipWhite inner ++ ')' :: after := by
    rw [skipWhite_append hwhite, skipWhite_append_cons (by decide)]
  rw [readItem_open hbefore hname hbetween, hinside,
    splitGroup?_eq_some_iff.2 ⟨rfl, hinner.skipWhite⟩]

/-- White space in front of a group that ends in a value leaves the value alone. -/
theorem skipWhite_endsInValue {inner : List Char} (h : EndsInValue inner) (gap : List Char) :
    skipWhite (inner ++ gap) = skipWhite inner ++ gap ∧ EndsInValue (skipWhite inner) := by
  obtain ⟨front, back, rfl, hsemicolon, hamp⟩ := h
  rw [List.append_assoc, List.cons_append, skipWhite_append_cons (by decide),
    skipWhite_append_cons (by decide)]
  exact ⟨by simp, skipWhite front, back, rfl, hsemicolon, hamp⟩

/-- **White space before the `)` makes no difference behind a value.** -/
theorem node_skipWhite_append {inner gap : List Char} (hgap : AllWhite gap)
    (hvalue : gap ≠ [] → EndsInValue inner) :
    node limit depth (skipWhite (inner ++ gap)) = node limit depth (skipWhite inner) := by
  by_cases hne : gap = []
  · rw [hne, List.append_nil]
  · obtain ⟨hskip, hends⟩ := skipWhite_endsInValue (hvalue hne) gap
    rw [hskip, node_append_white hends hgap]

/-- **An item with white space in it is read as the item without it.** -/
theorem Spaced.entries_eq {item padded : List Char} (h : Spaced item padded) :
    entries limit depth padded = entries limit depth item := by
  cases h with
  | @bare name before after hname hbefore hafter =>
    have hplain := readItem_bare allWhite_nil hname allWhite_nil
    rw [List.append_nil, List.nil_append] at hplain
    rw [entries_of_readItem (readItem_bare hbefore hname hafter) allWhite_nil,
      entries_of_readItem hplain allWhite_nil]
  | @group name inner before between white gap after hname hinner hbefore hbetween hwhite hgap
      hvalue hafter =>
    have hgroup : Balanced (inner ++ gap) := hinner.append (balanced_of_noParens hgap.noParens)
    have hpadded := readItem_spacedGroup hname hgroup hbefore hbetween hwhite after
    have hplain := readItem_spacedGroup hname hinner allWhite_nil allWhite_nil allWhite_nil []
    rw [List.append_assoc] at hpadded
    rw [entries_of_readItem hpadded hafter]
    refine Eq.trans ?_ (entries_of_readItem hplain allWhite_nil).symm
    exact congrArg (Except.map _) (node_skipWhite_append hgap hvalue)

theorem enclosed_of_allWhite {separator : Char} (hsep : isWhite separator = false)
    {white : List Char} (h : AllWhite white) : Enclosed separator white :=
  enclosed_of_flat (h.not_mem hsep) h.noParens

theorem Spaced.enclosed {item padded : List Char} (h : Spaced item padded) :
    Enclosed ',' padded := by
  have henclosed : ∀ {white}, AllWhite white → Enclosed ',' white :=
    enclosed_of_allWhite (by decide)
  have hidentifier : ∀ {name}, isIdentifier name = true → Enclosed ',' name := fun hname =>
    enclosed_of_flat (not_mem_of_isIdentifier hname (by decide)) (noParens_of_isIdentifier hname)
  cases h with
  | @bare name before after hname hbefore hafter =>
    exact (henclosed hbefore).append ((hidentifier hname).append (henclosed hafter))
  | @group name inner before between white gap after hname hinner hbefore hbetween hwhite hgap
      hvalue hafter =>
    have hinside : Balanced (white ++ (inner ++ gap)) :=
      (balanced_of_noParens hwhite.noParens).append
        (hinner.append (balanced_of_noParens hgap.noParens))
    have hgroup : Enclosed ',' ('(' :: (white ++ (inner ++ gap)) ++ [')']) :=
      ⟨not_standsOutside_group (by decide) hinside, hinside.group.openAfter_eq 0⟩
    have hparts := (henclosed hbefore).append ((hidentifier hname).append
      ((henclosed hbetween).append (hgroup.append (henclosed hafter))))
    simpa using hparts

/-! ## Clauses -/

/-- **Items with white space in them are read as the items without it.** -/
theorem entries_spaced {items padded : List (List Char)} (h : List.Forall₂ Spaced items padded) :
    entries limit depth ([','].intercalate padded) =
      entries limit depth ([','].intercalate items) := by
  induction h with
  | nil => rfl
  | @cons item text items texts hitem hrest ih =>
    cases hrest with
    | nil => simpa using hitem.entries_eq
    | cons hsecond hrest =>
      obtain ⟨houtside, hclosed⟩ := hitem.enclosed
      obtain ⟨houtside', hclosed'⟩ := hitem.plain.enclosed
      rw [List.intercalate_cons_cons, List.intercalate_cons_cons, List.append_assoc,
        List.append_assoc, List.singleton_append, List.singleton_append,
        entries_append_comma houtside hclosed, entries_append_comma houtside' hclosed',
        hitem.entries_eq, ih]

/-- **White space around names, commas and parentheses makes no difference**, to a clause that is
accepted and to one that is refused, under every limit and at every depth. -/
theorem spacing_ignored (limit : DepthLimit) {items padded : List (List Char)}
    (h : List.Forall₂ Spaced items padded) :
    parse limit ([','].intercalate padded) = parse limit ([','].intercalate items) ∧
      ∀ depth, entries limit depth ([','].intercalate padded) =
        entries limit depth ([','].intercalate items) :=
  ⟨congrArg (Except.map NameMap.ofEntries) (entries_spaced h), fun _ => entries_spaced h⟩

/-- White space in every place where it may stand, not all of it ASCII, and the two ways in which
such a clause can end: with a group that has nothing in it, which is refused, and without. -/
theorem spacing_ignored_around :
    let items := ["A".toList, "B($select=a)".toList]
    let padded := ["\t A ".toList, "\u2003B ( $select=a\u0085) ".toList]
    List.Forall₂ Spaced items padded ∧
      parse none "\t A ,\u2003B ( $select=a\u0085) ".toList = parse none "A,B($select=a)".toList ∧
      parse none "A,B($select=a)".toList =
        .ok [("A", .bare), ("B", { select := some ["a"] })] ∧
      parse none "\t A ,\u2003B ( $select=a\u0085) ,\nC( )\n".toList =
        parse none "A,B($select=a),C()".toList ∧
      parse none "A,B($select=a),C()".toList = .error .emptyGroup := by
  intro items padded
  have hnone : AllWhite [] := allWhite_nil
  have hblank : AllWhite [' '] := by decide
  have htab : AllWhite ['\t', ' '] := by decide
  have hwide : AllWhite ['\u2003'] := by decide
  have hnext : AllWhite ['\u0085'] := by decide
  have hline : AllWhite ['\n'] := by decide
  have hfields : Balanced "$select=a".toList := balanced_of_noParens (by simp [NoParens])
  have hvalue : EndsInValue "$select=a".toList :=
    ⟨"$select".toList, "a".toList, rfl, by decide, by decide⟩
  have hA : isIdentifier ['A'] = true := by decide
  have hB : isIdentifier ['B'] = true := by decide
  have hC : isIdentifier ['C'] = true := by decide
  have hspaced : List.Forall₂ Spaced items padded :=
    .cons (.bare hA htab hblank)
      (.cons (.group hB hfields hwide hblank hblank hnext (fun _ => hvalue) hblank) .nil)
  have hnothing : Balanced [] := balanced_of_noParens (by simp [NoParens])
  have hempty : Spaced "C()".toList "\nC( )\n".toList :=
    .group hC hnothing hline hnone hblank hnone (fun hne => absurd rfl hne) hline
  have hrefused : List.Forall₂ Spaced (items ++ ["C()".toList]) (padded ++ ["\nC( )\n".toList]) :=
    List.rel_append hspaced (.cons hempty .nil)
  have hjoined : [','].intercalate padded = "\t A ,\u2003B ( $select=a\u0085) ".toList ∧
      [','].intercalate items = "A,B($select=a)".toList := by
    decide +kernel
  have hjoined' : [','].intercalate (padded ++ ["\nC( )\n".toList]) =
        "\t A ,\u2003B ( $select=a\u0085) ,\nC( )\n".toList ∧
      [','].intercalate (items ++ ["C()".toList]) = "A,B($select=a),C()".toList := by
    decide +kernel
  refine ⟨hspaced, ?_, by decide +kernel, ?_, by decide +kernel⟩
  · rw [← hjoined.1, ← hjoined.2]
    exact (spacing_ignored none hspaced).1
  · rw [← hjoined'.1, ← hjoined'.2]
    exact (spacing_ignored none hrefused).1

end OData.Expand
