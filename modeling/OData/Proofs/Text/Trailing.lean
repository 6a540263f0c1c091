import OData.Proofs.Text.Outside
import OData.Proofs.Text.Words

/-!
# What is written behind a text

A text that is cut into pieces keeps its pieces when something without a separator is written behind
it, and the last piece gets all of that. White space behind a text stays behind what the other cuts
take off the front, and it makes no difference to a text that is trimmed.

## Main statements

* `exists_splitOn_append` and `exists_splitOutside_append` — the last piece gets what is added
* `exists_skipWhite_append` and `trim_append_white` — white space behind a text
-/

namespace OData.Text

variable {white : List Char}

/-! ## Pieces -/

/-- **What is written behind a text without a separator goes into the last piece.** -/
theorem exists_splitOn_append (separator : Char) (text : List Char) :
    ∃ before last, ∀ tail, separator ∉ tail →
      (text ++ tail).splitOn separator = before ++ [last ++ tail] := by
  by_cases hmem : separator ∈ text
  · obtain ⟨front, back, htext, hfront⟩ := List.eq_append_cons_of_mem hmem
    obtain ⟨before, last, hlast⟩ := exists_splitOn_append separator back
    refine ⟨front :: before, last, fun tail htail => ?_⟩
    rw [htext, List.append_assoc, List.cons_append, List.splitOn_append_cons_self,
      List.splitOn_eq_singleton hfront, hlast tail htail]
    rfl
  · refine ⟨[], text, fun tail htail => List.splitOn_eq_singleton ?_⟩
    rw [List.mem_append, not_or]
    exact ⟨hmem, htail⟩
termination_by text.length
decreasing_by
  rw [htext, List.length_append, List.length_cons]
  omega

/-- **The same holds of the pieces between separators outside parentheses**, whatever parentheses
are added. -/
theorem exists_splitOutside_append {separator : Char} (hsep : separator ≠ '(' ∧ separator ≠ ')')
    (text : List Char) :
    ∃ before last, ∀ tail, separator ∉ tail →
      splitOutside separator (text ++ tail) = before ++ [last ++ tail] := by
  refine outside_induction separator (P := fun text => ∃ before last, ∀ tail, separator ∉ tail →
    splitOutside separator (text ++ tail) = before ++ [last ++ tail]) ?_ ?_ text
  · intro text h
    refine ⟨[], text, fun tail htail => splitOutside_of_not_standsOutside hsep ?_⟩
    rw [standsOutside_append, not_or]
    exact ⟨h, not_standsOutside_of_not_mem htail _⟩
  · rintro piece rest hpiece hclosed ⟨before, last, hlast⟩
    refine ⟨piece :: before, last, fun tail htail => ?_⟩
    rw [List.append_assoc, List.cons_append, splitOutside_append_of_closed hsep hclosed hpiece,
      hlast tail htail]
    rfl

/-! ## The end of a group -/

theorem splitGroupFrom?_append {tail : List Char} (h : NoParens tail) (depth : Nat)
    (text : List Char) :
    splitGroupFrom? depth (text ++ tail) =
      (splitGroupFrom? depth text).map fun cut => (cut.1, cut.2 ++ tail) := by
  induction text generalizing depth with
  | nil =>
    cases hcut : splitGroupFrom? depth tail with
    | none => simpa [splitGroupFrom?] using hcut
    | some cut =>
      have hmem : ')' ∈ tail := by
        rw [← append_of_splitGroupFrom? (show _ = some (cut.1, cut.2) from hcut)]
        simp
      exact absurd rfl (h ')' hmem).2
  | cons c rest ih =>
    rw [List.cons_append, splitGroupFrom?, splitGroupFrom?, ih]
    split
    · rfl
    · rw [Option.map_map, Option.map_map]
      rfl

/-- **Behind the end of a group stands what is written behind the text.** -/
theorem splitGroup?_append {tail : List Char} (h : NoParens tail) (text : List Char) :
    splitGroup? (text ++ tail) = (splitGroup? text).map fun cut => (cut.1, cut.2 ++ tail) :=
  splitGroupFrom?_append h 0 text

/-! ## White space -/

/-- **White space behind a text stays there**, unless it is skipped with all the rest. -/
theorem exists_skipWhite_append (h : AllWhite white) (text : List Char) :
    ∃ kept, AllWhite kept ∧ skipWhite (text ++ white) = skipWhite text ++ kept := by
  obtain ⟨front, hfront, htext⟩ := exists_white_append text
  have hhead := isWhite_head_skipWhite text
  rw [htext, List.append_assoc, skipWhite_append hfront, skipWhite_append hfront,
    skipWhite_skipWhite]
  generalize skipWhite text = rest at hhead
  cases rest with
  | nil => exact ⟨[], allWhite_nil, skipWhite_of_allWhite h⟩
  | cons c tail => exact ⟨white, h, skipWhite_eq_self hhead⟩

theorem dropEndWhile_append_of_all {p : Char → Bool} {tail : List Char}
    (h : ∀ c ∈ tail, p c = true) (text : List Char) :
    dropEndWhile p (text ++ tail) = dropEndWhile p text := by
  rw [dropEndWhile, List.reverse_append,
    List.dropWhile_append_of_pos fun c hc => h c (List.mem_reverse.1 hc)]
  rfl

/-- **Trimming takes off white space that is added at the end.** -/
theorem trim_append_white (h : AllWhite white) (text : List Char) :
    trim (text ++ white) = trim text := by
  obtain ⟨kept, hkept, hskip⟩ := exists_skipWhite_append h text
  rw [trim, hskip, dropEndWhile_append_of_all hkept]
  rfl

end OData.Text
