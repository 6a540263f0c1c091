/-!
# Parentheses

Groups are written between `(` and `)`, and every one of the two characters counts: there is no
escape and no quoting. Two cuts respect them.

* `splitGroup?` — the text of a group just opened, up to the `)` that closes it
* `splitOutside` — the pieces between separators that stand in no group
-/

namespace OData.Text

/-- The number of open groups after a character. A `)` with no open group leaves it at zero. -/
def depthAfter (depth : Nat) (c : Char) : Nat :=
  if c = '(' then depth + 1 else if c = ')' then depth - 1 else depth

/-! ## The end of a group -/

/-- The text before the `)` that closes a group, and the text after it, when `depth` more groups
are open inside. -/
def splitGroupFrom? : Nat → List Char → Option (List Char × List Char)
  | _, [] => none
  | depth, c :: rest =>
    if c = ')' ∧ depth = 0 then some ([], rest)
    else (splitGroupFrom? (depthAfter depth c) rest).map fun cut => (c :: cut.1, cut.2)

/-- The inside of a group whose `(` stands just before the text, and the text after its `)`. -/
def splitGroup? (text : List Char) : Option (List Char × List Char) := splitGroupFrom? 0 text

theorem append_of_splitGroupFrom? {depth : Nat} {text inner after : List Char}
    (h : splitGroupFrom? depth text = some (inner, after)) : inner ++ ')' :: after = text := by
  induction text generalizing depth inner with
  | nil => simp [splitGroupFrom?] at h
  | cons c rest ih =>
    rw [splitGroupFrom?] at h
    split at h
    · rename_i hc
      obtain ⟨rfl, rfl⟩ : [] = inner ∧ rest = after := by simpa using h
      simp [hc.1]
    · obtain ⟨⟨inner', after'⟩, hcut, heq⟩ := Option.map_eq_some_iff.1 h
      obtain ⟨rfl, rfl⟩ : c :: inner' = inner ∧ after' = after := by simpa using heq
      simp [ih hcut]

/-- **The two parts and the `)` between them are the whole text.** -/
theorem append_of_splitGroup? {text inner after : List Char}
    (h : splitGroup? text = some (inner, after)) : inner ++ ')' :: after = text :=
  append_of_splitGroupFrom? h

/-! ## Separators outside groups -/

/-- The pieces between the separators that stand in no group, when `depth` groups are open. -/
def splitOutsideFrom (separator : Char) : Nat → List Char → List (List Char)
  | _, [] => [[]]
  | depth, c :: rest =>
    if c = separator ∧ depthAfter depth c = 0 then
      [] :: splitOutsideFrom separator (depthAfter depth c) rest
    else (splitOutsideFrom separator (depthAfter depth c) rest).modifyHead (c :: ·)

/-- The pieces of a text between the separators that stand in no group. -/
def splitOutside (separator : Char) (text : List Char) : List (List Char) :=
  splitOutsideFrom separator 0 text

theorem splitOutsideFrom_ne_nil (separator : Char) (depth : Nat) (text : List Char) :
    splitOutsideFrom separator depth text ≠ [] := by
  induction text generalizing depth with
  | nil => simp [splitOutsideFrom]
  | cons c rest ih =>
    rw [splitOutsideFrom]
    split
    · simp
    · simpa using ih _

theorem intercalate_splitOutsideFrom (separator : Char) (depth : Nat) (text : List Char) :
    [separator].intercalate (splitOutsideFrom separator depth text) = text := by
  induction text generalizing depth with
  | nil => simp [splitOutsideFrom, List.intercalate]
  | cons c rest ih =>
    have hne := splitOutsideFrom_ne_nil separator (depthAfter depth c) rest
    have ih := ih (depthAfter depth c)
    rw [splitOutsideFrom]
    obtain ⟨piece, pieces, hp⟩ := List.exists_cons_of_ne_nil hne
    rw [hp] at ih ⊢
    split
    · rename_i hc
      simp only [List.intercalate, List.intersperse_cons_cons, List.flatten_cons] at ih ⊢
      simp [hc.1, ← ih]
    · rw [← ih]
      cases pieces <;> simp [List.intercalate, List.modifyHead]

/-- **The pieces joined by the separator are the whole text.** -/
theorem intercalate_splitOutside (separator : Char) (text : List Char) :
    [separator].intercalate (splitOutside separator text) = text :=
  intercalate_splitOutsideFrom separator 0 text

end OData.Text
