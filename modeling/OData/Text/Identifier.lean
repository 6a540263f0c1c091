/-!
# Identifiers

Names of fields and of navigation properties: an ASCII letter or underscore, then ASCII letters,
digits and underscores.
-/

namespace OData.Text

/-- Whether a character can open an identifier. -/
def startsIdentifier (c : Char) : Bool := c.isAlpha || c == '_'

/-- Whether a character can follow in an identifier. -/
def continuesIdentifier (c : Char) : Bool := c.isAlphanum || c == '_'

/-- Whether a whole text is one identifier. -/
def isIdentifier : List Char → Bool
  | [] => false
  | c :: rest => startsIdentifier c && rest.all continuesIdentifier

/-- The longest identifier that a text starts with, and the text after it. -/
def takeIdentifier? : List Char → Option (List Char × List Char)
  | [] => none
  | c :: rest =>
    if startsIdentifier c then
      some (c :: rest.takeWhile continuesIdentifier, rest.dropWhile continuesIdentifier)
    else none

/-! ## Lemmas -/

/-- Nothing is lost between the identifier and the text after it. -/
theorem takeIdentifier?_append {text name rest : List Char}
    (h : takeIdentifier? text = some (name, rest)) : name ++ rest = text := by
  cases text with
  | nil => simp [takeIdentifier?] at h
  | cons c tail =>
    simp only [takeIdentifier?] at h
    split at h
    · obtain ⟨rfl, rfl⟩ : _ ∧ _ := by simpa using h
      simp
    · simp at h

/-- What is taken off is an identifier. -/
theorem isIdentifier_of_takeIdentifier? {text name rest : List Char}
    (h : takeIdentifier? text = some (name, rest)) : isIdentifier name = true := by
  cases text with
  | nil => simp [takeIdentifier?] at h
  | cons c tail =>
    simp only [takeIdentifier?] at h
    split at h
    · rename_i hc
      obtain ⟨rfl, rfl⟩ : _ ∧ _ := by simpa using h
      simp [isIdentifier, hc, List.all_takeWhile]
    · simp at h

end OData.Text
