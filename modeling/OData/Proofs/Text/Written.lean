import OData.Proofs.Form
import OData.Proofs.Text.Outside
import OData.Proofs.Text.Words

/-!
# Text that is read as it is written

Names, commas and groups, put together without white space and without escapes, are read back
unchanged: no separator of options stands outside their groups, and decoding leaves them alone. The
property holds of words, and of what is made of words by writing texts one after the other and by
putting parentheses around them.

## Main statements

* `written_of_word` — words have the property
* `Written.append` and `Written.group` — it is kept
* `outerPieces_of_written` — a text with semicolons is cut into what it was put together from
-/

namespace OData.Text

/-- The characters other than white space that the readers look for between names and values. -/
def specialChars : List Char := ['(', ')', ';', '&', '%', '+']

/-- A character that is read as itself everywhere: no white space, parenthesis, separator of options
or escape. -/
def isPlainChar (c : Char) : Bool := !isWhite c && !specialChars.contains c

/-- Text of such characters. -/
def Word (text : List Char) : Prop := ∀ c ∈ text, isPlainChar c = true

/-- Text of such characters and of parentheses and semicolons. -/
def Unescaped (text : List Char) : Prop := ∀ c ∈ text, isPlainChar c = true ∨ c ∈ ['(', ')', ';']

/-- Such text in which the parentheses match and the semicolons stand inside them. -/
structure Written (text : List Char) : Prop where
  chars : Unescaped text
  balanced : Balanced text
  inside : ¬ StandsOutside ';' 0 text

/-! ## Words -/

theorem isPlainChar_of_continuesIdentifier {c : Char} (h : continuesIdentifier c = true) :
    isPlainChar c = true := by
  have hspecial : (specialChars.all fun d => !continuesIdentifier d) = true := by decide
  have hnot : c ∉ specialChars := by
    intro hmem
    have := List.all_eq_true.1 hspecial c hmem
    rw [h] at this
    contradiction
  simpa [isPlainChar, isWhite_of_continuesIdentifier h] using hnot

theorem word_of_isIdentifier {name : List Char} (h : isIdentifier name = true) : Word name :=
  fun c hc => isPlainChar_of_continuesIdentifier (continuesIdentifier_of_isIdentifier h c hc)

/-- The test for words, to be run on given texts. -/
theorem word_of_all {text : List Char} (h : text.all isPlainChar = true) : Word text :=
  List.all_eq_true.1 h

theorem Word.append {a b : List Char} (ha : Word a) (hb : Word b) : Word (a ++ b) :=
  List.forall_mem_append.2 ⟨ha, hb⟩

theorem ne_of_isPlainChar {c d : Char} (h : isPlainChar c = true) (hd : isPlainChar d = false) :
    c ≠ d := by
  rintro rfl
  rw [hd] at h
  contradiction

/-- **A word is read as it is written.** -/
theorem written_of_word {text : List Char} (h : Word text) : Written text where
  chars := fun c hc => Or.inl (h c hc)
  balanced := balanced_of_noParens fun c hc =>
    ⟨ne_of_isPlainChar (h c hc) (by decide), ne_of_isPlainChar (h c hc) (by decide)⟩
  inside := by
    refine not_standsOutside_of_not_mem (fun hmem => ?_) 0
    exact ne_of_isPlainChar (h _ hmem) (by decide) rfl

/-! ## Composition -/

theorem Written.append {a b : List Char} (ha : Written a) (hb : Written b) : Written (a ++ b) where
  chars := List.forall_mem_append.2 ⟨ha.chars, hb.chars⟩
  balanced := ha.balanced.append hb.balanced
  inside := by
    rw [standsOutside_append, ha.balanced.openAfter_eq]
    rintro (h | h)
    · exact ha.inside h
    · exact hb.inside h

theorem forall_mem_intercalate {P : Char → Prop} {separator : Char} {pieces : List (List Char)}
    (hseparator : P separator) (h : ∀ piece ∈ pieces, ∀ c ∈ piece, P c) :
    ∀ c ∈ [separator].intercalate pieces, P c := by
  induction pieces with
  | nil => nofun
  | cons piece rest ih =>
    obtain ⟨hpiece, hrest⟩ := List.forall_mem_cons.1 h
    cases rest with
    | nil => simpa using hpiece
    | cons next rest =>
      rw [List.intercalate_cons_cons]
      refine List.forall_mem_append.2 ⟨List.forall_mem_append.2 ⟨hpiece, ?_⟩, ih hrest⟩
      simpa using hseparator

theorem unescaped_intercalate {pieces : List (List Char)} (h : ∀ piece ∈ pieces, Unescaped piece) :
    Unescaped ([';'].intercalate pieces) :=
  forall_mem_intercalate (Or.inr (by decide)) h

/-- Texts between semicolons are balanced as a whole, but their semicolons stand outside. -/
theorem balanced_intercalate {pieces : List (List Char)} (h : ∀ piece ∈ pieces, Balanced piece) :
    Balanced ([';'].intercalate pieces) := by
  induction pieces with
  | nil => exact balanced_of_noParens nofun
  | cons piece rest ih =>
    obtain ⟨hpiece, hrest⟩ := List.forall_mem_cons.1 h
    cases rest with
    | nil => simpa using hpiece
    | cons next rest =>
      rw [List.intercalate_cons_cons]
      have hsemicolon : Balanced [';'] := balanced_of_noParens (by simp [NoParens])
      exact (hpiece.append hsemicolon).append (ih hrest)

/-- **Texts in parentheses are read as they are written, also with semicolons between them.** -/
theorem Written.group {pieces : List (List Char)} (h : ∀ piece ∈ pieces, Written piece) :
    Written ('(' :: [';'].intercalate pieces ++ [')']) where
  chars := by
    refine List.forall_mem_append.2 ⟨List.forall_mem_cons.2 ⟨Or.inr (by decide), ?_⟩,
      List.forall_mem_singleton.2 (Or.inr (by decide))⟩
    exact unescaped_intercalate fun piece hpiece => (h piece hpiece).chars
  balanced := (balanced_intercalate fun piece hpiece => (h piece hpiece).balanced).group
  inside := not_standsOutside_group (by decide)
    (balanced_intercalate fun piece hpiece => (h piece hpiece).balanced)

/-! ## Reading -/

/-- **The semicolons between written texts are the only ones outside parentheses.** -/
theorem outerPieces_of_written {pieces : List (List Char)} (hne : pieces ≠ [])
    (h : ∀ piece ∈ pieces, Written piece) :
    OuterPieces ';' ([';'].intercalate pieces) pieces where
  ne_nil := hne
  joined := rfl
  balanced := fun piece hpiece => (h piece hpiece).balanced
  inside := by
    intro piece hpiece front back htext hcount
    obtain ⟨-, hbalanced, hinside⟩ := h piece hpiece
    refine hinside ((standsOutside_iff_count (hbalanced.staysOpen 0)).2 ?_)
    exact ⟨front, back, htext, hcount⟩

theorem Unescaped.not_mem {text : List Char} (h : Unescaped text) {c : Char}
    (hc : isPlainChar c = false) (hother : c ∉ ['(', ')', ';']) : c ∉ text := by
  intro hmem
  rcases h c hmem with hplain | hspecial
  · exact ne_of_isPlainChar hplain hc rfl
  · exact hother hspecial

/-- **Decoding leaves the text alone.** -/
theorem Unescaped.plain {text : List Char} (h : Unescaped text) : Form.Plain text := by
  intro c hc
  constructor
  · rintro rfl
    exact h.not_mem (by decide) (by decide) hc
  · rintro rfl
    exact h.not_mem (by decide) (by decide) hc

theorem Unescaped.skipWhite_eq {text : List Char} (h : Unescaped text) : skipWhite text = text := by
  refine skipWhite_eq_self fun c hc => ?_
  rcases h c (List.mem_of_mem_head? hc) with hplain | hother
  · cases hwhite : isWhite c with
    | false => rfl
    | true => simp [isPlainChar, hwhite] at hplain
  · have hspecial : (['(', ')', ';'].all fun d => !isWhite d) = true := by decide
    simpa using List.all_eq_true.1 hspecial c hother

end OData.Text
