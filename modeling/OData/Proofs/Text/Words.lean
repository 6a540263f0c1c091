import OData.Proofs.Text.Balanced
import OData.Text.Identifier
import OData.Text.White

/-!
# Words and the white space around them

The cuts of white space and of identifiers, read backwards: a text put together from white space, a
word and a rest is taken apart into just these parts, as long as the rest does not begin with more
of the part before it.
-/

namespace OData.Text

/-- A text of white space only. -/
def AllWhite (text : List Char) : Prop := ∀ c ∈ text, isWhite c = true

instance : DecidablePred AllWhite := fun _ => decidable_of_iff _ List.all_eq_true

/-! ## Classes of characters -/

theorem continuesIdentifier_range {c : Char} (h : continuesIdentifier c = true) :
    (48 ≤ c.toNat ∧ c.toNat ≤ 57) ∨ (65 ≤ c.toNat ∧ c.toNat ≤ 90) ∨ c.toNat = 95 ∨
      (97 ≤ c.toNat ∧ c.toNat ≤ 122) := by
  have hclass : (c.isUpper || c.isLower || c.isDigit || c == '_') = true := h
  simp only [Bool.or_eq_true, beq_iff_eq] at hclass
  rcases hclass with ((h | h) | h) | rfl
  · have hupper : c.val ≥ 'A'.val ∧ c.val ≤ 'Z'.val := of_decide_eq_true h
    exact Or.inr (Or.inl (hupper.imp UInt32.le_iff_toNat_le.1 UInt32.le_iff_toNat_le.1))
  · have hlower : (decide (c.val ≥ 'a'.val) && decide (c.val ≤ 'z'.val)) = true := h
    simp only [Bool.and_eq_true, decide_eq_true_eq] at hlower
    exact Or.inr (Or.inr (Or.inr (hlower.imp UInt32.le_iff_toNat_le.1 UInt32.le_iff_toNat_le.1)))
  · exact Or.inl (Char.isDigit_iff_toNat.1 h)
  · exact Or.inr (Or.inr (Or.inl rfl))

theorem continuesIdentifier_of_starts {c : Char} (h : startsIdentifier c = true) :
    continuesIdentifier c = true := by
  simp only [startsIdentifier, continuesIdentifier, Char.isAlphanum, Bool.or_eq_true] at h ⊢
  rcases h with h | h
  · exact Or.inl (Or.inl h)
  · exact Or.inr h

/-- No character of an identifier is white space. -/
theorem isWhite_of_continuesIdentifier {c : Char} (h : continuesIdentifier c = true) :
    isWhite c = false := by
  have := continuesIdentifier_range h
  simp only [isWhite, whiteRanges, List.any_cons, List.any_nil, Bool.or_false, Bool.or_eq_false_iff,
    Bool.and_eq_false_iff, decide_eq_false_iff_not]
  omega

theorem continuesIdentifier_of_isIdentifier {name : List Char} (h : isIdentifier name = true) :
    ∀ c ∈ name, continuesIdentifier c = true := by
  cases name with
  | nil => nofun
  | cons first rest =>
    simp only [isIdentifier, Bool.and_eq_true, List.all_eq_true] at h
    intro c hc
    rcases List.mem_cons.1 hc with rfl | hc
    · exact continuesIdentifier_of_starts h.1
    · exact h.2 c hc

theorem not_mem_of_isIdentifier {name : List Char} (h : isIdentifier name = true) {c : Char}
    (hc : continuesIdentifier c = false) : c ∉ name := by
  intro hmem
  have := continuesIdentifier_of_isIdentifier h c hmem
  rw [hc] at this
  contradiction

theorem ne_of_isWhite {c d : Char} (hc : isWhite c = true) (hd : isWhite d = false) : c ≠ d := by
  rintro rfl
  exact absurd hc (by simp [hd])

theorem AllWhite.not_mem {white : List Char} (h : AllWhite white) {c : Char}
    (hc : isWhite c = false) : c ∉ white :=
  fun hmem => ne_of_isWhite (h c hmem) hc rfl

theorem AllWhite.noParens {white : List Char} (h : AllWhite white) : NoParens white :=
  fun c hc => ⟨ne_of_isWhite (h c hc) (by decide), ne_of_isWhite (h c hc) (by decide)⟩

/-! ## White space -/

@[simp] theorem allWhite_nil : AllWhite [] := nofun

theorem AllWhite.append {a b : List Char} (ha : AllWhite a) (hb : AllWhite b) :
    AllWhite (a ++ b) := by
  intro c hc
  rcases List.mem_append.1 hc with hc | hc
  · exact ha c hc
  · exact hb c hc

@[simp] theorem skipWhite_nil : skipWhite [] = [] := rfl

theorem skipWhite_append {white : List Char} (h : AllWhite white) (rest : List Char) :
    skipWhite (white ++ rest) = skipWhite rest :=
  List.dropWhile_append_of_pos h

theorem skipWhite_of_allWhite {white : List Char} (h : AllWhite white) : skipWhite white = [] := by
  simpa using skipWhite_append h []

theorem skipWhite_eq_self {text : List Char} (h : ∀ c ∈ text.head?, isWhite c = false) :
    skipWhite text = text := by
  cases text with
  | nil => rfl
  | cons c rest => simp [skipWhite, h c rfl]

/-- **A text is white space and what skipping it leaves.** -/
theorem exists_white_append (text : List Char) :
    ∃ white, AllWhite white ∧ text = white ++ skipWhite text := by
  refine ⟨text.takeWhile isWhite, fun c hc => ?_, ?_⟩
  · exact List.all_eq_true.1 (List.all_takeWhile (p := isWhite)) c hc
  · exact List.takeWhile_append_dropWhile.symm

/-- The white space in front of a balanced text is no part of its groups. -/
theorem Balanced.skipWhite {text : List Char} (h : Balanced text) :
    Balanced (Text.skipWhite text) := by
  obtain ⟨white, hwhite, htext⟩ := exists_white_append text
  rw [htext] at h
  exact (balanced_of_noParens hwhite.noParens).of_append_left h

theorem isWhite_head_skipWhite (text : List Char) :
    ∀ c ∈ (skipWhite text).head?, isWhite c = false := by
  intro c hc
  cases h : skipWhite text with
  | nil => simp [h] at hc
  | cons d rest =>
    obtain rfl : d = c := by simpa [h] using hc
    exact skipWhite_cons h

theorem skipWhite_skipWhite (text : List Char) : skipWhite (skipWhite text) = skipWhite text :=
  skipWhite_eq_self (isWhite_head_skipWhite text)

theorem skipWhite_append_cons {c : Char} (hc : isWhite c = false) (text rest : List Char) :
    skipWhite (text ++ c :: rest) = skipWhite text ++ c :: rest := by
  obtain ⟨white, hwhite, htext⟩ := exists_white_append text
  rw [htext, List.append_assoc, skipWhite_append hwhite, skipWhite_append hwhite,
    skipWhite_skipWhite]
  refine skipWhite_eq_self fun d hd => ?_
  cases h : skipWhite text with
  | nil =>
    obtain rfl : c = d := by simpa [h] using hd
    exact hc
  | cons e tail =>
    obtain rfl : e = d := by simpa [h] using hd
    exact skipWhite_cons h

/-- White space in front of a group makes no end for it. -/
theorem splitGroup?_eq_none_of_skipWhite {text : List Char}
    (h : splitGroup? (skipWhite text) = none) : splitGroup? text = none := by
  cases hcut : splitGroup? text with
  | none => rfl
  | some cut =>
    obtain ⟨htext, hinner⟩ := splitGroup?_eq_some_iff.1 (show _ = some (cut.1, cut.2) from hcut)
    rw [htext, skipWhite_append_cons (by decide),
      splitGroup?_eq_some_iff.2 ⟨rfl, hinner.skipWhite⟩] at h
    nomatch h

/-- Nor does it take an end away. -/
theorem splitGroup?_skipWhite_eq_none {text : List Char} (h : splitGroup? text = none) :
    splitGroup? (skipWhite text) = none := by
  cases hcut : splitGroup? (skipWhite text) with
  | none => rfl
  | some cut =>
    obtain ⟨hrest, hinner⟩ := splitGroup?_eq_some_iff.1 (show _ = some (cut.1, cut.2) from hcut)
    obtain ⟨white, hwhite, htext⟩ := exists_white_append text
    have hgroup : Balanced (white ++ cut.1) := (balanced_of_noParens hwhite.noParens).append hinner
    rw [htext, hrest, ← List.append_assoc, splitGroup?_eq_some_iff.2 ⟨rfl, hgroup⟩] at h
    nomatch h

/-! ## Trimming -/

theorem dropEndWhile_append {p : Char → Bool} {word tail : List Char}
    (hword : ∀ c ∈ word.getLast?, p c = false) (htail : ∀ c ∈ tail, p c = true) :
    dropEndWhile p (word ++ tail) = word := by
  rw [dropEndWhile, List.reverse_append, List.dropWhile_append_of_pos fun c hc =>
    htail c (List.mem_reverse.1 hc)]
  cases h : word.reverse with
  | nil => simp [List.reverse_eq_nil_iff.1 h]
  | cons c rest =>
    have hlast : p c = false := hword c (by simp [← List.head?_reverse, h])
    rw [List.dropWhile_cons_of_neg (by simp [hlast]), ← h, List.reverse_reverse]

/-- What is dropped at the end, and where that stops. -/
theorem dropEndWhile_eq_iff {p : Char → Bool} {text word : List Char} :
    dropEndWhile p text = word ↔
      ∃ tail, text = word ++ tail ∧ (∀ c ∈ tail, p c = true) ∧
        ∀ c ∈ word.getLast?, p c = false := by
  constructor
  · rintro rfl
    refine ⟨(text.reverse.takeWhile p).reverse, ?_, fun c hc => ?_, fun c hc => ?_⟩
    · rw [dropEndWhile, ← List.reverse_append, List.takeWhile_append_dropWhile,
        List.reverse_reverse]
    · exact List.all_eq_true.1 (List.all_takeWhile (p := p)) c (List.mem_reverse.1 hc)
    · have hhead := List.head?_dropWhile_not p text.reverse
      rw [dropEndWhile, List.getLast?_reverse, Option.mem_def] at hc
      simpa [hc] using hhead
  · rintro ⟨tail, rfl, htail, hword⟩
    exact dropEndWhile_append hword htail

/-- **Trimming takes the padding off a word.** -/
theorem trim_padded {before word after : List Char} (hbefore : AllWhite before)
    (hword : ∀ c ∈ word, isWhite c = false) (hafter : AllWhite after) :
    trim (before ++ word ++ after) = word := by
  rw [trim, List.append_assoc, skipWhite_append hbefore]
  cases word with
  | nil => simp [skipWhite_of_allWhite hafter, dropEndWhile]
  | cons c rest =>
    have hhead : skipWhite (c :: rest ++ after) = c :: rest ++ after :=
      skipWhite_eq_self (by simpa using hword c List.mem_cons_self)
    rw [hhead]
    exact dropEndWhile_append (fun d hd => hword d (List.mem_of_getLast? hd)) hafter

theorem exists_padding (text : List Char) :
    ∃ before after, AllWhite before ∧ AllWhite after ∧ text = before ++ trim text ++ after := by
  obtain ⟨before, hbefore, htext⟩ := exists_white_append text
  obtain ⟨after, hcut, hafter, -⟩ := dropEndWhile_eq_iff.1 (rfl : trim text = trim text)
  exact ⟨before, after, hbefore, hafter, by rw [List.append_assoc, ← hcut, ← htext]⟩

/-! ## Identifiers -/

/-- **An identifier is taken off whole when the rest does not continue it.** -/
theorem takeIdentifier?_append_eq {name rest : List Char} (h : isIdentifier name = true)
    (hrest : ∀ c ∈ rest.head?, continuesIdentifier c = false) :
    takeIdentifier? (name ++ rest) = some (name, rest) := by
  cases name with
  | nil => simp [isIdentifier] at h
  | cons first tail =>
    simp only [isIdentifier, Bool.and_eq_true, List.all_eq_true] at h
    rw [List.cons_append, takeIdentifier?, if_pos h.1, List.takeWhile_append_of_pos h.2,
      List.dropWhile_append_of_pos h.2]
    cases rest with
    | nil => simp
    | cons c rest => simp [hrest c rfl]

/-- What does not open an identifier gives none an opening either. -/
theorem takeIdentifier?_append_eq_none {text : List Char} {c : Char}
    (h : takeIdentifier? text = none) (hc : startsIdentifier c = false) (rest : List Char) :
    takeIdentifier? (text ++ c :: rest) = none := by
  cases text with
  | nil => simp [takeIdentifier?, hc]
  | cons first tail =>
    simp only [takeIdentifier?, ite_eq_right_iff, reduceCtorEq, imp_false] at h
    simp [takeIdentifier?, h]

theorem ne_nil_of_isIdentifier {name : List Char} (h : isIdentifier name = true) : name ≠ [] := by
  rintro rfl
  nomatch h

theorem noParens_of_isIdentifier {name : List Char} (h : isIdentifier name = true) :
    NoParens name := by
  intro c hc
  have hcontinues := continuesIdentifier_of_isIdentifier h c hc
  constructor
  · rintro rfl
    exact absurd hcontinues (by decide)
  · rintro rfl
    exact absurd hcontinues (by decide)

theorem head_of_isIdentifier {name : List Char} (h : isIdentifier name = true)
    (rest : List Char) : ∀ c ∈ (name ++ rest).head?, isWhite c = false := by
  cases name with
  | nil => simp [isIdentifier] at h
  | cons first tail =>
    simpa using isWhite_of_continuesIdentifier
      (continuesIdentifier_of_isIdentifier h first List.mem_cons_self)

/-- White space ends an identifier as well as what stands behind the white space does. -/
theorem head_of_allWhite {white rest : List Char} (hwhite : AllWhite white)
    (hrest : ∀ c ∈ rest.head?, continuesIdentifier c = false) :
    ∀ c ∈ (white ++ rest).head?, continuesIdentifier c = false := by
  cases white with
  | nil => exact hrest
  | cons first tail =>
    rintro c ⟨⟩
    refine Bool.eq_false_iff.2 fun hcontinues => ?_
    have hnot := isWhite_of_continuesIdentifier hcontinues
    rw [hwhite first List.mem_cons_self] at hnot
    contradiction

end OData.Text
