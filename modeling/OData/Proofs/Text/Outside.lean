import OData.Proofs.Text.Balanced

/-!
# Separators outside parentheses

A separator of a balanced text stands outside the parentheses when the text before it is balanced
too. Cutting there leaves balanced pieces in which the separator stands only inside parentheses, and
there is one such way to cut.

## Main statement

* `splitOutside_eq_iff` — the pieces of a balanced text are the only ones of this kind
-/

namespace OData.Text

/-- The separator stands somewhere in the text where no group is open, when `depth` are at first. -/
def StandsOutside (separator : Char) (depth : Nat) (text : List Char) : Prop :=
  ∃ front back, text = front ++ separator :: back ∧ openAfter depth front = 0

/-- The pieces of a text between the separators outside its parentheses. -/
structure OuterPieces (separator : Char) (text : List Char) (pieces : List (List Char)) : Prop where
  ne_nil : pieces ≠ []
  joined : [separator].intercalate pieces = text
  balanced : ∀ piece ∈ pieces, Balanced piece
  inside : ∀ piece ∈ pieces, ∀ front back, piece = front ++ separator :: back →
    front.count '(' ≠ front.count ')'

/-! ## Standing outside -/

variable {separator : Char}

theorem not_standsOutside_nil {depth : Nat} : ¬ StandsOutside separator depth [] := by
  rintro ⟨front, back, h, -⟩
  simp at h

theorem standsOutside_cons {depth : Nat} {c : Char} {rest : List Char} :
    StandsOutside separator depth (c :: rest) ↔
      (c = separator ∧ depth = 0) ∨ StandsOutside separator (depthAfter depth c) rest := by
  constructor
  · rintro ⟨front, back, htext, hopen⟩
    cases front with
    | nil =>
      obtain ⟨hc, -⟩ : c = separator ∧ rest = back := by simpa using htext
      exact Or.inl ⟨hc, hopen⟩
    | cons d front =>
      obtain ⟨rfl, hrest⟩ : c = d ∧ rest = front ++ separator :: back := by simpa using htext
      exact Or.inr ⟨front, back, hrest, hopen⟩
  · rintro (⟨rfl, rfl⟩ | ⟨front, back, rfl, hopen⟩)
    · exact ⟨[], rest, rfl, rfl⟩
    · exact ⟨c :: front, back, rfl, hopen⟩

theorem standsOutside_append {depth : Nat} {a b : List Char} :
    StandsOutside separator depth (a ++ b) ↔
      StandsOutside separator depth a ∨ StandsOutside separator (openAfter depth a) b := by
  induction a generalizing depth with
  | nil => simp [not_standsOutside_nil]
  | cons c rest ih =>
    rw [List.cons_append, standsOutside_cons, standsOutside_cons, ih, openAfter_cons, or_assoc]

/-- Nothing stands outside a group that was open before and stays so. -/
theorem StaysOpen.not_standsOutside {text : List Char} (h : StaysOpen 0 text) {depth : Nat}
    (hdepth : 0 < depth) : ¬ StandsOutside separator depth text := by
  rintro ⟨front, back, rfl, hopen⟩
  have hshift := (staysOpen_append.1 h).1.openAfter_shift depth
  rw [Nat.zero_add, hopen] at hshift
  omega

theorem not_standsOutside_group (hsep : separator ≠ '(' ∧ separator ≠ ')') {text : List Char}
    (h : Balanced text) : ¬ StandsOutside separator 0 ('(' :: text ++ [')']) := by
  have hopen := h.staysOpen 0
  have hafter := h.openAfter_eq 1
  simp [standsOutside_append, standsOutside_cons, not_standsOutside_nil, hopen.not_standsOutside,
    hafter, hsep.1.symm, hsep.2.symm]

theorem not_standsOutside_of_not_mem {text : List Char} (h : separator ∉ text) (depth : Nat) :
    ¬ StandsOutside separator depth text := by
  rintro ⟨front, back, rfl, -⟩
  exact h (by simp)

/-- Without a `(` every separator stands outside. -/
theorem standsOutside_of_mem {text : List Char} (hopen : '(' ∉ text) (h : separator ∈ text) :
    StandsOutside separator 0 text := by
  obtain ⟨front, back, rfl⟩ := List.append_of_mem h
  refine ⟨front, back, rfl, openAfter_of_not_mem fun hmem => hopen ?_⟩
  exact List.mem_append_left _ hmem

/-- In a text that stays open, what stands outside has as many `(` as `)` before it. -/
theorem standsOutside_iff_count {text : List Char} (h : StaysOpen 0 text) :
    StandsOutside separator 0 text ↔
      ∃ front back, text = front ++ separator :: back ∧ front.count '(' = front.count ')' := by
  have hcount : ∀ front back, text = front ++ separator :: back →
      (openAfter 0 front = 0 ↔ front.count '(' = front.count ')') := by
    intro front back htext
    subst htext
    have := (staysOpen_append.1 h).1.openAfter_add
    omega
  constructor
  · rintro ⟨front, back, htext, hopen⟩
    exact ⟨front, back, htext, (hcount front back htext).1 hopen⟩
  · rintro ⟨front, back, htext, hopen⟩
    exact ⟨front, back, htext, (hcount front back htext).2 hopen⟩

theorem Balanced.not_standsOutside_iff {text : List Char} (h : Balanced text) :
    ¬ StandsOutside separator 0 text ↔
      ∀ front back, text = front ++ separator :: back → front.count '(' ≠ front.count ')' := by
  rw [standsOutside_iff_count (h.staysOpen 0)]
  exact ⟨fun hnot front back htext hcount => hnot ⟨front, back, htext, hcount⟩,
    fun hinside ⟨front, back, htext, hcount⟩ => hinside front back htext hcount⟩

/-! ## Enclosed texts -/

/-- The separator stands only inside the parentheses of the text, and none of them stays open. -/
def Enclosed (separator : Char) (text : List Char) : Prop :=
  ¬ StandsOutside separator 0 text ∧ openAfter 0 text = 0

theorem Enclosed.append {a b : List Char} (ha : Enclosed separator a) (hb : Enclosed separator b) :
    Enclosed separator (a ++ b) := by
  rw [Enclosed, standsOutside_append, openAfter_append, ha.2, not_or]
  exact ⟨⟨ha.1, hb.1⟩, hb.2⟩

theorem enclosed_of_flat {text : List Char} (hsep : separator ∉ text) (hparens : NoParens text) :
    Enclosed separator text :=
  ⟨not_standsOutside_of_not_mem hsep 0, openAfter_of_noParens hparens 0⟩

/-! ## Cutting -/

/-- **A text in which nothing stands outside goes into the first piece as a whole.** -/
theorem splitOutsideFrom_append (hsep : separator ≠ '(' ∧ separator ≠ ')') {depth : Nat}
    {text : List Char} (h : ¬ StandsOutside separator depth text) (rest : List Char) :
    splitOutsideFrom separator depth (text ++ rest) =
      (splitOutsideFrom separator (openAfter depth text) rest).modifyHead (text ++ ·) := by
  induction text generalizing depth with
  | nil =>
    rw [List.nil_append, openAfter_nil]
    cases splitOutsideFrom separator depth rest <;> simp
  | cons c text ih =>
    rw [standsOutside_cons, not_or] at h
    have hc : ¬ (c = separator ∧ depthAfter depth c = 0) := by
      rintro ⟨rfl, hzero⟩
      rw [depthAfter_of_ne hsep] at hzero
      exact h.1 ⟨rfl, hzero⟩
    rw [List.cons_append, splitOutsideFrom, if_neg hc, ih h.2, openAfter_cons]
    cases splitOutsideFrom separator (openAfter (depthAfter depth c) text) rest <;> rfl

theorem splitOutside_of_not_standsOutside (hsep : separator ≠ '(' ∧ separator ≠ ')')
    {text : List Char} (h : ¬ StandsOutside separator 0 text) :
    splitOutside separator text = [text] := by
  have := splitOutsideFrom_append hsep h []
  simpa [splitOutside, splitOutsideFrom] using this

/-- A separator behind a text that leaves no group open cuts it off. -/
theorem splitOutside_append_of_closed (hsep : separator ≠ '(' ∧ separator ≠ ')') {text : List Char}
    (hclosed : openAfter 0 text = 0) (h : ¬ StandsOutside separator 0 text) (rest : List Char) :
    splitOutside separator (text ++ separator :: rest) = text :: splitOutside separator rest := by
  rw [splitOutside, splitOutsideFrom_append hsep h, hclosed, splitOutsideFrom,
    depthAfter_of_ne hsep, if_pos ⟨rfl, rfl⟩]
  simp [splitOutside]

/-- **A separator behind a balanced text cuts it off.** -/
theorem splitOutside_append_cons (hsep : separator ≠ '(' ∧ separator ≠ ')') {text : List Char}
    (hbalanced : Balanced text) (h : ¬ StandsOutside separator 0 text) (rest : List Char) :
    splitOutside separator (text ++ separator :: rest) = text :: splitOutside separator rest :=
  splitOutside_append_of_closed hsep (hbalanced.openAfter_eq 0) h rest

/-- A separator that stands outside has a first place where it does. -/
theorem StandsOutside.exists_first {depth : Nat} {text : List Char}
    (h : StandsOutside separator depth text) :
    ∃ front back, text = front ++ separator :: back ∧ openAfter depth front = 0 ∧
      ¬ StandsOutside separator depth front := by
  induction text generalizing depth with
  | nil => exact absurd h not_standsOutside_nil
  | cons c rest ih =>
    rcases standsOutside_cons.1 h with ⟨rfl, rfl⟩ | hlater
    · exact ⟨[], rest, rfl, rfl, not_standsOutside_nil⟩
    · by_cases hhere : c = separator ∧ depth = 0
      · exact ⟨[], rest, by rw [hhere.1]; rfl, hhere.2, not_standsOutside_nil⟩
      · obtain ⟨front, back, rfl, hopen, hfirst⟩ := ih hlater
        refine ⟨c :: front, back, rfl, hopen, ?_⟩
        rw [standsOutside_cons]
        rintro (hnow | hfront)
        · exact hhere hnow
        · exact hfirst hfront

/-- **What holds of a text in which nothing stands outside, and is kept when such a text is put in
front of another with a separator outside between them, holds of every text.** -/
theorem outside_induction (separator : Char) {P : List Char → Prop}
    (whole : ∀ text, ¬ StandsOutside separator 0 text → P text)
    (cut : ∀ piece rest, ¬ StandsOutside separator 0 piece → openAfter 0 piece = 0 → P rest →
      P (piece ++ separator :: rest)) (text : List Char) : P text := by
  have hlength : ∀ n text, text.length < n → P text := by
    intro n
    induction n with
    | zero => intro text h; omega
    | succ n ih =>
      intro text hlt
      by_cases h : StandsOutside separator 0 text
      · obtain ⟨piece, rest, rfl, hclosed, hpiece⟩ := h.exists_first
        simp only [List.length_append, List.length_cons] at hlt
        exact cut piece rest hpiece hclosed (ih rest (by omega))
      · exact whole text h
  exact hlength _ text (Nat.lt_succ_self _)

/-- **A separator behind a text that leaves no group open cuts there**, and the two sides are cut by
themselves. -/
theorem splitOutside_append_separator (hsep : separator ≠ '(' ∧ separator ≠ ')') {text : List Char}
    (hclosed : openAfter 0 text = 0) (rest : List Char) :
    splitOutside separator (text ++ separator :: rest) =
      splitOutside separator text ++ splitOutside separator rest := by
  refine outside_induction separator (P := fun text => openAfter 0 text = 0 →
    splitOutside separator (text ++ separator :: rest) =
      splitOutside separator text ++ splitOutside separator rest) ?_ ?_ text hclosed
  · intro text h hclosed
    rw [splitOutside_append_of_closed hsep hclosed h, splitOutside_of_not_standsOutside hsep h,
      List.singleton_append]
  · intro piece text hpiece hopen ih hclosed
    rw [openAfter_append, hopen, openAfter_cons, depthAfter_of_ne hsep] at hclosed
    rw [List.append_assoc, List.cons_append, splitOutside_append_of_closed hsep hopen hpiece,
      splitOutside_append_of_closed hsep hopen hpiece, ih hclosed, List.cons_append]

/-- What the first piece is when `depth` groups are open, and what the others are. -/
theorem splitOutsideFrom_pieces (hsep : separator ≠ '(' ∧ separator ≠ ')') {depth : Nat}
    {text piece : List Char} {pieces : List (List Char)} (hopen : StaysOpen depth text)
    (hclosed : openAfter depth text = 0)
    (h : splitOutsideFrom separator depth text = piece :: pieces) :
    (StaysOpen depth piece ∧ openAfter depth piece = 0 ∧ ¬ StandsOutside separator depth piece) ∧
      ∀ other ∈ pieces, Balanced other ∧ ¬ StandsOutside separator 0 other := by
  induction text generalizing depth piece pieces with
  | nil =>
    obtain ⟨rfl, rfl⟩ : [] = piece ∧ [] = pieces := by simpa [splitOutsideFrom] using h
    exact ⟨⟨hopen, hclosed, not_standsOutside_nil⟩, by simp⟩
  | cons c rest ih =>
    obtain ⟨hc, hrest⟩ := staysOpen_cons.1 hopen
    obtain ⟨first, others, hcut⟩ := List.exists_cons_of_ne_nil
      (splitOutsideFrom_ne_nil separator (depthAfter depth c) rest)
    obtain ⟨⟨hfirst, hfirst0, hin⟩, hothers⟩ := ih hrest hclosed hcut
    rw [splitOutsideFrom, hcut] at h
    split at h
    · -- the text is cut here, so no group is open and the next piece is balanced by itself
      rename_i hcut
      obtain ⟨rfl, hzero⟩ := hcut
      obtain ⟨rfl, rfl⟩ : [] = piece ∧ first :: others = pieces := by simpa using h
      rw [hzero] at hfirst hfirst0 hin
      rw [depthAfter_of_ne hsep] at hzero
      refine ⟨⟨staysOpen_nil depth, hzero, not_standsOutside_nil⟩, fun other hother => ?_⟩
      rcases List.mem_cons.1 hother with rfl | hother
      · exact ⟨balanced_iff.2 ⟨hfirst, hfirst0⟩, hin⟩
      · exact hothers other hother
    · rename_i hnot
      obtain ⟨rfl, rfl⟩ : c :: first = piece ∧ others = pieces := by simpa using h
      refine ⟨⟨staysOpen_cons.2 ⟨hc, hfirst⟩, hfirst0, ?_⟩, hothers⟩
      rw [standsOutside_cons]
      rintro (⟨rfl, rfl⟩ | hlater)
      · exact hnot ⟨rfl, depthAfter_of_ne hsep 0⟩
      · exact hin hlater

theorem outerPieces_splitOutside (hsep : separator ≠ '(' ∧ separator ≠ ')') {text : List Char}
    (h : Balanced text) : OuterPieces separator text (splitOutside separator text) := by
  obtain ⟨hopen, hclosed⟩ := balanced_iff.1 h
  obtain ⟨first, others, hcut⟩ := List.exists_cons_of_ne_nil
    (splitOutsideFrom_ne_nil separator 0 text)
  obtain ⟨⟨hfirst, hfirst0, hin⟩, hothers⟩ := splitOutsideFrom_pieces hsep hopen hclosed hcut
  have hall : ∀ piece ∈ splitOutside separator text,
      Balanced piece ∧ ¬ StandsOutside separator 0 piece := by
    intro piece hpiece
    rw [splitOutside, hcut] at hpiece
    rcases List.mem_cons.1 hpiece with rfl | hpiece
    · exact ⟨balanced_iff.2 ⟨hfirst, hfirst0⟩, hin⟩
    · exact hothers piece hpiece
  exact {
    ne_nil := splitOutsideFrom_ne_nil separator 0 text
    joined := intercalate_splitOutside separator text
    balanced := fun piece hpiece => (hall piece hpiece).1
    inside := fun piece hpiece =>
      (hall piece hpiece).1.not_standsOutside_iff.1 (hall piece hpiece).2 }

theorem OuterPieces.splitOutside_eq (hsep : separator ≠ '(' ∧ separator ≠ ')') {text : List Char}
    {pieces : List (List Char)} (h : OuterPieces separator text pieces) :
    splitOutside separator text = pieces := by
  obtain ⟨hne, rfl, hbalanced, hinside⟩ := h
  induction pieces with
  | nil => exact absurd rfl hne
  | cons piece rest ih =>
    have hpiece := hbalanced piece List.mem_cons_self
    have hin : ¬ StandsOutside separator 0 piece :=
      hpiece.not_standsOutside_iff.2 (hinside piece List.mem_cons_self)
    cases rest with
    | nil => simpa using splitOutside_of_not_standsOutside hsep hin
    | cons second rest =>
      rw [List.intercalate_cons_cons, List.append_assoc, List.singleton_append,
        splitOutside_append_cons hsep hpiece hin]
      exact congrArg _ (ih (by simp) (fun x hx => hbalanced x (List.mem_cons_of_mem _ hx))
        fun x hx => hinside x (List.mem_cons_of_mem _ hx))

/-- **The pieces of a balanced text are balanced, hold the separator only inside parentheses, and
give the text when joined; no other pieces do.** -/
theorem splitOutside_eq_iff (hsep : separator ≠ '(' ∧ separator ≠ ')') {text : List Char}
    (h : Balanced text) {pieces : List (List Char)} :
    splitOutside separator text = pieces ↔ OuterPieces separator text pieces := by
  constructor
  · rintro rfl
    exact outerPieces_splitOutside hsep h
  · exact OuterPieces.splitOutside_eq hsep

end OData.Text
