import OData.Text.Parens

/-!
# Balanced parentheses

A text is balanced when no beginning of it has more `)` than `(`, and the whole of it has as many of
the one as of the other. The cut at the end of a group is described by this notion alone, without
the number of open groups that the cut counts on its way.

## The number of open groups

`openAfter` is that number. It stops at zero, so it agrees with the difference of the two counts
only while the text `StaysOpen`, and that is all a balanced text needs.

A text in which every `(` has its `)` need not be balanced: it may have a `)` too many.

## Main statements

* `splitGroup?_eq_some_iff` — a group ends where the balanced text behind its `(` ends
* `allClosed_of_openAfter_eq` — when no group is open behind a text, all of them have ended
-/

namespace OData.Text

/-- As many `(` as `)`, and no beginning with more `)` than `(`. -/
structure Balanced (text : List Char) : Prop where
  closed : text.count '(' = text.count ')'
  open_of_prefix : ∀ front, front <+: text → front.count ')' ≤ front.count '('

/-- No beginning of the text closes more than `depth` groups and the ones opened in it. -/
def StaysOpen (depth : Nat) (text : List Char) : Prop :=
  ∀ front, front <+: text → front.count ')' ≤ depth + front.count '('

/-- The number of open groups after a text. -/
def openAfter (depth : Nat) (text : List Char) : Nat := text.foldl depthAfter depth

/-- Every `(` of the text has its `)` later in the text, with a balanced text between the two. -/
def AllClosed (text : List Char) : Prop :=
  ∀ front back, text = front ++ '(' :: back →
    ∃ inner after, Balanced inner ∧ back = inner ++ ')' :: after

/-- A text without parentheses. -/
def NoParens (text : List Char) : Prop := ∀ c ∈ text, c ≠ '(' ∧ c ≠ ')'

/-! ## Character by character -/

@[simp] theorem depthAfter_open (depth : Nat) : depthAfter depth '(' = depth + 1 := rfl

@[simp] theorem depthAfter_close (depth : Nat) : depthAfter depth ')' = depth - 1 := rfl

theorem depthAfter_of_ne {c : Char} (h : c ≠ '(' ∧ c ≠ ')') (depth : Nat) :
    depthAfter depth c = depth := by
  rw [depthAfter, if_neg h.1, if_neg h.2]

/-- A character moves the number of open groups by what it adds to the two counts. -/
theorem depthAfter_add {depth : Nat} {c : Char} (h : c = ')' → 0 < depth) (text : List Char) :
    depthAfter depth c + (c :: text).count ')' + text.count '(' =
      depth + (c :: text).count '(' + text.count ')' := by
  by_cases hopen : c = '('
  · subst hopen
    simp
    omega
  · by_cases hclose : c = ')'
    · subst hclose
      have := h rfl
      simp
      omega
    · rw [depthAfter_of_ne ⟨hopen, hclose⟩]
      simp [hopen, hclose]
      omega

@[simp] theorem openAfter_nil (depth : Nat) : openAfter depth [] = depth := rfl

@[simp] theorem openAfter_cons (depth : Nat) (c : Char) (rest : List Char) :
    openAfter depth (c :: rest) = openAfter (depthAfter depth c) rest := rfl

@[simp] theorem openAfter_append (depth : Nat) (a b : List Char) :
    openAfter depth (a ++ b) = openAfter (openAfter depth a) b :=
  List.foldl_append

@[simp] theorem staysOpen_nil (depth : Nat) : StaysOpen depth [] := by
  intro front h
  simp [List.prefix_nil.1 h]

/-- Only a `)` can fail to stay open, and does so when no group is open. -/
theorem staysOpen_cons {depth : Nat} {c : Char} {rest : List Char} :
    StaysOpen depth (c :: rest) ↔ (c = ')' → 0 < depth) ∧ StaysOpen (depthAfter depth c) rest := by
  constructor
  · intro h
    have hc : c = ')' → 0 < depth := by
      intro hclose
      have hone := h [c] ⟨rest, rfl⟩
      subst hclose
      simp at hone
      omega
    refine ⟨hc, fun front hfront => ?_⟩
    have hcons := h (c :: front) (by simpa using hfront)
    have := depthAfter_add hc front
    omega
  · rintro ⟨hc, hrest⟩ front hfront
    rcases List.prefix_cons_iff.1 hfront with rfl | ⟨tail, rfl, htail⟩
    · simp
    · have := hrest tail htail
      have := depthAfter_add hc tail
      omega

theorem staysOpen_append {depth : Nat} {a b : List Char} :
    StaysOpen depth (a ++ b) ↔ StaysOpen depth a ∧ StaysOpen (openAfter depth a) b := by
  induction a generalizing depth with
  | nil => simp
  | cons c rest ih => rw [List.cons_append, staysOpen_cons, staysOpen_cons, ih, openAfter_cons,
      and_assoc]

/-- **While the text stays open, the number of open groups is the difference of the counts.** -/
theorem StaysOpen.openAfter_add {depth : Nat} {text : List Char} (h : StaysOpen depth text) :
    openAfter depth text + text.count ')' = depth + text.count '(' := by
  induction text generalizing depth with
  | nil => simp
  | cons c rest ih =>
    obtain ⟨hc, hrest⟩ := staysOpen_cons.1 h
    have hstep := depthAfter_add hc rest
    have hafter := ih hrest
    rw [openAfter_cons]
    omega

theorem StaysOpen.mono {a b : Nat} {text : List Char} (h : StaysOpen a text) (hab : a ≤ b) :
    StaysOpen b text :=
  fun front hfront => Nat.le_trans (h front hfront) (by omega)

/-- Groups that were open before stay so. -/
theorem StaysOpen.openAfter_shift {depth : Nat} {text : List Char} (h : StaysOpen depth text)
    (more : Nat) : openAfter (depth + more) text = openAfter depth text + more := by
  have h1 := h.openAfter_add
  have h2 := (h.mono (Nat.le_add_right depth more)).openAfter_add
  omega

theorem staysOpen_of_noParens {text : List Char} (h : NoParens text) (depth : Nat) :
    StaysOpen depth text := by
  induction text with
  | nil => simp
  | cons c rest ih =>
    have hc := h c List.mem_cons_self
    rw [staysOpen_cons, depthAfter_of_ne hc]
    exact ⟨fun hclose => absurd hclose hc.2, ih fun x hx => h x (List.mem_cons_of_mem _ hx)⟩

theorem openAfter_of_noParens {text : List Char} (h : NoParens text) (depth : Nat) :
    openAfter depth text = depth := by
  induction text with
  | nil => rfl
  | cons c rest ih =>
    rw [openAfter_cons, depthAfter_of_ne (h c List.mem_cons_self)]
    exact ih fun x hx => h x (List.mem_cons_of_mem _ hx)

/-- Without a `(` no group is ever open, however many `)` there are. -/
theorem openAfter_of_not_mem {text : List Char} (h : '(' ∉ text) : openAfter 0 text = 0 := by
  induction text with
  | nil => rfl
  | cons c rest ih =>
    obtain ⟨hc, hrest⟩ := List.ne_and_not_mem_of_not_mem_cons h
    have hstep : depthAfter 0 c = 0 := by
      rw [depthAfter, if_neg hc.symm]
      split <;> rfl
    rw [openAfter_cons, hstep]
    exact ih hrest

/-! ## Balanced texts -/

theorem balanced_iff {text : List Char} :
    Balanced text ↔ StaysOpen 0 text ∧ openAfter 0 text = 0 := by
  constructor
  · intro h
    have hopen : StaysOpen 0 text := by
      intro front hfront
      simpa using h.open_of_prefix front hfront
    have := hopen.openAfter_add
    have := h.closed
    exact ⟨hopen, by omega⟩
  · rintro ⟨hopen, hafter⟩
    have := hopen.openAfter_add
    exact ⟨by omega, fun front hfront => by simpa using hopen front hfront⟩

theorem Balanced.staysOpen {text : List Char} (h : Balanced text) (depth : Nat) :
    StaysOpen depth text :=
  (balanced_iff.1 h).1.mono (Nat.zero_le depth)

/-- **A balanced text leaves the number of open groups as it was.** -/
theorem Balanced.openAfter_eq {text : List Char} (h : Balanced text) (depth : Nat) :
    openAfter depth text = depth := by
  obtain ⟨hopen, hafter⟩ := balanced_iff.1 h
  simpa [hafter] using hopen.openAfter_shift depth

theorem balanced_of_noParens {text : List Char} (h : NoParens text) : Balanced text :=
  balanced_iff.2 ⟨staysOpen_of_noParens h 0, openAfter_of_noParens h 0⟩

theorem Balanced.append {a b : List Char} (ha : Balanced a) (hb : Balanced b) :
    Balanced (a ++ b) := by
  rw [balanced_iff, staysOpen_append, openAfter_append, ha.openAfter_eq, hb.openAfter_eq]
  exact ⟨⟨ha.staysOpen 0, hb.staysOpen 0⟩, rfl⟩

theorem Balanced.of_append_left {a b : List Char} (ha : Balanced a) (h : Balanced (a ++ b)) :
    Balanced b := by
  rw [balanced_iff, staysOpen_append, openAfter_append, ha.openAfter_eq] at h
  exact balanced_iff.2 ⟨h.1.2, h.2⟩

/-- **A group around a balanced text is balanced.** -/
theorem Balanced.group {text : List Char} (h : Balanced text) :
    Balanced ('(' :: text ++ [')']) := by
  have hopen := h.openAfter_eq 1
  rw [balanced_iff]
  simp [staysOpen_append, staysOpen_cons, h.staysOpen, hopen]

/-! ## The end of a group -/

theorem splitGroupFrom?_eq_some_iff {depth : Nat} {text inner after : List Char} :
    splitGroupFrom? depth text = some (inner, after) ↔
      text = inner ++ ')' :: after ∧ StaysOpen depth inner ∧ openAfter depth inner = 0 := by
  induction text generalizing depth inner with
  | nil => simp [splitGroupFrom?]
  | cons c rest ih =>
    rw [splitGroupFrom?]
    split
    · rename_i hc
      obtain ⟨rfl, rfl⟩ := hc
      constructor
      · intro h
        obtain ⟨rfl, rfl⟩ : [] = inner ∧ rest = after := by simpa using h
        simp
      · rintro ⟨htext, hopen, -⟩
        cases inner with
        | nil => simpa using htext
        | cons d inner =>
          -- the text could only go on inside the group if its first `)` closed something
          obtain ⟨rfl, -⟩ : ')' = d ∧ _ := by simpa using htext
          exact absurd ((staysOpen_cons.1 hopen).1 rfl) (Nat.lt_irrefl 0)
    · rename_i hc
      rw [Option.map_eq_some_iff]
      constructor
      · rintro ⟨⟨inner', after'⟩, hcut, heq⟩
        obtain ⟨rfl, rfl⟩ : c :: inner' = inner ∧ after' = after := by simpa using heq
        obtain ⟨rfl, hopen, hafter⟩ := ih.1 hcut
        refine ⟨rfl, staysOpen_cons.2 ⟨fun hclose => ?_, hopen⟩, hafter⟩
        exact Nat.pos_of_ne_zero fun hzero => hc ⟨hclose, hzero⟩
      · rintro ⟨htext, hopen, hafter⟩
        cases inner with
        | nil =>
          obtain ⟨rfl, -⟩ : c = ')' ∧ rest = after := by simpa using htext
          exact absurd ⟨rfl, by simpa using hafter⟩ hc
        | cons d inner =>
          obtain ⟨rfl, hrest⟩ : c = d ∧ rest = inner ++ ')' :: after := by simpa using htext
          exact ⟨(inner, after), ih.2 ⟨hrest, (staysOpen_cons.1 hopen).2, hafter⟩, rfl⟩

/-- **A group ends at the `)` before which the text is balanced.** -/
theorem splitGroup?_eq_some_iff {text inner after : List Char} :
    splitGroup? text = some (inner, after) ↔ text = inner ++ ')' :: after ∧ Balanced inner := by
  rw [splitGroup?, splitGroupFrom?_eq_some_iff, balanced_iff]

/-- A group that does not end is still open behind the text. -/
theorem openAfter_pos_of_splitGroupFrom? {depth : Nat} {text : List Char}
    (h : splitGroupFrom? depth text = none) : 0 < openAfter (depth + 1) text := by
  induction text generalizing depth with
  | nil => simp
  | cons c rest ih =>
    rw [splitGroupFrom?] at h
    split at h
    · simp at h
    · rename_i hc
      -- with one more group open, the character moves the number in the same way
      have hstep : depthAfter (depth + 1) c = depthAfter depth c + 1 := by
        by_cases hclose : c = ')'
        · subst hclose
          have hpos : depth ≠ 0 := fun hzero => hc ⟨rfl, hzero⟩
          simp only [depthAfter_close]
          omega
        · by_cases hopen : c = '('
          · subst hopen
            rfl
          · rw [depthAfter_of_ne ⟨hopen, hclose⟩, depthAfter_of_ne ⟨hopen, hclose⟩]
      rw [openAfter_cons, hstep]
      exact ih (Option.map_eq_none_iff.1 h)

/-! ## Groups that end -/

theorem depthAfter_mono {a b : Nat} (h : a ≤ b) (c : Char) : depthAfter a c ≤ depthAfter b c := by
  unfold depthAfter
  split
  · omega
  · split <;> omega

theorem openAfter_mono {a b : Nat} (h : a ≤ b) (text : List Char) :
    openAfter a text ≤ openAfter b text := by
  induction text generalizing a b with
  | nil => exact h
  | cons c rest ih => exact ih (depthAfter_mono h c)

/-- **When no group is open behind a text, every `(` in it has its `)`.** -/
theorem allClosed_of_openAfter_eq {text : List Char} (h : openAfter 0 text = 0) :
    AllClosed text := by
  rintro front back rfl
  cases hcut : splitGroup? back with
  | some cut =>
    obtain ⟨hback, hinner⟩ := splitGroup?_eq_some_iff.1 (show _ = some (cut.1, cut.2) from hcut)
    exact ⟨cut.1, cut.2, hinner, hback⟩
  | none =>
    -- what is open behind the `(` stays open, all the more with the groups open before it
    have hopen := openAfter_pos_of_splitGroupFrom? hcut
    have hmono := openAfter_mono (show 0 + 1 ≤ openAfter 0 front + 1 by omega) back
    rw [openAfter_append, openAfter_cons, depthAfter_open] at h
    omega

theorem Balanced.allClosed {text : List Char} (h : Balanced text) : AllClosed text :=
  allClosed_of_openAfter_eq (h.openAfter_eq 0)

theorem AllClosed.of_append {front text : List Char} (h : AllClosed (front ++ text)) :
    AllClosed text := by
  rintro before back rfl
  exact h (front ++ before) back (List.append_assoc ..).symm

/-- Changing characters other than parentheses into such characters keeps a text balanced. -/
theorem Balanced.map {f : Char → Char} (hopen : ∀ c, f c = '(' ↔ c = '(')
    (hclose : ∀ c, f c = ')' ↔ c = ')') {text : List Char} (h : Balanced text) :
    Balanced (text.map f) := by
  have hcount : ∀ front : List Char, (front.map f).count '(' = front.count '(' ∧
      (front.map f).count ')' = front.count ')' := by
    intro front
    induction front with
    | nil => exact ⟨rfl, rfl⟩
    | cons c rest ih =>
      simp only [List.map_cons, List.count_cons, beq_iff_eq, hopen, hclose, ih, and_self]
  refine ⟨by rw [(hcount text).1, (hcount text).2, h.closed], fun mapped hmapped => ?_⟩
  obtain ⟨front, hfront, rfl⟩ := List.prefix_map_iff.1 hmapped
  rw [(hcount front).1, (hcount front).2]
  exact h.open_of_prefix front hfront

end OData.Text
