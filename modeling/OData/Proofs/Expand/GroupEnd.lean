import OData.Expand.Item
import OData.Proofs.Text.Balanced

/-!
# Where a group ends

The `)` that closes a group is the one before which the text is balanced. A text has one such `)` at
most, and the search for it counts parentheses from the left and stops at the first `)` that finds
nothing open inside the group.

## The number that is carried

It cannot go below zero, so it would be wrong from the first `)` too many on. The search stops at
that `)`, and up to there the number is the difference of the two counts.

## Main statements

* `Searched.depth_add` — the number that the search carries is the difference of the counts
* `closingIndex_eq_ok_iff` — the search finds the `)` that closes the group
* `closingIndex_exact` — the two together, with what follows for texts put together
-/

namespace OData.Expand

open Text

variable {text read ahead : List Char} {depth : Nat}

/-- The `)` at the byte index closes a group whose `(` stands just before the text. -/
def ClosesAt (text : List Char) (index : Nat) : Prop :=
  ∃ inner after, text = inner ++ ')' :: after ∧ Balanced inner ∧ byteLength inner = index

/-- The search for the end of the group has read the one part of the text and has the other ahead,
with `depth` groups open inside. It goes on behind every character but a `)` that finds none. -/
inductive Searched (text : List Char) : List Char → Nat → List Char → Prop
  | start : Searched text [] 0 text
  | step {read ahead : List Char} {depth : Nat} {c : Char}
      (h : Searched text read depth (c :: ahead)) (hc : ¬ (c = ')' ∧ depth = 0)) :
      Searched text (read ++ [c]) (depthAfter depth c) ahead

/-- The groups open behind a text, the one that was open before it included; negative if the text
closes more than there are. -/
def balance (read : List Char) : Int := 1 + read.count '(' - read.count ')'

/-! ## Steps of the search -/

/-- **What the search still has to do is all that is missing of its result.** -/
theorem Searched.splitGroup?_eq (h : Searched text read depth ahead) :
    splitGroup? text =
      (splitGroupFrom? depth ahead).map fun cut => (read ++ cut.1, cut.2) := by
  induction h with
  | start => simp [splitGroup?]
  | @step read ahead depth c _ hc ih =>
    rw [ih, splitGroupFrom?, if_neg hc, Option.map_map]
    refine congrArg (Option.map · _) (funext fun cut => ?_)
    simp

theorem Searched.append (h : Searched text read depth ahead) : read ++ ahead = text := by
  induction h with
  | start => rfl
  | step _ _ ih => simpa using ih

/-- **The number that the search carries is the difference of the counts.** -/
theorem Searched.depth_add (h : Searched text read depth ahead) :
    depth + read.count ')' = read.count '(' := by
  induction h with
  | start => rfl
  | @step read ahead depth c _ hc ih =>
    have hopen : c = ')' → 0 < depth := fun hclose =>
      Nat.pos_of_ne_zero fun hzero => hc ⟨hclose, hzero⟩
    have hstep := depthAfter_add hopen []
    simp only [List.count_append, List.count_nil] at hstep ⊢
    omega

theorem Searched.balance_eq (h : Searched text read depth ahead) : balance read = depth + 1 := by
  have := h.depth_add
  unfold balance
  omega

/-- The next character, were it the last one of the group, brings the balance to zero at least. -/
theorem Searched.balance_next_nonneg {c : Char} (h : Searched text read depth (c :: ahead)) :
    0 ≤ balance (read ++ [c]) := by
  have hbalance := h.balance_eq
  have hone : [c].count ')' ≤ 1 := List.count_le_length
  unfold balance at hbalance ⊢
  rw [List.count_append, List.count_append]
  omega

/-! ## The end -/

/-- **The search finds the `)` that closes the group.** -/
theorem closingIndex_eq_ok_iff {index : Nat} :
    closingIndex text = .ok index ↔ ClosesAt text index := by
  unfold closingIndex
  constructor
  · intro h
    split at h
    · nomatch h
    · rename_i inner after hcut
      obtain ⟨htext, hinner⟩ := splitGroup?_eq_some_iff.1 hcut
      exact ⟨inner, after, htext, hinner, Except.ok.inj h⟩
  · rintro ⟨inner, after, htext, hinner, rfl⟩
    rw [splitGroup?_eq_some_iff.2 ⟨htext, hinner⟩]

/-- There is one such `)` at most, as the search can stop at one only. -/
theorem ClosesAt.unique {index other : Nat} (h : ClosesAt text index)
    (hother : ClosesAt text other) : index = other := by
  have hfound := closingIndex_eq_ok_iff.2 h
  rw [closingIndex_eq_ok_iff.2 hother] at hfound
  exact (Except.ok.inj hfound).symm

theorem ClosesAt.append {index : Nat} (h : ClosesAt text index) (more : List Char) :
    ClosesAt (text ++ more) index := by
  obtain ⟨inner, after, rfl, hinner, hindex⟩ := h
  exact ⟨inner, after ++ more, by simp, hinner, hindex⟩

theorem closingIndex_eq_error {fault : Fault} (h : closingIndex text = .error fault) :
    fault = .unclosedGroup := by
  unfold closingIndex at h
  split at h
  · exact (Except.error.inj h).symm
  · nomatch h

/-- **Without such a `)` the search fails, and for no other reason.** -/
theorem closingIndex_eq_error_iff {fault : Fault} :
    closingIndex text = .error fault ↔ fault = .unclosedGroup ∧ ∀ index, ¬ ClosesAt text index := by
  constructor
  · intro h
    refine ⟨closingIndex_eq_error h, fun index hcloses => ?_⟩
    rw [closingIndex_eq_ok_iff.2 hcloses] at h
    nomatch h
  · rintro ⟨rfl, hnone⟩
    cases hfound : closingIndex text with
    | ok index => exact absurd (closingIndex_eq_ok_iff.1 hfound) (hnone index)
    | error fault => rw [closingIndex_eq_error hfound]

/-- **The end of a group is the `)` before which the text is balanced.** There is one at most, and
without one the group is reported as unclosed. So the end of a balanced text in a group is found
whatever follows, and an end once found stays whatever is written behind the text. At every place of
the search the number it carries is the balance of what it has read, less the group itself, and the
balance does not go below zero with the next character either. -/
theorem closingIndex_exact (text : List Char) :
    (∀ index, closingIndex text = .ok index ↔ ClosesAt text index) ∧
    (∀ index other, ClosesAt text index → ClosesAt text other → index = other) ∧
    (∀ fault, closingIndex text = .error fault ↔
      fault = .unclosedGroup ∧ ∀ index, ¬ ClosesAt text index) ∧
    (∀ after, Balanced text → closingIndex (text ++ ')' :: after) = .ok (byteLength text)) ∧
    (∀ index more, closingIndex text = .ok index → closingIndex (text ++ more) = .ok index) ∧
    ∀ read depth ahead, Searched text read depth ahead → read ++ ahead = text ∧
      splitGroup? text =
          ((splitGroupFrom? depth ahead).map fun cut => (read ++ cut.1, cut.2)) ∧
        balance read = depth + 1 ∧
        ∀ c rest, ahead = c :: rest → 0 ≤ balance (read ++ [c]) := by
  refine ⟨fun index => closingIndex_eq_ok_iff, fun index other => ClosesAt.unique,
    fun fault => closingIndex_eq_error_iff, ?_, ?_, ?_⟩
  · intro after hbalanced
    exact closingIndex_eq_ok_iff.2 ⟨text, after, rfl, hbalanced, rfl⟩
  · intro index more h
    exact closingIndex_eq_ok_iff.2 ((closingIndex_eq_ok_iff.1 h).append more)
  · intro read depth ahead h
    refine ⟨h.append, h.splitGroup?_eq, h.balance_eq, ?_⟩
    rintro c rest rfl
    exact h.balance_next_nonneg

/-- The index counts bytes, of which the first character has two; the `)` behind the end closes
nothing. A group inside that stays open leaves no end for the one around it. -/
theorem closingIndex_exact_accented :
    Balanced "é(x)".toList ∧ closingIndex "é(x))b)".toList = .ok 5 ∧
      closingIndex "é(x))b)((".toList = .ok 5 ∧
      (∀ index, ClosesAt "é(x))b)".toList index → index = 5) ∧
      (∀ index, ¬ ClosesAt "(()".toList index) ∧ 0 ≤ balance [')'] := by
  have hgroup : Balanced ('(' :: "x".toList ++ [')']) :=
    (balanced_of_noParens (by simp [NoParens])).group
  have haccent : Balanced "é".toList := balanced_of_noParens (by simp [NoParens])
  have hinner : Balanced "é(x)".toList := haccent.append hgroup
  have hfound : closingIndex "é(x))b)".toList = .ok 5 :=
    (closingIndex_exact "é(x)".toList).2.2.2.1 "b)".toList hinner
  obtain ⟨hexact, hunique, -, -, hmore, -⟩ := closingIndex_exact "é(x))b)".toList
  obtain ⟨-, -, hnone, -, -, -⟩ := closingIndex_exact "(()".toList
  obtain ⟨-, -, -, -, -, hsearch⟩ := closingIndex_exact [')']
  refine ⟨hinner, hfound, hmore 5 "((".toList hfound, ?_, ?_, ?_⟩
  · intro index hindex
    exact hunique index 5 hindex ((hexact 5).1 hfound)
  · exact ((hnone .unclosedGroup).1 rfl).2
  · exact (hsearch [] 0 [')'] .start).2.2.2 ')' [] rfl

end OData.Expand
