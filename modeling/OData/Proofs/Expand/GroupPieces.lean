import OData.Proofs.Expand.GroupEnd
import OData.Proofs.Text.Boundary
import OData.Proofs.Text.Outside

/-!
# The pieces of a group

Two searches count parentheses in the inside of a group, one for the end of the group and one for
the `;` between its options. They treat a `)` with nothing open differently: the first stops there,
the second goes on and leaves its number at zero. In what the first returns there is no such `)`, so
both carry the same number at every place.

## Main statements

* `Scanned.splitOutside_eq` — what the cut into pieces still has to do is all that is missing of it
* `Scanned.searched` — the search for the end is at the same place with the same number
* `group_pieces_agree` — the two together, with what follows for the pieces
-/

namespace OData.Expand

open Text

/-! ## Scanning for separators -/

/-- A place in the cut of a text into pieces. -/
structure Scan where
  /-- The text so far. -/
  read : List Char
  /-- The pieces that have been cut off. -/
  pieces : List (List Char)
  /-- The piece that is being read. -/
  piece : List Char
  /-- The number of open groups that is carried. -/
  depth : Nat
  ahead : List Char

/-- The places that the cut of a text gets to. A separator ends a piece when the number, brought up
to date with the separator itself, is zero. -/
inductive Scanned (separator : Char) (text : List Char) : Scan → Prop
  | start : Scanned separator text ⟨[], [], [], 0, text⟩
  | keep {read piece ahead : List Char} {pieces : List (List Char)} {depth : Nat} {c : Char}
      (h : Scanned separator text ⟨read, pieces, piece, depth, c :: ahead⟩)
      (hc : ¬ (c = separator ∧ depthAfter depth c = 0)) :
      Scanned separator text ⟨read ++ [c], pieces, piece ++ [c], depthAfter depth c, ahead⟩
  | cut {read piece ahead : List Char} {pieces : List (List Char)} {depth : Nat} {c : Char}
      (h : Scanned separator text ⟨read, pieces, piece, depth, c :: ahead⟩)
      (hc : c = separator ∧ depthAfter depth c = 0) :
      Scanned separator text ⟨read ++ [c], pieces ++ [piece], [], depthAfter depth c, ahead⟩

variable {separator : Char} {text : List Char} {scan : Scan}

theorem Scanned.append (h : Scanned separator text scan) : scan.read ++ scan.ahead = text := by
  induction h with
  | start => rfl
  | keep _ _ ih => simpa using ih
  | cut _ _ ih => simpa using ih

theorem Scanned.openAfter_eq (h : Scanned separator text scan) :
    openAfter 0 scan.read = scan.depth := by
  induction h with
  | start => rfl
  | keep _ _ ih => rw [openAfter_append, ih, openAfter_cons, openAfter_nil]
  | cut _ _ ih => rw [openAfter_append, ih, openAfter_cons, openAfter_nil]

/-- **What the cut still has to do is all that is missing of its result.** -/
theorem Scanned.splitOutside_eq (h : Scanned separator text scan) :
    splitOutside separator text =
      scan.pieces ++
        (splitOutsideFrom separator scan.depth scan.ahead).modifyHead (scan.piece ++ ·) := by
  induction h with
  | start =>
    show splitOutside separator text = (splitOutside separator text).modifyHead ([] ++ ·)
    cases splitOutside separator text <;> rfl
  | @keep read piece ahead pieces depth c _ hc ih =>
    rw [ih, splitOutsideFrom, if_neg hc, List.modifyHead_modifyHead]
    refine congrArg (pieces ++ List.modifyHead · _) (funext fun first => ?_)
    simp
  | @cut read piece ahead pieces depth c _ hc ih =>
    rw [ih, splitOutsideFrom, if_pos hc]
    cases splitOutsideFrom separator (depthAfter depth c) ahead <;> simp

theorem Scanned.exists_last (h : Scanned separator text scan) :
    ∃ last, Scanned separator text last ∧ last.ahead = [] := by
  obtain ⟨read, pieces, piece, depth, ahead⟩ := scan
  induction ahead generalizing read pieces piece depth with
  | nil => exact ⟨_, h, rfl⟩
  | cons c ahead ih =>
    by_cases hc : c = separator ∧ depthAfter depth c = 0
    · exact ih _ _ _ _ (h.cut hc)
    · exact ih _ _ _ _ (h.keep hc)

/-- The cut ends with the pieces of the text. -/
theorem exists_last_scan (separator : Char) (text : List Char) :
    ∃ last, Scanned separator text last ∧ last.ahead = [] ∧
      splitOutside separator text = last.pieces ++ [last.piece] := by
  obtain ⟨last, hlast, hahead⟩ := (Scanned.start : Scanned separator text _).exists_last
  refine ⟨last, hlast, hahead, ?_⟩
  rw [hlast.splitOutside_eq, hahead, splitOutsideFrom]
  simp

/-! ## Scanning a balanced text -/

/-- **The number is the difference of the counts.** -/
theorem Scanned.depth_add (h : Scanned separator text scan) (htext : Balanced text) :
    scan.depth + scan.read.count ')' = scan.read.count '(' := by
  have hopen := htext.staysOpen 0
  rw [← h.append, staysOpen_append] at hopen
  rw [← h.openAfter_eq, hopen.1.openAfter_add, Nat.zero_add]

/-- **No `)` is met with nothing open**, so taking one off the number is never cut short. -/
theorem Scanned.depth_pos {tail : List Char} (h : Scanned separator text scan)
    (htext : Balanced text) (htail : scan.ahead = ')' :: tail) : 0 < scan.depth := by
  have hopen := htext.staysOpen 0
  rw [← h.append, htail, staysOpen_append, h.openAfter_eq, staysOpen_cons] at hopen
  exact hopen.2.1 rfl

/-- **The search for the end of the group is at the same place with the same number.** -/
theorem Scanned.searched (h : Scanned separator text scan) (htext : Balanced text)
    (after : List Char) :
    Searched (text ++ ')' :: after) scan.read scan.depth (scan.ahead ++ ')' :: after) := by
  induction h with
  | start => exact .start
  | keep h _ ih =>
    refine .step ih ?_
    rintro ⟨rfl, hzero⟩
    exact Nat.ne_of_gt (h.depth_pos htext rfl) hzero
  | cut h _ ih =>
    refine .step ih ?_
    rintro ⟨rfl, hzero⟩
    exact Nat.ne_of_gt (h.depth_pos htext rfl) hzero

/-! ## Groups -/

/-- **The search for the end of a group and the cut of its inside agree.** The pieces of the inside
are balanced, hold the `;` only inside parentheses and give the inside when joined, and no other
pieces do. At every place of the cut its number is the difference of the counts, no `)` comes with
nothing open, and the search for the end carries the same number there. -/
theorem group_pieces_agree {rest : List Char} {close : Nat} (h : closingIndex rest = .ok close) :
    ∃ inner after, splitBytes? close rest = some (inner, ')' :: after) ∧
      (∀ pieces, splitOutside ';' inner = pieces ↔ OuterPieces ';' inner pieces) ∧
      (∀ scan, Scanned ';' inner scan →
        scan.depth + scan.read.count ')' = scan.read.count '(' ∧
        (∀ tail, scan.ahead = ')' :: tail → 0 < scan.depth) ∧
        Searched rest scan.read scan.depth (scan.ahead ++ ')' :: after)) ∧
      ∃ last, Scanned ';' inner last ∧ last.ahead = [] ∧
        splitOutside ';' inner = last.pieces ++ [last.piece] := by
  obtain ⟨inner, after, rfl, hinner, rfl⟩ := closingIndex_eq_ok_iff.1 h
  refine ⟨inner, after, splitBytes?_append inner _, fun pieces => ?_, fun scan hscan => ?_,
    exists_last_scan ';' inner⟩
  · exact splitOutside_eq_iff (by decide) hinner
  · exact ⟨hscan.depth_add hinner, fun tail htail => hscan.depth_pos hinner htail,
      hscan.searched hinner after⟩

/-- The first `;` stands in a deeper group, the third one behind the group. -/
theorem group_pieces_agree_deeper :
    closingIndex "a(;);b)c;".toList = .ok 6 ∧
      OuterPieces ';' "a(;);b".toList ["a(;)".toList, "b".toList] ∧
      Searched "a(;);b)c;".toList "a(".toList 1 ";);b)c;".toList := by
  have h : closingIndex "a(;);b)c;".toList = .ok 6 := rfl
  obtain ⟨inner, after, hcut, hpieces, hscans, -⟩ := group_pieces_agree h
  obtain ⟨rfl, rfl⟩ : "a(;);b".toList = inner ∧ "c;".toList = after := by
    have hfound :
        splitBytes? 6 "a(;);b)c;".toList = some ("a(;);b".toList, ')' :: "c;".toList) := rfl
    simpa using Option.some.inj (hfound.symm.trans hcut)
  have hscan : Scanned ';' "a(;);b".toList ⟨"a(".toList, [], "a(".toList, 1, ";);b".toList⟩ :=
    .keep (.keep .start (by decide)) (by decide)
  exact ⟨h, (hpieces _).1 rfl, (hscans _ hscan).2.2⟩

end OData.Expand
