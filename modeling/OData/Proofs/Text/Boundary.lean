import OData.Text.Utf8

/-!
# Byte indices of a text

A text can be cut at the byte indices at which a character begins, and at its end. The cut takes the
index apart character by character; that the indices it accepts are those at which the bytes of a
string may be cut is the library's notion of a valid position.

## Main statements

* `splitBytes?_eq_some_iff` — the two parts of a cut
* `exists_splitBytes?_iff` — the indices at which there is one
-/

namespace OData.Text

variable {text front back : List Char} {index : Nat}

/-- A character of the text begins at the byte index, or the text ends there. -/
def IsBoundary (text : List Char) (index : Nat) : Prop :=
  (String.Pos.Raw.mk index).IsValid (String.ofList text)

/-- The text up to a byte index and the text from there on: none where the index lies inside a
character or behind the end. -/
def splitBytes? : Nat → List Char → Option (List Char × List Char)
  | 0, text => some ([], text)
  | _ + 1, [] => none
  | index + 1, c :: rest =>
    if index + 1 < c.utf8Size then none
    else (splitBytes? (index + 1 - c.utf8Size) rest).map fun cut => (c :: cut.1, cut.2)

/-! ## Boundaries -/

/-- The bytes of a text are those of the string. -/
theorem utf8ByteSize_ofList (text : List Char) :
    (String.ofList text).utf8ByteSize = byteLength text := by
  induction text with
  | nil => rfl
  | cons c rest ih =>
    have hcons : String.ofList (c :: rest) = String.singleton c ++ String.ofList rest := by
      rw [String.singleton_eq_ofList, ← String.ofList_append, List.singleton_append]
    rw [hcons, String.utf8ByteSize_append, String.utf8ByteSize_singleton, ih, byteLength_cons]

theorem isBoundary_iff :
    IsBoundary text index ↔ ∃ front back, text = front ++ back ∧ byteLength front = index := by
  rw [IsBoundary, String.Pos.Raw.isValid_iff_exists_append]
  constructor
  · rintro ⟨front, back, htext, hindex⟩
    refine ⟨front.toList, back.toList, ?_, ?_⟩
    · rw [← String.toList_append, ← htext, String.toList_ofList]
    · rw [← utf8ByteSize_ofList, String.ofList_toList]
      exact congrArg String.Pos.Raw.byteIdx hindex.symm
  · rintro ⟨front, back, rfl, rfl⟩
    refine ⟨String.ofList front, String.ofList back, String.ofList_append, ?_⟩
    rw [← utf8ByteSize_ofList]
    rfl

theorem isBoundary_append (front back : List Char) :
    IsBoundary (front ++ back) (byteLength front) :=
  isBoundary_iff.2 ⟨front, back, rfl, rfl⟩

/-! ## Cuts -/

theorem splitBytes?_append (front back : List Char) :
    splitBytes? (byteLength front) (front ++ back) = some (front, back) := by
  induction front with
  | nil => cases back <;> rfl
  | cons c front ih =>
    obtain ⟨size, hsize⟩ := Nat.exists_eq_succ_of_ne_zero (Nat.ne_of_gt c.utf8Size_pos)
    have hindex : byteLength (c :: front) = size + byteLength front + 1 := by
      rw [byteLength_cons, hsize]
      omega
    rw [hindex, List.cons_append, splitBytes?, if_neg (by omega),
      show size + byteLength front + 1 - c.utf8Size = byteLength front by omega, ih]
    rfl

/-- **The two parts give the text, and the first one has as many bytes as the index says.** -/
theorem splitBytes?_eq_some_iff :
    splitBytes? index text = some (front, back) ↔
      text = front ++ back ∧ byteLength front = index := by
  constructor
  · intro h
    fun_induction splitBytes? index text generalizing front with
    | case1 text =>
      obtain ⟨rfl, rfl⟩ : [] = front ∧ text = back := by simpa using h
      exact ⟨rfl, rfl⟩
    | case2 => nomatch h
    | case3 => nomatch h
    | case4 index c rest hsize ih =>
      obtain ⟨cut, hcut, heq⟩ := Option.map_eq_some_iff.1 h
      obtain ⟨rfl, rfl⟩ : c :: cut.1 = front ∧ cut.2 = back := by simpa using heq
      obtain ⟨rfl, hindex⟩ := ih hcut
      refine ⟨rfl, ?_⟩
      rw [byteLength_cons]
      omega
  · rintro ⟨rfl, rfl⟩
    exact splitBytes?_append front back

/-- **A text can be cut at its boundaries and nowhere else.** -/
theorem exists_splitBytes?_iff :
    (∃ cut, splitBytes? index text = some cut) ↔ IsBoundary text index := by
  rw [isBoundary_iff]
  constructor
  · rintro ⟨⟨front, back⟩, hcut⟩
    exact ⟨front, back, splitBytes?_eq_some_iff.1 hcut⟩
  · rintro ⟨front, back, htext, hindex⟩
    exact ⟨_, splitBytes?_eq_some_iff.2 ⟨htext, hindex⟩⟩

end OData.Text
