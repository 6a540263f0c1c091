import Mathlib.Data.List.Forall2
import OData.Options
import OData.Proofs.Text.Written

/-!
# The options of a group as texts

Which options the inside of a group holds, said without the reader: the text is cut at each `;`
outside parentheses and at each `&`, empty pieces count for nothing, and every other piece is a key
and a value around its first `=`.

## Main statements

* `groupOptions_iff` — these are the options that the reader finds in a balanced group
* `groupOptions_written` — options written one after the other are the options of their text
-/

namespace OData.Options

open Text

/-- What a piece stands for. Its first `=` stands between the key and the value; a piece without
one is a key with an empty value. -/
inductive OptionText : List Char → List Char × List Char → Prop
  | key {key : List Char} (h : '=' ∉ key) : OptionText key (Form.decode key, [])
  | keyValue {key value : List Char} (h : '=' ∉ key) :
      OptionText (key ++ '=' :: value) (Form.decode key, Form.decode value)

/-- The pieces of a group that are not empty. -/
def optionTexts (segments : List (List Char)) : List (List Char) :=
  (segments.flatMap fun segment => segment.splitOn '&').filter fun piece => !piece.isEmpty

/-- The options that the inside of a group holds. -/
def GroupOptions (inner : List Char) (pairs : List (List Char × List Char)) : Prop :=
  ∃ segments, OuterPieces ';' inner segments ∧
    List.Forall₂ OptionText (optionTexts segments) pairs

/-- The first option with the key has the value. -/
def FirstValue (pairs : List (List Char × List Char)) (key value : List Char) : Prop :=
  ∃ before after, pairs = before ++ (key, value) :: after ∧ ∀ pair ∈ before, pair.1 ≠ key

/-- No option has the key. -/
def Lacks (pairs : List (List Char × List Char)) (key : List Char) : Prop :=
  ∀ pair ∈ pairs, pair.1 ≠ key

/-! ## Pieces -/

theorem optionText_iff {piece : List Char} {pair : List Char × List Char} :
    OptionText piece pair ↔ Form.pairOf piece = pair := by
  constructor
  · rintro (⟨hkey⟩ | ⟨hkey⟩)
    · exact Form.pairOf_of_not_mem hkey
    · exact Form.pairOf_append_cons hkey
  · rintro rfl
    have hcut := List.takeWhile_append_dropWhile (p := (· != '=')) (l := piece)
    have hkey : '=' ∉ piece.takeWhile (· != '=') := by
      intro hmem
      simpa using List.all_eq_true.1 (List.all_takeWhile (p := (· != '=')) (l := piece)) _ hmem
    rw [Form.pairOf]
    cases hrest : piece.dropWhile (· != '=') with
    | nil =>
      rw [hrest, List.append_nil] at hcut
      rw [hcut] at hkey ⊢
      exact .key hkey
    | cons c value =>
      have hc := List.head?_dropWhile_not (· != '=') piece
      obtain rfl : c = '=' := by simpa [hrest] using hc
      rw [hrest] at hcut
      have htext : OptionText (piece.takeWhile (· != '=') ++ '=' :: value) _ := .keyValue hkey
      rwa [hcut] at htext

theorem pairs_ofGroup (text : List Char) :
    (ofGroup text).pairs = (optionTexts (splitOutside ';' text)).map Form.pairOf := by
  rw [ofGroup, optionTexts, List.filter_flatMap, List.map_flatMap]
  rfl

/-- Without a `;` outside parentheses a group is cut at each `&` alone. -/
theorem pairs_ofGroup_of_not_standsOutside {text : List Char} (h : ¬ StandsOutside ';' 0 text) :
    (ofGroup text).pairs = Form.pairs text := by
  rw [ofGroup, splitOutside_of_not_standsOutside (by decide) h]
  exact List.append_nil _

/-- A group that holds one option, when nothing in it separates options. -/
theorem pairs_ofGroup_option {key value : List Char} (hkey : '=' ∉ key)
    (hsemicolon : ';' ∉ key ++ '=' :: value) (hamp : '&' ∉ key ++ '=' :: value) :
    (ofGroup (key ++ '=' :: value)).pairs = [(Form.decode key, Form.decode value)] := by
  rw [pairs_ofGroup_of_not_standsOutside (not_standsOutside_of_not_mem hsemicolon 0),
    Form.pairs_of_not_mem (by simp) hamp, Form.pairOf_append_cons hkey]

/-- The `?` in front of a query string is no part of its options. -/
theorem pairs_ofQuery_question (text : List Char) :
    (ofQuery ('?' :: text)).pairs = Form.pairs text := by
  rw [ofQuery, List.head?_cons, if_pos rfl, List.drop_one, List.tail_cons]

theorem pairs_ofQuery_of_head {text : List Char} (h : text.head? ≠ some '?') :
    (ofQuery text).pairs = Form.pairs text := by
  rw [ofQuery, if_neg h]

/-- **The reader finds the options that the group holds.** -/
theorem groupOptions_iff {inner : List Char} (h : Balanced inner)
    {pairs : List (List Char × List Char)} :
    GroupOptions inner pairs ↔ (ofGroup inner).pairs = pairs := by
  have hsep : ';' ≠ '(' ∧ ';' ≠ ')' := by decide
  have htext : OptionText = fun piece pair => Form.pairOf piece = pair := by
    funext piece pair
    exact propext optionText_iff
  have htexts : ∀ texts : List (List Char),
      List.Forall₂ OptionText texts pairs ↔ texts.map Form.pairOf = pairs := by
    intro texts
    rw [htext, ← List.forall₂_map_left_iff (R := Eq), List.forall₂_eq_eq_eq]
  rw [pairs_ofGroup]
  constructor
  · rintro ⟨segments, hsegments, hpairs⟩
    rw [hsegments.splitOutside_eq hsep]
    exact (htexts _).1 hpairs
  · intro hpairs
    exact ⟨_, outerPieces_splitOutside hsep h, (htexts _).2 hpairs⟩

/-! ## The first option with a key -/

theorem first?_eq_some_iff {options : Options} {key value : List Char} :
    options.first? key = some value ↔ FirstValue options.pairs key value := by
  rw [first?, Option.map_eq_some_iff]
  constructor
  · rintro ⟨pair, hfind, rfl⟩
    obtain ⟨hkey, before, after, hpairs, hbefore⟩ := List.find?_eq_some_iff_append.1 hfind
    obtain rfl : pair.1 = key := by simpa using hkey
    exact ⟨before, after, hpairs, fun other hother => by simpa using hbefore other hother⟩
  · rintro ⟨before, after, hpairs, hbefore⟩
    refine ⟨(key, value), List.find?_eq_some_iff_append.2 ⟨by simp, before, after, hpairs, ?_⟩, rfl⟩
    intro other hother
    simpa using hbefore other hother

theorem first?_eq_none_iff {options : Options} {key : List Char} :
    options.first? key = none ↔ Lacks options.pairs key := by
  rw [first?, Option.map_eq_none_iff, List.find?_eq_none]
  simp [Lacks]

section

variable {inner key value : List Char} {pairs : List (List Char × List Char)}

theorem GroupOptions.first?_eq_some (h : GroupOptions inner pairs) (hinner : Balanced inner)
    (hvalue : FirstValue pairs key value) : (ofGroup inner).first? key = some value := by
  rw [first?_eq_some_iff, (groupOptions_iff hinner).1 h]
  exact hvalue

theorem GroupOptions.first?_eq_none (h : GroupOptions inner pairs) (hinner : Balanced inner)
    (hlacks : Lacks pairs key) : (ofGroup inner).first? key = none := by
  rw [first?_eq_none_iff, (groupOptions_iff hinner).1 h]
  exact hlacks

/-- When no key comes twice, every option is the first one with its key. -/
theorem firstValue_of_mem (h : pairs.Pairwise fun a b => a.1 ≠ b.1) (hmem : (key, value) ∈ pairs) :
    FirstValue pairs key value := by
  obtain ⟨before, after, rfl⟩ := List.append_of_mem hmem
  refine ⟨before, after, rfl, fun pair hpair => ?_⟩
  exact (List.pairwise_append.1 h).2.2 pair hpair _ List.mem_cons_self

end

/-! ## Writing options -/

/-- An option as it is written. -/
def write (option : List Char × List Char) : List Char := option.1 ++ '=' :: option.2

/-- Each option is read back as it was written. -/
def WrittenOptions (options : List (List Char × List Char)) : Prop :=
  ∀ option ∈ options, '=' ∉ option.1 ∧ Written (write option)

theorem WrittenOptions.pieces {options : List (List Char × List Char)}
    (h : WrittenOptions options) :
    ∀ piece ∈ options.map write, Written piece := by
  intro piece hpiece
  obtain ⟨option, hoption, rfl⟩ := List.mem_map.1 hpiece
  exact (h option hoption).2

theorem optionText_write {option : List Char × List Char} (hkey : '=' ∉ option.1)
    (h : Written (write option)) : OptionText (write option) option := by
  obtain ⟨key, value⟩ := option
  obtain ⟨hplain, hrest⟩ := List.forall_mem_append.1 h.chars.plain
  have hvalue := (List.forall_mem_cons.1 hrest).2
  have htext : OptionText (key ++ '=' :: value) _ := .keyValue hkey
  rwa [Form.decode_of_plain hplain, Form.decode_of_plain hvalue] at htext

/-- An option without escapes is the only one of its text. -/
theorem pairs_write {option : List Char × List Char} (hkey : '=' ∉ option.1)
    (h : Unescaped (write option)) : Form.pairs (write option) = [option] := by
  obtain ⟨key, value⟩ := option
  obtain ⟨hplain, hrest⟩ := List.forall_mem_append.1 h.plain
  have hvalue := (List.forall_mem_cons.1 hrest).2
  have hamp : '&' ∉ key ++ '=' :: value := h.not_mem (by decide) (by decide)
  show Form.pairs (key ++ '=' :: value) = [(key, value)]
  rw [Form.pairs_of_not_mem (by simp) hamp, Form.pairOf_append_cons hkey,
    Form.decode_of_plain hplain, Form.decode_of_plain hvalue]

/-- No option that is written as it is read is cut at a `&`. -/
theorem optionTexts_write {options : List (List Char × List Char)} (h : WrittenOptions options) :
    optionTexts (options.map write) = options.map write := by
  unfold optionTexts
  induction options with
  | nil => rfl
  | cons option rest ih =>
    obtain ⟨⟨-, hoption⟩, hrest⟩ := List.forall_mem_cons.1 h
    have hamp : '&' ∉ write option := hoption.chars.not_mem (by decide) (by decide)
    have hne : write option ≠ [] := by simp [write]
    rw [List.map_cons, List.flatMap_cons, List.splitOn_eq_singleton hamp, List.filter_append,
      ih hrest]
    simp [hne]

/-- **Options written with semicolons between them are the options of their text.** -/
theorem groupOptions_written {options : List (List Char × List Char)} (hne : options ≠ [])
    (h : WrittenOptions options) :
    GroupOptions ([';'].intercalate (options.map write)) options := by
  refine ⟨options.map write, outerPieces_of_written (by simpa using hne) h.pieces, ?_⟩
  rw [optionTexts_write h, List.forall₂_map_left_iff, List.forall₂_same]
  intro option hoption
  obtain ⟨hkey, hwritten⟩ := h option hoption
  exact optionText_write hkey hwritten

end OData.Options
