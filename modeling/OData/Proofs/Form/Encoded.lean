import OData.Proofs.Form.Escaped
import OData.Proofs.Options
import OData.Proofs.Query
import OData.Proofs.Select

/-!
# Every way to write pairs

There are many ways to write the same pairs. Some characters may be left as they are or be escaped,
a space has a sign of its own, and the digits of an escape may be in either case. The ways are
given as a relation between a text and what is written for it, character by character; whichever is
taken, each of the readers finds the pairs.

## Main statements

* `decode_of_encodedText` — whatever is written for a text stands for it
* `pairs_of_encodedPairs` — the pairs are found, in their order
* `options_of_encodedPairs` — by each of the readers, with the query that two of them ask for
-/

namespace OData

namespace Form

open Text

/-! ## Ways to write -/

/-- Whether a character may be left as it is. -/
def mayStand (c : Char) : Bool := c.isAlphanum || "$,*-._".toList.contains c || 0x80 ≤ c.toNat

/-- Bytes with every one of them written `%XX`. -/
inductive EscapedBytes : List UInt8 → List Char → Prop
  | nil : EscapedBytes [] []
  | cons {b : UInt8} {high low : Char} {bytes : List UInt8} {written : List Char}
      (hhigh : HexDigit (b.toNat / 16) high) (hlow : HexDigit (b.toNat % 16) low)
      (hrest : EscapedBytes bytes written) :
      EscapedBytes (b :: bytes) ('%' :: high :: low :: written)

/-- What may be written for a character. -/
inductive EncodedChar : Char → List Char → Prop
  | literal {c : Char} (h : mayStand c = true) : EncodedChar c [c]
  | space : EncodedChar ' ' ['+']
  | escaped {c : Char} {written : List Char} (h : EscapedBytes (encodeChar c) written) :
      EncodedChar c written

/-- What may be written for a text, one character after the other. -/
inductive EncodedText : List Char → List Char → Prop
  | nil : EncodedText [] []
  | cons {c : Char} {text piece written : List Char} (hchar : EncodedChar c piece)
      (hrest : EncodedText text written) : EncodedText (c :: text) (piece ++ written)

/-- What may be written for a pair. -/
inductive EncodedPair : List Char × List Char → List Char → Prop
  | mk {key value writtenKey writtenValue : List Char} (hkey : EncodedText key writtenKey)
      (hvalue : EncodedText value writtenValue) :
      EncodedPair (key, value) (writtenKey ++ '=' :: writtenValue)

/-- What may be written for pairs. -/
def EncodedPairs (pairs : List (List Char × List Char)) (written : List Char) : Prop :=
  ∃ pieces, List.Forall₂ EncodedPair pairs pieces ∧ written = ['&'].intercalate pieces

variable {c : Char} {bytes : List UInt8} {text written : List Char}
  {pairs : List (List Char × List Char)}

theorem EncodedChar.encodedText (h : EncodedChar c written) : EncodedText [c] written := by
  have hcons := EncodedText.cons h .nil
  rwa [List.append_nil] at hcons

/-- A text of characters that may be left as they are may be left as it is. -/
theorem encodedText_self (h : text.all mayStand = true) : EncodedText text text := by
  induction text with
  | nil => exact .nil
  | cons c rest ih =>
    rw [List.all_cons, Bool.and_eq_true] at h
    exact .cons (.literal h.1) (ih h.2)

theorem EncodedText.append {text' written' : List Char} (h : EncodedText text written)
    (h' : EncodedText text' written') : EncodedText (text ++ text') (written ++ written') := by
  induction h with
  | nil => exact h'
  | cons hchar _ ih =>
    rw [List.cons_append, List.append_assoc]
    exact .cons hchar ih

/-! ## What is read -/

theorem EscapedBytes.unescape_append (h : EscapedBytes bytes written) (rest : List Char) :
    unescape (written ++ rest) = bytes ++ unescape rest := by
  induction h with
  | nil => rfl
  | cons hhigh hlow _ ih =>
    rw [List.cons_append, List.cons_append, List.cons_append,
      unescape_percent (hexByte?_of_hexDigit hhigh hlow), ih, List.cons_append]

/-- The signs with a meaning of their own may not be left as they are. -/
theorem ne_of_mayStand {d : Char} (h : mayStand c = true) (hd : mayStand d = false) : c ≠ d := by
  rintro rfl
  rw [hd] at h
  nomatch h

/-- **What is written for a character stands for its bytes**, whatever is behind it. -/
theorem EncodedChar.unescape_append (h : EncodedChar c written) (rest : List Char) :
    unescape (written ++ rest) = encodeChar c ++ unescape rest := by
  cases h with
  | literal h =>
    rw [List.singleton_append, unescape_cons_of_ne (ne_of_mayStand h (by decide)), plainChar,
      if_neg (ne_of_mayStand h (by decide))]
  | space => exact unescape_cons_of_ne (by decide) rest
  | escaped h => exact h.unescape_append rest

theorem unescape_of_encodedText (h : EncodedText text written) :
    unescape written = encode text := by
  induction h with
  | nil => rfl
  | cons hchar _ ih => rw [hchar.unescape_append, ih, encode_cons]

/-- **Whatever is written for a text stands for it.** -/
theorem decode_of_encodedText (h : EncodedText text written) : decode written = text := by
  rw [decode, unescape_of_encodedText h, decodeLossy_encode]

/-! ## What is written -/

/-- The characters that are written. -/
def isWritten (c : Char) : Bool := mayStand c || c == '+' || c == '%'

theorem isWritten_of_isAlphanum (h : c.isAlphanum = true) : isWritten c = true := by
  rw [isWritten, mayStand, h]
  rfl

theorem EscapedBytes.isWritten (h : EscapedBytes bytes written) :
    ∀ d ∈ written, isWritten d = true := by
  induction h with
  | nil => nofun
  | @cons b _ _ _ _ hhigh hlow _ ih =>
    have hb : b.toNat < 256 := b.toNat_lt_size
    have hhigh := isWritten_of_isAlphanum (hhigh.isAlphanum (by omega))
    have hlow := isWritten_of_isAlphanum (hlow.isAlphanum (by omega))
    simp only [List.forall_mem_cons]
    exact ⟨rfl, hhigh, hlow, ih⟩

theorem EncodedChar.isWritten (h : EncodedChar c written) : ∀ d ∈ written, isWritten d = true := by
  cases h with
  | literal h =>
    refine List.forall_mem_singleton.2 ?_
    rw [Form.isWritten, h]
    rfl
  | space => exact List.forall_mem_singleton.2 rfl
  | escaped h => exact h.isWritten

theorem EncodedText.isWritten (h : EncodedText text written) :
    ∀ d ∈ written, isWritten d = true := by
  induction h with
  | nil => nofun
  | cons hchar _ ih => exact List.forall_mem_append.2 ⟨hchar.isWritten, ih⟩

theorem EncodedText.not_mem (h : EncodedText text written) {d : Char}
    (hd : Form.isWritten d = false) : d ∉ written := by
  intro hmem
  rw [h.isWritten d hmem] at hd
  nomatch hd

theorem EncodedPair.not_mem {pair : List Char × List Char} (h : EncodedPair pair written) {d : Char}
    (hd : isWritten d = false) (hne : d ≠ '=') : d ∉ written := by
  obtain ⟨hkey, hvalue⟩ := h
  rw [List.mem_append, List.mem_cons, not_or, not_or]
  exact ⟨hkey.not_mem hd, hne, hvalue.not_mem hd⟩

theorem exists_pair_of_mem {pieces : List (List Char)} (h : List.Forall₂ EncodedPair pairs pieces) :
    ∀ piece ∈ pieces, ∃ pair, EncodedPair pair piece := by
  induction h with
  | nil => nofun
  | cons hpair _ ih => exact List.forall_mem_cons.2 ⟨⟨_, hpair⟩, ih⟩

/-- Nothing is added to what is written for the pairs but the signs in and between them. -/
theorem EncodedPairs.not_mem (h : EncodedPairs pairs written) {d : Char}
    (hd : isWritten d = false) (heq : d ≠ '=') (hamp : d ≠ '&') : d ∉ written := by
  obtain ⟨pieces, hpieces, rfl⟩ := h
  have hall : ∀ e ∈ ['&'].intercalate pieces, e ≠ d := by
    refine forall_mem_intercalate hamp.symm fun piece hpiece e he => ?_
    obtain ⟨pair, hpair⟩ := exists_pair_of_mem hpieces piece hpiece
    rintro rfl
    exact hpair.not_mem hd heq he
  exact fun hmem => hall d hmem rfl

/-! ## Pairs -/

theorem EncodedPair.pairOf_eq {pair : List Char × List Char} (h : EncodedPair pair written) :
    pairOf written = pair := by
  obtain ⟨hkey, hvalue⟩ := h
  rw [pairOf_append_cons (hkey.not_mem (by decide)), decode_of_encodedText hkey,
    decode_of_encodedText hvalue]

theorem EncodedPair.pairs_eq {pair : List Char × List Char} (h : EncodedPair pair written) :
    Form.pairs written = [pair] := by
  have hne : written ≠ [] := by
    obtain ⟨_, _⟩ := h
    simp
  rw [pairs_of_not_mem hne (h.not_mem (by decide) (by decide)), h.pairOf_eq]

/-- **The pairs are found, in their order.** -/
theorem pairs_of_encodedPairs (h : EncodedPairs pairs written) : Form.pairs written = pairs := by
  obtain ⟨pieces, hpieces, rfl⟩ := h
  induction hpieces with
  | nil => exact pairs_nil
  | cons hpair hrest ih =>
    cases hrest with
    | nil => simpa [List.intercalate] using hpair.pairs_eq
    | cons hnext hrest =>
      rw [List.intercalate_cons_cons, List.append_assoc, List.singleton_append, pairs_append_cons,
        hpair.pairs_eq, ih, List.singleton_append]

end Form

/-! ## Readers -/

namespace Options

open Form Text

variable {pairs : List (List Char × List Char)} {written : List Char}

theorem pairs_ofQuery_encoded (h : EncodedPairs pairs written) :
    (ofQuery written).pairs = pairs := by
  have hquestion : written.head? ≠ some '?' := fun hhead =>
    h.not_mem (d := '?') (by decide) (by decide) (by decide) (List.mem_of_mem_head? hhead)
  rw [pairs_ofQuery_of_head hquestion, pairs_of_encodedPairs h]

theorem pairs_ofQuery_question_encoded (h : EncodedPairs pairs written) :
    (ofQuery ('?' :: written)).pairs = pairs := by
  rw [pairs_ofQuery_question, pairs_of_encodedPairs h]

theorem pairs_ofGroup_encoded (h : EncodedPairs pairs written) :
    (ofGroup written).pairs = pairs := by
  have hsemicolon : ';' ∉ written := h.not_mem (by decide) (by decide) (by decide)
  rw [pairs_ofGroup_of_not_standsOutside (not_standsOutside_of_not_mem hsemicolon 0),
    pairs_of_encodedPairs h]

end Options

namespace Query

variable {limit : DepthLimit} {options : Options} {list clause : List Char}

/-- Options with a field list and an expand clause, both of which are accepted. -/
theorem ofOptions_of_accepted {fields : List String} {map : List (String × Expansion)}
    (hlist : options.first? Options.selectKey = some list)
    (hclause : options.first? Options.expandKey = some clause)
    (hfields : Select.FieldList list fields) (hparse : Expand.parse limit clause = .ok map) :
    ofOptions limit options = { select := some fields, expand := some map } := by
  have hselect := Select.ofOptions_eq_ok_iff.2 (Or.inr ⟨list, fields, hlist, hfields, rfl⟩)
  exact ofOptions_eq_iff.2 (.expand hselect hclause hparse)

/-- With both in the options, there is no error just when both are accepted. -/
theorem error_eq_none_iff (hlist : options.first? Options.selectKey = some list)
    (hclause : options.first? Options.expandKey = some clause) :
    (ofOptions limit options).error = none ↔
      (∃ fields, Select.FieldList list fields) ∧ ∃ map, Expand.parse limit clause = .ok map := by
  constructor
  · intro herror
    have hdescribed := described_ofOptions limit options
    generalize ofOptions limit options = query at hdescribed herror
    cases hdescribed with
    | expand hselect hother hparse =>
      obtain rfl := Option.some.inj (hclause.symm.trans hother)
      obtain ⟨hnone, -⟩ | ⟨list, fields, hother, hfields, -⟩ := Select.ofOptions_eq_ok_iff.1 hselect
      · nomatch hlist.symm.trans hnone
      · obtain rfl := Option.some.inj (hlist.symm.trans hother)
        exact ⟨⟨fields, hfields⟩, _, hparse⟩
    | noExpand _ hnone => nomatch hclause.symm.trans hnone
    | _ => nomatch herror
  · rintro ⟨⟨fields, hfields⟩, map, hparse⟩
    rw [ofOptions_of_accepted hlist hclause hfields hparse]

end Query

namespace Options

open Form Text

/-- The options hold the pairs, and under every key the value of the first pair that has it. -/
structure Holds (options : Options) (pairs : List (List Char × List Char)) : Prop where
  all : options.pairs = pairs
  size : options.size = pairs.length
  first : ∀ key value, options.first? key = some value ↔ FirstValue pairs key value
  lacks : ∀ key, options.first? key = none ↔ Lacks pairs key

theorem holds_of_pairs {options : Options} {pairs : List (List Char × List Char)}
    (h : options.pairs = pairs) : Holds options pairs where
  all := h
  size := congrArg List.length h
  first := fun _ _ => h ▸ first?_eq_some_iff
  lacks := fun _ => h ▸ first?_eq_none_iff

/-- **Whichever way the pairs are written, all readers find them**: the reader of query strings,
with or without the `?`, and the reader of groups. Written for a field list and an expand clause,
the text is read as the query that the two ask for, and there is one just when both are accepted. -/
theorem options_of_encodedPairs {pairs : List (List Char × List Char)} {written : List Char}
    (h : EncodedPairs pairs written) :
    (∀ options ∈ [ofQuery written, ofQuery ('?' :: written), ofGroup written],
      Holds options pairs) ∧
    ∀ list clause, pairs = [(selectKey, list), (expandKey, clause)] →
      ((Query.ofText written).error = none ↔
        (∃ fields, Select.FieldList list fields) ∧ ∃ map, Expand.parse none clause = .ok map) ∧
      ∀ fields map, Select.FieldList list fields → Expand.parse none clause = .ok map →
        Query.ofText written = { select := some fields, expand := some map } := by
  have hquery := holds_of_pairs (pairs_ofQuery_encoded h)
  refine ⟨List.forall_mem_cons.2 ⟨hquery, List.forall_mem_cons.2
    ⟨holds_of_pairs (pairs_ofQuery_question_encoded h),
      List.forall_mem_singleton.2 (holds_of_pairs (pairs_ofGroup_encoded h))⟩⟩, ?_⟩
  rintro list clause rfl
  have hlist : (ofQuery written).first? selectKey = some list :=
    (hquery.first _ _).2 ⟨[], _, rfl, nofun⟩
  have hclause : (ofQuery written).first? expandKey = some clause := by
    have hkeys : selectKey ≠ expandKey := by decide
    exact (hquery.first _ _).2 ⟨[(selectKey, list)], [], rfl, List.forall_mem_singleton.2 hkeys⟩
  refine ⟨Query.error_eq_none_iff hlist hclause, fun fields map hfields hparse => ?_⟩
  exact Query.ofOptions_of_accepted hlist hclause hfields hparse

/-- A field list and an expand clause, escaped in places and with a space between the fields; and
pairs with an empty key and a key of two bytes that comes twice, once as it is and once escaped. -/
theorem options_of_encodedPairs_mixed :
    Query.ofText "%24select=%2a,+A&$expand=B%28$select%3Da%29".toList =
        { select := some ["*", "A"], expand := some [("B", { select := some ["a"] })] } ∧
      (ofGroup "=&ä=1&%C3%a4=".toList).pairs = [([], []), (['ä'], ['1']), (['ä'], [])] ∧
      (ofQuery "?=&ä=1&%C3%a4=".toList).first? ['ä'] = some ['1'] := by
  have hself (text : List Char) (h : text.all mayStand = true) := encodedText_self h
  have hdollar : EncodedChar '$' "%24".toList := .escaped (.cons (.inl rfl) (.inl rfl) .nil)
  have hstar : EncodedChar '*' "%2a".toList := .escaped (.cons (.inl rfl) (.inl rfl) .nil)
  have hopen : EncodedChar '(' "%28".toList := .escaped (.cons (.inl rfl) (.inl rfl) .nil)
  have hequals : EncodedChar '=' "%3D".toList := .escaped (.cons (.inl rfl) (.inr rfl) .nil)
  have hclose : EncodedChar ')' "%29".toList := .escaped (.cons (.inl rfl) (.inl rfl) .nil)
  have humlaut : EncodedChar 'ä' "%C3%a4".toList :=
    .escaped (.cons (.inr rfl) (.inl rfl) (.cons (.inl rfl) (.inl rfl) .nil))
  have hselect : EncodedPair (selectKey, "*, A".toList) "%24select=%2a,+A".toList :=
    .mk (.cons hdollar (hself "select".toList rfl))
      (.cons hstar (.cons (.literal rfl) (.cons .space (hself ['A'] rfl))))
  have hinner : EncodedText "$select=a)".toList "$select%3Da%29".toList :=
    (hself "$select".toList rfl).append
      (.cons hequals (.cons (.literal rfl) (.cons hclose .nil)))
  have hexpand :
      EncodedPair (expandKey, "B($select=a)".toList) "$expand=B%28$select%3Da%29".toList :=
    .mk (hself expandKey rfl) (.cons (.literal rfl) (.cons hopen hinner))
  have hboth : EncodedPairs [(selectKey, "*, A".toList), (expandKey, "B($select=a)".toList)]
      "%24select=%2a,+A&$expand=B%28$select%3Da%29".toList :=
    ⟨_, .cons hselect (.cons hexpand .nil), rfl⟩
  have hthree : EncodedPairs [([], []), (['ä'], ['1']), (['ä'], [])] "=&ä=1&%C3%a4=".toList :=
    ⟨_, .cons (.mk .nil .nil) (.cons (.mk (hself ['ä'] rfl) (hself ['1'] rfl))
      (.cons (.mk humlaut.encodedText .nil) .nil)), rfl⟩
  have hquery := ((options_of_encodedPairs hboth).2 _ _ rfl).2 ["*", "A"]
    [("B", { select := some ["a"] })] (Select.parse_eq_ok_iff.1 (by decide +kernel))
    (by decide +kernel)
  obtain ⟨hread, -⟩ := options_of_encodedPairs hthree
  simp only [List.forall_mem_cons] at hread
  obtain ⟨-, hquestion, hgroup, -⟩ := hread
  refine ⟨hquery, hgroup.all, (hquestion.first _ _).2 ⟨[([], [])], [(['ä'], [])], rfl, ?_⟩⟩
  exact List.forall_mem_singleton.2 nofun

end Options

end OData
