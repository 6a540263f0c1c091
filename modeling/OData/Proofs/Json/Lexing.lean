import Mathlib.Data.List.TakeWhile
import OData.Json.Reader
import OData.Json.Writer

/-!
# Written values as tokens

The text of a value, in any layout that adds nothing but white space, is cut into the tokens of the
value again, and so it reads as the value. It takes tokens that are spelled as the cut expects them:
a string literal ends at its quote and has only escapes that exist, a number is a number.

## Main statements

* `lex_write` — the tokens of the text of a value, with more text behind it
* `parse?_render` — the text of a value reads as that value
-/

namespace OData.Json

open Text

/-! ## Literals -/

theorem splitLiteral?_cons {c : Char} (hquote : c ≠ '"') (hslash : c ≠ '\\') (text : List Char) :
    splitLiteral? (c :: text) = (splitLiteral? text).map fun cut => (c :: cut.1, cut.2) := by
  rw [splitLiteral?.eq_4]
  · exact fun h => absurd h hquote
  · exact fun _ _ h => absurd h hslash

theorem hexDigit_ne {n : Nat} (hn : n < 16) {c : Char} (hc : hexValue? c = none) :
    hexDigit n ≠ c := by
  rintro rfl
  rw [hexValue?_hexDigit hn] at hc
  nomatch hc

/-- An escape does not end a literal. -/
theorem splitLiteral?_escapeChar (c : Char) (text : List Char) :
    splitLiteral? (escapeChar c ++ text) =
      (splitLiteral? text).map fun cut => (escapeChar c ++ cut.1, cut.2) := by
  rw [escapeChar]
  by_cases hquote : c = '"'
  · rw [if_pos hquote]
    rfl
  by_cases hslash : c = '\\'
  · rw [if_neg hquote, if_pos hslash]
    rfl
  rw [if_neg hquote, if_neg hslash]
  -- the short escapes of control characters
  iterate 5 (split; rfl)
  split
  · rename_i hcontrol
    have hdigit (n : Nat) (hn : n < 16) (text : List Char) := splitLiteral?_cons
      (hexDigit_ne hn (by decide : hexValue? '"' = none)) (hexDigit_ne hn (by decide)) text
    show ((splitLiteral? ('0' :: '0' :: hexDigit _ :: hexDigit _ :: text)).map _) = _
    rw [splitLiteral?_cons (by decide) (by decide), splitLiteral?_cons (by decide) (by decide),
      hdigit _ (by omega), hdigit _ (by omega)]
    cases splitLiteral? text <;> rfl
  · exact splitLiteral?_cons hquote hslash text

/-- **The literal of a text ends at the quote behind it.** -/
theorem splitLiteral?_escape (text rest : List Char) :
    splitLiteral? (escape text ++ '"' :: rest) = some (escape text, rest) := by
  induction text with
  | nil => rfl
  | cons c text ih =>
    rw [escape, List.flatMap_cons, List.append_assoc, splitLiteral?_escapeChar]
    rw [escape] at ih
    rw [ih]
    rfl

/-- Only zero is written with a zero in front. -/
theorem head?_digits {n : Nat} (hn : 0 < n) : (digits n).head? ≠ some '0' := by
  induction n using Nat.strongRecOn with
  | ind n ih =>
    by_cases hlt : n < 10
    · rw [digits, Nat.toDigits_of_lt_base hlt]
      have hall : ∀ m ∈ List.range 10, 0 < m → [m.digitChar].head? ≠ some '0' := by decide
      exact hall n (List.mem_range.2 hlt) hn
    · have hquotient := ih (n / 10) (by omega) (by omega)
      obtain ⟨c, rest, hcons⟩ :=
        List.exists_cons_of_ne_nil (Nat.toDigits_ne_nil (n := n / 10) (b := 10))
      rw [digits, hcons] at hquotient
      rwa [digits, Nat.toDigits_of_base_le (by decide) (by omega), hcons]

theorem isDigit_of_mem_digits {n : Nat} {c : Char} (hc : c ∈ digits n) : c.isDigit = true :=
  Nat.isDigit_of_mem_toDigits (by decide) (by decide) hc

/-- **The digits of a number are a number literal.** -/
theorem isNumber_digits (n : Nat) : isNumber (digits n) = true := by
  rcases Nat.eq_zero_or_pos n with rfl | hn
  · decide
  obtain ⟨c, rest, hcons⟩ := List.exists_cons_of_ne_nil (Nat.toDigits_ne_nil (n := n) (b := 10))
  have hdigits : ∀ d ∈ c :: rest, d.isDigit = true := fun d hd => isDigit_of_mem_digits (hcons ▸ hd)
  have hzero : c ≠ '0' := by
    rintro rfl
    exact head?_digits hn (by rw [digits, hcons, List.head?_cons])
  have hsign : dropSign ['-'] (c :: rest) = c :: rest := by
    have hc : ¬ ['-'].contains c = true := by
      simp only [List.contains_cons, List.contains_nil, Bool.or_false, beq_iff_eq]
      rintro rfl
      exact absurd (hdigits _ List.mem_cons_self) (by decide)
    rw [dropSign, if_neg hc]
  have hwhole : dropWhole? (c :: rest) = some [] := by
    rw [dropWhole?.eq_2 _ fun _ h => hzero (List.cons.inj h).1, dropDigits?,
      List.takeWhile_eq_self_iff.2 hdigits, List.dropWhile_eq_nil_iff.2 hdigits]
    rfl
  rw [isNumber, digits, hcons, hsign, hwhole]
  rfl

/-! ## Tokens in front of a text -/

variable {text rest : List Char} {tokens : List Token}

/-- The text does not go on with a word. -/
def NoWord (text : List Char) : Prop := ∀ c ∈ text.head?, isWordChar c = false

/-- A token whose literal, if it has one, is spelled as it has to be in a text. -/
def Token.Spelled : Token → Prop
  | .number literal => isNumber literal = true ∧ ∀ c ∈ literal, isWordChar c = true
  | .string literal => (codePoints? literal).isSome = true ∧
      ∀ rest, splitLiteral? (literal ++ '"' :: rest) = some (literal, rest)
  | _ => True

theorem isWordChar_of_isDigit {c : Char} (h : c.isDigit = true) : isWordChar c = true := by
  have hne {d : Char} (hd : d.isDigit = false) : (c == d) = false := by
    rw [beq_eq_false_iff_ne]
    rintro rfl
    rw [hd] at h
    nomatch h
  have hmark : punctuation? c = none := by
    unfold punctuation?
    split
    all_goals first | rfl | nomatch h
  have hblank : isBlank c = false := by
    rw [isBlank, hne (by decide), hne (by decide), hne (by decide), hne (by decide)]
    rfl
  rw [isWordChar, hblank, hmark, bne, hne (by decide)]
  rfl

theorem spelled_digits (n : Nat) : (Token.number (digits n)).Spelled :=
  ⟨isNumber_digits n, fun _ hc => isWordChar_of_isDigit (isDigit_of_mem_digits hc)⟩

/-- The literal of a text is spelled as it has to be. -/
theorem spelled_escape (text : List Char) : (Token.string (escape text)).Spelled := by
  constructor
  · rw [codePoints?_escape]
    rfl
  · exact splitLiteral?_escape text

theorem lex_blanks {blanks : List Char} (h : ∀ c ∈ blanks, isBlank c = true) :
    lex (blanks ++ text) = lex text := by
  induction blanks with
  | nil => rfl
  | cons c blanks ih =>
    obtain ⟨hc, hblanks⟩ := List.forall_mem_cons.1 h
    rw [List.cons_append, lex, if_pos hc, ih hblanks]

theorem lex_token {c : Char} {token : Token} (hc : isBlank c = false)
    (htoken : token? c text = some (token, rest)) (hrest : lex rest = some tokens) :
    lex (c :: text) = some (token :: tokens) := by
  rw [lex, hc]
  simp only [Bool.false_eq_true, if_false]
  split
  · rename_i h
    simp [htoken] at h
  · rename_i h
    obtain ⟨rfl, rfl⟩ : token = _ ∧ rest = _ := by simpa [htoken] using h
    rw [hrest, Option.map_some]

/-- A mark is a token by itself, whatever follows it. -/
theorem lex_mark {c : Char} {mark : Token} (hmark : punctuation? c = some mark)
    (hrest : lex rest = some tokens) : lex (c :: rest) = some (mark :: tokens) := by
  have hblank : isBlank c = false := by
    unfold punctuation? at hmark
    split at hmark <;> first | rfl | nomatch hmark
  have hquote : c ≠ '"' := by
    rintro rfl
    nomatch hmark
  refine lex_token hblank ?_ hrest
  rw [token?, if_neg hquote, hmark]

theorem lex_string {literal : List Char} (h : (Token.string literal).Spelled)
    (hrest : lex rest = some tokens) :
    lex (quoted literal ++ rest) = some (.string literal :: tokens) := by
  obtain ⟨hpoints, hcut⟩ := h
  rw [quoted, List.append_assoc, List.cons_append, List.singleton_append]
  refine lex_token (by decide) ?_ hrest
  rw [token?, if_pos rfl, hcut]
  dsimp only
  rw [if_pos hpoints]

/-- A word is taken off whole when the text does not go on with one. -/
theorem lex_word (word : List Char) {token : Token} (hword : word? word = some token)
    (hchars : word.all isWordChar = true) (hends : NoWord rest)
    (hrest : lex rest = some tokens) : lex (word ++ rest) = some (token :: tokens) := by
  cases word with
  | nil => nomatch hword
  | cons c word =>
    obtain ⟨hc, hchars⟩ := List.forall_mem_cons.1 (List.all_eq_true.1 hchars)
    obtain ⟨⟨hblank, hmark⟩, hquote⟩ :
        (isBlank c = false ∧ punctuation? c = none) ∧ c ≠ '"' := by
      simpa [isWordChar] using hc
    have hrun : rest.takeWhile isWordChar = [] ∧ rest.dropWhile isWordChar = rest := by
      cases rest with
      | nil => exact ⟨rfl, rfl⟩
      | cons d rest => simp [hends d rfl]
    rw [List.cons_append]
    refine lex_token hblank ?_ hrest
    rw [token?, if_neg hquote, hmark]
    dsimp only
    rw [List.takeWhile_append_of_pos hchars, List.dropWhile_append_of_pos hchars, hrun.1, hrun.2,
      List.append_nil, hword, Option.map_some]

theorem lex_number {literal : List Char} (h : (Token.number literal).Spelled) (hends : NoWord rest)
    (hrest : lex rest = some tokens) :
    lex (literal ++ rest) = some (.number literal :: tokens) := by
  obtain ⟨hnumber, hchars⟩ := h
  have hword : word? literal = some (.number literal) := by
    have hne {word : List Char} (hword : isNumber word = false) : literal ≠ word := by
      rintro rfl
      rw [hword] at hnumber
      nomatch hnumber
    rw [word?, if_neg (hne (by decide)), if_neg (hne (by decide)), if_neg (hne (by decide)),
      if_pos hnumber]
  exact lex_word literal hword (List.all_eq_true.2 hchars) hends hrest

/-! ## Layouts -/

/-- A layout that adds nothing but white space to a value. -/
structure Layout.Spaced (layout : Layout) : Prop where
  newline : ∀ depth, ∀ c ∈ layout.newline depth, isBlank c = true
  colon : ∃ after, layout.colon = ':' :: after ∧ ∀ c ∈ after, isBlank c = true

theorem Layout.spaced_compact : Layout.compact.Spaced where
  newline := fun _ _ hc => nomatch hc
  colon := ⟨[], rfl, nofun⟩

theorem Layout.spaced_indented : Layout.indented.Spaced where
  newline := by
    intro depth c hc
    rcases List.mem_cons.1 hc with rfl | hc
    · rfl
    · rw [List.eq_of_mem_replicate hc]
      rfl
  colon := ⟨[' '], rfl, List.forall_mem_singleton.2 rfl⟩

theorem noWord_blanks {blanks : List Char} (h : ∀ c ∈ blanks, isBlank c = true)
    (htext : NoWord text) : NoWord (blanks ++ text) := by
  cases blanks with
  | nil => exact htext
  | cons c blanks =>
    rintro _ ⟨⟩
    simp [isWordChar, h c List.mem_cons_self]

theorem noWord_cons {c : Char} (hc : isWordChar c = false) : NoWord (c :: text) := by
  rintro _ ⟨⟩
  exact hc

/-! ## Values -/

/-- A value whose literals are all spelled as they have to be in a text. -/
def Spelled (value : Json) : Prop := ∀ token ∈ value.tokens, token.Spelled

theorem spelled_array_iff {items : List Json} :
    (array items).Spelled ↔ ∀ item ∈ items, item.Spelled := by
  have hmarks : Token.openArray.Spelled ∧ Token.comma.Spelled ∧ Token.closeArray.Spelled :=
    ⟨trivial, trivial, trivial⟩
  have hitems : (∀ token ∈ itemTokens items, token.Spelled) ↔ ∀ item ∈ items, item.Spelled := by
    induction items with
    | nil => simp [itemTokens]
    | cons item rest ih =>
      cases rest with
      | nil => simp [itemTokens, Spelled]
      | cons next rest =>
        rw [List.forall_mem_cons, ← ih]
        simp [itemTokens, Spelled, hmarks, or_imp, forall_and]
  rw [← hitems]
  simp [Spelled, tokens, hmarks, or_imp, forall_and]

theorem spelled_object_iff {members : List (List Char × Json)} :
    (object members).Spelled ↔
      ∀ member ∈ members, (Token.string member.1).Spelled ∧ member.2.Spelled := by
  have hmarks : Token.openObject.Spelled ∧ Token.colon.Spelled ∧ Token.comma.Spelled ∧
      Token.closeObject.Spelled := ⟨trivial, trivial, trivial, trivial⟩
  have hmembers : (∀ token ∈ memberTokens members, token.Spelled) ↔
      ∀ member ∈ members, (Token.string member.1).Spelled ∧ member.2.Spelled := by
    induction members with
    | nil => simp [memberTokens]
    | cons member rest ih =>
      cases rest with
      | nil => simp [memberTokens, Spelled, hmarks]
      | cons next rest =>
        rw [List.forall_mem_cons, ← ih]
        simp [memberTokens, Spelled, hmarks, or_imp, forall_and, and_assoc]
  rw [← hmembers]
  simp [Spelled, tokens, hmarks, or_imp, forall_and]

mutual

/-- **The text of a value is cut into its tokens**, whatever tokens follow. -/
theorem lex_write {layout : Layout} (hlayout : layout.Spaced) : (value : Json) → value.Spelled →
    (depth : Nat) → {rest : List Char} → {tokens : List Token} → NoWord rest →
    lex rest = some tokens →
    lex (write layout depth value ++ rest) = some (value.tokens ++ tokens)
  | .null, _, _, _, _, hends, hrest =>
    lex_word "null".toList (by decide) (by decide) hends hrest
  | .bool true, _, _, _, _, hends, hrest =>
    lex_word "true".toList (by decide) (by decide) hends hrest
  | .bool false, _, _, _, _, hends, hrest =>
    lex_word "false".toList (by decide) (by decide) hends hrest
  | .number literal, hspelled, _, _, _, hends, hrest =>
    lex_number (hspelled _ List.mem_cons_self) hends hrest
  | .string literal, hspelled, _, _, _, _, hrest =>
    lex_string (hspelled _ List.mem_cons_self) hrest
  | .array [], _, _, _, _, _, hrest => lex_mark rfl (lex_mark rfl hrest)
  | .array (item :: rest), hspelled, depth, after, tokens, _, hrest => by
    have hclose := lex_mark (c := ']') rfl hrest
    have hline := hlayout.newline depth
    have hitems := lex_writeItems hlayout (item :: rest) (spelled_array_iff.1 hspelled) (depth + 1)
      (noWord_blanks hline (noWord_cons (by decide))) ((lex_blanks hline).trans hclose)
    have hopen := lex_mark (c := '[') rfl hitems
    rw [write, Json.tokens]
    simpa using hopen
  | .object [], _, _, _, _, _, hrest => lex_mark rfl (lex_mark rfl hrest)
  | .object (member :: rest), hspelled, depth, after, tokens, _, hrest => by
    have hclose := lex_mark (c := '\x7d') rfl hrest
    have hline := hlayout.newline depth
    have hmembers := lex_writeMembers hlayout (member :: rest) (spelled_object_iff.1 hspelled)
      (depth + 1) (noWord_blanks hline (noWord_cons (by decide))) ((lex_blanks hline).trans hclose)
    have hopen := lex_mark (c := '\x7b') rfl hmembers
    rw [write, Json.tokens]
    simpa using hopen

theorem lex_writeItems {layout : Layout} (hlayout : layout.Spaced) : (items : List Json) →
    (∀ item ∈ items, item.Spelled) → (depth : Nat) → {rest : List Char} → {tokens : List Token} →
    NoWord rest → lex rest = some tokens →
    lex (writeItems layout depth items ++ rest) = some (itemTokens items ++ tokens)
  | [], _, _, _, _, _, hrest => hrest
  | [item], hspelled, depth, _, _, hends, hrest => by
    have hitem := lex_write hlayout item (hspelled _ List.mem_cons_self) depth hends hrest
    rw [writeItems, itemTokens, List.append_assoc, lex_blanks (hlayout.newline depth), hitem]
  | item :: next :: rest, hspelled, depth, _, _, hends, hrest => by
    obtain ⟨hitem, hspelled⟩ := List.forall_mem_cons.1 hspelled
    have hnext := lex_mark (c := ',') rfl
      (lex_writeItems hlayout (next :: rest) hspelled depth hends hrest)
    have hitem := lex_write hlayout item hitem depth (noWord_cons (by decide)) hnext
    rw [writeItems, itemTokens, List.append_assoc, List.append_assoc,
      lex_blanks (hlayout.newline depth)]
    simpa using hitem

theorem lex_writeMembers {layout : Layout} (hlayout : layout.Spaced) :
    (members : List (List Char × Json)) →
    (∀ member ∈ members, (Token.string member.1).Spelled ∧ member.2.Spelled) → (depth : Nat) →
    {rest : List Char} → {tokens : List Token} → NoWord rest → lex rest = some tokens →
    lex (writeMembers layout depth members ++ rest) = some (memberTokens members ++ tokens)
  | [], _, _, _, _, _, hrest => hrest
  | [(key, value)], hspelled, depth, _, _, hends, hrest => by
    obtain ⟨hkey, hvalue⟩ := hspelled _ List.mem_cons_self
    obtain ⟨after, hcolon, hafter⟩ := hlayout.colon
    have hvalue := lex_write hlayout value hvalue depth hends hrest
    have hmember := lex_string hkey (lex_mark (c := ':') rfl ((lex_blanks hafter).trans hvalue))
    rw [writeMembers, memberTokens, hcolon]
    simp only [List.append_assoc, lex_blanks (hlayout.newline depth)]
    simpa using hmember
  | (key, value) :: next :: rest, hspelled, depth, _, _, hends, hrest => by
    obtain ⟨⟨hkey, hvalue⟩, hspelled⟩ := List.forall_mem_cons.1 hspelled
    obtain ⟨after, hcolon, hafter⟩ := hlayout.colon
    have hnext := lex_mark (c := ',') rfl
      (lex_writeMembers hlayout (next :: rest) hspelled depth hends hrest)
    have hvalue := lex_write hlayout value hvalue depth (noWord_cons (by decide)) hnext
    have hmember := lex_string hkey (lex_mark (c := ':') rfl ((lex_blanks hafter).trans hvalue))
    rw [writeMembers, memberTokens, hcolon]
    simp only [List.append_assoc, lex_blanks (hlayout.newline depth)]
    simpa using hmember

end

/-- **The text of a value reads as that value**, in any layout. -/
theorem parse?_render {layout : Layout} (hlayout : layout.Spaced) {value : Json}
    (hspelled : value.Spelled) : parse? (render layout value) = some value := by
  have hlex : lex (write layout 0 value ++ []) = some (value.tokens ++ []) :=
    lex_write hlayout value hspelled 0 nofun (by rw [lex])
  rw [List.append_nil, List.append_nil] at hlex
  rw [parse?, render, hlex, Option.bind_some, ofTokens?_tokens]

end OData.Json
