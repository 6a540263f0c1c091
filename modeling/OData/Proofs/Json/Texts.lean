import OData.Proofs.Json.Lexing

/-!
# The texts of a value

A text writes a value when it is the tokens of the value, with white space anywhere around them. Two
texts of one value can differ in white space only, and no text is read as a value that it does not
write.

## Main statements

* `lex_eq_some_iff` — the tokens that a text spells
* `ofTokens?_eq_some_iff` — tokens are read as the value whose tokens they are
* `parse?_eq_some_iff` — a text is read as the value that it writes
-/

namespace OData.Json

/-! ## Spelling -/

/-- The text of a token. -/
def Token.text : Token → List Char
  | .openArray => ['[']
  | .closeArray => [']']
  | .openObject => ['\x7b']
  | .closeObject => ['\x7d']
  | .comma => [',']
  | .colon => [':']
  | .null => "null".toList
  | .bool true => "true".toList
  | .bool false => "false".toList
  | .number literal => literal
  | .string literal => quoted literal

/-- Whether a token has to be kept apart from a word behind it. -/
def Token.isWord : Token → Bool
  | .null | .bool _ | .number _ => true
  | _ => false

/-- The text is the tokens one after the other, with white space around them. -/
inductive Spells : List Char → List Token → Prop
  | nil {blanks : List Char} (h : ∀ c ∈ blanks, isBlank c = true) : Spells blanks []
  | cons {blanks : List Char} {token : Token} {text : List Char} {tokens : List Token}
      (hblanks : ∀ c ∈ blanks, isBlank c = true) (htoken : token.Spelled)
      (hends : token.isWord = true → NoWord text) (h : Spells text tokens) :
      Spells (blanks ++ (token.text ++ text)) (token :: tokens)

/-- The text is the tokens of the value, with white space around them. -/
def Writes (text : List Char) (value : Json) : Prop := Spells text value.tokens

variable {text rest literal : List Char} {tokens : List Token} {token : Token}

/-- A spelled token is taken off the text by itself. -/
theorem lex_text (htoken : token.Spelled) (hends : token.isWord = true → NoWord rest)
    (hrest : lex rest = some tokens) : lex (token.text ++ rest) = some (token :: tokens) := by
  cases token with
  | openArray => exact lex_mark rfl hrest
  | closeArray => exact lex_mark rfl hrest
  | openObject => exact lex_mark rfl hrest
  | closeObject => exact lex_mark rfl hrest
  | comma => exact lex_mark rfl hrest
  | colon => exact lex_mark rfl hrest
  | null => exact lex_word "null".toList (by decide) (by decide) (hends rfl) hrest
  | bool value =>
    cases value with
    | true => exact lex_word "true".toList (by decide) (by decide) (hends rfl) hrest
    | false => exact lex_word "false".toList (by decide) (by decide) (hends rfl) hrest
  | number literal => exact lex_number htoken (hends rfl) hrest
  | string literal => exact lex_string htoken hrest

theorem Spells.lex_eq (h : Spells text tokens) : lex text = some tokens := by
  induction h with
  | @nil blanks h =>
    rw [← List.append_nil blanks, lex_blanks h, lex]
  | cons hblanks htoken hends _ ih =>
    rw [lex_blanks hblanks, lex_text htoken hends ih]

/-! ## What is cut off is spelled -/

/-- What is cut off at a quote is cut off there whatever follows. -/
theorem splitLiteral?_eq_some (h : splitLiteral? text = some (literal, rest)) :
    text = literal ++ '"' :: rest ∧
      ∀ other, splitLiteral? (literal ++ '"' :: other) = some (literal, other) := by
  fun_induction splitLiteral? text generalizing literal with
  | case1 => cases h
  | case2 tail =>
    obtain ⟨rfl, rfl⟩ : [] = literal ∧ tail = rest := by simpa using h
    exact ⟨rfl, fun other => rfl⟩
  | case3 c tail ih =>
    obtain ⟨cut, hcut, heq⟩ := Option.map_eq_some_iff.1 h
    obtain ⟨rfl, rfl⟩ : '\\' :: c :: cut.1 = literal ∧ cut.2 = rest := by simpa using heq
    obtain ⟨rfl, hother⟩ := ih hcut
    refine ⟨rfl, fun other => ?_⟩
    rw [List.cons_append, List.cons_append, splitLiteral?, hother, Option.map_some]
  | case4 c tail hquote hslash ih =>
    obtain ⟨⟨front, back⟩, hcut, heq⟩ := Option.map_eq_some_iff.1 h
    obtain ⟨rfl, rfl⟩ : c :: front = literal ∧ back = rest := by simpa using heq
    obtain ⟨rfl, hother⟩ := ih hcut
    refine ⟨rfl, fun other => ?_⟩
    have hc : c ≠ '\\' := by
      -- something follows, so a backslash would have taken it along
      rintro rfl
      cases front with
      | nil => exact hslash '"' back rfl rfl
      | cons d tail => exact hslash d (tail ++ '"' :: back) rfl rfl
    rw [List.cons_append, splitLiteral?_cons (fun h => hquote h) hc, hother, Option.map_some]

theorem text_of_punctuation? {c : Char} {mark : Token} (h : punctuation? c = some mark) :
    mark.text = [c] ∧ mark.Spelled ∧ mark.isWord = false := by
  unfold punctuation? at h
  split at h
  all_goals first
    | obtain rfl := Option.some.inj h; exact ⟨rfl, trivial, rfl⟩
    | nomatch h

theorem text_of_word? {word : List Char} (h : word? word = some token)
    (hchars : ∀ c ∈ word, isWordChar c = true) : token.text = word ∧ token.Spelled := by
  unfold word? at h
  split at h
  · obtain rfl := Option.some.inj h
    exact ⟨Eq.symm ‹_›, trivial⟩
  split at h
  · obtain rfl := Option.some.inj h
    exact ⟨Eq.symm ‹_›, trivial⟩
  split at h
  · obtain rfl := Option.some.inj h
    exact ⟨Eq.symm ‹_›, trivial⟩
  split at h
  · obtain rfl := Option.some.inj h
    exact ⟨rfl, ‹_›, hchars⟩
  · nomatch h

/-- **The token in front of a text is spelled there.** -/
theorem text_of_token? {c : Char} {after : List Char} (hblank : isBlank c = false)
    (h : token? c rest = some (token, after)) :
    c :: rest = token.text ++ after ∧ token.Spelled ∧ (token.isWord = true → NoWord after) := by
  rw [token?] at h
  split at h
  · rename_i hquote
    split at h
    · cases h
    · rename_i literal tail hcut
      obtain ⟨hrest, hother⟩ := splitLiteral?_eq_some hcut
      split at h
      · rename_i hpoints
        obtain ⟨rfl, rfl⟩ : Token.string literal = token ∧ tail = after := by simpa using h
        refine ⟨?_, ⟨hpoints, hother⟩, fun h => by cases h⟩
        rw [hquote, hrest, Token.text, quoted]
        simp
      · cases h
  · rename_i hquote
    split at h
    · rename_i mark hmark
      obtain ⟨rfl, rfl⟩ : mark = token ∧ rest = after := by simpa using h
      obtain ⟨htext, hspelled, hword⟩ := text_of_punctuation? hmark
      refine ⟨by rw [htext]; rfl, hspelled, fun h => ?_⟩
      rw [hword] at h
      cases h
    · rename_i hmark
      obtain ⟨found, hword, heq⟩ := Option.map_eq_some_iff.1 h
      obtain ⟨rfl, rfl⟩ : found = token ∧ rest.dropWhile isWordChar = after := by simpa using heq
      have hchars : ∀ d ∈ c :: rest.takeWhile isWordChar, isWordChar d = true := by
        refine List.forall_mem_cons.2 ⟨?_, fun d hd => List.mem_takeWhile_imp hd⟩
        simp [isWordChar, hblank, hmark, hquote]
      obtain ⟨htext, hspelled⟩ := text_of_word? hword hchars
      refine ⟨?_, hspelled, fun _ d hd => ?_⟩
      · rw [htext, List.cons_append, List.takeWhile_append_dropWhile]
      · have hhead := List.head?_dropWhile_not isWordChar rest
        rw [Option.mem_def.1 hd] at hhead
        simpa using hhead

theorem Spells.blank {c : Char} (hc : isBlank c = true) (h : Spells text tokens) :
    Spells (c :: text) tokens := by
  cases h with
  | nil h => exact .nil (List.forall_mem_cons.2 ⟨hc, h⟩)
  | cons hblanks htoken hends h =>
    rw [← List.cons_append]
    exact .cons (List.forall_mem_cons.2 ⟨hc, hblanks⟩) htoken hends h

theorem spells_of_lex (h : lex text = some tokens) : Spells text tokens := by
  fun_induction lex text generalizing tokens with
  | case1 =>
    obtain rfl := Option.some.inj h
    exact .nil nofun
  | case2 c rest hblank ih => exact (ih h).blank hblank
  | case3 => nomatch h
  | case4 c rest hblank token after htoken ih =>
    obtain ⟨tail, htail, rfl⟩ := Option.map_eq_some_iff.1 h
    obtain ⟨htext, hspelled, hends⟩ := text_of_token? (by simpa using hblank) htoken
    rw [htext, ← List.nil_append (token.text ++ after)]
    exact .cons nofun hspelled hends (ih htail)

/-- **A text is cut into the tokens that it spells.** -/
theorem lex_eq_some_iff : lex text = some tokens ↔ Spells text tokens :=
  ⟨spells_of_lex, Spells.lex_eq⟩

/-! ## What is read has its tokens -/

/-- The tokens of a member. -/
def memberToken (member : List Char × Json) : List Token :=
  .string member.1 :: .colon :: member.2.tokens

/-- The last item stands behind the others and their commas. -/
theorem itemTokens_append (items : List Json) (value : Json) :
    itemTokens (items ++ [value]) =
      (items.flatMap fun item => item.tokens ++ [.comma]) ++ value.tokens := by
  induction items with
  | nil => rfl
  | cons item rest ih =>
    obtain ⟨next, more, hnext⟩ : ∃ next more, rest ++ [value] = next :: more :=
      List.exists_cons_of_ne_nil (by simp)
    rw [List.cons_append, hnext, itemTokens, ← hnext, ih]
    simp

theorem memberTokens_append (members : List (List Char × Json)) (member : List Char × Json) :
    memberTokens (members ++ [member]) =
      (members.flatMap fun member => memberToken member ++ [.comma]) ++ memberToken member := by
  induction members with
  | nil => rfl
  | cons first rest ih =>
    obtain ⟨next, more, hnext⟩ : ∃ next more, rest ++ [member] = next :: more :=
      List.exists_cons_of_ne_nil (by simp)
    rw [List.cons_append, hnext, memberTokens, ← hnext, ih]
    simp [memberToken]

/-- The tokens of arrays and objects that are still open, up to the value that is being read. -/
def openTokens : List Frame → List Token
  | [] => []
  | .array items :: outer =>
    openTokens outer ++ .openArray :: items.reverse.flatMap fun item => item.tokens ++ [.comma]
  | .object members key :: outer =>
    openTokens outer ++ .openObject ::
      (members.reverse.flatMap fun member => memberToken member ++ [.comma]) ++
        [.string key, .colon]

/-- The tokens that have been read. -/
def Reader.consumed : Reader → List Token
  | .newValue outer => openTokens outer
  | .firstItem outer => openTokens outer ++ [.openArray]
  | .firstKey outer => openTokens outer ++ [.openObject]
  | .nextKey members outer =>
    openTokens outer ++ .openObject ::
      members.reverse.flatMap fun member => memberToken member ++ [.comma]
  | .colon members key outer =>
    openTokens outer ++ .openObject ::
      (members.reverse.flatMap fun member => memberToken member ++ [.comma]) ++ [.string key]
  | .after value outer => openTokens outer ++ value.tokens

theorem consumed_beginValue {outer : List Frame} {reader : Reader}
    (h : Reader.beginValue outer token = some reader) :
    reader.consumed = openTokens outer ++ [token] := by
  cases token with
  | closeArray | closeObject | comma | colon => nomatch h
  | _ =>
    obtain rfl := Option.some.inj h
    rfl

/-- **A step reads its token and forgets none.** -/
theorem consumed_step {reader next : Reader} (h : reader.step token = some next) :
    next.consumed = reader.consumed ++ [token] := by
  unfold Reader.step at h
  split at h
  · exact consumed_beginValue h
  · obtain rfl := Option.some.inj h
    simp [Reader.consumed, Json.tokens, itemTokens]
  · rw [consumed_beginValue h]
    simp [openTokens, Reader.consumed]
  · obtain rfl := Option.some.inj h
    simp [Reader.consumed, Json.tokens, memberTokens]
  · obtain rfl := Option.some.inj h
    simp [Reader.consumed]
  · obtain rfl := Option.some.inj h
    simp [Reader.consumed]
  · obtain rfl := Option.some.inj h
    simp [Reader.consumed, openTokens]
  · obtain rfl := Option.some.inj h
    simp [Reader.consumed, openTokens]
  · obtain rfl := Option.some.inj h
    simp [Reader.consumed, openTokens, Json.tokens, itemTokens_append]
  · obtain rfl := Option.some.inj h
    simp [Reader.consumed, openTokens, memberToken]
  · obtain rfl := Option.some.inj h
    simp [Reader.consumed, openTokens, Json.tokens, memberTokens_append, memberToken]
  · cases h

theorem consumed_foldlM {reader last : Reader}
    (h : tokens.foldlM Reader.step reader = some last) :
    last.consumed = reader.consumed ++ tokens := by
  induction tokens generalizing reader with
  | nil =>
    obtain rfl := Option.some.inj h
    rw [List.append_nil]
  | cons token tokens ih =>
    rw [List.foldlM_cons] at h
    obtain ⟨next, hstep, hrest⟩ := Option.bind_eq_some_iff.1 h
    rw [ih hrest, consumed_step hstep, List.append_assoc, List.singleton_append]

/-- **Tokens are read as the value whose tokens they are.** -/
theorem ofTokens?_eq_some_iff {value : Json} : ofTokens? tokens = some value ↔
    tokens = value.tokens := by
  constructor
  · intro h
    obtain ⟨reader, hread, hresult⟩ := Option.bind_eq_some_iff.1 h
    have hconsumed := consumed_foldlM hread
    unfold Reader.result? at hresult
    split at hresult
    · obtain rfl := Option.some.inj hresult
      exact hconsumed.symm
    · nomatch hresult
  · rintro rfl
    exact ofTokens?_tokens value

/-- **A text is read as the value that it writes**, and as nothing else. -/
theorem parse?_eq_some_iff {value : Json} : parse? text = some value ↔ Writes text value := by
  unfold parse?
  rw [Option.bind_eq_some_iff]
  constructor
  · rintro ⟨tokens, hlex, hread⟩
    obtain rfl := ofTokens?_eq_some_iff.1 hread
    exact lex_eq_some_iff.1 hlex
  · intro h
    exact ⟨_, lex_eq_some_iff.2 h, ofTokens?_tokens value⟩

/-- The text of a value, in any layout, writes the value. -/
theorem writes_render {layout : Layout} (hlayout : layout.Spaced) {value : Json}
    (hspelled : value.Spelled) : Writes (render layout value) value :=
  parse?_eq_some_iff.1 (parse?_render hlayout hspelled)

end OData.Json
