import Mathlib.Logic.Relation
import OData.Proofs.Expand.Steps
import OData.Proofs.Text.Boundary

/-!
# Reading a clause at byte positions

A clause can be read with a cursor, a byte position in its text that only moves on. What is left of
the text is then cut off anew for every move, and such a cut fails inside a character. Here is the
reader of this kind, one move of its cursor after the other. None of its cuts fails, the position
stays in the text, and it gives the map that `entries` describes.

## The invariant

The cursor always stands `before` an end of the text that the reader of whole texts would have left,
and both make the same of it: `Phase.outcome` says what that is at each point of the program, and no
move changes it. Moves lower `Reading.left`, in which the bytes ahead weigh more than the points of
one round, so a reading ends, and it comes back to the next item at a greater position only.

## Main statements

* `canMove_before` — a move is possible, and keeps the text and the outcome
* `cursor_stays_in_text` — what holds of all places of a reading
-/

namespace OData.Expand

open Text

variable {limit : DepthLimit} {depth : Nat}

/-! ## The cursor -/

/-- A place in a text, in bytes from its start. -/
structure Cursor where
  text : List Char
  position : Nat

namespace Cursor

/-- The text from the place on, if it can be cut there. -/
def rest? (cursor : Cursor) : Option (List Char) :=
  (splitBytes? cursor.position cursor.text).map Prod.snd

/-- Whether the place is the end of the text. -/
def isEnd (cursor : Cursor) : Bool := byteLength cursor.text ≤ cursor.position

/-- Moves on by a number of bytes, but not behind the end of the text. -/
def advance (cursor : Cursor) (bytes : Nat) : Cursor :=
  { cursor with position := min (cursor.position + bytes) (byteLength cursor.text) }

/-- Moves behind the white space at the place. -/
def skipWhite? (cursor : Cursor) : Option Cursor :=
  cursor.rest?.map fun rest =>
    { cursor with position := cursor.position + (byteLength rest - byteLength (skipWhite rest)) }

/-- Moves behind the character, if it stands at the place. -/
def eat? (c : Char) (cursor : Cursor) : Option (Option Cursor) :=
  cursor.rest?.map fun rest =>
    if rest.head? = some c then some { cursor with position := cursor.position + c.utf8Size }
    else none

/-- Moves behind the name, if one stands at the place. -/
def takeName? (cursor : Cursor) : Option (Option (List Char × Cursor)) :=
  cursor.rest?.map fun rest => (takeIdentifier? rest).map fun cut =>
    (cut.1, { cursor with position := cursor.position + byteLength cut.1 })

end Cursor

/-! ## The reader -/

/-- What stands behind a name. -/
inductive Mark where
  | nothing
  | comma
  | opening

/-- What is done next. -/
inductive Phase where
  /-- Skip the white space in front of a name. Every item begins here. -/
  | skipToName
  | takeName
  | skipToMark (name : List Char)
  | takeMark (name : List Char)
  | skipToEntry (name : List Char) (mark : Mark)
  /-- Enter the name into the map, with its group if it has one. -/
  | enter (name : List Char) (mark : Mark)
  /-- Skip the white space behind a group. -/
  | skipToComma
  | takeComma
  /-- Skip the white space behind the comma. -/
  | skipToItem

/-- A clause that is being read, with the map of the items so far. -/
structure Reading where
  cursor : Cursor
  phase : Phase
  map : List (String × Expansion)

/-- What comes of a move. -/
inductive Move where
  | next (reading : Reading)
  | done (outcome : Except Fault (List (String × Expansion)))

/-- The start of a clause. -/
def Reading.start (text : List Char) : Reading := ⟨⟨text, 0⟩, .skipToName, []⟩

/-- Makes a move. There is none when the text would be cut inside a character. -/
def step (limit : DepthLimit) (depth : Nat) (reading : Reading) : Option Move :=
  match reading with
  | ⟨cursor, .skipToName, map⟩ => do
    let cursor ← cursor.skipWhite?
    return .next ⟨cursor, .takeName, map⟩
  | ⟨cursor, .takeName, map⟩ => do
    match ← cursor.takeName? with
    | none => return .done (.error .malformedExpand)
    | some (name, cursor) => return .next ⟨cursor, .skipToMark name, map⟩
  | ⟨cursor, .skipToMark name, map⟩ => do
    let cursor ← cursor.skipWhite?
    return .next ⟨cursor, .takeMark name, map⟩
  | ⟨cursor, .takeMark name, map⟩ => do
    match ← cursor.eat? ',' with
    | some cursor => return .next ⟨cursor, .skipToEntry name .comma, map⟩
    | none =>
      match ← cursor.eat? '(' with
      | some cursor => return .next ⟨cursor, .skipToEntry name .opening, map⟩
      | none => return .next ⟨cursor, .skipToEntry name .nothing, map⟩
  | ⟨cursor, .skipToEntry name mark, map⟩ => do
    let cursor ← cursor.skipWhite?
    return .next ⟨cursor, .enter name mark, map⟩
  | ⟨cursor, .enter name .nothing, map⟩ =>
    if cursor.isEnd then some (.done (.ok (NameMap.insert (String.ofList name) .bare map)))
    else some (.done (.error .malformedExpand))
  | ⟨cursor, .enter name .comma, map⟩ =>
    if cursor.isEnd then some (.done (.error .malformedExpand))
    else some (.next ⟨cursor, .skipToName, NameMap.insert (String.ofList name) .bare map⟩)
  | ⟨cursor, .enter name .opening, map⟩ => do
    let rest ← cursor.rest?
    match closingIndex rest with
    | .error fault => return .done (.error fault)
    | .ok close =>
      let (group, _) ← splitBytes? close rest
      match node limit (depth + 1) group with
      | .error fault => return .done (.error fault)
      | .ok value =>
        return .next ⟨cursor.advance (close + 1), .skipToComma,
          NameMap.insert (String.ofList name) value map⟩
  | ⟨cursor, .skipToComma, map⟩ => do
    let cursor ← cursor.skipWhite?
    return .next ⟨cursor, .takeComma, map⟩
  | ⟨cursor, .takeComma, map⟩ =>
    if cursor.isEnd then some (.done (.ok map))
    else do
      match ← cursor.eat? ',' with
      | some cursor => return .next ⟨cursor, .skipToItem, map⟩
      | none => return .done (.error .malformedExpand)
  | ⟨cursor, .skipToItem, map⟩ => do
    let cursor ← cursor.skipWhite?
    return .next ⟨cursor, .skipToName, map⟩

/-- From a place to the next one. -/
def Goes (limit : DepthLimit) (depth : Nat) (reading next : Reading) : Prop :=
  step limit depth reading = some (.next next)

/-- The places that reading a text gets to. -/
def Reached (limit : DepthLimit) (depth : Nat) (text : List Char) : Reading → Prop :=
  Relation.ReflTransGen (Goes limit depth) (.start text)

/-! ## Moves of the cursor -/

namespace Cursor

variable {text rest : List Char}

/-- The place in front of an end of the text. -/
def before (text rest : List Char) : Cursor := ⟨text, byteLength text - byteLength rest⟩

theorem before_append (front rest : List Char) :
    before (front ++ rest) rest = ⟨front ++ rest, byteLength front⟩ := by
  rw [before, byteLength_append, Nat.add_sub_cancel]

theorem position_before_le (text rest : List Char) :
    (before text rest).position ≤ byteLength text :=
  Nat.sub_le _ _

theorem isBoundary_before (h : rest <:+ text) : IsBoundary text (before text rest).position := by
  obtain ⟨front, rfl⟩ := h
  rw [before_append]
  exact isBoundary_append front rest

theorem rest?_before (h : rest <:+ text) : (before text rest).rest? = some rest := by
  obtain ⟨front, rfl⟩ := h
  rw [rest?, before_append, splitBytes?_append, Option.map_some]

/-- Moving on by the bytes of what stands at the place gets to what stands behind it. -/
theorem before_add (front : List Char) (h : front ++ rest <:+ text) :
    { before text (front ++ rest) with
      position := (before text (front ++ rest)).position + byteLength front } =
      before text rest := by
  have hle := byteLength_le_of_suffix h
  rw [byteLength_append] at hle
  simp only [before, Cursor.mk.injEq, true_and, byteLength_append]
  omega

theorem suffix_of_append (front : List Char) (h : front ++ rest <:+ text) : rest <:+ text :=
  (List.suffix_append front rest).trans h

theorem isEnd_before (h : rest <:+ text) : (before text rest).isEnd = true ↔ rest = [] := by
  have hle := byteLength_le_of_suffix h
  rw [isEnd, decide_eq_true_iff]
  dsimp only [before]
  cases rest with
  | nil => simp
  | cons c rest =>
    have := c.utf8Size_pos
    rw [byteLength_cons] at hle ⊢
    constructor
    · intro hend
      omega
    · nofun

theorem skipWhite?_before (h : rest <:+ text) :
    (before text rest).skipWhite? = some (before text (skipWhite rest)) := by
  obtain ⟨white, -, hrest⟩ := exists_white_append rest
  have hbytes : byteLength rest - byteLength (skipWhite rest) = byteLength white := by
    have hlength := congrArg byteLength hrest
    rw [byteLength_append] at hlength
    omega
  rw [skipWhite?, rest?_before h, Option.map_some, hbytes]
  generalize skipWhite rest = after at hrest
  subst hrest
  rw [before_add white h]

theorem eat?_before {c : Char} (h : c :: rest <:+ text) :
    (before text (c :: rest)).eat? c = some (some (before text rest)) := by
  have hmove := before_add [c] h
  rw [List.singleton_append, byteLength_cons, byteLength_nil, Nat.add_zero] at hmove
  rw [eat?, rest?_before h, Option.map_some, List.head?_cons, if_pos rfl, hmove]

theorem eat?_before_of_ne {c : Char} (h : rest <:+ text) (hc : rest.head? ≠ some c) :
    (before text rest).eat? c = some none := by
  rw [eat?, rest?_before h, Option.map_some, if_neg hc]

theorem takeName?_before {name after : List Char} (h : rest <:+ text)
    (hname : takeIdentifier? rest = some (name, after)) :
    (before text rest).takeName? = some (some (name, before text after)) := by
  obtain rfl := takeIdentifier?_append hname
  rw [takeName?, rest?_before h, Option.map_some, hname, Option.map_some,
    before_add name h]

theorem takeName?_before_of_none (h : rest <:+ text) (hname : takeIdentifier? rest = none) :
    (before text rest).takeName? = some none := by
  rw [takeName?, rest?_before h, Option.map_some, hname, Option.map_none]

/-- **The end of a group and the byte behind it lie in the text**, so moving behind the group is
never held up by the end of the text. -/
theorem position_advance {group after : List Char} (h : group ++ ')' :: after <:+ text) :
    ((before text (group ++ ')' :: after)).advance (byteLength group + 1)).position =
      (before text (group ++ ')' :: after)).position + (byteLength group + 1) := by
  have hle := byteLength_le_of_suffix h
  have hclose : (')' : Char).utf8Size = 1 := rfl
  simp only [advance, before, byteLength_append, byteLength_cons, hclose] at hle ⊢
  omega

theorem advance_before {group after : List Char} (h : group ++ ')' :: after <:+ text) :
    (before text (group ++ ')' :: after)).advance (byteLength group + 1) = before text after := by
  have hbehind : (group ++ [')']) ++ after <:+ text := by simpa using h
  have hmove := before_add (group ++ [')']) hbehind
  have hbytes : byteLength (group ++ [')']) = byteLength group + 1 := by
    rw [byteLength_append]
    rfl
  rw [hbytes, List.append_assoc, List.singleton_append] at hmove
  rw [← hmove]
  exact congrArg (Cursor.mk text) (position_advance h)

end Cursor

/-! ## What a reading makes of the rest of its text -/

/-- The map with entries added in their order. -/
def addEntries (map list : List (String × Expansion)) : List (String × Expansion) :=
  list.foldl (fun map entry => NameMap.insert entry.1 entry.2 map) map

/-- What is made of a rest that begins with an item. -/
def itemOutcome (limit : DepthLimit) (depth : Nat) (rest : List Char)
    (map : List (String × Expansion)) : Except Fault (List (String × Expansion)) :=
  (entries limit depth rest).map (addEntries map)

/-- What is made of a rest that ends or goes on with a comma. -/
def commaOutcome (limit : DepthLimit) (depth : Nat) (rest : List Char)
    (map : List (String × Expansion)) : Except Fault (List (String × Expansion)) :=
  match rest with
  | [] => .ok map
  | ',' :: rest => itemOutcome limit depth rest map
  | _ => .error .malformedExpand

/-- What is made of a rest behind a name and its mark. -/
def entryOutcome (limit : DepthLimit) (depth : Nat) (name : List Char) (mark : Mark)
    (rest : List Char) (map : List (String × Expansion)) :
    Except Fault (List (String × Expansion)) :=
  match mark with
  | .nothing =>
    if rest = [] then .ok (NameMap.insert (String.ofList name) .bare map)
    else .error .malformedExpand
  | .comma => itemOutcome limit depth rest (NameMap.insert (String.ofList name) .bare map)
  | .opening =>
    match splitGroup? rest with
    | none => .error .unclosedGroup
    | some (group, after) =>
      match node limit (depth + 1) group with
      | .error fault => .error fault
      | .ok value =>
        commaOutcome limit depth (skipWhite after) (NameMap.insert (String.ofList name) value map)

/-- What is made of a rest that begins with the mark behind a name. -/
def markOutcome (limit : DepthLimit) (depth : Nat) (name rest : List Char)
    (map : List (String × Expansion)) : Except Fault (List (String × Expansion)) :=
  match rest with
  | ',' :: rest => entryOutcome limit depth name .comma (skipWhite rest) map
  | '(' :: rest => entryOutcome limit depth name .opening (skipWhite rest) map
  | rest => entryOutcome limit depth name .nothing (skipWhite rest) map

/-- What is made of a rest that begins with a name. -/
def nameOutcome (limit : DepthLimit) (depth : Nat) (rest : List Char)
    (map : List (String × Expansion)) : Except Fault (List (String × Expansion)) :=
  match takeIdentifier? rest with
  | none => .error .malformedExpand
  | some (name, after) => markOutcome limit depth name (skipWhite after) map

/-- What is made of the rest at each point. -/
def Phase.outcome (limit : DepthLimit) (depth : Nat) (phase : Phase) (rest : List Char)
    (map : List (String × Expansion)) : Except Fault (List (String × Expansion)) :=
  match phase with
  | .skipToName => itemOutcome limit depth rest map
  | .takeName => nameOutcome limit depth rest map
  | .skipToMark name => markOutcome limit depth name (skipWhite rest) map
  | .takeMark name => markOutcome limit depth name rest map
  | .skipToEntry name mark => entryOutcome limit depth name mark (skipWhite rest) map
  | .enter name mark => entryOutcome limit depth name mark rest map
  | .skipToComma => commaOutcome limit depth (skipWhite rest) map
  | .takeComma => commaOutcome limit depth rest map
  | .skipToItem => itemOutcome limit depth (skipWhite rest) map

variable {text rest : List Char} {map : List (String × Expansion)}

/-- White space in front of an item makes no difference. -/
theorem itemOutcome_skipWhite :
    itemOutcome limit depth (skipWhite rest) map = itemOutcome limit depth rest map := by
  have hitem : readItem (skipWhite rest) = readItem rest := by
    rw [readItem, readItem, skipWhite_skipWhite]
  rw [itemOutcome, itemOutcome, entries_eq_bind, entries_eq_bind, hitem]

theorem commaOutcome_of_ne (hnil : rest ≠ []) (hcomma : ∀ after, rest ≠ ',' :: after) :
    commaOutcome limit depth rest map = .error .malformedExpand := by
  unfold commaOutcome
  split
  · exact absurd rfl hnil
  · exact absurd rfl (hcomma _)
  · rfl

/-- Behind the white space a comma is looked for, as it is by `continuation`. -/
theorem commaOutcome_skipWhite (name : List Char) (value : Expansion) :
    commaOutcome limit depth (skipWhite rest) (NameMap.insert (String.ofList name) value map) =
      (continuation rest >>= fun next =>
        match next with
        | none => pure [(String.ofList name, value)]
        | some rest => entries limit depth rest >>= fun tail =>
            pure ((String.ofList name, value) :: tail)).map (addEntries map) := by
  cases hahead : skipWhite rest with
  | nil =>
    have hnext : continuation rest = .ok none := by rw [continuation, hahead]
    rw [hnext]
    rfl
  | cons c tail =>
    by_cases hc : c = ','
    · subst hc
      have hnext : continuation rest = .ok (some tail) := by
        rw [continuation, hahead]
        rfl
      rw [hnext]
      show itemOutcome limit depth tail _ = (entries limit depth tail >>= _).map _
      unfold itemOutcome
      cases entries limit depth tail <;> rfl
    · have hcomma (after : List Char) : c :: tail ≠ ',' :: after := fun h => hc (List.cons.inj h).1
      have hnext : continuation rest = .error .malformedExpand := by
        rw [continuation, hahead]
        split
        · rename_i heq
          exact absurd heq (List.cons_ne_nil c tail)
        · rename_i heq
          exact absurd heq (hcomma _)
        · rfl
      rw [hnext, commaOutcome_of_ne (List.cons_ne_nil c tail) hcomma]
      rfl

/-- A name without a group is entered as it is, and its mark is the comma that is looked for. -/
theorem markOutcome_of_ne_open {name ahead : List Char}
    (hwhite : ∀ c ∈ ahead.head?, isWhite c = false) (hopen : ∀ inside, ahead ≠ '(' :: inside) :
    markOutcome limit depth name ahead map =
      commaOutcome limit depth ahead (NameMap.insert (String.ofList name) .bare map) := by
  unfold markOutcome
  split
  · exact itemOutcome_skipWhite
  · exact absurd rfl (hopen _)
  · rename_i hcomma _
    rw [skipWhite_eq_self hwhite, entryOutcome]
    split
    · rename_i hnil
      rw [hnil]
      rfl
    · rename_i hnil
      exact (commaOutcome_of_ne hnil hcomma).symm

/-- **What is made of an item is what is made of its name and of the rest behind it.** -/
theorem itemOutcome_eq_nameOutcome :
    itemOutcome limit depth rest map = nameOutcome limit depth (skipWhite rest) map := by
  rw [itemOutcome, entries_eq_bind, readItem, nameOutcome]
  cases takeIdentifier? (skipWhite rest) with
  | none => rfl
  | some cut =>
    obtain ⟨name, after⟩ := cut
    dsimp only
    have hwhite := isWhite_head_skipWhite after
    split
    · rename_i inside hinside
      rw [hinside, markOutcome, entryOutcome]
      cases splitGroup? (skipWhite inside) with
      | none => rfl
      | some cut =>
        obtain ⟨group, after⟩ := cut
        show (node limit (depth + 1) group >>= _).map _ = _
        dsimp only
        cases node limit (depth + 1) group with
        | error fault => rfl
        | ok value => exact (commaOutcome_skipWhite name value).symm
    · rename_i hopen
      rw [markOutcome_of_ne_open hwhite hopen]
      have hcomma := @commaOutcome_skipWhite limit depth (skipWhite after) map name .bare
      rw [skipWhite_skipWhite] at hcomma
      exact hcomma.symm

/-! ## Moves -/

/-- Counts down to the next name. -/
def Phase.ahead : Phase → Nat
  | .takeName => 0
  | .skipToName => 1
  | .skipToItem => 2
  | .takeComma => 3
  | .skipToComma => 4
  | .enter _ _ => 5
  | .skipToEntry _ _ => 6
  | .takeMark _ => 7
  | .skipToMark _ => 8

/-- Bounds the number of moves to come. Only a name leads further up, and it takes bytes away. -/
def Phase.left (phase : Phase) (rest : List Char) : Nat := 9 * byteLength rest + phase.ahead

theorem Phase.ahead_le (phase : Phase) : phase.ahead ≤ 8 := by
  cases phase <;> simp [ahead]

variable {phase phase' : Phase} {rest' : List Char} {map' : List (String × Expansion)}

/-- Whatever comes next, it is less when bytes have been taken away. -/
theorem left_lt_of_lt (h : byteLength rest' < byteLength rest) :
    phase'.left rest' < phase.left rest := by
  have := phase'.ahead_le
  simp only [Phase.left]
  omega

theorem left_lt_of_le (h : byteLength rest' ≤ byteLength rest)
    (hahead : phase'.ahead < phase.ahead) : phase'.left rest' < phase.left rest := by
  simp only [Phase.left]
  omega

theorem byteLength_lt_cons (c : Char) (rest : List Char) :
    byteLength rest < byteLength (c :: rest) := by
  have := c.utf8Size_pos
  rw [byteLength_cons]
  omega

/-- From in front of a rest a move is possible, and either stops with what is made of the rest, or
gets in front of another end of the text, of which the same is made, closer to the end. -/
inductive CanMove (limit : DepthLimit) (depth : Nat) (text rest : List Char) (phase : Phase)
    (map : List (String × Expansion)) : Prop
  | next {rest' : List Char} {phase' : Phase} {map' : List (String × Expansion)}
      (hstep : step limit depth ⟨.before text rest, phase, map⟩ =
        some (.next ⟨.before text rest', phase', map'⟩))
      (hsuffix : rest' <:+ text)
      (houtcome : phase'.outcome limit depth rest' map' = phase.outcome limit depth rest map)
      (hleft : phase'.left rest' < phase.left rest)
  | done (hstep : step limit depth ⟨.before text rest, phase, map⟩ =
      some (.done (phase.outcome limit depth rest map)))

/-- White space is skipped and nothing else happens. -/
theorem canMove_of_skipWhite (h : rest <:+ text)
    (hstep : step limit depth ⟨.before text rest, phase, map⟩ =
      (Cursor.before text rest).skipWhite?.bind fun cursor => some (.next ⟨cursor, phase', map⟩))
    (houtcome : phase'.outcome limit depth (skipWhite rest) map =
      phase.outcome limit depth rest map)
    (hahead : phase'.ahead < phase.ahead) : CanMove limit depth text rest phase map := by
  rw [Cursor.skipWhite?_before h, Option.bind_some] at hstep
  exact .next hstep ((skipWhite_suffix rest).trans h) houtcome
    (left_lt_of_le (byteLength_skipWhite_le rest) hahead)

theorem canMove_takeName (h : rest <:+ text) : CanMove limit depth text rest .takeName map := by
  cases hname : takeIdentifier? rest with
  | none =>
    refine .done ?_
    rw [step, Cursor.takeName?_before_of_none h hname, Phase.outcome, nameOutcome, hname]
    rfl
  | some cut =>
    obtain ⟨name, after⟩ := cut
    have hstep : step limit depth ⟨.before text rest, .takeName, map⟩ =
        some (.next ⟨.before text after, .skipToMark name, map⟩) := by
      rw [step, Cursor.takeName?_before h hname]
      rfl
    have hsuffix : after <:+ text := by
      rw [← takeIdentifier?_append hname] at h
      exact Cursor.suffix_of_append name h
    refine .next hstep hsuffix ?_ (left_lt_of_lt (byteLength_takeIdentifier?_lt hname))
    rw [Phase.outcome, Phase.outcome, nameOutcome, hname]

theorem canMove_takeMark {name : List Char} (h : rest <:+ text) :
    CanMove limit depth text rest (.takeMark name) map := by
  by_cases hcomma : rest.head? = some ','
  · obtain ⟨after, rfl⟩ := List.head?_eq_some_iff.1 hcomma
    have hstep : step limit depth ⟨.before text (',' :: after), .takeMark name, map⟩ =
        some (.next ⟨.before text after, .skipToEntry name .comma, map⟩) := by
      rw [step, Cursor.eat?_before h]
      rfl
    exact .next hstep (Cursor.suffix_of_append [','] h) rfl (left_lt_of_lt (byteLength_lt_cons _ _))
  by_cases hopen : rest.head? = some '('
  · obtain ⟨after, rfl⟩ := List.head?_eq_some_iff.1 hopen
    have hstep : step limit depth ⟨.before text ('(' :: after), .takeMark name, map⟩ =
        some (.next ⟨.before text after, .skipToEntry name .opening, map⟩) := by
      rw [step, Cursor.eat?_before_of_ne h hcomma, Cursor.eat?_before h]
      rfl
    exact .next hstep (Cursor.suffix_of_append ['('] h) rfl (left_lt_of_lt (byteLength_lt_cons _ _))
  · have hstep : step limit depth ⟨.before text rest, .takeMark name, map⟩ =
        some (.next ⟨.before text rest, .skipToEntry name .nothing, map⟩) := by
      rw [step, Cursor.eat?_before_of_ne h hcomma, Cursor.eat?_before_of_ne h hopen]
      rfl
    refine .next hstep h ?_ (left_lt_of_le (Nat.le_refl _) (by simp [Phase.ahead]))
    rw [Phase.outcome, Phase.outcome]
    unfold markOutcome
    split
    · exact absurd rfl hcomma
    · exact absurd rfl hopen
    · rfl

theorem itemOutcome_nil : itemOutcome limit depth [] map = .error .malformedExpand := by
  rw [itemOutcome_eq_nameOutcome]
  rfl

theorem canMove_enter_opening {name : List Char} (h : rest <:+ text) :
    CanMove limit depth text rest (.enter name .opening) map := by
  cases hgroup : splitGroup? rest with
  | none =>
    have hclose : closingIndex rest = .error .unclosedGroup := by rw [closingIndex, hgroup]
    refine .done ?_
    simp [step, Cursor.rest?_before h, hclose, Phase.outcome, entryOutcome, hgroup]
  | some cut =>
    obtain ⟨group, after⟩ := cut
    have hclose : closingIndex rest = .ok (byteLength group) := by rw [closingIndex, hgroup]
    obtain rfl := append_of_splitGroup? hgroup
    have hcut := splitBytes?_append group (')' :: after)
    cases hnode : node limit (depth + 1) group with
    | error fault =>
      refine .done ?_
      simp [step, Cursor.rest?_before h, hclose, hcut, hnode, Phase.outcome, entryOutcome, hgroup]
    | ok value =>
      have hstep : step limit depth
          ⟨.before text (group ++ ')' :: after), .enter name .opening, map⟩ =
            some (.next ⟨.before text after, .skipToComma,
              NameMap.insert (String.ofList name) value map⟩) := by
        simp [step, Cursor.rest?_before h, hclose, hcut, hnode, Cursor.advance_before h]
      have hsuffix : after <:+ text := by
        refine Cursor.suffix_of_append (group ++ [')']) ?_
        rwa [List.append_assoc, List.singleton_append]
      refine .next hstep hsuffix ?_ (left_lt_of_lt ?_)
      · simp only [Phase.outcome, entryOutcome, hgroup, hnode]
      · rw [byteLength_append, byteLength_cons]
        have := (')' : Char).utf8Size_pos
        omega

theorem canMove_enter {name : List Char} {mark : Mark} (h : rest <:+ text) :
    CanMove limit depth text rest (.enter name mark) map := by
  cases mark with
  | nothing =>
    refine .done ?_
    simp only [step, Cursor.isEnd_before h, Phase.outcome, entryOutcome]
    split <;> rfl
  | comma =>
    by_cases hend : rest = []
    · refine .done ?_
      rw [step, if_pos ((Cursor.isEnd_before h).2 hend), hend, Phase.outcome, entryOutcome,
        itemOutcome_nil]
    · have hstep : step limit depth ⟨.before text rest, .enter name .comma, map⟩ =
          some (.next ⟨.before text rest, .skipToName,
            NameMap.insert (String.ofList name) .bare map⟩) := by
        rw [step, if_neg (mt (Cursor.isEnd_before h).1 hend)]
      exact .next hstep h rfl (left_lt_of_le (Nat.le_refl _) (by simp [Phase.ahead]))
  | opening => exact canMove_enter_opening h

theorem canMove_takeComma (h : rest <:+ text) : CanMove limit depth text rest .takeComma map := by
  by_cases hend : rest = []
  · refine .done ?_
    rw [step, if_pos ((Cursor.isEnd_before h).2 hend), hend]
    rfl
  have hgoes := mt (Cursor.isEnd_before h).1 hend
  by_cases hcomma : rest.head? = some ','
  · obtain ⟨after, rfl⟩ := List.head?_eq_some_iff.1 hcomma
    have hstep : step limit depth ⟨.before text (',' :: after), .takeComma, map⟩ =
        some (.next ⟨.before text after, .skipToItem, map⟩) := by
      rw [step, if_neg hgoes, Cursor.eat?_before h]
      rfl
    exact .next hstep (Cursor.suffix_of_append [','] h) itemOutcome_skipWhite
      (left_lt_of_lt (byteLength_lt_cons _ _))
  · refine .done ?_
    have hne (after : List Char) : rest ≠ ',' :: after := by
      rintro rfl
      exact hcomma rfl
    rw [step, if_neg hgoes, Cursor.eat?_before_of_ne h hcomma, Phase.outcome,
      commaOutcome_of_ne hend hne]
    rfl

/-- **In front of an end of the text a move is possible**, at each point of the program. -/
theorem canMove_before (h : rest <:+ text) (phase : Phase) :
    CanMove limit depth text rest phase map := by
  cases phase with
  | skipToName =>
    exact canMove_of_skipWhite h rfl itemOutcome_eq_nameOutcome.symm (by simp [Phase.ahead])
  | takeName => exact canMove_takeName h
  | skipToMark name => exact canMove_of_skipWhite h rfl rfl (by simp [Phase.ahead])
  | takeMark name => exact canMove_takeMark h
  | skipToEntry name mark => exact canMove_of_skipWhite h rfl rfl (by simp [Phase.ahead])
  | enter name mark => exact canMove_enter h
  | skipToComma => exact canMove_of_skipWhite h rfl rfl (by simp [Phase.ahead])
  | takeComma => exact canMove_takeComma h
  | skipToItem => exact canMove_of_skipWhite h rfl rfl (by simp [Phase.ahead])

/-! ## Runs -/

/-- The reading stands in front of an end of the text, and makes of it what is made of the text. -/
def Stands (limit : DepthLimit) (depth : Nat) (text : List Char) (reading : Reading) : Prop :=
  ∃ rest, rest <:+ text ∧ reading.cursor = .before text rest ∧
    reading.phase.outcome limit depth rest reading.map =
      (entries limit depth text).map NameMap.ofEntries

/-- What a move lowers. -/
def Reading.left (reading : Reading) : Nat :=
  9 * (byteLength reading.cursor.text - reading.cursor.position) + reading.phase.ahead

theorem left_before (h : rest <:+ text) (phase : Phase) :
    Reading.left ⟨.before text rest, phase, map⟩ = phase.left rest := by
  have hle := byteLength_le_of_suffix h
  simp only [Reading.left, Cursor.before, Phase.left]
  omega

theorem stands_start (limit : DepthLimit) (depth : Nat) (text : List Char) :
    Stands limit depth text (.start text) :=
  ⟨text, List.suffix_rfl, by rw [Cursor.before, Nat.sub_self, Reading.start], rfl⟩

variable {reading next : Reading}

/-- Either the reading goes on and stands closer to the end, or it stops. -/
theorem Stands.step (h : Stands limit depth text reading) :
    (∃ next, Goes limit depth reading next ∧ Stands limit depth text next ∧
      next.left < reading.left) ∨
    step limit depth reading = some (.done ((entries limit depth text).map NameMap.ofEntries)) := by
  obtain ⟨cursor, phase, map⟩ := reading
  obtain ⟨rest, hsuffix, rfl, houtcome⟩ := h
  cases (canMove_before hsuffix phase : CanMove limit depth text rest phase map) with
  | next hstep hsuffix' houtcome' hleft =>
    refine Or.inl ⟨_, hstep, ⟨_, hsuffix', rfl, houtcome'.trans houtcome⟩, ?_⟩
    rw [left_before hsuffix, left_before hsuffix']
    exact hleft
  | done hstep =>
    dsimp only at houtcome
    exact Or.inr (houtcome ▸ hstep)

theorem Stands.goes (h : Stands limit depth text reading) (hgoes : Goes limit depth reading next) :
    Stands limit depth text next ∧ next.left < reading.left := by
  obtain ⟨other, hother, hstands, hleft⟩ | hdone := h.step
  · obtain rfl := Move.next.inj (Option.some.inj (hother.symm.trans hgoes))
    exact ⟨hstands, hleft⟩
  · nomatch hdone.symm.trans hgoes

/-- **Every place of a reading is in front of an end of the text.** -/
theorem Reached.stands (h : Reached limit depth text reading) :
    Stands limit depth text reading := by
  induction h with
  | refl => exact stands_start limit depth text
  | tail _ hgoes ih => exact (ih.goes hgoes).1

/-- A later place is closer to the end. -/
theorem Stands.left_lt (h : Stands limit depth text reading)
    (hgoes : Relation.TransGen (Goes limit depth) reading next) :
    Stands limit depth text next ∧ next.left < reading.left := by
  induction hgoes with
  | single hgoes => exact h.goes hgoes
  | tail _ hgoes ih =>
    obtain ⟨hstands, hleft⟩ := ih.1.goes hgoes
    exact ⟨hstands, Nat.lt_trans hleft ih.2⟩

/-- Every reading comes to its end. -/
theorem Stands.exists_done (h : Stands limit depth text reading) :
    ∃ last, Relation.ReflTransGen (Goes limit depth) reading last ∧
      Expand.step limit depth last =
        some (.done ((entries limit depth text).map NameMap.ofEntries)) := by
  induction hleft : reading.left using Nat.strongRecOn generalizing reading with
  | ind left ih =>
    subst hleft
    obtain ⟨next, hgoes, hstands, hleft⟩ | hdone := h.step
    · obtain ⟨last, hlast, hdone⟩ := ih next.left hleft hstands rfl
      exact ⟨last, .head hgoes hlast, hdone⟩
    · exact ⟨reading, .refl, hdone⟩

/-- The cursor stands in the text where it can be cut, and a group that begins there can be cut out
and moved behind. -/
structure InText (text : List Char) (cursor : Cursor) : Prop where
  text_eq : cursor.text = text
  position_le : cursor.position ≤ byteLength text
  boundary : IsBoundary text cursor.position
  /-- The byte behind the group is in the text too, so `Cursor.advance` is not held up. -/
  closing {rest : List Char} {close : Nat} (hrest : cursor.rest? = some rest)
    (hclose : closingIndex rest = .ok close) :
    close < byteLength rest ∧ IsBoundary rest close ∧ IsBoundary rest (close + 1) ∧
      (cursor.advance (close + 1)).position = cursor.position + (close + 1)

theorem inText_before (h : rest <:+ text) : InText text (.before text rest) where
  text_eq := rfl
  position_le := Cursor.position_before_le text rest
  boundary := Cursor.isBoundary_before h
  closing {rest' close} hrest hclose := by
    obtain rfl := Option.some.inj ((Cursor.rest?_before h).symm.trans hrest)
    rw [closingIndex] at hclose
    cases hgroup : splitGroup? rest with
    | none => rw [hgroup] at hclose; nomatch hclose
    | some cut =>
      obtain ⟨group, after⟩ := cut
      rw [hgroup] at hclose
      obtain rfl := Except.ok.inj hclose
      obtain rfl := append_of_splitGroup? hgroup
      refine ⟨?_, isBoundary_append group _, ?_, Cursor.position_advance h⟩
      · have := (')' : Char).utf8Size_pos
        rw [byteLength_append, byteLength_cons]
        omega
      · have hbehind := isBoundary_append (group ++ [')']) after
        rwa [byteLength_append, List.append_assoc] at hbehind

/-- **The cursor never leaves the text.** Wherever reading a clause gets to, the cursor is at a
character or at the end, a group that begins there can be cut out and moved behind, and a move is
possible; from one item to the next the position grows; and in the end there is the map of the
clause, or its fault. -/
theorem cursor_stays_in_text (limit : DepthLimit) (depth : Nat) (text : List Char) :
    (∀ reading, Reached limit depth text reading →
      InText text reading.cursor ∧ ∃ move, step limit depth reading = some move) ∧
    (∀ item next, Reached limit depth text item → item.phase = .skipToName →
      Relation.TransGen (Goes limit depth) item next → next.phase = .skipToName →
      item.cursor.position < next.cursor.position) ∧
    ∃ last, Reached limit depth text last ∧ step limit depth last =
      some (.done ((entries limit depth text).map NameMap.ofEntries)) := by
  refine ⟨fun reading h => ⟨?_, ?_⟩, fun item next h hitem hgoes hnext => ?_,
    (stands_start limit depth text).exists_done⟩
  · obtain ⟨rest, hsuffix, hcursor, -⟩ := h.stands
    rw [hcursor]
    exact inText_before hsuffix
  · obtain ⟨next, hgoes, -⟩ | hdone := h.stands.step
    · exact ⟨_, hgoes⟩
    · exact ⟨_, hdone⟩
  · obtain ⟨hstands, hleft⟩ := h.stands.left_lt hgoes
    obtain ⟨rest, -, hcursor, -⟩ := h.stands
    obtain ⟨rest', -, hcursor', -⟩ := hstands
    simp only [Reading.left, hitem, hnext, hcursor, hcursor', Cursor.before] at hleft ⊢
    omega

/-- The second item stands behind a wide space, and in its group is a character of two bytes. -/
theorem cursor_stays_in_text_wide :
    let text := "A,\u2003B (é)".toList
    let item : Reading := ⟨⟨text, 5⟩, .skipToName, [("A", .bare)]⟩
    let group : Reading := ⟨⟨text, 8⟩, .enter ['B'] .opening, [("A", .bare)]⟩
    (Relation.TransGen (Goes none 0) (.start text) item ∧ 0 < item.cursor.position) ∧
      Reached none 0 text group ∧ IsBoundary text 8 ∧
      group.cursor.rest? = some ['é', ')'] ∧ closingIndex ['é', ')'] = .ok 2 ∧
      IsBoundary ['é', ')'] 2 ∧ (group.cursor.advance 3).position = 11 := by
  intro text item group
  obtain ⟨hplaces, hgrows, -⟩ := cursor_stays_in_text none 0 text
  have hitem : Relation.TransGen (Goes none 0) (.start text) item :=
    .head rfl <| .head rfl <| .head rfl <| .head rfl <| .head rfl <| .single rfl
  have hgroup : Reached none 0 text group :=
    hitem.to_reflTransGen.trans <|
      .head rfl <| .head rfl <| .head rfl <| .head rfl <| .single rfl
  have hin := (hplaces group hgroup).1
  have hclosing : closingIndex ['é', ')'] = .ok 2 := rfl
  obtain ⟨-, hclose, -, hposition⟩ := hin.closing rfl hclosing
  exact ⟨⟨hitem, hgrows (.start text) item .refl rfl hitem rfl⟩, hgroup, hin.boundary, rfl, rfl,
    hclose, hposition⟩

end OData.Expand
