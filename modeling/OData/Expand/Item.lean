import OData.Fault
import OData.Text.Identifier
import OData.Text.Parens
import OData.Text.Utf8
import OData.Text.White

/-!
# Items of an expand clause

The clause is a list of items between commas. An item is a name, and maybe a group in parentheses
behind it; white space may stand around all of them. This module takes items off the front of a
clause and leaves the insides of groups unread.

## Main statements

* `byteLength_after_lt` and `byteLength_group_lt` — the text after an item and the inside of its
  group are shorter than the text that the item was taken off
-/

namespace OData.Expand

open Text

/-- An item at the front of a clause. -/
structure Item where
  /-- The name, an identifier. -/
  name : List Char
  /-- The inside of the group, without the white space it starts with. -/
  group : Option (List Char)
  /-- The text after the item. -/
  after : List Char

/-- Takes an item off the front of a clause. -/
def readItem (text : List Char) : Except Fault Item :=
  match takeIdentifier? (skipWhite text) with
  | none => .error .malformedExpand
  | some (name, rest) =>
    match skipWhite rest with
    | '(' :: inside =>
      match splitGroup? (skipWhite inside) with
      | none => .error .unclosedGroup
      | some (group, after) => .ok ⟨name, some group, after⟩
    | after => .ok ⟨name, none, after⟩

/-- The clause that goes on after an item: none at the end of the text, otherwise what a comma
leads to. -/
def continuation (text : List Char) : Except Fault (Option (List Char)) :=
  match skipWhite text with
  | [] => .ok none
  | ',' :: rest => .ok (some rest)
  | _ => .error .malformedExpand

/-- The byte index of the `)` that closes a group whose `(` stands just before the text. -/
def closingIndex (text : List Char) : Except Fault Nat :=
  match splitGroup? text with
  | none => .error .unclosedGroup
  | some (group, _) => .ok (byteLength group)

/-! ## Sizes -/

theorem byteLength_skipWhite_le (text : List Char) :
    byteLength (skipWhite text) ≤ byteLength text :=
  byteLength_le_of_suffix (skipWhite_suffix text)

/-- A name has at least one byte. -/
theorem byteLength_takeIdentifier?_lt {text name rest : List Char}
    (h : takeIdentifier? text = some (name, rest)) : byteLength rest < byteLength text := by
  have hname := isIdentifier_of_takeIdentifier? h
  rw [← takeIdentifier?_append h, byteLength_append]
  cases name with
  | nil => simp [isIdentifier] at hname
  | cons c tail =>
    have := c.utf8Size_pos
    simp only [byteLength_cons]
    omega

/-- The parts of an item are shorter than the text that it was taken off. -/
theorem byteLength_item_lt {text : List Char} {item : Item} (h : readItem text = .ok item) :
    byteLength item.after < byteLength text ∧
      ∀ group, item.group = some group → byteLength group < byteLength text := by
  have hwhite := byteLength_skipWhite_le text
  rw [readItem] at h
  split at h
  · nomatch h
  · rename_i name rest hname
    have hrest := byteLength_takeIdentifier?_lt hname
    have hskip := byteLength_skipWhite_le rest
    split at h
    · rename_i inside hinside
      rw [hinside, byteLength_cons] at hskip
      have hin := byteLength_skipWhite_le inside
      split at h
      · nomatch h
      · rename_i group after hgroup
        obtain rfl := Except.ok.inj h
        rw [← append_of_splitGroup? hgroup, byteLength_append, byteLength_cons] at hin
        refine ⟨by dsimp only; omega, fun g hg => ?_⟩
        obtain rfl := Option.some.inj hg
        omega
    · obtain rfl := Except.ok.inj h
      exact ⟨by dsimp only; omega, nofun⟩

/-- **The text after an item is shorter than the text that the item was taken off.** -/
theorem byteLength_after_lt {text : List Char} {item : Item} (h : readItem text = .ok item) :
    byteLength item.after < byteLength text :=
  (byteLength_item_lt h).1

/-- **So is the inside of its group.** -/
theorem byteLength_group_lt {text group : List Char} {item : Item} (h : readItem text = .ok item)
    (hgroup : item.group = some group) : byteLength group < byteLength text :=
  (byteLength_item_lt h).2 group hgroup

theorem byteLength_continuation_le {text rest : List Char}
    (h : continuation text = .ok (some rest)) : byteLength rest < byteLength text := by
  have hwhite := byteLength_skipWhite_le text
  rw [continuation] at h
  split at h
  · nomatch h
  · rename_i tail htail
    obtain rfl := Option.some.inj (Except.ok.inj h)
    rw [htail, byteLength_cons] at hwhite
    have := (',' : Char).utf8Size_pos
    omega
  · nomatch h

end OData.Expand
