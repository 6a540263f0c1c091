import OData.Fault
import OData.NameMap

/-!
# Queries

What a query asks for: fields (`$select`) and related entities (`$expand`), the latter with fields
and related entities of their own. An unset part and a part that is set but empty are different.
-/

namespace OData

/-- What is asked of one related entity: its fields, and its own related entities by name. -/
structure Expansion where
  select : Option (List String) := none
  expand : Option (List (String × Expansion)) := none

/-- A whole query. A query with an error says nothing by its other parts. -/
structure Query where
  error : Option QueryError := none
  select : Option (List String) := none
  expand : Option (List (String × Expansion)) := none

/-! ## Equality -/

namespace Expansion

mutual

def decEq : (a b : Expansion) → Decidable (a = b)
  | ⟨select, expand⟩, ⟨select', expand'⟩ =>
    match inferInstanceAs (Decidable (select = select')), decEqMap expand expand' with
    | isTrue hs, isTrue he => isTrue (by rw [hs, he])
    | isFalse hs, _ => isFalse fun h => hs (Expansion.mk.inj h).1
    | _, isFalse he => isFalse fun h => he (Expansion.mk.inj h).2

def decEqMap : (a b : Option (List (String × Expansion))) → Decidable (a = b)
  | none, none => isTrue rfl
  | none, some _ => isFalse nofun
  | some _, none => isFalse nofun
  | some a, some b =>
    match decEqEntries a b with
    | isTrue h => isTrue (by rw [h])
    | isFalse h => isFalse fun heq => h (Option.some.inj heq)

def decEqEntries : (a b : List (String × Expansion)) → Decidable (a = b)
  | [], [] => isTrue rfl
  | [], _ :: _ => isFalse nofun
  | _ :: _, [] => isFalse nofun
  | (name, node) :: rest, (name', node') :: rest' =>
    match inferInstanceAs (Decidable (name = name')), decEq node node', decEqEntries rest rest' with
    | isTrue hn, isTrue hv, isTrue hr => isTrue (by rw [hn, hv, hr])
    | isFalse hn, _, _ => isFalse fun h => hn (Prod.mk.inj (List.cons.inj h).1).1
    | _, isFalse hv, _ => isFalse fun h => hv (Prod.mk.inj (List.cons.inj h).1).2
    | _, _, isFalse hr => isFalse fun h => hr (List.cons.inj h).2

end

instance : DecidableEq Expansion := decEq

/-! ## Parts -/

/-- What a name without a group asks for: an empty field list. -/
def bare : Expansion := { select := some [] }

/-- Whether neither part is set. -/
def isEmpty (node : Expansion) : Bool := node.select.isNone && node.expand.isNone

end Expansion

deriving instance DecidableEq for Query

namespace Query

/-- The query, or the error it carries. -/
def toExcept (query : Query) : Except QueryError Query :=
  match query.error with
  | some error => .error error
  | none => .ok query

/-- Adds a related entity of which nothing special is asked, in place of what was asked of it
before; also tells whether the name was there. -/
def expandBare (name : String) (query : Query) : Bool × Query :=
  let map := query.expand.getD []
  ((map.lookup name).isSome, { query with expand := some (NameMap.insert name .bare map) })

end Query

end OData
