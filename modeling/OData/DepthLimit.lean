import OData.Fault

/-!
# Depth limit

How deep the groups of an expand clause may stand in each other. A group of the clause itself has
depth 1.
-/

namespace OData

/-- The greatest depth allowed; `none` sets no limit. -/
abbrev DepthLimit := Option Nat

namespace DepthLimit

/-- Whether a group may stand at a depth. -/
def permits (limit : DepthLimit) (depth : Nat) : Bool :=
  match limit with
  | none => true
  | some greatest => depth ≤ greatest

/-- Refuses a depth that the limit does not permit. -/
def check (limit : DepthLimit) (depth : Nat) : Except Fault Unit :=
  match limit with
  | none => .ok ()
  | some greatest => if depth ≤ greatest then .ok () else .error (.tooDeep greatest)

theorem check_eq_ok_iff {limit : DepthLimit} {depth : Nat} :
    limit.check depth = .ok () ↔ limit.permits depth = true := by
  cases limit with
  | none => simp [check, permits]
  | some greatest => by_cases h : depth ≤ greatest <;> simp [check, permits, h]

theorem check_eq_error_iff {limit : DepthLimit} {depth : Nat} {fault : Fault} :
    limit.check depth = .error fault ↔
      ∃ greatest, limit = some greatest ∧ greatest < depth ∧ fault = .tooDeep greatest := by
  cases limit with
  | none => simp [check]
  | some greatest =>
    by_cases h : depth ≤ greatest
    · simp [check, h, Nat.not_lt.2 h]
    · simp [check, h, Nat.lt_of_not_le h, eq_comm]

end DepthLimit

end OData
