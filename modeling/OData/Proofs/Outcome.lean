import Mathlib.Control.Monad.Basic
import Mathlib.Data.List.Forall2

/-!
# Steps that can fail

What it takes for a sequence of steps to succeed. Every function that reads a text is such a
sequence, and is taken apart by these lemmas instead of by its definition.
-/

namespace OData

variable {ε α β : Type}

theorem bind_eq_ok_iff {x : Except ε α} {f : α → Except ε β} {b : β} :
    (x >>= f) = .ok b ↔ ∃ a, x = .ok a ∧ f a = .ok b := by
  cases x <;> simp [bind, Except.bind]

theorem bind_eq_error_iff {x : Except ε α} {f : α → Except ε β} {fault : ε} :
    (x >>= f) = .error fault ↔ x = .error fault ∨ ∃ a, x = .ok a ∧ f a = .error fault := by
  cases x <;> simp [bind, Except.bind]

theorem pure_eq_ok_iff {a b : α} : (pure a : Except ε α) = .ok b ↔ a = b := by
  simp [pure, Except.pure]

theorem map_eq_ok_iff {x : Except ε α} {f : α → β} {b : β} :
    x.map f = .ok b ↔ ∃ a, x = .ok a ∧ f a = b := by
  cases x <;> simp [Except.map]

theorem map_eq_error_iff {x : Except ε α} {f : α → β} {fault : ε} :
    x.map f = .error fault ↔ x = .error fault := by
  cases x <;> simp [Except.map]

/-- Errors are translated at every step or at the end of all of them. -/
theorem mapError_bind {δ : Type} (x : Except ε α) (f : α → Except ε β) (g : ε → δ) :
    (x >>= f).mapError g = x.mapError g >>= fun a => (f a).mapError g := by
  cases x <;> rfl

theorem mapError_map {δ : Type} (x : Except ε α) (f : α → β) (g : ε → δ) :
    (x.map f).mapError g = (x.mapError g).map f := by
  cases x <;> rfl

/-- A translation that leaves the error alone leaves the outcome alone. -/
theorem mapError_eq_self {x : Except ε α} {g : ε → ε}
    (h : ∀ fault, x = .error fault → g fault = fault) : x.mapError g = x := by
  cases x with
  | error fault => exact congrArg _ (h fault rfl)
  | ok a => rfl

/-- **A step for each element succeeds when all of them do.** -/
theorem mapM_eq_ok_iff {f : α → Except ε β} {as : List α} {bs : List β} :
    as.mapM f = .ok bs ↔ List.Forall₂ (fun a b => f a = .ok b) as bs := by
  induction as generalizing bs with
  | nil => rw [List.mapM_nil, pure_eq_ok_iff, List.forall₂_nil_left_iff, eq_comm]
  | cons a as ih =>
    rw [List.mapM_cons, List.forall₂_cons_left_iff, bind_eq_ok_iff]
    constructor
    · rintro ⟨b, hb, hrest⟩
      obtain ⟨rest, hmap, heq⟩ := bind_eq_ok_iff.1 hrest
      exact ⟨b, rest, hb, ih.1 hmap, (pure_eq_ok_iff.1 heq).symm⟩
    · rintro ⟨b, rest, hb, hrest, rfl⟩
      exact ⟨b, hb, bind_eq_ok_iff.2 ⟨rest, ih.2 hrest, rfl⟩⟩

/-- **It fails with what the first element that fails does.** -/
theorem mapM_eq_error_iff {f : α → Except ε β} {as : List α} {fault : ε} :
    as.mapM f = .error fault ↔
      ∃ before a after, as = before ++ a :: after ∧ (∀ earlier ∈ before, ∃ b, f earlier = .ok b) ∧
        f a = .error fault := by
  induction as with
  | nil => simp [pure, Except.pure]
  | cons a as ih =>
    rw [List.mapM_cons]
    constructor
    · intro h
      rcases bind_eq_error_iff.1 h with ha | ⟨b, hb, hrest⟩
      · exact ⟨[], a, as, rfl, nofun, ha⟩
      rcases bind_eq_error_iff.1 hrest with hmap | ⟨_, -, hpure⟩
      · obtain ⟨before, c, after, rfl, hbefore, hc⟩ := ih.1 hmap
        exact ⟨a :: before, c, after, rfl, List.forall_mem_cons.2 ⟨⟨b, hb⟩, hbefore⟩, hc⟩
      · nomatch hpure
    · rintro ⟨before, c, after, hsplit, hbefore, hc⟩
      cases before with
      | nil =>
        obtain ⟨rfl, -⟩ := List.cons.inj hsplit
        exact bind_eq_error_iff.2 (Or.inl hc)
      | cons d before =>
        obtain ⟨rfl, rfl⟩ := List.cons.inj hsplit
        obtain ⟨⟨b, hb⟩, hrest⟩ := List.forall_mem_cons.1 hbefore
        have hmap := ih.2 ⟨before, c, after, rfl, hrest, hc⟩
        exact bind_eq_error_iff.2 (Or.inr ⟨b, hb, bind_eq_error_iff.2 (Or.inl hmap)⟩)

/-- When every element is read, all of them are. -/
theorem mapM_eq_some_map {f : α → Option β} {g : α → β} {as : List α}
    (h : ∀ a ∈ as, f a = some (g a)) : as.mapM f = some (as.map g) := by
  induction as with
  | nil => rfl
  | cons a as ih =>
    obtain ⟨ha, has⟩ := List.forall_mem_cons.1 h
    rw [List.mapM_cons, ha, ih has]
    rfl

theorem exists_of_mapM_eq_error {f : α → Except ε β} {as : List α} {fault : ε}
    (h : as.mapM f = .error fault) : ∃ a ∈ as, f a = .error fault := by
  obtain ⟨before, a, after, rfl, -, ha⟩ := mapM_eq_error_iff.1 h
  exact ⟨a, by simp, ha⟩

end OData
