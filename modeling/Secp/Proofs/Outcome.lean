import Mathlib.Data.List.Forall2
import Secp.Error

/-!
# Results of computations that may refuse

A sequence of two computations has a result exactly when both do, the second from what the first
gives, and it is refused for the reason for which either is. A function of a result has a value
exactly when there is the result. A row of computations has a result exactly when all of them do.
-/

namespace Secp

variable {α β : Type}

/-- A computation that is found to succeed has a result. -/
theorem exists_eq_ok {x : Except Error α} (h : x.isOk = true) : ∃ a, x = .ok a := by
  cases x with
  | error fault => cases h
  | ok a => exact ⟨a, rfl⟩

/-- A sequence goes on with what its first part gives. -/
theorem ok_bind {ε : Type} (a : α) (f : α → Except ε β) : (Except.ok a >>= f) = f a := rfl

/-- A function of what a sequence gives is one of what its second part gives. -/
theorem map_bind_eq {γ : Type} (x : Except Error α) (f : α → Except Error β) (g : β → γ) :
    (x >>= f).map g = x >>= fun a ↦ (f a).map g := by
  cases x with
  | error fault => rfl
  | ok a => rfl

/-- What a sequence gives. -/
theorem bind_eq_ok_iff {x : Except Error α} {f : α → Except Error β} {b : β} :
    x >>= f = .ok b ↔ ∃ a, x = .ok a ∧ f a = .ok b := by
  cases x with
  | error fault => exact ⟨nofun, fun ⟨_, h, _⟩ ↦ nomatch h⟩
  | ok a =>
    constructor
    · intro h
      exact ⟨a, rfl, h⟩
    · rintro ⟨a', ha, h⟩
      cases ha
      exact h

/-- Why a sequence is refused. -/
theorem bind_eq_error_iff {x : Except Error α} {f : α → Except Error β} {reason : Error} :
    x >>= f = .error reason ↔ x = .error reason ∨ ∃ a, x = .ok a ∧ f a = .error reason := by
  cases x with
  | error fault =>
    constructor
    · intro h
      exact .inl (congrArg Except.error (Except.error.inj h))
    · rintro (h | ⟨a, ha, -⟩)
      · exact congrArg Except.error (Except.error.inj h)
      · cases ha
  | ok a =>
    constructor
    · intro h
      exact .inr ⟨a, rfl, h⟩
    · rintro (h | ⟨a', ha, h⟩)
      · cases h
      · cases ha
        exact h

/-- What a function of a result gives. -/
theorem map_eq_ok_iff {x : Except Error α} {f : α → β} {b : β} :
    x.map f = .ok b ↔ ∃ a, x = .ok a ∧ f a = b := by
  cases x with
  | error fault => exact ⟨nofun, fun ⟨_, h, _⟩ ↦ nomatch h⟩
  | ok a =>
    constructor
    · intro h
      exact ⟨a, rfl, Except.ok.inj h⟩
    · rintro ⟨a', ha, rfl⟩
      cases ha
      rfl

/-- A function of a result is refused for the reason for which the result is. -/
theorem map_eq_error_iff {x : Except Error α} {f : α → β} {reason : Error} :
    x.map f = .error reason ↔ x = .error reason := by
  cases x with
  | error fault =>
    constructor
    · intro h
      exact congrArg Except.error (Except.error.inj h)
    · intro h
      exact congrArg Except.error (Except.error.inj h)
  | ok a => exact ⟨nofun, nofun⟩

/-- What a row of computations gives. -/
theorem mapM_eq_ok_iff {f : α → Except Error β} {xs : List α} {ys : List β} :
    xs.mapM f = .ok ys ↔ List.Forall₂ (fun x y ↦ f x = .ok y) xs ys := by
  induction xs generalizing ys with
  | nil =>
    rw [List.mapM_nil, List.forall₂_nil_left_iff]
    exact ⟨fun h ↦ (Except.ok.inj h).symm, fun h ↦ h ▸ rfl⟩
  | cons x xs ih =>
    rw [List.mapM_cons, bind_eq_ok_iff, List.forall₂_cons_left_iff]
    constructor
    · rintro ⟨y, hy, h⟩
      obtain ⟨ys', hys, h⟩ := bind_eq_ok_iff.mp h
      cases h
      exact ⟨y, ys', hy, ih.mp hys, rfl⟩
    · rintro ⟨y, ys', hy, hys, rfl⟩
      exact ⟨y, hy, bind_eq_ok_iff.mpr ⟨ys', ih.mpr hys, rfl⟩⟩

/-- A row of computations that all have their results gives the row of these. -/
theorem mapM_eq_ok_of_forall {ε : Type} {f : α → Except ε β} {g : α → β} {xs : List α}
    (h : ∀ x ∈ xs, f x = .ok (g x)) : xs.mapM f = .ok (xs.map g) := by
  induction xs with
  | nil => rfl
  | cons x xs ih =>
    obtain ⟨hx, hxs⟩ := List.forall_mem_cons.mp h
    rw [List.mapM_cons, hx, ih hxs]
    rfl

/-- A row of computations is refused for the reason of the first that is refused. -/
theorem mapM_eq_error_iff {f : α → Except Error β} {xs : List α} {reason : Error} :
    xs.mapM f = .error reason ↔ ∃ front x back, xs = front ++ x :: back ∧
      (∀ y ∈ front, ∃ b, f y = .ok b) ∧ f x = .error reason := by
  induction xs with
  | nil =>
    rw [List.mapM_nil]
    exact ⟨nofun, fun ⟨front, x, back, h, _⟩ ↦ absurd h.symm (by simp)⟩
  | cons x xs ih =>
    rw [List.mapM_cons, bind_eq_error_iff]
    constructor
    · rintro (hx | ⟨b, hb, hrest⟩)
      · exact ⟨[], x, xs, rfl, nofun, hx⟩
      · rcases bind_eq_error_iff.mp hrest with hxs | ⟨ys, -, hys⟩
        · obtain ⟨front, y, back, rfl, hfront, hy⟩ := ih.mp hxs
          exact ⟨x :: front, y, back, rfl, List.forall_mem_cons.mpr ⟨⟨b, hb⟩, hfront⟩, hy⟩
        · cases hys
    · rintro ⟨front, y, back, h, hfront, hy⟩
      rcases List.cons_eq_append_iff.mp h with ⟨rfl, htail⟩ | ⟨front', rfl, rfl⟩
      · obtain ⟨rfl, -⟩ := List.cons.inj htail
        exact .inl hy
      · obtain ⟨⟨b, hb⟩, hfront⟩ := List.forall_mem_cons.mp hfront
        have hxs := ih.mpr ⟨front', y, back, rfl, hfront, hy⟩
        exact .inr ⟨b, hb, bind_eq_error_iff.mpr (.inl hxs)⟩

end Secp
