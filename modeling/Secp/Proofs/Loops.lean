import Mathlib.Data.List.Iterate
import Mathlib.Data.PFun

/-!
# Loops that may fail or never end

A table is filled from its first entry on: each further one is made from the entry before it, which
is looked up by its place. A lookup beyond the last entry gives nothing, and then the loop that asks
for it gives nothing. So a loop over a list has a result when each of its steps has one, and filling
a table always has.

A loop without a bound repeats a step on its state until the step gives a result. It gives nothing
when a step fails, and nothing when no step ever gives a result.
-/

namespace Secp

variable {α β σ : Type}

/-- Fill a table of so many entries, each made from the one before. -/
def fillTable (next : α → α) (first : α) (count : Nat) : Option (List α) :=
  (List.range (count - 1)).foldlM (fun table place ↦ do
    let last ← table[place]?
    some (table ++ [next last])) [first]

/-- The entries before one that is looked up are there, so the table is filled. -/
theorem fillTable_eq (next : α → α) (first : α) {count : Nat} (hcount : 0 < count) :
    fillTable next first count = some (List.iterate next first count) := by
  obtain ⟨count, rfl⟩ := Nat.exists_eq_succ_of_ne_zero (Nat.ne_of_gt hcount)
  rw [fillTable, Nat.succ_sub_one]
  induction count with
  | zero => rfl
  | succ count ih =>
    have hlast : (List.iterate next first count.succ)[count]? = some (next^[count] first) :=
      List.getElem?_iterate next first _ count (Nat.lt_succ_self count)
    have hmore : List.iterate next first count.succ.succ =
        List.iterate next first count.succ ++ [next (next^[count] first)] := by
      rw [List.iterate_add next first count.succ 1, Function.iterate_succ_apply']
      rfl
    rw [List.range_succ, List.foldlM_append, ih (Nat.succ_pos count), hmore]
    simp only [Option.bind_eq_bind, Option.bind_some, List.foldlM_cons, hlast]
    rfl

/-- A loop over a list whose steps all have results has the result of the loop of these. -/
theorem foldlM_eq_some {step : σ → α → Option σ} {next : σ → α → σ} {xs : List α}
    (h : ∀ x ∈ xs, ∀ s, step s x = some (next s x)) (s : σ) :
    xs.foldlM step s = some (xs.foldl next s) := by
  induction xs generalizing s with
  | nil => rfl
  | cons x xs ih =>
    obtain ⟨hx, hxs⟩ := List.forall_mem_cons.mp h
    rw [List.foldlM_cons, hx, List.foldl_cons]
    exact ih hxs (next s x)

/-- A loop ends where its step gives a result. -/
theorem fix_stop {step : σ →. β ⊕ σ} {s : σ} {b : β} (h : step s = Part.some (.inl b)) :
    step.fix s = Part.some b := by
  rw [Part.eq_some_iff]
  apply PFun.fix_stop
  rw [h]
  exact Part.mem_some _

/-- A loop goes on where its step gives a next state. -/
theorem fix_next {step : σ →. β ⊕ σ} {s t : σ} (h : step s = Part.some (.inr t)) :
    step.fix s = step.fix t := by
  apply PFun.fix_fwd_eq
  rw [h]
  exact Part.mem_some _

end Secp
