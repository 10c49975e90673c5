/-
Taking items from the front of a list as long as their costs fit a budget, and the
first one in any case.
-/
import Mathlib.Algebra.Order.BigOperators.Group.List
import Mathlib.Algebra.Order.Ring.Nat

namespace Budget

open List

/-- How many of the costs fit, from the front; `used` is spent already. -/
def fitting (limit : Nat) : Nat → List Nat → Nat
  | _, [] => 0
  | used, cost :: rest => if used + cost ≤ limit then fitting limit (used + cost) rest + 1 else 0

/-- How many are taken: those that fit, and the first one in any case. -/
def count (limit used : Nat) (costs : List Nat) : Nat :=
  if costs = [] then 0 else max 1 (fitting limit used costs)

/-- The loop that takes them: an item over the budget ends it, and is taken only as the first. -/
def fill {α : Type} (limit : Nat) (cost : α → Nat) : List α → Nat → List α → List α
  | [], _, taken => taken
  | a :: rest, used, taken =>
    if used + cost a ≤ limit then fill limit cost rest (used + cost a) (taken ++ [a])
    else if taken.isEmpty then [a]
    else taken

variable {limit used : Nat} {costs : List Nat}

theorem fitting_eq_length (h : used + costs.sum ≤ limit) :
    fitting limit used costs = costs.length := by
  induction costs generalizing used with
  | nil => rfl
  | cons cost rest ih =>
    rw [sum_cons] at h
    rw [fitting, if_pos (by omega), ih (by omega), length_cons]

theorem used_add_sum_fitting_le (h : used ≤ limit) :
    used + (costs.take (fitting limit used costs)).sum ≤ limit := by
  induction costs generalizing used with
  | nil => simpa [fitting] using h
  | cons cost rest ih =>
    unfold fitting
    split
    · rename_i hfits
      have hrest := ih hfits
      rw [take_succ_cons, sum_cons]
      omega
    · simpa using h

theorem count_cons (limit used cost : Nat) (rest : List Nat) :
    count limit used (cost :: rest) =
      if used + cost ≤ limit then fitting limit (used + cost) rest + 1 else 1 := by
  rw [count, if_neg (cons_ne_nil _ _), fitting]
  split
  · exact Nat.max_eq_right (Nat.succ_le_succ (Nat.zero_le _))
  · rfl

section Fill

variable {α : Type} {cost : α → Nat} {items taken : List α}

theorem fill_of_ne_nil (h : taken ≠ []) : fill limit cost items used taken =
    taken ++ items.take (fitting limit used (items.map cost)) := by
  induction items generalizing used taken with
  | nil => simp [fill]
  | cons a rest ih =>
    rw [fill, map_cons, fitting]
    split
    · rw [ih (by simp), take_succ_cons, append_assoc]
      rfl
    · simp [h]

theorem fill_nil : fill limit cost items used [] =
    items.take (count limit used (items.map cost)) := by
  cases items with
  | nil => simp [fill]
  | cons a rest =>
    rw [fill, map_cons, count_cons]
    split
    · rw [fill_of_ne_nil (by simp), take_succ_cons]
      rfl
    · rfl

end Fill

theorem count_pos (h : costs ≠ []) : 0 < count limit used costs := by
  rw [count, if_neg h]
  exact lt_of_lt_of_le Nat.one_pos (le_max_left _ _)

theorem count_eq_length (h : used + costs.sum ≤ limit) : count limit used costs = costs.length := by
  cases costs with
  | nil => rfl
  | cons cost rest =>
    rw [sum_cons] at h
    rw [count_cons, if_pos (by omega), fitting_eq_length (by omega), length_cons]

theorem count_le_one_or_fits :
    count limit used costs ≤ 1 ∨ used + (costs.take (count limit used costs)).sum ≤ limit := by
  cases costs with
  | nil => exact .inl (Nat.zero_le 1)
  | cons cost rest =>
    rw [count_cons]
    split
    · rename_i hfits
      have hrest := @used_add_sum_fitting_le limit (used + cost) rest hfits
      refine .inr ?_
      rw [take_succ_cons, sum_cons]
      omega
    · exact .inl le_rfl

theorem used_add_sum_le {most : Nat} (hmost : ∀ cost ∈ costs, cost ≤ most) :
    used + (costs.take (count limit used costs)).sum ≤ max limit (used + most) := by
  cases costs with
  | nil => simp [count]
  | cons cost rest =>
    rw [count_cons]
    split
    · rename_i hfits
      have hrest := @used_add_sum_fitting_le limit (used + cost) rest hfits
      rw [take_succ_cons, sum_cons]
      omega
    · have hcost := hmost cost mem_cons_self
      rw [take_succ_cons, take_zero, sum_cons, sum_nil]
      omega

end Budget
