/-
Sums of items over overlapping cells, and taking the items out again one by one.

Every item adds its value to a few cells, and a cell knows nothing but the sum. A test on sums
recognises the value of a single item. When it recognises nothing else, that is, no collection
of several items in one cell adds up to something that looks like one item, then a recognised
cell holds ONE item and shows which, and a sketch all of whose cells are zero holds none.
-/
import Mathlib.Algebra.BigOperators.Group.Finset.Basic

namespace Peeling

open Finset

variable {ι ρ G : Type*} [DecidableEq ρ] [AddCommGroup G]

/-! ## 1. Cells -/

section Cells

variable (positions : ι → Finset ρ) (value : ι → G)

def held (D : Finset ι) (p : ρ) : Finset ι := D.filter fun i => p ∈ positions i

def cell (D : Finset ι) (p : ρ) : G := ∑ i ∈ held positions D p, value i

variable {positions value}

theorem mem_held {D : Finset ι} {p : ρ} {i : ι} :
    i ∈ held positions D p ↔ i ∈ D ∧ p ∈ positions i := mem_filter

theorem cell_erase [DecidableEq ι] {D : Finset ι} {i : ι} (hi : i ∈ D) (p : ρ) :
    cell positions value (D.erase i) p =
      if p ∈ positions i then cell positions value D p - value i
      else cell positions value D p := by
  have hheld : held positions (D.erase i) p = (held positions D p).erase i := filter_erase ..
  unfold cell
  rw [hheld]
  split
  · rename_i hp
    rw [sum_erase_eq_sub (mem_held.mpr ⟨hi, hp⟩)]
  · rename_i hp
    rw [erase_eq_of_notMem fun hmem => hp (mem_held.mp hmem).2]

theorem cell_insert [DecidableEq ι] {D : Finset ι} {i : ι} (hi : i ∉ D) (p : ρ) :
    cell positions value (insert i D) p =
      if p ∈ positions i then cell positions value D p + value i
      else cell positions value D p := by
  have herase : cell positions value ((insert i D).erase i) p = _ :=
    cell_erase (mem_insert_self i D) p
  rw [erase_insert hi] at herase
  split at herase <;> rename_i hp
  · rw [if_pos hp, herase, sub_add_cancel]
  · rw [if_neg hp, herase]

end Cells

/-! ## 2. Recognising an item -/

/-- No several items in one cell add up to something the test takes for an item. -/
def Unambiguous (positions : ι → Finset ρ) (value : ι → G) (pure : G → Prop)
    (D : Finset ι) : Prop := ∀ p, ∀ S ⊆ held positions D p, 1 < S.card → ¬ pure (∑ i ∈ S, value i)

section Recognising

variable {positions : ι → Finset ρ} {value : ι → G} {pure : G → Prop} {D : Finset ι}

section

variable (h : Unambiguous positions value pure D)

include h

theorem Unambiguous.mono {D' : Finset ι} (hsub : D' ⊆ D) : Unambiguous positions value pure D' :=
  fun p S hS => h p S (hS.trans (filter_subset_filter _ hsub))

theorem cell_eq_value (hzero : ¬ pure 0) {p : ρ} (hp : pure (cell positions value D p)) :
    ∃ i ∈ D, p ∈ positions i ∧ cell positions value D p = value i := by
  have hcard : (held positions D p).card ≤ 1 :=
    Nat.le_of_not_lt fun hlt => h p _ (Finset.Subset.refl _) hlt hp
  rcases Nat.le_one_iff_eq_zero_or_eq_one.mp hcard with h0 | h1
  · -- an empty cell is zero
    rw [cell, card_eq_zero.mp h0, sum_empty] at hp
    exact absurd hp hzero
  · obtain ⟨i, hi⟩ := card_eq_one.mp h1
    have hmem : i ∈ held positions D p := hi ▸ mem_singleton_self i
    refine ⟨i, (mem_held.mp hmem).1, (mem_held.mp hmem).2, ?_⟩
    rw [cell, hi, sum_singleton]

theorem eq_empty [DecidableEq ι] (hzero : ¬ pure 0)
    (hneg : ∀ i, pure (-value i)) (hpos : ∀ i, (positions i).Nonempty)
    (hcancel : ∀ i ∈ D, ∀ j ∈ D, value i + value j ≠ 0)
    (hcells : ∀ i ∈ D, ∀ p ∈ positions i, cell positions value D p = 0) : D = ∅ := by
  refine eq_empty_of_forall_notMem fun i hi => ?_
  obtain ⟨p, hp⟩ := hpos i
  have hmem : i ∈ held positions D p := mem_held.mpr ⟨hi, hp⟩
  have hrest : ∑ j ∈ (held positions D p).erase i, value j = -value i := by
    rw [sum_erase_eq_sub hmem]
    exact (congrArg (· - value i) (hcells i hi p hp)).trans (zero_sub _)
  have hcard : ((held positions D p).erase i).card ≤ 1 := by
    refine Nat.le_of_not_lt fun hlt => h p _ (erase_subset _ _) hlt ?_
    rw [hrest]
    exact hneg i
  rcases Nat.le_one_iff_eq_zero_or_eq_one.mp hcard with h0 | h1
  · rw [card_eq_zero.mp h0, sum_empty] at hrest
    exact hzero (hrest ▸ hneg i)
  · obtain ⟨j, hj⟩ := card_eq_one.mp h1
    have hjmem : j ∈ (held positions D p).erase i := hj ▸ mem_singleton_self j
    rw [hj, sum_singleton] at hrest
    refine hcancel i hi j (mem_held.mp (mem_of_mem_erase hjmem)).1 ?_
    rw [hrest, add_neg_cancel]

end

end Recognising

end Peeling
