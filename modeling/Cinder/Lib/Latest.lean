/-
Folds that replace the current value by each offer whose rank is not smaller.

The rank of such a fold is the greatest one offered. Offers of equal rank replace each other, so
the value itself depends on the order: it is the LAST of the greatest offers.
-/
import Mathlib.Order.Lattice

namespace Latest

open List

variable {α β : Type} [LinearOrder β] (rank : α → β)

def keep (current offer : α) : α := if rank offer < rank current then current else offer

variable {rank}

theorem le_keep (current offer : α) :
    rank current ≤ rank (keep rank current offer) ∧
      rank offer ≤ rank (keep rank current offer) := by
  unfold keep
  split
  · rename_i h
    exact ⟨le_rfl, h.le⟩
  · rename_i h
    exact ⟨not_lt.mp h, le_rfl⟩

theorem foldl_keep_mem (current : α) (offers : List α) :
    offers.foldl (keep rank) current ∈ current :: offers := by
  induction offers generalizing current with
  | nil => exact mem_cons_self
  | cons offer offers ih =>
    have h := ih (keep rank current offer)
    rw [foldl_cons]
    rcases mem_cons.mp h with h | h
    · rw [h, keep]
      split
      · exact mem_cons_self
      · exact mem_cons_of_mem _ mem_cons_self
    · exact mem_cons_of_mem _ (mem_cons_of_mem _ h)

theorem le_foldl_keep (current : α) (offers : List α) :
    ∀ a ∈ current :: offers, rank a ≤ rank (offers.foldl (keep rank) current) := by
  induction offers generalizing current with
  | nil =>
    intro a ha
    rw [mem_singleton.mp ha]
    exact le_rfl
  | cons offer offers ih =>
    intro a ha
    rw [foldl_cons]
    have hkept := ih (keep rank current offer) _ mem_cons_self
    rcases mem_cons.mp ha with rfl | ha
    · exact (le_keep _ offer).1.trans hkept
    rcases mem_cons.mp ha with rfl | ha
    · exact (le_keep current _).2.trans hkept
    · exact ih _ a (mem_cons_of_mem _ ha)

theorem foldl_keep_mem_offers {current a : α} {offers : List α} (ha : a ∈ offers)
    (hle : rank current ≤ rank a) : offers.foldl (keep rank) current ∈ offers := by
  induction offers generalizing current with
  | nil => cases ha
  | cons offer offers ih =>
    rw [foldl_cons]
    by_cases hlt : rank offer < rank current
    · have hne : a ∈ offers := by
        rcases mem_cons.mp ha with rfl | ha
        · exact absurd hlt (not_lt.mpr hle)
        · exact ha
      rw [keep, if_pos hlt]
      exact mem_cons_of_mem _ (ih hne hle)
    · rw [keep, if_neg hlt]
      exact foldl_keep_mem offer offers

theorem foldl_keep_concat {current a : α} {offers : List α}
    (h : ∀ b ∈ current :: offers, rank b ≤ rank a) :
    (offers ++ [a]).foldl (keep rank) current = a := by
  rw [foldl_append, foldl_cons, foldl_nil, keep, if_neg (not_lt.mpr (h _ (foldl_keep_mem _ _)))]

theorem foldl_keep_of_lt {current : α} {offers : List α}
    (h : ∀ a ∈ offers, rank a < rank current) : offers.foldl (keep rank) current = current := by
  rcases mem_cons.mp (@foldl_keep_mem α β _ rank current offers) with hmem | hmem
  · exact hmem
  · exact absurd (h _ hmem) (not_lt.mpr (le_foldl_keep current offers _ mem_cons_self))

end Latest
