/-
The order of a binary min-heap laid out in an array, given by the keys at its
positions, and what exchanges along one path do to it.

A heap in the middle of a sift is in order except at one position. `UpTo` is the state of a sift
towards the root, `DownFrom` that of a sift towards the leaves.
-/
import Mathlib.Order.Lattice
import Mathlib.Tactic.Common

namespace BinaryHeap

variable {β : Type} [LinearOrder β] {n i : Nat} {k k' : Nat → β}

def parent (i : Nat) : Nat := (i - 1) / 2

theorem parent_lt (h : 0 < i) : parent i < i := by
  unfold parent
  omega

theorem parent_eq_iff {j : Nat} (hj : 0 < j) : parent j = i ↔ j = i * 2 + 1 ∨ j = i * 2 + 2 := by
  unfold parent
  omega

/-- No key is below that of its parent. -/
def Ordered (n : Nat) (k : Nat → β) : Prop := ∀ j, 0 < j → j < n → k (parent j) ≤ k j

theorem Ordered.root_le (h : Ordered n k) (hi : i < n) : k 0 ≤ k i := by
  induction i using Nat.strongRecOn with
  | ind i ih =>
    rcases Nat.eq_zero_or_pos i with rfl | hpos
    · exact le_refl _
    · have hlt := parent_lt hpos
      exact (ih (parent i) hlt (by omega)).trans (h i hpos hi)

theorem Ordered.congr (h : Ordered n k) (heq : ∀ j, j < n → k' j = k j) : Ordered n k' := by
  intro j hpos hj
  have hlt := parent_lt hpos
  rw [heq j hj, heq (parent j) (by omega)]
  exact h j hpos hj

/-- In order, except that the key at `i` may be below that of its parent. -/
structure UpTo (n : Nat) (k : Nat → β) (i : Nat) : Prop where
  others : ∀ j, 0 < j → j < n → j ≠ i → k (parent j) ≤ k j
  across : ∀ j, 0 < j → j < n → parent j = i → 0 < i → k (parent i) ≤ k j

/-- In order, except that the key at `i` may be above those of its children. -/
structure DownFrom (n : Nat) (k : Nat → β) (i : Nat) : Prop where
  others : ∀ j, 0 < j → j < n → parent j ≠ i → k (parent j) ≤ k j
  across : ∀ j, 0 < j → j < n → parent j = i → 0 < i → k (parent i) ≤ k j

structure Swapped (k k' : Nat → β) (i j : Nat) : Prop where
  left : k' i = k j
  right : k' j = k i
  rest : ∀ l, l ≠ i → l ≠ j → k' l = k l

/-! ## 1. Towards the root -/

theorem UpTo.ordered (h : UpTo n k i) (hstop : 0 < i → k (parent i) ≤ k i) : Ordered n k := by
  intro j hpos hj
  by_cases hji : j = i
  · subst hji
    exact hstop hpos
  · exact h.others j hpos hj hji

theorem UpTo.swap (h : UpTo n k i) (hpos : 0 < i) (hi : i < n) (hlt : k i < k (parent i))
    (hs : Swapped k k' i (parent i)) : UpTo n k' (parent i) := by
  have hp := parent_lt hpos
  refine ⟨fun j hj0 hj hne => ?_, fun j hj0 hj hpj hp0 => ?_⟩
  · have hpj := parent_lt hj0
    by_cases hji : j = i
    · subst hji
      rw [hs.left, hs.right]
      exact hlt.le
    rw [hs.rest j hji hne]
    by_cases hdown : parent j = i
    · rw [hdown, hs.left]
      exact h.across j hj0 hj hdown hpos
    by_cases hbeside : parent j = parent i
    · rw [hbeside, hs.right]
      exact hlt.le.trans (hbeside ▸ h.others j hj0 hj hji)
    · rw [hs.rest _ hdown hbeside]
      exact h.others j hj0 hj hji
  · -- everything under the old parent is at least what was above it
    have hpp := parent_lt hp0
    have habove : k (parent (parent i)) ≤ k (parent i) :=
      h.others (parent i) hp0 (by omega) (by omega)
    rw [hs.rest (parent (parent i)) (by omega) (by omega)]
    by_cases hji : j = i
    · rw [hji, hs.left]
      exact habove
    · have hne : j ≠ parent i := fun heq => absurd (parent_lt hj0) (by omega)
      rw [hs.rest j hji hne]
      exact habove.trans (hpj ▸ h.others j hj0 hj hji)

/-! ## 2. Towards the leaves -/

theorem DownFrom.ordered (h : DownFrom n k i)
    (hstop : ∀ j, 0 < j → j < n → parent j = i → k i ≤ k j) : Ordered n k := by
  intro j hpos hj
  by_cases hji : parent j = i
  · rw [hji]
    exact hstop j hpos hj hji
  · exact h.others j hpos hj hji

theorem DownFrom.swap {c : Nat} (h : DownFrom n k i) (hc0 : 0 < c) (hc : c < n) (hpc : parent c = i)
    (hleast : ∀ j, 0 < j → j < n → parent j = i → k c ≤ k j) (hlt : k c < k i)
    (hs : Swapped k k' i c) : DownFrom n k' c := by
  have hic : i < c := hpc ▸ parent_lt hc0
  refine ⟨fun j hj0 hj hne => ?_, fun j hj0 hj hpj _ => ?_⟩
  · have hpj := parent_lt hj0
    by_cases hji : j = i
    · subst hji
      rw [hs.left, hs.rest (parent j) (by omega) (by omega)]
      exact h.across c hc0 hc hpc hj0
    by_cases hjc : j = c
    · subst hjc
      rw [hs.right, hpc, hs.left]
      exact hlt.le
    rw [hs.rest j hji hjc]
    by_cases hbeside : parent j = i
    · rw [hbeside, hs.left]
      exact hleast j hj0 hj hbeside
    · rw [hs.rest _ hbeside hne]
      exact h.others j hj0 hj hbeside
  · have hjc : c < j := hpj ▸ parent_lt hj0
    rw [hpc, hs.left, hs.rest j (by omega) (by omega)]
    exact hpj ▸ h.others j hj0 hj (by omega)

/-! ## 3. Another key at one position -/

theorem Ordered.replace (h : Ordered n k) (hi : i < n) (hrest : ∀ j, j < n → j ≠ i → k' j = k j) :
    (0 < i → k' i < k' (parent i) → UpTo n k' i) ∧
      ((0 < i → k' (parent i) ≤ k' i) → DownFrom n k' i) := by
  have hparent : 0 < i → k' (parent i) = k (parent i) := by
    intro hpos
    have hlt := parent_lt hpos
    exact hrest _ (by omega) (by omega)
  have hothers : ∀ j, 0 < j → j < n → j ≠ i → parent j ≠ i → k' (parent j) ≤ k' j := by
    intro j hj0 hj hji hpj
    have hlt := parent_lt hj0
    rw [hrest j hj hji, hrest (parent j) (by omega) hpj]
    exact h j hj0 hj
  have hacross : ∀ j, 0 < j → j < n → parent j = i → 0 < i → k' (parent i) ≤ k' j := by
    intro j hj0 hj hpj hpos
    have hlt := parent_lt hj0
    rw [hparent hpos, hrest j hj (by omega)]
    exact (h i hpos hi).trans (hpj ▸ h j hj0 hj)
  refine ⟨fun hpos hlt => ⟨fun j hj0 hj hji => ?_, hacross⟩,
    fun habove => ⟨fun j hj0 hj hpj => ?_, hacross⟩⟩
  · by_cases hpj : parent j = i
    · rw [hpj]
      exact hlt.le.trans (hacross j hj0 hj hpj hpos)
    · exact hothers j hj0 hj hji hpj
  · by_cases hji : j = i
    · subst hji
      exact habove hj0
    · exact hothers j hj0 hj hji hpj

end BinaryHeap
