/-
Priority buckets: a map from priorities to vectors, ordered by priority, in which no
bucket is empty; and removal from a vector by moving its last element into the gap.
-/
import Mathlib.Data.List.Basic
import Mathlib.Order.Lattice

/-! ## 1. Removal by the last element -/

namespace Buckets

open List

variable {α : Type}

/-- Move the last element to position `i` and drop the end. -/
def swapRemove (l : List α) (i : Nat) : List α :=
  match l.getLast? with
  | none => []
  | some last => (l.set i last).dropLast

theorem getElem?_swapRemove {l : List α} {i : Nat} (hi : i < l.length) (j : Nat) :
    (swapRemove l i)[j]? =
      if j + 1 < l.length then if j = i then l[l.length - 1]? else l[j]? else none := by
  have hlast : l.getLast? = l[l.length - 1]? := getLast?_eq_getElem?
  unfold swapRemove
  cases hg : l.getLast? with
  | none =>
    rw [getLast?_eq_none_iff] at hg
    subst hg
    cases hi
  | some last =>
    rw [hg] at hlast
    rw [getElem?_dropLast, length_set, getElem?_set, ← hlast]
    by_cases hj : j + 1 < l.length
    · rw [if_pos (show j < l.length - 1 by omega), if_pos hj]
      by_cases hij : i = j
      · rw [if_pos hij, if_pos hi, if_pos hij.symm]
      · rw [if_neg hij, if_neg (Ne.symm hij)]
    · rw [if_neg (show ¬ j < l.length - 1 by omega), if_neg hj]

theorem perm_cons_swapRemove {l : List α} {i : Nat} {x : α} (h : l[i]? = some x) :
    (x :: swapRemove l i).Perm l := by
  obtain ⟨hi, rfl⟩ := List.getElem?_eq_some_iff.mp h
  rcases eq_nil_or_concat' l with rfl | ⟨init, last, rfl⟩
  · cases hi
  rw [swapRemove, getLast?_concat]
  dsimp only
  by_cases hin : i < init.length
  · -- the last element fills the gap
    have hsplit : init = init.take i ++ init[i] :: init.drop (i + 1) := by
      rw [getElem_cons_drop, take_append_drop]
    rw [set_append_left _ _ hin, dropLast_concat, getElem_append_left hin,
      set_eq_take_append_cons_drop, if_pos hin]
    refine (perm_middle.cons _).trans ((List.Perm.swap _ _ _).trans ?_)
    refine (perm_middle.symm.cons _).trans ?_
    rw [← hsplit]
    exact (perm_append_singleton _ _).symm
  · obtain rfl : i = init.length := by
      rw [length_append, length_singleton] at hi
      omega
    rw [set_append_right _ _ le_rfl, Nat.sub_self, set_cons_zero,
      dropLast_concat, getElem_concat_length rfl]
    exact (perm_append_singleton _ _).symm

end Buckets

/-! ## 2. Buckets -/

/-- Vectors by priority: the priorities ascend, and no vector is empty. -/
structure Buckets (κ α : Type) [LinearOrder κ] where
  cells : List (κ × List α) := []
  ascending : cells.Pairwise fun c d => c.1 < d.1 := by exact List.Pairwise.nil
  nonempty : ∀ c ∈ cells, c.2 ≠ [] := by simp

namespace Buckets

open List

variable {κ α : Type} [LinearOrder κ]

/-- The vector of a priority; empty where the map has no such key. -/
def getCells : List (κ × List α) → κ → List α
  | [], _ => []
  | (k', v) :: cells, k => if k' = k then v else getCells cells k

/-- Store a vector; an empty one is erased. -/
def setCells (k : κ) (v : List α) : List (κ × List α) → List (κ × List α)
  | [] => if v.isEmpty then [] else [(k, v)]
  | (k', v') :: cells =>
    if k' < k then (k', v') :: setCells k v cells
    else if k' = k then if v.isEmpty then cells else (k, v) :: cells
    else if v.isEmpty then (k', v') :: cells else (k, v) :: (k', v') :: cells

variable {k : κ} {cells : List (κ × List α)}

theorem mem_setCells {v : List α} {c : κ × List α} (h : c ∈ setCells k v cells) :
    c ∈ cells ∨ c = (k, v) ∧ v ≠ [] := by
  induction cells with
  | nil =>
    unfold setCells at h
    split at h
    · cases h
    · rename_i hv
      exact .inr ⟨mem_singleton.mp h, by simpa using hv⟩
  | cons d cells ih =>
    obtain ⟨k', v'⟩ := d
    have hstored : c ∈ (k, v) :: cells → v.isEmpty ≠ true →
        c ∈ (k', v') :: cells ∨ c = (k, v) ∧ v ≠ [] := by
      intro hc hv
      rcases mem_cons.mp hc with rfl | hc
      · exact .inr ⟨rfl, by simpa using hv⟩
      · exact .inl (mem_cons_of_mem _ hc)
    unfold setCells at h
    split at h
    · rcases mem_cons.mp h with rfl | h
      · exact .inl mem_cons_self
      · exact (ih h).imp_left (mem_cons_of_mem _)
    · split at h
      · split at h
        · exact .inl (mem_cons_of_mem _ h)
        · rename_i hv
          exact hstored h hv
      · split at h
        · exact .inl h
        · rename_i hv
          rcases mem_cons.mp h with rfl | h
          · exact .inr ⟨rfl, by simpa using hv⟩
          · exact .inl h

theorem ascending_setCells (k : κ) (v : List α) (h : cells.Pairwise fun c d => c.1 < d.1) :
    (setCells k v cells).Pairwise fun c d => c.1 < d.1 := by
  induction cells with
  | nil =>
    unfold setCells
    split
    · exact .nil
    · exact pairwise_singleton _ _
  | cons d cells ih =>
    obtain ⟨k', v'⟩ := d
    obtain ⟨hhead, htail⟩ := pairwise_cons.mp h
    unfold setCells
    split
    · rename_i hlt
      refine pairwise_cons.mpr ⟨fun c hc => ?_, ih htail⟩
      rcases mem_setCells hc with hc | ⟨rfl, -⟩
      · exact hhead c hc
      · exact hlt
    · rename_i hlt
      split
      · rename_i heq
        split
        · exact htail
        · exact pairwise_cons.mpr ⟨fun c hc => heq ▸ hhead c hc, htail⟩
      · rename_i hne
        split
        · exact h
        · have hkk : k < k' := lt_of_le_of_ne (not_lt.mp hlt) (Ne.symm hne)
          refine pairwise_cons.mpr ⟨fun c hc => ?_, h⟩
          rcases mem_cons.mp hc with rfl | hc
          · exact hkk
          · exact hkk.trans (hhead c hc)

theorem getCells_of_lt (h : ∀ c ∈ cells, k < c.1) : getCells cells k = [] := by
  induction cells with
  | nil => rfl
  | cons d cells ih =>
    rw [getCells, if_neg (h d mem_cons_self).ne']
    exact ih fun c hc => h c (mem_cons_of_mem _ hc)

theorem getCells_setCells (k : κ) (v : List α) (h : cells.Pairwise fun c d => c.1 < d.1) (k' : κ) :
    getCells (setCells k v cells) k' = if k' = k then v else getCells cells k' := by
  induction cells with
  | nil =>
    unfold setCells
    by_cases hv : v.isEmpty
    · rw [if_pos hv, isEmpty_iff.mp hv]
      simp [getCells]
    · rw [if_neg hv]
      simp only [getCells, eq_comm]
  | cons d cells ih =>
    obtain ⟨j, w⟩ := d
    obtain ⟨hhead, htail⟩ := pairwise_cons.mp h
    unfold setCells
    split
    · rename_i hlt
      simp only [getCells, ih htail]
      by_cases hj : j = k'
      · rw [if_pos hj, if_pos hj, if_neg (hj ▸ hlt.ne)]
      · rw [if_neg hj, if_neg hj]
    · rename_i hlt
      split
      · rename_i heq
        subst heq
        have hgone : getCells cells j = [] := getCells_of_lt hhead
        split
        · rename_i hv
          rw [isEmpty_iff.mp hv]
          by_cases hk : k' = j
          · rw [if_pos hk, hk, hgone]
          · rw [if_neg hk, getCells, if_neg (Ne.symm hk)]
        · simp only [getCells]
          by_cases hk : k' = j
          · rw [if_pos hk, if_pos hk.symm]
          · rw [if_neg hk, if_neg (Ne.symm hk), if_neg (Ne.symm hk)]
      · rename_i hne
        have hkj : k < j := lt_of_le_of_ne (not_lt.mp hlt) (Ne.symm hne)
        have hgone : getCells ((j, w) :: cells) k = [] := by
          refine getCells_of_lt fun c hc => ?_
          rcases mem_cons.mp hc with rfl | hc
          · exact hkj
          · exact hkj.trans (hhead c hc)
        split
        · rename_i hv
          rw [isEmpty_iff.mp hv]
          by_cases hk : k' = k
          · rw [if_pos hk, hk, hgone]
          · rw [if_neg hk]
        · rw [getCells]
          by_cases hk : k' = k
          · rw [if_pos hk, if_pos hk.symm]
          · rw [if_neg hk, if_neg (Ne.symm hk)]

def get (b : Buckets κ α) (k : κ) : List α := getCells b.cells k

def set (b : Buckets κ α) (k : κ) (v : List α) : Buckets κ α where
  cells := setCells k v b.cells
  ascending := ascending_setCells k v b.ascending
  nonempty := fun c hc => by
    rcases mem_setCells hc with hc | ⟨rfl, hv⟩
    · exact b.nonempty c hc
    · exact hv

theorem get_set (b : Buckets κ α) (k : κ) (v : List α) (k' : κ) :
    (b.set k v).get k' = if k' = k then v else b.get k' :=
  getCells_setCells k v b.ascending k'

@[simp] theorem get_empty (k : κ) : (({} : Buckets κ α)).get k = [] := rfl

/-! ## 3. The first element with a property -/

/-- The lowest bucket with an element that has the property, and the first position of one. -/
def firstWhere? (b : Buckets κ α) (p : α → Bool) : Option (κ × Nat) :=
  b.cells.findSome? fun c => (c.2.findIdx? p).map fun i => (c.1, i)

theorem getCells_of_mem (h : cells.Pairwise fun c d => c.1 < d.1) {c : κ × List α}
    (hc : c ∈ cells) : getCells cells c.1 = c.2 := by
  induction cells with
  | nil => cases hc
  | cons d cells ih =>
    obtain ⟨hhead, htail⟩ := pairwise_cons.mp h
    rcases mem_cons.mp hc with rfl | hc
    · rw [getCells, if_pos rfl]
    · rw [getCells, if_neg (hhead c hc).ne]
      exact ih htail hc

theorem mem_of_mem_getCells {a : α} (h : a ∈ getCells cells k) : (k, getCells cells k) ∈ cells := by
  induction cells with
  | nil => cases h
  | cons d cells ih =>
    obtain ⟨k', v⟩ := d
    rw [getCells] at h ⊢
    split
    · rename_i heq
      rw [heq]
      exact mem_cons_self
    · rename_i hne
      rw [if_neg hne] at h
      exact mem_cons_of_mem _ (ih h)

theorem firstWhere?_eq {b : Buckets κ α} {p : α → Bool} {i : Nat}
    (h : b.firstWhere? p = some (k, i)) :
    (∃ a, (b.get k)[i]? = some a ∧ p a = true) ∧
      (∀ j a, j < i → (b.get k)[j]? = some a → p a = false) ∧
      ∀ k' < k, ∀ a ∈ b.get k', p a = false := by
  obtain ⟨l₁, c, l₂, hcells, hc, hbefore⟩ := findSome?_eq_some_iff.mp h
  obtain ⟨i', hidx, heq⟩ := Option.map_eq_some_iff.mp hc
  cases heq
  obtain ⟨hi, hp, hmin⟩ := findIdx?_eq_some_iff_getElem.mp hidx
  have hmem : c ∈ b.cells := by
    rw [hcells]
    exact mem_append_right _ mem_cons_self
  have hget : b.get c.1 = c.2 := getCells_of_mem b.ascending hmem
  refine ⟨⟨_, by rw [hget, getElem?_eq_getElem hi], hp⟩, fun j a hj ha => ?_, fun k' hk a ha => ?_⟩
  · rw [hget] at ha
    obtain ⟨hjl, rfl⟩ := List.getElem?_eq_some_iff.mp ha
    exact Bool.eq_false_iff.mpr (hmin j hj)
  · -- a lower bucket stands in front of this one
    have hmem' : (k', b.get k') ∈ b.cells := mem_of_mem_getCells ha
    generalize b.get k' = v at ha hmem'
    rw [hcells] at hmem'
    have hasc := b.ascending
    rw [hcells, pairwise_append] at hasc
    rcases mem_append.mp hmem' with h₁ | h₂
    · have hnone := hbefore _ h₁
      rw [Option.map_eq_none_iff, findIdx?_eq_none_iff] at hnone
      exact hnone a ha
    · exfalso
      rcases mem_cons.mp h₂ with rfl | h₂
      · exact lt_irrefl _ hk
      · exact lt_asymm hk ((pairwise_cons.mp hasc.2.1).1 _ h₂)

theorem firstWhere?_eq_none {b : Buckets κ α} {p : α → Bool} (h : b.firstWhere? p = none) (k : κ) :
    ∀ a ∈ b.get k, p a = false := by
  intro a ha
  have hnone := findSome?_eq_none_iff.mp h _ (mem_of_mem_getCells ha)
  rw [Option.map_eq_none_iff, findIdx?_eq_none_iff] at hnone
  exact hnone a ha

end Buckets
