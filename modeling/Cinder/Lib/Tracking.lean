/-
Requests to a fixed list of targets, each of which is settled at most once.

`Tracked targets settled waiting`: the targets still waited for and the settled ones are
different targets, none of them twice. Settling one (`Tracked.settle`) and giving one up
(`Tracked.drop`) keep that; with nothing left out, all targets are settled exactly when there
are as many settled ones as targets (`Tracked.all_settled_iff`).
-/
import Mathlib.Data.List.Nodup
import Mathlib.Data.List.Perm.Subperm

namespace Tracking

open List

variable {α : Type} [BEq α] [LawfulBEq α] {targets settled settled' waiting : List α} {a : α}

structure Tracked (targets settled waiting : List α) : Prop where
  nodup : (settled ++ waiting).Nodup
  subset : settled ++ waiting ⊆ targets

omit [BEq α] [LawfulBEq α] in
theorem tracked_start (h : targets.Nodup) : Tracked targets [] targets := ⟨h, List.Subset.refl _⟩

namespace Tracked

theorem settle (h : Tracked targets settled waiting) (ha : a ∈ waiting)
    (hsettled : List.Perm settled' (settled ++ [a])) :
    Tracked targets settled' (waiting.erase a) := by
  have hperm : List.Perm (settled ++ waiting) (settled' ++ waiting.erase a) := by
    refine ((perm_cons_erase ha).append_left settled).trans ?_
    rw [← singleton_append, ← append_assoc]
    exact hsettled.symm.append_right _
  exact ⟨hperm.nodup h.nodup, List.Subset.trans hperm.symm.subset h.subset⟩

omit [LawfulBEq α] in
theorem drop (h : Tracked targets settled waiting) (a : α) :
    Tracked targets settled (waiting.erase a) := by
  have hsub : List.Sublist (settled ++ waiting.erase a) (settled ++ waiting) :=
    erase_sublist.append_left _
  exact ⟨hsub.nodup h.nodup, List.Subset.trans hsub.subset h.subset⟩

omit [BEq α] [LawfulBEq α]

section

variable (h : Tracked targets settled waiting)

include h

theorem nodup_settled : settled.Nodup := (sublist_append_left _ _).nodup h.nodup

theorem settled_subset : settled ⊆ targets := fun _ ha => h.subset (mem_append_left _ ha)

theorem not_settled (ha : a ∈ waiting) : a ∉ settled :=
  fun hs => disjoint_of_nodup_append h.nodup hs ha

theorem all_settled_iff (hnodup : targets.Nodup) :
    (∀ a ∈ targets, a ∈ settled) ↔ settled.length = targets.length := by
  have hsub := subperm_of_subset h.nodup_settled h.settled_subset
  constructor
  · intro hall
    exact Nat.le_antisymm hsub.length_le (subperm_of_subset hnodup hall).length_le
  · intro hlen a ha
    exact (hsub.perm_of_length_le (Nat.le_of_eq hlen.symm)).mem_iff.mpr ha

end

end Tracked

end Tracking
