/-
The timing wheel of a shard (`include/cinder/store/ttl_wheel.hpp`): 256 slots for short
deadlines, a binary min-heap of absolute ticks for the rest.

The source threads a slot's list through the nodes and keeps each node's heap position in the
node. Here a slot is the list of its nodes and the heap a list, and a node is looked up in them.
-/
import Cinder.Lib.Buckets
import Mathlib.Data.List.FinRange
import Mathlib.Data.List.Perm.Basic

namespace Cinder

open List Function

def kSlotCount : Nat := 256

structure TtlWheel (α : Type) where
  slots : Fin kSlotCount → List α := fun _ => []
  cursor : Fin kSlotCount := ⟨0, by decide⟩
  /-- `tick_count_`, a `size_t` -/
  tickCount : Nat := 0
  /-- `heap_`: absolute tick and node -/
  heap : List (Nat × α) := []

namespace TtlWheel

variable {α : Type}

/-! ## 1. The heap -/

def earlier (heap : List (Nat × α)) (lhs rhs : Nat) : Bool :=
  match heap[lhs]?, heap[rhs]? with
  | some l, some r => l.1 < r.1
  | _, _ => false

def swapHeap (heap : List (Nat × α)) (lhs rhs : Nat) : List (Nat × α) :=
  match heap[lhs]?, heap[rhs]? with
  | some l, some r => (heap.set lhs r).set rhs l
  | _, _ => heap

/-- The index at least halves in each round. -/
def siftUp : (fuel : Nat) → List (Nat × α) → Nat → List (Nat × α)
  | 0, heap, _ => heap
  | fuel + 1, heap, index =>
    if index = 0 then heap
    else
      let parent := (index - 1) / 2
      if earlier heap index parent then siftUp fuel (swapHeap heap index parent) parent else heap

/-- The index at least doubles in each round. -/
def siftDown : (fuel : Nat) → List (Nat × α) → Nat → List (Nat × α)
  | 0, heap, _ => heap
  | fuel + 1, heap, index =>
    let left := index * 2 + 1
    if heap.length ≤ left then heap
    else
      let right := left + 1
      let first := if right < heap.length ∧ earlier heap right left then right else left
      if earlier heap first index then siftDown fuel (swapHeap heap index first) first else heap

def removeHeapAt (heap : List (Nat × α)) (index : Nat) : List (Nat × α) :=
  let heap := Buckets.swapRemove heap index
  if index < heap.length then
    if 0 < index ∧ earlier heap index ((index - 1) / 2) then siftUp heap.length heap index
    else siftDown heap.length heap index
  else heap

/-! ## 2. The wheel -/

variable [DecidableEq α]

variable (w : TtlWheel α)

/-- A node is in one slot, or in the heap, or not scheduled. -/
def remove (node : α) : TtlWheel α :=
  let w := { w with slots := fun slot => (w.slots slot).erase node }
  match w.heap.findIdx? fun e => e.2 = node with
  | some index => { w with heap := removeHeapAt w.heap index }
  | none => w

def insert (node : α) (ttlTicks : Nat) : TtlWheel α :=
  let w := w.remove node
  if ttlTicks ≤ kSlotCount then
    let slot : Fin kSlotCount := ⟨(w.cursor + ttlTicks) % kSlotCount, Nat.mod_lt _ (by decide)⟩
    { w with slots := update w.slots slot (w.slots slot ++ [node]) }
  else
    -- the absolute tick wraps around as a `size_t`
    let heap := w.heap ++ [((w.tickCount + ttlTicks) % UInt64.size, node)]
    { w with heap := siftUp heap.length heap w.heap.length }

def advance : TtlWheel α :=
  { w with
    cursor := ⟨(w.cursor + 1) % kSlotCount, Nat.mod_lt _ (by decide)⟩
    tickCount := (w.tickCount + 1) % UInt64.size }

/-- `expireSlot` before its callbacks: the current slot is unlinked into a batch. -/
def drainSlot : List α × TtlWheel α :=
  (w.slots w.cursor, { w with slots := update w.slots w.cursor [] })

/-- One round of `expireHeap` before its callback: the root, when it is due. -/
def popDue : Option (α × TtlWheel α) :=
  match w.heap with
  | [] => none
  | root :: _ =>
    if root.1 ≤ w.tickCount then some (root.2, { w with heap := removeHeapAt w.heap 0 }) else none

/-! ## 3. What is scheduled -/

def scheduled : List α := (finRange kSlotCount).flatMap w.slots ++ w.heap.map Prod.snd

omit [DecidableEq α] in
theorem scheduled_empty : ({} : TtlWheel α).scheduled = [] := by
  rw [scheduled]
  simp

section Heap

variable {heap : List (Nat × α)}

omit [DecidableEq α] in
theorem perm_swapHeap (heap : List (Nat × α)) (lhs rhs : Nat) :
    (swapHeap heap lhs rhs).Perm heap := by
  unfold swapHeap
  split
  · rename_i l r hl hr
    obtain ⟨hlhs, rfl⟩ := List.getElem?_eq_some_iff.mp hl
    obtain ⟨hrhs, rfl⟩ := List.getElem?_eq_some_iff.mp hr
    exact set_set_perm hlhs hrhs
  · exact .refl _

omit [DecidableEq α] in
theorem perm_siftUp (fuel : Nat) (heap : List (Nat × α)) (index : Nat) :
    (siftUp fuel heap index).Perm heap := by
  induction fuel generalizing heap index with
  | zero => exact .refl _
  | succ fuel ih =>
    unfold siftUp
    split
    · exact .refl _
    · dsimp only
      split
      · exact (ih _ _).trans (perm_swapHeap _ _ _)
      · exact .refl _

omit [DecidableEq α] in
theorem perm_siftDown (fuel : Nat) (heap : List (Nat × α)) (index : Nat) :
    (siftDown fuel heap index).Perm heap := by
  induction fuel generalizing heap index with
  | zero => exact .refl _
  | succ fuel ih =>
    have hround : ∀ first, (if earlier heap first index then
        siftDown fuel (swapHeap heap index first) first else heap).Perm heap := by
      intro first
      split
      · exact (ih _ _).trans (perm_swapHeap _ _ _)
      · exact .refl _
    unfold siftDown
    dsimp only
    split
    · exact .refl _
    · exact hround _

omit [DecidableEq α] in
theorem perm_cons_removeHeapAt {index : Nat} {e : Nat × α} (h : heap[index]? = some e) :
    (e :: removeHeapAt heap index).Perm heap := by
  have hperm : (removeHeapAt heap index).Perm (Buckets.swapRemove heap index) := by
    unfold removeHeapAt
    dsimp only
    split
    · split
      · exact perm_siftUp _ _ _
      · exact perm_siftDown _ _ _
    · exact .refl _
  exact (hperm.cons e).trans (Buckets.perm_cons_swapRemove h)

end Heap

variable {w : TtlWheel α} {a : α}

theorem scheduled_remove (h : w.scheduled.Nodup) (a : α) :
    (w.remove a).scheduled.Perm (w.scheduled.filter fun b => b ≠ a) := by
  obtain ⟨hslots, hheap, -⟩ := nodup_append'.mp h
  have hslot : ∀ slot, (w.slots slot).erase a = (w.slots slot).filter fun b => b ≠ a := by
    intro slot
    rw [((nodup_flatMap.mp hslots).1 slot (mem_finRange slot)).erase_eq_filter]
    exact filter_congr fun b _ => by grind
  have hflat : ((finRange kSlotCount).flatMap fun slot => (w.slots slot).erase a) =
      ((finRange kSlotCount).flatMap w.slots).filter fun b => b ≠ a := by
    rw [filter_flatMap]
    exact flatMap_congr fun slot _ => hslot slot
  unfold remove scheduled
  rw [filter_append]
  dsimp only
  cases hfind : w.heap.findIdx? fun e => e.2 = a with
  | none =>
    rw [findIdx?_eq_none_iff] at hfind
    have hnone : (w.heap.map Prod.snd).filter (fun b => b ≠ a) = w.heap.map Prod.snd := by
      refine filter_eq_self.mpr fun b hb => ?_
      obtain ⟨e, he, rfl⟩ := mem_map.mp hb
      simpa using hfind e he
    rw [hnone, hflat]
  | some index =>
    obtain ⟨hlt, he, -⟩ := findIdx?_eq_some_iff_getElem.mp hfind
    have hperm := (perm_cons_removeHeapAt (getElem?_eq_getElem hlt)).map Prod.snd
    rw [map_cons, of_decide_eq_true he] at hperm
    have hout := (nodup_cons.mp (hperm.nodup_iff.mpr hheap)).1
    have hrest : ((w.heap.map Prod.snd).filter fun b => b ≠ a).Perm
        ((removeHeapAt w.heap index).map Prod.snd) := by
      refine (hperm.symm.filter _).trans (List.Perm.of_eq ?_)
      rw [filter_cons_of_neg (by simp)]
      refine filter_eq_self.mpr fun b hb => ?_
      simpa using fun hba : b = a => hout (hba ▸ hb)
    rw [hflat]
    exact hrest.symm.append_left _

theorem nodup_remove (h : w.scheduled.Nodup) (a : α) : (w.remove a).scheduled.Nodup :=
  (scheduled_remove h a).nodup_iff.mpr (h.filter _)

theorem mem_remove (h : w.scheduled.Nodup) {b : α} :
    b ∈ (w.remove a).scheduled ↔ b ∈ w.scheduled ∧ b ≠ a := by
  rw [(scheduled_remove h a).mem_iff, mem_filter, decide_eq_true_eq]

omit [DecidableEq α] in
theorem perm_flatMap_update {ι : Type} [DecidableEq ι] {l : List ι} {i : ι} (hl : l.Nodup)
    (hi : i ∈ l) (f : ι → List α) (x : List α) :
    (l.flatMap (update f i x)).Perm (x ++ (l.erase i).flatMap f) := by
  refine ((perm_cons_erase hi).flatMap_right _).trans (.of_eq ?_)
  rw [flatMap_cons, update_self]
  refine congrArg (x ++ ·) (flatMap_congr fun j hj => update_of_ne ?_ _ _)
  rintro rfl
  exact hl.not_mem_erase hj

omit [DecidableEq α] in
/-- One slot is replaced: what the other slots hold stays. -/
theorem exists_slots_perm (slots : Fin kSlotCount → List α) (slot : Fin kSlotCount) : ∃ rest,
    ((finRange kSlotCount).flatMap slots).Perm (slots slot ++ rest) ∧
      ∀ x, ((finRange kSlotCount).flatMap (update slots slot x)).Perm (x ++ rest) := by
  have hperm := perm_flatMap_update (nodup_finRange kSlotCount) (mem_finRange slot) slots
  refine ⟨_, ?_, hperm⟩
  have hsame := hperm (slots slot)
  rwa [update_eq_self] at hsame

theorem scheduled_insert (w : TtlWheel α) (a : α) (ticks : Nat) :
    (w.insert a ticks).scheduled.Perm (a :: (w.remove a).scheduled) := by
  unfold insert
  dsimp only
  split
  · obtain ⟨rest, hslots, hlinked⟩ := exists_slots_perm (w.remove a).slots
      ⟨((w.remove a).cursor + ticks) % kSlotCount, Nat.mod_lt _ (by decide)⟩
    have hnew := perm_middle.trans (hslots.symm.cons a)
    rw [← singleton_append, ← append_assoc] at hnew
    exact ((hlinked _).trans hnew).append_right _
  · refine (((perm_siftUp _ _ _).map Prod.snd).append_left _).trans ?_
    rw [map_append, ← append_assoc]
    exact perm_append_singleton _ _

theorem nodup_insert (h : w.scheduled.Nodup) (a : α) (ticks : Nat) :
    (w.insert a ticks).scheduled.Nodup := by
  refine (scheduled_insert w a ticks).nodup_iff.mpr (nodup_cons.mpr ⟨?_, nodup_remove h a⟩)
  exact fun ha => ((mem_remove h).mp ha).2 rfl

theorem mem_insert (h : w.scheduled.Nodup) {b : α} {ticks : Nat} :
    b ∈ (w.insert a ticks).scheduled ↔ b = a ∨ b ∈ w.scheduled := by
  rw [(scheduled_insert w a ticks).mem_iff, mem_cons, mem_remove h]
  by_cases hb : b = a
  · simp [hb]
  · simp [hb]

omit [DecidableEq α] in
theorem perm_drainSlot (w : TtlWheel α) :
    (w.drainSlot.1 ++ w.drainSlot.2.scheduled).Perm w.scheduled := by
  obtain ⟨rest, hslots, hdrained⟩ := exists_slots_perm w.slots w.cursor
  unfold drainSlot scheduled
  rw [← append_assoc]
  exact (((hdrained []).append_left _).trans hslots.symm).append_right _

omit [DecidableEq α] in
theorem perm_popDue {w' : TtlWheel α} (h : w.popDue = some (a, w')) :
    (a :: w'.scheduled).Perm w.scheduled := by
  unfold popDue at h
  split at h
  · cases h
  · rename_i root rest hheap
    split at h
    · cases h
      have hperm := (perm_cons_removeHeapAt (show w.heap[0]? = some root by rw [hheap]; rfl)).map
        Prod.snd
      exact perm_middle.symm.trans (hperm.append_left _)
    · cases h

end TtlWheel

end Cinder
