/-
What the timing wheel has scheduled: for every node the number of ticks until it is due
(`include/cinder/store/ttl_wheel.hpp`).

A node in a slot is due when the cursor gets there, at the latest after one turn; a node in the
heap when the tick counter has reached its absolute tick. The heap is in order, so its root is
due first.
-/
import Cinder.Lib.BinaryHeap
import Cinder.Store.TtlWheel
import Mathlib.Data.List.Pairwise

namespace Cinder

open List Function Buckets

namespace TtlWheel

variable {α : Type}

/-! ## 1. The heap is in order -/

section Heap

variable {heap : List (Nat × α)} {index lhs rhs : Nat}

def tickAt (heap : List (Nat × α)) (i : Nat) : Nat := ((heap[i]?).map Prod.fst).getD 0

theorem tickAt_of_getElem? {i : Nat} {e : Nat × α} (h : heap[i]? = some e) :
    tickAt heap i = e.1 := by
  rw [tickAt, h]
  rfl

def HeapOrdered (heap : List (Nat × α)) : Prop := BinaryHeap.Ordered heap.length (tickAt heap)

theorem earlier_iff (hl : lhs < heap.length) (hr : rhs < heap.length) :
    earlier heap lhs rhs = true ↔ tickAt heap lhs < tickAt heap rhs := by
  unfold earlier tickAt
  rw [getElem?_eq_getElem hl, getElem?_eq_getElem hr]
  exact decide_eq_true_iff

@[simp] theorem length_swapHeap (heap : List (Nat × α)) (lhs rhs : Nat) :
    (swapHeap heap lhs rhs).length = heap.length := (perm_swapHeap heap lhs rhs).length_eq

theorem swapped_swapHeap (hl : lhs < heap.length) (hr : rhs < heap.length) :
    BinaryHeap.Swapped (tickAt heap) (tickAt (swapHeap heap lhs rhs)) lhs rhs := by
  have hswap : swapHeap heap lhs rhs = (heap.set lhs heap[rhs]).set rhs heap[lhs] := by
    unfold swapHeap
    rw [getElem?_eq_getElem hl, getElem?_eq_getElem hr]
  have hlen : rhs < (heap.set lhs heap[rhs]).length := by rwa [length_set]
  refine ⟨?_, ?_, fun l hll hlr => ?_⟩
  · rw [hswap, tickAt, tickAt, getElem?_set, getElem?_eq_getElem hr]
    by_cases heq : rhs = lhs
    · subst heq
      rw [if_pos rfl, if_pos hlen]
    · rw [if_neg heq, getElem?_set_self hl]
  · rw [hswap, tickAt, tickAt, getElem?_set_self hlen, getElem?_eq_getElem hl]
  · rw [hswap, tickAt, tickAt, getElem?_set_ne (Ne.symm hlr), getElem?_set_ne (Ne.symm hll)]

theorem ordered_siftUp (fuel : Nat) (h : BinaryHeap.UpTo heap.length (tickAt heap) index)
    (hi : index < heap.length) (hfuel : index ≤ fuel) : HeapOrdered (siftUp fuel heap index) := by
  induction fuel generalizing heap index with
  | zero =>
    obtain rfl : index = 0 := by omega
    exact h.ordered fun hpos => absurd hpos (lt_irrefl 0)
  | succ fuel ih =>
    unfold siftUp
    split
    · rename_i hzero
      exact h.ordered fun hpos => absurd hpos (by omega)
    · rename_i hzero
      have hpos : 0 < index := by omega
      have hparent : (index - 1) / 2 < heap.length := by omega
      dsimp only
      split
      · rename_i hlt
        rw [earlier_iff hi hparent] at hlt
        have hround := h.swap hpos hi hlt (swapped_swapHeap hi hparent)
        exact ih (by rwa [length_swapHeap]) (by rwa [length_swapHeap]) (by omega)
      · rename_i hge
        rw [earlier_iff hi hparent] at hge
        exact h.ordered fun _ => Nat.le_of_not_lt hge

theorem ordered_siftDown (fuel : Nat) (h : BinaryHeap.DownFrom heap.length (tickAt heap) index)
    (hfuel : heap.length ≤ index + fuel) : HeapOrdered (siftDown fuel heap index) := by
  induction fuel generalizing heap index with
  | zero =>
    refine h.ordered fun j hj0 hj hpj => ?_
    have := BinaryHeap.parent_lt hj0
    omega
  | succ fuel ih =>
    unfold siftDown
    dsimp only
    split
    · rename_i hleaf
      refine h.ordered fun j hj0 hj hpj => ?_
      rw [BinaryHeap.parent_eq_iff hj0] at hpj
      omega
    · rename_i hchild
      have hleft : index * 2 + 1 < heap.length := by omega
      -- the child with the lesser tick
      generalize hfirst : (if index * 2 + 1 + 1 < heap.length ∧
        earlier heap (index * 2 + 1 + 1) (index * 2 + 1) then index * 2 + 1 + 1
        else index * 2 + 1) = first
      have hspec : first < heap.length ∧ (first = index * 2 + 1 ∨ first = index * 2 + 2) ∧
          ∀ j, 0 < j → j < heap.length → BinaryHeap.parent j = index →
            tickAt heap first ≤ tickAt heap j := by
        split at hfirst
        · rename_i hright
          have hlt := (earlier_iff hright.1 hleft).mp hright.2
          subst hfirst
          refine ⟨hright.1, .inr rfl, fun j hj0 hj hpj => ?_⟩
          rcases (BinaryHeap.parent_eq_iff hj0).mp hpj with rfl | rfl
          · exact hlt.le
          · exact le_rfl
        · rename_i hright
          subst hfirst
          refine ⟨hleft, .inl rfl, fun j hj0 hj hpj => ?_⟩
          rcases (BinaryHeap.parent_eq_iff hj0).mp hpj with rfl | rfl
          · exact le_rfl
          · exact Nat.le_of_not_lt fun hlt => hright ⟨hj, (earlier_iff hj hleft).mpr hlt⟩
      obtain ⟨hlen, hone, hleast⟩ := hspec
      have hpos : 0 < first := by omega
      have hparent := (BinaryHeap.parent_eq_iff hpos).mpr hone
      have hindex : index < heap.length := by omega
      split
      · rename_i hlt
        rw [earlier_iff hlen hindex] at hlt
        have hround := h.swap hpos hlen hparent hleast hlt (swapped_swapHeap hindex hlen)
        exact ih (by rwa [length_swapHeap]) (by rw [length_swapHeap]; omega)
      · rename_i hge
        rw [earlier_iff hlen hindex] at hge
        exact h.ordered fun j hj0 hj hpj => (Nat.le_of_not_lt hge).trans (hleast j hj0 hj hpj)

theorem length_swapRemove {i : Nat} (hi : i < heap.length) :
    (Buckets.swapRemove heap i).length + 1 = heap.length :=
  (perm_cons_swapRemove (getElem?_eq_getElem hi)).length_eq

theorem ordered_removeHeapAt (h : HeapOrdered heap) (hi : index < heap.length) :
    HeapOrdered (removeHeapAt heap index) := by
  have hlen := length_swapRemove hi
  have hshort : BinaryHeap.Ordered (swapRemove heap index).length (tickAt heap) :=
    fun j hj0 hj => h j hj0 (by omega)
  have hrest : ∀ j, j < (swapRemove heap index).length → j ≠ index →
      tickAt (swapRemove heap index) j = tickAt heap j := by
    intro j hj hne
    rw [tickAt, getElem?_swapRemove hi, if_pos (by omega), if_neg hne, tickAt]
  unfold removeHeapAt
  dsimp only
  split
  · rename_i hgap
    obtain ⟨hup, hdown⟩ := hshort.replace hgap hrest
    have hparent : 0 < index → (index - 1) / 2 < (swapRemove heap index).length := by omega
    split
    · rename_i hlt
      have hlt' := (earlier_iff hgap (hparent hlt.1)).mp hlt.2
      exact ordered_siftUp _ (hup hlt.1 hlt') hgap hgap.le
    · rename_i hge
      refine ordered_siftDown _ (hdown fun hpos => Nat.le_of_not_lt fun hlt => hge ⟨hpos, ?_⟩)
        (by omega)
      exact (earlier_iff hgap (hparent hpos)).mpr hlt
  · rename_i hend
    exact hshort.congr fun j hj => hrest j hj (by omega)

theorem ordered_push (h : HeapOrdered heap) (e : Nat × α) :
    HeapOrdered (siftUp (heap ++ [e]).length (heap ++ [e]) heap.length) := by
  have hlen : (heap ++ [e]).length = heap.length + 1 := by simp
  have hold : ∀ j, j < heap.length → tickAt (heap ++ [e]) j = tickAt heap j := by
    intro j hj
    rw [tickAt, tickAt, getElem?_append_left hj]
  refine ordered_siftUp _ ⟨fun j hj0 hj hne => ?_, fun j hj0 hj hpj _ => ?_⟩ (by omega) (by omega)
  · have := BinaryHeap.parent_lt hj0
    rw [hold j (by omega), hold _ (by omega)]
    exact h j hj0 (by omega)
  · have := BinaryHeap.parent_lt hj0
    omega

theorem HeapOrdered.root_le {root e : Nat × α} {rest : List (Nat × α)}
    (h : HeapOrdered (root :: rest)) (he : e ∈ root :: rest) : root.1 ≤ e.1 := by
  obtain ⟨i, hi, rfl⟩ := mem_iff_getElem.mp he
  have hle := BinaryHeap.Ordered.root_le h hi
  rwa [tickAt_of_getElem? (getElem?_eq_getElem hi), tickAt_of_getElem? (e := root) rfl] at hle

end Heap

/-! ## 2. When a node is due -/

variable (w : TtlWheel α)

/-- The slot the cursor reaches after `r` ticks. -/
def slotIn (r : Nat) : Fin kSlotCount := ⟨(w.cursor + r) % kSlotCount, Nat.mod_lt _ (by decide)⟩

/-- **The node is due in `r` ticks.** -/
inductive DueIn (w : TtlWheel α) (a : α) (r : Nat) : Prop where
  | slot (pos : 1 ≤ r) (turn : r ≤ kSlotCount) (here : a ∈ w.slots (w.slotIn r))
  | heap (here : (w.tickCount + r, a) ∈ w.heap)

theorem exists_slotIn (s : Fin kSlotCount) : ∃ r, 1 ≤ r ∧ r ≤ kSlotCount ∧ w.slotIn r = s := by
  refine ⟨(s + kSlotCount - w.cursor - 1) % kSlotCount + 1, by omega, ?_, Fin.ext ?_⟩
  · have := Nat.mod_lt (s + kSlotCount - w.cursor - 1) (show 0 < kSlotCount by decide)
    omega
  · show (w.cursor.val + ((s.val + kSlotCount - w.cursor.val - 1) % kSlotCount + 1)) % kSlotCount =
      s.val
    unfold kSlotCount at *
    omega

theorem slotIn_inj {w : TtlWheel α} {r r' : Nat} (hr : 1 ≤ r ∧ r ≤ kSlotCount)
    (hr' : 1 ≤ r' ∧ r' ≤ kSlotCount) (h : w.slotIn r = w.slotIn r') : r = r' := by
  have hval : (w.cursor.val + r) % kSlotCount = (w.cursor.val + r') % kSlotCount :=
    congrArg Fin.val h
  unfold kSlotCount at *
  omega

/-- The representation of a wheel, also between two callbacks of a tick. -/
structure Wf : Prop where
  nodup : w.scheduled.Nodup
  ordered : HeapOrdered w.heap
  ahead : ∀ e ∈ w.heap, w.tickCount ≤ e.1 ∧ e.1 < UInt64.size

/-- Between two ticks nothing is due at once. -/
structure Quiet : Prop extends Wf w where
  later : ∀ a, ¬ w.DueIn a 0

variable {w : TtlWheel α} {a b : α} {r t : Nat}

theorem mem_scheduled : a ∈ w.scheduled ↔ (∃ s, a ∈ w.slots s) ∨ ∃ tick, (tick, a) ∈ w.heap := by
  unfold scheduled
  rw [mem_append, mem_flatMap, mem_map]
  refine or_congr ⟨?_, ?_⟩ ⟨?_, ?_⟩
  · intro ⟨s, _, h⟩
    exact ⟨s, h⟩
  · intro ⟨s, h⟩
    exact ⟨s, mem_finRange s, h⟩
  · intro ⟨e, he, hea⟩
    exact ⟨e.1, hea ▸ he⟩
  · intro ⟨tick, h⟩
    exact ⟨_, h, rfl⟩

variable {s : Fin kSlotCount} {e : Nat × α}

section

variable (h : w.scheduled.Nodup)

include h

theorem slot_unique {s' : Fin kSlotCount} (hs : a ∈ w.slots s) (hs' : a ∈ w.slots s') : s = s' := by
  obtain ⟨hslots, -, -⟩ := nodup_append'.mp h
  by_contra hne
  have hpair := (nodup_flatMap.mp hslots).2
  have hsymm : Std.Symm (onFun List.Disjoint w.slots) := ⟨fun _ _ hd _ hx hy => hd hy hx⟩
  exact hpair.forall (mem_finRange s) (mem_finRange s') hne hs hs'

theorem slot_or_heap {tick : Nat} (hs : a ∈ w.slots s) (hheap : (tick, a) ∈ w.heap) : False := by
  obtain ⟨-, -, hdisj⟩ := nodup_append'.mp h
  exact hdisj (mem_flatMap.mpr ⟨s, mem_finRange s, hs⟩) (mem_map.mpr ⟨_, hheap, rfl⟩)

theorem DueIn.unique {r' : Nat} (hr : w.DueIn a r) (hr' : w.DueIn a r') : r = r' := by
  cases hr with
  | slot pos turn here =>
    cases hr' with
    | slot pos' turn' here' => exact slotIn_inj ⟨pos, turn⟩ ⟨pos', turn'⟩ (slot_unique h here here')
    | heap here' => exact (slot_or_heap h here here').elim
  | heap here =>
    cases hr' with
    | slot pos' turn' here' => exact (slot_or_heap h here' here).elim
    | heap here' =>
      obtain ⟨-, hheap, -⟩ := nodup_append'.mp h
      have heq := congrArg Prod.fst (inj_on_of_nodup_map hheap here here' rfl)
      have heq : w.tickCount + r = w.tickCount + r' := heq
      omega

end

theorem DueIn.mem_scheduled (h : w.DueIn a r) : a ∈ w.scheduled := by
  rw [TtlWheel.mem_scheduled]
  cases h with
  | slot pos turn here => exact .inl ⟨_, here⟩
  | heap here => exact .inr ⟨_, here⟩

theorem Wf.mem_scheduled_iff (h : w.Wf) : a ∈ w.scheduled ↔ ∃ r, w.DueIn a r := by
  constructor
  · intro ha
    rcases TtlWheel.mem_scheduled.mp ha with ⟨s, hs⟩ | ⟨tick, hheap⟩
    · obtain ⟨r, hpos, hturn, rfl⟩ := w.exists_slotIn s
      exact ⟨r, .slot hpos hturn hs⟩
    · have hle := (h.ahead _ hheap).1
      refine ⟨tick - w.tickCount, .heap ?_⟩
      rwa [Nat.add_sub_cancel' hle]
  · intro ⟨r, hr⟩
    exact hr.mem_scheduled

/-! ## 3. The operations -/

variable [DecidableEq α]

variable (w)

@[simp] theorem cursor_remove (a : α) : (w.remove a).cursor = w.cursor := by
  unfold remove
  dsimp only
  split <;> rfl

@[simp] theorem tickCount_remove (a : α) : (w.remove a).tickCount = w.tickCount := by
  unfold remove
  dsimp only
  split <;> rfl

@[simp] theorem cursor_insert (a : α) (t : Nat) : (w.insert a t).cursor = w.cursor := by
  unfold insert
  dsimp only
  split <;> exact cursor_remove w a

@[simp] theorem tickCount_insert (a : α) (t : Nat) : (w.insert a t).tickCount = w.tickCount := by
  unfold insert
  dsimp only
  split <;> exact tickCount_remove w a

theorem slots_remove (a : α) (s : Fin kSlotCount) : (w.remove a).slots s = (w.slots s).erase a := by
  unfold remove
  dsimp only
  split <;> rfl

variable {w}

theorem mem_slots_remove (h : w.scheduled.Nodup) :
    b ∈ (w.remove a).slots s ↔ b ∈ w.slots s ∧ b ≠ a := by
  obtain ⟨hslots, -, -⟩ := nodup_append'.mp h
  rw [slots_remove, ((nodup_flatMap.mp hslots).1 s (mem_finRange s)).mem_erase_iff, and_comm]

theorem perm_heap_remove (h : w.scheduled.Nodup) (a : α) :
    (w.remove a).heap.Perm (w.heap.filter fun e => e.2 ≠ a) := by
  obtain ⟨-, hheap, -⟩ := nodup_append'.mp h
  unfold remove
  dsimp only
  cases hfind : w.heap.findIdx? fun e => e.2 = a with
  | none =>
    rw [findIdx?_eq_none_iff] at hfind
    refine (List.Perm.of_eq (filter_eq_self.mpr fun e he => ?_)).symm
    simpa using hfind e he
  | some index =>
    obtain ⟨hlt, he, -⟩ := findIdx?_eq_some_iff_getElem.mp hfind
    have hperm := perm_cons_removeHeapAt (getElem?_eq_getElem hlt)
    have hnode : (w.heap[index]).2 = a := of_decide_eq_true he
    have hnodup := (hperm.map Prod.snd).nodup_iff.mpr hheap
    rw [map_cons, hnode, nodup_cons] at hnodup
    refine List.Perm.trans (List.Perm.of_eq ?_) (hperm.filter _)
    rw [filter_cons_of_neg (by simp [hnode])]
    refine (filter_eq_self.mpr fun e hmem => ?_).symm
    simpa using fun hea : e.2 = a => hnodup.1 (hea ▸ mem_map_of_mem hmem)

theorem mem_heap_remove (h : w.scheduled.Nodup) : e ∈ (w.remove a).heap ↔ e ∈ w.heap ∧ e.2 ≠ a := by
  rw [(perm_heap_remove h a).mem_iff, mem_filter, decide_eq_true_eq]

theorem Wf.remove (h : w.Wf) (a : α) : (w.remove a).Wf where
  nodup := nodup_remove h.nodup a
  ordered := by
    unfold TtlWheel.remove
    dsimp only
    cases hfind : w.heap.findIdx? fun e => e.2 = a with
    | none => exact h.ordered
    | some index =>
      obtain ⟨hlt, -, -⟩ := findIdx?_eq_some_iff_getElem.mp hfind
      exact ordered_removeHeapAt h.ordered hlt
  ahead e he := by
    rw [tickCount_remove]
    exact h.ahead e ((mem_heap_remove h.nodup).mp he).1

theorem slotIn_remove (w : TtlWheel α) (a : α) (r : Nat) : (w.remove a).slotIn r = w.slotIn r := by
  unfold slotIn
  simp only [cursor_remove]

theorem dueIn_remove (h : w.scheduled.Nodup) : (w.remove a).DueIn b r ↔ w.DueIn b r ∧ b ≠ a := by
  constructor
  · intro hdue
    cases hdue with
    | slot pos turn here =>
      rw [slotIn_remove, mem_slots_remove h] at here
      exact ⟨.slot pos turn here.1, here.2⟩
    | heap here =>
      rw [tickCount_remove, mem_heap_remove h] at here
      exact ⟨.heap here.1, here.2⟩
  · intro ⟨hdue, hne⟩
    cases hdue with
    | slot pos turn here =>
      refine .slot pos turn ?_
      rw [slotIn_remove, mem_slots_remove h]
      exact ⟨here, hne⟩
    | heap here =>
      refine .heap ?_
      rw [tickCount_remove, mem_heap_remove h]
      exact ⟨here, hne⟩

/-- The absolute tick of the entry fits a `size_t`, or none is needed. -/
def InRange (w : TtlWheel α) (ttlTicks : Nat) : Prop :=
  ttlTicks ≤ kSlotCount ∨ w.tickCount + ttlTicks < UInt64.size

theorem mem_slots_insert :
    b ∈ (w.insert a t).slots s ↔ b ∈ (w.remove a).slots s ∨ b = a ∧ t ≤ kSlotCount ∧
      s = w.slotIn t := by
  unfold insert
  dsimp only
  have hslot : (⟨((w.remove a).cursor + t) % kSlotCount, Nat.mod_lt _ (by decide)⟩ :
      Fin kSlotCount) = w.slotIn t := slotIn_remove w a t
  split
  · rename_i hle
    dsimp only
    rw [hslot]
    by_cases hs : s = w.slotIn t
    · subst hs
      rw [update_self, mem_append, mem_singleton]
      simp [hle]
    · rw [update_of_ne hs]
      simp [hs]
  · rename_i hgt
    simp [hgt]

theorem mem_heap_insert :
    e ∈ (w.insert a t).heap ↔ e ∈ (w.remove a).heap ∨
      e = ((w.tickCount + t) % UInt64.size, a) ∧ kSlotCount < t := by
  unfold insert
  dsimp only
  split
  · rename_i hle
    simp [not_lt.mpr hle]
  · rename_i hgt
    rw [(perm_siftUp _ _ _).mem_iff, mem_append, mem_singleton, tickCount_remove]
    simp [Nat.lt_of_not_le hgt]

theorem Wf.insert (h : w.Wf) (a : α) (hrange : w.InRange t) : (w.insert a t).Wf where
  nodup := nodup_insert h.nodup a t
  ordered := by
    unfold TtlWheel.insert
    dsimp only
    split
    · exact (h.remove a).ordered
    · exact ordered_push (h.remove a).ordered _
  ahead e he := by
    rw [tickCount_insert]
    rcases mem_heap_insert.mp he with he | ⟨rfl, hlong⟩
    · have hahead := (h.remove a).ahead e he
      rwa [tickCount_remove] at hahead
    · have hfits : w.tickCount + t < UInt64.size := hrange.resolve_left (not_le.mpr hlong)
      rw [Nat.mod_eq_of_lt hfits]
      exact ⟨Nat.le_add_right _ _, hfits⟩

theorem slotIn_insert (w : TtlWheel α) (a : α) (t r : Nat) :
    (w.insert a t).slotIn r = w.slotIn r := by
  unfold slotIn
  simp only [cursor_insert]

theorem dueIn_insert_self (hpos : 1 ≤ t) (hrange : w.InRange t) : (w.insert a t).DueIn a t := by
  by_cases hle : t ≤ kSlotCount
  · refine .slot hpos hle ?_
    rw [slotIn_insert, mem_slots_insert]
    exact .inr ⟨rfl, hle, rfl⟩
  · refine .heap ?_
    rw [tickCount_insert, mem_heap_insert]
    refine .inr ⟨?_, Nat.lt_of_not_le hle⟩
    rw [Nat.mod_eq_of_lt (hrange.resolve_left hle)]

theorem dueIn_insert_of_ne (h : w.scheduled.Nodup) (hne : b ≠ a) :
    (w.insert a t).DueIn b r ↔ w.DueIn b r := by
  have hremove : (w.insert a t).DueIn b r ↔ (w.remove a).DueIn b r := by
    constructor
    · intro hdue
      cases hdue with
      | slot pos turn here =>
        rw [slotIn_insert, mem_slots_insert] at here
        refine .slot pos turn ?_
        rw [slotIn_remove]
        exact here.resolve_right fun hself => hne hself.1
      | heap here =>
        rw [tickCount_insert, mem_heap_insert] at here
        refine .heap ?_
        rw [tickCount_remove]
        exact here.resolve_right fun hself => hne (congrArg Prod.snd hself.1)
    · intro hdue
      cases hdue with
      | slot pos turn here =>
        rw [slotIn_remove] at here
        refine .slot pos turn ?_
        rw [slotIn_insert, mem_slots_insert]
        exact .inl here
      | heap here =>
        rw [tickCount_remove] at here
        refine .heap ?_
        rw [tickCount_insert, mem_heap_insert]
        exact .inl here
  rw [hremove, dueIn_remove h, and_iff_left hne]

theorem dueIn_insert (h : w.scheduled.Nodup) (hpos : 1 ≤ t) (hrange : w.InRange t) :
    (w.insert a t).DueIn b r ↔ b = a ∧ r = t ∨ b ≠ a ∧ w.DueIn b r := by
  by_cases hb : b = a
  · subst hb
    have hself := dueIn_insert_self (a := b) hpos hrange
    constructor
    · intro hdue
      exact .inl ⟨rfl, hdue.unique (nodup_insert h b t) hself⟩
    · intro hcases
      rcases hcases with ⟨-, rfl⟩ | ⟨hne, -⟩
      · exact hself
      · exact absurd rfl hne
  · rw [dueIn_insert_of_ne h hb]
    simp [hb]

def dueCount (w : TtlWheel α) : Nat := w.heap.countP fun e => e.1 ≤ w.tickCount

theorem dueCount_remove_le (h : w.scheduled.Nodup) (a : α) :
    dueCount (w.remove a) ≤ dueCount w := by
  unfold dueCount
  rw [tickCount_remove, (perm_heap_remove h a).countP_eq]
  exact filter_sublist.countP_le

theorem dueCount_insert_le (h : w.scheduled.Nodup) (a : α) (hrange : w.InRange t) :
    dueCount (w.insert a t) ≤ dueCount w := by
  refine le_trans ?_ (dueCount_remove_le h a)
  unfold dueCount
  rw [tickCount_insert, tickCount_remove]
  unfold insert
  dsimp only
  split
  · exact le_rfl
  · rename_i hlong
    have hfits : w.tickCount + t < UInt64.size := hrange.resolve_left hlong
    have hlater : ¬ (w.tickCount + t ≤ w.tickCount) := by omega
    rw [(perm_siftUp _ _ _).countP_eq, countP_append, tickCount_remove,
      Nat.mod_eq_of_lt hfits, countP_singleton]
    simp [hlater]

/-! ## 4. A tick -/

omit [DecidableEq α] in
theorem mem_drainSlot_advance : b ∈ w.advance.drainSlot.1 ↔ b ∈ w.slots (w.slotIn 1) := Iff.rfl

omit [DecidableEq α] in
theorem Quiet.tickCount_advance (h : w.Quiet) (he : e ∈ w.heap) :
    w.advance.tickCount = w.tickCount + 1 := by
  have hahead := h.ahead e he
  have hnow : w.tickCount ≠ e.1 := fun heq => h.later e.2 (.heap (by rw [heq]; exact he))
  exact Nat.mod_eq_of_lt (by omega)

omit [DecidableEq α] in
theorem Quiet.drainSlot (h : w.Quiet) : w.advance.drainSlot.2.Wf where
  nodup := (nodup_append'.mp ((perm_drainSlot w.advance).nodup_iff.mpr h.nodup)).2.1
  ordered := h.ordered
  ahead e he := by
    have hahead := h.ahead e he
    have hnow : w.tickCount ≠ e.1 := fun heq => h.later e.2 (.heap (by rw [heq]; exact he))
    have htick : w.advance.drainSlot.2.tickCount = w.tickCount + 1 := h.tickCount_advance he
    rw [htick]
    exact ⟨by omega, hahead.2⟩

omit [DecidableEq α] in
theorem dueIn_drainSlot (h : w.Quiet) :
    w.advance.drainSlot.2.DueIn b r ↔ w.DueIn b (r + 1) ∧ b ∉ w.advance.drainSlot.1 := by
  have hslot : ∀ r, w.advance.drainSlot.2.slotIn r = w.slotIn (r + 1) := by
    intro r
    refine Fin.ext ?_
    show ((w.cursor.val + 1) % kSlotCount + r) % kSlotCount = (w.cursor.val + (r + 1)) % kSlotCount
    rw [Nat.mod_add_mod]
    congr 1
    omega
  have hsame : ∀ r, w.slotIn (r + 1) = w.slotIn 1 ↔ r % kSlotCount = 0 := by
    intro r
    rw [Fin.ext_iff]
    show (w.cursor.val + (r + 1)) % kSlotCount = (w.cursor.val + 1) % kSlotCount ↔ _
    unfold kSlotCount
    omega
  have hslots : ∀ s, w.advance.drainSlot.2.slots s = if s = w.slotIn 1 then [] else w.slots s := by
    intro s
    show update w.slots (w.slotIn 1) [] s = _
    by_cases hs : s = w.slotIn 1
    · rw [hs, update_self, if_pos rfl]
    · rw [update_of_ne hs, if_neg hs]
  rw [mem_drainSlot_advance]
  constructor
  · intro hdue
    cases hdue with
    | slot pos turn here =>
      rw [hslot, hslots] at here
      split at here
      · cases here
      · rename_i hne
        have hshort : r + 1 ≤ kSlotCount := by
          by_contra hlong
          exact hne ((hsame r).mpr (by unfold kSlotCount at *; omega))
        exact ⟨.slot (by omega) hshort here, fun hbatch =>
          hne (slot_unique h.nodup here hbatch)⟩
    | heap here =>
      have htick : w.advance.drainSlot.2.tickCount = w.tickCount + 1 := h.tickCount_advance here
      rw [htick, Nat.add_right_comm, Nat.add_assoc] at here
      exact ⟨.heap here, fun hbatch => slot_or_heap h.nodup hbatch here⟩
  · intro ⟨hdue, hbatch⟩
    cases hdue with
    | slot pos turn here =>
      have hpos : 1 ≤ r := by
        by_contra hzero
        obtain rfl : r = 0 := by omega
        exact hbatch here
      refine .slot hpos (by omega) ?_
      rw [hslot, hslots, if_neg fun heq => ?_]
      · exact here
      · rw [heq] at here
        exact hbatch here
    | heap here =>
      have htick : w.advance.drainSlot.2.tickCount = w.tickCount + 1 := h.tickCount_advance here
      refine .heap ?_
      rw [htick, Nat.add_right_comm, Nat.add_assoc]
      exact here

omit [DecidableEq α] in
theorem popDue_some {w' : TtlWheel α} (h : w.Wf) (hpop : w.popDue = some (a, w')) :
    w.DueIn a 0 ∧ w'.Wf ∧ w'.tickCount = w.tickCount ∧ dueCount w' + 1 = dueCount w ∧
      ∀ b r, w'.DueIn b r ↔ w.DueIn b r ∧ b ≠ a := by
  have hperm := perm_popDue hpop
  unfold popDue at hpop
  split at hpop
  · cases hpop
  · rename_i root rest hheap
    split at hpop
    · rename_i hdue
      cases hpop
      have hroot : root ∈ w.heap := hheap ▸ mem_cons_self
      have hnow : root.1 = w.tickCount := le_antisymm hdue (h.ahead root hroot).1
      have hroot : (w.tickCount, root.2) ∈ w.heap := hnow ▸ hroot
      have hfirst : w.heap[0]? = some (w.tickCount, root.2) := by
        rw [hheap, ← hnow]
        rfl
      have hrest := perm_cons_removeHeapAt hfirst
      have hnodup := hperm.nodup_iff.mpr h.nodup
      refine ⟨.heap hroot, ⟨(nodup_cons.mp hnodup).2, ?_, fun e he => ?_⟩, rfl, ?_, fun b r => ?_⟩
      · exact ordered_removeHeapAt h.ordered (by rw [hheap]; exact Nat.succ_pos _)
      · exact h.ahead e (hrest.mem_iff.mp (mem_cons_of_mem _ he))
      · unfold dueCount
        rw [← hrest.countP_eq, countP_cons_of_pos (by simp)]
      · have hout : b = root.2 → ¬ DueIn { w with heap := removeHeapAt w.heap 0 } b r :=
          fun heq hdue => (nodup_cons.mp hnodup).1 (heq ▸ hdue.mem_scheduled)
        constructor
        · intro hdue
          refine ⟨?_, fun heq => hout heq hdue⟩
          cases hdue with
          | slot pos turn here => exact .slot pos turn here
          | heap here => exact .heap (hrest.mem_iff.mp (mem_cons_of_mem _ here))
        · intro ⟨hdue, hne⟩
          cases hdue with
          | slot pos turn here => exact .slot pos turn here
          | heap here =>
            rcases mem_cons.mp (hrest.mem_iff.mpr here) with heq | here
            · exact absurd (congrArg Prod.snd heq) hne
            · exact .heap here
    · cases hpop

omit [DecidableEq α] in
theorem Wf.quiet_of_dueCount (h : w.Wf) (hcount : dueCount w = 0) : w.Quiet := by
  refine ⟨h, fun a hdue => ?_⟩
  cases hdue with
  | slot pos turn here => exact absurd pos (by decide)
  | heap here => exact countP_eq_zero.mp hcount _ here (by simp)

omit [DecidableEq α] in
theorem popDue_none (h : w.Wf) (hpop : w.popDue = none) : w.Quiet := by
  refine ⟨h, fun a hdue => ?_⟩
  cases hdue with
  | slot pos turn here => exact absurd pos (by decide)
  | heap here =>
    unfold popDue at hpop
    have hordered := h.ordered
    split at hpop
    · rename_i hheap
      rw [hheap] at here
      cases here
    · rename_i root rest hheap
      rw [hheap] at here hordered
      have hle : root.1 ≤ w.tickCount := hordered.root_le here
      rw [if_pos hle] at hpop
      cases hpop

end TtlWheel

end Cinder
