/-
The queue of writes that could not be delivered (`include/cinder/node/hint_queue.hpp`):
slots with generations, a FIFO of the occupied ones, one hint per target and key, two bounds.

The slots are followed one by one, since a completion names the slot it replayed; the links
between them are the order of the list `live`. Peaks and metrics are left out.
-/
import Cinder.Hashing.Ring
import Cinder.Lib.BoundedFifo
import Cinder.Net.Protocol

namespace Cinder

open List BoundedFifo Function

structure Hint where
  target : NodeId
  req : Request
  expiresAt : Nanos
  deriving DecidableEq, Repr

/-- The stamp a request carries, with all 64 bits of its version. -/
def Request.wireStamp (req : Request) : LwwStamp := ⟨req.version, req.writerNodeHash, req.tombstone⟩

def kHintCapacity : Nat := 1024

theorem kHintCapacity_pos : 0 < kHintCapacity := by decide

/-- `sizeof(Hint)` is the compiler's; the byte budget is an option of the node. -/
structure HintBounds where
  sizeofHint : Nat
  maxBytes : Nat := 67108864
  deriving DecidableEq, Repr

def HintBounds.estimatedBytes (b : HintBounds) (hint : Hint) : Nat :=
  b.sizeofHint + hint.target.length + hint.req.key.length + hint.req.value.length

def HintQueue.isNewerThan (a b : Request) : Bool := lwwCovers a.wireStamp b.wireStamp

def HintBounds.rules (b : HintBounds) : BoundedFifo.Rules Hint (NodeId × Key) where
  place hint := (hint.target, hint.req.key)
  newer a b := HintQueue.isNewerThan a.req b.req
  cost := b.estimatedBytes
  capacity := kHintCapacity
  budget := b.maxBytes

structure HintSlot where
  index : Nat
  hint : Hint
  deriving DecidableEq, Repr

/-- The same over the occupied slots. -/
def HintBounds.slotRules (b : HintBounds) : BoundedFifo.Rules HintSlot (NodeId × Key) where
  place slot := (slot.hint.target, slot.hint.req.key)
  newer a c := HintQueue.isNewerThan a.hint.req c.hint.req
  cost slot := b.estimatedBytes slot.hint
  capacity := kHintCapacity
  budget := b.maxBytes

theorem HintBounds.slotRules_respects (b : HintBounds) :
    BoundedFifo.Respects b.slotRules b.rules HintSlot.hint where
  place _ := rfl
  newer _ _ := rfl
  cost _ := rfl
  capacity := rfl
  budget := rfl

/-- A generation-tagged reference to a slot. -/
structure HintHandle where
  index : Nat := kHintCapacity
  generation : UInt64 := 0
  deriving DecidableEq, Repr

structure HintQueue where
  bounds : HintBounds
  /-- The occupied slots from `head_` to `tail_`. -/
  live : List HintSlot := []
  generation : Nat → UInt64 := fun _ => 0
  /-- The chain from `free_head_`. -/
  freeSlots : List Nat := []
  nextUnused : Nat := 0
  dropped : Nat := 0

namespace HintQueue

/-! ## 1. The operations -/

variable (q : HintQueue)

def hints : List Hint := q.live.map HintSlot.hint

def currentBytes : Nat := (q.hints.map q.bounds.estimatedBytes).sum

def acquireSlot : Nat × HintQueue :=
  match q.freeSlots with
  | index :: rest => (index, { q with freeSlots := rest })
  | [] => (q.nextUnused, { q with nextUnused := q.nextUnused + 1 })

def unlinkAndRelease (index : Nat) : HintQueue :=
  { q with
    live := q.live.eraseP fun slot => slot.index = index
    freeSlots := index :: q.freeSlots }

/-- The eviction loop of `push`; every round takes a slot. -/
def evictOldest (incoming : Nat) : (fuel : Nat) → HintQueue → HintQueue
  | 0, q => q
  | fuel + 1, q =>
    if q.live.length = kHintCapacity ∨ q.bounds.maxBytes < q.currentBytes + incoming then
      match q.live with
      | [] => q
      | slot :: _ =>
        evictOldest incoming fuel { q.unlinkAndRelease slot.index with dropped := q.dropped + 1 }
    else q

/-- The rest of `push`, behind the search for a hint of the same target and key. -/
def insert (q : HintQueue) (hint : Hint) : HintQueue :=
  let a := (evictOldest (q.bounds.estimatedBytes hint) q.live.length q).acquireSlot
  { a.2 with
    generation := update a.2.generation a.1 (a.2.generation a.1 + 1)
    live := a.2.live ++ [⟨a.1, hint⟩] }

def push (q : HintQueue) (hint : Hint) : Bool × HintQueue :=
  if q.bounds.maxBytes < q.bounds.estimatedBytes hint then
    (false, { q with dropped := q.dropped + 1 })
  else
    match q.live.find? fun slot => (slot.hint.target, slot.hint.req.key) =
        (hint.target, hint.req.key) with
    | some slot =>
      if !isNewerThan hint.req slot.hint.req then (false, q)
      else (true, (q.unlinkAndRelease slot.index).insert hint)
    | none => (true, q.insert hint)

/-- The loop of `snapshot` over the slots from the head on, with what may still be collected. -/
def snapshotLoop (now : Nanos) : List HintSlot → Nat → HintQueue →
    List (Hint × HintHandle) × HintQueue
  | [], _, q => ([], q)
  | _ :: _, 0, q => ([], q)
  | slot :: rest, room + 1, q =>
    if slot.hint.expiresAt ≤ now then
      snapshotLoop now rest (room + 1) (q.unlinkAndRelease slot.index)
    else
      let r := snapshotLoop now rest room q
      ((slot.hint, ⟨slot.index, q.generation slot.index⟩) :: r.1, r.2)

variable (q : HintQueue)

def snapshot (now : Nanos) (maxEntries : Nat) : List (Hint × HintHandle) × HintQueue :=
  snapshotLoop now q.live maxEntries q

/-- `remove(Handle)`: a stale handle is ignored. -/
def removeHandle (handle : HintHandle) : HintQueue :=
  if kHintCapacity ≤ handle.index then q
  else if q.live.any (fun slot => slot.index = handle.index) ∧
      q.generation handle.index = handle.generation then q.unlinkAndRelease handle.index
  else q

/-- What `remove(target, req)` compares. -/
def IsFor (target : NodeId) (key : Key) (version : UInt64) (hint : Hint) : Bool :=
  decide (hint.target = target ∧ hint.req.key = key ∧ hint.req.version = version)

/-- `remove(target, req)`: the first hint of the target, key and version. -/
def removeMatching (target : NodeId) (key : Key) (version : UInt64) : HintQueue :=
  match q.live.find? fun slot => IsFor target key version slot.hint with
  | some slot => q.unlinkAndRelease slot.index
  | none => q

def setMaxBytes (maxBytes : Nat) : HintQueue :=
  { q with bounds := { q.bounds with maxBytes := maxBytes } }

/-! ## 2. Slots -/

/-- Every slot handed out is occupied or free, once; the array has room for them. -/
structure Wf : Prop where
  slots : (q.live.map HintSlot.index ++ q.freeSlots).Perm (range q.nextUnused)
  inArray : q.nextUnused ≤ kHintCapacity

variable {q : HintQueue}

theorem wf_empty (bounds : HintBounds) : ({ bounds := bounds } : HintQueue).Wf :=
  ⟨List.Perm.refl _, Nat.zero_le _⟩

theorem Wf.nodup_slots (h : q.Wf) : (q.live.map HintSlot.index ++ q.freeSlots).Nodup :=
  h.slots.nodup_iff.mpr nodup_range

theorem Wf.nodup (h : q.Wf) : (q.live.map HintSlot.index).Nodup := (nodup_append.mp h.nodup_slots).1

theorem Wf.length_le (h : q.Wf) : q.live.length ≤ q.nextUnused := by
  have hlen := h.slots.length_eq
  rw [length_append, length_map, length_range] at hlen
  omega

theorem Wf.unlinkAndRelease (h : q.Wf) {slot : HintSlot} (hslot : slot ∈ q.live) :
    (q.unlinkAndRelease slot.index).Wf := by
  refine ⟨?_, h.inArray⟩
  obtain ⟨a, l₁, l₂, -, ha, hlive, herase⟩ :=
    exists_of_eraseP (p := fun s : HintSlot => decide (s.index = slot.index)) hslot (by simp)
  have hindex : a.index = slot.index := by simpa using ha
  have hperm := h.slots
  rw [hlive] at hperm
  show ((q.live.eraseP _).map HintSlot.index ++ slot.index :: q.freeSlots).Perm _
  rw [herase]
  refine List.Perm.trans ?_ hperm
  simp only [map_append, map_cons, hindex, append_assoc, cons_append]
  refine List.Perm.append_left _ ?_
  exact perm_middle

theorem Wf.live_unlinkAndRelease (h : q.Wf) {l₁ l₂ : List HintSlot} {slot : HintSlot}
    (hlive : q.live = l₁ ++ slot :: l₂) : (q.unlinkAndRelease slot.index).live = l₁ ++ l₂ := by
  have hnodup := h.nodup
  rw [hlive, map_append, nodup_append] at hnodup
  have hindex : ∀ s ∈ l₁, ¬ decide (s.index = slot.index) = true := by
    intro s hs
    simpa using hnodup.2.2 _ (mem_map_of_mem hs) _ mem_cons_self
  show q.live.eraseP _ = _
  rw [hlive, eraseP_append_right _ hindex, eraseP_cons_of_pos (by simp)]

theorem wf_evictOldest (incoming fuel : Nat) (h : q.Wf) : (evictOldest incoming fuel q).Wf := by
  induction fuel generalizing q with
  | zero => exact h
  | succ fuel ih =>
    unfold evictOldest
    split
    · split
      · exact h
      · rename_i slot rest hlive
        refine ih ?_
        have hrel := @Wf.unlinkAndRelease q h slot (hlive ▸ mem_cons_self)
        exact ⟨hrel.slots, hrel.inArray⟩
    · exact h

theorem Wf.link (h : q.Wf) (hroom : q.live.length < kHintCapacity) (hint : Hint)
    (generation : Nat → UInt64) : ({ q.acquireSlot.2 with
        generation := generation
        live := q.acquireSlot.2.live ++ [⟨q.acquireSlot.1, hint⟩] } : HintQueue).Wf := by
  have hslots := h.slots
  cases hfree : q.freeSlots with
  | cons index rest =>
    rw [hfree] at hslots
    refine ⟨?_, ?_⟩ <;> simp only [acquireSlot, hfree]
    · simpa using hslots
    · exact h.inArray
  | nil =>
    rw [hfree, append_nil] at hslots
    have hlen := hslots.length_eq
    rw [length_map, length_range] at hlen
    refine ⟨?_, ?_⟩ <;> simp only [acquireSlot, hfree]
    · simpa [range_succ] using hslots.append_right [q.nextUnused]
    · omega

/-! ## 3. The queue of hints -/

theorem eraseP_eq_of_find? {α κ : Type} [DecidableEq κ] {f : α → κ} {p : α → Bool} {l : List α}
    {a : α} (h : (l.map f).Nodup) (hfind : l.find? p = some a) :
    (l.eraseP fun b => f b = f a) = l.eraseP p := by
  induction l with
  | nil => cases hfind
  | cons b l ih =>
    rw [map_cons, nodup_cons] at h
    cases hp : p b with
    | true =>
      rw [List.find?_cons_of_pos hp] at hfind
      cases hfind
      rw [eraseP_cons_of_pos (by simp), eraseP_cons_of_pos hp]
    | false =>
      rw [List.find?_cons_of_neg (by simp [hp])] at hfind
      have hne : f b ≠ f a := fun e => h.1 (e ▸ mem_map_of_mem (mem_of_find?_eq_some hfind))
      rw [eraseP_cons_of_neg (by simpa using hne), eraseP_cons_of_neg (by simp [hp]), ih h.2 hfind]

theorem hints_unlinkAndRelease (h : q.Wf) {p : Hint → Bool} {slot : HintSlot}
    (hfind : (q.live.find? fun s => p s.hint) = some slot) :
    (q.unlinkAndRelease slot.index).hints = q.hints.eraseP p := by
  show (q.live.eraseP _).map HintSlot.hint = _
  rw [eraseP_eq_of_find? h.nodup hfind, hints, eraseP_map]
  rfl

theorem find?_hints (p : Hint → Bool) :
    q.hints.find? p = (q.live.find? fun s => p s.hint).map HintSlot.hint := List.find?_map ..

theorem evictOldest_bounds (incoming fuel : Nat) (q : HintQueue) :
    (evictOldest incoming fuel q).bounds = q.bounds := by
  induction fuel generalizing q with
  | zero => rfl
  | succ fuel ih =>
    unfold evictOldest
    split
    · split
      · rfl
      · exact ih _
    · rfl

theorem live_evictOldest (incoming : Nat) {fuel : Nat} (hfuel : q.live.length ≤ fuel) :
    (evictOldest incoming fuel q).live = BoundedFifo.room q.bounds.slotRules incoming q.live := by
  induction fuel generalizing q with
  | zero =>
    have hnil : q.live = [] := length_eq_zero_iff.mp (Nat.le_zero.mp hfuel)
    rw [evictOldest, hnil]
    rfl
  | succ fuel ih =>
    unfold evictOldest
    have hload : q.currentBytes = load q.bounds.slotRules q.live :=
      load_map q.bounds.slotRules_respects q.live
    cases hlive : q.live with
    | nil =>
      split <;> exact hlive
    | cons slot rest =>
      rw [hload, hlive, room]
      by_cases hfull : (slot :: rest).length = kHintCapacity ∨
          q.bounds.maxBytes < load q.bounds.slotRules (slot :: rest) + incoming
      · have hrest : (q.unlinkAndRelease slot.index).live = rest := by
          show q.live.eraseP _ = rest
          rw [hlive, eraseP_cons_of_pos (by simp)]
        have hshort : (q.unlinkAndRelease slot.index).live.length ≤ fuel := by
          rw [hrest]
          rw [hlive, length_cons] at hfuel
          omega
        rw [if_pos hfull]
        refine (ih (q := { q.unlinkAndRelease slot.index with dropped := q.dropped + 1 })
          hshort).trans ?_
        rw [hrest]
        exact (if_pos hfull).symm
      · rw [if_neg hfull, hlive]
        exact (if_neg hfull).symm

theorem hints_evictOldest (incoming : Nat) {fuel : Nat} (hfuel : q.live.length ≤ fuel) :
    (evictOldest incoming fuel q).hints = BoundedFifo.room q.bounds.rules incoming q.hints := by
  rw [hints, live_evictOldest incoming hfuel]
  exact room_map q.bounds.slotRules_respects incoming q.live

theorem evictOldest_generation (incoming fuel : Nat) (q : HintQueue) :
    (evictOldest incoming fuel q).generation = q.generation := by
  induction fuel generalizing q with
  | zero => rfl
  | succ fuel ih =>
    unfold evictOldest
    split
    · split
      · rfl
      · exact ih _
    · rfl

theorem acquireSlot_live (q : HintQueue) : q.acquireSlot.2.live = q.live := by
  unfold acquireSlot
  split <;> rfl

theorem acquireSlot_generation (q : HintQueue) : q.acquireSlot.2.generation = q.generation := by
  unfold acquireSlot
  split <;> rfl

theorem exists_insert_eq (q : HintQueue) (hint : Hint) :
    ∃ index, (q.insert hint).live =
        BoundedFifo.room q.bounds.slotRules (q.bounds.estimatedBytes hint) q.live ++
          [⟨index, hint⟩] ∧
      (q.insert hint).generation = update q.generation index (q.generation index + 1) := by
  refine ⟨(evictOldest (q.bounds.estimatedBytes hint) q.live.length q).acquireSlot.1, ?_, ?_⟩
  · rw [← live_evictOldest _ le_rfl]
    simp only [insert, acquireSlot_live]
  · simp only [insert, acquireSlot_generation, evictOldest_generation]

theorem push_cases (h : q.Wf) (hint : Hint) :
    ((q.push hint).1 = false ∧ BoundedFifo.accepts q.bounds.rules q.hints hint = false ∧
        (q.push hint).2.live = q.live ∧ (q.push hint).2.generation = q.generation) ∨
      ∃ index, (q.push hint).1 = true ∧ BoundedFifo.accepts q.bounds.rules q.hints hint = true ∧
        (q.push hint).2.live =
          BoundedFifo.kept q.bounds.slotRules q.live ⟨index, hint⟩ ++ [⟨index, hint⟩] ∧
        (q.push hint).2.generation =
          update q.generation index (q.generation index + 1) := by
  have hfind := @find?_hints q fun b => decide (q.bounds.rules.place b = q.bounds.rules.place hint)
  unfold push BoundedFifo.accepts
  by_cases hlarge : q.bounds.maxBytes < q.bounds.estimatedBytes hint
  · have hcost : decide (q.bounds.rules.cost hint ≤ q.bounds.rules.budget) = false :=
      decide_eq_false (not_le.mpr hlarge)
    rw [if_pos hlarge, hcost, Bool.false_and]
    exact .inl ⟨rfl, rfl, rfl, rfl⟩
  · have hcost : decide (q.bounds.rules.cost hint ≤ q.bounds.rules.budget) = true :=
      decide_eq_true (not_lt.mp hlarge)
    rw [if_neg hlarge, hcost, Bool.true_and, hfind]
    cases hf : q.live.find? fun slot =>
        decide ((slot.hint.target, slot.hint.req.key) = (hint.target, hint.req.key)) with
    | none =>
      have hf' : (q.live.find? fun s =>
        decide (q.bounds.rules.place s.hint = q.bounds.rules.place hint)) = none := hf
      rw [hf']
      obtain ⟨index, hlive, hgen⟩ := exists_insert_eq q hint
      refine .inr ⟨index, rfl, rfl, ?_, hgen⟩
      have herase : (q.live.eraseP fun slot => decide (q.bounds.slotRules.place slot =
          q.bounds.slotRules.place ⟨index, hint⟩)) = q.live :=
        eraseP_of_forall_not (List.find?_eq_none.mp hf)
      rw [hlive, kept, herase]
      rfl
    | some slot =>
      have hf' : (q.live.find? fun s =>
        decide (q.bounds.rules.place s.hint = q.bounds.rules.place hint)) = some slot := hf
      rw [hf', Option.map_some, Option.all_some]
      have hrule : q.bounds.rules.newer hint slot.hint = isNewerThan hint.req slot.hint.req := rfl
      rw [hrule]
      dsimp only
      cases isNewerThan hint.req slot.hint.req with
      | false => exact .inl ⟨rfl, rfl, rfl, rfl⟩
      | true =>
        obtain ⟨index, hlive, hgen⟩ := exists_insert_eq (q.unlinkAndRelease slot.index) hint
        refine .inr ⟨index, rfl, rfl, ?_, hgen⟩
        show ((q.unlinkAndRelease slot.index).insert hint).live = _
        rw [hlive, kept]
        show room _ _ (q.live.eraseP _) ++ _ = _
        rw [eraseP_eq_of_find? h.nodup hf]
        rfl

theorem hints_push (h : q.Wf) (hint : Hint) :
    (q.push hint).2.hints = BoundedFifo.push q.bounds.rules q.hints hint := by
  rw [push_eq]
  rcases push_cases h hint with ⟨-, haccepts, hlive, -⟩ | ⟨index, -, haccepts, hlive, -⟩
  · rw [haccepts, if_neg (by decide), hints, hlive]
    rfl
  · rw [haccepts, if_pos rfl, hints, hlive, map_append, map_singleton,
      kept_map q.bounds.slotRules_respects]
    rfl

theorem push_bounds (q : HintQueue) (hint : Hint) : (q.push hint).2.bounds = q.bounds := by
  have hinsert : ∀ q : HintQueue, (q.insert hint).bounds = q.bounds := by
    intro q
    simp only [insert, acquireSlot]
    split <;> exact evictOldest_bounds _ _ q
  unfold push
  split
  · rfl
  · split
    · split
      · rfl
      · exact hinsert _
    · exact hinsert _

def Bounded (q : HintQueue) : Prop := BoundedFifo.Bounded q.bounds.rules q.hints

theorem Wf.insert (h : q.Wf) (hint : Hint)
    (hfits : q.bounds.estimatedBytes hint ≤ q.bounds.maxBytes) : (q.insert hint).Wf := by
  have hlen : q.hints.length ≤ kHintCapacity := by
    rw [hints, length_map]
    exact h.length_le.trans h.inArray
  have hroom := (room_fits (R := q.bounds.rules) kHintCapacity_pos hfits hlen).1
  rw [← hints_evictOldest _ le_rfl, hints, length_map] at hroom
  exact (wf_evictOldest _ _ h).link hroom hint _

theorem Wf.push (h : q.Wf) (hint : Hint) : (q.push hint).2.Wf := by
  unfold HintQueue.push
  split
  · exact ⟨h.slots, h.inArray⟩
  · rename_i hfits
    rw [not_lt] at hfits
    split
    · rename_i slot hfind
      split
      · exact h
      · exact (h.unlinkAndRelease (mem_of_find?_eq_some hfind)).insert hint hfits
    · exact h.insert hint hfits

theorem Bounded.push (h : q.Wf) (hb : q.Bounded) (hint : Hint) : (q.push hint).2.Bounded := by
  rw [Bounded, hints_push h, push_bounds]
  exact BoundedFifo.Bounded.push kHintCapacity_pos hb hint

/-! ## 4. Removals and snapshots -/

theorem live_removeMatching (h : q.Wf) (target : NodeId) (key : Key) (version : UInt64) :
    (q.removeMatching target key version).live =
      q.live.eraseP fun slot => IsFor target key version slot.hint := by
  unfold removeMatching
  split
  · rename_i slot hfind
    exact eraseP_eq_of_find? h.nodup hfind
  · rename_i hnone
    exact (eraseP_of_forall_not (List.find?_eq_none.mp hnone)).symm

theorem hints_removeMatching (h : q.Wf) (target : NodeId) (key : Key) (version : UInt64) :
    (q.removeMatching target key version).hints = q.hints.eraseP (IsFor target key version) := by
  rw [hints, live_removeMatching h, hints, eraseP_map]
  rfl

theorem removeMatching_generation (q : HintQueue) (target : NodeId) (key : Key) (version : UInt64) :
    (q.removeMatching target key version).generation = q.generation := by
  unfold removeMatching
  split <;> rfl

theorem Wf.removeMatching (h : q.Wf) (target : NodeId) (key : Key) (version : UInt64) :
    (q.removeMatching target key version).Wf := by
  unfold HintQueue.removeMatching
  split
  · rename_i slot hfind
    exact h.unlinkAndRelease (mem_of_find?_eq_some hfind)
  · exact h

theorem removeMatching_bounds (q : HintQueue) (target : NodeId) (key : Key) (version : UInt64) :
    (q.removeMatching target key version).bounds = q.bounds := by
  unfold removeMatching
  split <;> rfl

def slotOf (q : HintQueue) (handle : HintHandle) : Option HintSlot :=
  if handle.index < kHintCapacity ∧ q.generation handle.index = handle.generation then
    q.live.find? fun slot => slot.index = handle.index
  else none

theorem removeHandle_eq (q : HintQueue) (handle : HintHandle) :
    q.removeHandle handle =
      match q.slotOf handle with
      | some slot => q.unlinkAndRelease slot.index
      | none => q := by
  unfold removeHandle slotOf
  by_cases hindex : kHintCapacity ≤ handle.index
  · rw [if_pos hindex, if_neg fun h => absurd h.1 (not_lt.mpr hindex)]
  · rw [if_neg hindex]
    by_cases hgen : q.generation handle.index = handle.generation
    · rw [if_pos (c := handle.index < kHintCapacity ∧ _) ⟨not_le.mp hindex, hgen⟩]
      cases hfind : q.live.find? fun slot => decide (slot.index = handle.index) with
      | none =>
        refine if_neg fun hany => ?_
        obtain ⟨slot, hslot, heq⟩ := any_eq_true.mp hany.1
        exact List.find?_eq_none.mp hfind slot hslot heq
      | some slot =>
        have hmatch := List.find?_some hfind
        have hslot : slot.index = handle.index := by simpa using hmatch
        have hany : (q.live.any fun slot => decide (slot.index = handle.index)) = true :=
          any_eq_true.mpr ⟨slot, mem_of_find?_eq_some hfind, hmatch⟩
        dsimp only
        rw [hslot]
        exact if_pos ⟨hany, hgen⟩
    · rw [if_neg fun h => hgen h.2, if_neg fun h => hgen h.2]

theorem mem_of_slotOf {handle : HintHandle} {slot : HintSlot} (h : q.slotOf handle = some slot) :
    slot ∈ q.live := by
  unfold slotOf at h
  split at h
  · exact mem_of_find?_eq_some h
  · cases h

theorem Wf.removeHandle (h : q.Wf) (handle : HintHandle) : (q.removeHandle handle).Wf := by
  rw [removeHandle_eq]
  cases hslot : q.slotOf handle with
  | none => exact h
  | some slot => exact h.unlinkAndRelease (mem_of_slotOf hslot)

theorem removeHandle_bounds (q : HintQueue) (handle : HintHandle) :
    (q.removeHandle handle).bounds = q.bounds := by
  rw [removeHandle_eq]
  split <;> rfl

def entryOf (q : HintQueue) (slot : HintSlot) : Hint × HintHandle :=
  (slot.hint, ⟨slot.index, q.generation slot.index⟩)

def expiredSlot (now : Nanos) (slot : HintSlot) : Bool := decide (slot.hint.expiresAt ≤ now)

theorem snapshotLoop_spec (now : Nanos) (done : List HintSlot) {rest : List HintSlot} (h : q.Wf)
    (hlive : q.live = done ++ rest) (room : Nat) :
    (snapshotLoop now rest room q).1 =
        (BoundedFifo.sweep (expiredSlot now) room rest).1.map q.entryOf ∧
      (snapshotLoop now rest room q).2.live =
        done ++ (BoundedFifo.sweep (expiredSlot now) room rest).2 ∧
      (snapshotLoop now rest room q).2.generation = q.generation ∧
      (snapshotLoop now rest room q).2.bounds = q.bounds ∧ (snapshotLoop now rest room q).2.Wf := by
  induction rest generalizing q done room with
  | nil => exact ⟨rfl, hlive, rfl, rfl, h⟩
  | cons slot rest ih =>
    cases room with
    | zero => exact ⟨rfl, hlive, rfl, rfl, h⟩
    | succ room =>
      rw [snapshotLoop, sweep]
      by_cases hexp : slot.hint.expiresAt ≤ now
      · have hrest := h.live_unlinkAndRelease hlive
        have hmem : slot ∈ q.live := by simp [hlive]
        have hw := h.unlinkAndRelease hmem
        rw [if_pos hexp, if_pos (c := expiredSlot now slot = true) (decide_eq_true hexp)]
        exact ih done hw hrest (room + 1)
      · have hnext : q.live = (done ++ [slot]) ++ rest := by rw [hlive]; simp
        have hlives : ¬ expiredSlot now slot = true := by simpa [expiredSlot] using hexp
        obtain ⟨hfst, hsnd, hkeep⟩ := ih (done ++ [slot]) h hnext room
        rw [if_neg hexp, if_neg hlives]
        dsimp only
        rw [hfst, hsnd, append_assoc]
        exact ⟨rfl, rfl, hkeep⟩

theorem snapshotLoop_of_unexpired (now : Nanos) (slots : List HintSlot) (room : Nat)
    (h : ∀ slot ∈ slots, now < slot.hint.expiresAt) :
    snapshotLoop now slots room q =
      ((slots.take room).map fun slot =>
        (slot.hint, ⟨slot.index, q.generation slot.index⟩), q) := by
  induction slots generalizing room with
  | nil => simp [snapshotLoop]
  | cons slot rest ih =>
    cases room with
    | zero => simp [snapshotLoop]
    | succ room =>
      have hlive : ¬ slot.hint.expiresAt ≤ now := not_le.mpr (h slot mem_cons_self)
      rw [snapshotLoop, if_neg hlive, ih room fun s hs => h s (mem_cons_of_mem _ hs)]
      rfl

theorem snapshot_of_unexpired {now : Nanos} (h : ∀ hint ∈ q.hints, now < hint.expiresAt)
    (maxEntries : Nat) :
    q.snapshot now maxEntries =
      ((q.live.take maxEntries).map fun slot => (slot.hint, ⟨slot.index, q.generation slot.index⟩),
        q) := snapshotLoop_of_unexpired now q.live maxEntries fun slot hslot =>
    h slot.hint (mem_map_of_mem hslot)

end HintQueue

/-- A hint of a version for node 1, with 30 seconds left at time 0. -/
def smallHint (version : UInt64) : Hint :=
  ⟨[1], { opcode := .replicate, key := [2], version := version }, 30000000000⟩

end Cinder
