/-
The queue of undelivered writes as the class keeps it
(`include/cinder/node/hint_queue.hpp`): an array of slots, a doubly linked list through them,
a free list, a high-water mark, and counters beside them.

The members of the slots are five functions of the index. An index outside the array, a read of
an empty slot and a walk that does not end give `none`. The `size_t` counters are numbers.
-/
import Cinder.Lib.LinkedChain
import Cinder.Node.HintQueue

namespace Cinder

open LinkedChain List Function Option HintQueue HintSlot

def kHintNone : Nat := kHintCapacity

structure HintArray where
  bounds : HintBounds
  hint : Nat → Option Hint := fun _ => none
  prev : Nat → Nat := fun _ => kHintNone
  next : Nat → Nat := fun _ => kHintNone
  freeNext : Nat → Nat := fun _ => kHintNone
  generation : Nat → UInt64 := fun _ => 0
  nextUnused : Nat := 0
  freeHead : Nat := kHintNone
  head : Nat := kHintNone
  tail : Nat := kHintNone
  size : Nat := 0
  currentBytes : Nat := 0
  peakBytes : Nat := 0
  dropped : Nat := 0

namespace HintArray

/-! ## 1. The operations -/

/-- `(*slots_)[index]`. -/
def inArray (index : Nat) : Option Nat := if index < kHintCapacity then some index else none

/-- The peak; the counters of the metrics are copies of the members. -/
def publishMetrics (c : HintArray) : HintArray :=
  { c with peakBytes := max c.peakBytes c.currentBytes }

def acquireSlot (c : HintArray) : Option (Nat × HintArray) :=
  if c.freeHead ≠ kHintNone then do
    let index ← inArray c.freeHead
    some (index, { c with
      freeHead := c.freeNext index
      freeNext := update c.freeNext index kHintNone })
  else some (c.nextUnused, { c with nextUnused := c.nextUnused + 1 })

/-- The link to what comes behind `before`, or the head. -/
def linkNext (c : HintArray) (before m : Nat) : Option HintArray :=
  if before ≠ kHintNone then do
    let slot ← inArray before
    some { c with next := update c.next slot m }
  else some { c with head := m }

/-- The link to what comes before `behind`, or the tail. -/
def linkPrev (c : HintArray) (behind m : Nat) : Option HintArray :=
  if behind ≠ kHintNone then do
    let slot ← inArray behind
    some { c with prev := update c.prev slot m }
  else some { c with tail := m }

def linkAtTail (c : HintArray) (index : Nat) : Option HintArray := do
  let slot ← inArray index
  let c := { c with
    prev := update c.prev slot c.tail
    next := update c.next slot kHintNone }
  let c ← c.linkNext c.tail slot
  some { c with tail := slot }

def unlinkAndRelease (c : HintArray) (index : Nat) : Option HintArray := do
  let slot ← inArray index
  let hint ← c.hint slot
  let c := { c with currentBytes := c.currentBytes - c.bounds.estimatedBytes hint }
  let c ← c.linkNext (c.prev slot) (c.next slot)
  let c ← c.linkPrev (c.next slot) (c.prev slot)
  some { c with
    hint := update c.hint slot none
    prev := update c.prev slot kHintNone
    next := update c.next slot kHintNone
    freeNext := update c.freeNext slot c.freeHead
    freeHead := slot
    size := c.size - 1 }

/-- The walks of `push` and `remove(target, req)`: the first slot from `index` on whose hint
matches. -/
def findSlot (c : HintArray) (p : Hint → Bool) : (fuel : Nat) → (index : Nat) → Option (Option Nat)
  | 0, _ => none
  | fuel + 1, index =>
    if index = kHintNone then some none
    else do
      let slot ← inArray index
      let hint ← c.hint slot
      if p hint then some (some slot) else c.findSlot p fuel (c.next slot)

def walkFuel : Nat := kHintCapacity + 1

def evictOldest (incoming : Nat) : (fuel : Nat) → HintArray → Option HintArray
  | 0, _ => none
  | fuel + 1, c =>
    if c.size = kHintCapacity ∨ c.bounds.maxBytes < c.currentBytes + incoming then do
      let c ← c.unlinkAndRelease c.head
      evictOldest incoming fuel { c with dropped := c.dropped + 1 }
    else some c

variable (c : HintArray)

/-- The end of `push`: the hint goes into a slot, and the slot to the tail. -/
def enqueue (hint : Hint) : Option HintArray := do
  let (index, c) ← c.acquireSlot
  let slot ← inArray index
  let c := { c with
    generation := update c.generation slot (c.generation slot + 1)
    currentBytes := c.currentBytes + c.bounds.estimatedBytes hint
    hint := update c.hint slot (some hint) }
  let c ← c.linkAtTail slot
  some (publishMetrics { c with size := c.size + 1 })

/-- `push` behind the search for a hint of the same target and key. -/
def insert (hint : Hint) : Option HintArray := do
  let c ← evictOldest (c.bounds.estimatedBytes hint) walkFuel c
  c.enqueue hint

def findSame (hint : Hint) : Option (Option Nat) :=
  if 0 < c.size then
    c.findSlot (fun queued => (queued.target, queued.req.key) = (hint.target, hint.req.key))
      walkFuel c.head
  else some none

def push (hint : Hint) : Option (Bool × HintArray) :=
  if c.bounds.maxBytes < c.bounds.estimatedBytes hint then
    some (false, publishMetrics { c with dropped := c.dropped + 1 })
  else do
    let found ← c.findSame hint
    match found with
    | some index =>
      let queued ← c.hint index
      if !HintQueue.isNewerThan hint.req queued.req then some (false, c)
      else do
        let c ← c.unlinkAndRelease index
        (c.insert hint).map fun c => (true, c)
    | none => (c.insert hint).map fun c => (true, c)

/-- The loop of `snapshot`, with what may still be collected. -/
def snapshotLoop (now : Nanos) :
    (fuel : Nat) → (index room : Nat) → HintArray → Option (List (Hint × HintHandle) × HintArray)
  | 0, _, _, _ => none
  | fuel + 1, index, room, c =>
    if index ≠ kHintNone ∧ 0 < room then do
      let slot ← inArray index
      let next := c.next slot
      let hint ← c.hint slot
      if hint.expiresAt ≤ now then do
        let c ← c.unlinkAndRelease slot
        snapshotLoop now fuel next room c
      else do
        let r ← snapshotLoop now fuel next (room - 1) c
        some ((hint, ⟨slot, c.generation slot⟩) :: r.1, r.2)
    else some ([], c)

variable (c : HintArray)

def snapshot (now : Nanos) (maxEntries : Nat) : Option (List (Hint × HintHandle) × HintArray) :=
  (snapshotLoop now walkFuel c.head maxEntries c).map fun r => (r.1, publishMetrics r.2)

/-- `remove(Handle)`. -/
def removeHandle (handle : HintHandle) : Option HintArray :=
  if kHintCapacity ≤ handle.index then some c
  else if (c.hint handle.index).isNone ∨ c.generation handle.index ≠ handle.generation then some c
  else (c.unlinkAndRelease handle.index).map publishMetrics

/-- `remove(target, req)`. -/
def removeMatching (target : NodeId) (key : Key) (version : UInt64) :
    Option HintArray := do
  let found ← c.findSlot (HintQueue.IsFor target key version) walkFuel c.head
  match found with
  | some index => (c.unlinkAndRelease index).map publishMetrics
  | none => some c

def setMaxBytes (maxBytes : Nat) : HintArray :=
  { c with bounds := { c.bounds with maxBytes := maxBytes } }

/-! ## 2. What the array represents -/

/-- **The array holds this queue.** -/
structure Represents (q : HintQueue) : Prop where
  bounds : c.bounds = q.bounds
  next : Chain kHintNone c.next c.head (q.live.map HintSlot.index)
  prev : Chain kHintNone c.prev c.tail (q.live.map HintSlot.index).reverse
  free : Chain kHintNone c.freeNext c.freeHead q.freeSlots
  held : ∀ slot ∈ q.live, c.hint slot.index = some slot.hint
  empty : ∀ i, i ∉ q.live.map HintSlot.index → c.hint i = none
  generation : c.generation = q.generation
  nextUnused : c.nextUnused = q.nextUnused
  size : c.size = q.live.length
  bytes : c.currentBytes = q.currentBytes
  dropped : c.dropped = q.dropped
  peak : c.currentBytes ≤ c.peakBytes

theorem represents_empty (bounds : HintBounds) :
    Represents { bounds := bounds } { bounds := bounds } where
  bounds := rfl
  next := rfl
  prev := rfl
  free := rfl
  held _ hslot := absurd hslot not_mem_nil
  empty _ _ := rfl
  generation := rfl
  nextUnused := rfl
  size := rfl
  bytes := rfl
  dropped := rfl
  peak := le_rfl

variable {c : HintArray} {q : HintQueue}

theorem inArray_of_lt {index : Nat} (h : index < kHintCapacity) : inArray index = some index :=
  if_pos h

theorem linkNext_eq {before : Nat} (h : before = kHintNone ∨ before < kHintCapacity)
    (c : HintArray) (m : Nat) : c.linkNext before m = some { c with
      head := (relink kHintNone before m c.head c.next).1
      next := (relink kHintNone before m c.head c.next).2 } := by
  unfold linkNext relink
  by_cases hnone : before = kHintNone
  · rw [if_neg (not_not.mpr hnone), if_neg (not_not.mpr hnone)]
  · rw [if_pos hnone, if_pos hnone, inArray_of_lt (h.resolve_left hnone)]
    rfl

theorem linkPrev_eq {behind : Nat} (h : behind = kHintNone ∨ behind < kHintCapacity)
    (c : HintArray) (m : Nat) : c.linkPrev behind m = some { c with
      tail := (relink kHintNone behind m c.tail c.prev).1
      prev := (relink kHintNone behind m c.tail c.prev).2 } := by
  unfold linkPrev relink
  by_cases hnone : behind = kHintNone
  · rw [if_neg (not_not.mpr hnone), if_neg (not_not.mpr hnone)]
  · rw [if_pos hnone, if_pos hnone, inArray_of_lt (h.resolve_left hnone)]
    rfl

variable {slot : HintSlot} {l : List HintSlot} {fuel : Nat}

theorem slot_lt (h : q.Wf) {i : Nat} (hi : i ∈ q.live.map HintSlot.index ++ q.freeSlots) :
    i < kHintCapacity :=
  (mem_range.mp (h.slots.subset hi)).trans_le h.inArray

theorem index_lt (h : q.Wf) (hslot : slot ∈ q.live) : slot.index < kHintCapacity :=
  slot_lt h (mem_append_left _ (mem_map_of_mem hslot))

theorem end_inArray {o : Option Nat} (h : ∀ i ∈ o, ∃ slot ∈ l, slot.index = i)
    (hlt : ∀ slot ∈ l, slot.index < kHintCapacity) :
    o.getD kHintNone = kHintNone ∨ o.getD kHintNone < kHintCapacity := by
  cases o with
  | none => exact .inl rfl
  | some i =>
    obtain ⟨slot, hslot, rfl⟩ := h i rfl
    exact .inr (hlt slot hslot)

/-! ## 3. Releasing a slot -/

theorem exists_split (hw : q.Wf) (hslot : slot ∈ q.live) :
    ∃ l₁ l₂, q.live = l₁ ++ slot :: l₂ ∧ (q.unlinkAndRelease slot.index).live = l₁ ++ l₂ ∧
      slot.index ∉ (l₁ ++ l₂).map HintSlot.index ∧
      (l₁.map HintSlot.index ++ slot.index :: l₂.map HintSlot.index).Nodup := by
  obtain ⟨l₁, l₂, hlive⟩ := append_of_mem hslot
  have hnodup := hw.nodup
  rw [hlive, map_append, map_cons] at hnodup
  refine ⟨l₁, l₂, hlive, hw.live_unlinkAndRelease hlive, ?_, hnodup⟩
  rw [map_append]
  exact (nodup_cons.mp (nodup_middle.mp hnodup)).1

section Split

variable {l₁ l₂ : List HintSlot} {slot : HintSlot}

theorem Represents.chains (h : Represents c q) (hlive : q.live = l₁ ++ slot :: l₂) :
    Chain kHintNone c.next c.head
        (l₁.map HintSlot.index ++ slot.index :: l₂.map HintSlot.index) ∧
      Chain kHintNone c.prev c.tail
        ((l₂.map HintSlot.index).reverse ++ slot.index :: (l₁.map HintSlot.index).reverse) := by
  have hnext := h.next
  have hprev := h.prev
  rw [hlive, map_append, map_cons] at hnext hprev
  rw [reverse_append, reverse_cons, append_assoc, singleton_append] at hprev
  exact ⟨hnext, hprev⟩

theorem Represents.around (h : Represents c q) (hlive : q.live = l₁ ++ slot :: l₂) :
    c.prev slot.index = (l₁.map HintSlot.index).getLast?.getD kHintNone ∧
      c.next slot.index = (l₂.map HintSlot.index).head?.getD kHintNone := by
  obtain ⟨hnext, hprev⟩ := h.chains hlive
  refine ⟨?_, hnext.rest.head_eq⟩
  rw [← head?_reverse]
  exact hprev.rest.head_eq

def unlinked (c : HintArray) (slot : HintSlot) : HintArray :=
  { c with
    currentBytes := c.currentBytes - c.bounds.estimatedBytes slot.hint
    head := (relink kHintNone (c.prev slot.index) (c.next slot.index) c.head c.next).1
    tail := (relink kHintNone (c.next slot.index) (c.prev slot.index) c.tail c.prev).1
    hint := update c.hint slot.index none
    prev := update (relink kHintNone (c.next slot.index) (c.prev slot.index) c.tail c.prev).2
      slot.index kHintNone
    next := update (relink kHintNone (c.prev slot.index) (c.next slot.index) c.head c.next).2
      slot.index kHintNone
    freeNext := update c.freeNext slot.index c.freeHead
    freeHead := slot.index
    size := c.size - 1 }

theorem Represents.neighbours (h : Represents c q) (hw : q.Wf) (hlive : q.live = l₁ ++ slot :: l₂)
    (hnodup : (l₁.map HintSlot.index ++ slot.index :: l₂.map HintSlot.index).Nodup) :
    (c.prev slot.index = kHintNone ∨ c.prev slot.index < kHintCapacity) ∧
      (c.next slot.index = kHintNone ∨ c.next slot.index < kHintCapacity) ∧
      slot.index ≠ c.prev slot.index := by
  obtain ⟨hprev, hnext⟩ := h.around hlive
  have hlt : ∀ s ∈ q.live, s.index < kHintCapacity := fun s hs => index_lt hw hs
  rw [hlive] at hlt
  refine ⟨?_, ?_, ?_⟩
  · rw [hprev]
    exact end_inArray (fun i hi => mem_map.mp (mem_of_getLast? hi))
      fun s hs => hlt s (mem_append_left _ hs)
  · rw [hnext]
    exact end_inArray (fun i hi => mem_map.mp (mem_of_head? hi))
      fun s hs => hlt s (mem_append_right _ (mem_cons_of_mem _ hs))
  · intro hself
    rw [hprev] at hself
    cases hlast : (l₁.map index).getLast? with
    | none =>
      rw [hlast] at hself
      exact (hlt slot (mem_append_right _ mem_cons_self)).ne hself
    | some i =>
      rw [hlast, getD_some] at hself
      exact (nodup_append.mp hnodup).2.2 i (mem_of_getLast? hlast) _ mem_cons_self hself.symm

theorem unlinkAndRelease_eq (h : Represents c q) (hw : q.Wf) (hlive : q.live = l₁ ++ slot :: l₂)
    (hnodup : (l₁.map HintSlot.index ++ slot.index :: l₂.map HintSlot.index).Nodup) :
    c.unlinkAndRelease slot.index = some (c.unlinked slot) := by
  have hslot : slot ∈ q.live := by simp [hlive]
  obtain ⟨hprevIn, hnextIn, hself⟩ := h.neighbours hw hlive hnodup
  have hreread : (relink kHintNone (c.prev slot.index) (c.next slot.index) c.head c.next).2
      slot.index = c.next slot.index := by
    unfold relink
    split
    · exact update_of_ne hself _ _
    · rfl
  unfold unlinkAndRelease
  rw [inArray_of_lt (index_lt hw hslot)]
  simp only [bind_eq_bind, bind_some, h.held slot hslot]
  rw [linkNext_eq hprevIn, bind_some]
  dsimp only
  rw [hreread, linkPrev_eq hnextIn, bind_some]
  rfl

end Split

theorem unlinkAndRelease_represents (h : Represents c q) (hw : q.Wf) (hslot : slot ∈ q.live) :
    ∃ c', c.unlinkAndRelease slot.index = some c' ∧
      Represents c' (q.unlinkAndRelease slot.index) := by
  obtain ⟨l₁, l₂, hlive, hrest, hout, hnodup⟩ := exists_split hw hslot
  obtain ⟨hprev, hnext⟩ := h.around hlive
  have hfree : slot.index ∉ q.freeSlots := fun hi =>
    (nodup_append.mp hw.nodup_slots).2.2 _ (mem_map_of_mem hslot) _ hi rfl
  have hsum : q.currentBytes =
      (q.unlinkAndRelease slot.index).currentBytes + q.bounds.estimatedBytes slot.hint := by
    show ((q.live.map HintSlot.hint).map _).sum =
      (((q.unlinkAndRelease slot.index).live.map HintSlot.hint).map q.bounds.estimatedBytes).sum + _
    rw [hrest, hlive]
    simp only [map_append, map_cons, sum_append, sum_cons]
    omega
  refine ⟨c.unlinked slot, unlinkAndRelease_eq h hw hlive hnodup, ?_⟩
  refine ⟨h.bounds, ?_, ?_, ?_, ?_, ?_, h.generation, h.nextUnused, ?_, ?_, h.dropped, ?_⟩
  · have hchain := (h.chains hlive).1.without hnodup kHintNone
    rwa [← hprev, ← map_append, ← hrest] at hchain
  · have hback := nodup_reverse.mpr hnodup
    rw [reverse_append, reverse_cons, append_assoc, singleton_append] at hback
    have hchain := (h.chains hlive).2.without hback kHintNone
    rwa [getLast?_reverse, ← hnext, ← reverse_append, ← map_append, ← hrest] at hchain
  · exact h.free.cons (index_lt hw hslot).ne hfree
  · intro s hs
    rw [hrest] at hs
    have hne : s.index ≠ slot.index := fun e => hout (e ▸ mem_map_of_mem hs)
    refine (update_of_ne hne _ _).trans (h.held s ?_)
    rw [hlive]
    exact ((sublist_cons_self slot l₂).append_left l₁).subset hs
  · intro i hi
    rw [hrest] at hi
    show update c.hint slot.index none i = none
    by_cases hi' : i = slot.index
    · rw [hi', update_self]
    · rw [update_of_ne hi']
      refine h.empty i fun hmem => hi ?_
      rw [hlive, map_append, map_cons] at hmem
      have hmem' := mem_of_ne_of_mem hi' (perm_middle.subset hmem)
      rwa [map_append]
  · show c.size - 1 = (q.unlinkAndRelease slot.index).live.length
    rw [hrest, h.size, hlive]
    simp only [length_append, length_cons]
    omega
  · show c.currentBytes - c.bounds.estimatedBytes slot.hint = _
    rw [h.bytes, h.bounds, hsum]
    exact Nat.add_sub_cancel _ _
  · exact (Nat.sub_le _ _).trans h.peak

/-! ## 4. The walks -/

theorem findSlot_eq (p : Hint → Bool) {index : Nat}
    (hchain : Chain kHintNone c.next index (l.map HintSlot.index))
    (hheld : ∀ slot ∈ l, c.hint slot.index = some slot.hint)
    (hlt : ∀ slot ∈ l, slot.index < kHintCapacity) (hfuel : l.length < fuel) :
    c.findSlot p fuel index = some ((l.find? fun slot => p slot.hint).map HintSlot.index) := by
  induction l generalizing index fuel with
  | nil =>
    cases fuel with
    | zero => cases hfuel
    | succ fuel => exact if_pos hchain
  | cons slot l ih =>
    cases fuel with
    | zero => cases hfuel
    | succ fuel =>
      obtain ⟨hhead, hne, hrest⟩ := hchain
      subst hhead
      have hmem : slot ∈ slot :: l := mem_cons_self
      rw [findSlot, if_neg hne, inArray_of_lt (hlt slot hmem)]
      simp only [bind_eq_bind, bind_some, hheld slot hmem]
      cases hp : p slot.hint with
      | true =>
        rw [if_pos rfl, List.find?_cons_of_pos (by simpa using hp)]
        rfl
      | false =>
        rw [if_neg (by decide), List.find?_cons_of_neg (by simp [hp])]
        exact ih hrest (fun s hs => hheld s (mem_cons_of_mem _ hs))
          (fun s hs => hlt s (mem_cons_of_mem _ hs)) (Nat.lt_of_succ_lt_succ hfuel)

theorem Represents.findSlot (h : Represents c q) (hw : q.Wf) (p : Hint → Bool) :
    c.findSlot p walkFuel c.head =
      some ((q.live.find? fun slot => p slot.hint).map HintSlot.index) :=
  findSlot_eq p h.next h.held (fun _ hs => index_lt hw hs)
    (Nat.lt_succ_of_le (hw.length_le.trans hw.inArray))

theorem evictOldest_represents {incoming : Nat} (hincoming : incoming ≤ c.bounds.maxBytes)
    (h : Represents c q) (hw : q.Wf) (hfuel : q.live.length < fuel) :
    ∃ c', evictOldest incoming fuel c = some c' ∧
      Represents c' (HintQueue.evictOldest incoming q.live.length q) := by
  induction hlen : q.live.length generalizing c q fuel with
  | zero =>
    have hbytes : c.currentBytes = 0 := by
      rw [h.bytes, HintQueue.currentBytes, HintQueue.hints, length_eq_zero_iff.mp hlen]
      rfl
    have hsize : c.size ≠ kHintCapacity := by
      rw [h.size, hlen]
      exact kHintCapacity_pos.ne
    cases fuel with
    | zero => omega
    | succ fuel =>
      refine ⟨c, if_neg (not_or.mpr ⟨hsize, ?_⟩), h⟩
      rw [hbytes, zero_add]
      exact not_lt.mpr hincoming
  | succ n ih =>
    cases fuel with
    | zero => omega
    | succ fuel =>
      rw [evictOldest, HintQueue.evictOldest, h.size, h.bytes, h.bounds]
      by_cases hfull : q.live.length = kHintCapacity ∨ q.bounds.maxBytes < q.currentBytes + incoming
      · rw [if_pos hfull, if_pos hfull]
        cases hlive : q.live with
        | nil =>
          rw [hlive] at hlen
          cases hlen
        | cons slot rest =>
          have hslot : slot ∈ q.live := by simp [hlive]
          have hhead : c.head = slot.index := by
            have hnext := h.next
            rw [hlive] at hnext
            exact hnext.1
          obtain ⟨c', hc', hrep⟩ := unlinkAndRelease_represents h hw hslot
          obtain ⟨l₁, l₂, hsplit, hrest, -⟩ := exists_split hw hslot
          have hshort : (q.unlinkAndRelease slot.index).live.length = n := by
            have hlen' := congrArg List.length hsplit
            rw [length_append, length_cons] at hlen'
            rw [hrest, length_append]
            omega
          rw [hhead, hc']
          have hdropped : Represents { c' with dropped := c'.dropped + 1 }
              { q.unlinkAndRelease slot.index with dropped := q.dropped + 1 } :=
            { hrep with dropped := congrArg (· + 1) hrep.dropped }
          have hbudget : incoming ≤ c'.bounds.maxBytes := by
            rw [hrep.bounds]
            exact h.bounds ▸ hincoming
          have hwr := hw.unlinkAndRelease hslot
          have hfuel' : (q.unlinkAndRelease slot.index).live.length < fuel := by omega
          exact ih (c := { c' with dropped := c'.dropped + 1 }) hbudget hdropped
            ⟨hwr.slots, hwr.inArray⟩ hfuel' hshort
      · rw [if_neg hfull, if_neg hfull]
        exact ⟨c, rfl, h⟩

/-! ## 5. A new hint -/

theorem Represents.publishMetrics (h : Represents c q) : Represents c.publishMetrics q :=
  { h with peak := le_max_right _ _ }

theorem acquireSlot_represents (h : Represents c q) (hw : q.Wf) :
    ∃ c', c.acquireSlot = some (q.acquireSlot.1, c') ∧ Represents c' q.acquireSlot.2 := by
  unfold acquireSlot HintQueue.acquireSlot
  cases hfree : q.freeSlots with
  | nil =>
    have hnone : c.freeHead = kHintNone := by
      have hchain := h.free
      rw [hfree] at hchain
      exact hchain
    rw [if_neg (not_not.mpr hnone), h.nextUnused]
    exact ⟨_, rfl, { h with free := hnone, nextUnused := rfl }⟩
  | cons index rest =>
    have hchain := h.free
    rw [hfree] at hchain
    obtain ⟨hhead, hne, hrest⟩ := hchain
    have hin : inArray c.freeHead = some index := by
      rw [hhead]
      exact inArray_of_lt (slot_lt hw (by simp [hfree]))
    have hnodup := hw.nodup_slots
    rw [hfree, nodup_append] at hnodup
    have hout : index ∉ rest := (nodup_cons.mp hnodup.2.1).1
    rw [if_pos (by rwa [hhead]), hin]
    exact ⟨_, rfl, { h with free := hrest.update_off hout _ }⟩

theorem acquireSlot_not_mem (hw : q.Wf) : q.acquireSlot.1 ∉ q.live.map HintSlot.index := by
  intro hmem
  unfold HintQueue.acquireSlot at hmem
  split at hmem
  · rename_i index rest hfree
    exact (nodup_append.mp hw.nodup_slots).2.2 _ hmem _ (by simp [hfree]) rfl
  · have hrange := hw.slots.subset (mem_append_left _ hmem)
    exact lt_irrefl _ (mem_range.mp hrange)

theorem Represents.tail_eq (h : Represents c q) :
    c.tail = (q.live.map HintSlot.index).getLast?.getD kHintNone := by
  rw [← head?_reverse]
  exact h.prev.head_eq

def linked (c : HintArray) (slot : Nat) (hint : Hint) : HintArray :=
  { c with
    generation := update c.generation slot (c.generation slot + 1)
    currentBytes := c.currentBytes + c.bounds.estimatedBytes hint
    hint := update c.hint slot (some hint)
    prev := update c.prev slot c.tail
    head := (relink kHintNone c.tail slot c.head (update c.next slot kHintNone)).1
    next := (relink kHintNone c.tail slot c.head (update c.next slot kHintNone)).2
    tail := slot
    size := c.size + 1
    peakBytes := max c.peakBytes (c.currentBytes + c.bounds.estimatedBytes hint) }

theorem enqueue_eq {c' : HintArray} {slot : Nat} (hacquire : c.acquireSlot = some (slot, c'))
    (hslot : slot < kHintCapacity) (htail : c'.tail = kHintNone ∨ c'.tail < kHintCapacity)
    (hint : Hint) : c.enqueue hint = some (c'.linked slot hint) := by
  unfold enqueue linkAtTail
  rw [hacquire]
  simp only [bind_eq_bind, bind_some, inArray_of_lt hslot]
  rw [linkNext_eq htail]
  rfl

theorem linked_represents (h : Represents c q) {slot : Nat} (hslot : slot < kHintCapacity)
    (hout : slot ∉ q.live.map HintSlot.index) (hnodup : (q.live.map HintSlot.index).Nodup)
    (hint : Hint) : Represents (c.linked slot hint)
      { q with
        generation := update q.generation slot (q.generation slot + 1)
        live := q.live ++ [⟨slot, hint⟩] } := by
  have hne : slot ≠ kHintNone := hslot.ne
  have hmap : (q.live ++ [(⟨slot, hint⟩ : HintSlot)]).map index = q.live.map index ++ [slot] := by
    rw [map_append, map_singleton]
  refine ⟨h.bounds, ?_, ?_, h.free, ?_, ?_, ?_, h.nextUnused, ?_, ?_, h.dropped, le_max_right _ _⟩
  · -- the slot is a chain of its own, and the last link is made to point at it
    have hold : Chain kHintNone (update c.next slot kHintNone) c.head (q.live.map index ++ []) := by
      rw [append_nil]
      exact h.next.update_off hout kHintNone
    have hnew : Chain kHintNone (update c.next slot kHintNone) slot [slot] :=
      ⟨rfl, hne, update_self ..⟩
    have hchain := hold.relink hnew (nodup_append.mpr ⟨hnodup, nodup_singleton _, by
      intro i hi j hj
      rw [mem_singleton.mp hj]
      exact fun e => hout (e ▸ hi)⟩)
    rw [← h.tail_eq] at hchain
    rw [hmap]
    exact hchain
  · rw [hmap, reverse_append, reverse_singleton, singleton_append]
    exact h.prev.cons hne (mt mem_reverse.mp hout)
  · intro s hs
    show update c.hint slot (some hint) s.index = _
    rcases mem_append.mp hs with hs | hs
    · have hother : s.index ≠ slot := fun e => hout (e ▸ mem_map_of_mem hs)
      rw [update_of_ne hother]
      exact h.held s hs
    · rw [mem_singleton.mp hs, update_self]
  · intro i hi
    rw [hmap, mem_append, not_or] at hi
    show update c.hint slot (some hint) i = none
    rw [update_of_ne fun e => hi.2 (mem_singleton.mpr e)]
    exact h.empty i hi.1
  · show update c.generation slot (c.generation slot + 1) = _
    rw [h.generation]
  · show c.size + 1 = (q.live ++ [_]).length
    rw [h.size, length_append, length_singleton]
  · show c.currentBytes + c.bounds.estimatedBytes hint =
      (((q.live ++ [(⟨slot, hint⟩ : HintSlot)]).map HintSlot.hint).map q.bounds.estimatedBytes).sum
    rw [h.bytes, h.bounds, HintQueue.currentBytes, HintQueue.hints]
    simp

theorem enqueue_represents (h : Represents c q) (hw : q.Wf) (hroom : q.live.length < kHintCapacity)
    (hint : Hint) : ∃ c', c.enqueue hint = some c' ∧ Represents c'
      { q.acquireSlot.2 with
        generation := update q.acquireSlot.2.generation q.acquireSlot.1
          (q.acquireSlot.2.generation q.acquireSlot.1 + 1)
        live := q.acquireSlot.2.live ++ [⟨q.acquireSlot.1, hint⟩] } := by
  have hmem : (⟨q.acquireSlot.1, hint⟩ : HintSlot) ∈
    q.acquireSlot.2.live ++ [⟨q.acquireSlot.1, hint⟩] :=
    mem_append_right _ mem_cons_self
  have hslot : q.acquireSlot.1 < kHintCapacity := index_lt (hw.link hroom hint q.generation) hmem
  have hlive := acquireSlot_live q
  obtain ⟨c', hc', hrep⟩ := acquireSlot_represents h hw
  have htail : c'.tail = kHintNone ∨ c'.tail < kHintCapacity := by
    rw [hrep.tail_eq, hlive]
    exact end_inArray (fun i hi => mem_map.mp (mem_of_getLast? hi)) fun s hs => index_lt hw hs
  refine ⟨_, enqueue_eq hc' hslot htail hint, linked_represents hrep hslot ?_ ?_ hint⟩
  · rw [hlive]
    exact acquireSlot_not_mem hw
  · rw [hlive]
    exact hw.nodup

theorem insert_represents (h : Represents c q) (hw : q.Wf) {hint : Hint}
    (hfits : q.bounds.estimatedBytes hint ≤ q.bounds.maxBytes) :
    ∃ c', c.insert hint = some c' ∧ Represents c' (q.insert hint) := by
  have hlen : q.live.length ≤ kHintCapacity := hw.length_le.trans hw.inArray
  have hroom := (BoundedFifo.room_fits (R := q.bounds.slotRules) kHintCapacity_pos hfits hlen).1
  rw [← live_evictOldest _ le_rfl] at hroom
  have hbudget : q.bounds.estimatedBytes hint ≤ c.bounds.maxBytes := by rwa [h.bounds]
  have hfuel : q.live.length < walkFuel := Nat.lt_succ_of_le hlen
  obtain ⟨c₁, hc₁, hrep⟩ := evictOldest_represents hbudget h hw hfuel
  obtain ⟨c₂, hc₂, hrep'⟩ := enqueue_represents hrep (wf_evictOldest _ _ hw) hroom hint
  refine ⟨c₂, ?_, hrep'⟩
  rw [HintArray.insert, h.bounds, hc₁]
  exact hc₂

/-! ## 6. The operations of the class -/

theorem findSame_eq (h : Represents c q) (hw : q.Wf) (hint : Hint) :
    c.findSame hint =
      some ((q.live.find? fun slot => decide ((slot.hint.target, slot.hint.req.key) =
        (hint.target, hint.req.key))).map HintSlot.index) := by
  unfold findSame
  split
  · exact h.findSlot hw _
  · rename_i hsize
    have hnil : q.live = [] := length_eq_zero_iff.mp (by have := h.size; omega)
    rw [hnil]
    rfl

theorem push_represents (h : Represents c q) (hw : q.Wf) (hint : Hint) :
    ∃ c', c.push hint = some ((q.push hint).1, c') ∧ Represents c' (q.push hint).2 := by
  have hbounds := h.bounds
  unfold push HintQueue.push
  by_cases hlarge : q.bounds.maxBytes < q.bounds.estimatedBytes hint
  · rw [if_pos (hbounds ▸ hlarge), if_pos hlarge]
    have hdropped : Represents { c with dropped := c.dropped + 1 }
        { q with dropped := q.dropped + 1 } := { h with dropped := congrArg (· + 1) h.dropped }
    exact ⟨_, rfl, hdropped.publishMetrics⟩
  · have hfits := not_lt.mp hlarge
    rw [if_neg (hbounds ▸ hlarge), if_neg hlarge, findSame_eq h hw]
    simp only [bind_eq_bind, bind_some]
    cases hfind : q.live.find? fun slot => decide ((slot.hint.target, slot.hint.req.key) =
        (hint.target, hint.req.key)) with
    | none =>
      obtain ⟨c', hc', hrep⟩ := insert_represents h hw hfits
      refine ⟨c', ?_, hrep⟩
      simp only [map_none, hc', map_some]
    | some slot =>
      have hslot := mem_of_find?_eq_some hfind
      simp only [map_some, h.held slot hslot, bind_some]
      cases isNewerThan hint.req slot.hint.req with
      | false => exact ⟨c, rfl, h⟩
      | true =>
        obtain ⟨c₁, hc₁, hrep⟩ := unlinkAndRelease_represents h hw hslot
        obtain ⟨c₂, hc₂, hrep'⟩ := insert_represents hrep (hw.unlinkAndRelease hslot) hfits
        refine ⟨c₂, ?_, hrep'⟩
        simp only [Bool.not_true, Bool.false_eq_true, if_false, hc₁, bind_some, hc₂, map_some]

theorem snapshotLoop_represents (now : Nanos) (done : List HintSlot) {rest : List HintSlot}
    (h : Represents c q) (hw : q.Wf) (hlive : q.live = done ++ rest) (room : Nat)
    (hfuel : rest.length < fuel) :
    ∃ c', snapshotLoop now fuel ((rest.map HintSlot.index).head?.getD kHintNone) room c =
        some ((HintQueue.snapshotLoop now rest room q).1, c') ∧
      Represents c' (HintQueue.snapshotLoop now rest room q).2 := by
  induction rest generalizing c q done room fuel with
  | nil =>
    cases fuel with
    | zero => cases hfuel
    | succ fuel => exact ⟨c, if_neg fun hne => hne.1 rfl, h⟩
  | cons slot rest ih =>
    cases fuel with
    | zero => cases hfuel
    | succ fuel =>
      cases room with
      | zero => exact ⟨c, if_neg fun hpos => absurd hpos.2 (lt_irrefl 0), h⟩
      | succ room =>
        have hslot : slot ∈ q.live := by simp [hlive]
        have hlt := index_lt hw hslot
        have hnext := (h.around hlive).2
        have hfuel' : rest.length < fuel := Nat.lt_of_succ_lt_succ hfuel
        rw [map_cons, head?_cons, getD_some, snapshotLoop,
          HintQueue.snapshotLoop, if_pos ⟨hlt.ne, Nat.succ_pos room⟩, inArray_of_lt hlt]
        simp only [bind_eq_bind, bind_some, h.held slot hslot, hnext]
        by_cases hexp : slot.hint.expiresAt ≤ now
        · obtain ⟨c', hc', hrep⟩ := unlinkAndRelease_represents h hw hslot
          have hrest := hw.live_unlinkAndRelease hlive
          rw [if_pos hexp, if_pos hexp, hc', bind_some]
          exact ih done hrep (hw.unlinkAndRelease hslot) hrest (room + 1) hfuel'
        · obtain ⟨c', hc', hrep⟩ := ih (done ++ [slot]) h hw (by simp [hlive]) room hfuel'
          rw [if_neg hexp, if_neg hexp, Nat.add_sub_cancel, hc', bind_some]
          exact ⟨c', by rw [h.generation], hrep⟩

section

variable (h : Represents c q)

include h

theorem snapshot_represents (hw : q.Wf) (now : Nanos) (maxEntries : Nat) :
    ∃ c', c.snapshot now maxEntries = some ((q.snapshot now maxEntries).1, c') ∧
      Represents c' (q.snapshot now maxEntries).2 := by
  have hfuel : q.live.length < walkFuel := Nat.lt_succ_of_le (hw.length_le.trans hw.inArray)
  obtain ⟨c', hc', hrep⟩ := snapshotLoop_represents now [] h hw rfl maxEntries hfuel
  refine ⟨_, ?_, hrep.publishMetrics⟩
  rw [snapshot, h.next.head_eq, hc']
  rfl

theorem removeHandle_represents (hw : q.Wf) (handle : HintHandle) :
    ∃ c', c.removeHandle handle = some c' ∧ Represents c' (q.removeHandle handle) := by
  unfold removeHandle HintQueue.removeHandle
  by_cases hindex : kHintCapacity ≤ handle.index
  · rw [if_pos hindex, if_pos hindex]
    exact ⟨c, rfl, h⟩
  · rw [if_neg hindex, if_neg hindex, h.generation]
    by_cases hmem : handle.index ∈ q.live.map index
    · obtain ⟨slot, hslot, heq⟩ := mem_map.mp hmem
      have hany : (q.live.any fun slot => decide (slot.index = handle.index)) = true :=
        any_eq_true.mpr ⟨slot, hslot, decide_eq_true heq⟩
      by_cases hgen : q.generation handle.index = handle.generation
      · obtain ⟨c', hc', hrep⟩ := unlinkAndRelease_represents h hw hslot
        rw [heq] at hc' hrep
        have hholds : ¬ ((c.hint handle.index).isNone = true ∨
            q.generation handle.index ≠ handle.generation) := by
          rw [← heq, h.held slot hslot, heq]
          simp [hgen]
        rw [if_neg hholds, if_pos ⟨hany, hgen⟩, hc']
        exact ⟨_, rfl, hrep.publishMetrics⟩
      · rw [if_pos (.inr hgen), if_neg fun hboth => hgen hboth.2]
        exact ⟨c, rfl, h⟩
    · have hnone : ¬ (q.live.any fun slot => decide (slot.index = handle.index)) = true := by
        intro hany
        obtain ⟨slot, hslot, heq⟩ := any_eq_true.mp hany
        exact hmem (of_decide_eq_true heq ▸ mem_map_of_mem hslot)
      rw [if_pos (.inl (by rw [h.empty _ hmem]; rfl)), if_neg fun hboth => hnone hboth.1]
      exact ⟨c, rfl, h⟩

theorem removeMatching_represents (hw : q.Wf) (target : NodeId) (key : Key) (version : UInt64) :
    ∃ c', c.removeMatching target key version = some c' ∧
      Represents c' (q.removeMatching target key version) := by
  unfold removeMatching HintQueue.removeMatching
  rw [h.findSlot hw]
  simp only [bind_eq_bind, bind_some]
  cases hfind : q.live.find? fun slot => HintQueue.IsFor target key version slot.hint with
  | none => exact ⟨c, rfl, h⟩
  | some slot =>
    obtain ⟨c', hc', hrep⟩ := unlinkAndRelease_represents h hw (mem_of_find?_eq_some hfind)
    refine ⟨_, ?_, hrep.publishMetrics⟩
    simp only [map_some, hc']

end

end HintArray

end Cinder
