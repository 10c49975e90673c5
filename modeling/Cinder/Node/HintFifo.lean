/-
The queue of undelivered writes against the list it is meant to be: a bounded queue
with one hint per target and key, whose hints are handed out by snapshots and taken back by
the handles the snapshots gave.

Below stands the class (`HintArray`) with the handles it has given out; above stands the queue
with tickets (`Tickets.Queue`). A handle is a slot and a 64-bit generation; handle and ticket
part when a slot is filled 2^64 times between a snapshot and the completion
(`HintFifo.InTime`).
-/
import Cinder.Lib.Tickets
import Cinder.Node.HintArray

namespace Cinder

open Tickets List Function HintQueue BoundedFifo UInt64

inductive HintOp where
  | push (hint : Hint)
  | snapshot (now : Nanos) (maxEntries : Nat)
  /-- `remove(Handle)` with the handle that snapshots gave out in this place. -/
  | complete (n : Nat)
  | remove (target : NodeId) (req : Request)
  | setMaxBytes (maxBytes : Nat)
  deriving DecidableEq, Repr

inductive HintOut where
  | pushed (taken : Bool)
  | hints (l : List Hint)
  | done
  deriving DecidableEq, Repr

/-! ## 1. The two machines -/

/-- The class, and the handles its snapshots have given out so far. -/
structure HintClient where
  array : HintArray
  handles : List HintHandle := []

namespace HintClient

def step (c : HintClient) : HintOp → Option (HintOut × HintClient)
  | .push hint => (c.array.push hint).map fun r => (.pushed r.1, { c with array := r.2 })
  | .snapshot now maxEntries => (c.array.snapshot now maxEntries).map fun r =>
      (.hints (r.1.map Prod.fst), { array := r.2, handles := c.handles ++ r.1.map Prod.snd })
  | .complete n => (c.array.removeHandle (c.handles.getD n {})).map fun array =>
      (.done, { c with array := array })
  | .remove target req => (c.array.removeMatching target req.key req.version).map fun array =>
      (.done, { c with array := array })
  | .setMaxBytes maxBytes => some (.done, { c with array := c.array.setMaxBytes maxBytes })

def run : HintClient → List HintOp → Option (List HintOut × HintClient)
  | c, [] => some ([], c)
  | c, op :: ops => do
    let r ← c.step op
    let rest ← run r.2 ops
    some (r.1 :: rest.1, rest.2)

def start (bounds : HintBounds) : HintClient := { array := { bounds := bounds } }

end HintClient

/-- The queue the class is meant to be. -/
structure HintFifo where
  bounds : HintBounds
  queue : Queue Hint := {}
  deriving DecidableEq, Repr

namespace HintFifo

def expired (now : Nanos) (hint : Hint) : Bool := decide (hint.expiresAt ≤ now)

def step (a : HintFifo) : HintOp → HintOut × HintFifo
  | .push hint =>
    (.pushed (a.queue.push a.bounds.rules hint).1,
      { a with queue := (a.queue.push a.bounds.rules hint).2 })
  | .snapshot now maxEntries =>
    (.hints (a.queue.handOut (expired now) maxEntries).1,
      { a with queue := (a.queue.handOut (expired now) maxEntries).2 })
  | .complete n => (.done, { a with queue := a.queue.redeem n })
  | .remove target req =>
    (.done, { a with queue := a.queue.removeFirst (HintQueue.IsFor target req.key req.version) })
  | .setMaxBytes maxBytes => (.done, { a with bounds := { a.bounds with maxBytes := maxBytes } })

def run : HintFifo → List HintOp → List HintOut × HintFifo
  | a, [] => ([], a)
  | a, op :: ops => ((a.step op).1 :: (run (a.step op).2 ops).1, (run (a.step op).2 ops).2)

def start (bounds : HintBounds) : HintFifo := { bounds := bounds }

/-- A completion comes before 2^64 hints were taken in since its snapshot. -/
def InTime (a : HintFifo) : HintOp → Prop
  | .complete n => ∀ issue ∈ a.queue.issued[n]?, a.queue.pushes < issue.pushes + UInt64.size
  | _ => True

def AllInTime : HintFifo → List HintOp → Prop
  | _, [] => True
  | a, op :: ops => a.InTime op ∧ AllInTime (a.step op).2 ops

/-! ## 2. Handles and tickets -/

/-- What ties a handle to the ticket it was issued with: the slot had been filled `born` times
when the handle was given out. `count` is how often each slot has been filled, `last` the
ticket of its last hint. -/
structure NamesAt (count last : Nat → Nat) (pushes : Nat) (live : List HintSlot)
    (handle : HintHandle) (issue : Issue) (born : Nat) : Prop where
  index : handle.index < kHintCapacity
  tag : handle.generation = UInt64.ofNat born
  born_le : born ≤ count handle.index
  since : count handle.index + issue.pushes ≤ born + pushes
  ticket : issue.ticket < pushes
  same : born = count handle.index → last handle.index = issue.ticket
  /-- Nothing else in the queue has the ticket. -/
  only : ∀ slot ∈ live, last slot.index = issue.ticket →
    slot.index = handle.index ∧ born = count handle.index

def ticketOf (last : Nat → Nat) (slot : HintSlot) : Nat × Hint := (last slot.index, slot.hint)

structure Tracked (q : HintQueue) (handles : List HintHandle) (a : Queue Hint)
    (count last : Nat → Nat) : Prop where
  generation : ∀ i, q.generation i = UInt64.ofNat (count i)
  entries : a.entries = q.live.map (ticketOf last)
  issues : List.Forall₂ (fun handle issue =>
    ∃ born, NamesAt count last a.pushes q.live handle issue born) handles a.issued

/-- **The class is at this queue.** -/
def Sim (c : HintClient) (a : HintFifo) : Prop :=
  ∃ q count last, HintArray.Represents c.array q ∧ q.Wf ∧ a.bounds = q.bounds ∧
    Tracked q c.handles a.queue count last ∧ a.queue.Wf a.bounds.rules

theorem sim_start (bounds : HintBounds) : Sim (HintClient.start bounds) (start bounds) :=
  ⟨{ bounds := bounds }, fun _ => 0, fun _ => 0, HintArray.represents_empty bounds,
    wf_empty bounds, rfl, ⟨fun _ => rfl, rfl, .nil⟩, Queue.wf_empty⟩

variable {q q' : HintQueue} {handles : List HintHandle} {a : Queue Hint} {count last : Nat → Nat}

theorem ticketed_respects (bounds : HintBounds) (last : Nat → Nat) :
    BoundedFifo.Respects bounds.slotRules (ticketed bounds.rules) (ticketOf last) where
  place _ := rfl
  newer _ _ := rfl
  cost _ := rfl
  capacity := rfl
  budget := rfl

theorem Tracked.shrink (h : Tracked q handles a count last) {a' : Queue Hint}
    (hgen : q'.generation = q.generation) (hlive : ∀ slot ∈ q'.live, slot ∈ q.live)
    (hentries : a'.entries = q'.live.map (ticketOf last)) (hpushes : a'.pushes = a.pushes)
    (hissued : a'.issued = a.issued) : Tracked q' handles a' count last where
  generation i := hgen ▸ h.generation i
  entries := hentries
  issues := by
    rw [hissued, hpushes]
    refine h.issues.imp fun handle issue hnames => ?_
    obtain ⟨born, hborn⟩ := hnames
    exact ⟨born, { hborn with only := fun slot hslot => hborn.only slot (hlive slot hslot) }⟩

/-! ## 3. The operations -/

theorem NamesAt.fill {pushes : Nat} {live live' : List HintSlot} {handle : HintHandle}
    {issue : Issue} {born index : Nat} {hint : Hint}
    (h : NamesAt count last pushes live handle issue born)
    (hold : ∀ slot ∈ live', slot ∈ live ∧ slot.index ≠ index) :
    NamesAt (update count index (count index + 1)) (update last index pushes)
      (pushes + 1) (live' ++ [⟨index, hint⟩]) handle issue born := by
  have hticket := h.ticket
  have hborn := h.born_le
  have hsince := h.since
  have honly : ∀ slot ∈ live' ++ [(⟨index, hint⟩ : HintSlot)],
      update last index pushes slot.index = issue.ticket →
        slot.index ≠ index ∧ slot.index = handle.index ∧ born = count handle.index := by
    intro slot hslot heq
    rcases mem_append.mp hslot with hslot | hslot
    · obtain ⟨hmem, hne⟩ := hold slot hslot
      rw [update_of_ne hne] at heq
      exact ⟨hne, h.only slot hmem heq⟩
    · -- the new hint has a ticket nobody had before
      rw [mem_singleton.mp hslot, update_self] at heq
      omega
  by_cases hindex : handle.index = index
  · refine ⟨h.index, h.tag, ?_, ?_, by omega, ?_, ?_⟩
    · rw [hindex] at hborn
      rw [hindex, update_self]
      omega
    · rw [hindex] at hsince
      rw [hindex, update_self]
      omega
    · intro heq
      rw [hindex] at heq hborn
      rw [update_self] at heq
      omega
    · intro slot hslot heq
      obtain ⟨hne, hsame, -⟩ := honly slot hslot heq
      exact absurd (hsame.trans hindex) hne
  · refine ⟨h.index, h.tag, ?_, ?_, by omega, ?_, ?_⟩
    · rwa [update_of_ne hindex]
    · rw [update_of_ne hindex]
      omega
    · rw [update_of_ne hindex, update_of_ne hindex]
      exact h.same
    · intro slot hslot heq
      rw [update_of_ne hindex]
      exact (honly slot hslot heq).2

theorem ofNat_succ (n : Nat) : UInt64.ofNat (n + 1) = UInt64.ofNat n + 1 := by
  rw [ofNat_add]
  rfl

theorem Tracked.push (h : Tracked q handles a count last) (hw : q.Wf) (hint : Hint) :
    (a.push q.bounds.rules hint).1 = (q.push hint).1 ∧
      ∃ count' last',
        Tracked (q.push hint).2 handles (a.push q.bounds.rules hint).2 count' last' := by
  have haccepts : BoundedFifo.accepts (ticketed q.bounds.rules) a.entries (a.pushes, hint) =
      BoundedFifo.accepts q.bounds.rules q.hints hint := by
    rw [h.entries, hints, accepts_map (a := ⟨0, hint⟩) q.bounds.slotRules_respects]
    exact accepts_map (ticketed_respects q.bounds last) q.live ⟨0, hint⟩
  have hwpush := hw.push hint
  rcases push_cases hw hint with ⟨hout, hrej, hlive, hgen⟩ | ⟨index, hout, hacc, hlive, hgen⟩
  · have hfalse :
        ¬ BoundedFifo.accepts (ticketed q.bounds.rules) a.entries (a.pushes, hint) = true := by
      rw [haccepts, hrej]
      decide
    rw [Queue.push_of_not_accepts hfalse, hout]
    refine ⟨rfl, count, last, h.shrink hgen (fun slot hslot => hlive ▸ hslot) ?_ rfl rfl⟩
    rw [hlive]
    exact h.entries
  · rw [Queue.push, haccepts, hacc, if_pos rfl, hout]
    have hnew : ∀ slot ∈ kept q.bounds.slotRules q.live ⟨index, hint⟩,
        slot ∈ q.live ∧ slot.index ≠ index := by
      intro slot hslot
      refine ⟨(kept_sublist _ _).subset hslot, ?_⟩
      have hnodup := hwpush.nodup
      rw [hlive, map_append, nodup_append] at hnodup
      exact hnodup.2.2 _ (mem_map_of_mem hslot) _ mem_cons_self
    refine ⟨rfl, update count index (count index + 1), update last index a.pushes, ?_, ?_, ?_⟩
    · intro i
      rw [hgen]
      by_cases hi : i = index
      · rw [hi, update_self, update_self, h.generation, ofNat_succ]
      · rw [update_of_ne hi, update_of_ne hi, h.generation]
    · have hkept := kept_map (ticketed_respects q.bounds last) q.live ⟨index, hint⟩
      have hsame : (kept q.bounds.slotRules q.live ⟨index, hint⟩).map
          (ticketOf (update last index a.pushes)) =
          (kept q.bounds.slotRules q.live ⟨index, hint⟩).map (ticketOf last) := by
        refine map_congr_left fun slot hslot => ?_
        rw [ticketOf, ticketOf, update_of_ne (hnew slot hslot).2]
      have hlast : ticketOf (update last index a.pushes) ⟨index, hint⟩ = (a.pushes, hint) := by
        rw [ticketOf, update_self]
      rw [hlive, map_append, hsame, hkept, ← h.entries, map_singleton, hlast]
      rfl
    · rw [hlive]
      refine h.issues.imp fun handle issue hnames => ?_
      obtain ⟨born, hborn⟩ := hnames
      exact ⟨born, hborn.fill hnew⟩

theorem namesAt_live (ha : a.Wf q.bounds.rules) (hw : q.Wf) (h : Tracked q handles a count last)
    {live' : List HintSlot} (hsub : ∀ slot ∈ live', slot ∈ q.live) {slot : HintSlot}
    (hslot : slot ∈ q.live) :
    NamesAt count last a.pushes live' (q.entryOf slot).2 ⟨(ticketOf last slot).1, a.pushes⟩
      (count slot.index) where
  index := HintArray.index_lt hw hslot
  tag := h.generation slot.index
  born_le := le_rfl
  since := le_rfl
  ticket := ha.old (ticketOf last slot) (h.entries ▸ mem_map_of_mem hslot)
  same _ := rfl
  only other hother heq := by
    have htickets := ha.tickets
    rw [h.entries, map_map] at htickets
    have hsame := inj_on_of_nodup_map htickets (hsub other hother) hslot heq
    rw [hsame]
    exact ⟨rfl, rfl⟩

theorem Tracked.snapshot (h : Tracked q handles a count last) (ha : a.Wf q.bounds.rules) (hw : q.Wf)
    (now : Nanos) (maxEntries : Nat) :
    (a.handOut (expired now) maxEntries).1 = (q.snapshot now maxEntries).1.map Prod.fst ∧
      Tracked (q.snapshot now maxEntries).2
        (handles ++ (q.snapshot now maxEntries).1.map Prod.snd)
        (a.handOut (expired now) maxEntries).2 count last := by
  obtain ⟨hfst, hlive, hgen, -, -⟩ := snapshotLoop_spec now [] hw rfl maxEntries
  rw [nil_append] at hlive
  have hsweep : sweep (fun e : Nat × Hint => expired now e.2) maxEntries a.entries =
      ((sweep (expiredSlot now) maxEntries q.live).1.map (ticketOf last),
        (sweep (expiredSlot now) maxEntries q.live).2.map (ticketOf last)) := by
    rw [h.entries]
    exact sweep_map (ticketOf last) maxEntries q.live
  obtain ⟨hcollected, hleft⟩ := sweep_sublist (expiredSlot now) maxEntries q.live
  generalize hr : sweep (expiredSlot now) maxEntries q.live = r at *
  unfold Queue.handOut HintQueue.snapshot
  rw [hsweep]
  refine ⟨?_, fun i => hgen ▸ h.generation i, ?_, ?_⟩
  · show (r.1.map (ticketOf last)).map Prod.snd = _
    rw [hfst, map_map, map_map]
    rfl
  · rw [hlive]
  · show List.Forall₂ _ _ (a.issued ++ (r.1.map (ticketOf last)).map _)
    rw [hlive, hfst, map_map, map_map]
    refine rel_append ?_ ?_
    · refine h.issues.imp fun handle issue hnames => ?_
      obtain ⟨born, hborn⟩ := hnames
      exact ⟨born, { hborn with only := fun slot hslot => hborn.only slot (hleft.subset hslot) }⟩
    · rw [forall₂_map_left_iff, forall₂_map_right_iff, forall₂_same]
      intro slot hslot
      exact ⟨_, namesAt_live ha hw h (fun s hs => hleft.subset hs)
        (hleft.subset (hcollected.subset hslot))⟩

theorem live_removeHandle (hw : q.Wf) (hgen : ∀ i, q.generation i = UInt64.ofNat (count i))
    {pushes : Nat} {handle : HintHandle} {issue : Issue} {born : Nat}
    (h : NamesAt count last pushes q.live handle issue born)
    (htime : pushes < issue.pushes + UInt64.size) :
    (q.removeHandle handle).live = q.live.filter fun slot => last slot.index ≠ issue.ticket := by
  have hborn := h.born_le
  have hsince := h.since
  -- fewer than 2^64 fillings lie between the two counts, so equal tags mean equal counts
  have htag : q.generation handle.index = handle.generation ↔ born = count handle.index := by
    rw [hgen, h.tag, ← UInt64.toNat_inj, UInt64.toNat_ofNat', UInt64.toNat_ofNat']
    have hsize : size = 2 ^ 64 := rfl
    omega
  rw [removeHandle_eq]
  cases hslot : q.slotOf handle with
  | some slot =>
    have hmem := mem_of_slotOf hslot
    unfold slotOf at hslot
    split at hslot
    · rename_i hvalid
      have hindex : slot.index = handle.index := by simpa using List.find?_some hslot
      have hticket : last slot.index = issue.ticket := by
        rw [hindex]
        exact h.same (htag.mp hvalid.2)
      obtain ⟨l₁, l₂, hlive, hrest, hout, -⟩ := HintArray.exists_split hw hmem
      have hkeep : ∀ s ∈ l₁ ++ l₂, decide (last s.index ≠ issue.ticket) = true := by
        intro s hs
        refine decide_eq_true fun heq => hout ?_
        have hs' : s ∈ q.live := by
          rw [hlive]
          exact ((sublist_cons_self slot l₂).append_left l₁).subset hs
        rw [hindex, ← (h.only s hs' heq).1]
        exact mem_map_of_mem hs
      rw [hrest, hlive, filter_append, filter_cons_of_neg (by simpa using hticket),
        ← filter_append, filter_eq_self.mpr hkeep]
    · cases hslot
  | none =>
    have hkeep : ∀ slot ∈ q.live, last slot.index ≠ issue.ticket := by
      intro slot hmem heq
      obtain ⟨hindex, hcount⟩ := h.only slot hmem heq
      unfold slotOf at hslot
      rw [if_pos ⟨h.index, htag.mpr hcount⟩] at hslot
      exact List.find?_eq_none.mp hslot slot hmem (decide_eq_true hindex)
    exact (filter_eq_self.mpr fun slot hmem => decide_eq_true (hkeep slot hmem)).symm

theorem Tracked.complete (h : Tracked q handles a count last) (hw : q.Wf) (n : Nat)
    (htime : ∀ issue ∈ a.issued[n]?, a.pushes < issue.pushes + UInt64.size) :
    Tracked (q.removeHandle (handles.getD n {})) handles (a.redeem n) count last := by
  have hgen : (q.removeHandle (handles.getD n {})).generation = q.generation := by
    rw [removeHandle_eq]
    split <;> rfl
  have hsub : ∀ slot ∈ (q.removeHandle (handles.getD n {})).live, slot ∈ q.live := by
    rw [removeHandle_eq]
    split
    · exact fun slot hslot => eraseP_sublist.subset hslot
    · exact fun slot hslot => hslot
  have hlen := h.issues.length_eq
  unfold Queue.redeem
  cases hissue : a.issued[n]? with
  | none =>
    -- there is no such handle: the default one lies outside the array
    have hdefault : handles.getD n {} = {} := by
      rw [getD_eq_default]
      rw [hlen]
      exact getElem?_eq_none_iff.mp hissue
    rw [hdefault] at hgen hsub ⊢
    exact h.shrink hgen hsub h.entries rfl rfl
  | some issue =>
    obtain ⟨hn, rfl⟩ := List.getElem?_eq_some_iff.mp hissue
    have hn' : n < handles.length := by rwa [hlen]
    obtain ⟨born, hnames⟩ : ∃ born,
      NamesAt count last a.pushes q.live handles[n] a.issued[n] born :=
      h.issues.get hn' hn
    rw [getD_eq_getElem _ _ hn'] at hgen hsub ⊢
    refine h.shrink hgen hsub ?_ rfl rfl
    show a.entries.filter _ = _
    rw [live_removeHandle hw h.generation hnames (htime _ hissue), h.entries, filter_map]
    rfl

theorem Tracked.remove (h : Tracked q handles a count last) (hw : q.Wf) (target : NodeId)
    (key : Key) (version : UInt64) :
    Tracked (q.removeMatching target key version) handles
      (a.removeFirst (HintQueue.IsFor target key version)) count last := by
  have hlive := live_removeMatching hw target key version
  refine h.shrink (removeMatching_generation q target key version) ?_ ?_ rfl rfl
  · intro slot hslot
    rw [hlive] at hslot
    exact eraseP_sublist.subset hslot
  · show a.entries.eraseP _ = _
    rw [hlive, h.entries, eraseP_map]
    rfl

variable {c : HintClient}

theorem step_sim {a : HintFifo} (h : Sim c a) (op : HintOp) (htime : a.InTime op) :
    ∃ c', c.step op = some ((a.step op).1, c') ∧ Sim c' (a.step op).2 := by
  obtain ⟨q, count, last, hrep, hw, hbounds, htracked, hqueue⟩ := h
  have hqueue' : a.queue.Wf q.bounds.rules := hbounds ▸ hqueue
  cases op with
  | push hint =>
    obtain ⟨array, harray, hrep'⟩ := HintArray.push_represents hrep hw hint
    obtain ⟨hout, count', last', htracked'⟩ := htracked.push hw hint
    refine ⟨{ c with array := array }, ?_, (q.push hint).2, count', last', hrep', hw.push hint, ?_,
      ?_, hqueue.push kHintCapacity_pos hint⟩
    · show (c.array.push hint).map _ = some (HintOut.pushed (a.queue.push a.bounds.rules hint).1, _)
      rw [harray, hbounds, hout]
      rfl
    · exact hbounds.trans (push_bounds q hint).symm
    · show Tracked _ _ (a.queue.push a.bounds.rules hint).2 _ _
      rw [hbounds]
      exact htracked'
  | snapshot now maxEntries =>
    obtain ⟨array, harray, hrep'⟩ := HintArray.snapshot_represents hrep hw now maxEntries
    obtain ⟨hout, htracked'⟩ := htracked.snapshot hqueue' hw now maxEntries
    obtain ⟨-, -, -, hsame, hw'⟩ := snapshotLoop_spec now [] hw rfl maxEntries
    refine ⟨⟨array, c.handles ++ (q.snapshot now maxEntries).1.map Prod.snd⟩, ?_,
      (q.snapshot now maxEntries).2, count, last, hrep', hw', hbounds.trans hsame.symm, htracked',
      hqueue.handOut _ _⟩
    show (c.array.snapshot now maxEntries).map _ = _
    rw [harray, HintFifo.step, hout]
    rfl
  | complete n =>
    obtain ⟨array, harray, hrep'⟩ := HintArray.removeHandle_represents hrep hw (c.handles.getD n {})
    refine ⟨{ c with array := array }, ?_, q.removeHandle (c.handles.getD n {}), count, last, hrep',
      hw.removeHandle _, hbounds.trans (removeHandle_bounds q _).symm, htracked.complete hw n htime,
      hqueue.redeem n⟩
    show (c.array.removeHandle _).map _ = _
    rw [harray]
    rfl
  | remove target req =>
    obtain ⟨array, harray, hrep'⟩ :=
      HintArray.removeMatching_represents hrep hw target req.key req.version
    refine ⟨{ c with array := array }, ?_, q.removeMatching target req.key req.version, count, last,
      hrep', hw.removeMatching _ _ _, hbounds.trans (removeMatching_bounds q _ _ _).symm,
      htracked.remove hw _ _ _, hqueue.removeFirst _⟩
    show (c.array.removeMatching _ _ _).map _ = _
    rw [harray]
    rfl
  | setMaxBytes maxBytes =>
    refine ⟨_, rfl, q.setMaxBytes maxBytes, count, last,
      { hrep with bounds := by rw [HintArray.setMaxBytes, setMaxBytes, hrep.bounds] },
      ⟨hw.slots, hw.inArray⟩, ?_,
      htracked.shrink rfl (fun _ hslot => hslot) htracked.entries rfl rfl,
      ⟨hqueue.places, hqueue.tickets, hqueue.old, hqueue.length⟩⟩
    show ({ a.bounds with maxBytes := maxBytes } : HintBounds) =
      { q.bounds with maxBytes := maxBytes }
    rw [hbounds]

theorem run_sim {a : HintFifo} (h : Sim c a) (ops : List HintOp) (htime : a.AllInTime ops) :
    ∃ c', c.run ops = some ((a.run ops).1, c') ∧ Sim c' (a.run ops).2 := by
  induction ops generalizing c a with
  | nil => exact ⟨c, rfl, h⟩
  | cons op ops ih =>
    obtain ⟨c₁, hc₁, hsim⟩ := step_sim h op htime.1
    obtain ⟨c₂, hc₂, hsim'⟩ := ih hsim htime.2
    refine ⟨c₂, ?_, hsim'⟩
    rw [HintClient.run, hc₁]
    simp only [Option.bind_eq_bind, Option.bind_some, hc₂]
    rfl

/-! ## 4. The class is the bounded queue -/

/-- The array shows the queue: its links in both directions, its size and its byte counter. -/
structure Shows (c : HintArray) (a : HintFifo) : Prop where
  links : ∃ slots, LinkedChain.Chain kHintNone c.next c.head slots ∧
    LinkedChain.Chain kHintNone c.prev c.tail slots.reverse ∧
    slots.map c.hint = a.queue.entries.map fun e => some e.2
  size : c.size = a.queue.entries.length
  bytes : c.currentBytes = (a.queue.entries.map fun e => a.bounds.estimatedBytes e.2).sum
  bounds : c.bounds = a.bounds

theorem Sim.shows {a : HintFifo} (h : Sim c a) : Shows c.array a := by
  obtain ⟨q, count, last, hrep, -, hbounds, htracked, -⟩ := h
  refine ⟨⟨q.live.map HintSlot.index, hrep.next, hrep.prev, ?_⟩, ?_, ?_,
    hrep.bounds.trans hbounds.symm⟩
  · rw [htracked.entries, map_map, map_map]
    exact map_congr_left hrep.held
  · rw [hrep.size, htracked.entries, length_map]
  · rw [hrep.bytes, htracked.entries, hbounds, map_map, currentBytes, hints, map_map]
    rfl

/-- What the queue does next, whatever comes. -/
structure Lawful (a : HintFifo) : Prop where
  /-- A hint may take the place of one that is not greater. -/
  newer : ∀ hint queued : Hint, a.bounds.rules.newer hint queued = true ↔
    queued.req.wireStamp ≤ hint.req.wireStamp
  onePerKey : (a.queue.entries.map fun e => (e.2.target, e.2.req.key)).Nodup
  onePerTicket : (a.queue.entries.map Prod.fst).Nodup
  push : ∀ hint, Queue.PushLaw a.bounds.rules a.queue hint
  snapshot : ∀ now maxEntries, Queue.HandOutLaw (expired now) maxEntries a.queue

theorem Sim.lawful {a : HintFifo} (h : Sim c a) : a.Lawful := by
  obtain ⟨-, -, -, -, -, -, -, hqueue⟩ := h
  exact ⟨fun _ _ => lwwCovers_iff, hqueue.places, hqueue.tickets,
    fun hint => hqueue.pushLaw kHintCapacity_pos hint, fun _ _ => Queue.handOutLaw _ _ _⟩

/-- **The queue of hints is a bounded queue with one hint per target and key**: along every sequence
of operations whose completions come in time it gives the answers of that queue, and its links, size
and byte counter are that queue's. -/
theorem hint_queue_refines_fifo (bounds : HintBounds) (ops : List HintOp)
    (htime : (start bounds).AllInTime ops) :
    ∃ c, (HintClient.start bounds).run ops = some (((start bounds).run ops).1, c) ∧
      Shows c.array ((start bounds).run ops).2 ∧
      ((start bounds).run ops).2.Lawful := by
  obtain ⟨c, hrun, hsim⟩ := run_sim (sim_start bounds) ops htime
  exact ⟨c, hrun, hsim.shows, hsim.lawful⟩

/-- A hint is handed out and replaced by a newer one in the same slot. -/
def reuseOps : List HintOp := [.push (smallHint 1), .snapshot 0 5, .push (smallHint 2), .complete 0]

/-- Then the completion of the first one comes, and the newer hint stays. -/
theorem hint_queue_refines_fifo_reuse :
    ((start ⟨200, 1000⟩).run reuseOps).2.queue.entries = [(1, smallHint 2)] ∧
      ∃ c, (HintClient.start ⟨200, 1000⟩).run reuseOps =
          some ([.pushed true, .hints [smallHint 1], .pushed true, .done], c) ∧
        c.array.size = 1 := by
  have hlate : ∀ issue ∈ (⟨[(1, smallHint 2)], 2, [⟨0, 1⟩]⟩ : Queue Hint).issued[0]?,
      2 < issue.pushes + size := by decide
  obtain ⟨c, hrun, hshows, -⟩ := hint_queue_refines_fifo ⟨200, 1000⟩ reuseOps
    ⟨trivial, trivial, trivial, hlate, trivial⟩
  exact ⟨by decide +kernel, c, hrun, hshows.size⟩

/-! ## 5. A slot that is filled 2^64 times -/

theorem push_refill {x y : Hint} (hlive : q.live = [⟨0, x⟩])
    (hplace : (x.target, x.req.key) = (y.target, y.req.key))
    (hnewer : HintQueue.isNewerThan y.req x.req = true)
    (hfits : q.bounds.estimatedBytes y ≤ q.bounds.maxBytes) : (q.push y).2 = { q with
      live := [⟨0, y⟩]
      generation := update q.generation 0 (q.generation 0 + 1) } := by
  have hfind : (q.live.find? fun slot => decide ((slot.hint.target, slot.hint.req.key) =
      (y.target, y.req.key))) = some ⟨0, x⟩ := by
    rw [hlive]
    exact List.find?_cons_of_pos (decide_eq_true hplace)
  have hempty : (q.unlinkAndRelease 0).live = [] := by
    show q.live.eraseP _ = []
    rw [hlive]
    rfl
  unfold HintQueue.push
  rw [if_neg (not_lt.mpr hfits), hfind]
  simp only [hnewer, Bool.not_true, Bool.false_eq_true, if_false]
  unfold HintQueue.insert
  rw [hempty]
  show ({ q with
    live := (q.unlinkAndRelease 0).live ++ [⟨0, y⟩]
    generation := update q.generation 0 (q.generation 0 + 1) } : HintQueue) = _
  rw [hempty, nil_append]

/-- One hint was pushed, and then a newer one so many times. -/
def refilled : Nat → HintQueue
  | 0 => (({ bounds := ⟨200, 1000⟩ } : HintQueue).push (smallHint 1)).2
  | n + 1 => ((refilled n).push (smallHint 2)).2

theorem refilled_spec (n : Nat) :
    (refilled n).bounds = ⟨200, 1000⟩ ∧
      (refilled n).live = [⟨0, if n = 0 then smallHint 1 else smallHint 2⟩] ∧
      (refilled n).generation 0 = UInt64.ofNat (n + 1) := by
  induction n with
  | zero => exact ⟨rfl, rfl, rfl⟩
  | succ n ih =>
    obtain ⟨hbounds, hlive, hgen⟩ := ih
    have hpush := push_refill (y := smallHint 2) hlive (by split <;> rfl)
      (by split <;> decide) (by rw [hbounds]; decide)
    rw [refilled, hpush]
    refine ⟨hbounds, rfl, ?_⟩
    rw [ofNat_succ, ← hgen]
    exact update_self (f := (refilled n).generation) 0 _

/-- **After 2^64 pushes the handle of the old hint removes the new one.** -/
theorem reused_tag_removes_newer :
    ((refilled 0).snapshot 0 1).1 = [(smallHint 1, ⟨0, 1⟩)] ∧
      (refilled UInt64.size).hints = [smallHint 2] ∧
      ((refilled UInt64.size).removeHandle ⟨0, 1⟩).hints = [] := by
  obtain ⟨-, hlive, hgen⟩ := refilled_spec size
  have hsize : size ≠ 0 := by decide
  have hwrap : ofNat (size + 1) = 1 := by decide
  rw [if_neg hsize] at hlive
  rw [hwrap] at hgen
  refine ⟨by decide +kernel, ?_⟩
  generalize refilled size = q at hlive hgen ⊢
  have hany : (q.live.any fun slot => decide (slot.index = 0)) = true := by
    rw [hlive]
    rfl
  refine ⟨by rw [hints, hlive]; rfl, ?_⟩
  rw [removeHandle, if_neg (not_le.mpr kHintCapacity_pos), if_pos ⟨hany, hgen⟩]
  show (q.live.eraseP _).map HintSlot.hint = []
  rw [hlive]
  rfl

end HintFifo

end Cinder
