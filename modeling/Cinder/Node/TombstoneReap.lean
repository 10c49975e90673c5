/-
Every way a tombstone gets into a store, and whether it is ever reaped: local and
versioned deletes, `handleReplicate` (`src/net/tcp/connection.cpp`), `applySync`, the self-heal
of a quorum read (`read_quorum.hpp`), and recovery (`src/store/persistence.cpp`).

Capacity eviction passes over tombstones, so only the wheel takes them out again, and the wheel
schedules what has the TTL flag. `removeVersioned` always sets it; the decoder of sync entries,
the read reducer and the two record formats take flag and marker as they come.
-/
import Cinder.Node.SyncCodec
import Cinder.Node.WireVersions
import Cinder.Store.Representation

namespace Cinder

open Transition List EvictionStore VersionedEntry

/-! ## 1. Entries with a deadline -/

def VersionedEntry.Deadlined (e : VersionedEntry) : Prop := e.isTombstone = true → e.hasTtl = true

variable {e : VersionedEntry} {clk : ClockReading}

theorem deadlined_of_live (h : e.isTombstone = false) : e.Deadlined :=
  fun htomb => absurd (h.symm.trans htomb) Bool.false_ne_true

theorem deadlined_of_ttl (h : e.hasTtl = true) : e.Deadlined := fun _ => h

theorem isTombstone_empty (value : Bytes) :
    VersionedEntry.isTombstone { value := value } = false := by
  show ((0 : UInt64) &&& 2 != 0) = false
  decide

theorem deadlined_putEntry (version : UInt64) (value : Bytes) (ttl : Option Nanos) (now : Nanos) :
    (EvictionStore.putEntry version value ttl now).Deadlined := by
  cases ttl with
  | some ttl => exact deadlined_of_ttl (hasTtl_setHasTtl _ true)
  | none =>
    exact deadlined_of_live ((isTombstone_setVersion _ _).trans (isTombstone_empty _))

theorem deadlined_writeEntry (clk : ClockReading) (version writer : UInt64) (value : Bytes)
    (ttl : Option Nanos) : (writeEntry clk version writer value ttl).Deadlined := by
  cases ttl with
  | some ttl => exact deadlined_of_ttl (hasTtl_setHasTtl _ true)
  | none => exact deadlined_of_live (congrArg LwwStamp.tombstone (stampOf_stampedEntry ..))

theorem deadlined_replicatedEntry (clk : ClockReading) (gc : Nanos) (req : Request) :
    (replicatedEntry clk gc req).Deadlined := by
  unfold replicatedEntry
  dsimp only
  split
  · split
    · rename_i hexp
      obtain ⟨t, ht⟩ := Option.isSome_iff_exists.mp hexp
      refine deadlined_of_ttl ?_
      rw [ht, hasTtl_setTombstone]
      exact hasTtl_setHasTtl _ true
    · exact deadlined_of_ttl (hasTtl_setHasTtl _ true)
  · cases req.expiresAt with
    | some t => exact deadlined_of_ttl (hasTtl_setHasTtl _ true)
    | none => exact deadlined_of_live (congrArg LwwStamp.tombstone (stampOf_stampedEntry ..))

theorem deadlined_ofWire {w : SyncEntry} (h : w.tombstone = true → w.hasTtl = true)
    (clk : ClockReading) : (w.ofWire clk).Deadlined := by
  unfold SyncEntry.ofWire
  split
  · exact deadlined_of_ttl (hasTtl_setHasTtl _ true)
  · rename_i hno
    refine deadlined_of_live ((isTombstone_setTombstone _ _).trans ?_)
    exact Bool.eq_false_iff.mpr (mt h hno)

theorem deadlined_votedEntry {res : Response}
    (h : res.tombstone = true → res.expiresAt.isSome = true)
    (clk : ClockReading) : (votedEntry clk res).Deadlined := by
  unfold votedEntry
  cases hexp : res.expiresAt with
  | some t => exact deadlined_of_ttl (hasTtl_setHasTtl _ true)
  | none =>
    refine deadlined_of_live ((isTombstone_setTombstone _ _).trans ?_)
    refine Bool.eq_false_iff.mpr fun htomb => ?_
    have hsome := h htomb
    rw [hexp] at hsome
    cases hsome

theorem deadlined_rebaseExpiry {ve : VersionedEntry} {hasTtl : Bool} {expiresAtMs : UInt64}
    (hve : ve.Deadlined) (h : rebaseExpiry clk ve hasTtl expiresAtMs = some e) : e.Deadlined := by
  unfold rebaseExpiry at h
  split at h
  · cases h
    exact hve
  · split at h
    · cases h
    · cases h
      exact hve

theorem deadlined_flags {ve : VersionedEntry} {hasTtl tombstone : Bool}
    (h : tombstone = true → hasTtl = true) :
    ((ve.setHasTtl hasTtl).setTombstone tombstone).Deadlined := by
  intro htomb
  rw [isTombstone_setTombstone] at htomb
  rw [hasTtl_setTombstone, hasTtl_setHasTtl]
  exact h htomb

/-! ## 2. Stores whose tombstones have a deadline -/

/-- The operation brings no tombstone without a TTL. -/
def StoreOp.Deadlined : StoreOp → Prop
  | .putVersioned _ entry _ => entry.Deadlined
  | _ => True

namespace EvictionStore

variable {cfg : StoreConfig} {s s' : EvictionStore cfg}

/-- Index, wheels and tombstones are in order. -/
structure Reapable (s : EvictionStore cfg) : Prop where
  store : s.Inv
  timed : s.AllTimed
  deadlined : ∀ i, ∀ c ∈ (s.shards i).cells, c.entry.Deadlined

theorem putVersionedAt_deadlined (hs : s.Inv)
    (h : ∀ i, ∀ c ∈ (s.shards i).cells, c.entry.Deadlined) {entry : VersionedEntry}
    (hentry : entry.Deadlined) (key : Key) (now : Nanos) (clk : ClockReading) :
    ∀ i, ∀ c ∈ ((s.putVersionedAt key entry now clk).2.shards i).cells, c.entry.Deadlined := by
  intro i c hc
  rcases mem_cells_putVersionedAt hs hc with hold | ⟨-, hnew⟩
  · exact h i c hold
  · exact hnew ▸ hentry

theorem apply_deadlined (h : s.Reapable) {op : StoreOp} (hop : op.Deadlined) :
    (s.apply op).Reapable := by
  refine ⟨apply_inv h.store op, apply_timed h.store h.timed op, ?_⟩
  cases op with
  | put key value ttl clk =>
    exact putVersionedAt_deadlined h.store.mint h.deadlined (deadlined_putEntry _ _ _ _) _ _ _
  | putVersioned key entry clk => exact putVersionedAt_deadlined h.store h.deadlined hop _ _ _
  | removeVersioned key version writer clk =>
    exact putVersionedAt_deadlined h.store h.deadlined
      (deadlined_of_ttl (hasTtl_setHasTtl _ true)) _ _ _
  | _ => exact fun i c hc => h.deadlined i c (Moves.cells_subset (apply_moves h.store rfl) i c hc)

theorem foldl_deadlined {ops : List StoreOp} (h : s.Reapable) (hops : ∀ op ∈ ops, op.Deadlined) :
    (ops.foldl apply s).Reapable := by
  induction ops generalizing s with
  | nil => exact h
  | cons op ops ih =>
    exact ih (apply_deadlined h (hops op mem_cons_self))
      fun op' hop' => hops op' (mem_cons_of_mem _ hop')

theorem getVersioned_deadlined (h : s.Reapable) {key : Key} {now : Nanos} {e : VersionedEntry}
    (he : (s.getVersioned key now).1 = some e) : e.Deadlined := by
  unfold getVersioned at he
  dsimp only at he
  split at he
  · cases he
  · rename_i n hf
    obtain ⟨hn, -⟩ := (h.store.shard _).find_eq.mp hf
    split at he
    · cases he
    · cases he
      exact h.deadlined _ n.toCell (mem_map_of_mem hn)

end EvictionStore

/-! ## 3. What reaches a store -/

/-- Everything that writes to a store. A read is open between `beginRead`, which votes with the
local entry, and the decision that heals. -/
inductive StoreInput where
  /-- a local operation other than a versioned put -/
  | operation (op : StoreOp)
  /-- the local part of a replicated write -/
  | write (key : Key) (version writer : UInt64) (value : Bytes) (ttl : Option Nanos)
      (clk : ClockReading)
  | replicate (req : Request) (clk : ClockReading)
  | sync (data : Bytes) (clk : ClockReading)
  | beginRead (key : Key) (now : Nanos)
  /-- the answers to an open read, each with the clock at its arrival -/
  | heal (read : Nat) (answers : List (ClockReading × Option Response)) (clk : ClockReading)
  /-- a snapshot, its frequencies with it, and the records of the log -/
  | recover (snapshot : List (SnapshotEntry × UInt64)) (log : List WalEntry) (clk : ClockReading)

/-- The operations of `applySync`: the look at the resident entry, then the put. -/
def syncOps (clk : ClockReading) (msg : SyncMessage) : List StoreOp :=
  msg.entries.flatMap fun w => [.getVersioned w.key clk.now, .putVersioned w.key (w.ofWire clk) clk]

def snapshotOps (clk : ClockReading) (se : SnapshotEntry × UInt64) : List StoreOp :=
  match versionedFromSnapshot clk se.1 with
  | none => []
  | some ve => .putVersioned se.1.key ve clk ::
      if 1 < se.2 then [.restoreFreq se.1.key se.2] else []

def replayOps (clk : ClockReading) (we : WalEntry) : List StoreOp :=
  match versionedFromWal clk we with
  | none => []
  | some ve =>
    match we.op with
    | .set => [.putVersioned we.key ve clk]
    | .del => [.remove we.key]

/-- The decision of a quorum read: the winner is put if some answer disagreed. -/
def healOps (key : Key) (localEntry : Option VersionedEntry)
    (answers : List (ClockReading × Option Response)) (clk : ClockReading) : List StoreOp :=
  -- only answers before the decision are folded; the number of reads asked for decides when it is
  let reducer := answers.foldl (fun q a => q.noteRemote a.1 a.2 true)
    (ReadReducer.start 1 answers.length localEntry)
  match reducer.bestEntry with
  | some winner => if reducer.needsRepair then [.putVersioned key winner clk] else []
  | none => []

/-- A store and the reads it has open: their keys and local votes. -/
structure ReachedStore (cfg : StoreConfig) where
  store : EvictionStore cfg
  reads : List (Key × Option VersionedEntry) := []

namespace ReachedStore

variable {cfg : StoreConfig} {s s' : ReachedStore cfg}

def start (cfg : StoreConfig) (capacityBytes : Nat) (now : Nanos) : ReachedStore cfg where
  store := .start cfg capacityBytes now

def run (s : ReachedStore cfg) (ops : List StoreOp) : ReachedStore cfg :=
  { s with store := ops.foldl EvictionStore.apply s.store }

def step (s : ReachedStore cfg) : StoreInput → Option (ReachedStore cfg)
  | .operation (.putVersioned _ _ _) => none
  | .operation op => some (s.run [op])
  | .write key version writer value ttl clk =>
    some (s.run [.putVersioned key (writeEntry clk version writer value ttl) clk])
  | .replicate req clk => some { s with store := s.store.applied (clk, req) }
  | .sync data clk =>
    match decodeSync data with
    | some msg => some (s.run (syncOps clk msg))
    | none => none
  | .beginRead key now =>
    let (localEntry, store) := s.store.getVersioned key now
    some { store, reads := s.reads ++ [(key, localEntry)] }
  | .heal read answers clk =>
    match s.reads[read]? with
    | some (key, localEntry) =>
      some { s.run (healOps key localEntry answers clk) with reads := s.reads.eraseIdx read }
    | none => none
  | .recover snapshot log clk =>
    some (s.run (snapshot.flatMap (snapshotOps clk) ++ log.flatMap (replayOps clk)))

end ReachedStore

/-- **The condition on a message**: a tombstone in it comes with an expiry. -/
def StoreInput.Deadlined : StoreInput → Prop
  | .sync data _ => ∀ msg ∈ decodeSync data, ∀ w ∈ msg.entries, w.tombstone = true → w.hasTtl = true
  | .heal _ answers _ => ∀ a ∈ answers, ∀ res ∈ a.2, res.tombstone = true →
      res.expiresAt.isSome = true
  | .recover snapshot log _ => (∀ se ∈ snapshot, se.1.tombstone = true → se.1.hasTtl = true) ∧
      ∀ we ∈ log, we.isTombstone = true → we.hasTtl = true
  | _ => True

/-! ## 4. Every message -/

theorem deadlined_syncOps {msg : SyncMessage}
    (h : ∀ w ∈ msg.entries, w.tombstone = true → w.hasTtl = true) :
    ∀ op ∈ syncOps clk msg, op.Deadlined := by
  intro op hop
  obtain ⟨w, hw, hop⟩ := mem_flatMap.mp hop
  rcases mem_cons.mp hop with rfl | hop
  · exact trivial
  · rw [mem_singleton.mp hop]
    exact deadlined_ofWire (h w hw) clk

theorem deadlined_snapshotOps {se : SnapshotEntry × UInt64}
    (h : se.1.tombstone = true → se.1.hasTtl = true) : ∀ op ∈ snapshotOps clk se, op.Deadlined := by
  unfold snapshotOps
  split
  · exact forall_mem_nil _
  · rename_i ve hve
    refine forall_mem_cons.mpr ⟨deadlined_rebaseExpiry (deadlined_flags h) hve, ?_⟩
    split
    · exact forall_mem_singleton.mpr trivial
    · exact forall_mem_nil _

theorem deadlined_replayOps {we : WalEntry} (h : we.isTombstone = true → we.hasTtl = true) :
    ∀ op ∈ replayOps clk we, op.Deadlined := by
  unfold replayOps
  split
  · exact forall_mem_nil _
  · rename_i ve hve
    split
    · exact forall_mem_singleton.mpr (deadlined_rebaseExpiry (deadlined_flags h) hve)
    · exact forall_mem_singleton.mpr trivial

variable {answers : List (ClockReading × Option Response)}

theorem deadlined_winner {q : ReadReducer} (hlocal : ∀ e, q.bestEntry = some e → e.Deadlined)
    (h : ∀ a ∈ answers, ∀ res ∈ a.2, res.tombstone = true → res.expiresAt.isSome = true) :
    ∀ e, (answers.foldl (fun q a => q.noteRemote a.1 a.2 true) q).bestEntry = some e →
      e.Deadlined := by
  induction answers generalizing q with
  | nil => exact hlocal
  | cons a answers ih =>
    refine ih (fun e he => ?_) fun b hb => h b (mem_cons_of_mem _ hb)
    rcases ReadReducer.noteRemote_cases q a.1 a.2 with ⟨-, hkeep, -⟩ |
      ⟨res, hres, -, -, -, -, hvote⟩
    · exact hlocal e (hkeep ▸ he)
    · rw [hvote] at he
      cases he
      exact deadlined_votedEntry (h a mem_cons_self res hres) a.1

theorem deadlined_healOps {key : Key} {localEntry : Option VersionedEntry}
    (hlocal : ∀ e, localEntry = some e → e.Deadlined)
    (h : ∀ a ∈ answers, ∀ res ∈ a.2, res.tombstone = true → res.expiresAt.isSome = true) :
    ∀ op ∈ healOps key localEntry answers clk, op.Deadlined := by
  have hstart : ∀ e, (ReadReducer.start 1 answers.length localEntry).bestEntry = some e →
      e.Deadlined := by
    intro e he
    refine hlocal e ?_
    cases localEntry with
    | none => cases he
    | some e' => exact he
  unfold healOps
  dsimp only
  split
  · rename_i winner hwinner
    split
    · exact forall_mem_singleton.mpr (deadlined_winner hstart h winner hwinner)
    · exact forall_mem_nil _
  · exact forall_mem_nil _

namespace ReachedStore

variable {cfg : StoreConfig} {s s' : ReachedStore cfg}

structure InOrder (s : ReachedStore cfg) : Prop where
  store : s.store.Reapable
  votes : ∀ r ∈ s.reads, ∀ e, r.2 = some e → e.Deadlined

theorem InOrder.run (h : s.InOrder) {ops : List StoreOp} (hops : ∀ op ∈ ops, op.Deadlined) :
    (s.run ops).InOrder := ⟨foldl_deadlined h.store hops, h.votes⟩

theorem inOrder_step {input : StoreInput} (h : s.InOrder) (hok : input.Deadlined)
    (hstep : s.step input = some s') : s'.InOrder := by
  cases input with
  | operation op =>
    cases op with
    | putVersioned key entry clk => cases hstep
    | _ =>
      cases hstep
      exact h.run (forall_mem_singleton.mpr trivial)
  | write key version writer value ttl clk =>
    cases hstep
    exact h.run (forall_mem_singleton.mpr (deadlined_writeEntry clk version writer value ttl))
  | replicate req clk =>
    cases hstep
    refine ⟨⟨applied_inv h.store.store _, ?_, ?_⟩, h.votes⟩
    · obtain ⟨now, heq⟩ := s.store.applied_eq (clk, req)
      rw [heq]
      exact putVersionedAt_timed h.store.store h.store.timed _ _ _ _
    · obtain ⟨now, heq⟩ := s.store.applied_eq (clk, req)
      rw [heq]
      exact putVersionedAt_deadlined h.store.store h.store.deadlined
        (deadlined_replicatedEntry clk _ req) _ _ _
  | sync data clk =>
    simp only [step] at hstep
    split at hstep
    · rename_i msg hmsg
      cases hstep
      exact h.run (deadlined_syncOps (hok msg hmsg))
    · cases hstep
  | beginRead key now =>
    cases hstep
    have hget : (s.store.apply (.getVersioned key now)).Reapable := apply_deadlined h.store trivial
    refine ⟨hget, ?_⟩
    intro r hr
    rcases mem_append.mp hr with hr | hr
    · exact h.votes r hr
    · rw [mem_singleton.mp hr]
      exact fun e he => getVersioned_deadlined h.store he
  | heal read answers clk =>
    simp only [step] at hstep
    split at hstep
    · rename_i key localEntry hread
      cases hstep
      have hvote := h.votes _ (mem_of_getElem? hread)
      refine ⟨(h.run (deadlined_healOps hvote hok)).store, fun r hr => ?_⟩
      exact h.votes r (mem_of_mem_eraseIdx hr)
    · cases hstep
  | recover snapshot log clk =>
    cases hstep
    refine h.run fun op hop => ?_
    rcases mem_append.mp hop with hop | hop
    · obtain ⟨se, hse, hop⟩ := mem_flatMap.mp hop
      exact deadlined_snapshotOps (hok.1 se hse) op hop
    · obtain ⟨we, hwe, hop⟩ := mem_flatMap.mp hop
      exact deadlined_replayOps (hok.2 we hwe) op hop

end ReachedStore

instance : ∀ input : StoreInput, Decidable input.Deadlined
  | .sync data _ => inferInstanceAs (Decidable (∀ msg ∈ decodeSync data, ∀ w ∈ msg.entries, _ → _))
  | .heal _ answers _ => inferInstanceAs (Decidable (∀ a ∈ answers, ∀ res ∈ a.2, _ → _))
  | .recover snapshot log _ =>
    inferInstanceAs (Decidable ((∀ se ∈ snapshot, _ → _) ∧ ∀ we ∈ log, _ → _))
  | .operation _ => isTrue trivial
  | .write .. => isTrue trivial
  | .replicate .. => isTrue trivial
  | .beginRead .. => isTrue trivial

/-- **Every resident tombstone has its TTL flag and is scheduled** in every run in which sync
entries, read answers and records bring tombstones with an expiry only. -/
theorem tombstones_scheduled (cfg : StoreConfig) (capacityBytes : Nat) (now : Nanos)
    (s : ReachedStore cfg) (h : Reaches ReachedStore.step (fun _ input => input.Deadlined)
      (ReachedStore.start cfg capacityBytes now) s) :
    ∀ i, ∀ n ∈ (s.store.shards i).list, n.entry.isTombstone = true →
      n.entry.hasTtl = true ∧ n.addr ∈ (s.store.shards i).wheel.scheduled := by
  have hinv : s.InOrder := h.invariant
    ⟨⟨inv_start cfg capacityBytes now, (after_keeps capacityBytes now []).2.2,
      fun _ => forall_mem_nil _⟩, forall_mem_nil _⟩
    fun _ _ _ hi hok hstep => ReachedStore.inOrder_step hi hok hstep
  intro i n hn htomb
  have hcell := mem_map_of_mem (f := Node.toCell) hn
  have httl := hinv.store.deadlined i n.toCell hcell htomb
  exact ⟨httl, ((hinv.store.timed i).mem n.addr).mpr ⟨n.toCell, hcell, rfl, httl⟩⟩

/-- A sync message with one tombstone of version 5; `flags` and the time stamp behind them. -/
def tombstoneSync (flags : Bytes) : Bytes :=
  [0x53, 0x4D, 0x45, 0x41] ++ [1, 0, 0, 0] ++ [1, 0, 0, 0, 9] ++ [5, 0, 0, 0, 0, 0, 0, 0] ++
    [7, 0, 0, 0, 0, 0, 0, 0] ++ flags ++ [0, 0, 0, 0] ++ [0, 0, 0, 0]

/-- What takes entries out of a store: the wheel, seconds later, and a capacity of nothing. -/
def cleanUp : List StoreInput :=
  [.operation (.evictExpired 2000000000), .operation (.setCapacity 0)]

/-- A tombstone without the TTL flag, in the list and not in the wheel. -/
def ReachedStore.hasPinned {cfg : StoreConfig} (s : ReachedStore cfg) (i : Fin cfg.numShards) :
    Bool :=
  (s.store.shards i).list.any fun n =>
    n.entry.isTombstone && !n.entry.hasTtl && !decide (n.addr ∈ (s.store.shards i).wheel.scheduled)

theorem tombstones_scheduled_after_sync :
    ∃ s, Reaches ReachedStore.step (fun _ input => input.Deadlined)
        (ReachedStore.start (oneShardStore .lru) 1000 0) s ∧
      ∃ i, ∃ n ∈ (s.store.shards i).list, n.entry.isTombstone = true ∧
        n.entry.hasTtl = true ∧ n.addr ∈ (s.store.shards i).wheel.scheduled := by
  obtain ⟨s, hreach, hp⟩ := exists_reaches_of_exec ReachedStore.step
    (fun _ input => input.Deadlined) (ReachedStore.start (oneShardStore .lru) 1000 0)
    [.sync (tombstoneSync [3, 5, 0, 0, 0, 0, 0, 0, 0]) {}]
    (fun s => (s.store.shards ⟨0, Nat.one_pos⟩).list.any fun n => n.entry.isTombstone)
    (by decide +kernel)
  obtain ⟨n, hn, htomb⟩ := any_eq_true.mp hp
  exact ⟨s, hreach, _, n, hn, htomb,
    tombstones_scheduled (oneShardStore .lru) 1000 0 s hreach _ n hn htomb⟩

/-- A sync entry with the marker and without the TTL flag, and an answer to a quorum read with the
marker and without an expiry: each leaves a tombstone that nothing takes out. -/
theorem tombstone_pinned :
    (exec ReachedStore.step (fun _ _ => True) (.start (oneShardStore .lru) 1000 0)
      (.sync (tombstoneSync [2]) {} :: cleanUp)).any (·.hasPinned ⟨0, Nat.one_pos⟩) = true ∧
    (exec ReachedStore.step (fun _ _ => True) (.start (oneShardStore .lru) 1000 0)
      (.beginRead [9] 0 ::
        .heal 0 [({}, some { status := .ok, version := 5, tombstone := true })] {} :: cleanUp)).any
          (·.hasPinned ⟨0, Nat.one_pos⟩) = true := by
  decide +kernel

end Cinder
