/-
The mutation feed of the eviction store: what the sink has been told, against what is
resident (`noteAdded`, `noteRemoved`, the five call sites).

The BALANCE of an identity (key, packed version word, writer) is the number of added notes minus
removed notes minus resident entries. Every move keeps it. A write lowers it by one, and the note
behind it makes up for that, if the node is still there when capacity eviction has run.
-/
import Cinder.Lib.Transition
import Cinder.Lib.Xor
import Cinder.Store.VictimOrder
import Mathlib.Algebra.BigOperators.Fin

namespace Cinder

open Transition List Function EvictionStore

def Cell.id (c : Cell) : Identity := identityOf c.key c.entry

namespace EvictionStore

variable {cfg : StoreConfig} {s s' : EvictionStore cfg} {i : Fin cfg.numShards}

/-! ## 1. The balance -/

def idsOf (sh : Shard) : List Identity := sh.cells.map Cell.id

variable (s)

def residents : List Identity := (List.finRange cfg.numShards).flatMap fun i => idsOf (s.shards i)

def notes (removed : Bool) : List Identity :=
  (s.feed.filter fun m => m.removed = removed).map Mutation.id

def balance (id : Identity) : Int :=
  (s.notes false).count id - (s.notes true).count id - s.residents.count id

theorem count_residents (id : Identity) :
    s.residents.count id = ∑ i, (idsOf (s.shards i)).count id := by
  rw [residents, count_flatMap, Fin.sum_univ_def]
  rfl

theorem balance_update (i : Fin cfg.numShards) (sh : Shard) (id : Identity) :
    ∑ j, ((idsOf (update s.shards i sh j)).count id : Int) =
      s.residents.count id - (idsOf (s.shards i)).count id + (idsOf sh).count id := by
  have hupdate : (fun j => ((idsOf (update s.shards i sh j)).count id : Int)) =
      update (fun j => ((idsOf (s.shards j)).count id : Int)) i ((idsOf sh).count id) := by
    funext j
    by_cases hj : j = i
    · subst hj
      simp
    · simp [hj]
  rw [hupdate, Finset.sum_update_of_mem (Finset.mem_univ i), count_residents, Nat.cast_sum,
    ← Finset.add_sum_erase Finset.univ _ (Finset.mem_univ i), Finset.sdiff_singleton_eq_erase]
  ring

theorem balance_eq (id : Identity) :
    s.balance id = (s.notes false).count id - (s.notes true).count id -
      ∑ i, ((idsOf (s.shards i)).count id : Int) := by
  rw [balance, count_residents, Nat.cast_sum]

variable {s}

theorem balance_of_update {t : EvictionStore cfg} {sh : Shard}
    (hshards : t.shards = update s.shards i sh) (hfeed : t.feed = s.feed) (id : Identity) :
    t.balance id = s.balance id + (idsOf (s.shards i)).count id - (idsOf sh).count id := by
  rw [balance_eq t, hshards, balance_update, balance, notes, notes, hfeed]
  simp only [notes]
  ring

variable (s)

theorem notes_append (m : Mutation) (removed : Bool) :
    notes { s with feed := s.feed ++ [m] } removed =
      s.notes removed ++ if m.removed = removed then [m.id] else [] := by
  unfold notes
  rw [filter_append, map_append]
  by_cases h : m.removed = removed
  · simp [h]
  · simp [h]

theorem balance_note (m : Mutation) (id : Identity) :
    balance { s with feed := s.feed ++ [m] } id =
      s.balance id + (if m.removed then -1 else 1) * [m.id].count id := by
  have hres : residents { s with feed := s.feed ++ [m] } = s.residents := rfl
  rw [balance, notes_append, notes_append, hres, balance]
  cases m.removed <;> simp <;> ring

theorem balance_noteAdded (new id : Identity) :
    (s.noteAdded new).balance id = s.balance id + [new].count id :=
  (s.balance_note ⟨new, false⟩ id).trans (by simp)

theorem balance_noteRemoved (old id : Identity) :
    (s.noteRemoved old).balance id = s.balance id - [old].count id :=
  (s.balance_note ⟨old, true⟩ id).trans (by simp [sub_eq_add_neg])

theorem balance_setShard (i : Fin cfg.numShards) (sh : Shard) (id : Identity) :
    (s.setShard i sh).balance id =
      s.balance id + (idsOf (s.shards i)).count id - (idsOf sh).count id :=
  balance_of_update (t := s.setShard i sh) (s := s) (i := i) rfl rfl id

variable {s}

theorem Move.balance_eq (h : Move s s') (id : Identity) : s'.balance id = s.balance id := by
  cases h with
  | erase i n sh resident cells policy frame =>
    -- one note more, one entry less
    have hcount : (idsOf (s.shards i)).count id = [n.toCell.id].count id + (idsOf sh).count id := by
      rw [← count_append]
      exact (cells.map Cell.id).count_eq id
    have hnote := balance_of_update (t := s.erased i n sh)
      (s := s.noteRemoved (identityOf n.key n.entry)) (i := i) rfl rfl id
    rw [hnote, balance_noteRemoved]
    show _ + ((idsOf (s.shards i)).count id : Int) - ((idsOf sh).count id : Int) = _
    rw [hcount]
    push_cast
    show _ - (([n.toCell.id].count id : Nat) : Int) + _ - _ = _
    ring
  | reorder i sh cells policy frame =>
    rw [balance_setShard, idsOf, idsOf, (cells.map Cell.id).count_eq id]
    ring
  | schedule i wheel lastEvict =>
    rw [balance_setShard]
    show _ + ((idsOf (s.shards i)).count id : Int) - (idsOf (s.shards i)).count id = _
    ring
  | fields capacityBytes nextVersion tombstoneGc wal => rfl

theorem Moves.balance_eq (h : Moves s s') (id : Identity) : s'.balance id = s.balance id := by
  induction h with
  | refl => rfl
  | tail _ hstep ih => rw [hstep.balance_eq, ih]

/-! ## 2. Writes -/

theorem balance_write (hs : s.Inv) (key : Key) (entry : VersionedEntry) {t : EvictionStore cfg}
    (ht : Moves (s.write key entry).2 t) (id : Identity) :
    (s.noteReplaced t key).balance id = s.balance id - [identityOf key entry].count id := by
  obtain ⟨-, hkey, hentry, rest, hnew, hold⟩ := write_spec hs key entry
  have hid : (s.write key entry).1.id = identityOf key entry := by rw [Cell.id, hkey, hentry]
  have hcount := (hnew.map Cell.id).count_eq id
  rw [map_cons, ← singleton_append, count_append, hid] at hcount
  have hbal : t.balance id = (s.write key entry).2.balance id := ht.balance_eq id
  obtain ⟨sh, hsh⟩ := write_shards s key entry
  have hself : (s.write key entry).2.shards (cfg.shardFor key) = sh := by
    rw [hsh, update_self]
  rw [hself] at hcount
  rw [balance_of_update hsh (write_fields s key entry).2.1] at hbal
  unfold noteReplaced
  cases hf : (s.shards (cfg.shardFor key)).find key with
  | some n =>
    obtain ⟨-, hnk⟩ := (hs.shard _).find_eq.mp hf
    rw [hf] at hold
    have hcount' := (hold.map Cell.id).count_eq id
    rw [map_cons, ← singleton_append, count_append, Cell.id, hnk] at hcount'
    rw [balance_noteRemoved, hbal, idsOf, hcount', idsOf, hcount]
    push_cast
    ring
  | none =>
    rw [hf] at hold
    have hcount' := (hold.map Cell.id).count_eq id
    rw [hbal, idsOf, hcount', idsOf, hcount]
    push_cast
    ring

variable (s)

def writtenBytes (key : Key) (entry : VersionedEntry) : Nat :=
  let sh := s.shards (cfg.shardFor key)
  match sh.find key with
  | some n => sh.currentBytes - cfg.policy.nodeSize n.toCell +
      cfg.policy.nodeSize { n.toCell with entry := entry }
  | none => sh.currentBytes + cfg.policy.nodeSize ⟨s.nextAddr, key, entry⟩

/-- **The write is turned away, or survives its own eviction**: it is a tombstone, or the shard
is over its slice by no more bytes than eviction takes before it. -/
def Kept (key : Key) (entry : VersionedEntry) : Prop :=
  s.rejects key entry = true ∨ entry.isTombstone = true ∨
    s.writtenBytes key entry ≤
      s.shardCapacity + (s.shards (cfg.shardFor key)).evictedBefore cfg.policy key

instance (key : Key) (entry : VersionedEntry) : Decidable (s.Kept key entry) :=
  inferInstanceAs (Decidable (_ ∨ _ ∨ _))

variable {s}

theorem write_shard (hs : s.Inv) (key : Key) (entry : VersionedEntry) :
    ((s.write key entry).2.shards (cfg.shardFor key)).currentBytes = s.writtenBytes key entry ∧
      (s.write key entry).2.shardCapacity = s.shardCapacity ∧
      (entry.isTombstone = false →
        ((s.write key entry).2.shards (cfg.shardFor key)).Guarded cfg.policy
          (s.write key entry).1.addr
          ((s.shards (cfg.shardFor key)).evictedBefore cfg.policy key)) := by
  have hwf := hs.shard (cfg.shardFor key)
  unfold write writtenBytes
  dsimp only
  cases hf : (s.shards (cfg.shardFor key)).find key with
  | some n =>
    obtain ⟨hn, rfl⟩ := hwf.find_eq.mp hf
    obtain ⟨-, -, hframe⟩ := Shard.applyExisting_spec hwf hn entry
    rw [overwrite_shard, update_self]
    refine ⟨by rw [hframe.currentBytes], ?_, fun hlive =>
      (Shard.applyExisting_guarded hwf hn hlive).setBytes _⟩
    simp [shardCapacity, overwrite, setShard]
  | none =>
    obtain ⟨-, -, hframe⟩ := Shard.insertNew_spec hwf (fun _ => hs.ne_nextAddr) key entry
    have hbytes : ((s.shards (cfg.shardFor key)).insertNew cfg.policy s.nextAddr key
      entry).currentBytes = (s.shards (cfg.shardFor key)).currentBytes := hframe.currentBytes
    rw [insertFresh_shard, update_self]
    refine ⟨by rw [hbytes], ?_, fun hlive =>
      (Shard.insertNew_guarded hwf (fun _ => hs.ne_nextAddr) hf hlive).setBytes _⟩
    simp [shardCapacity, insertFresh, setShard]

theorem find_of_kept (hs : s.Inv) {key : Key} {entry : VersionedEntry} (hkept : s.Kept key entry)
    (haccept : s.rejects key entry = false) :
    (((s.write key entry).2.evictIfNeeded (cfg.shardFor key)).shards
      (cfg.shardFor key)).find key ≠ none := by
  obtain ⟨hinv, hkey, hentry, rest, hnew, -⟩ := write_spec hs key entry
  obtain ⟨hbytes, hcap, hguard⟩ := write_shard hs key entry
  have hmem := hnew.mem_iff.mpr (mem_cons_self (a := (s.write key entry).1))
  have hstay : (s.write key entry).1 ∈
      (((s.write key entry).2.evictIfNeeded (cfg.shardFor key)).shards
        (cfg.shardFor key)).cells := by
    refine evictLoop_keeps _ hinv hmem ?_
    rw [hentry]
    cases htomb : entry.isTombstone with
    | true => exact .inl rfl
    | false =>
      refine .inr ⟨_, hguard htomb, ?_⟩
      rw [hbytes, hcap]
      rcases hkept with hrej | htomb' | hle
      · rw [haccept] at hrej
        cases hrej
      · rw [htomb] at htomb'
        cases htomb'
      · exact hle
  obtain ⟨n, hn, hcell⟩ := Shard.mem_cells.mp hstay
  have hwf := ((evictIfNeeded_moves hinv (cfg.shardFor key)).inv hinv).shard (cfg.shardFor key)
  have hfound := hwf.find_eq.mpr ⟨hn, (congrArg Cell.key hcell).trans hkey⟩
  rw [hfound]
  exact Option.some_ne_none n

theorem putVersionedAt_balance (hs : s.Inv) {key : Key} {entry : VersionedEntry}
    (hkept : s.Kept key entry) (now : Nanos) (clk : ClockReading) (id : Identity) :
    (s.putVersionedAt key entry now clk).2.balance id = s.balance id := by
  have hmoves := evictIfNeeded_moves (write_spec hs key entry).1 (cfg.shardFor key)
  rcases putVersionedAt_cases s key entry now clk with
    ⟨-, heq⟩ | ⟨t, rfl, haccept, ⟨hgone, -⟩ | ⟨n, hfound, heq⟩⟩
  · rw [heq]
  · exact absurd hgone (find_of_kept hs hkept haccept)
  · rw [heq, (updateWheelAt_writeWal_moves _ _ _ _ _ _).balance_eq, balance_noteAdded,
      balance_write hs key entry hmoves, find_after_write hs hmoves hfound]
    ring

/-! ## 3. Histories -/

/-- The condition on an operation: its write, if it makes one, is kept. -/
def KeptOp (s : EvictionStore cfg) : StoreOp → Prop
  | .put key value ttl clk => s.Kept key (putEntry s.nextVersion value ttl clk.now)
  | .putVersioned key entry _ => s.Kept key entry
  | _ => True

instance (s : EvictionStore cfg) (op : StoreOp) : Decidable (s.KeptOp op) :=
  match op with
  | .put key value ttl clk =>
    inferInstanceAs (Decidable (s.Kept key (putEntry s.nextVersion value ttl clk.now)))
  | .putVersioned key entry _ => inferInstanceAs (Decidable (s.Kept key entry))
  | .removeVersioned _ _ _ _ | .remove _ | .get _ _ | .getVersioned _ _ | .evictExpired _
  | .setCapacity _ | .setTombstoneGcInterval _ | .restoreFreq _ _ | .mintVersion => isTrue trivial

theorem isTombstone_tombstone (version writer : UInt64) (deadline : Nanos) :
    (tombstone version writer deadline).isTombstone = true := by
  rw [tombstone, VersionedEntry.isTombstone_setHasTtl]
  exact VersionedEntry.isTombstone_setTombstone _ true

theorem apply_balance (hs : s.Inv) {op : StoreOp} (hkept : s.KeptOp op) (id : Identity) :
    (s.apply op).balance id = s.balance id := by
  cases op with
  | put key value ttl clk => exact putVersionedAt_balance hs.mint hkept _ _ id
  | putVersioned key entry clk => exact putVersionedAt_balance hs hkept _ _ id
  | removeVersioned key version writer clk =>
    -- a tombstone is never evicted
    exact putVersionedAt_balance hs (.inr (.inl (isTombstone_tombstone _ _ _))) _ _ id
  | _ => exact Moves.balance_eq (apply_moves hs rfl) id

theorem nodup_residents (hs : s.Inv) : s.residents.Nodup := by
  refine nodup_flatMap.mpr ⟨fun i _ => ?_, ?_⟩
  · refine List.Nodup.of_map Identity.key ?_
    rw [idsOf, map_map]
    exact (hs.shard i).base.keys
  · refine (nodup_finRange cfg.numShards).imp_of_mem fun {i j} _ _ hij => ?_
    intro id hi hj
    obtain ⟨c, hc, rfl⟩ := mem_map.mp hi
    obtain ⟨d, hd, hcd⟩ := mem_map.mp hj
    have hkey : d.key = c.key := congrArg Identity.key hcd
    exact hij ((hs.placed i c hc).symm.trans (hkey ▸ hs.placed j d hd))

theorem perm_of_balance (h : ∀ id, s.balance id = 0) :
    (s.notes false).Perm (s.notes true ++ s.residents) := by
  refine perm_iff_count.mpr fun id => ?_
  have := h id
  rw [balance] at this
  rw [count_append]
  omega

structure FeedInv (s : EvictionStore cfg) : Prop where
  store : s.Inv
  balanced : ∀ id, s.balance id = 0

theorem feedInv_start (cfg : StoreConfig) (capacityBytes : Nat) (now : Nanos) :
    (start cfg capacityBytes now).FeedInv where
  store := inv_start cfg capacityBytes now
  balanced := fun id => by
    rw [balance_eq]
    simp [start, notes, idsOf, Shard.cells]

theorem feedInv_step {op : StoreOp} (h : s.FeedInv) (hkept : s.KeptOp op)
    (hstep : s.step op = some s') : s'.FeedInv := by
  cases hstep
  exact ⟨apply_inv h.store op, fun id => (apply_balance h.store hkept id).trans (h.balanced id)⟩

theorem xorSum_feed (h : ∀ id, s.balance id = 0) (hash : Identity → UInt64) :
    XorSum.xorSum (s.feed.map fun m => hash m.id) = XorSum.xorSum (s.residents.map hash) := by
  have hkind : ∀ removed, (s.feed.filter fun m => decide (m.removed = removed)).map
      (fun m => hash m.id) = (s.notes removed).map hash := by
    intro removed
    rw [notes, map_map]
    rfl
  have hnot : (fun m : Mutation => !decide (m.removed = true)) =
      fun m => decide (m.removed = false) := by
    funext m
    cases m.removed <;> rfl
  have hperm := (perm_of_balance h).map hash
  rw [map_append] at hperm
  rw [XorSum.xorSum_filter (fun m : Mutation => hash m.id) (fun m => decide (m.removed = true)),
    hnot, hkind, hkind, XorSum.xorSum_perm hperm, XorSum.xorSum_append, ← UInt64.xor_assoc,
    UInt64.xor_self, UInt64.zero_xor]

end EvictionStore

/-- **The mutation feed is exact** in every run all of whose writes survive their own eviction: for
every identity, added minus removed notes is one if it is resident and zero otherwise, and the
hashes of all notes XOR to those of the residents. -/
theorem feed_exact (cfg : StoreConfig) (capacityBytes : Nat) (now : Nanos) (s : EvictionStore cfg)
    (h : Reaches EvictionStore.step EvictionStore.KeptOp
      (EvictionStore.start cfg capacityBytes now) s) :
    (∀ id, ((s.notes false).count id : Int) - (s.notes true).count id =
        if id ∈ s.residents then 1 else 0) ∧
      ∀ hash : Identity → UInt64, XorSum.xorSum (s.feed.map fun m => hash m.id) =
        XorSum.xorSum (s.residents.map hash) := by
  have hinv : s.FeedInv := h.invariant (feedInv_start cfg capacityBytes now)
    fun _ _ _ hi hkept hstep => feedInv_step hi hkept hstep
  refine ⟨fun id => ?_, xorSum_feed hinv.balanced⟩
  have hcount := (nodup_residents hinv.store).count (a := id)
  have hbal := hinv.balanced id
  rw [balance, hcount] at hbal
  by_cases hmem : id ∈ s.residents
  · rw [if_pos hmem] at hbal ⊢
    push_cast at hbal
    omega
  · rw [if_neg hmem] at hbal ⊢
    push_cast at hbal
    omega

theorem feed_exact_with_eviction :
    ∃ s, Reaches EvictionStore.step EvictionStore.KeptOp
        (EvictionStore.start (oneShardStore .lfu) 300 5) s ∧ s.feed.length = 9 ∧
      (∀ id, ((s.notes false).count id : Int) - (s.notes true).count id =
        if id ∈ s.residents then 1 else 0) ∧
      ∀ hash : Identity → UInt64, XorSum.xorSum (s.feed.map fun m => hash m.id) =
        XorSum.xorSum (s.residents.map hash) := by
  obtain ⟨s, hreach, hp⟩ := exists_reaches_of_exec step EvictionStore.KeptOp
    (start (oneShardStore .lfu) 300 5)
    [.put [1] [7] none {}, .put [2] [] none {}, .put [3] [] none {}, .put [2] [9] none {},
      .remove [2], .removeVersioned [3] 99 1 {}] (fun s => s.feed.length = 9) (by decide +kernel)
  simp only [decide_eq_true_eq] at hp
  exact ⟨s, hreach, hp, feed_exact _ _ _ s hreach⟩

/-- LRU: an overwrite that no longer fits the slice is taken back, and the sink is told of the
removal of an entry it never heard of. LFU: so is a new entry next to a hot one. -/
theorem self_eviction_unbalances :
    (∃ s, Reaches EvictionStore.step (fun _ _ => True)
        (EvictionStore.start (oneShardStore .lru) 200 5) s ∧
      ∃ id, ((s.notes false).count id : Int) - (s.notes true).count id = -1) ∧
    ∃ s, Reaches EvictionStore.step (fun _ _ => True)
        (EvictionStore.start (oneShardStore .lfu) 200 5) s ∧
      ∃ id, ((s.notes false).count id : Int) - (s.notes true).count id = -1 := by
  constructor
  · obtain ⟨s, hreach, hp⟩ := exists_reaches_of_exec step (fun _ _ => True)
      (start (oneShardStore .lru) 200 5)
      [.put [1] [] none {}, .put [1] (List.replicate 90 0) none {}]
      (fun s => ((s.notes false).count ⟨[1], 24, 0⟩ : Int) - (s.notes true).count ⟨[1], 24, 0⟩ = -1)
      (by decide +kernel)
    simp only [decide_eq_true_eq] at hp
    exact ⟨s, hreach, _, hp⟩
  · obtain ⟨s, hreach, hp⟩ := exists_reaches_of_exec step (fun _ _ => True)
      (start (oneShardStore .lfu) 200 5) [.put [1] [] none {}, .get [1] 6, .put [2] [] none {}]
      (fun s => ((s.notes false).count ⟨[2], 24, 0⟩ : Int) - (s.notes true).count ⟨[2], 24, 0⟩ = -1)
      (by decide +kernel)
    simp only [decide_eq_true_eq] at hp
    exact ⟨s, hreach, _, hp⟩

end Cinder
