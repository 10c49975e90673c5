/-
A snapshot of an LRU store loaded into an empty one (`liveEntries` in
`eviction_store_base.hpp`, `createSnapshot` and `recover` in `src/store/persistence.cpp`).

The entries are listed from the most recent one on, and every insertion goes to the front: a
restart turns the eviction order of a shard around.
-/
import Cinder.Store.LruOrder
import Cinder.Node.DigestExpiry

namespace Cinder

open List Recency

open Recency (Item)

/-! ## 1. The entries of a snapshot -/

/-- The live keys from the most recent one on; capacity eviction takes them from the end. -/
def Shard.liveKeys (sh : Shard) : List Key :=
  (sh.list.filter fun n => !n.entry.isTombstone).map fun n => n.key

namespace EvictionStore

/-- The snapshot of `createSnapshot`; the clocks are read again for every entry. -/
def snapshotEntries {cfg : StoreConfig} (s : EvictionStore cfg) (snapTime : Nanos)
    (written : Key → ClockReading) : List SnapshotEntry :=
  (s.liveEntries snapTime).map fun e => toSnapshotEntry (written e.1) e.1 e.2

/-- One round of the snapshot loop of `recover`; `restoreFreq` is nothing to an LRU store. -/
def loadSnapshotEntry {cfg : StoreConfig} (loaded : Key → ClockReading) (s : EvictionStore cfg)
    (se : SnapshotEntry) : EvictionStore cfg :=
  match versionedFromSnapshot (loaded se.key) se with
  | none => s
  | some ve => (s.putVersioned se.key ve (loaded se.key)).2

/-- The snapshot, loaded into an empty store of the same capacity. -/
def restarted {cfg : StoreConfig} (s : EvictionStore cfg) (snapTime : Nanos)
    (written loaded : Key → ClockReading) (now : Nanos) : EvictionStore cfg :=
  (s.snapshotEntries snapTime written).foldl (loadSnapshotEntry loaded)
    (start cfg s.capacityBytes now)

variable {cfg : StoreConfig} {s t : EvictionStore cfg} {i : Fin cfg.numShards}
  {written loaded : Key → ClockReading} {seen : List Node} {n : Node}

def record (written : Key → ClockReading) (n : Node) : SnapshotEntry :=
  toSnapshotEntry (written n.key) n.key n.entry

/-- The deadline of an entry has passed when its record is loaded. -/
def lost (written loaded : Key → ClockReading) (n : Node) : Bool :=
  (record written n).expired (loaded n.key)

/-- The items of a shard that are loaded, in the order of the loop. -/
def loadedItems (written loaded : Key → ClockReading) (i : Fin cfg.numShards) (seen : List Node) :
    List (Item Key) :=
  (seen.filter fun n => cfg.shardFor n.key = i ∧ lost written loaded n = false).map
    fun n => n.toCell.item cfg.policy

theorem mem_recency_putVersionedAt (hlru : cfg.policy = .lru) (hs : s.Inv) {key : Key}
    {entry : VersionedEntry} {now : Nanos} {clk : ClockReading} {x : Item Key}
    (hx : x ∈ ((s.putVersionedAt key entry now clk).2.recency i).items) :
    i = cfg.shardFor key ∧ x = writtenItem cfg key entry ∨ x ∈ (s.recency i).items := by
  have hrun := congrArg Prod.snd (run_writeEvents hlru hs key entry now clk i)
  dsimp only at hrun
  rw [← hrun] at hx
  unfold writeEvents at hx
  split at hx
  · rename_i hcond
    rw [run_singleton] at hx
    exact (mem_step_write hx).imp_left fun heq => ⟨hcond.2, heq⟩
  · exact .inr hx

theorem items_putVersionedAt_of_fits (hlru : cfg.policy = .lru) (hs : s.Inv) {key : Key}
    {entry : VersionedEntry} (now : Nanos) (clk : ClockReading)
    (hnew : key ∉ (s.recency (cfg.shardFor key)).items.map fun x => x.key)
    (hfit : Recency.total (writtenItem cfg key entry :: (s.recency (cfg.shardFor key)).items) ≤
      s.shardCapacity) :
    ((s.putVersionedAt key entry now clk).2.recency (cfg.shardFor key)).items =
      writtenItem cfg key entry :: (s.recency (cfg.shardFor key)).items := by
  have hfind : (s.shards (cfg.shardFor key)).find key = none := by
    refine (hs.shard _).find_eq_none.mpr fun n hn hkey => hnew ?_
    rw [recency, Shard.map_key_items]
    exact mem_map.mpr ⟨n, hn, hkey⟩
  have hroom : s.rejects key entry = false := by
    unfold rejects
    rw [hfind]
    refine decide_eq_false (not_lt.mpr (le_trans ?_ hfit))
    exact Nat.le_add_right _ _
  have hrun := congrArg Prod.snd (run_writeEvents hlru hs key entry now clk (cfg.shardFor key))
  rw [writeEvents, if_pos ⟨hroom, rfl⟩, run_singleton, step_write_of_fits hnew hfit] at hrun
  exact congrArg Recency.State.items hrun.symm

theorem load_cases (written loaded : Key → ClockReading) (t : EvictionStore cfg) (n : Node) :
    lost written loaded n = true ∧ loadSnapshotEntry loaded t (record written n) = t ∨
      lost written loaded n = false ∧ ∃ ve now,
        writtenItem cfg n.key ve = n.toCell.item cfg.policy ∧
        loadSnapshotEntry loaded t (record written n) =
          (t.putVersionedAt n.key ve now (loaded n.key)).2 := by
  unfold loadSnapshotEntry
  rw [show (record written n).key = n.key from rfl]
  cases hve : versionedFromSnapshot (loaded n.key) (record written n) with
  | none => exact .inl ⟨versionedFromSnapshot_eq_none.mp hve, rfl⟩
  | some ve =>
    refine .inr ⟨Bool.eq_false_iff.mpr fun hlost => ?_, ve, _, ?_, rfl⟩
    · rw [versionedFromSnapshot_eq_none.mpr hlost] at hve
      cases hve
    · have hreg := (rebaseExpiry_regOf hve).1
      have hvalue : ve.value = n.entry.value := congrArg Prod.snd hreg
      have htomb : ve.isTombstone = n.entry.isTombstone :=
        (congrArg (fun r => r.1.tombstone) hreg).trans (VersionedEntry.isTombstone_setTombstone _ _)
      simp only [writtenItem, Cell.item, Policy.nodeSize, hvalue, htomb]

/-- The loop behind the nodes it has seen. -/
structure Loaded (written loaded : Key → ClockReading) (s : EvictionStore cfg)
    (i : Fin cfg.numShards) (seen : List Node) (t : EvictionStore cfg) : Prop where
  inv : t.Inv
  capacity : t.capacityBytes = s.capacityBytes
  known : ∀ x ∈ (t.recency i).items, ∃ n ∈ seen, cfg.shardFor n.key = i ∧
    n.toCell.item cfg.policy = x
  order : Recency.total (loadedItems written loaded i seen) ≤ s.shardCapacity →
    ((seen.filter fun n => cfg.shardFor n.key = i).map fun n => n.key).Nodup →
    (t.recency i).items = (loadedItems written loaded i seen).reverse

theorem loadedItems_concat (seen : List Node) (n : Node) :
    loadedItems written loaded i (seen ++ [n]) = loadedItems written loaded i seen ++
      if cfg.shardFor n.key = i ∧ lost written loaded n = false then [n.toCell.item cfg.policy]
      else [] := by
  unfold loadedItems
  rw [filter_append, filter_singleton, map_append]
  split <;> simp [*]

theorem Loaded.load (hlru : cfg.policy = .lru) (h : Loaded written loaded s i seen t) (n : Node) :
    Loaded written loaded s i (seen ++ [n]) (loadSnapshotEntry loaded t (record written n)) := by
  have hknown : ∀ x ∈ (t.recency i).items, ∃ m ∈ seen ++ [n], cfg.shardFor m.key = i ∧
      m.toCell.item cfg.policy = x := by
    intro x hx
    obtain ⟨m, hm, hrest⟩ := h.known x hx
    exact ⟨m, mem_append_left _ hm, hrest⟩
  rcases load_cases written loaded t n with
    ⟨hlost, hload⟩ | ⟨hkept, ve, now, hitem, hload⟩
  · rw [hload]
    refine ⟨h.inv, h.capacity, hknown, fun hfit hnodup => ?_⟩
    rw [loadedItems_concat, if_neg fun hc => Bool.noConfusion (hlost.symm.trans hc.2),
      append_nil] at hfit ⊢
    rw [filter_append, map_append] at hnodup
    exact h.order hfit hnodup.of_append_left
  · rw [hload]
    refine ⟨putVersionedAt_inv h.inv .., (putVersionedAt_capacityBytes ..).trans h.capacity,
      fun x hx => ?_, fun hfit hnodup => ?_⟩
    · rcases mem_recency_putVersionedAt hlru h.inv hx with ⟨hi, rfl⟩ | hold
      · exact ⟨n, mem_append_right _ (mem_singleton_self n), hi.symm, hitem.symm⟩
      · exact hknown x hold
    · rw [loadedItems_concat] at hfit ⊢
      rw [filter_append, map_append] at hnodup
      by_cases hi : cfg.shardFor n.key = i
      · subst hi
        rw [if_pos ⟨rfl, hkept⟩, total, map_append, sum_append] at hfit
        rw [filter_singleton, decide_eq_true rfl] at hnodup
        have hbefore := h.order (Nat.le_of_add_right_le hfit) hnodup.of_append_left
        have hnew : n.key ∉ (t.recency (cfg.shardFor n.key)).items.map fun x => x.key := by
          intro hmem
          obtain ⟨x, hx, hkey⟩ := mem_map.mp hmem
          obtain ⟨m, hm, hplace, rfl⟩ := h.known x hx
          exact (nodup_append.mp hnodup).2.2 m.key (mem_map_of_mem (mem_filter.mpr
            ⟨hm, decide_eq_true hplace⟩)) n.key mem_cons_self hkey
        have hroom : total (writtenItem cfg n.key ve ::
            (t.recency (cfg.shardFor n.key)).items) ≤ t.shardCapacity := by
          rw [hitem, hbefore, total, map_cons, map_reverse, sum_cons, sum_reverse,
            shardCapacity, h.capacity, add_comm]
          exact hfit
        rw [items_putVersionedAt_of_fits hlru h.inv now (loaded n.key) hnew hroom, hitem, hbefore,
          if_pos ⟨rfl, hkept⟩, reverse_append]
        rfl
      · have hsame := recency_congr (putVersionedAt_capacityBytes t n.key ve now (loaded n.key))
          (congrArg Shard.nodes (putVersionedAt_shards_ne (Ne.symm hi) ..))
        rw [if_neg fun hc => hi hc.1, append_nil] at hfit ⊢
        rw [hsame]
        exact h.order hfit hnodup.of_append_left

theorem loaded_nodes (written loaded : Key → ClockReading) (hlru : cfg.policy = .lru)
    (s : EvictionStore cfg) (now : Nanos) (i : Fin cfg.numShards) (seen : List Node) :
    Loaded written loaded s i seen
      ((seen.map (record written)).foldl (loadSnapshotEntry loaded)
        (start cfg s.capacityBytes now)) := by
  induction seen using reverseRecOn with
  | nil => exact ⟨inv_start .., rfl, fun x hx => absurd hx not_mem_nil, fun _ _ => rfl⟩
  | append_singleton seen n ih =>
    rw [map_append, foldl_append]
    exact ih.load hlru n

/-! ## 2. The order behind a restart -/

theorem nodes_in_shard (hs : s.Inv) (i : Fin cfg.numShards) :
    (s.nodes.filter fun n => cfg.shardFor n.key = i) = (s.shards i).list := by
  have hplaced : ∀ j, ∀ n ∈ (s.shards j).list, cfg.shardFor n.key = j :=
    fun j n hn => hs.placed j _ (mem_map_of_mem hn)
  have hothers : ∀ l : List (Fin cfg.numShards), i ∉ l →
      ((l.flatMap fun j => (s.shards j).list).filter fun n => cfg.shardFor n.key = i) = [] := by
    refine fun l hl => filter_eq_nil_iff.mpr fun n hn => ?_
    obtain ⟨j, hj, hn⟩ := mem_flatMap.mp hn
    rw [hplaced j n hn]
    exact fun heq => hl (of_decide_eq_true heq ▸ hj)
  obtain ⟨l₁, l₂, hsplit⟩ := append_of_mem (mem_finRange i)
  have hnodup := hsplit ▸ nodup_finRange cfg.numShards
  obtain ⟨hout, -⟩ := nodup_cons.mp (nodup_middle.mp hnodup)
  rw [mem_append, not_or] at hout
  rw [nodes, hsplit, flatMap_append, flatMap_cons, filter_append, filter_append, hothers l₁ hout.1,
    hothers l₂ hout.2, append_nil, nil_append]
  exact filter_eq_self.mpr fun n hn => decide_eq_true (hplaced i n hn)

theorem liveKeys_eq (s : EvictionStore cfg) (i : Fin cfg.numShards) :
    (s.shards i).liveKeys =
      (((s.recency i).items.filter fun x => !x.pinned).map fun x => x.key) := by
  show _ = ((List.filter _ (List.map _ _)).map _)
  rw [filter_map, map_map]
  rfl

theorem liveKeys_restarted (hlru : cfg.policy = .lru) (hs : s.Inv) (hfits : s.Fits)
    {snapTime : Nanos} (hnone : s.NoneExpired snapTime) (now : Nanos) (i : Fin cfg.numShards) :
    ((s.restarted snapTime written loaded now).shards i).liveKeys =
      ((((s.shards i).list.filter fun n => !n.entry.isTombstone).filter fun n =>
        !lost written loaded n).map fun n => n.key).reverse := by
  have hexpired : ∀ n ∈ s.nodes, (!n.entry.expiredAt snapTime) = true := by
    have hempty := map_eq_nil_iff.mp hnone
    intro n hn
    simpa using filter_eq_nil_iff.mp hempty n hn
  have hrecords : s.snapshotEntries snapTime written = s.nodes.map (record written) := by
    rw [snapshotEntries, liveEntries, filter_eq_self.mpr hexpired, map_map]
    rfl
  have hitems : loadedItems written loaded i s.nodes =
      ((s.shards i).list.filter fun n => !lost written loaded n).map
        fun n => n.toCell.item cfg.policy := by
    rw [loadedItems, ← nodes_in_shard hs i, filter_filter]
    refine congrArg _ (filter_congr fun n _ => ?_)
    cases lost written loaded n <;> simp
  have hloaded := loaded_nodes written loaded hlru s now i s.nodes
  rw [restarted, hrecords, liveKeys_eq]
  rcases hfits i with hfit | hpinned
  · have htotal : total (loadedItems written loaded i s.nodes) ≤ s.shardCapacity := by
      refine le_trans ?_ hfit
      rw [← Shard.total_items (hs.shard i), hitems]
      exact ((filter_sublist.map _).map _).sum_le_sum fun _ _ => Nat.zero_le _
    have hnodup : ((s.nodes.filter fun n => cfg.shardFor n.key = i).map fun n => n.key).Nodup := by
      rw [nodes_in_shard hs i]
      exact (map_map .. ▸ (hs.shard i).base.keys :)
    rw [hloaded.order htotal hnodup, hitems, filter_reverse, map_reverse, filter_map, map_map,
      filter_filter, filter_filter]
    refine congrArg (fun l => (List.map _ l).reverse) (filter_congr fun n _ => ?_)
    exact Bool.and_comm _ _
  · -- only tombstones, which may be more than the slice holds
    have hleft : ((s.shards i).list.filter fun n => !n.entry.isTombstone) = [] :=
      filter_eq_nil_iff.mpr fun n hn => by simp [hpinned n hn]
    rw [hleft, map_eq_nil_iff.mpr (filter_eq_nil_iff.mpr fun x hx => ?_)]
    · rfl
    · obtain ⟨n, hn, hplace, rfl⟩ := hloaded.known x hx
      have hmem : n ∈ (s.shards i).list :=
        nodes_in_shard hs i ▸ mem_filter.mpr ⟨hn, decide_eq_true hplace⟩
      simp [Cell.item, hpinned n hmem]

theorem reverse_eq_self_iff {l : List Key} (h : l.Nodup) : l.reverse = l ↔ l.length ≤ 1 := by
  match l with
  | [] | [k] => simp
  | k :: k' :: l =>
    refine iff_of_false (fun hrev => ?_) (by simp)
    have hlast : (k :: k' :: l).getLast? = some k := by rw [← head?_reverse, hrev, head?_cons]
    rw [getLast?_cons_cons] at hlast
    exact (nodup_cons.mp h).1 (mem_of_getLast? hlast)

/-- **A restart keeps the live keys and their eviction order** exactly when no shard has two live
entries and none of them is past its deadline when its record is loaded. -/
theorem restart_keeps_eviction_order_iff (cfg : StoreConfig) (hlru : cfg.policy = .lru)
    (capacityBytes : Nat) (start : Nanos) (ops : List StoreOp) (snapTime : Nanos)
    (hnone : (after cfg capacityBytes start ops).NoneExpired snapTime)
    (written loaded : Key → ClockReading) (now : Nanos) :
    (∀ i, (((after cfg capacityBytes start ops).restarted snapTime written loaded now).shards
        i).liveKeys = ((after cfg capacityBytes start ops).shards i).liveKeys) ↔
      ∀ i, ((after cfg capacityBytes start ops).shards i).liveKeys.length ≤ 1 ∧
        ∀ n ∈ ((after cfg capacityBytes start ops).shards i).list, n.entry.isTombstone = false →
          lost written loaded n = false := by
  have hs : (after cfg capacityBytes start ops).Inv := (after_keeps capacityBytes start ops).1
  refine forall_congr' fun i => ?_
  have hkeys : ((after cfg capacityBytes start ops).shards i).liveKeys.Nodup :=
    ((map_map .. ▸ (hs.shard i).base.keys :)).sublist (filter_sublist.map _)
  rw [← reverse_eq_self_iff hkeys,
    liveKeys_restarted hlru hs (after_fits cfg capacityBytes start ops) hnone]
  unfold Shard.liveKeys
  constructor
  · intro hsame
    have hlength := congrArg List.length hsame
    rw [length_reverse, length_map, length_map] at hlength
    have hall := filter_sublist.eq_of_length hlength
    rw [hall] at hsame
    refine ⟨hsame, fun n hn hlive => ?_⟩
    have hkept := filter_eq_self.mp hall n (mem_filter.mpr ⟨hn, by rw [hlive]; rfl⟩)
    simpa using hkept
  · intro ⟨hsame, hkept⟩
    rw [filter_eq_self.mpr fun n hn => ?_]
    · exact hsame
    · obtain ⟨hn, hlive⟩ := mem_filter.mp hn
      rw [hkept n hn (by simpa using hlive)]
      rfl

/-- One entry comes back as it was. -/
theorem restart_keeps_one_entry :
    (after (oneShardStore .lru) 400 0 [.put [1] [7] none {}]).NoneExpired 0 ∧
      ∀ i, (((after (oneShardStore .lru) 400 0 [.put [1] [7] none {}]).restarted 0 (fun _ => {})
        (fun _ => {}) 0).shards i).liveKeys =
          ((after (oneShardStore .lru) 400 0 [.put [1] [7] none {}]).shards i).liveKeys :=
  ⟨by decide +kernel, (restart_keeps_eviction_order_iff (oneShardStore .lru) rfl 400 0
    [.put [1] [7] none {}] 0 (by decide +kernel) (fun _ => {}) (fun _ => {}) 0).mpr
      (by decide +kernel)⟩

/-- Two entries come back in the other order: a third one evicts the other of them. -/
theorem restart_evicts_the_other :
    (after (oneShardStore .lru) 250 0 twoSmall).NoneExpired 0 ∧
      evictedAlong ⟨0, Nat.one_pos⟩ (after (oneShardStore .lru) 250 0 twoSmall)
        [.put [3] [9] none {}] = [[1]] ∧
      evictedAlong ⟨0, Nat.one_pos⟩ ((after (oneShardStore .lru) 250 0 twoSmall).restarted 0
        (fun _ => {}) (fun _ => {}) 0) [.put [3] [9] none {}] = [[2]] ∧
      (((after (oneShardStore .lru) 250 0 twoSmall).restarted 0
        (fun _ => {}) (fun _ => {}) 0).shards ⟨0, Nat.one_pos⟩).liveKeys = [[1], [2]] ∧
      ((after (oneShardStore .lru) 250 0 twoSmall).shards ⟨0, Nat.one_pos⟩).liveKeys =
        [[2], [1]] := by
  decide +kernel

end EvictionStore

end Cinder
