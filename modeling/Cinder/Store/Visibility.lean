/-
A local write is visible and never outranked by the past
(`include/cinder/store/detail/eviction_store_base.hpp`: `put`, `mintVersion`,
`observeVersion`, `get`).

One counter serves all shards. The ledger lists the versions a history has minted and those of
the entries it has accepted; the counter is above all of them.
-/
import Cinder.Store.Capacity

namespace Cinder

open List VersionedEntry UInt64

def StoreOp.supplied : StoreOp → Option UInt64
  | .putVersioned _ entry _ => some entry.version
  | .removeVersioned _ version _ _ => some version
  | _ => none

namespace EvictionStore

variable {cfg : StoreConfig} {s s' : EvictionStore cfg}

/-! ## 1. The ledger of a history -/

def minted (s : EvictionStore cfg) : StoreOp → List UInt64
  | .put _ _ _ _ => [s.nextVersion]
  | .mintVersion => [s.nextVersion]
  | _ => []

def acceptedVersion (s : EvictionStore cfg) (key : Key) (entry : VersionedEntry) : List UInt64 :=
  if s.rejects key entry then [] else [entry.version]

def accepted (s : EvictionStore cfg) : StoreOp → List UInt64
  | .put key value ttl clk =>
    s.mintVersion.2.acceptedVersion key (putEntry s.nextVersion value ttl clk.now)
  | .putVersioned key entry _ => s.acceptedVersion key entry
  | .removeVersioned key version writer clk =>
    s.acceptedVersion key (tombstone version writer (clk.now + s.tombstoneGc))
  | _ => []

def ledger (s : EvictionStore cfg) : List StoreOp → List UInt64
  | [] => []
  | op :: ops => s.minted op ++ s.accepted op ++ (s.apply op).ledger ops

/-- The versions brought in and the counter stay below `2^62 - 1`. -/
def InRange (s : EvictionStore cfg) : List StoreOp → Prop
  | [] => s.nextVersion.toNat < 2 ^ 62 - 1
  | op :: ops => s.nextVersion.toNat < 2 ^ 62 - 1 ∧
    (∀ v ∈ op.supplied, v.toNat < 2 ^ 62 - 1) ∧ (s.apply op).InRange ops

/-! ## 2. The counter -/

theorem le_observeVersion (s : EvictionStore cfg) (v : UInt64) :
    s.nextVersion ≤ (s.observeVersion v).nextVersion ∧ v ≤ (s.observeVersion v).nextVersion := by
  unfold observeVersion
  split
  · rename_i h
    exact ⟨UInt64.le_of_lt h, UInt64.le_refl v⟩
  · rename_i h
    exact ⟨UInt64.le_refl _, UInt64.not_lt.mp h⟩

theorem lt_mintVersion (h : s.nextVersion.toNat < 2 ^ 62 - 1) :
    s.nextVersion < s.mintVersion.2.nextVersion := by
  show s.nextVersion < s.nextVersion + 1
  rw [UInt64.lt_iff_toNat_lt, UInt64.toNat_add, UInt64.toNat_one, Nat.mod_eq_of_lt (by omega)]
  exact Nat.lt_succ_self _

theorem version_lt_succ (e : VersionedEntry) : e.version < e.version + 1 := by
  have hlt := e.version_lt
  rw [UInt64.lt_iff_toNat_lt, UInt64.toNat_add, UInt64.toNat_one, Nat.mod_eq_of_lt (by omega)]
  exact Nat.lt_succ_self _

theorem putVersionedAt_counter (s : EvictionStore cfg) (key : Key) (entry : VersionedEntry)
    (now : Nanos) (clk : ClockReading) :
    s.nextVersion ≤ (s.putVersionedAt key entry now clk).2.nextVersion ∧
      ∀ v ∈ s.acceptedVersion key entry,
        v < (s.putVersionedAt key entry now clk).2.nextVersion := by
  unfold acceptedVersion
  cases hrej : s.rejects key entry with
  | true =>
    rw [putVersionedAt_of_rejects hrej, if_pos rfl]
    exact ⟨UInt64.le_refl _, forall_mem_nil _⟩
  | false =>
    obtain ⟨hkeep, hraise⟩ := le_observeVersion s (entry.version + 1)
    rw [(putVersionedAt_fields hrej now clk).2, if_neg Bool.false_ne_true]
    refine ⟨hkeep, fun v hv => ?_⟩
    rw [mem_singleton.mp hv]
    exact UInt64.lt_of_lt_of_le (version_lt_succ entry) hraise

theorem apply_counter (hs : s.Inv) (h : s.nextVersion.toNat < 2 ^ 62 - 1) (op : StoreOp) :
    s.nextVersion ≤ (s.apply op).nextVersion ∧
      ∀ v ∈ s.minted op ++ s.accepted op, v < (s.apply op).nextVersion := by
  have hsame : ∀ {t : EvictionStore cfg}, t.nextVersion = s.nextVersion →
      s.nextVersion ≤ t.nextVersion ∧ ∀ v ∈ ([] : List UInt64), v < t.nextVersion := by
    intro t ht
    exact ⟨ht ▸ UInt64.le_refl _, forall_mem_nil _⟩
  have hdrifts := fun hop : op.drifts = true => congrArg Prod.snd (apply_drifts hs hop).counters_eq
  cases op with
  | put key value ttl clk =>
    obtain ⟨hle, hacc⟩ := putVersionedAt_counter s.mintVersion.2 key
      (putEntry s.nextVersion value ttl clk.now)
      (if (putEntry s.nextVersion value ttl clk.now).hasTtl then clk.now else 0) clk
    have hmint := lt_mintVersion h
    refine ⟨UInt64.le_of_lt (UInt64.lt_of_lt_of_le hmint hle), fun v hv => ?_⟩
    rcases mem_append.mp hv with hv | hv
    · rw [mem_singleton.mp hv]
      exact UInt64.lt_of_lt_of_le hmint hle
    · exact hacc v hv
  | putVersioned key entry clk => exact putVersionedAt_counter s key entry _ clk
  | removeVersioned key version writer clk => exact putVersionedAt_counter s key _ _ clk
  | mintVersion =>
    have hmint := lt_mintVersion h
    refine ⟨UInt64.le_of_lt hmint, fun v hv => ?_⟩
    rw [mem_singleton.mp hv]
    exact hmint
  | evictExpired now => exact hsame (congrArg Prod.snd (evictExpired_sweeps hs now).counters_eq)
  | _ => exact hsame (hdrifts rfl)

theorem ledger_lt {ops : List StoreOp} (hs : s.Inv) (h : s.InRange ops) :
    s.nextVersion ≤ (ops.foldl apply s).nextVersion ∧
      ∀ v ∈ s.ledger ops, v < (ops.foldl apply s).nextVersion := by
  induction ops generalizing s with
  | nil => exact ⟨UInt64.le_refl _, forall_mem_nil _⟩
  | cons op ops ih =>
    obtain ⟨hcounter, -, hrest⟩ := h
    obtain ⟨hstep, hissued⟩ := apply_counter hs hcounter op
    obtain ⟨hle, hlater⟩ := ih (apply_inv hs op) hrest
    refine ⟨UInt64.le_trans hstep hle, fun v hv => ?_⟩
    rcases mem_append.mp hv with hv | hv
    · exact UInt64.lt_of_lt_of_le (hissued v hv) hle
    · exact hlater v hv

/-! ## 3. Residents -/

def Ahead (s : EvictionStore cfg) : Prop :=
  ∀ i, ∀ c ∈ (s.shards i).cells, c.entry.version < s.nextVersion

theorem Ahead.moves (h : s.Ahead) (hmoves : Moves s s') (hle : s.nextVersion ≤ s'.nextVersion) :
    s'.Ahead := fun i c hc => UInt64.lt_of_lt_of_le (h i c (hmoves.cells_subset i c hc)) hle

theorem Ahead.of_le {t : EvictionStore cfg} (h : s.Ahead) (hsh : t.shards = s.shards)
    (hle : s.nextVersion ≤ t.nextVersion) : t.Ahead := by
  intro i c hc
  rw [hsh] at hc
  exact UInt64.lt_of_lt_of_le (h i c hc) hle

theorem putVersionedAt_ahead (hs : s.Inv) (h : s.Ahead) (key : Key) (entry : VersionedEntry)
    (now : Nanos) (clk : ClockReading) : (s.putVersionedAt key entry now clk).2.Ahead := by
  obtain ⟨hle, hacc⟩ := putVersionedAt_counter s key entry now clk
  intro i c hc
  rcases mem_cells_putVersionedAt hs hc with hold | ⟨hrej, hentry⟩
  · exact UInt64.lt_of_lt_of_le (h i c hold) hle
  · rw [hentry]
    refine hacc _ ?_
    rw [acceptedVersion, hrej]
    exact mem_singleton_self _

theorem apply_ahead (hs : s.Inv) (h : s.Ahead) (hcounter : s.nextVersion.toNat < 2 ^ 62 - 1)
    (op : StoreOp) : (s.apply op).Ahead := by
  cases op with
  | put key value ttl clk =>
    exact putVersionedAt_ahead hs.mint
      (h.of_le rfl (UInt64.le_of_lt (lt_mintVersion hcounter))) _ _ _ _
  | putVersioned | removeVersioned => exact putVersionedAt_ahead hs h _ _ _ _
  | _ => exact h.moves (apply_moves hs rfl) (apply_counter hs hcounter _).1

theorem foldl_ahead {ops : List StoreOp} (hs : s.Inv) (h : s.Ahead) (hrange : s.InRange ops) :
    (ops.foldl apply s).Inv ∧ (ops.foldl apply s).Ahead ∧
      (ops.foldl apply s).nextVersion.toNat < 2 ^ 62 - 1 := by
  induction ops generalizing s with
  | nil => exact ⟨hs, h, hrange⟩
  | cons op ops ih => exact ih (apply_inv hs op) (apply_ahead hs h hrange.1 op) hrange.2.2

/-! ## 4. A put is read back -/

theorem accepts_of_ok {key : Key} {entry : VersionedEntry} {now : Nanos} {clk : ClockReading}
    (hs : s.Inv) (hnewer : ∀ c ∈ (s.shards (cfg.shardFor key)).cells,
      c.entry.version < entry.version)
    (hok : (s.putVersionedAt key entry now clk).1 = .ok ()) : s.rejects key entry = false := by
  unfold rejects
  cases hf : (s.shards (cfg.shardFor key)).find key with
  | some n =>
    obtain ⟨hn, -⟩ := (hs.shard _).find_eq.mp hf
    have hlt := hnewer n.toCell (mem_map_of_mem hn)
    refine decide_eq_false fun hless => ?_
    have hle := LwwStamp.version_le (compareLww_eq_less.mp hless).le
    exact UInt64.not_lt.mpr hle hlt
  | none =>
    refine decide_eq_false fun hbig => ?_
    unfold putVersionedAt at hok
    simp only [hf, if_pos hbig] at hok
    cases hok

theorem get_after_put (hs : s.Inv) (h : s.Ahead) (hcounter : s.nextVersion.toNat < 2 ^ 62 - 1)
    {key : Key} {value : Bytes} {clk : ClockReading}
    (hok : (s.put key value none clk).1 = .ok ())
    (hkept : ∀ n ∈ s.evictedBy (cfg.shardFor key) (.put key value none clk), n.key ≠ key)
    (now : Nanos) : ((s.put key value none clk).2.get key now).1 = some value := by
  have hmint : s.mintVersion.2.Inv := hs.of_shards rfl le_rfl
  have hversion : (putEntry s.nextVersion value none clk.now).version = s.nextVersion :=
    version_setVersion _ (by omega)
  have haccept : s.mintVersion.2.rejects key (putEntry s.nextVersion value none clk.now) = false :=
    accepts_of_ok hmint (fun c hc => (h _ c hc).trans_eq hversion.symm) hok
  obtain ⟨-, hkey, hentry, rest, hnew, -⟩ :=
    write_spec hmint key (putEntry s.nextVersion value none clk.now)
  -- the node written is among the victims or still there
  have hrun := (apply_evicts hs (.put key value none clk) (cfg.shardFor key)).cells
  have hself := hnew.mem_iff.mpr mem_cons_self
  have hbefore : s.beforeEviction (.put key value none clk) =
      (s.mintVersion.2.write key (putEntry s.nextVersion value none clk.now)).2 := by
    show s.mintVersion.2.acceptWrite key _ = _
    rw [acceptWrite, haccept, if_neg Bool.false_ne_true]
  rw [hbefore] at hrun
  have hstay : (s.mintVersion.2.write key (putEntry s.nextVersion value none clk.now)).1 ∈
      ((s.put key value none clk).2.shards (cfg.shardFor key)).cells := by
    rcases mem_append.mp (hrun.mem_iff.mp hself) with hgone | hstay
    · obtain ⟨n, hn, hcell⟩ := mem_map.mp hgone
      exact absurd ((congrArg Cell.key hcell).trans hkey) (hkept n hn)
    · exact hstay
  obtain ⟨n, hn, hcell⟩ := Shard.mem_cells.mp hstay
  have hinv : (s.put key value none clk).2.Inv := apply_inv hs (.put key value none clk)
  have hfound := (hinv.shard (cfg.shardFor key)).find_eq.mpr
    ⟨hn, (congrArg Cell.key hcell).trans hkey⟩
  have hwritten : n.entry = putEntry s.nextVersion value none clk.now :=
    (congrArg Cell.entry hcell).trans hentry
  have httl : n.entry.hasTtl = false := by
    rw [hwritten, putEntry, hasTtl_setVersion]
    show ((0 : UInt64) &&& 1 != 0) = false
    decide
  have hlive : n.entry.isTombstone = false := by
    rw [hwritten, putEntry, isTombstone_setVersion]
    show ((0 : UInt64) &&& 2 != 0) = false
    decide
  unfold get
  dsimp only
  rw [hfound]
  dsimp only
  rw [expiredAt, httl, hlive]
  simp [hwritten, putEntry, setVersion]

/-! ## 5. Every history -/

/-- **A local write is visible and never outranked by the past**: the version minted next is above
every version minted or accepted before, and a put without TTL that succeeds and is not evicted in
its own call is read back. -/
theorem local_write_visible (cfg : StoreConfig) (capacityBytes : Nat) (now : Nanos)
    (ops : List StoreOp) (h : (start cfg capacityBytes now).InRange ops) :
    (∀ op, ∀ v ∈ (after cfg capacityBytes now ops).minted op,
      ∀ w ∈ (start cfg capacityBytes now).ledger ops, w < v) ∧
    ∀ key value clk,
      ((after cfg capacityBytes now ops).put key value none clk).1 = .ok () →
      (∀ n ∈ (after cfg capacityBytes now ops).evictedBy (cfg.shardFor key)
        (.put key value none clk), n.key ≠ key) →
      ∀ later, (((after cfg capacityBytes now ops).put key value none clk).2.get key later).1 =
        some value := by
  have hstart : (start cfg capacityBytes now).Ahead := fun i => forall_mem_nil _
  obtain ⟨hinv, hahead, hcounter⟩ := foldl_ahead (inv_start cfg capacityBytes now) hstart h
  refine ⟨fun op v hv w hw => ?_, fun key value clk hok hkept later =>
    get_after_put hinv hahead hcounter hok hkept later⟩
  have hlt := (ledger_lt (inv_start cfg capacityBytes now) h).2 w hw
  have hv : v = (after cfg capacityBytes now ops).nextVersion := by
    cases op with
    | put | mintVersion => exact mem_singleton.mp hv
    | _ => exact absurd hv not_mem_nil
  rw [hv]
  exact hlt

def replicated : List StoreOp :=
  [.putVersioned [1] (VersionedEntry.setVersion { value := [7] } 5) ⟨0, 0⟩]

theorem inRange_replicated : (start (oneShardStore .lfu) 1000 0).InRange replicated := by
  have hstart : (start (oneShardStore .lfu) 1000 0).nextVersion = 0 := by decide +kernel
  have hafter : (after (oneShardStore .lfu) 1000 0 replicated).nextVersion = 6 := by decide +kernel
  refine ⟨?_, fun v hv => ?_, ?_⟩
  · rw [hstart]
    norm_num
  · obtain rfl : v = 5 := by
      have hfive : ((setVersion { value := [7] } 5).version) = 5 := by decide +kernel
      exact (Option.mem_some_iff.mp hv).symm.trans hfive
    show (5 : ℕ) < 2 ^ 62 - 1
    norm_num
  · show (after (oneShardStore .lfu) 1000 0 replicated).nextVersion.toNat < 2 ^ 62 - 1
    rw [hafter]
    show (6 : ℕ) < 2 ^ 62 - 1
    norm_num

theorem local_write_visible_over_replica :
    ((5 : UInt64) ∈ (start (oneShardStore .lfu) 1000 0).ledger replicated ∧
      (6 : UInt64) ∈ (after (oneShardStore .lfu) 1000 0 replicated).minted .mintVersion ∧
        (5 : UInt64) < 6) ∧
    (((after (oneShardStore .lfu) 1000 0 replicated).put [1] [9] none ⟨2, 0⟩).2.get [1] 3).1 =
      some [9] := by
  obtain ⟨hledger, hvisible⟩ :=
    local_write_visible (oneShardStore .lfu) 1000 0 replicated inRange_replicated
  have hold : (5 : UInt64) ∈ (start (oneShardStore .lfu) 1000 0).ledger replicated := by
    decide +kernel
  have hnew :
      (6 : UInt64) ∈ (after (oneShardStore .lfu) 1000 0 replicated).minted .mintVersion := by
    decide +kernel
  exact ⟨⟨hold, hnew, hledger .mintVersion 6 hnew 5 hold⟩,
    hvisible [1] [9] ⟨2, 0⟩ (by decide +kernel) (by decide +kernel) 3⟩

end EvictionStore

end Cinder
