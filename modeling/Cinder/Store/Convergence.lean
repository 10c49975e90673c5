/-
Replicas converge (`include/cinder/store/detail/eviction_store_base.hpp`): two stores
that apply the same versioned writes, in any orders and any number of times, hold the same
contents.

The stores may have different policies, shard counts and capacities; nothing is expired, evicted
or turned away for its size. The apply path of the store is shown to be, key by key, the write
of the last-writer-wins register (`LwwLog.write`).
-/
import Cinder.Store.Moves

namespace Cinder

open Option VersionedEntry LwwLog Prod List

namespace EvictionStore

variable {cfg : StoreConfig} {s : EvictionStore cfg}

/-! ## 1. Entries by key -/

def entryAt (s : EvictionStore cfg) (key : Key) : Option VersionedEntry :=
  ((s.shards (cfg.shardFor key)).find key).map fun n => n.entry

theorem entryAt_eq_some (hs : s.Inv) {key : Key} {e : VersionedEntry} :
    s.entryAt key = some e ↔
      ∃ c ∈ (s.shards (cfg.shardFor key)).cells, c.key = key ∧ c.entry = e := by
  rw [entryAt, map_eq_some_iff]
  constructor
  · rintro ⟨n, hn, rfl⟩
    obtain ⟨hmem, hkey⟩ := (hs.shard _).find_eq.mp hn
    exact ⟨n.toCell, mem_map_of_mem hmem, hkey, rfl⟩
  · rintro ⟨c, hc, hkey, rfl⟩
    obtain ⟨n, hn, rfl⟩ := Shard.mem_cells.mp hc
    exact ⟨n, (hs.shard _).find_eq.mpr ⟨hn, hkey⟩, rfl⟩

theorem entryAt_congr {t : EvictionStore cfg} (hs : s.Inv) (ht : t.Inv) {key : Key}
    (h : ∀ c : Cell, c.key = key → (c ∈ (t.shards (cfg.shardFor key)).cells ↔
      c ∈ (s.shards (cfg.shardFor key)).cells)) : t.entryAt key = s.entryAt key := by
  refine Option.ext fun e => ?_
  rw [entryAt_eq_some hs, entryAt_eq_some ht]
  constructor
  · rintro ⟨c, hc, hkey, he⟩
    exact ⟨c, (h c hkey).mp hc, hkey, he⟩
  · rintro ⟨c, hc, hkey, he⟩
    exact ⟨c, (h c hkey).mpr hc, hkey, he⟩

/-- The put neither meets the capacity check nor evicts. -/
def Roomy (s : EvictionStore cfg) (key : Key) (entry : VersionedEntry) : Prop :=
  ((s.shards (cfg.shardFor key)).find key = none →
    cfg.policy.nodeSize ⟨s.nextAddr, key, entry⟩ ≤ s.shardCapacity) ∧
  (((s.write key entry).2.evictIfNeeded (cfg.shardFor key)).shards (cfg.shardFor key)).cells =
    ((s.write key entry).2.shards (cfg.shardFor key)).cells

instance (s : EvictionStore cfg) (key : Key) (entry : VersionedEntry) :
    Decidable (s.Roomy key entry) := inferInstanceAs (Decidable (_ ∧ _))

theorem cells_putVersionedAt_of_roomy {key : Key} {entry : VersionedEntry}
    (hroom : s.Roomy key entry) (haccept : s.rejects key entry = false) (now : Nanos)
    (clk : ClockReading) (j : Fin cfg.numShards) :
    ((s.putVersionedAt key entry now clk).2.shards j).cells =
      ((s.write key entry).2.shards j).cells := by
  rw [putVersionedAt_shard (f := Shard.cells) (fun _ _ => rfl) haccept]
  by_cases hj : j = cfg.shardFor key
  · subst hj
    exact hroom.2
  · rw [evictIfNeeded, (evictLoop_frame _ _ _).1 j hj]

theorem entryAt_putVersionedAt (hs : s.Inv) {key : Key} {entry : VersionedEntry}
    (hroom : s.Roomy key entry) (now : Nanos) (clk : ClockReading) (k : Key) :
    (s.putVersionedAt key entry now clk).2.entryAt k =
      if k = key then LwwLog.write stampOf (s.entryAt key) (some entry) else s.entryAt k := by
  have hinv := putVersionedAt_inv hs key entry now clk
  cases hrej : s.rejects key entry with
  | true =>
    rw [putVersionedAt_of_rejects hrej]
    split
    · rename_i hk
      subst hk
      unfold rejects at hrej
      cases hf : (s.shards (cfg.shardFor k)).find k with
      | some n =>
        simp only [hf, decide_eq_true_eq, compareLww_eq_less] at hrej
        rw [entryAt, hf, map_some, LwwLog.write, if_pos hrej]
      | none =>
        simp only [hf, decide_eq_true_eq] at hrej
        exact absurd (hroom.1 hf) (not_le.mpr hrej)
    · rfl
  | false =>
    have hcells := cells_putVersionedAt_of_roomy hroom hrej now clk
    obtain ⟨-, hkey, hentry, rest, hnew, hold⟩ := write_spec hs key entry
    split
    · rename_i hk
      subst hk
      have hle : ∀ c, s.entryAt k = some c → stampOf c ≤ stampOf entry := by
        intro c hc
        obtain ⟨n, hn, rfl⟩ := map_eq_some_iff.mp hc
        simp only [rejects, hn, decide_eq_false_iff_not, compareLww_eq_less] at hrej
        exact not_lt.mp hrej
      rw [write_of_le stampOf hle, entryAt_eq_some hinv]
      refine ⟨(s.write k entry).1, ?_, hkey, hentry⟩
      rw [hcells]
      exact hnew.mem_iff.mpr mem_cons_self
    · rename_i hk
      refine entryAt_congr hs hinv fun c hc => ?_
      rw [hcells]
      by_cases hshard : cfg.shardFor k = cfg.shardFor key
      · -- the same shard: the written node and the one it replaces have the other key
        have hne : c.key ≠ key := fun e => hk (hc.symm.trans e)
        rw [hshard, hnew.mem_iff, hold.mem_iff, mem_cons]
        have hwritten : c ≠ (s.write key entry).1 := fun e => hne (e ▸ hkey)
        cases hf : (s.shards (cfg.shardFor key)).find key with
        | none => simp [hwritten]
        | some n =>
          have hreplaced : c ≠ n.toCell := by
            rintro rfl
            exact hne ((hs.shard _).find_eq.mp hf).2
          simp [hwritten, hreplaced]
      · rw [write_shards_ne hshard]

/-! ## 2. Histories of versioned writes -/

inductive VersionedOp where
  | put (key : Key) (entry : VersionedEntry)
  | delete (key : Key) (version writer : UInt64)
  deriving DecidableEq, Repr

namespace VersionedOp

def key : VersionedOp → Key
  | put key _ => key
  | delete key _ _ => key

/-- What an operation writes: the stamp and the value. -/
def content : VersionedOp → LwwStamp × Bytes
  | put _ entry => (stampOf entry, entry.value)
  | delete _ version writer => (⟨version, writer, true⟩, [])

/-- A version that an entry can hold. A put has one already. -/
def VersionFits : VersionedOp → Prop
  | put _ _ => True
  | delete _ version _ => version.toNat < 2 ^ 62

end VersionedOp

variable (s)

def opEntry (clk : ClockReading) : VersionedOp → VersionedEntry
  | .put _ entry => entry
  | .delete _ version writer => tombstone version writer (clk.now + s.tombstoneGc)

abbrev TimedOp := ClockReading × VersionedOp

def applyVersioned (d : TimedOp) : EvictionStore cfg :=
  match d.2 with
  | .put key entry => (s.putVersioned key entry d.1).2
  | .delete key version writer => (s.removeVersioned key version writer d.1).2

def run (ds : List TimedOp) : EvictionStore cfg := ds.foldl applyVersioned s

variable {s}

def NeverEvicts : EvictionStore cfg → List TimedOp → Prop
  | _, [] => True
  | s, d :: ds => s.Roomy d.2.key (s.opEntry d.1 d.2) ∧ NeverEvicts (s.applyVersioned d) ds

theorem applyVersioned_eq (s : EvictionStore cfg) (d : TimedOp) :
    ∃ now, s.applyVersioned d =
      (s.putVersionedAt d.2.key (s.opEntry d.1 d.2) now d.1).2 := by
  obtain ⟨clk, op⟩ := d
  cases op with
  | _ => exact ⟨_, rfl⟩

theorem applyVersioned_inv (hs : s.Inv) (d : TimedOp) : (s.applyVersioned d).Inv := by
  obtain ⟨now, h⟩ := applyVersioned_eq s d
  rw [h]
  exact putVersionedAt_inv hs _ _ now _

def contentAt (s : EvictionStore cfg) (key : Key) : Option (LwwStamp × Bytes) :=
  (s.entryAt key).map fun e => (stampOf e, e.value)

theorem stampOf_tombstone {version : UInt64} (h : version.toNat < 2 ^ 62) (writer : UInt64)
    (deadline : Nanos) : stampOf (tombstone version writer deadline) = ⟨version, writer, true⟩ := by
  rw [tombstone, stampOf_setHasTtl]
  have hver : (setVersion {} version).version = version := version_setVersion _ h
  refine LwwStamp.mk.injEq .. |>.mpr ⟨?_, rfl, ?_⟩
  · exact (version_setTombstone _ true).trans hver
  · exact isTombstone_setTombstone _ true

theorem opEntry_content (s : EvictionStore cfg) (clk : ClockReading) {op : VersionedOp}
    (h : op.VersionFits) : (stampOf (s.opEntry clk op), (s.opEntry clk op).value) = op.content := by
  cases op with
  | put key entry => rfl
  | delete key version writer => exact Prod.ext (stampOf_tombstone h writer _) rfl

theorem contentAt_applyVersioned (hs : s.Inv) {d : TimedOp}
    (hroom : s.Roomy d.2.key (s.opEntry d.1 d.2)) (hfits : d.2.VersionFits) (k : Key) :
    (s.applyVersioned d).contentAt k =
      if k = d.2.key then LwwLog.write Prod.fst (s.contentAt d.2.key) (some d.2.content)
      else s.contentAt k := by
  obtain ⟨now, h⟩ := applyVersioned_eq s d
  rw [h, contentAt, entryAt_putVersionedAt hs hroom]
  split
  · rw [← opEntry_content s d.1 hfits, contentAt]
    cases s.entryAt d.2.key with
    | none => rfl
    | some c =>
      simp only [LwwLog.write, map_some]
      split <;> rfl
  · rfl

/-- The writes of a history, as records of a log. -/
def records (ds : List TimedOp) : List (LwwLog.Rec Key (LwwStamp × Bytes)) :=
  ds.map fun d => (d.2.key, some d.2.content)

theorem contentAt_run (hs : s.Inv) {ds : List TimedOp} (hroom : NeverEvicts s ds)
    (hfits : ∀ d ∈ ds, d.2.VersionFits) :
    (s.run ds).contentAt = LwwLog.replay Prod.fst s.contentAt (records ds) := by
  induction ds generalizing s with
  | nil => rfl
  | cons d ds ih =>
    have hstep : (s.applyVersioned d).contentAt =
        applyRec fst s.contentAt (d.2.key, some d.2.content) := by
      funext k
      rw [contentAt_applyVersioned hs hroom.1 (hfits d mem_cons_self), applyRec,
        Function.update_apply]
    have hrest := ih (applyVersioned_inv hs d) hroom.2 fun d hd => hfits d (mem_cons_of_mem _ hd)
    rw [hstep] at hrest
    exact hrest

/-! ## 3. Convergence -/

/-- The operations are applied in some order, each at least as often as it occurs. -/
structure Applies (ops : Multiset VersionedOp) (ds : List TimedOp) : Prop where
  all : ops ≤ ((ds.map Prod.snd : List VersionedOp) : Multiset VersionedOp)
  only : ∀ d ∈ ds, d.2 ∈ ops

/-- The greatest write of a key: none, if there is none. -/
def IsGreatest (ops : Multiset VersionedOp) (key : Key) : Option (LwwStamp × Bytes) → Prop
  | none => ∀ op ∈ ops, op.key ≠ key
  | some r => (∃ op ∈ ops, op.key = key ∧ op.content = r) ∧
      ∀ op ∈ ops, op.key = key → op.content.1 ≤ r.1

/-- Equal stamps carry equal payloads. -/
def StampsIdentify (ops : Multiset VersionedOp) : Prop :=
  ∀ op ∈ ops, ∀ op' ∈ ops, op.key = op'.key → op.content.1 = op'.content.1 →
    op.content.2 = op'.content.2

variable {ops : Multiset VersionedOp}

theorem isGreatest_unique (hident : StampsIdentify ops) {key : Key}
    {x y : Option (LwwStamp × Bytes)} (hx : IsGreatest ops key x) (hy : IsGreatest ops key y) :
    x = y := by
  cases x with
  | none =>
    cases y with
    | none => rfl
    | some r =>
      obtain ⟨⟨op, hop, hkey, -⟩, -⟩ := hy
      exact absurd hkey (hx op hop)
  | some r =>
    obtain ⟨⟨op, hop, hkey, rfl⟩, hmax⟩ := hx
    cases y with
    | none => exact absurd hkey (hy op hop)
    | some r' =>
      obtain ⟨⟨op', hop', hkey', rfl⟩, hmax'⟩ := hy
      have hstamp := le_antisymm (hmax' op hop hkey) (hmax op' hop' hkey')
      have hvalue := hident op hop op' hop' (hkey.trans hkey'.symm) hstamp
      exact congrArg some (Prod.ext hstamp hvalue)

theorem mem_opsOf_records {ds : List TimedOp} (h : Applies ops ds)
    {key : Key} {x : Option (LwwStamp × Bytes)} :
    x ∈ LwwLog.opsOf key (records ds) ↔ ∃ op ∈ ops, op.key = key ∧ x = some op.content := by
  rw [mem_opsOf, records, List.mem_map]
  constructor
  · rintro ⟨d, hd, heq⟩
    obtain ⟨hkey, rfl⟩ := Prod.mk.inj heq
    exact ⟨d.2, h.only d hd, hkey, rfl⟩
  · rintro ⟨op, hop, rfl, rfl⟩
    obtain ⟨d, hd, rfl⟩ := mem_map.mp (Multiset.mem_coe.mp (Multiset.mem_of_le h.all hop))
    exact ⟨d, hd, rfl⟩

theorem contentAt_start (cfg : StoreConfig) (capacityBytes : Nat) (now : Nanos) (key : Key) :
    (start cfg capacityBytes now).contentAt key = none := by
  have hnone : (start cfg capacityBytes now).entryAt key = none := by
    refine eq_none_iff_forall_ne_some.mpr fun e he => ?_
    obtain ⟨c, hc, -⟩ := (entryAt_eq_some (inv_start cfg capacityBytes now)).mp he
    simp [start, Shard.cells] at hc
  rw [contentAt, hnone, map_none]

theorem isGreatest_contentAt (hfits : ∀ op ∈ ops, op.VersionFits)
    {capacityBytes : Nat} {now : Nanos} {ds : List TimedOp} (h : Applies ops ds)
    (hroom : NeverEvicts (start cfg capacityBytes now) ds) (key : Key) :
    IsGreatest ops key (((start cfg capacityBytes now).run ds).contentAt key) := by
  have hmem := @mem_opsOf_records ops ds h key
  have hnone : none ∉ opsOf key (records ds) := by
    intro hn
    obtain ⟨op, -, -, e⟩ := hmem.mp hn
    cases e
  rw [contentAt_run (inv_start cfg capacityBytes now) hroom fun d hd => hfits d.2 (h.only d hd),
    replay_apply, contentAt_start]
  cases hfold : fold fst none (opsOf key (records ds)) with
  | some r =>
    obtain ⟨hfrom, -, hmax⟩ := fold_newest fst hnone hfold
    have hin := hfrom.resolve_left nofun
    obtain ⟨op, hop, hkey, e⟩ := hmem.mp hin
    refine ⟨⟨op, hop, hkey, (some.inj e).symm⟩, fun op' hop' hkey' => ?_⟩
    exact hmax _ (hmem.mpr ⟨op', hop', hkey', rfl⟩)
  | none =>
    intro op hop hkey
    obtain ⟨pre, post, hsplit⟩ := append_of_mem (hmem.mpr ⟨op, hop, hkey, rfl⟩)
    -- the write of this operation is at least as new as what the others left
    rw [hsplit] at hnone hfold
    rw [LwwLog.fold_append, LwwLog.fold_cons] at hfold
    have hwritten : ∃ r, LwwLog.write Prod.fst (LwwLog.fold Prod.fst none pre)
        (some op.content) = some r := by
      rcases LwwLog.write_some_cases Prod.fst (LwwLog.fold Prod.fst none pre) op.content with
        hle | ⟨c, hc, -, hkept⟩
      · exact ⟨op.content, LwwLog.write_of_le Prod.fst hle⟩
      · exact ⟨c, hkept.trans hc⟩
    obtain ⟨r, hr⟩ := hwritten
    have hpost : none ∉ post := fun hn => hnone (mem_append_right _ (mem_cons_of_mem _ hn))
    obtain ⟨b, hb, -⟩ := below_fold fst (some r) hpost r rfl
    rw [hr, hb] at hfold
    cases hfold

/-- **Replicas converge.** Two stores, of any policies, shard counts and capacities, that start
empty, apply the same versioned writes in any orders with any repetitions and evict nothing, end
with the greatest write under every key. -/
theorem replicas_converge (ops : Multiset VersionedOp) (hfits : ∀ op ∈ ops, op.VersionFits)
    (hident : StampsIdentify ops) (cfg cfg' : StoreConfig) (capacityBytes capacityBytes' : Nat)
    (now now' : Nanos) (ds ds' : List TimedOp) (h : Applies ops ds) (h' : Applies ops ds')
    (hroom : NeverEvicts (start cfg capacityBytes now) ds)
    (hroom' : NeverEvicts (start cfg' capacityBytes' now') ds') (key : Key) :
    ((start cfg capacityBytes now).run ds).contentAt key =
        ((start cfg' capacityBytes' now').run ds').contentAt key ∧
      IsGreatest ops key (((start cfg capacityBytes now).run ds).contentAt key) := by
  have hleft := isGreatest_contentAt hfits h hroom key
  have hright := isGreatest_contentAt hfits h' hroom' key
  exact ⟨isGreatest_unique hident hleft hright, hleft⟩

/-- A store with two LFU shards, beside one with one LRU shard. -/
def lfuReplica : StoreConfig :=
  { policy := .lfu
    numShards := 2
    shardFor := fun key => if key = [1] then ⟨1, Nat.one_lt_two⟩ else ⟨0, Nat.two_pos⟩ }

def writeOne : VersionedOp := .put [1] (VersionedEntry.setVersion { value := [7] } 1)

def deleteOne : VersionedOp := .delete [1] 2 0

theorem replicas_converge_on_delete :
    ((start (oneShardStore .lru) 1000 0).run [(⟨5, 0⟩, writeOne), (⟨6, 0⟩, deleteOne)]).contentAt
        [1] = ((start lfuReplica 2000 3).run
          [(⟨8, 0⟩, deleteOne), (⟨9, 0⟩, writeOne), (⟨9, 0⟩, deleteOne)]).contentAt [1] ∧
      IsGreatest {writeOne, deleteOne} [1]
        (((start (oneShardStore .lru) 1000 0).run
          [(⟨5, 0⟩, writeOne), (⟨6, 0⟩, deleteOne)]).contentAt [1]) := by
  refine replicas_converge {writeOne, deleteOne} ?_ ?_
    (oneShardStore .lru) lfuReplica 1000 2000 0 3 _ _ ⟨le_rfl, by simp⟩ ⟨?_, by simp⟩ ?_ ?_ [1]
  · simp [writeOne, deleteOne, VersionedOp.VersionFits]
  · have hne : writeOne.content.1 ≠ deleteOne.content.1 := by decide
    intro op hop op' hop' _ hstamp
    simp only [Multiset.insert_eq_cons, Multiset.mem_cons, Multiset.mem_singleton] at hop hop'
    rcases hop with rfl | rfl <;> rcases hop' with rfl | rfl
    · rfl
    · exact absurd hstamp hne
    · exact absurd hstamp.symm hne
    · rfl
  · exact Multiset.coe_le.mpr (by decide)
  · exact ⟨by decide +kernel, by decide +kernel, trivial⟩
  · exact ⟨by decide +kernel, by decide +kernel, by decide +kernel, trivial⟩

end EvictionStore

end Cinder
