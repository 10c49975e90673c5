/-
Anti-entropy and the ring: which keys a round leaves on the two nodes
(`refreshPartners`, `pickPartner`, `applySync` and `onSyncRequest` in
`src/node/anti_entropy/core.cpp`).

A partner is a node that shares the replica set of SOME key. Digests, rows, diffs and needlists
then range over whole stores, and `applySync` installs what it is sent: no path of a round asks
the ring about a key. `rebalance` does, key by key.
-/
import Cinder.Hashing.Ring
import Cinder.Node.AntiEntropyJoin

namespace Cinder

open List

variable (ring : RingSnapshot)

/-- The replica set of a key; a replica factor out of range has none. -/
def RingSnapshot.replicaSet (hash64 : Bytes → UInt64) (replicaFactor : Int)
    (key : Key) : List NodeId :=
  match ring.getNodes hash64 key replicaFactor with
  | .ok desired => desired
  | .error _ => []

def RingSnapshot.Owns (hash64 : Bytes → UInt64) (replicaFactor : Int)
    (node : NodeId) (key : Key) : Prop := node ∈ ring.replicaSet hash64 replicaFactor key

instance (hash64 : Bytes → UInt64) (replicaFactor : Int) (node : NodeId)
    (key : Key) : Decidable (ring.Owns hash64 replicaFactor node key) :=
  inferInstanceAs (Decidable (node ∈ ring.replicaSet hash64 replicaFactor key))

/-- The store of a node holds only keys the node is a replica of. -/
def RingSnapshot.Placed (hash64 : Bytes → UInt64) (replicaFactor : Int)
    (node : NodeId) (t : Table) : Prop := ∀ key ∈ t.keys, ring.Owns hash64 replicaFactor node key

instance (hash64 : Bytes → UInt64) (replicaFactor : Int) (node : NodeId)
    (t : Table) : Decidable (ring.Placed hash64 replicaFactor node t) :=
  inferInstanceAs (Decidable (∀ key ∈ t.keys, ring.Owns hash64 replicaFactor node key))

namespace AntiEntropyManager

/-! ## 1. Partners -/

def consider (ring : RingSnapshot) (hash64 : Bytes → UInt64) (replicaFactor : Int) (self : NodeId)
    (candidates : List NodeId) (key : Key) : Except String (List NodeId) := do
  let nodes ← ring.getNodes hash64 key replicaFactor
  return nodes.foldl (fun set node =>
    if node = self ∨ node ∈ set then set else set.orderedInsert (· ≤ ·) node) candidates

/-- The loop of `refreshPartners`, left once there are more than 64 candidates. -/
def refreshLoop (ring : RingSnapshot) (hash64 : Bytes → UInt64) (replicaFactor : Int)
    (self : NodeId) : List Key → List NodeId → Except String (List NodeId)
  | [], candidates => .ok candidates
  | key :: rest, candidates => do
    let candidates ← consider ring hash64 replicaFactor self candidates key
    if 64 < candidates.length then return candidates
    else refreshLoop ring hash64 replicaFactor self rest candidates

def refreshPartners (ring : RingSnapshot) (hash64 : Bytes → UInt64) (replicaFactor : Int)
    (self : NodeId) (m : AntiEntropyManager) : Except String (List NodeId) :=
  if replicaFactor ≤ 1 then .ok []
  else refreshLoop ring hash64 replicaFactor self m.store.keys []

/-- `pickPartner` among the partners found, `partner_idx_` given. -/
def pickPartner (replicaFactor : Int) (partners : List NodeId) (partnerIdx : Nat) : Option NodeId :=
  if replicaFactor ≤ 1 then none
  else if partners = [] then none
  else partners[partnerIdx % partners.length]?

/-! ## 2. The keys of a round -/

section Keys

variable {xxh3 : Bytes → UInt64} {numBuckets : Nat} {a b m : AntiEntropyManager}

variable {t : Table} {msg : SyncMessage}

theorem mem_applySync {clk : ClockReading} {entries : List SyncEntry} {key : Key}
    (h : key ∈ t.applySync clk entries) : key ∈ t ∨ key ∈ entries.map SyncEntry.key := by
  by_cases hin : key ∈ entries.map SyncEntry.key
  · exact .inr hin
  · have hsome := AList.lookup_isSome.mpr h
    rw [lookup_applySync_of_notMem clk hin] at hsome
    exact .inl (AList.lookup_isSome.mp hsome)

theorem mem_selectLoop {maxBytes : Nat} {pairs : List (UInt64 × Key)} {bytes : Nat}
    {items : List (Key × VersionedEntry)} (hitems : ∀ p ∈ items, p.1 ∈ t) :
    ∀ p ∈ selectLoop t maxBytes pairs bytes items, p.1 ∈ t := by
  induction pairs generalizing bytes items with
  | nil => exact hitems
  | cons pair pairs ih =>
    unfold selectLoop
    split
    · exact ih hitems
    · rename_i existing hl
      have hmore : ∀ p ∈ items ++ [(pair.2, existing)], p.1 ∈ t := by
        intro p hp
        rcases mem_append.mp hp with hp | hp
        · exact hitems p hp
        · rw [mem_singleton.mp hp]
          exact AList.lookup_isSome.mp (by rw [hl]; rfl)
      dsimp only
      split
      · exact hitems
      · split
        · exact hmore
        · exact ih hmore

theorem keys_selected {pairs : List (UInt64 × Key)} {maxBytes : Nat} (clk : ClockReading) :
    ∀ key ∈ ((selectEntriesForPairs t pairs maxBytes).map
      fun p => SyncEntry.toWire clk p.1 p.2).map SyncEntry.key, key ∈ t := by
  intro key hkey
  rw [map_map, mem_map] at hkey
  obtain ⟨p, hp, rfl⟩ := hkey
  exact mem_selectLoop (forall_mem_nil _) p hp

theorem keys_resolve {response : DigestResponse} {r : Reconstruction}
    (h : resolve xxh3 numBuckets m response r = .ok (some msg)) :
    ∀ key ∈ msg.entries.map SyncEntry.key, key ∈ m.store := by
  unfold resolve at h
  split at h
  · cases h
  · split at h
    · cases h
    · split at h
      · cases h
      · dsimp only at h
        split at h
        · cases h
        · split at h
          · cases h
          · split at h
            · cases h
            · cases h
              exact keys_selected m.clock

theorem keys_finishRefinement {response : DigestResponse}
    (h : finishRefinement xxh3 numBuckets a b response = .ok (some msg)) :
    ∀ key ∈ msg.entries.map SyncEntry.key, key ∈ a.store := by
  unfold finishRefinement at h
  dsimp only at h
  split at h
  · exact keys_resolve h
  · split at h
    · cases h
    · split at h
      · cases h
      · exact keys_resolve h

variable (xxh3 b) in
theorem keys_onSyncRequest (hmsg : ∀ key ∈ msg.entries.map SyncEntry.key, key ∈ a.store) :
    (∀ key ∈ (onSyncRequest xxh3 b msg).1, key ∈ a.store ∨ key ∈ b.store) ∧
      ∀ key ∈ (onSyncRequest xxh3 b msg).2.map SyncEntry.key, key ∈ a.store ∨ key ∈ b.store := by
  have hstore : ∀ key ∈ b.store.applySync b.clock msg.entries, key ∈ a.store ∨ key ∈ b.store :=
    fun key hkey => (mem_applySync hkey).elim .inr fun hin => .inl (hmsg key hin)
  refine ⟨hstore, ?_⟩
  unfold onSyncRequest
  split
  · exact forall_mem_nil _
  · unfold selectEntriesForHashes
    split
    · exact forall_mem_nil _
    · exact fun key hkey => hstore key (keys_selected b.clock key hkey)

theorem runRound_keys {ta tb : Table} (h : runRound xxh3 numBuckets a b = .ok (ta, tb)) :
    ∀ key, key ∈ ta ∨ key ∈ tb → key ∈ a.store ∨ key ∈ b.store := by
  have hexchange : ∀ msg : Option SyncMessage,
      (∀ m ∈ msg, ∀ key ∈ m.entries.map SyncEntry.key, key ∈ a.store) →
      ∀ key, key ∈ (exchange xxh3 a b msg).1 ∨ key ∈ (exchange xxh3 a b msg).2 →
        key ∈ a.store ∨ key ∈ b.store := by
    intro msg hmsg key hkey
    cases msg with
    | none => exact hkey
    | some msg =>
      obtain ⟨hpartner, hserved⟩ := keys_onSyncRequest xxh3 b (hmsg msg rfl)
      rcases hkey with hkey | hkey
      · exact (mem_applySync hkey).elim .inl (hserved key)
      · exact hpartner key hkey
  unfold runRound at h
  split at h
  · cases h
  · split at h
    · cases h
    · dsimp only at h
      split at h
      · cases h
        exact fun key hkey => hkey
      · split at h
        · cases h
        · split at h
          · cases h
          · split at h
            · cases h
            · rename_i msg hmsg
              have hround := hexchange msg fun m hm => keys_finishRefinement (hm ▸ hmsg)
              rw [Except.ok.inj h] at hround
              exact hround

theorem mem_of_join {clk : ClockReading} {key : Key} (h : contentIn clk t key = joinAt a b key)
    (hkey : key ∈ a.store ∨ key ∈ b.store) : key ∈ t := by
  have hin : ∀ (clk : ClockReading) (t : Table), key ∈ t ↔ (contentIn clk t key).isSome = true := by
    intro clk t
    rw [contentIn, Option.isSome_map, AList.lookup_isSome]
  rw [hin clk, h, joinAt]
  split
  · rename_i hlt
    exact (hin _ _).mp (mem_of_stampAt_lt hlt)
  · rename_i hge
    refine (hin _ _).mp (hkey.elim id fun hb => ?_)
    by_contra ha
    obtain ⟨entry, hl⟩ := Option.isSome_iff_exists.mp (AList.lookup_isSome.mpr hb)
    rw [stampAt_of_none (AList.lookup_eq_none.mpr ha), stampAt_of_lookup hl] at hge
    exact hge (WithBot.bot_lt_coe _)

end Keys

/-! ## 3. Placement -/

def SharesAll (ring : RingSnapshot) (hash64 : Bytes → UInt64) (replicaFactor : Int)
    (ida idb : NodeId) (a b : AntiEntropyManager) : Prop :=
  (∀ key ∈ b.store.keys, ring.Owns hash64 replicaFactor ida key) ∧
    ∀ key ∈ a.store.keys, ring.Owns hash64 replicaFactor idb key

instance (ring : RingSnapshot) (hash64 : Bytes → UInt64) (replicaFactor : Int) (ida idb : NodeId)
    (a b : AntiEntropyManager) : Decidable (SharesAll ring hash64 replicaFactor ida idb a b) :=
  inferInstanceAs (Decidable (_ ∧ _))

/-- **A round keeps the placement exactly if each node is a replica of every key of the other.** If
so, it is kept whatever the hashes and the budgets; and a round at rest whose budgets cover all
differences keeps it only then. -/
theorem placement_kept_iff (ring : RingSnapshot) (hash64 : Bytes → UInt64) (replicaFactor : Int)
    (ida idb : NodeId) (xxh3 : Bytes → UInt64) (numBuckets : Nat) (a b : AntiEntropyManager)
    (ha : ring.Placed hash64 replicaFactor ida a.store)
    (hb : ring.Placed hash64 replicaFactor idb b.store) :
    (∀ ta tb, runRound xxh3 numBuckets a b = .ok (ta, tb) →
      SharesAll ring hash64 replicaFactor ida idb a b →
        ring.Placed hash64 replicaFactor ida ta ∧ ring.Placed hash64 replicaFactor idb tb) ∧
    (AtRest xxh3 numBuckets a b → BudgetsCover xxh3 numBuckets a b →
      ∃ ta tb, runRound xxh3 numBuckets a b = .ok (ta, tb) ∧
        (ring.Placed hash64 replicaFactor ida ta ∧ ring.Placed hash64 replicaFactor idb tb ↔
          SharesAll ring hash64 replicaFactor ida idb a b)) := by
  have hkeep : ∀ ta tb, runRound xxh3 numBuckets a b = .ok (ta, tb) →
      SharesAll ring hash64 replicaFactor ida idb a b →
        ring.Placed hash64 replicaFactor ida ta ∧ ring.Placed hash64 replicaFactor idb tb := by
    intro ta tb hrun hshare
    have hkeys := runRound_keys hrun
    exact ⟨fun key hkey => (hkeys key (.inl hkey)).elim (ha key) (hshare.1 key),
      fun key hkey => (hkeys key (.inr hkey)).elim (hshare.2 key) (hb key)⟩
  refine ⟨hkeep, fun hrest hbudget => ?_⟩
  obtain ⟨ta, tb, inPlay, pushed, fetched, hrun, hexchanged, -, hall⟩ := hrest.runRound_spec
  have hjoin := hexchanged.joins hrest (hall hbudget.metadata) hbudget
  refine ⟨ta, tb, hrun, fun hplaced => ⟨fun key hkey => ?_, fun key hkey => ?_⟩, hkeep ta tb hrun⟩
  · exact hplaced.1 key (mem_of_join (hjoin key).1 (.inr hkey))
  · exact hplaced.2 key (mem_of_join (hjoin key).2 (.inl hkey))

/-- Three nodes with one vnode each; `[1]` belongs to the first and the second, `[2]` to the third
and the first. -/
def threeNodes : RingSnapshot where
  physicalNodes := [[65], [66], [67]]
  vnodes := [(10, ⟨0, by decide⟩), (20, ⟨1, by decide⟩), (30, ⟨2, by decide⟩)]
  sorted := by decide
  nodup := by decide

def twoPlaces (key : Key) : UInt64 := if key = [1] then 5 else 25

def storing (t : Table) : AntiEntropyManager where
  store := t
  digestForRound := computeDigest polyHash 1 t
  clock := {}
  fetchBytes := 64

def oneShared : Table := AList.insert [1] (VersionedEntry.setVersion { value := [7] } 2) ∅

def oneOfEach : Table := oneShared.insert [2] (VersionedEntry.setVersion { value := [8] } 3)

/-- Both nodes hold only keys of their own, the second is the partner the first picks, and the
round leaves a key of the first and third on the second. -/
theorem round_installs_foreign_key :
    threeNodes.Placed twoPlaces 2 [65] (storing oneOfEach).store ∧
      threeNodes.Placed twoPlaces 2 [66] (storing oneShared).store ∧
      refreshPartners threeNodes twoPlaces 2 [65] (storing oneOfEach) = .ok [[66], [67]] ∧
      pickPartner 2 [[66], [67]] 0 = some [66] ∧
      ∃ ta tb, runRound polyHash 1 (storing oneOfEach) (storing oneShared) = .ok (ta, tb) ∧
        ¬ threeNodes.Placed twoPlaces 2 [66] tb := by
  refine ⟨by decide +kernel, by decide +kernel, by decide +kernel, by decide, ?_⟩
  have hforeign : (runRound polyHash 1 (storing oneOfEach) (storing oneShared)).toOption.map
      (fun tables => decide (threeNodes.Placed twoPlaces 2 [66] tables.2)) = some false := by
    decide +kernel
  cases hrun : runRound polyHash 1 (storing oneOfEach) (storing oneShared) with
  | ok tables =>
    rw [hrun] at hforeign
    exact ⟨tables.1, tables.2, rfl, of_decide_eq_false (Option.some.inj hforeign)⟩
  | error failure =>
    rw [hrun] at hforeign
    cases hforeign

def twoNodes : RingSnapshot where
  physicalNodes := [[65], [66]]
  vnodes := [(10, ⟨0, by decide⟩), (20, ⟨1, by decide⟩)]
  sorted := by decide
  nodup := by decide

theorem placement_kept_on_two_nodes :
    ∃ ta tb, runRound polyHash 1 (holding [1] 2) (holding [2] 1) = .ok (ta, tb) ∧
      twoNodes.Placed twoPlaces 2 [65] ta ∧ twoNodes.Placed twoPlaces 2 [66] tb := by
  have hkept := placement_kept_iff twoNodes twoPlaces 2 [65] [66] polyHash 1 (holding [1] 2)
    (holding [2] 1) (by decide +kernel) (by decide +kernel)
  obtain ⟨ta, tb, hrun, hiff⟩ := hkept.2 holding_atRest
    ⟨by decide +kernel, by decide +kernel, by decide +kernel⟩
  exact ⟨ta, tb, hrun, hiff.mpr (by decide +kernel)⟩

end AntiEntropyManager

end Cinder
