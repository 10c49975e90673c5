/-
What an operation of the eviction store does to the nodes of a shard, as a list of
elementary edits (`include/cinder/store/detail/eviction_store_base.hpp`,
`src/store/lru_store.cpp`, `src/store/lfu_store.cpp`).

The nodes are taken in the order of the shard's list, without their places in the frequency
buckets: those move whenever a neighbour leaves, and no caller sees them.
-/
import Cinder.Store.Sweep

namespace Cinder

open List Function

/-! ## 1. Edits of a list of nodes -/

def Node.unplaced (n : Node) : Node := { n with freqIndex := 0 }

def editAt (a : Addr) (f : Node → Node) (nodes : List Node) : List Node :=
  nodes.map fun n => if n.addr = a then f n else n

def toFront (a : Addr) (nodes : List Node) : List Node :=
  nodes.filter (fun n => n.addr = a) ++ nodes.filter fun n => n.addr ≠ a

inductive Edit where
  | access (addr : Addr)
  | overwrite (addr : Addr) (entry : VersionedEntry)
  | insert (addr : Addr) (key : Key) (entry : VersionedEntry)
  | drop (addr : Addr)
  | restore (addr : Addr) (freq : Nat)
  deriving DecidableEq, Repr

/-- `incrementFreq`, as far as others see it. -/
def Node.bump (n : Node) : Node := { n with freq := Shard.nextFreq n.freq }

/-- **An edit under a policy**: LRU keeps the order of accesses, LFU counts them. -/
def Edit.apply (p : Policy) (nodes : List Node) : Edit → List Node
  | .access a =>
    match p with
    | .lru => toFront a nodes
    | .lfu => editAt a Node.bump nodes
  | .overwrite a entry =>
    match p with
    | .lru => toFront a (editAt a (fun n => { n with entry := entry }) nodes)
    | .lfu => editAt a (fun n => { n.bump with entry := entry }) nodes
  | .insert a key entry =>
    { addr := a, key := key, entry := entry, freq := if p = .lfu then 1 else 0 } :: nodes
  | .drop a => nodes.filter fun n => n.addr ≠ a
  | .restore a freq => editAt a (fun n => { n with freq := freq }) nodes

variable {a : Addr} {f : Node → Node}

theorem filter_editAt_self (hf : ∀ n, (f n).addr = n.addr) (nodes : List Node) :
    (editAt a f nodes).filter (fun n => n.addr = a) =
      (nodes.filter fun n => n.addr = a).map f := by
  induction nodes with
  | nil => rfl
  | cons n nodes ih =>
    unfold editAt at ih ⊢
    rw [map_cons]
    by_cases hn : n.addr = a
    · rw [if_pos hn, filter_cons_of_pos (by simpa [hf] using hn),
        filter_cons_of_pos (by simpa using hn), ih, map_cons]
    · rw [if_neg hn, filter_cons_of_neg (by simpa using hn),
        filter_cons_of_neg (by simpa using hn), ih]

theorem filter_editAt_others (hf : ∀ n, (f n).addr = n.addr) (nodes : List Node) :
    (editAt a f nodes).filter (fun n => n.addr ≠ a) = nodes.filter fun n => n.addr ≠ a := by
  induction nodes with
  | nil => rfl
  | cons n nodes ih =>
    unfold editAt at ih ⊢
    rw [map_cons]
    by_cases hn : n.addr = a
    · rw [if_pos hn, filter_cons_of_neg (by simpa [hf] using hn),
        filter_cons_of_neg (by simpa using hn), ih]
    · rw [if_neg hn, filter_cons_of_pos (by simpa using hn),
        filter_cons_of_pos (by simpa using hn), ih]

def Edit.applyAll (p : Policy) (edits : List Edit) (nodes : List Node) : List Node :=
  edits.foldl (Edit.apply p) nodes

theorem Edit.applyAll_drops (p : Policy) (addrs : List Addr) (nodes : List Node) :
    applyAll p (addrs.map .drop) nodes = nodes.filter fun n => n.addr ∉ addrs := by
  induction addrs generalizing nodes with
  | nil => simp [applyAll]
  | cons a addrs ih =>
    have hfirst : applyAll p ((a :: addrs).map .drop) nodes =
        applyAll p (addrs.map .drop) (nodes.filter fun n => n.addr ≠ a) := rfl
    rw [hfirst, ih, filter_filter]
    refine filter_congr fun n _ => ?_
    simp only [mem_cons, not_or, ne_eq, Bool.decide_and, Bool.and_comm]

theorem Edit.applyAll_victims (p : Policy) (victims nodes : List Node) :
    applyAll p (victims.map fun v => .drop v.addr) nodes =
      nodes.filter fun n => n.addr ∉ victims.map fun v => v.addr := by
  rw [← applyAll_drops p, map_map]
  rfl

namespace Shard

def nodes (sh : Shard) : List Node := sh.list.map Node.unplaced

variable {sh sh' : Shard} {a : Addr} {n m : Node} {p : Policy}

theorem mem_nodes : n ∈ sh.nodes ↔ ∃ m ∈ sh.list, m.unplaced = n := mem_map

theorem Wf.addr_eq_iff (h : sh.Wf p) (hn : n ∈ sh.list) (hm : m ∈ sh.list) :
    m.addr = n.addr ↔ m.key = n.key := by
  constructor
  · intro haddr
    rw [h.addressed.eq_of_addr hm hn haddr]
  · intro hkey
    have hfind := h.find_eq.mpr ⟨hn, rfl⟩
    rw [← hkey, h.find_eq.mpr ⟨hm, rfl⟩] at hfind
    rw [Option.some.inj hfind]

/-! ## 2. The hooks as edits -/

theorem nodes_modify {f g : Node → Node} (h : ∀ n, (f n).unplaced = g n.unplaced) :
    (sh.modify a f).nodes = editAt a g sh.nodes := by
  unfold nodes modify editAt
  rw [map_map, map_map]
  refine map_congr_left fun n _ => ?_
  simp only [comp_apply]
  by_cases hn : n.addr = a
  · rw [if_pos hn, h, if_pos (show n.unplaced.addr = a from hn)]
  · rw [if_neg hn, if_neg (show ¬ n.unplaced.addr = a from hn)]

theorem editAt_id (a : Addr) (nodes : List Node) : editAt a (fun n => n) nodes = nodes := by
  unfold editAt
  simp

theorem nodes_takeFromBucket (sh : Shard) (f idx : Nat) :
    (sh.takeFromBucket f idx).nodes = sh.nodes := by
  unfold takeFromBucket
  dsimp only
  split
  · split
    · exact (nodes_modify (f := fun n => { n with freqIndex := idx }) (g := fun n => n)
        fun _ => rfl).trans (editAt_id _ _)
    · rfl
  · rfl

theorem nodes_removeFromFreqBucket (sh : Shard) (a : Addr) (f : Nat) :
    (sh.removeFromFreqBucket a f).nodes = sh.nodes := by
  unfold removeFromFreqBucket
  split
  · exact nodes_takeFromBucket _ _ _
  · rfl

theorem nodes_pushToFreqBucket (sh : Shard) (a : Addr) (f : Nat) :
    (sh.pushToFreqBucket a f).nodes = sh.nodes :=
  (nodes_modify (f := fun n => { n with freqIndex := (sh.freqBuckets.get f).length })
    (g := fun n => n) fun _ => rfl).trans (editAt_id _ _)

theorem nodes_unlink (sh : Shard) (a : Addr) :
    (sh.unlink a).nodes = sh.nodes.filter fun n => n.addr ≠ a := by
  unfold nodes unlink
  rw [filter_map]
  rfl

section

variable (haddr : sh.Addressed)

include haddr

theorem filter_addr_eq (hn : n ∈ sh.list) : (sh.list.filter fun m => m.addr = n.addr) = [n] := by
  have hnodup : (sh.list.filter fun m => m.addr = n.addr).Nodup := (haddr.of_map _).filter _
  have hmem : ∀ m, m ∈ (sh.list.filter fun m => m.addr = n.addr) ↔ m = n := by
    intro m
    rw [mem_filter, decide_eq_true_eq]
    constructor
    · intro ⟨hm, hma⟩
      exact haddr.eq_of_addr hm hn hma
    · intro hm
      subst hm
      exact ⟨hn, rfl⟩
  have hperm := (perm_ext_iff_of_nodup hnodup (nodup_singleton n)).mpr fun m =>
    (hmem m).trans mem_singleton.symm
  exact perm_singleton.mp hperm

theorem filter_nodes_self (hn : n ∈ sh.list) :
    (sh.nodes.filter fun m => m.addr = n.addr) = [n.unplaced] := by
  unfold nodes
  rw [filter_map]
  exact congrArg (List.map Node.unplaced) (filter_addr_eq haddr hn)

theorem nodes_touch (a : Addr) : (sh.touch a).nodes = toFront a sh.nodes := by
  unfold touch toFront
  rw [← nodes_unlink]
  split
  · rename_i n hat
    obtain ⟨hn, rfl⟩ := mem_of_nodeAt hat
    rw [filter_nodes_self haddr hn]
    rfl
  · rename_i hat
    have hnone : ∀ n ∈ sh.list, ¬ n.addr = a := by simpa [nodeAt] using hat
    have hempty : (sh.nodes.filter fun n => n.addr = a) = [] := by
      refine filter_eq_nil_iff.mpr fun n hn => ?_
      obtain ⟨m, hm, rfl⟩ := mem_nodes.mp hn
      exact fun heq => hnone m hm (of_decide_eq_true heq)
    have hall : (sh.unlink a).list = sh.list :=
      filter_eq_self.mpr fun n hn => by simpa using hnone n hn
    rw [hempty, nil_append, nodes, nodes, hall]

section

variable (hn : n ∈ sh.list)

include hn

theorem editAt_congr {f g : Node → Node}
    (h : f n.unplaced = g n.unplaced) : editAt n.addr f sh.nodes = editAt n.addr g sh.nodes := by
  refine map_congr_left fun m hm => ?_
  obtain ⟨m', hm', rfl⟩ := mem_nodes.mp hm
  by_cases hma : m'.unplaced.addr = n.addr
  · obtain rfl := haddr.eq_of_addr hm' hn hma
    rw [if_pos hma, if_pos hma, h]
  · rw [if_neg hma, if_neg hma]

theorem nodes_incrementFreq :
    (sh.incrementFreq n.addr).nodes = editAt n.addr Node.bump sh.nodes := by
  unfold incrementFreq
  rw [nodeAt_of_mem haddr hn]
  rw [nodes_pushToFreqBucket, nodes_removeFromFreqBucket, setFreq,
    nodes_modify (g := fun m => { m with freq := nextFreq n.freq }) fun _ => rfl]
  exact editAt_congr haddr hn rfl

theorem nodes_onAccess : (sh.onAccess p n.addr).nodes = Edit.apply p sh.nodes (.access n.addr) := by
  cases p with
  | lru => exact nodes_touch haddr n.addr
  | lfu => exact nodes_incrementFreq haddr hn

theorem nodes_applyExisting (entry : VersionedEntry) :
    (sh.applyExisting p n.addr entry).nodes =
      Edit.apply p sh.nodes (.overwrite n.addr entry) := by
  have hset : (sh.setEntry n.addr entry).nodes =
      editAt n.addr (fun m => { m with entry := entry }) sh.nodes := nodes_modify fun _ => rfl
  have hn' : { n with entry := entry } ∈ (sh.setEntry n.addr entry).list :=
    mem_modify.mpr ⟨n, hn, if_pos rfl⟩
  cases p with
  | lru =>
    refine (nodes_touch (haddr.setEntry entry) n.addr).trans ?_
    rw [hset]
    rfl
  | lfu =>
    have hbump := nodes_incrementFreq (haddr.setEntry (a := n.addr) entry) hn'
    refine hbump.trans ?_
    rw [hset]
    unfold editAt Edit.apply editAt
    rw [map_map]
    refine map_congr_left fun m _ => ?_
    simp only [comp_apply]
    by_cases hm : m.addr = n.addr
    · rw [if_pos hm, if_pos hm, if_pos hm]
      rfl
    · rw [if_neg hm, if_neg hm, if_neg hm]

end

end

theorem nodes_insertNew (sh : Shard) (p : Policy) (a : Addr) (key : Key) (entry : VersionedEntry) :
    (sh.insertNew p a key entry).nodes = Edit.apply p sh.nodes (.insert a key entry) := by
  cases p with
  | lru => rfl
  | lfu => exact nodes_pushToFreqBucket _ _ _

theorem nodes_detach (sh : Shard) (key : Key) (a : Addr) :
    (sh.detach key a).nodes = sh.nodes.filter fun n => n.addr ≠ a := nodes_unlink sh a

theorem nodes_onEvictExpired (sh : Shard) (p : Policy) (a : Addr) :
    (sh.onEvictExpired p a).nodes = sh.nodes := by
  unfold onEvictExpired
  split
  · rfl
  · split
    · exact nodes_removeFromFreqBucket _ _ _
    · rfl

theorem nodes_evictOne (h : sh.Wf p) (he : sh.evictOne p = some (n, sh')) :
    sh'.nodes = Edit.apply p sh.nodes (.drop n.addr) := by
  cases p with
  | lru =>
    obtain ⟨v, hv, he⟩ := Option.map_eq_some_iff.mp he
    cases he
    exact nodes_detach _ _ _
  | lfu =>
    obtain ⟨-, -, rfl⟩ := evictOne_lfu h.policy h.addressed he
    refine (nodes_detach _ _ _).trans ?_
    rw [nodes_takeFromBucket]
    rfl

theorem nodes_evictDown (slice fuel : Nat) (h : sh.Wf p) :
    (evictDown p slice fuel sh).2.nodes =
      Edit.applyAll p ((evictDown p slice fuel sh).1.map fun v => .drop v.addr) sh.nodes := by
  refine evictDown_rounds (P := fun sh r => r.2.nodes =
    Edit.applyAll p (r.1.map fun v => .drop v.addr) sh.nodes) ?_ ?_ fuel h
  · intro sh _
    rfl
  · intro sh v sh' r h _ he hrest
    refine hrest.trans ?_
    show Edit.applyAll p _ sh'.nodes = _
    rw [nodes_evictOne h he]
    rfl

end Shard

/-! ## 3. The edits of an operation -/

namespace EvictionStore

variable {cfg : StoreConfig} {s s' : EvictionStore cfg} {i j : Fin cfg.numShards}

variable (s)

/-- The edit of an accepted write, at the key's shard. -/
def writeEdit (key : Key) (entry : VersionedEntry) : Edit :=
  match (s.shards (cfg.shardFor key)).find key with
  | some n => .overwrite n.addr entry
  | none => .insert s.nextAddr key entry

def writeEdits (i : Fin cfg.numShards) (key : Key) (entry : VersionedEntry) : List Edit :=
  if s.rejects key entry = false ∧ i = cfg.shardFor key then
    s.writeEdit key entry :: (s.writeVictims key entry i).map fun v => .drop v.addr
  else []

def atKey {β : Type} (i : Fin cfg.numShards) (key : Key) (f : Node → List β) : List β :=
  if i = cfg.shardFor key then
    match (s.shards (cfg.shardFor key)).find key with
    | some n => f n
    | none => []
  else []

variable {s}

variable {β : Type} {key : Key}

theorem atKey_some {n : Node} (f : Node → List β)
    (hf : (s.shards (cfg.shardFor key)).find key = some n) :
    s.atKey (cfg.shardFor key) key f = f n := by
  rw [atKey, if_pos rfl, hf]

theorem atKey_none (f : Node → List β) (hf : (s.shards (cfg.shardFor key)).find key = none)
    (i : Fin cfg.numShards) : s.atKey i key f = [] := by
  rw [atKey, hf]
  exact ite_self _

theorem atKey_of_ne (f : Node → List β) (hi : i ≠ cfg.shardFor key) :
    s.atKey i key f = [] := if_neg hi

def sweepEdits (s : EvictionStore cfg) (i : Fin cfg.numShards) (now : Nanos) : List Edit :=
  ((s.shards i).nodes.filter fun n => n ∉ ((s.evictExpired now).2.shards i).nodes).map
    fun n => .drop n.addr

/-- **The edits of an operation in a shard.** -/
def editsOf (s : EvictionStore cfg) (i : Fin cfg.numShards) : StoreOp → List Edit
  | .put key value ttl clk =>
    s.mintVersion.2.writeEdits i key (putEntry s.nextVersion value ttl clk.now)
  | .putVersioned key entry _ => s.writeEdits i key entry
  | .removeVersioned key version writer clk =>
    s.writeEdits i key (tombstone version writer (clk.now + s.tombstoneGc))
  | .remove key => s.atKey i key fun n => [.drop n.addr]
  | .get key now => s.atKey i key fun n =>
    if n.entry.expiredAt now then [.drop n.addr]
    else if n.entry.isTombstone then [] else [.access n.addr]
  | .getVersioned key now => s.atKey i key fun n =>
    if n.entry.expiredAt now then [.drop n.addr] else []
  | .evictExpired now => s.sweepEdits i now
  | .setCapacity capacityBytes =>
    (({ s with capacityBytes := capacityBytes } : EvictionStore cfg).victims i).map
      fun v => .drop v.addr
  | .restoreFreq key freq => s.atKey i key fun n =>
    if cfg.policy = .lfu ∧ 1 < freq ∧ n.freq < freq.toNat then [.restore n.addr freq.toNat] else []
  | .setTombstoneGcInterval _ | .mintVersion => []

theorem nodes_evictIfNeeded (hs : s.Inv) (i : Fin cfg.numShards) :
    ((s.evictIfNeeded i).shards i).nodes =
      Edit.applyAll cfg.policy ((s.victims i).map fun v => .drop v.addr) (s.shards i).nodes := by
  rw [evictIfNeeded, evictLoop_shards, update_self]
  exact Shard.nodes_evictDown _ _ (hs.shard i)

theorem nodes_write (hs : s.Inv) (key : Key) (entry : VersionedEntry) :
    ((s.write key entry).2.shards (cfg.shardFor key)).nodes =
      Edit.apply cfg.policy (s.shards (cfg.shardFor key)).nodes (s.writeEdit key entry) := by
  unfold write writeEdit
  cases hf : (s.shards (cfg.shardFor key)).find key with
  | some n =>
    obtain ⟨hn, -⟩ := (hs.shard _).find_eq.mp hf
    rw [overwrite_shard, update_self]
    exact Shard.nodes_applyExisting (hs.shard _).addressed hn entry
  | none =>
    rw [insertFresh_shard, update_self]
    exact Shard.nodes_insertNew _ _ _ _ _

theorem nodes_putVersionedAt (hs : s.Inv) (key : Key) (entry : VersionedEntry) (now : Nanos)
    (clk : ClockReading) (i : Fin cfg.numShards) :
    ((s.putVersionedAt key entry now clk).2.shards i).nodes =
      Edit.applyAll cfg.policy (s.writeEdits i key entry) (s.shards i).nodes := by
  unfold writeEdits
  cases hrej : s.rejects key entry with
  | true =>
    rw [putVersionedAt_of_rejects hrej, if_neg fun h => by cases h.1]
    rfl
  | false =>
    rw [putVersionedAt_shard (f := Shard.nodes) (fun _ _ => rfl) hrej]
    by_cases hi : i = cfg.shardFor key
    · subst hi
      rw [if_pos ⟨rfl, rfl⟩, nodes_evictIfNeeded (write_spec hs key entry).1, nodes_write hs,
        writeVictims, if_pos ⟨hrej, rfl⟩]
      rfl
    · rw [if_neg fun h => hi h.2, evictIfNeeded_shards_ne hi, write_shards_ne hi]
      rfl

/-- One shard is edited, the others stay. -/
def EditedAt (s t : EvictionStore cfg) (i : Fin cfg.numShards) (edits : List Edit) : Prop :=
  ∃ sh, t.shards = update s.shards i sh ∧
    sh.nodes = Edit.applyAll cfg.policy edits (s.shards i).nodes

theorem EditedAt.refl (s : EvictionStore cfg) (i : Fin cfg.numShards) : EditedAt s s i [] :=
  ⟨_, (update_eq_self ..).symm, rfl⟩

theorem nodes_atKey {edits : Node → List Edit} {t : EvictionStore cfg}
    (habsent : (s.shards (cfg.shardFor key)).find key = none → t.shards = s.shards)
    (hhere : ∀ n, (s.shards (cfg.shardFor key)).find key = some n →
      EditedAt s t (cfg.shardFor key) (edits n)) (i : Fin cfg.numShards) :
    (t.shards i).nodes = Edit.applyAll cfg.policy (s.atKey i key edits) (s.shards i).nodes := by
  have hedited : EditedAt s t (cfg.shardFor key) (s.atKey (cfg.shardFor key) key edits) := by
    cases hf : (s.shards (cfg.shardFor key)).find key with
    | some n =>
      rw [atKey_some edits hf]
      exact hhere n hf
    | none =>
      rw [atKey_none edits hf]
      exact ⟨_, (habsent hf).trans (update_eq_self ..).symm, rfl⟩
  obtain ⟨sh, hsh, hnodes⟩ := hedited
  rw [hsh]
  by_cases hi : i = cfg.shardFor key
  · subst hi
    rwa [update_self]
  · rw [update_of_ne hi, atKey_of_ne edits hi]
    rfl

theorem editedAt_eraseNode (s : EvictionStore cfg) (i : Fin cfg.numShards) (key : Key) (n : Node) :
    EditedAt s (s.eraseNode i key n) i [.drop n.addr] := by
  refine ⟨_, rfl, (Shard.nodes_detach _ key _).trans ?_⟩
  rw [Shard.nodes_onEvictExpired]
  rfl

theorem remove_nodes (s : EvictionStore cfg) (key : Key) (i : Fin cfg.numShards) :
    ((s.remove key).2.shards i).nodes =
      Edit.applyAll cfg.policy (s.atKey i key fun n => [.drop n.addr]) (s.shards i).nodes := by
  refine nodes_atKey (fun hf => ?_) (fun n hf => ?_) i <;> unfold remove <;> dsimp only <;> rw [hf]
  exact editedAt_eraseNode { s with wal := _ } _ key n

theorem get_nodes (hs : s.Inv) (key : Key) (now : Nanos) (i : Fin cfg.numShards) :
    ((s.get key now).2.shards i).nodes =
      Edit.applyAll cfg.policy (s.editsOf i (.get key now)) (s.shards i).nodes := by
  refine nodes_atKey (fun hf => ?_) (fun n hf => ?_) i <;> unfold get <;> dsimp only <;> rw [hf]
  dsimp only
  split
  · exact editedAt_eraseNode s _ key n
  · split
    · exact .refl s _
    · exact ⟨_, rfl, Shard.nodes_onAccess (hs.shard _).addressed ((hs.shard _).find_eq.mp hf).1⟩

theorem getVersioned_nodes (s : EvictionStore cfg) (key : Key) (now : Nanos)
    (i : Fin cfg.numShards) :
    ((s.getVersioned key now).2.shards i).nodes =
      Edit.applyAll cfg.policy (s.editsOf i (.getVersioned key now)) (s.shards i).nodes := by
  refine nodes_atKey (fun hf => ?_) (fun n hf => ?_) i <;> unfold getVersioned <;> dsimp only <;>
    rw [hf]
  dsimp only
  split
  · exact editedAt_eraseNode s _ key n
  · exact .refl s _

theorem restoreFreq_nodes (s : EvictionStore cfg) (key : Key) (freq : UInt64)
    (i : Fin cfg.numShards) :
    ((s.restoreFreq key freq).shards i).nodes =
      Edit.applyAll cfg.policy (s.editsOf i (.restoreFreq key freq)) (s.shards i).nodes := by
  refine nodes_atKey (fun hf => ?_) (fun n hf => ?_) i <;> unfold restoreFreq <;> dsimp only
  · split
    · rfl
    · rw [hf]
      split <;> rfl
  · split
    · rename_i hp
      rw [if_neg fun h => by rw [hp] at h; cases h.1]
      exact .refl s _
    · rename_i hp
      rw [hf]
      dsimp only
      by_cases hone : freq ≤ 1
      · rw [if_pos hone, if_neg fun h => UInt64.not_lt.mpr hone h.2.1]
        exact .refl s _
      · rw [if_neg hone]
        by_cases hle : freq.toNat ≤ n.freq
        · rw [if_pos hle, if_neg fun h => not_lt.mpr hle h.2.2]
          exact .refl s _
        · rw [if_neg hle, if_pos ⟨hp, UInt64.not_le.mp hone, not_le.mp hle⟩]
          refine ⟨_, rfl, ?_⟩
          rw [Shard.nodes_pushToFreqBucket, Shard.setFreq,
            Shard.nodes_modify (g := fun m => { m with freq := freq.toNat }) fun _ => rfl,
            Shard.nodes_removeFromFreqBucket]
          rfl

theorem setCapacity_nodes (hs : s.Inv) (capacityBytes : Nat) (i : Fin cfg.numShards) :
    ((s.setCapacity capacityBytes).shards i).nodes =
      Edit.applyAll cfg.policy (s.editsOf i (.setCapacity capacityBytes)) (s.shards i).nodes := by
  have hresized : Inv { s with capacityBytes := capacityBytes } := hs.of_shards rfl le_rfl
  rw [(setCapacity_spec s capacityBytes).2 i]
  exact nodes_evictIfNeeded hresized i

/-! ## 4. Sweeps -/

/-- Nodes are taken out of shards; the others stay as they are, in their order. -/
def Thins (s s' : EvictionStore cfg) : Prop :=
  ∀ i, ∃ gone : List Addr, (s'.shards i).nodes = (s.shards i).nodes.filter fun n => n.addr ∉ gone

theorem Thins.trans {s'' : EvictionStore cfg} (h : s.Thins s') (h' : s'.Thins s'') :
    s.Thins s'' := by
  intro i
  obtain ⟨gone, hgone⟩ := h i
  obtain ⟨gone', hgone'⟩ := h' i
  refine ⟨gone ++ gone', ?_⟩
  rw [hgone', hgone, filter_filter]
  refine filter_congr fun n _ => ?_
  simp only [mem_append, not_or, Bool.decide_and, Bool.and_comm]

theorem Thins.of_nodes (h : ∀ i, (s'.shards i).nodes = (s.shards i).nodes) : s.Thins s' :=
  fun i => ⟨[], by simp [h i]⟩

theorem Thins.mem {n : Node} (h : s.Thins s') (hn : n ∈ (s'.shards i).nodes) :
    n ∈ (s.shards i).nodes := by
  obtain ⟨gone, hgone⟩ := h i
  rw [hgone] at hn
  exact (mem_filter.mp hn).1

variable (s)

theorem thins_schedule (i : Fin cfg.numShards) (wheel : TtlWheel Addr) (lastEvict : Nanos) :
    s.Thins (s.setShard i { s.shards i with wheel := wheel, lastEvict := lastEvict }) := by
  refine .of_nodes fun j => ?_
  by_cases h : j = i
  · subst h
    rw [setShard_self]
    rfl
  · rw [setShard_of_ne _ h]

theorem eraseNode_thins (i : Fin cfg.numShards) (key : Key) (n : Node) :
    s.Thins (s.eraseNode i key n) := by
  intro j
  obtain ⟨sh, hsh, hnodes⟩ := editedAt_eraseNode s i key n
  rw [hsh]
  by_cases h : j = i
  · subst h
    refine ⟨[n.addr], ?_⟩
    rw [update_self, hnodes]
    simp [Edit.applyAll, Edit.apply]
  · exact ⟨[], by simp [update_of_ne h]⟩

theorem remove_thins (key : Key) : s.Thins (s.remove key).2 := by
  unfold remove
  dsimp only
  split
  · exact .of_nodes fun _ => rfl
  · exact eraseNode_thins { s with wal := _ } _ _ _

theorem getVersioned_thins (key : Key) (now : Nanos) : s.Thins (s.getVersioned key now).2 := by
  unfold getVersioned
  dsimp only
  split
  · exact .of_nodes fun _ => rfl
  · split
    · exact eraseNode_thins _ _ _ _
    · exact .of_nodes fun _ => rfl

variable {s}

theorem Sweeps.thins {now : Nanos} (h : Sweeps now s s') : s.Thins s' := by
  induction h with
  | refl => exact .of_nodes fun _ => rfl
  | tail _ hstep ih =>
    obtain ⟨i, hstep⟩ := hstep
    cases hstep with
    | schedule wheel lastEvict => exact ih.trans (thins_schedule _ i wheel lastEvict)
    | erase n resident expired => exact ih.trans (eraseNode_thins _ i n.key n)

theorem filter_not_taken [DecidableEq β] {g : Node → β} {l l' : List Node} {q : Node → Bool}
    (hnodup : (l.map g).Nodup) (h : l' = l.filter q) :
    (l.filter fun n => g n ∉ (l.filter fun n => n ∉ l').map g) = l' := by
  have hmem : ∀ n ∈ l, n ∈ l' ↔ q n = true := fun n hn => by
    rw [h, mem_filter]
    exact and_iff_right hn
  refine Eq.trans (filter_congr fun n hn => ?_) h.symm
  rw [Bool.eq_iff_iff, decide_eq_true_eq, ← hmem n hn]
  constructor
  · intro hkept
    by_contra hout
    exact hkept (mem_map.mpr ⟨n, mem_filter.mpr ⟨hn, decide_eq_true hout⟩, rfl⟩)
  · intro hin htaken
    obtain ⟨m, hm, hfield⟩ := mem_map.mp htaken
    obtain ⟨hm, hout⟩ := mem_filter.mp hm
    rw [inj_on_of_nodup_map hnodup hm hn hfield] at hout
    exact of_decide_eq_true hout hin

theorem evictExpired_nodes (hs : s.Inv) (now : Nanos) (i : Fin cfg.numShards) :
    ((s.evictExpired now).2.shards i).nodes =
      Edit.applyAll cfg.policy (s.sweepEdits i now) (s.shards i).nodes := by
  have hnodup : ((s.shards i).nodes.map fun n => n.addr).Nodup := by
    rw [Shard.nodes, map_map]
    exact (hs.shard i).addressed
  obtain ⟨gone, hgone⟩ := (evictExpired_sweeps hs now).thins i
  rw [sweepEdits, Edit.applyAll_victims]
  exact (filter_not_taken hnodup hgone).symm

/-! ## 5. Every operation -/

theorem apply_nodes (hs : s.Inv) (op : StoreOp) (i : Fin cfg.numShards) :
    ((s.apply op).shards i).nodes =
      Edit.applyAll cfg.policy (s.editsOf i op) (s.shards i).nodes := by
  cases op with
  | put key value ttl clk => exact nodes_putVersionedAt hs.mint _ _ _ _ i
  | putVersioned | removeVersioned => exact nodes_putVersionedAt hs _ _ _ _ i
  | remove key => exact remove_nodes s key i
  | get key now => exact get_nodes hs key now i
  | getVersioned key now => exact getVersioned_nodes s key now i
  | evictExpired now => exact evictExpired_nodes hs now i
  | setCapacity capacityBytes => exact setCapacity_nodes hs capacityBytes i
  | setTombstoneGcInterval interval => rfl
  | restoreFreq key freq => exact restoreFreq_nodes s key freq i
  | mintVersion => rfl

end EvictionStore

end Cinder
