/-
The striped eviction store and its two policies
(`include/cinder/store/detail/eviction_store_base.hpp`, `src/store/lru_store.cpp`,
`src/store/lfu_store.cpp`).

A list node has an address; the index, the frequency buckets and the wheel refer to nodes by it,
as the source does by iterators and pointers. The base class is written once over the policy's
hooks. An operation runs under its shard's lock and is one step.
-/
import Cinder.Store.Records
import Cinder.Store.TtlWheel

namespace Cinder

/-! ## 1. Nodes and shards -/

abbrev Addr := Nat

inductive Policy where
  | lru | lfu
  deriving DecidableEq, Repr

/-- `sizeof(LruNode)` and `sizeof(LfuNode)`. -/
def Policy.nodeBytes : Policy → Nat
  | .lru => 120
  | .lfu => 136

/-- What the base class reads of a node. -/
structure Cell where
  addr : Addr
  key : Key
  entry : VersionedEntry
  deriving DecidableEq, Repr

/-- A node; the LRU policy leaves the last two fields alone. -/
structure Node extends Cell where
  freq : Nat := 0
  freqIndex : Nat := 0
  deriving DecidableEq, Repr

def Policy.nodeSize (p : Policy) (n : Cell) : Nat :=
  n.key.length + n.entry.value.length + p.nodeBytes

structure Shard where
  list : List Node := []
  index : AList (fun _ : Key => Addr) := ∅
  wheel : TtlWheel Addr := {}
  currentBytes : Nat := 0
  lastEvict : Nanos := 0
  freqBuckets : Buckets Nat Addr := {}

namespace Shard

variable (sh : Shard)

def nodeAt (a : Addr) : Option Node := sh.list.find? fun n => n.addr = a

def modify (a : Addr) (f : Node → Node) : Shard :=
  { sh with list := sh.list.map fun n => if n.addr = a then f n else n }

/-- `index.find(key)`, and the node behind it. -/
def find (key : Key) : Option Node := (sh.index.lookup key).bind sh.nodeAt

def unlink (a : Addr) : Shard :=
  { sh with list := sh.list.filter fun n => n.addr ≠ a }

def setEntry (a : Addr) (entry : VersionedEntry) : Shard :=
  sh.modify a fun n => { n with entry := entry }

/-! ## 2. The policies' hooks -/

/-- The node is spliced to the front. -/
def touch (a : Addr) : Shard :=
  match sh.nodeAt a with
  | some n => { sh.unlink a with list := n :: (sh.unlink a).list }
  | none => sh

/-- The block `removeFromFreqBucket` and `evictOne` share: the last element of the bucket moves
to position `idx` and learns so; an empty bucket is erased. -/
def takeFromBucket (freq idx : Nat) : Shard :=
  let vec := sh.freqBuckets.get freq
  match vec.getLast? with
  | some last =>
    let sh :=
      if idx ≠ vec.length - 1 then sh.modify last fun n => { n with freqIndex := idx } else sh
    { sh with freqBuckets := sh.freqBuckets.set freq (Buckets.swapRemove vec idx) }
  | none => sh

def removeFromFreqBucket (a : Addr) (freq : Nat) : Shard :=
  match sh.nodeAt a with
  | some node => sh.takeFromBucket freq node.freqIndex
  | none => sh

/-- The end of `insertNew`, `incrementFreq` and `restoreFreq`. -/
def pushToFreqBucket (a : Addr) (freq : Nat) : Shard :=
  let vec := sh.freqBuckets.get freq
  { sh.modify a fun n => { n with freqIndex := vec.length } with
    freqBuckets := sh.freqBuckets.set freq (vec ++ [a]) }

def setFreq (a : Addr) (freq : Nat) : Shard := sh.modify a fun n => { n with freq := freq }

/-- `size_t` frequencies wrap around. -/
def nextFreq (freq : Nat) : Nat := (freq + 1) % 2 ^ 64

def incrementFreq (a : Addr) : Shard :=
  match sh.nodeAt a with
  | some node =>
    (((sh.setFreq a (nextFreq node.freq)).removeFromFreqBucket a node.freq).pushToFreqBucket a
      (nextFreq node.freq))
  | none => sh

def applyExisting (p : Policy) (sh : Shard) (a : Addr) (entry : VersionedEntry) : Shard :=
  match p with
  | .lru => (sh.setEntry a entry).touch a
  | .lfu => (sh.setEntry a entry).incrementFreq a

/-- `a` is the address the list allocates. -/
def insertNew (p : Policy) (sh : Shard) (a : Addr) (key : Key) (entry : VersionedEntry) : Shard :=
  match p with
  | .lru => { sh with
      list := { addr := a, key := key, entry := entry } :: sh.list
      index := sh.index.insert key a }
  | .lfu => { sh with
      list := { addr := a, key := key, entry := entry, freq := 1 } :: sh.list
      index := sh.index.insert key a }.pushToFreqBucket a 1

def onAccess (p : Policy) (sh : Shard) (a : Addr) : Shard :=
  match p with
  | .lru => sh.touch a
  | .lfu => sh.incrementFreq a

def onEvictExpired (p : Policy) (sh : Shard) (a : Addr) : Shard :=
  match p with
  | .lru => sh
  | .lfu =>
    match sh.nodeAt a with
    | some node => sh.removeFromFreqBucket a node.freq
    | none => sh

/-- An entry capacity eviction may take. -/
def liveAt (a : Addr) : Bool :=
  match sh.nodeAt a with
  | some n => !n.entry.isTombstone
  | none => false

/-- The node leaves the wheel, the index and the list. -/
def detach (key : Key) (a : Addr) : Shard :=
  { sh.unlink a with wheel := sh.wheel.remove a, index := sh.index.erase key }

/-- The victim and what is left. LRU takes the last live node of the list, LFU the
first live one of the lowest bucket that has any. -/
def evictOne (p : Policy) (sh : Shard) : Option (Node × Shard) :=
  match p with
  | .lru =>
    (sh.list.reverse.find? fun n => !n.entry.isTombstone).map fun victim =>
      (victim, sh.detach victim.key victim.addr)
  | .lfu =>
    (sh.freqBuckets.firstWhere? sh.liveAt).bind fun (freq, idx) =>
      (((sh.freqBuckets.get freq)[idx]?).bind sh.nodeAt).map fun victim =>
        (victim, (sh.takeFromBucket freq idx).detach victim.key victim.addr)

end Shard

/-! ## 3. The store -/

/-- Policy, number of shards, and `shardFor` (`std::hash` modulo that number). -/
structure StoreConfig where
  policy : Policy
  numShards : Nat
  shardFor : Key → Fin numShards

/-- One shard, as `shardCountFor` gives a small store. -/
def oneShardStore (policy : Policy) : StoreConfig where
  policy := policy
  numShards := 1
  shardFor := fun _ => ⟨0, Nat.one_pos⟩

/-- What the sink is told an entry by. -/
structure Identity where
  key : Key
  versionAndTtl : UInt64
  writer : UInt64
  deriving DecidableEq, Repr

structure Mutation where
  id : Identity
  removed : Bool
  deriving DecidableEq, Repr

def identityOf (key : Key) (e : VersionedEntry) : Identity :=
  ⟨key, e.versionAndTtl, e.writerNodeHash⟩

structure EvictionStore (cfg : StoreConfig) where
  shards : Fin cfg.numShards → Shard
  capacityBytes : Nat
  nextVersion : UInt64
  tombstoneGc : Nanos := 300000000000
  totalBytes : Nat := 0
  totalEntries : Nat := 0
  nextAddr : Addr := 0
  /-- the calls of the sink, in order -/
  feed : List Mutation := []
  /-- the records handed to persistence, in order -/
  wal : List WalEntry := []

/-- Whole seconds, rounded up, at least one. -/
def expiryTicksAt (expiresAt now : Nanos) : Nat :=
  let remaining := expiresAt - now
  if remaining ≤ 0 then 1 else max 1 ((remaining + 999999999) / 1000000000).toNat

/-- The ticks `evictExpired` catches up with: whole seconds, rounded down, at least one. -/
def elapsedTicks (now lastEvict : Nanos) : Nat := max 1 ((now - lastEvict) / 1000000000).toNat

namespace EvictionStore

variable {cfg : StoreConfig}

def start (cfg : StoreConfig) (capacityBytes : Nat) (now : Nanos) : EvictionStore cfg where
  shards := fun _ => { lastEvict := now }
  capacityBytes := capacityBytes
  nextVersion := UInt64.ofNat (now % 2 ^ 64).toNat

variable (s : EvictionStore cfg)

def shardCapacity : Nat := s.capacityBytes / cfg.numShards

def setShard (i : Fin cfg.numShards) (sh : Shard) : EvictionStore cfg :=
  { s with shards := Function.update s.shards i sh }

def noteAdded (id : Identity) : EvictionStore cfg :=
  { s with feed := s.feed ++ [⟨id, false⟩] }

def noteRemoved (id : Identity) : EvictionStore cfg :=
  { s with feed := s.feed ++ [⟨id, true⟩] }

def observeVersion (v : UInt64) : EvictionStore cfg :=
  if s.nextVersion < v then { s with nextVersion := v } else s

def mintVersion : UInt64 × EvictionStore cfg :=
  (s.nextVersion, { s with nextVersion := s.nextVersion + 1 })

/-- `evictIfNeeded`: the rounds of its loop, each with the note its `evictOne` makes. -/
def evictLoop (i : Fin cfg.numShards) : (fuel : Nat) → EvictionStore cfg → EvictionStore cfg
  | 0, s => s
  | fuel + 1, s =>
    if s.shardCapacity < (s.shards i).currentBytes then
      match (s.shards i).evictOne cfg.policy with
      | none => s
      | some (victim, sh) =>
        let freed := cfg.policy.nodeSize victim.toCell
        let s := (s.noteRemoved (identityOf victim.key victim.entry)).setShard i
          { sh with currentBytes := sh.currentBytes - freed }
        evictLoop i fuel { s with
          totalBytes := s.totalBytes - freed
          totalEntries := s.totalEntries - 1 }
    else s

variable (s : EvictionStore cfg)

/-- Every round takes a node, so there are at most as many as nodes. -/
def evictIfNeeded (i : Fin cfg.numShards) : EvictionStore cfg :=
  evictLoop i (s.shards i).list.length s

/-- `key` is the index's key, `node` what it points to. -/
def eraseNode (i : Fin cfg.numShards) (key : Key) (node : Node) :
    EvictionStore cfg :=
  let s := s.noteRemoved (identityOf key node.entry)
  let freed := cfg.policy.nodeSize node.toCell
  let sh := ((s.shards i).onEvictExpired cfg.policy node.addr).detach key node.addr
  let s := s.setShard i { sh with currentBytes := sh.currentBytes - freed }
  { s with totalBytes := s.totalBytes - freed, totalEntries := s.totalEntries - 1 }

def updateWheelAt (i : Fin cfg.numShards) (node : Node) (now : Nanos) :
    EvictionStore cfg :=
  let sh := s.shards i
  s.setShard i { sh with
    wheel :=
      if node.entry.hasTtl then
        sh.wheel.insert node.addr (expiryTicksAt node.entry.expiresAt now)
      else sh.wheel.remove node.addr }

def writeWal (i : Fin cfg.numShards) (key : Key) (clk : ClockReading) :
    EvictionStore cfg :=
  match (s.shards i).find key with
  | some node => { s with wal := s.wal ++ [walRecord clk key node.entry] }
  | none => s

/-- The overwrite of a resident node, up to `evictIfNeeded`. -/
def overwrite (i : Fin cfg.numShards) (node : Node) (entry : VersionedEntry) : EvictionStore cfg :=
  let s := s.observeVersion (entry.version + 1)
  let oldSize := cfg.policy.nodeSize node.toCell
  let newSize := cfg.policy.nodeSize { node.toCell with entry := entry }
  let sh := (s.shards i).applyExisting cfg.policy node.addr entry
  let s := s.setShard i { sh with currentBytes := sh.currentBytes - oldSize + newSize }
  { s with totalBytes := s.totalBytes - oldSize + newSize }

/-- The insertion of a new node, up to `evictIfNeeded`. -/
def insertFresh (i : Fin cfg.numShards) (key : Key) (entry : VersionedEntry) : EvictionStore cfg :=
  let s := s.observeVersion (entry.version + 1)
  let entrySize := cfg.policy.nodeSize ⟨s.nextAddr, key, entry⟩
  let sh := (s.shards i).insertNew cfg.policy s.nextAddr key entry
  let s := s.setShard i { sh with currentBytes := sh.currentBytes + entrySize }
  { s with
    totalBytes := s.totalBytes + entrySize
    totalEntries := s.totalEntries + 1
    nextAddr := s.nextAddr + 1 }

/-- In both branches the node is looked up again behind `evictIfNeeded`, which
may have taken it. -/
def putVersionedAt (key : Key) (entry : VersionedEntry)
    (now : Nanos) (clk : ClockReading) : Except Errc Unit × EvictionStore cfg :=
  let i := cfg.shardFor key
  match (s.shards i).find key with
  | some node =>
    if compareLww (stampOf entry) (stampOf node.entry) = .less then (.ok (), s)
    else
      let old := identityOf key node.entry
      let s := (s.overwrite i node entry).evictIfNeeded i
      match (s.shards i).find key with
      | none => (.ok (), s.noteRemoved old)
      | some resident =>
        let s := (s.noteRemoved old).noteAdded (identityOf key resident.entry)
        (.ok (), (s.updateWheelAt i resident now).writeWal i key clk)
  | none =>
    if s.shardCapacity < cfg.policy.nodeSize ⟨s.nextAddr, key, entry⟩ then
      (.error .capacityExceeded, s)
    else
      let s := (s.insertFresh i key entry).evictIfNeeded i
      match (s.shards i).find key with
      | none => (.ok (), s)
      | some resident =>
        let s := s.noteAdded (identityOf key resident.entry)
        (.ok (), (s.updateWheelAt i resident now).writeWal i key clk)

def putVersioned (key : Key) (entry : VersionedEntry)
    (clk : ClockReading) : Except Errc Unit × EvictionStore cfg :=
  s.putVersionedAt key entry (if entry.hasTtl then clk.now else 0) clk

def putEntry (version : UInt64) (value : Bytes) (ttl : Option Nanos) (now : Nanos) :
    VersionedEntry :=
  let entry := VersionedEntry.setVersion { value := value } version
  match ttl with
  | some ttl => { entry with expiresAt := now + ttl }.setHasTtl true
  | none => entry

def put (key : Key) (value : Bytes) (ttl : Option Nanos)
    (clk : ClockReading) : Except Errc Unit × EvictionStore cfg :=
  s.mintVersion.2.putVersioned key (putEntry s.mintVersion.1 value ttl clk.now) clk

/-- The marker `removeVersioned` writes: it always has a deadline. -/
def tombstone (version writer : UInt64) (deadline : Nanos) : VersionedEntry :=
  let tomb := (VersionedEntry.setVersion {} version).setTombstone true
  { tomb with writerNodeHash := writer, expiresAt := deadline }.setHasTtl true

def removeVersioned (key : Key) (version writer : UInt64)
    (clk : ClockReading) : Except Errc Unit × EvictionStore cfg :=
  s.putVersionedAt key (tombstone version writer (clk.now + s.tombstoneGc)) clk.now clk

def get (key : Key) (now : Nanos) : Option Bytes × EvictionStore cfg :=
  let i := cfg.shardFor key
  match (s.shards i).find key with
  | none => (none, s)
  | some node =>
    if node.entry.expiredAt now then (none, s.eraseNode i key node)
    else if node.entry.isTombstone then (none, s)
    else (some node.entry.value, s.setShard i ((s.shards i).onAccess cfg.policy node.addr))

def getVersioned (key : Key) (now : Nanos) : Option VersionedEntry × EvictionStore cfg :=
  let i := cfg.shardFor key
  match (s.shards i).find key with
  | none => (none, s)
  | some node =>
    if node.entry.expiredAt now then (none, s.eraseNode i key node) else (some node.entry, s)

def remove (key : Key) : Bool × EvictionStore cfg :=
  let i := cfg.shardFor key
  match (s.shards i).find key with
  | none => (false, s)
  | some node => (true, { s with wal := s.wal ++ [delRecord key node.entry] }.eraseNode i key node)

/-- The callback of `evictExpired`: a node that fired early is scheduled again. -/
def onExpired (i : Fin cfg.numShards) (now : Nanos) (s : EvictionStore cfg) (a : Addr) :
    EvictionStore cfg :=
  match (s.shards i).nodeAt a with
  | none => s
  | some node =>
    if node.entry.expiredAt now then
      match (s.shards i).find node.key with
      | none => s
      | some resident => s.eraseNode i node.key resident
    else
      s.setShard i { s.shards i with
        wheel := (s.shards i).wheel.insert a (expiryTicksAt node.entry.expiresAt now) }

/-- A node scheduled again is not due in the same tick. -/
def expireHeap (i : Fin cfg.numShards) (now : Nanos) :
    (fuel : Nat) → EvictionStore cfg → EvictionStore cfg
  | 0, s => s
  | fuel + 1, s =>
    match (s.shards i).wheel.popDue with
    | none => s
    | some (a, wheel) =>
      expireHeap i now fuel (onExpired i now (s.setShard i { s.shards i with wheel := wheel }) a)

/-- `TtlWheel::tick` with that callback. -/
def tick (i : Fin cfg.numShards) (now : Nanos) (s : EvictionStore cfg) : EvictionStore cfg :=
  let (batch, wheel) := (s.shards i).wheel.advance.drainSlot
  let s := batch.foldl (onExpired i now) (s.setShard i { s.shards i with wheel := wheel })
  expireHeap i now (s.shards i).wheel.heap.length s

/-- One shard's part of `evictExpired`. -/
def evictExpiredShard (now : Nanos) (s : EvictionStore cfg) (i : Fin cfg.numShards) :
    EvictionStore cfg :=
  Nat.iterate (tick i now) (elapsedTicks now (s.shards i).lastEvict)
    (s.setShard i { s.shards i with lastEvict := now })

def size (s : EvictionStore cfg) : Nat :=
  ((List.finRange cfg.numShards).map fun i => (s.shards i).index.entries.length).sum

/-- It returns how many nodes it erased. -/
def evictExpired (s : EvictionStore cfg) (now : Nanos) : Nat × EvictionStore cfg :=
  let s' := (List.finRange cfg.numShards).foldl (evictExpiredShard now) s
  (s.size - s'.size, s')

def setCapacity (s : EvictionStore cfg) (capacityBytes : Nat) : EvictionStore cfg :=
  (List.finRange cfg.numShards).foldl evictIfNeeded { s with capacityBytes := capacityBytes }

def setTombstoneGcInterval (s : EvictionStore cfg) (interval : Nanos) : EvictionStore cfg :=
  { s with tombstoneGc := interval }

/-- The base class, and with it the LRU store, does nothing. -/
def restoreFreq (s : EvictionStore cfg) (key : Key) (freq : UInt64) : EvictionStore cfg :=
  match cfg.policy with
  | .lru => s
  | .lfu =>
    let i := cfg.shardFor key
    if freq ≤ 1 then s
    else
      match (s.shards i).find key with
      | none => s
      | some node =>
        if freq.toNat ≤ node.freq then s
        else s.setShard i ((((s.shards i).removeFromFreqBucket node.addr node.freq).setFreq
          node.addr freq.toNat).pushToFreqBucket node.addr freq.toNat)

end EvictionStore

/-! ## 4. Histories of operations -/

inductive StoreOp where
  | put (key : Key) (value : Bytes) (ttl : Option Nanos) (clk : ClockReading)
  | putVersioned (key : Key) (entry : VersionedEntry) (clk : ClockReading)
  | removeVersioned (key : Key) (version writer : UInt64) (clk : ClockReading)
  | remove (key : Key)
  | get (key : Key) (now : Nanos)
  | getVersioned (key : Key) (now : Nanos)
  | evictExpired (now : Nanos)
  | setCapacity (capacityBytes : Nat)
  | setTombstoneGcInterval (interval : Nanos)
  | restoreFreq (key : Key) (freq : UInt64)
  | mintVersion
  deriving DecidableEq, Repr

namespace EvictionStore

variable {cfg : StoreConfig}

def apply (s : EvictionStore cfg) : StoreOp → EvictionStore cfg
  | .put key value ttl clk => (s.put key value ttl clk).2
  | .putVersioned key entry clk => (s.putVersioned key entry clk).2
  | .removeVersioned key version writer clk => (s.removeVersioned key version writer clk).2
  | .remove key => (s.remove key).2
  | .get key now => (s.get key now).2
  | .getVersioned key now => (s.getVersioned key now).2
  | .evictExpired now => (s.evictExpired now).2
  | .setCapacity capacityBytes => s.setCapacity capacityBytes
  | .setTombstoneGcInterval interval => s.setTombstoneGcInterval interval
  | .restoreFreq key freq => s.restoreFreq key freq
  | .mintVersion => s.mintVersion.2

def step (s : EvictionStore cfg) (op : StoreOp) : Option (EvictionStore cfg) := some (s.apply op)

end EvictionStore

end Cinder
