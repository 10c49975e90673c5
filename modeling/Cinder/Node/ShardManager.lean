/-
`ShardManager` (`src/node/shard_manager.cpp`): what a rebalance sends, and what the
callbacks of a migration do to the local store.

The node is a transition system. Between a rebalance and the callbacks of its sends anything may
happen to the store: `putVersioned` stands for every local put, replicated write and versioned
delete, `remove` for the hard removal of the store's interface and `drop` for expiry and
eviction. A callback runs at most once per send, in any order, or never. The replicas' callbacks
only count; the decision is taken in the primary's.
-/
import Cinder.Lib.Transition
import Cinder.Node.Replication

namespace Cinder

open List

/-! ## 1. Collecting the pushes of a rebalance -/

structure ShardConfig where
  self : NodeId
  replicaFactor : Int
  /-- Milliseconds. -/
  quarantineInterval : Int := 0
  deriving DecidableEq, Repr

structure CopyPush where
  key : Key
  entry : VersionedEntry
  owner : NodeId
  deriving DecidableEq, Repr

structure MigratePush where
  key : Key
  entry : VersionedEntry
  primary : NodeId
  replicaPeers : List NodeId
  deriving DecidableEq, Repr

structure Pushes where
  copies : List CopyPush := []
  migrates : List MigratePush := []
  deferredCount : Nat := 0
  deriving DecidableEq, Repr

/-- Everything resident that has not expired, tombstones included. -/
def Table.liveEntries (t : Table) (snapTime : Nanos) : List (Key × VersionedEntry) :=
  (t.entries.filter fun p => !p.2.expiredAt snapTime).map fun p => (p.1, p.2)

/-- One round of the loop of `rebalance`, for a key with replica set `desired`. -/
def Pushes.collect (self : NodeId) (quarantined : NodeId → Bool) (p : Pushes) (key : Key)
    (entry : VersionedEntry) (desired : List NodeId) : Pushes :=
  match desired with
  | [] => p
  | primary :: others =>
    if self ∈ desired then
      -- still a member: keep the copy and make sure the other members have it too
      let owners := desired.filter fun owner => owner ≠ self
      { p with
        copies := p.copies ++ (owners.filter fun o => !quarantined o).map (⟨key, entry, ·⟩)
        deferredCount := p.deferredCount + (owners.filter quarantined).length }
    else if quarantined primary then { p with deferredCount := p.deferredCount + 1 }
    else
      { p with
        migrates := p.migrates ++ [⟨key, entry, primary, others.filter fun o => !quarantined o⟩]
        deferredCount := p.deferredCount + (others.filter quarantined).length }

/-- The loop over the live entries; `getNodes` throws on a replica factor out of range. -/
def collectPushes (self : NodeId) (quarantined : NodeId → Bool)
    (replicas : Key → Except String (List NodeId)) :
    List (Key × VersionedEntry) → Pushes → Except String Pushes
  | [], p => .ok p
  | (key, entry) :: rest, p =>
    match replicas key with
    | .error what => .error what
    | .ok desired =>
      collectPushes self quarantined replicas rest (p.collect self quarantined key entry desired)

/-! ## 2. Sends and their callbacks -/

def makeReplicateRequest (clk : ClockReading) (key : Key) (entry : VersionedEntry) : Request :=
  entryRequest clk key entry

/-- The sends of one migration: to the new primary and to `replica_peers[i]`. -/
inductive Send where
  | primary
  | replica (i : Nat)
  deriving DecidableEq, Repr

/-- A migration under way: its tally, the sends whose callbacks have not run, and (for the
statements only) the sends that were acknowledged, in the order of their callbacks. -/
structure Migration where
  push : MigratePush
  acks : Nat := 0
  waiting : List Send
  acked : List Send := []
  deriving DecidableEq, Repr

def MigratePush.expected (p : MigratePush) : Nat := 1 + p.replicaPeers.length

/-- The replicas are sent to first. -/
def MigratePush.sends (p : MigratePush) : List Send :=
  (range p.replicaPeers.length).map .replica ++ [.primary]

def MigratePush.nodeOf (p : MigratePush) : Send → Option NodeId
  | .primary => some p.primary
  | .replica i => p.replicaPeers[i]?

/-- A peer known and not alive is not sent to. -/
def MembershipTable.reachable (t : MembershipTable) (id : NodeId) : Bool :=
  match t.get id with
  | some info => decide (info.state = .alive)
  | none => true

/-- Up to the return of its last send. -/
def migrateKey (t : MembershipTable) (p : MigratePush) : Option Migration :=
  if t.reachable p.primary then some { push := p, waiting := p.sends } else none

inductive Outcome where
  /-- A replica's callback: the tally at most. -/
  | noted
  | failed
  | completed
  | retainedUnderreplicated
  deriving DecidableEq, Repr

def Migration.onResult (m : Migration) (send : Send) (ok : Bool) : Migration × Outcome :=
  let m := { m with waiting := m.waiting.erase send }
  let acked := { m with acks := m.acks + 1, acked := m.acked ++ [send] }
  match send, ok with
  | .replica _, true => (acked, .noted)
  | .replica _, false => (m, .noted)
  | .primary, false => (m, .failed)
  | .primary, true =>
    if acked.acks = m.push.expected then (acked, .completed)
    else (acked, .retainedUnderreplicated)

/-! ## 3. The node -/

structure ShardNode where
  store : Table := ∅
  ring : RingSnapshot
  members : MembershipTable
  migrations : List Migration := []
  /-- Requests handed to the transport, in order. -/
  sent : List (NodeId × Request) := []
  /-- Calls of `on_migration_failed_`. -/
  migrationFailures : Nat := 0

def MigratePush.requests (clk : ClockReading) (p : MigratePush) : List (NodeId × Request) :=
  (p.replicaPeers ++ [p.primary]).map (·, makeReplicateRequest clk p.key p.entry)

section Rebalance

variable (hash64 : Bytes → UInt64) (cfg : ShardConfig)

variable (s : ShardNode)

def ShardNode.quarantined (now : Nanos) (id : NodeId) : Bool :=
  s.members.isQuarantined id now cfg.quarantineInterval

def ShardNode.replicas (key : Key) : Except String (List NodeId) :=
  s.ring.getNodes hash64 key cfg.replicaFactor

/-- `snapTime` is the store's clock when it lists its entries. Returns whether
some key was deferred. -/
def ShardNode.rebalance (clk : ClockReading) (snapTime : Nanos) :
    Except String (Bool × ShardNode) :=
  match collectPushes cfg.self (s.quarantined cfg clk.now) (s.replicas hash64 cfg)
      (s.store.liveEntries snapTime) {} with
  | .error what => .error what
  | .ok p =>
    let copies := p.copies.filter fun c => s.members.reachable c.owner
    let migrates := p.migrates.filter fun m => s.members.reachable m.primary
    .ok (decide (0 < p.deferredCount),
      { s with
        migrations := s.migrations ++ p.migrates.filterMap (migrateKey s.members)
        sent := s.sent ++ copies.map (fun c => (c.owner, makeReplicateRequest clk c.key c.entry))
          ++ migrates.flatMap (MigratePush.requests clk) })

inductive ShardEvent where
  | putVersioned (key : Key) (entry : VersionedEntry)
  | remove (key : Key)
  | drop (key : Key)
  | setRing (ring : RingSnapshot)
  | setMembers (members : MembershipTable)
  | rebalance (clk : ClockReading) (snapTime : Nanos)
  | result (i : Nat) (send : Send) (ok : Bool)

/-- The callback of `send`, with its effect on the node. -/
def ShardNode.onResult (i : Nat) (m : Migration) (send : Send) (ok : Bool) :
    ShardNode :=
  let s := { s with migrations := s.migrations.set i (m.onResult send ok).1 }
  match (m.onResult send ok).2 with
  | .completed => { s with store := s.store.erase m.push.key }
  | .failed => { s with migrationFailures := s.migrationFailures + 1 }
  | _ => s

def ShardNode.step : ShardEvent → Option ShardNode
  | .putVersioned key entry => some { s with store := s.store.putVersioned key entry }
  | .remove key => some { s with store := s.store.erase key }
  | .drop key => some { s with store := s.store.erase key }
  | .setRing ring => some { s with ring := ring }
  | .setMembers members => some { s with members := members }
  | .rebalance clk snapTime =>
    match s.rebalance hash64 cfg clk snapTime with
    | .ok (_, s') => some s'
    | .error _ => some s
  | .result i send ok =>
    match s.migrations[i]? with
    | some m => if send ∈ m.waiting then some (s.onResult i m send ok) else none
    | none => none

end Rebalance

/-! ## 4. What a rebalance starts -/

section Specs

variable {hash64 : Bytes → UInt64} {cfg : ShardConfig} {s s' : ShardNode}

/-- What a migration is started for: an entry that was live, of a key whose replica set no
longer has this node, with a primary that is not in quarantine. -/
structure MigratePush.For (me : NodeId) (quarantined : NodeId → Bool)
    (replicas : Key → Except String (List NodeId)) (live : List (Key × VersionedEntry))
    (p : MigratePush) : Prop where
  captured : (p.key, p.entry) ∈ live
  desired : ∃ others, replicas p.key = .ok (p.primary :: others) ∧
    me ∉ p.primary :: others ∧ p.replicaPeers = others.filter fun o => !quarantined o
  primary : quarantined p.primary = false

variable {me : NodeId} {quarantined : NodeId → Bool}
  {replicas : Key → Except String (List NodeId)}

theorem migrates_collect (p : Pushes) (key : Key) (entry : VersionedEntry)
    {desired : List NodeId} (hdes : replicas key = .ok desired) :
    (p.collect me quarantined key entry desired).migrates = p.migrates ∨
    ∃ m : MigratePush, m.key = key ∧ m.For me quarantined replicas [(key, entry)] ∧
      (p.collect me quarantined key entry desired).migrates = p.migrates ++ [m] := by
  unfold Pushes.collect
  cases desired with
  | nil => exact .inl rfl
  | cons primary others =>
    dsimp only
    split
    · exact .inl rfl
    · rename_i hself
      split
      · exact .inl rfl
      · rename_i hq
        refine .inr ⟨_, rfl, ?_, rfl⟩
        exact ⟨mem_singleton.mpr rfl, ⟨others, hdes, hself, rfl⟩, by simpa using hq⟩

theorem MigratePush.For.mono {live live' : List (Key × VersionedEntry)} {m : MigratePush}
    (h : m.For me quarantined replicas live) (hsub : live ⊆ live') :
    m.For me quarantined replicas live' :=
  { h with captured := hsub h.captured }

theorem migrates_collectPushes {live : List (Key × VersionedEntry)} {p p' : Pushes}
    (h : collectPushes me quarantined replicas live p = .ok p') :
    ∃ ms : List MigratePush, p'.migrates = p.migrates ++ ms ∧
      (∀ m ∈ ms, m.For me quarantined replicas live) ∧
      List.Sublist (ms.map (·.key)) (live.map (·.1)) := by
  induction live generalizing p with
  | nil =>
    cases h
    exact ⟨[], by simp, by simp, List.Sublist.refl _⟩
  | cons kv rest ih =>
    obtain ⟨key, entry⟩ := kv
    rw [collectPushes] at h
    split at h
    · cases h
    · rename_i desired hdes
      obtain ⟨ms, hms, hfor, hsub⟩ := ih h
      have hrest : ∀ m ∈ ms, m.For me quarantined replicas ((key, entry) :: rest) :=
        fun m hm => (hfor m hm).mono (subset_cons_self _ _)
      rcases migrates_collect p key entry hdes with heq | ⟨m, hkey, hm, heq⟩
      · exact ⟨ms, by rw [hms, heq], hrest, hsub.trans (sublist_cons_self _ _)⟩
      · refine ⟨m :: ms, by rw [hms, heq, append_assoc]; rfl, ?_, ?_⟩
        · intro m' hm'
          rcases mem_cons.mp hm' with rfl | hm'
          · exact hm.mono (by simp)
          · exact hrest m' hm'
        · simpa [hkey] using hsub.cons_cons key

theorem mem_liveEntries {t : Table} {now : Nanos} {key : Key} {entry : VersionedEntry}
    (h : (key, entry) ∈ t.liveEntries now) : t.lookup key = some entry := by
  obtain ⟨p, hp, heq⟩ := mem_map.mp h
  cases heq
  exact AList.mem_lookup_iff.mpr (mem_of_mem_filter hp)

theorem nodup_liveEntries_keys (t : Table) (now : Nanos) :
    ((t.liveEntries now).map (·.1)).Nodup := by
  have hsub : List.Sublist ((t.liveEntries now).map (·.1)) t.keys := by
    unfold Table.liveEntries
    rw [map_map]
    exact (filter_sublist).map _
  exact hsub.nodup t.nodupKeys

theorem rebalance_spec {clk : ClockReading} {snapTime : Nanos} {deferred : Bool}
    (h : s.rebalance hash64 cfg clk snapTime = .ok (deferred, s')) :
    ∃ ms : List MigratePush,
      (∀ m ∈ ms, m.For cfg.self (s.quarantined cfg clk.now) (s.replicas hash64 cfg)
        (s.store.liveEntries snapTime)) ∧
      (ms.map (·.key)).Nodup ∧
      s'.migrations = s.migrations ++ ms.map (fun m => { push := m, waiting := m.sends }) ∧
      s'.store = s.store := by
  unfold ShardNode.rebalance at h
  split at h
  · cases h
  · rename_i p hp
    cases h
    obtain ⟨ms, hms, hfor, hsub⟩ := migrates_collectPushes hp
    have hsome : ∀ l : List MigratePush, l.filterMap (migrateKey s.members) =
        (l.filter fun m => s.members.reachable m.primary).map
          (fun m => { push := m, waiting := m.sends }) := by
      intro l
      induction l with
      | nil => rfl
      | cons m l ih =>
        by_cases hm : s.members.reachable m.primary = true <;> simp [migrateKey, hm, ih]
    refine ⟨ms.filter fun m => s.members.reachable m.primary, ?_, ?_, ?_, rfl⟩
    · exact fun m hm => hfor m (mem_of_mem_filter hm)
    · exact ((filter_sublist.map _).trans hsub).nodup (nodup_liveEntries_keys _ _)
    · show s.migrations ++ p.migrates.filterMap (migrateKey s.members) = _
      rw [hsome, hms]
      rfl

end Specs

end Cinder
