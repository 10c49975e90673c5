/-
The ring behind the membership table (`src/node/cache_node_server.cpp`: `seedCluster`,
`rebuildRing`; `src/cluster/membership.cpp`: `fireCallbacks`).

A change of the table fires `rebuildRing` on the thread that made it, outside the table's lock:
the callback takes a snapshot, and then sets the ring to this node and the Alive nodes of the
snapshot. Between the two, callbacks of other threads may run.
-/
import Cinder.Cluster.Quarantine
import Cinder.Hashing.RingMembership
import Cinder.Lib.Republish

namespace Cinder

open Transition Republish MembershipTable List

/-! ## 1. Changes and the flag that fires the callbacks -/

/-- The operations that may fire; `seed` does not, and runs before the callback is registered. -/
inductive TableChange where
  | applyRumor (now : Nanos) (rumor : NodeInfo)
  | markSuspect (id : NodeId)
  | markDead (id : NodeId)
  | markAlive (now : Nanos) (id : NodeId) (incarnation : UInt64)

namespace MembershipTable

variable (t : MembershipTable)

/-- `changed` at the end of `applyRumor`; a refutation reports what it changed. -/
def rumorChanges (rumor : NodeInfo) : Bool :=
  match t.get rumor.id with
  | none => decide (rumor.state = .alive)
  | some info =>
    if rumor.incarnation < info.incarnation then false
    else if rumor.incarnation = info.incarnation ∧ rumor.state = info.state then false
    else if rumor.id = t.self ∧ rumor.state ≠ .alive then
      match t.get t.self with
      | none => false
      | some self => decide (self.incarnation ≤ rumor.incarnation) || decide (self.state ≠ .alive)
    else decide (info.state ≠ rumor.state) || decide (info.incarnation ≠ rumor.incarnation)

/-- `changed` of the mark operations: the node is known and `early` does not return. -/
def markChanges (id : NodeId) (early : NodeInfo → Bool) : Bool :=
  match t.get id with
  | none => false
  | some info => !early info

def applyChange : TableChange → MembershipTable × Bool
  | .applyRumor now rumor => (t.applyRumor now rumor, t.rumorChanges rumor)
  | .markSuspect id => (t.markSuspect id,
      t.markChanges id fun info => decide (info.state = .dead) || decide (info.state = .suspect))
  | .markDead id => (t.markDead id, t.markChanges id fun info => decide (info.state = .dead))
  | .markAlive now id incarnation => (t.markAlive now id incarnation, t.markChanges id fun info =>
        decide (info.state = .alive) && decide (incarnation ≤ info.incarnation))

def ringNodes (self : NodeId) (members : List NodeInfo) : List NodeId :=
  self :: (members.filter fun info => decide (info.id ≠ self) && decide (info.state = .alive)).map
    NodeInfo.id

def ringView : List NodeId := ringNodes t.self t.snapshot

variable {t : MembershipTable}

theorem mem_snapshot (h : t.Wf) {info : NodeInfo} :
    info ∈ t.snapshot ↔ t.get info.id = some info := by
  have hone := filter_snapshot h info.id
  constructor
  · intro hmem
    have hin : info ∈ t.snapshot.filter fun i => i.id = info.id :=
      mem_filter.mpr ⟨hmem, decide_eq_true rfl⟩
    rw [hone] at hin
    exact Option.mem_toList.mp hin
  · intro hget
    have hin : info ∈ t.snapshot.filter fun i => i.id = info.id := by
      rw [hone, hget]
      exact mem_singleton_self _
    exact (mem_filter.mp hin).1

theorem mem_ringView (h : t.Wf) (id : NodeId) :
    id ∈ t.ringView ↔ id = t.self ∨ t.isAlive id = true := by
  rw [ringView, ringNodes, mem_cons, isAlive_iff]
  constructor
  · rintro (hself | hin)
    · exact .inl hself
    · obtain ⟨info, hinfo, rfl⟩ := mem_map.mp hin
      obtain ⟨hmem, hkeep⟩ := mem_filter.mp hinfo
      rw [Bool.and_eq_true, decide_eq_true_eq, decide_eq_true_eq] at hkeep
      exact .inr ⟨info, (mem_snapshot h).mp hmem, hkeep.2⟩
  · rintro (hself | ⟨info, hget, halive⟩)
    · exact .inl hself
    · by_cases hself : id = t.self
      · exact .inl hself
      · have hid := h id info hget
        refine .inr (mem_map.mpr ⟨info, mem_filter.mpr ⟨?_, ?_⟩, hid⟩)
        · exact (mem_snapshot h).mpr (hid.symm ▸ hget)
        · rw [hid, decide_eq_true hself, decide_eq_true halive]
          rfl

theorem mark_of_early {id : NodeId} {f : NodeInfo → Option NodeInfo} {early : NodeInfo → Bool}
    (hearly : ∀ info, early info = true → f info = none) (h : t.markChanges id early = false) :
    t.mark id f = t := by
  unfold markChanges at h
  unfold mark
  cases hget : t.get id with
  | none => rfl
  | some info =>
    rw [hget] at h
    have hearly := hearly info (by simpa using h)
    simp only [hearly]

theorem applyRumor_of_unchanged {now : Nanos} {rumor : NodeInfo}
    (h : t.rumorChanges rumor = false) : t.applyRumor now rumor = t := by
  unfold rumorChanges at h
  rcases applyRumor_cases t now rumor with ⟨-, -, heq⟩ | ⟨hget, hstate, -⟩ | ⟨info, hget, hcase⟩
  · exact heq
  · rw [hget] at h
    exact absurd hstate (of_decide_eq_false h)
  · rcases hcase with ⟨-, heq⟩ | ⟨hstale, hrecord, hcase⟩
    · exact heq
    have hnew : ¬ (rumor.incarnation = info.incarnation ∧ rumor.state = info.state) := by
      rintro ⟨hinc, hstate⟩
      exact hrecord (by rw [NodeInfo.record, NodeInfo.record, hinc, hstate])
    rw [hget] at h
    simp only [if_neg hstale, if_neg hnew] at h
    rcases hcase with ⟨hself, hdown, -⟩ | ⟨hother, -⟩
    · -- a rumor that is not stale reaches the incarnation it is refuted with
      rw [if_pos ⟨hself, hdown⟩, ← hself, hget] at h
      have hle := (Bool.or_eq_false_iff.mp h).1
      exact absurd (UInt64.not_lt.mp hstale) (of_decide_eq_false hle)
    · rw [if_neg hother, Bool.or_eq_false_iff] at h
      have hsame : info.state = rumor.state ∧ info.incarnation = rumor.incarnation :=
        ⟨not_not.mp (of_decide_eq_false h.1), not_not.mp (of_decide_eq_false h.2)⟩
      exact absurd ⟨hsame.2.symm, hsame.1.symm⟩ hnew

theorem faithful_applyChange : Board.Faithful applyChange ringView := by
  intro t change hquiet
  refine congrArg ringView ?_
  cases change with
  | applyRumor now rumor => exact applyRumor_of_unchanged hquiet
  | markSuspect id =>
    refine mark_of_early (fun info hearly => ?_) hquiet
    rw [Bool.or_eq_true, decide_eq_true_eq, decide_eq_true_eq] at hearly
    rcases hearly with hdead | hsuspect
    · rw [if_pos hdead]
    · rw [if_pos hsuspect, ite_self]
  | markDead id =>
    exact mark_of_early (fun info hearly => if_pos (of_decide_eq_true hearly)) hquiet
  | markAlive now id incarnation =>
    refine mark_of_early (fun info hearly => ?_) hquiet
    rw [Bool.and_eq_true, decide_eq_true_eq, decide_eq_true_eq] at hearly
    exact if_pos hearly

theorem Wf.applyChange (h : t.Wf) (change : TableChange) : (t.applyChange change).1.Wf := by
  cases change with
  | applyRumor now rumor => exact h.applyRumor now rumor
  | markSuspect id => exact h.markSuspect
  | markDead id => exact h.markDead
  | markAlive now id incarnation => exact h.markAlive now incarnation

theorem self_applyChange (change : TableChange) : (t.applyChange change).1.self = t.self := by
  cases change with
  | applyRumor now rumor => exact self_applyRumor now rumor
  | markSuspect id | markDead id | markAlive now id incarnation => exact self_mark _

end MembershipTable

/-! ## 2. The server's ring -/

/-- The table with the open callbacks, and the ring; what was last passed to `setNodes` stands on
the board. -/
structure RingFollower where
  board : Board MembershipTable (List NodeId)
  ring : RingArrays

namespace RingFollower

variable (cfg : RingConfig)

/-- `seedCluster`; nothing if the ring throws. -/
def start (nodeId : NodeId) (peers : List (Nanos × MembershipTable.PeerConfig)) :
    Option RingFollower :=
  let table := (MembershipTable.start nodeId).seed peers
  match cfg.setNodes {} (nodeId :: peers.map fun peer => peer.2.id) with
  | .ok ring => some { board := { source := table, published := table.ringView }, ring }
  | .error _ => none

variable (s : RingFollower)

/-- A callback that throws is over and leaves the ring. -/
def step (e : Event TableChange) : Option RingFollower :=
  (s.board.step MembershipTable.applyChange MembershipTable.ringView e).map fun board =>
    { board
      ring := match e with
        | .publish _ => cfg.apply s.ring (.setNodes board.published)
        | _ => s.ring }

/-- The ids a callback holds can be told apart by an index. -/
def Fits : Callback (List NodeId) → Prop
  | .waiting => True
  | .holding _ ids => ids.dedup.length ≤ kMaxPhysicalNodes

instance : ∀ c, Decidable (Fits c)
  | .waiting => isTrue trivial
  | .holding _ ids => inferInstanceAs (Decidable (ids.dedup.length ≤ kMaxPhysicalNodes))

/-- The condition on a step: the ring is set from a snapshot that is not older than the one it was
last set from, and with no more ids than it can hold. -/
def InOrder : Event TableChange → Prop
  | .publish i => ∀ c ∈ s.board.callbacks[i]?, c.NotBefore s.board.shown ∧ Fits c
  | _ => True

instance : ∀ e : Event TableChange, Decidable (s.InOrder e)
  | .publish i =>
    inferInstanceAs (Decidable (∀ c ∈ s.board.callbacks[i]?, c.NotBefore s.board.shown ∧ Fits c))
  | .change _ => isTrue trivial
  | .read _ => isTrue trivial

/-- The ring shows what was published, and the board is current. -/
structure Following (nodeId : NodeId) (s : RingFollower) : Prop where
  table : s.board.source.Wf
  owner : s.board.source.self = nodeId
  current : s.board.Current MembershipTable.ringView
  arrays : s.ring.Wf cfg
  members : ∀ id, id ∈ s.ring.physicalNodes ↔ id ∈ s.board.published

variable {cfg : RingConfig} {nodeId : NodeId} {s s' : RingFollower}

theorem InOrder.board {e : Event TableChange} (h : s.InOrder e) : s.board.InOrder e := by
  cases e with
  | publish i => exact fun c hc => (h c hc).1
  | _ => trivial

theorem Following.step {e : Event TableChange} (h : s.Following cfg nodeId) (hok : s.InOrder e)
    (hstep : s.step cfg e = some s') : s'.Following cfg nodeId := by
  obtain ⟨board, hboard, rfl⟩ := Option.map_eq_some_iff.mp hstep
  have hcurrent := h.current.step faithful_applyChange hok.board hboard
  obtain ⟨change, rfl, rfl⟩ | ⟨i, rfl, -, rfl⟩ | ⟨i, number, ids, rfl, hi, rfl⟩ :=
    Board.step_cases hboard
  · exact ⟨h.table.applyChange change, (self_applyChange change).trans h.owner,
      hcurrent, h.arrays, h.members⟩
  · exact ⟨h.table, h.owner, hcurrent, h.arrays, h.members⟩
  · obtain ⟨r, hr⟩ := RingConfig.setNodes_ok h.arrays (hok _ hi).2
    obtain ⟨hwf, hmem⟩ := RingConfig.setNodes_wf h.arrays hr
    have happly : cfg.apply s.ring (.setNodes ids) = r := by
      rw [RingConfig.apply, hr]
      rfl
    refine ⟨h.table, h.owner, hcurrent, ?_, ?_⟩
    · show (cfg.apply s.ring (.setNodes ids)).Wf cfg
      exact happly ▸ hwf
    · show ∀ id, id ∈ (cfg.apply s.ring (.setNodes ids)).physicalNodes ↔ id ∈ ids
      exact happly ▸ hmem

theorem isAlive_seed {t : MembershipTable} (peers : List (Nanos × MembershipTable.PeerConfig))
    (hself : t.isAlive t.self = true) (id : NodeId) :
    (t.seed peers).isAlive id = true ↔
      t.isAlive id = true ∨ id ∈ peers.map fun peer => peer.2.id := by
  induction peers generalizing t with
  | nil => simp [seed]
  | cons peer peers ih =>
    have hone : ∀ id', (t.seedPeer peer.1 peer.2).isAlive id' = true ↔
        t.isAlive id' = true ∨ id' = peer.2.id := by
      intro id'
      unfold seedPeer
      split
      · rename_i heq
        exact ⟨.inl, fun h => h.elim (fun h => h) fun h => h ▸ heq ▸ hself⟩
      · rw [isAlive_iff, isAlive_iff]
        by_cases hid : id' = peer.2.id
        · subst hid
          rw [get_setInfo]
          simp
        · rw [get_setInfo_ne hid]
          simp [hid]
    have hrest := ih (t := t.seedPeer peer.1 peer.2)
      ((t.self_seedPeer peer.1 peer.2).symm ▸ (hone t.self).mpr (.inl hself))
    rw [seed, foldl_cons, ← seed, hrest, hone, map_cons, mem_cons, or_assoc]

theorem following_start {peers : List (Nanos × MembershipTable.PeerConfig)}
    (h : start cfg nodeId peers = some s) : s.Following cfg nodeId := by
  unfold start at h
  split at h
  · rename_i ring hring
    cases h
    have hself : ((MembershipTable.start nodeId).seed peers).self = nodeId := self_seed peers
    have honly : ∀ id, (MembershipTable.start nodeId).isAlive id = true ↔ id = nodeId := by
      intro id
      rw [isAlive_iff, get_start]
      split <;> simp [*]
    obtain ⟨hwf, hmem⟩ := RingConfig.setNodes_wf (RingArrays.wf_empty cfg) hring
    have htable := (wf_start nodeId).seed peers
    refine ⟨htable, hself, Board.Current.of_start rfl, hwf, fun id => ?_⟩
    rw [hmem, mem_ringView htable, hself, mem_cons,
      isAlive_seed peers ((honly _).mpr rfl), honly, ← or_assoc, or_self]
  · cases h

/-- **The ring follows the table**: in every run in which no callback sets the ring from a snapshot
older than the last one, nor from one with too many ids, the ring's members are this node and the
Alive nodes of the table whenever all callbacks have finished. -/
theorem ring_follows_table (cfg : RingConfig) (nodeId : NodeId)
    (peers : List (Nanos × MembershipTable.PeerConfig)) (s₀ s : RingFollower)
    (hstart : start cfg nodeId peers = some s₀) (h : Reaches (step cfg) InOrder s₀ s)
    (hdone : s.board.callbacks = []) :
    ∀ id, id ∈ s.ring.physicalNodes ↔ id = nodeId ∨ s.board.source.isAlive id = true := by
  have hinv : s.Following cfg nodeId := h.invariant (following_start hstart)
    fun _ _ _ hi hok hstep => hi.step hok hstep
  intro id
  rw [hinv.members, hinv.current.published_of_done hdone, mem_ringView hinv.table, hinv.owner]

def deadAndBack : List (Event TableChange) :=
  [.change (.markDead [66]), .read 0, .change (.markAlive 5 [66] 1), .read 1]

theorem ring_follows_in_order :
    ∃ s₀ s, start twoVnodes [65] [(0, { id := [66] })] = some s₀ ∧
      Reaches (step twoVnodes) InOrder s₀ s ∧ s.board.callbacks = [] ∧
      s.board.source.isAlive [66] = true ∧ [66] ∈ s.ring.physicalNodes := by
  have hrun : ((start twoVnodes [65] [(0, { id := [66] })]).any fun s₀ =>
      (exec (step twoVnodes) InOrder s₀ (deadAndBack ++ [.publish 0, .publish 0])).any fun s =>
        s.board.callbacks.isEmpty && s.board.source.isAlive [66]) = true := by decide +kernel
  obtain ⟨s₀, hstart, hexec⟩ := (Option.any_eq_true _ _).mp hrun
  obtain ⟨s, hreach, hp⟩ := exists_reaches_of_exec _ _ _ _ _ hexec
  rw [Bool.and_eq_true, List.isEmpty_iff] at hp
  exact ⟨s₀, s, hstart, hreach, hp.1, hp.2,
    (ring_follows_table twoVnodes [65] _ s₀ s hstart hreach hp.1 [66]).mpr (.inr hp.2)⟩

/-- The callback of the recovery sets the ring first, the callback of the failure last: B is Alive
and not in the ring for good. -/
theorem stale_callback_wins :
    ∃ s₀ s, start twoVnodes [65] [(0, { id := [66] })] = some s₀ ∧
      Reaches (step twoVnodes) (fun _ _ => True) s₀ s ∧ s.board.callbacks = [] ∧
      s.board.source.isAlive [66] = true ∧ [66] ∉ s.ring.physicalNodes := by
  have hrun : ((start twoVnodes [65] [(0, { id := [66] })]).any fun s₀ =>
      (exec (step twoVnodes) (fun _ _ => True) s₀
        (deadAndBack ++ [.publish 1, .publish 0])).any fun s =>
          s.board.callbacks.isEmpty && s.board.source.isAlive [66] &&
            decide ([66] ∉ s.ring.physicalNodes)) = true := by decide +kernel
  obtain ⟨s₀, hstart, hexec⟩ := (Option.any_eq_true _ _).mp hrun
  obtain ⟨s, hreach, hp⟩ := exists_reaches_of_exec _ _ _ _ _ hexec
  rw [Bool.and_eq_true, Bool.and_eq_true, List.isEmpty_iff, decide_eq_true_eq] at hp
  exact ⟨s₀, s, hstart, hreach, hp.1.1, hp.1.2, hp.2⟩

end RingFollower

end Cinder
