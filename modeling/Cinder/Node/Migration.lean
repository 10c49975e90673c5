/-
When a migration drops the local copy: against the acknowledgements of the new replica
set, and against the writes that arrive in between.
-/
import Cinder.Lib.Tracking
import Cinder.Node.ShardManager

namespace Cinder

open Transition Tracking List ShardNode MigratePush Migration

/-! ## 1. The tally of one migration -/

section Tally

variable {m : Migration} {send : Send} {ok : Bool}

theorem Migration.onResult_fst : (m.onResult send ok).1 =
      { m with
        waiting := m.waiting.erase send
        acks := if ok then m.acks + 1 else m.acks
        acked := if ok then m.acked ++ [send] else m.acked } := by
  unfold onResult
  cases send <;> cases ok <;> dsimp only <;> simp only [Bool.false_eq_true, if_false, if_true]
  split <;> rfl

@[simp] theorem Migration.push_onResult : (m.onResult send ok).1.push = m.push := by
  rw [onResult_fst]

theorem Migration.onResult_completed :
    (m.onResult send ok).2 = .completed ↔
      send = .primary ∧ ok = true ∧ m.acks + 1 = m.push.expected := by
  unfold onResult
  cases send <;> cases ok <;> simp
  split <;> simp [*]

variable (p : MigratePush)

theorem MigratePush.length_sends : p.sends.length = p.expected := by
  simp [sends, expected, add_comm]

theorem MigratePush.nodup_sends : p.sends.Nodup := by
  refine nodup_append.mpr ⟨?_, nodup_singleton _, ?_⟩
  · exact nodup_range.map fun i j h => by cases h; rfl
  · intro a ha b hb hab
    obtain ⟨i, -, rfl⟩ := mem_map.mp ha
    exact absurd (hab.trans (mem_singleton.mp hb)) (by simp)

/-- The sends are tracked, and the tally counts the acknowledged ones. -/
structure Migration.Counted (m : Migration) : Prop where
  acks : m.acks = m.acked.length
  tracked : Tracked m.push.sends m.acked m.waiting

theorem Migration.Counted.onResult (h : m.Counted) (hs : send ∈ m.waiting) (ok : Bool) :
    (m.onResult send ok).1.Counted := by
  rw [onResult_fst]
  cases ok with
  | true =>
    refine ⟨?_, h.tracked.settle hs (List.Perm.refl _)⟩
    show m.acks + 1 = (m.acked ++ [send]).length
    rw [h.acks, length_append, length_singleton]
  | false => exact ⟨h.acks, h.tracked.drop send⟩

def Migration.AllAcked (m : Migration) : Prop := ∀ send ∈ m.push.sends, send ∈ m.acked

/-- The acknowledgement processed last is the primary's. -/
def Migration.PrimaryLast (m : Migration) : Prop := m.acked.getLast? = some .primary

theorem Migration.Counted.allAcked_iff (h : m.Counted) : m.AllAcked ↔ m.acks = m.push.expected := by
  rw [h.acks, ← m.push.length_sends]
  exact h.tracked.all_settled_iff m.push.nodup_sends

theorem Migration.Counted.not_allAcked (h : m.Counted) (hs : send ∈ m.waiting) : ¬ m.AllAcked :=
  fun hall => h.tracked.not_settled hs (hall send (h.tracked.subset (mem_append_right _ hs)))

theorem Migration.Counted.decided_onResult (h : m.Counted) (hs : send ∈ m.waiting) (ok : Bool) :
    (m.onResult send ok).2 = .completed ↔
      (m.onResult send ok).1.AllAcked ∧ (m.onResult send ok).1.PrimaryLast := by
  have hcount := (h.onResult hs ok).allAcked_iff
  rw [onResult_completed, hcount, Migration.PrimaryLast, onResult_fst]
  cases ok with
  | true =>
    simp only [if_true, getLast?_append, getLast?_singleton, Option.some_or,
      Option.some_inj, true_and]
    exact and_comm
  | false =>
    -- a failure acknowledges nothing, and the acknowledgements were not complete before
    have hnot : m.acks ≠ m.push.expected := fun heq => h.not_allAcked hs (h.allAcked_iff.mpr heq)
    simp [hnot]

end Tally

/-! ## 2. A run of callbacks -/

section Callbacks

variable {hash64 : Bytes → UInt64} {cfg : ShardConfig} {s s' : ShardNode}
  {i : Nat} {send : Send} {ok : Bool}

def ShardEvent.isResult : ShardEvent → Bool
  | .result _ _ _ => true
  | _ => false

theorem ShardNode.step_result (h : s.step hash64 cfg (.result i send ok) = some s') :
    ∃ m, s.migrations[i]? = some m ∧ send ∈ m.waiting ∧ s' = s.onResult i m send ok := by
  simp only [step] at h
  split at h
  · rename_i m hm
    split at h
    · rename_i hs
      exact ⟨m, hm, hs, (Option.some.inj h).symm⟩
    · cases h
  · cases h

theorem ShardNode.migrations_onResult (s : ShardNode) (i : Nat) (m : Migration) (send : Send)
    (ok : Bool) :
    (s.onResult i m send ok).migrations = s.migrations.set i (m.onResult send ok).1 := by
  unfold onResult
  split <;> rfl

theorem ShardNode.store_onResult (s : ShardNode) (i : Nat) (m : Migration) (send : Send)
    (ok : Bool) :
    (s.onResult i m send ok).store =
      if (m.onResult send ok).2 = .completed then s.store.erase m.push.key else s.store := by
  unfold onResult
  split
  · rw [if_pos ‹_›]
  · rw [if_neg (by simp [*])]
  · rename_i hcomp _
    rw [if_neg hcomp]

/-- What a run of callbacks keeps: the tallies, and that exactly the keys of the decided
migrations are gone from the table `t` the run started with. -/
structure DropInv (t : Table) (pushes : List MigratePush) (s : ShardNode) : Prop where
  counted : ∀ m ∈ s.migrations, m.Counted
  pushes : s.migrations.map (·.push) = pushes
  dropped : ∀ m ∈ s.migrations, m.AllAcked → m.PrimaryLast → s.store.lookup m.push.key = none
  kept : ∀ key, (∀ m ∈ s.migrations, m.push.key = key → ¬ (m.AllAcked ∧ m.PrimaryLast)) →
    s.store.lookup key = t.lookup key

theorem dropInv_onResult {t : Table} {pushes : List MigratePush} (h : DropInv t pushes s)
    {m : Migration} (hm : s.migrations[i]? = some m) (hs : send ∈ m.waiting) :
    DropInv t pushes (s.onResult i m send ok) := by
  have hmem : m ∈ s.migrations := mem_of_getElem? hm
  have hcounted := h.counted m hmem
  have hdecided := hcounted.decided_onResult hs ok
  have hlt : i < s.migrations.length := (List.getElem?_eq_some_iff.mp hm).1
  refine ⟨?_, ?_, ?_, ?_⟩
  · intro m' hm'
    rw [migrations_onResult] at hm'
    rcases mem_or_eq_of_mem_set hm' with hold | rfl
    · exact h.counted m' hold
    · exact hcounted.onResult hs ok
  · rw [migrations_onResult, map_set, push_onResult, h.pushes]
    have hget : pushes[i]? = some m.push := by
      rw [← h.pushes, getElem?_map, hm, Option.map_some]
    obtain ⟨hi, heq⟩ := List.getElem?_eq_some_iff.mp hget
    rw [← heq, set_getElem_self]
  · intro m' hm' hall hlast
    rw [migrations_onResult] at hm'
    rw [store_onResult]
    rcases mem_or_eq_of_mem_set hm' with hold | rfl
    · have hnone := h.dropped m' hold hall hlast
      split
      · by_cases hk : m'.push.key = m.push.key
        · rw [hk]
          exact AList.lookup_erase _ _
        · rw [AList.lookup_erase_ne hk, hnone]
      · exact hnone
    · rw [if_pos (hdecided.mpr ⟨hall, hlast⟩), push_onResult]
      exact AList.lookup_erase _ _
  · intro key hkey
    rw [migrations_onResult] at hkey
    -- a decided migration has no callback outstanding, so it sits at another index
    have hold : ∀ m' ∈ s.migrations, m'.push.key = key → ¬ (m'.AllAcked ∧ m'.PrimaryLast) := by
      intro m' hm' hk hdec
      obtain ⟨j, hj⟩ := getElem?_of_mem hm'
      have hij : i ≠ j := by
        rintro rfl
        obtain rfl : m = m' := Option.some.inj (hm.symm.trans hj)
        exact hcounted.not_allAcked hs hdec.1
      refine hkey m' (mem_of_getElem? (i := j) ?_) hk hdec
      rw [getElem?_set_ne hij, hj]
    rw [store_onResult]
    split
    · rename_i hcomp
      have hk : key ≠ m.push.key := by
        intro hk
        refine hkey _ (mem_set hlt _) ?_ (hdecided.mp hcomp)
        rw [push_onResult, hk]
      rw [AList.lookup_erase_ne hk, h.kept key hold]
    · exact h.kept key hold

theorem dropInv_reaches {t : Table} {pushes : List MigratePush} {s₁ s₂ : ShardNode}
    (h : Reaches (ShardNode.step hash64 cfg) (fun _ e => e.isResult = true) s₁ s₂)
    (h0 : DropInv t pushes s₁) : DropInv t pushes s₂ := by
  refine h.invariant h0 ?_
  intro s e s' hinv hres hstep
  cases e with
  | result i send ok =>
    obtain ⟨m, hm, hs, rfl⟩ := step_result hstep
    exact dropInv_onResult hinv hm hs
  | _ => cases hres

end Callbacks

/-! ## 3. The drop against the acknowledgements -/

section Drop

variable {hash64 : Bytes → UInt64} {cfg : ShardConfig}

/-- The node `id` acknowledged a migration of `key`. -/
def ShardNode.HeldBy (s : ShardNode) (key : Key) (id : NodeId) : Prop :=
  ∃ m ∈ s.migrations, m.push.key = key ∧ ∃ send ∈ m.acked, m.push.nodeOf send = some id

instance (s : ShardNode) (key : Key) (id : NodeId) : Decidable (s.HeldBy key id) :=
  inferInstanceAs (Decidable (∃ m ∈ s.migrations, m.push.key = key ∧
    ∃ send ∈ m.acked, m.push.nodeOf send = some id))

theorem MigratePush.mem_sends_iff {p : MigratePush} {send : Send} :
    send ∈ p.sends ↔ ∃ id, p.nodeOf send = some id := by
  cases send with
  | primary => simp [sends, nodeOf]
  | replica i =>
    simp only [sends, nodeOf, mem_append, mem_map,
      mem_range, mem_singleton, Send.replica.injEq, exists_eq_right, reduceCtorEq, or_false]
    constructor
    · exact fun h => ⟨_, getElem?_eq_getElem h⟩
    · rintro ⟨id, h⟩
      exact (List.getElem?_eq_some_iff.mp h).1

theorem MigratePush.exists_nodeOf_iff {p : MigratePush} {id : NodeId} :
    (∃ send, p.nodeOf send = some id) ↔ id ∈ p.primary :: p.replicaPeers := by
  constructor
  · rintro ⟨send, h⟩
    cases send with
    | primary => exact mem_cons.mpr (.inl (Option.some.inj h).symm)
    | replica i => exact mem_cons_of_mem _ (mem_of_getElem? h)
  · intro h
    rcases mem_cons.mp h with rfl | h
    · exact ⟨.primary, rfl⟩
    · obtain ⟨i, hi⟩ := getElem?_of_mem h
      exact ⟨.replica i, hi⟩

theorem MigratePush.nodeOf_inj {p : MigratePush} (hnd : (p.primary :: p.replicaPeers).Nodup)
    {a b : Send} {id : NodeId} (ha : p.nodeOf a = some id) (hb : p.nodeOf b = some id) :
    a = b := by
  obtain ⟨hprim, hpeers⟩ := nodup_cons.mp hnd
  cases a with
  | primary =>
    cases b with
    | primary => rfl
    | replica j =>
      cases ha
      exact absurd (mem_of_getElem? hb) hprim
  | replica i =>
    cases b with
    | primary =>
      cases hb
      exact absurd (mem_of_getElem? ha) hprim
    | replica j =>
      have hi : i < p.replicaPeers.length := (List.getElem?_eq_some_iff.mp ha).1
      rw [(getElem?_inj hi hpeers).mp (ha.trans hb.symm)]

theorem Migration.held_iff (m : Migration) {quarantined : NodeId → Bool}
    {others : List NodeId} (hnd : (m.push.primary :: others).Nodup)
    (hprim : quarantined m.push.primary = false)
    (hpeers : m.push.replicaPeers = others.filter fun o => !quarantined o) :
    (∀ id ∈ m.push.primary :: others, ∃ send ∈ m.acked, m.push.nodeOf send = some id) ↔
      m.AllAcked ∧ ∀ id ∈ m.push.primary :: others, quarantined id = false := by
  have hsub : m.push.primary :: m.push.replicaPeers ⊆ m.push.primary :: others := by
    rw [hpeers]
    exact (filter_sublist.cons_cons _).subset
  constructor
  · intro hall
    refine ⟨?_, ?_⟩
    · intro send hs
      obtain ⟨id, hid⟩ := mem_sends_iff.mp hs
      have hmem := hsub (exists_nodeOf_iff.mp ⟨send, hid⟩)
      obtain ⟨send', hacked, hid'⟩ := hall id hmem
      have hnd' : (m.push.primary :: m.push.replicaPeers).Nodup := by
        rw [hpeers]
        exact (filter_sublist.cons_cons _).nodup hnd
      rwa [nodeOf_inj hnd' hid hid']
    · intro id hid
      obtain ⟨send, -, hsend⟩ := hall id hid
      rcases mem_cons.mp (exists_nodeOf_iff.mp ⟨send, hsend⟩) with rfl | hpeer
      · exact hprim
      · rw [hpeers, mem_filter] at hpeer
        simpa using hpeer.2
  · rintro ⟨hall, hnone⟩ id hid
    have hmem : id ∈ m.push.primary :: m.push.replicaPeers := by
      rcases mem_cons.mp hid with rfl | hoth
      · exact mem_cons_self
      · rw [hpeers]
        refine mem_cons_of_mem _ (mem_filter.mpr ⟨hoth, ?_⟩)
        simp [hnone id hid]
    obtain ⟨send, hsend⟩ := exists_nodeOf_iff.mpr hmem
    exact ⟨send, hall send (mem_sends_iff.mpr ⟨id, hsend⟩), hsend⟩

theorem dropInv_rebalanced {s s₁ s₂ : ShardNode} {clk : ClockReading} {snapTime : Nanos}
    {deferred : Bool} (hidle : s.migrations = [])
    (hreb : s.rebalance hash64 cfg clk snapTime = .ok (deferred, s₁))
    (hrun : Reaches (ShardNode.step hash64 cfg) (fun _ e => e.isResult = true) s₁ s₂) :
    ∃ pushes : List MigratePush,
      (∀ p ∈ pushes, p.For cfg.self (s.quarantined cfg clk.now) (s.replicas hash64 cfg)
        (s.store.liveEntries snapTime)) ∧
      (pushes.map (·.key)).Nodup ∧ DropInv s.store pushes s₂ := by
  obtain ⟨pushes, hfor, hnodup, hmig, hstore⟩ := rebalance_spec hreb
  rw [hidle, nil_append] at hmig
  have hfresh : ∀ m ∈ s₁.migrations, m.Counted ∧ m.acked = [] := by
    intro m hm
    rw [hmig] at hm
    obtain ⟨p, -, rfl⟩ := mem_map.mp hm
    exact ⟨⟨rfl, tracked_start p.nodup_sends⟩, rfl⟩
  refine ⟨pushes, hfor, hnodup, dropInv_reaches hrun ⟨?_, ?_, ?_, ?_⟩⟩
  · exact fun m hm => (hfresh m hm).1
  · rw [hmig, map_map]
    exact map_id _
  · intro m hm _ hlast
    rw [Migration.PrimaryLast, (hfresh m hm).2] at hlast
    cases hlast
  · intro key _
    rw [hstore]

theorem DropInv.unique {t : Table} {pushes : List MigratePush} {s : ShardNode}
    (h : DropInv t pushes s) (hnodup : (pushes.map (·.key)).Nodup) {m m' : Migration}
    (hm : m ∈ s.migrations) (hm' : m' ∈ s.migrations) (hkey : m'.push.key = m.push.key) :
    m' = m := by
  have hkeys : (s.migrations.map fun m => m.push.key).Nodup := by
    rw [← h.pushes, map_map] at hnodup
    exact hnodup
  exact inj_on_of_nodup_map hkeys hm' hm hkey

theorem DropInv.lookup_iff {t : Table} {pushes : List MigratePush} {s : ShardNode}
    (h : DropInv t pushes s) (hnodup : (pushes.map (·.key)).Nodup) {m : Migration}
    (hm : m ∈ s.migrations) (hres : t.lookup m.push.key ≠ none) :
    s.store.lookup m.push.key = none ↔ m.AllAcked ∧ m.PrimaryLast := by
  constructor
  · intro hnone
    refine Classical.byContradiction fun hdec => hres ?_
    rw [← hnone, h.kept m.push.key fun m' hm' hk => h.unique hnodup hm hm' hk ▸ hdec]
  · rintro ⟨hall, hlast⟩
    exact h.dropped m hm hall hlast

/-- **The drop against the replica set.** After one rebalance and any run of its callbacks, the
local copy of a key this node left is gone exactly when the whole replica set acknowledged it,
unless all sends were acknowledged, the primary's last, though a replica had been skipped as
quarantined, or the whole replica set acknowledged it and the primary was not the last. -/
theorem dropped_iff_held {s s₁ s₂ : ShardNode} {clk : ClockReading} {snapTime : Nanos}
    {deferred : Bool} {key : Key} {entry : VersionedEntry} {primary : NodeId}
    {others : List NodeId} (hidle : s.migrations = [])
    (hreb : s.rebalance hash64 cfg clk snapTime = .ok (deferred, s₁))
    (hrun : Reaches (ShardNode.step hash64 cfg) (fun _ e => e.isResult = true) s₁ s₂)
    (hlive : (key, entry) ∈ s.store.liveEntries snapTime)
    (hdes : s.replicas hash64 cfg key = .ok (primary :: others)) :
    (s₂.store.lookup key = none ↔ ∀ id ∈ primary :: others, s₂.HeldBy key id) ↔
      ∀ m ∈ s₂.migrations, m.push.key = key →
        ¬ (m.AllAcked ∧ m.PrimaryLast ∧ ∃ id ∈ others, s.quarantined cfg clk.now id = true) ∧
        ¬ ((∀ id ∈ primary :: others, s₂.HeldBy key id) ∧ ¬ m.PrimaryLast) := by
  obtain ⟨pushes, hfor, hnodup, hinv⟩ := dropInv_rebalanced hidle hreb hrun
  have hres := mem_liveEntries hlive
  by_cases hex : ∃ m ∈ s₂.migrations, m.push.key = key
  · obtain ⟨m, hm, rfl⟩ := hex
    have huniq : ∀ m' ∈ s₂.migrations, m'.push.key = m.push.key → m' = m :=
      fun m' hm' hk => hinv.unique hnodup hm hm' hk
    have hpush := hfor m.push (hinv.pushes ▸ mem_map_of_mem hm)
    obtain ⟨others', hothers, -, hpeers⟩ := hpush.desired
    rw [hdes] at hothers
    obtain ⟨rfl, rfl⟩ := List.cons.inj (Except.ok.inj hothers)
    have hheld := m.held_iff (RingSnapshot.getNodes_nodup hdes) hpush.primary hpeers
    have hheldBy : (∀ id ∈ m.push.primary :: others, s₂.HeldBy m.push.key id) ↔
        m.AllAcked ∧ ¬ ∃ id ∈ others, s.quarantined cfg clk.now id = true := by
      refine Iff.trans ?_ (hheld.trans (and_congr_right fun _ => ?_))
      · refine forall₂_congr fun id _ => ⟨?_, fun ⟨send, h⟩ => ⟨m, hm, rfl, send, h⟩⟩
        rintro ⟨m', hm', hk, h⟩
        exact huniq m' hm' hk ▸ h
      · simp [hpush.primary]
    have hone : ∀ {q : Migration → Prop},
        (∀ m' ∈ s₂.migrations, m'.push.key = m.push.key → q m') ↔ q m :=
      ⟨fun h => h m hm rfl, fun h m' hm' hk => huniq m' hm' hk ▸ h⟩
    rw [hinv.lookup_iff hnodup hm (by simp [hres]), hone, hheldBy]
    generalize (∃ id ∈ others, s.quarantined cfg clk.now id = true) = skipped
    tauto
  · -- nothing was sent for the key: it stays, and nobody acknowledged it
    have hno : ∀ m ∈ s₂.migrations, m.push.key = key → False := fun m hm hk => hex ⟨m, hm, hk⟩
    rw [hinv.kept key fun m hm hk => (hno m hm hk).elim, hres]
    refine iff_of_true (iff_of_false nofun fun hheld => ?_) fun m hm hk => (hno m hm hk).elim
    obtain ⟨m, hm, hk, -⟩ := hheld primary mem_cons_self
    exact hno m hm hk

theorem exists_rebalanced (hash64 : Bytes → UInt64) (cfg : ShardConfig) (s : ShardNode)
    (clk : ClockReading) (snapTime : Nanos) (es : List ShardEvent) (p : ShardNode → Prop)
    [DecidablePred p] (h : ((s.rebalance hash64 cfg clk snapTime).toOption.bind fun r =>
      exec (ShardNode.step hash64 cfg) (fun _ e => e.isResult = true) r.2 es).any
        (fun s => decide (p s)) = true) :
    ∃ deferred s₁ s₂, s.rebalance hash64 cfg clk snapTime = .ok (deferred, s₁) ∧
      Reaches (ShardNode.step hash64 cfg) (fun _ e => e.isResult = true) s₁ s₂ ∧ p s₂ := by
  cases hr : s.rebalance hash64 cfg clk snapTime with
  | error what =>
    rw [hr] at h
    cases h
  | ok r =>
    rw [hr] at h
    obtain ⟨s₂, hreach, hp⟩ := exists_reaches_of_exec _ _ r.2 es _ h
    exact ⟨r.1, r.2, s₂, rfl, hreach, of_decide_eq_true hp⟩

theorem sorted_twoNodeRing :
    ([(10, ⟨0, Nat.two_pos⟩), (20, ⟨1, Nat.one_lt_two⟩)] : List (UInt64 × Fin 2)).Pairwise
      fun a b => a.1 ≤ b.1 := by
  decide

theorem nodup_twoNodeRing : ([[1], [2]] : List NodeId).Nodup := by decide

/-- Two nodes, one vnode each; the node under study is not among them. -/
def twoNodeRing : RingSnapshot where
  physicalNodes := [[1], [2]]
  vnodes := [(10, ⟨0, Nat.two_pos⟩), (20, ⟨1, Nat.one_lt_two⟩)]
  sorted := sorted_twoNodeRing
  nodup := nodup_twoNodeRing

/-- A node that left the ring with one key, two replicas, and `newcomer` having joined just
now. -/
def leftNode (newcomer : NodeId) : ShardNode where
  store := AList.insert [7] { versionAndTtl := 4, value := [1] } ∅
  ring := twoNodeRing
  members := ⟨[0], AList.insert newcomer { id := newcomer } ∅⟩

def leftConfig : ShardConfig where
  self := [0]
  replicaFactor := 2
  quarantineInterval := 1000

/-- With both replicas past their quarantine and the primary's acknowledgement last, the key is
dropped and both hold it. -/
theorem dropped_iff_held_primary_last :
    ∃ deferred s₁ s₂,
      (leftNode [3]).rebalance (fun _ => 0) leftConfig {} 0 = .ok (deferred, s₁) ∧
      Reaches (ShardNode.step (fun _ => 0) leftConfig) (fun _ e => e.isResult = true) s₁ s₂ ∧
      s₂.store.lookup [7] = none ∧ ∀ id ∈ ([[1], [2]] : List NodeId), s₂.HeldBy [7] id := by
  obtain ⟨deferred, s₁, s₂, hreb, hrun, hnone, hlast⟩ :=
    exists_rebalanced (fun _ => 0) leftConfig (leftNode [3]) {} 0
      [.result 0 (.replica 0) true, .result 0 .primary true] (fun s => s.store.lookup [7] = none ∧
        ∀ m ∈ s.migrations, m.acked.getLast? = some .primary) rfl
  have hlive : ([7], ({ versionAndTtl := 4, value := [1] } : VersionedEntry)) ∈
      (leftNode [3]).store.liveEntries 0 := by decide
  have hskip : ¬ ∃ id ∈ ([[2]] : List NodeId),
      (leftNode [3]).quarantined leftConfig ({} : ClockReading).now id = true := by decide
  exact ⟨deferred, s₁, s₂, hreb, hrun, hnone, ((dropped_iff_held rfl hreb hrun hlive rfl).mpr
    fun m hm _ => ⟨fun h => hskip h.2.2, fun h => h.2 (hlast m hm)⟩).mp hnone⟩

/-- A replica skipped as quarantined is not waited for, and an acknowledgement of the primary that
overtakes the replicas' leaves the copy in place for good. -/
theorem drop_follows_primary :
    (∃ deferred s₁ s₂,
      (leftNode [2]).rebalance (fun _ => 0) leftConfig {} 0 = .ok (deferred, s₁) ∧
      Reaches (ShardNode.step (fun _ => 0) leftConfig) (fun _ e => e.isResult = true) s₁ s₂ ∧
      s₂.store.lookup [7] = none ∧ ¬ s₂.HeldBy [7] [2]) ∧
    (∃ deferred s₁ s₂,
      (leftNode [3]).rebalance (fun _ => 0) leftConfig {} 0 = .ok (deferred, s₁) ∧
      Reaches (ShardNode.step (fun _ => 0) leftConfig) (fun _ e => e.isResult = true) s₁ s₂ ∧
      s₂.store.lookup [7] ≠ none ∧ ∀ id ∈ ([[1], [2]] : List NodeId), s₂.HeldBy [7] id) :=
  ⟨exists_rebalanced _ _ _ _ _ [.result 0 .primary true] _ rfl,
    exists_rebalanced _ _ _ _ _ [.result 0 .primary true, .result 0 (.replica 0) true] _ rfl⟩

end Drop

/-! ## 4. The drop against newer writes -/

section Newer

variable {hash64 : Bytes → UInt64} {cfg : ShardConfig} {s s' : ShardNode}

/-- No write newer than the entry a migration captured arrives for its key before the callback
of its primary has run. -/
def NotOvertaking (s : ShardNode) : ShardEvent → Prop
  | .putVersioned key entry => ∀ m ∈ s.migrations, m.push.key = key → .primary ∈ m.waiting →
      stampOf entry ≤ stampOf m.push.entry
  | _ => True

instance (s : ShardNode) (e : ShardEvent) : Decidable (NotOvertaking s e) :=
  match e with
  | .putVersioned key entry => inferInstanceAs (Decidable (∀ m ∈ s.migrations,
      m.push.key = key → .primary ∈ m.waiting → stampOf entry ≤ stampOf m.push.entry))
  | .remove _ | .drop _ | .setRing _ | .setMembers _ | .rebalance _ _ | .result _ _ _ =>
    .isTrue trivial

/-- While the decision on a migration is open, the resident entry of its key is not newer than
the one captured. -/
def CapturesNewest (s : ShardNode) : Prop :=
  ∀ m ∈ s.migrations, .primary ∈ m.waiting → ∀ entry,
    s.store.lookup m.push.key = some entry → stampOf entry ≤ stampOf m.push.entry

theorem Table.lookup_putVersioned {t : Table} {key key' : Key} {entry entry' : VersionedEntry}
    (h : (t.putVersioned key entry).lookup key' = some entry') :
    t.lookup key' = some entry' ∨ key' = key ∧ entry' = entry := by
  have hinsert : (t.insert key entry).lookup key' = some entry' →
      t.lookup key' = some entry' ∨ key' = key ∧ entry' = entry := by
    intro h
    by_cases hk : key' = key
    · subst hk
      rw [AList.lookup_insert] at h
      exact .inr ⟨rfl, (Option.some.inj h).symm⟩
    · rw [AList.lookup_insert_ne hk] at h
      exact .inl h
  unfold Table.putVersioned at h
  split at h
  · split at h
    · exact .inl h
    · exact hinsert h
  · exact hinsert h

theorem Table.lookup_of_erase {t : Table} {key key' : Key} {entry : VersionedEntry}
    (h : (t.erase key).lookup key' = some entry) : t.lookup key' = some entry := by
  by_cases hk : key' = key
  · subst hk
    rw [AList.lookup_erase] at h
    cases h
  · rwa [AList.lookup_erase_ne hk] at h

section

variable (h : CapturesNewest s)

include h

theorem CapturesNewest.erase (key : Key) : CapturesNewest { s with store := s.store.erase key } :=
  fun m hm hw entry he => h m hm hw entry (Table.lookup_of_erase he)

theorem CapturesNewest.rebalance {clk : ClockReading} {snapTime : Nanos} {deferred : Bool}
    (hreb : s.rebalance hash64 cfg clk snapTime = .ok (deferred, s')) : CapturesNewest s' := by
  obtain ⟨pushes, hfor, -, hmig, hstore⟩ := rebalance_spec hreb
  intro m hm hw entry he
  rw [hstore] at he
  rw [hmig] at hm
  rcases mem_append.mp hm with hold | hnew
  · exact h m hold hw entry he
  · obtain ⟨p, hp, rfl⟩ := mem_map.mp hnew
    -- what was captured is what is resident
    have hres := mem_liveEntries (hfor p hp).captured
    obtain rfl := Option.some.inj (he.symm.trans hres)
    exact le_rfl

theorem CapturesNewest.onResult {i : Nat} {m : Migration}
    (hm : s.migrations[i]? = some m) (send : Send) (ok : Bool) :
    CapturesNewest (s.onResult i m send ok) := by
  intro m' hm' hw entry he
  have he : s.store.lookup m'.push.key = some entry := by
    rw [store_onResult] at he
    split at he
    · exact Table.lookup_of_erase he
    · exact he
  rw [migrations_onResult] at hm'
  rcases mem_or_eq_of_mem_set hm' with hold | rfl
  · exact h m' hold hw entry he
  · rw [onResult_fst] at hw
    rw [push_onResult] at he ⊢
    exact h m (mem_of_getElem? hm) (mem_of_mem_erase hw) entry he

theorem capturesNewest_step {e : ShardEvent} (hok : NotOvertaking s e)
    (hs : s.step hash64 cfg e = some s') : CapturesNewest s' := by
  cases e with
  | putVersioned key entry =>
    cases hs
    intro m hm hw entry' he
    rcases Table.lookup_putVersioned he with hold | ⟨hk, rfl⟩
    · exact h m hm hw entry' hold
    · exact hok m hm hk hw
  | remove key =>
    cases hs
    exact h.erase key
  | drop key =>
    cases hs
    exact h.erase key
  | setRing | setMembers =>
    cases hs
    exact h
  | rebalance clk snapTime =>
    simp only [step] at hs
    split at hs
    · rename_i hreb
      cases hs
      exact h.rebalance hreb
    · cases hs
      exact h
  | result i send ok =>
    obtain ⟨m, hm, -, rfl⟩ := step_result hs
    exact h.onResult hm send ok

end

/-- The callback of `send` deletes a resident entry newer than the one its migration captured. -/
def DestroysNewer (hash64 : Bytes → UInt64) (cfg : ShardConfig) (s : ShardNode) (i : Nat)
    (send : Send) (ok : Bool) : Prop :=
  ∃ m ∈ s.migrations[i]?, ∃ s' ∈ s.step hash64 cfg (.result i send ok),
    ∃ entry ∈ s.store.lookup m.push.key, s'.store.lookup m.push.key = none ∧
      stampOf m.push.entry < stampOf entry

/-- **Migration keeps newer writes**, in every run in which no newer write overtakes a
migration of its key. -/
theorem migration_keeps_newer {s₀ : ShardNode} (hidle : s₀.migrations = [])
    (hrun : Reaches (ShardNode.step hash64 cfg) NotOvertaking s₀ s) (i : Nat) (send : Send)
    (ok : Bool) : ¬ DestroysNewer hash64 cfg s i send ok := by
  have hinv : CapturesNewest s := by
    refine hrun.invariant ?_ fun s e s' h hok hs => capturesNewest_step h hok hs
    intro m hm
    rw [hidle] at hm
    cases hm
  rintro ⟨m, hm, s', hs, entry, he, hnone, hlt⟩
  obtain ⟨m', hm', hw, rfl⟩ := step_result hs
  obtain rfl : m = m' := Option.some.inj (hm.symm.trans hm')
  rw [store_onResult] at hnone
  split at hnone
  · -- only the primary's callback completes, and until then the captured entry is the newest
    rename_i hcomp
    obtain ⟨rfl, -⟩ := onResult_completed.mp hcomp
    exact absurd hlt (hinv m (mem_of_getElem? hm) hw entry he).not_gt
  · rw [he] at hnone
    cases hnone

/-- A run with a drop: an older write arrives late and is rejected, then both new owners
acknowledge. -/
theorem migration_keeps_newer_completed : ∃ s,
    Reaches (ShardNode.step (fun _ => 0) leftConfig) NotOvertaking (leftNode [3]) s ∧
    (s.step (fun _ => 0) leftConfig (.result 0 .primary true)).any
      (fun s' => s'.store.lookup [7] = none) = true ∧
    ¬ DestroysNewer (fun _ => 0) leftConfig s 0 .primary true := by
  obtain ⟨s, hrun, hdrop⟩ :=
    exists_reaches_of_exec (step (fun _ => 0) leftConfig) NotOvertaking (leftNode [3])
      [.rebalance {} 0, .putVersioned [7] { versionAndTtl := 0, value := [0] },
        .result 0 (.replica 0) true]
      (fun s => (s.step (fun _ => 0) leftConfig (.result 0 .primary true)).any
        fun s' => s'.store.lookup [7] = none) rfl
  exact ⟨s, hrun, hdrop, migration_keeps_newer rfl hrun 0 .primary true⟩

theorem migration_destroys_newer : ∃ s,
    Reaches (ShardNode.step (fun _ => 0) leftConfig) (fun _ _ => True) (leftNode [3]) s ∧
    DestroysNewer (fun _ => 0) leftConfig s 0 .primary true := by
  refine ⟨_, reaches_of_exec (show exec _ _ _ [.rebalance {} 0, .result 0 (.replica 0) true,
    .putVersioned [7] { versionAndTtl := 8, value := [2] }] = some _ from rfl), ?_⟩
  exact ⟨_, rfl, _, rfl, _, rfl, rfl, by decide⟩

end Newer

end Cinder
