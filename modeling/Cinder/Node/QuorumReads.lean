/-
What a quorum read sees of the quorum writes that were reported before it started.
-/
import Cinder.Net.Connection
import Cinder.Node.QuorumInvariant

namespace Cinder

open Transition List ClusterConfig

/-! ## 1. Reads that lead their flight -/

/-- What a read may return when the write with stamp `s` was reported before it started: an
entry that is not older, or an error that is not "not found". -/
def Fresh (s : LwwStamp) (res : Except Errc VersionedEntry) : Prop :=
  match res with
  | .ok e => s ≤ stampOf e
  | .error code => code = .notReady

section Reads

variable {cfg : ClusterConfig} {s : Cluster} {copies : NodeId → Table}

theorem fresh_outcome {q : ReadReducer} {p : LwwStamp} (h : q.Covers p) : Fresh p q.outcome := by
  obtain ⟨e, he, hle⟩ := h
  unfold ReadReducer.outcome
  rw [he]
  exact hle

theorem CallInv.fresh_local {call : ReadCall} {p : LwwStamp} (h : CallInv cfg call)
    (hp : Holds cfg.key (call.startCopies call.coordinator) p) :
    Fresh p (localResult call.localEntry) := by
  obtain ⟨e, he, hle⟩ := hp
  rw [h.localRead, he]
  exact hle

theorem CallInv.exists_holder {call : ReadCall} {p : NodeId × LwwStamp} (h : CallInv cfg call)
    (hp : p ∈ call.before) {heard : List NodeId} (hnodup : heard.Nodup)
    (hsub : heard ⊆ cfg.replicas call.coordinator)
    (hcard : cfg.nodes.length < heard.length + 1 + cfg.quorum) :
    ∃ i ∈ call.coordinator :: heard, Holds cfg.key (call.startCopies i) p.2 := by
  have hnodes : cfg.nodes.toFinset.card = cfg.nodes.length := toFinset_card_of_nodup cfg.nodup
  obtain ⟨i, hi, hholds⟩ := (h.before p hp).committed.heard (cons_subset h.member hsub)
    (by rw [card_cons hnodup hsub, hnodes]; exact hcard)
  exact ⟨i, mem_toFinset.mp hi, hholds⟩

/-- **Quorum reads see quorum writes.** With `r + w > n`, a read that leads its flight and completes
with fewer than `w` of its requests failed, or is answered from the local store, sees every write
reported before it started. -/
theorem quorum_read_fresh (hq : cfg.nodes.length < cfg.r + cfg.quorum)
    (hrun : Reaches (Cluster.step cfg) (fun _ _ => True) { copies := copies } s) :
    (∀ f ∈ s.flights, ∀ res, f.result = some res → f.failed.length < cfg.quorum →
      ∀ p ∈ f.leader.before, Fresh p.2 res) ∧
    (∀ d ∈ s.direct, ∀ p ∈ d.1.before, Fresh p.2 d.2) := by
  have hinv : ClusterInv cfg s :=
    hrun.invariant (clusterInv_start copies) fun _ _ _ h _ hs => clusterInv_step h hs
  refine ⟨fun f hf res hres hfailed p hp => ?_, fun d hd p hp => ?_⟩
  · have h := hinv.flights f hf
    have hlen := length_replicas h.leader.member
    have hnodup : f.heard.Nodup := (sublist_append_left _ _).nodup h.tracked.nodup_settled
    have hsub : f.heard ⊆ cfg.replicas f.leader.coordinator := fun i hi =>
      h.tracked.settled_subset (mem_append_left _ hi)
    rcases (h.result res hres).2 with rfl | ⟨rfl, hdone⟩
    · rfl
    · -- enough nodes were heard from, whether the quorum was met or the replicas ran out
      have hcard : cfg.nodes.length < f.heard.length + 1 + cfg.quorum := by
        have hacks := h.acks
        omega
      obtain ⟨i, hi, hholds⟩ := h.leader.exists_holder hp hnodup hsub hcard
      exact fresh_outcome (h.covers i hi p.2 (h.leader.before p hp).version hholds)
  · obtain ⟨hcall, hres, hlocal⟩ := hinv.direct d hd
    have hlen := length_replicas hcall.member
    have hcard : cfg.nodes.length < ([] : List NodeId).length + 1 + cfg.quorum := by
      have hquorum : cfg.quorum = cfg.nodes.length / 2 + 1 := rfl
      simp only [length_nil]
      rcases hlocal with hnil | hr
      · rw [hnil, length_nil] at hlen
        omega
      · omega
    obtain ⟨i, hi, hholds⟩ := hcall.exists_holder hp .nil (nil_subset _) hcard
    rw [mem_singleton.mp hi] at hholds
    rw [hres]
    exact hcall.fresh_local hholds

def threeNodes : ClusterConfig where
  key := [7]
  nodes := [[1], [2], [3]]
  nodup := by decide
  r := 3
  redirect := fun i => if i = [1] then none else some (redirectValue [1] none)

/-- Node 1 writes with node 2 acknowledging; node 3 reads, hears from node 1 and not from
node 2. -/
theorem quorum_read_fresh_one_failed : ∃ s,
    Reaches (Cluster.step threeNodes) (fun _ _ => True) { copies := fun _ => ∅ } s ∧
    ∃ f ∈ s.flights, f.leader.before = [([1], ⟨1, 0, false⟩)] ∧ f.failed = [[2]] ∧
      ∃ res, f.result = some res ∧ Fresh ⟨1, 0, false⟩ res := by
  let res : Response := { value := some [9], version := 1 }
  have hrun := reaches_of_exec (show exec (Cluster.step threeNodes) (fun _ _ => True)
    { copies := fun _ => ∅ }
    [.write [1] {} 1 0 [9] none, .handleWrite 0 [2] {}, .writeReport 0 [2] true, .startRead [3],
      .attach 0, .handleRead 0 [1] {}, .readReport 0 [1] {} (some res),
      .readReport 0 [2] {} none] = some _ from rfl)
  refine ⟨_, hrun, _, mem_singleton.mpr rfl, rfl, rfl, _, rfl, ?_⟩
  exact (quorum_read_fresh (by decide) hrun).1 _ (mem_singleton.mpr rfl) _ rfl (by decide)
    _ (mem_singleton.mpr rfl)

/-- With two transport errors node 3 reports the key as not found, although the write of node 1
was reported before the read started. -/
theorem read_falls_back : ∃ s,
    Reaches (Cluster.step threeNodes) (fun _ _ => True) { copies := fun _ => ∅ } s ∧
    ∃ f ∈ s.flights, f.leader.before = [([1], ⟨1, 0, false⟩)] ∧
      f.result = some (.error .notFound) := by
  have hrun := reaches_of_exec (show exec (Cluster.step threeNodes) (fun _ _ => True)
    { copies := fun _ => ∅ }
    [.write [1] {} 1 0 [9] none, .handleWrite 0 [2] {}, .writeReport 0 [2] true, .startRead [3],
      .attach 0, .readReport 0 [1] {} none, .readReport 0 [2] {} none] = some _ from rfl)
  exact ⟨_, hrun, _, mem_singleton.mpr rfl, rfl, rfl⟩

end Reads

/-! ## 2. Reads that join a flight -/

section Coalesced

variable {cfg : ClusterConfig} {s s' : Cluster} {copies : NodeId → Table} {e : ClusterEvent}

/-- A call joins a flight only if the winner of the flight covers every stamp that the
coordinator had reported when the call started. -/
def JoinsCovered (s : Cluster) : ClusterEvent → Prop
  | .attach j => ∀ call ∈ s.starting[j]?, ∀ f ∈ s.flights,
      f.isOpenFor call.coordinator = true → ∀ p ∈ call.before, p.1 = call.coordinator →
        f.fan.state.Covers p.2
  | _ => True

instance (s : Cluster) (e : ClusterEvent) : Decidable (JoinsCovered s e) :=
  match e with
  | .attach j => inferInstanceAs (Decidable (∀ call ∈ s.starting[j]?, ∀ f ∈ s.flights,
      f.isOpenFor call.coordinator = true → ∀ p ∈ call.before, p.1 = call.coordinator →
        f.fan.state.Covers p.2))
  | .write .. | .delete .. | .handleWrite .. | .writeReport .. | .writeFail .. | .startRead ..
  | .handleRead .. | .readReport .. | .readFail .. | .handleRepair .. | .put .. => .isTrue trivial

/-- The winner covers what was reported before a waiter started. -/
def WaitersCovered (f : Flight) : Prop :=
  ∀ call ∈ f.waiters, ∀ p ∈ call.before, p.1 = call.coordinator → f.fan.state.Covers p.2

theorem WaitersCovered.of_covers {f f' : Flight} (h : WaitersCovered f)
    (hw : f'.waiters = f.waiters)
    (hc : ∀ s, f.fan.state.Covers s → f'.fan.state.Covers s) : WaitersCovered f' := by
  intro call hcall p hp hown
  exact hc _ (h call (hw ▸ hcall) p hp hown)

theorem Flight.decide_keeps (cfg : ClusterConfig) (clk : ClockReading) (f : Flight) :
    (f.decide cfg clk).1.waiters = f.waiters ∧ (f.decide cfg clk).1.fan = f.fan := by
  unfold Flight.decide
  dsimp only
  split
  · split <;> exact ⟨rfl, rfl⟩
  · exact ⟨rfl, rfl⟩

structure CoalescedInv (cfg : ClusterConfig) (s : Cluster) : Prop where
  cluster : ClusterInv cfg s
  waiters : ∀ f ∈ s.flights, WaitersCovered f

theorem waitersCovered_step (hinv : ClusterInv cfg s) (h : ∀ f ∈ s.flights, WaitersCovered f)
    (hok : JoinsCovered s e) (hs : s.step cfg e = some s') :
    ∀ f ∈ s'.flights, WaitersCovered f := by
  cases clusterStep hs with
  | @start _ c entry req =>
    have hflights : (s.startWrite cfg c entry req).flights = s.flights := by
      unfold Cluster.startWrite
      dsimp only
      split <;> rfl
    rw [hflights]
    exact h
  | attach hcall =>
    intro f hf
    rcases mem_attachCall hf with hold | rfl | ⟨f0, hf0, hopen, rfl⟩
    · exact h f hold
    · intro call hcall
      cases hcall
    · refine forall_mem_snoc (h f0 hf0) fun p hp hown => ?_
      exact hok _ hcall f0 hf0 hopen p hp hown
  | handleRead hfl | readFail hfl =>
    have hold := h _ (mem_of_getElem? hfl)
    exact forall_mem_set h (hold.of_covers rfl fun _ hc => hc)
  | readReport hfl hi hans hrep =>
    have hmem := mem_of_getElem? hfl
    obtain ⟨-, hcovers, -⟩ := (hinv.flights _ hmem).report hi _ hans hrep
    exact forall_mem_set h ((h _ hmem).of_covers (congrArg (·.1.waiters) hrep.symm) hcovers)
  | @decided f i clk answer fl fl' copies hfl hi hans hrep hcopies =>
    have hmem := mem_of_getElem? hfl
    obtain ⟨-, hcovers, -⟩ := (hinv.flights _ hmem).report hi _ hans hrep
    obtain ⟨hwaiters, hfan⟩ := fl'.decide_keeps cfg clk
    refine forall_mem_set h ((h _ hmem).of_covers
      (hwaiters.trans (congrArg (·.1.waiters) hrep.symm)) fun p hp => ?_)
    rw [hfan]
    exact hcovers p hp
  | _ => exact h

/-- **Coalesced reads keep read-after-write**, in every run in which a call joins only covered
flights: whatever a read receives is not older than a write its coordinator had
reported before the read started. -/
theorem coalesced_read_fresh
    (hrun : Reaches (Cluster.step cfg) JoinsCovered { copies := copies } s) :
    (∀ f ∈ s.flights, ∀ res, f.result = some res → ∀ call ∈ f.leader :: f.waiters,
      ∀ p ∈ call.before, p.1 = call.coordinator → Fresh p.2 res) ∧
    (∀ d ∈ s.direct, ∀ p ∈ d.1.before, p.1 = d.1.coordinator → Fresh p.2 d.2) := by
  have hinv : CoalescedInv cfg s := by
    refine hrun.invariant ⟨clusterInv_start copies, fun f hf => by cases hf⟩ ?_
    intro s e s' h hok hs
    exact ⟨clusterInv_step h.cluster hs, waitersCovered_step h.cluster h.waiters hok hs⟩
  refine ⟨fun f hf res hres call hcall p hp hown => ?_, fun d hd p hp hown => ?_⟩
  · have h := hinv.cluster.flights f hf
    have hcovered : f.fan.state.Covers p.2 := by
      rcases mem_cons.mp hcall with rfl | hcall
      · -- the leader's own vote: its coordinator held the stamp when it started
        have hrep := h.leader.before p hp
        exact h.covers _ mem_cons_self p.2 hrep.version (hown ▸ hrep.own)
      · exact hinv.waiters f hf call hcall p hp hown
    rcases (h.result res hres).2 with rfl | ⟨rfl, -⟩
    · rfl
    · exact fresh_outcome hcovered
  · obtain ⟨hcall, hres, -⟩ := hinv.cluster.direct d hd
    rw [hres]
    exact hcall.fresh_local (hown ▸ (hcall.before p hp).own)

def twoNodes : ClusterConfig where
  key := [7]
  nodes := [[8], [9]]
  nodup := by decide
  r := 2
  redirect := fun i => if i = [8] then none else some (redirectValue [8] none)

theorem coalesced_read_fresh_joined : ∃ s,
    Reaches (Cluster.step twoNodes) JoinsCovered { copies := fun _ => ∅ } s ∧
    ∃ f ∈ s.flights, (f.waiters.map (·.before)) = [[([8], ⟨1, 0, false⟩)]] ∧
      ∃ res, f.result = some res ∧ ∀ call ∈ f.waiters, ∀ p ∈ call.before,
        p.1 = call.coordinator → Fresh p.2 res := by
  have hrun := reaches_of_exec (show exec (Cluster.step twoNodes) JoinsCovered
    { copies := fun _ => ∅ }
    [.write [8] {} 1 0 [5] none, .handleWrite 0 [9] {}, .writeReport 0 [9] true, .startRead [8],
      .attach 0, .startRead [8], .attach 0, .readReport 0 [9] {} none] = some _ from rfl)
  refine ⟨_, hrun, _, mem_singleton.mpr rfl, rfl, _, rfl, ?_⟩
  intro call hcall p hp hown
  exact (coalesced_read_fresh hrun).1 _ (mem_singleton.mpr rfl) _ rfl call
    (mem_cons_of_mem _ hcall) p hp hown

/-- The first read leads a flight and its replica, without the key, redirects; a write is applied on
both nodes and reported; a second read joins the flight, which the old answer completes. -/
theorem joined_read_misses_write : ∃ s,
    Reaches (Cluster.step twoNodes) (fun _ _ => True) { copies := fun _ => ∅ } s ∧
    ∃ f ∈ s.flights, (f.waiters.map fun call => (call.coordinator, call.before)) =
        [([8], [([8], ⟨1, 0, false⟩)])] ∧
      f.result = some (.error .notFound) := by
  have hrun := reaches_of_exec (show exec (Cluster.step twoNodes) (fun _ _ => True)
    { copies := fun _ => ∅ }
    [.startRead [8], .attach 0, .handleRead 0 [9] {}, .write [8] {} 1 0 [5] none,
      .handleWrite 0 [9] {}, .writeReport 0 [9] true, .startRead [8], .attach 0,
      .readReport 0 [9] {}
        (some { status := .notReady, value := some (redirectValue [8] none) })] = some _ from rfl)
  exact ⟨_, hrun, _, mem_singleton.mpr rfl, rfl, rfl⟩

end Coalesced

end Cinder
