/-
What every run of the cluster keeps.
-/
import Cinder.Lib.Quorum
import Cinder.Lib.Tracking
import Cinder.Node.Cluster

namespace Cinder

open Quorum Tracking List Function Option ReadReducer ClusterConfig Bool

/-! ## 1. Copies only grow -/

def Holds (key : Key) (t : Table) (s : LwwStamp) : Prop :=
  ∃ e, t.lookup key = some e ∧ s ≤ stampOf e

def Grows (key : Key) (copies copies' : NodeId → Table) : Prop :=
  ∀ i s, Holds key (copies i) s → Holds key (copies' i) s

section Growth

variable {key : Key} {t : Table} {s : LwwStamp} {copies copies' copies'' : NodeId → Table}

theorem holds_putVersioned (key : Key) (t : Table) (e : VersionedEntry) :
    Holds key (t.putVersioned key e) (stampOf e) := by
  unfold Table.putVersioned
  split
  · rename_i e0 h0
    split
    · rename_i hlt
      exact ⟨e0, h0, (compareLww_eq_less.mp hlt).le⟩
    · exact ⟨e, AList.lookup_insert _, le_rfl⟩
  · exact ⟨e, AList.lookup_insert _, le_rfl⟩

theorem Holds.putVersioned (h : Holds key t s) (key' : Key) (e : VersionedEntry) :
    Holds key (t.putVersioned key' e) s := by
  obtain ⟨e0, h0, hle⟩ := h
  by_cases hk : key = key'
  · subst hk
    unfold Table.putVersioned
    rw [h0]
    dsimp only
    split
    · exact ⟨e0, h0, hle⟩
    · rename_i hnot
      rw [compareLww_eq_less, not_lt] at hnot
      exact ⟨e, AList.lookup_insert _, hle.trans hnot⟩
  · refine ⟨e0, ?_, hle⟩
    unfold Table.putVersioned
    split
    · split
      · exact h0
      · rw [AList.lookup_insert_ne hk, h0]
    · rw [AList.lookup_insert_ne hk, h0]

theorem Grows.refl (key : Key) (copies : NodeId → Table) : Grows key copies copies := fun _ _ h => h

theorem Grows.trans (h : Grows key copies copies') (h' : Grows key copies' copies'') :
    Grows key copies copies'' := fun i s hs => h' i s (h i s hs)

theorem grows_update (key key' : Key) (copies : NodeId → Table) (i : NodeId) (e : VersionedEntry) :
    Grows key copies (update copies i ((copies i).putVersioned key' e)) := by
  intro j s hs
  by_cases hj : j = i
  · subst hj
    rw [update_self]
    exact hs.putVersioned key' e
  · rwa [update_of_ne hj]

theorem holds_update (key : Key) (copies : NodeId → Table) (i : NodeId) (e : VersionedEntry) :
    Holds key (update copies i ((copies i).putVersioned key e) i) (stampOf e) := by
  rw [update_self]
  exact holds_putVersioned key _ e

end Growth

/-! ## 2. Replicas and quorums -/

section Config

variable {cfg : ClusterConfig} {c : NodeId}

def ClusterConfig.quorum (cfg : ClusterConfig) : Nat := cfg.nodes.length / 2 + 1

theorem ClusterConfig.mem_replicas {i : NodeId} : i ∈ cfg.replicas c ↔ i ∈ cfg.nodes ∧ i ≠ c := by
  simp [replicas]

theorem ClusterConfig.nodup_replicas : (cfg.replicas c).Nodup := cfg.nodup.filter _

theorem ClusterConfig.length_replicas (hc : c ∈ cfg.nodes) :
    (cfg.replicas c).length + 1 = cfg.nodes.length := by
  have herase : cfg.replicas c = cfg.nodes.erase c := by
    rw [cfg.nodup.erase_eq_filter]
    unfold replicas
    congr 1
    funext node
    rw [Bool.eq_iff_iff]
    simp
  rw [herase, length_erase_of_mem hc]
  have := length_pos_of_mem hc
  omega

theorem ClusterConfig.writeQuorum_eq (hc : c ∈ cfg.nodes) : cfg.writeQuorum c = cfg.quorum := by
  rw [writeQuorum, length_replicas hc]
  rfl

theorem ClusterConfig.card_cons {l : List NodeId} (hnodup : l.Nodup)
    (hsub : l ⊆ cfg.replicas c) : (c :: l).toFinset.card = l.length + 1 := by
  refine toFinset_card_of_nodup (nodup_cons.mpr ⟨fun hc => ?_, hnodup⟩)
  exact (mem_replicas.mp (hsub hc)).2 rfl

theorem ClusterConfig.cons_subset {l : List NodeId} (hc : c ∈ cfg.nodes)
    (hsub : l ⊆ cfg.replicas c) : (c :: l).toFinset ⊆ cfg.nodes.toFinset := by
  intro i hi
  rw [List.mem_toFinset] at hi ⊢
  rcases mem_cons.mp hi with rfl | hi
  · exact hc
  · exact (mem_replicas.mp (hsub hi)).1

end Config

/-! ## 3. Writes -/

theorem forall_mem_set {α : Type} {P : α → Prop} {l : List α} {i : Nat} {a : α}
    (h : ∀ x ∈ l, P x) (ha : P a) : ∀ x ∈ l.set i a, P x := by
  intro x hx
  rcases mem_or_eq_of_mem_set hx with hx | rfl
  · exact h x hx
  · exact ha

theorem forall_mem_snoc {α : Type} {P : α → Prop} {l : List α} {a : α} (h : ∀ x ∈ l, P x)
    (ha : P a) : ∀ x ∈ l ++ [a], P x := forall_mem_append.mpr ⟨h, forall_mem_singleton.mpr ha⟩

/-- A stamp that was reported: its coordinator holds it, and so does a write quorum. -/
structure Reported (cfg : ClusterConfig) (copies : NodeId → Table) (p : NodeId × LwwStamp) :
    Prop where
  version : p.2.version ≠ 0
  own : Holds cfg.key (copies p.1) p.2
  committed : Committed cfg.nodes.toFinset cfg.quorum (fun i s => Holds cfg.key (copies i) s) p.2

theorem Reported.mono {cfg : ClusterConfig} {copies copies' : NodeId → Table}
    {p : NodeId × LwwStamp} (h : Reported cfg copies p) (hg : Grows cfg.key copies copies') :
    Reported cfg copies' p where
  version := h.version
  own := hg _ _ h.own
  committed := h.committed.mono fun i => hg i p.2

theorem reported_of_holders {cfg : ClusterConfig} {copies : NodeId → Table} {c : NodeId}
    {s : LwwStamp} {holders : List NodeId} (hc : c ∈ cfg.nodes) (hnodup : holders.Nodup)
    (hsub : holders ⊆ cfg.replicas c) (hne : s.version ≠ 0) (hown : Holds cfg.key (copies c) s)
    (hheld : ∀ i ∈ holders, Holds cfg.key (copies i) s) (hw : cfg.quorum ≤ holders.length + 1) :
    Reported cfg copies (c, s) := by
  refine ⟨hne, hown, (c :: holders).toFinset, cons_subset hc hsub, ?_, ?_⟩
  · rw [card_cons hnodup hsub]
    exact hw
  · intro i hi
    rcases mem_cons.mp (mem_toFinset.mp hi) with rfl | hi
    · exact hown
    · exact hheld i hi

/-- A write under way: who applied it holds it, and the tally counts replicas that did. -/
structure WriteInv (cfg : ClusterConfig) (copies : NodeId → Table) (op : WriteOp) : Prop where
  member : op.coordinator ∈ cfg.nodes
  version : op.req.stamp.version ≠ 0
  key : op.req.key = cfg.key
  own : Holds cfg.key (copies op.coordinator) op.req.stamp
  applied : ∀ i ∈ op.applied, Holds cfg.key (copies i) op.req.stamp
  tracked : Tracked (cfg.replicas op.coordinator) op.acked op.fan.waiting
  counted : ∀ i ∈ op.acked, i ∈ op.applied
  acks : op.fan.state.acks = op.acked.length + 1
  w : op.fan.state.w = cfg.quorum

namespace WriteInv

variable {cfg : ClusterConfig} {copies copies' : NodeId → Table} {op : WriteOp}

theorem mono (h : WriteInv cfg copies op) (hg : Grows cfg.key copies copies') :
    WriteInv cfg copies' op :=
  { h with
    own := hg _ _ h.own
    applied := fun i hi => hg _ _ (h.applied i hi) }

theorem reported (h : WriteInv cfg copies op) (hw : op.fan.state.w ≤ op.fan.state.acks) :
    Reported cfg copies (op.coordinator, op.req.stamp) := by
  rw [h.w, h.acks] at hw
  exact reported_of_holders h.member h.tracked.nodup_settled h.tracked.settled_subset h.version
    h.own (fun i hi => h.applied i (h.counted i hi)) hw

theorem report (h : WriteInv cfg copies op) {i : NodeId} {ok : Bool} (hi : i ∈ op.fan.waiting)
    (hok : ok = true → i ∈ op.applied) : WriteInv cfg copies (op.report i ok).1 where
  member := h.member
  version := h.version
  key := h.key
  own := h.own
  applied := h.applied
  tracked := by
    show Tracked _ (if ok && !op.fan.fired then op.acked ++ [i] else op.acked)
      (op.fan.waiting.erase i)
    split
    · exact h.tracked.settle hi (List.Perm.refl _)
    · exact h.tracked.drop i
  counted := by
    show ∀ j ∈ (if ok && !op.fan.fired then op.acked ++ [i] else op.acked), j ∈ op.applied
    split
    · rename_i hcount
      exact forall_mem_snoc h.counted (hok (and_eq_true_iff.mp hcount).1)
    · exact h.counted
  acks := by
    show (if ok && !op.fan.fired then op.fan.state.acks + 1 else op.fan.state.acks) =
      (if ok && !op.fan.fired then op.acked ++ [i] else op.acked).length + 1
    rw [h.acks]
    split
    · rw [length_append, length_singleton]
    · rfl
  w := h.w

end WriteInv

/-! ## 4. Flights -/

/-- A call remembers the copies of its start, and what was reported then was held then. -/
structure CallInv (cfg : ClusterConfig) (call : ReadCall) : Prop where
  member : call.coordinator ∈ cfg.nodes
  localRead : call.localEntry = (call.startCopies call.coordinator).lookup cfg.key
  before : ∀ p ∈ call.before, Reported cfg call.startCopies p

structure FlightInv (cfg : ClusterConfig) (copies : NodeId → Table) (f : Flight) : Prop where
  leader : CallInv cfg f.leader
  grows : Grows cfg.key f.leader.startCopies copies
  /-- An answer under way votes for whatever its sender held at the start. -/
  served : ∀ p ∈ f.served, p.2.version.toNat < 2 ^ 62 ∧
    ∀ s : LwwStamp, s.version ≠ 0 → Holds cfg.key (f.leader.startCopies p.1) s →
      p.2.status = .ok ∧ p.2.version ≠ 0 ∧ s ≤ p.2.vote
  wf : f.fan.state.Wf
  /-- The winner covers what the coordinator and every node heard from held at the start. -/
  covers : ∀ i ∈ f.leader.coordinator :: f.heard, ∀ s : LwwStamp, s.version ≠ 0 →
    Holds cfg.key (f.leader.startCopies i) s → f.fan.state.Covers s
  tracked : Tracked (cfg.replicas f.leader.coordinator) (f.heard ++ f.failed) f.fan.waiting
  r : f.fan.state.r = cfg.r
  acks : f.fan.state.acks ≤ f.heard.length + 1
  /-- Until the decision every replica is accounted for. -/
  pending : f.fan.fired = false → f.fan.state.pending = f.fan.waiting.length ∧
    (cfg.replicas f.leader.coordinator).length =
      f.heard.length + f.failed.length + f.fan.waiting.length
  result : ∀ res, f.result = some res → f.fan.fired = true ∧
    (res = .error .notReady ∨ res = f.fan.state.outcome ∧
      (cfg.r ≤ f.fan.state.acks ∨
        (cfg.replicas f.leader.coordinator).length ≤ f.heard.length + f.failed.length))

theorem Flight.report_of_fired {f : Flight} {i : NodeId} {clk : ClockReading}
    {answer : Option Response} (h : f.fan.fired = true) :
    f.report i clk answer =
      ({ f with fan := { f.fan with waiting := f.fan.waiting.erase i } }, false) := by
  simp only [Flight.report, FanOut.report, h, Bool.not_true, Bool.false_and, Bool.or_false,
    noteRemote_inactive, false_eq_true, if_false]

theorem mem_heard_of_new {c i j : NodeId} {heard : List NodeId} {answered : Bool}
    (hj : j ∈ c :: (if answered then heard ++ [i] else heard)) (hold : j ∉ c :: heard) :
    answered = true ∧ j = i := by
  cases answered with
  | false => exact absurd hj hold
  | true =>
    rw [if_pos rfl, ← cons_append] at hj
    rcases mem_append.mp hj with hj | hj
    · exact absurd hj hold
    · exact ⟨rfl, mem_singleton.mp hj⟩

namespace FlightInv

variable {cfg : ClusterConfig} {copies copies' : NodeId → Table} {f : Flight}

theorem mono (h : FlightInv cfg copies f) (hg : Grows cfg.key copies copies') :
    FlightInv cfg copies' f :=
  { h with grows := h.grows.trans hg }

theorem lead {call : ReadCall} (h : CallInv cfg call)
    (hg : Grows cfg.key call.startCopies copies) : FlightInv cfg copies (.lead cfg call) where
  leader := h
  grows := hg
  served := fun p hp => by cases hp
  wf := wf_start _ _ _
  covers := by
    intro i hi s _ hs
    obtain rfl := mem_singleton.mp hi
    obtain ⟨e, he, hle⟩ := hs
    refine ⟨e, ?_, hle⟩
    show (start _ _ call.localEntry).bestEntry = some e
    rw [bestEntry_start, h.localRead]
    exact he
  tracked := tracked_start nodup_replicas
  r := by
    show (start _ _ call.localEntry).r = cfg.r
    cases call.localEntry <;> rfl
  acks := acks_start_le _ _ _
  pending := by
    intro _
    refine ⟨?_, by simp [Flight.lead]⟩
    show (start _ _ call.localEntry).pending = _
    cases call.localEntry <;> rfl
  result := fun res h => by cases h

theorem serve (h : FlightInv cfg copies f) (i : NodeId) (clk : ClockReading) : FlightInv cfg copies
      { f with
        served := f.served ++
          [(i, getVersionedResponse clk (cfg.redirect i) ((copies i).lookup cfg.key))] } :=
  { h with
    served := by
      intro p hp
      rcases mem_append.mp hp with hp | hp
      · exact h.served p hp
      · obtain rfl := mem_singleton.mp hp
        refine ⟨getVersionedResponse_version_lt clk _ _, fun s hs hholds => ?_⟩
        -- what the replica held when the read started it still holds
        obtain ⟨e, he, hle⟩ := h.grows i s hholds
        rw [he]
        refine ⟨rfl, fun hzero => hs ?_, hle⟩
        have hzero : e.version = 0 := hzero
        have hver : s.version ≤ e.version := LwwStamp.version_le hle
        rw [hzero] at hver
        exact UInt64.le_antisymm hver UInt64.zero_le }

theorem perm_settled (heard failed : List NodeId) (i : NodeId) (answered : Bool) :
    List.Perm ((if answered then heard ++ [i] else heard) ++
      (if answered then failed else failed ++ [i])) (heard ++ failed ++ [i]) := by
  cases answered with
  | true =>
    simp only [if_true, append_assoc]
    exact List.Perm.append_left heard perm_append_comm
  | false => simp only [false_eq_true, if_false, append_assoc, List.Perm.refl]

section

variable (h : FlightInv cfg copies f)

include h

theorem covers_noteRemote {i : NodeId} (clk : ClockReading)
    {answer : Option Response} (hans : ∀ res ∈ answer, (i, res) ∈ f.served) :
    (f.fan.state.noteRemote clk answer true).Wf ∧
    (∀ s, f.fan.state.Covers s → (f.fan.state.noteRemote clk answer true).Covers s) ∧
    (answer.isSome → ∀ s : LwwStamp, s.version ≠ 0 → Holds cfg.key (f.leader.startCopies i) s →
      (f.fan.state.noteRemote clk answer true).Covers s) := by
  have hversion : ∀ res, answer = some res → res.status = .ok → res.version.toNat < 2 ^ 62 :=
    fun res hres _ => (h.served _ (hans res hres)).1
  refine ⟨h.wf.noteRemote hversion, fun s hs => hs.noteRemote h.wf hversion, ?_⟩
  intro hsome s hs hholds
  obtain ⟨res, rfl⟩ := isSome_iff_exists.mp hsome
  obtain ⟨hv, hvote⟩ := h.served _ (hans res rfl)
  obtain ⟨hok, hne, hle⟩ := hvote s hs hholds
  obtain ⟨e, he, hle'⟩ := covers_vote h.wf hv hok hne
  exact ⟨e, he, hle.trans hle'⟩

theorem pending_report (hopen : f.fan.fired = false) {i : NodeId}
    (hi : i ∈ f.fan.waiting) (clk : ClockReading) (answer : Option Response) :
    (f.fan.state.noteRemote clk answer true).pending = (f.fan.waiting.erase i).length ∧
    (cfg.replicas f.leader.coordinator).length =
      (if answer.isSome then f.heard ++ [i] else f.heard).length +
        (if answer.isSome then f.failed else f.failed ++ [i]).length +
        (f.fan.waiting.erase i).length := by
  obtain ⟨hpending, htotal⟩ := h.pending hopen
  have hpos := length_pos_of_mem hi
  rw [(noteRemote_counts _ _ _).2.1, hpending, htotal, length_erase_of_mem hi]
  refine ⟨rfl, ?_⟩
  cases answer with
  | none =>
    simp only [isSome_none, false_eq_true, if_false, length_append, length_singleton]
    omega
  | some res =>
    simp only [isSome_some, if_true, length_append, length_singleton]
    omega

theorem report {i : NodeId} (hi : i ∈ f.fan.waiting) (clk : ClockReading) {answer : Option Response}
    (hans : ∀ res ∈ answer, (i, res) ∈ f.served) {f' : Flight} {fire : Bool}
    (hrep : f.report i clk answer = (f', fire)) :
    FlightInv cfg copies f' ∧ (∀ s, f.fan.state.Covers s → f'.fan.state.Covers s) ∧
    (fire = true → f'.fan.fired = true ∧ (cfg.r ≤ f'.fan.state.acks ∨
      (cfg.replicas f'.leader.coordinator).length ≤ f'.heard.length + f'.failed.length)) := by
  cases hfired : f.fan.fired with
  | true =>
    rw [Flight.report_of_fired hfired] at hrep
    cases hrep
    refine ⟨?_, fun s hs => hs, fun hfalse => by cases hfalse⟩
    exact { h with
      tracked := h.tracked.drop i
      pending := fun hopen => by cases hfired.symm.trans hopen }
  | false =>
    have hfailed (l l' : List NodeId) :
        (if answer.isNone then l else l') = if answer.isSome then l' else l := by
      cases answer <;> rfl
    simp only [Flight.report, FanOut.report, hfired, Bool.not_false, Bool.true_and,
      Bool.false_or, hfailed] at hrep
    cases hrep
    obtain ⟨hwf, hcover, hvote⟩ := h.covers_noteRemote clk hans
    obtain ⟨hpending, htotal⟩ := h.pending_report hfired hi clk answer
    obtain ⟨hr, -, hacks⟩ := noteRemote_counts f.fan.state clk answer
    rw [h.r] at hr
    refine ⟨?_, hcover, fun hfire => ⟨hfire, ?_⟩⟩
    · exact {
        leader := h.leader
        grows := h.grows
        served := h.served
        wf := hwf
        covers := by
          intro j hj s hs hholds
          by_cases hold : j ∈ f.leader.coordinator :: f.heard
          · exact hcover s (h.covers j hold s hs hholds)
          · obtain ⟨hsome, rfl⟩ := mem_heard_of_new hj hold
            exact hvote hsome s hs hholds
        tracked := h.tracked.settle hi (perm_settled f.heard f.failed i answer.isSome)
        r := hr
        acks := by
          have hold := h.acks
          cases answer with
          | none => exact hacks.trans hold
          | some res =>
            simp only [toList_some, length_singleton] at hacks
            simp only [isSome_some, if_true, length_append, length_singleton]
            omega
        pending := fun _ => ⟨hpending, htotal⟩
        result := fun res hres => by cases (h.result res hres).1.symm.trans hfired }
    · rw [shouldFire, or_eq_true, decide_eq_true_eq, decide_eq_true_eq] at hfire
      rcases hfire with hmet | hnone
      · exact .inl (hr ▸ hmet)
      · right
        dsimp only
        omega

theorem decide (clk : ClockReading) (hfired : f.fan.fired = true)
    (hdone : cfg.r ≤ f.fan.state.acks ∨
      (cfg.replicas f.leader.coordinator).length ≤ f.heard.length + f.failed.length) :
    FlightInv cfg copies (f.decide cfg clk).1 := by
  have hres : FlightInv cfg copies { f with result := some f.fan.state.outcome } :=
    { h with
      result := by
        intro res hres
        cases hres
        exact ⟨hfired, .inr ⟨rfl, hdone⟩⟩ }
  unfold Flight.decide
  dsimp only
  split
  · split
    · exact { hres with }
    · exact hres
  · exact hres

end

end FlightInv

/-! ## 5. The invariant of the cluster -/

structure ClusterInv (cfg : ClusterConfig) (s : Cluster) : Prop where
  writes : ∀ op ∈ s.writes, WriteInv cfg s.copies op
  reported : ∀ p ∈ s.reported, Reported cfg s.copies p
  starting : ∀ call ∈ s.starting, CallInv cfg call ∧ Grows cfg.key call.startCopies s.copies
  flights : ∀ f ∈ s.flights, FlightInv cfg s.copies f
  direct : ∀ d ∈ s.direct, CallInv cfg d.1 ∧ d.2 = localResult d.1.localEntry ∧
    (cfg.replicas d.1.coordinator = [] ∨ cfg.r ≤ 1)

section Cluster

variable {cfg : ClusterConfig} {s s' : Cluster} {e : ClusterEvent}

theorem clusterInv_start (copies : NodeId → Table) : ClusterInv cfg { copies := copies } where
  writes := fun _ h => by cases h
  reported := fun _ h => by cases h
  starting := fun _ h => by cases h
  flights := fun _ h => by cases h
  direct := fun _ h => by cases h

theorem ClusterInv.grow (h : ClusterInv cfg s) {copies : NodeId → Table}
    (hg : Grows cfg.key s.copies copies) : ClusterInv cfg { s with copies := copies } where
  writes := fun op hop => (h.writes op hop).mono hg
  reported := fun p hp => (h.reported p hp).mono hg
  starting := fun call hcall => ⟨(h.starting call hcall).1, (h.starting call hcall).2.trans hg⟩
  flights := fun f hf => (h.flights f hf).mono hg
  direct := h.direct

theorem ClusterInv.callInv (h : ClusterInv cfg s) {c : NodeId} (hc : c ∈ cfg.nodes) :
    CallInv cfg (s.readCall cfg c) where
  member := hc
  localRead := rfl
  before := h.reported

theorem mem_attachCall {call : ReadCall} {fs : List Flight} {f' : Flight}
    (h : f' ∈ attachCall cfg call fs) :
    f' ∈ fs ∨ f' = .lead cfg call ∨
      ∃ f ∈ fs, f.isOpenFor call.coordinator = true ∧
        f' = { f with waiters := f.waiters ++ [call] } := by
  induction fs with
  | nil => exact .inr (.inl (mem_singleton.mp h))
  | cons f fs ih =>
    unfold attachCall at h
    split at h
    · rename_i hopen
      rcases mem_cons.mp h with rfl | h
      · exact .inr (.inr ⟨f, mem_cons_self, hopen, rfl⟩)
      · exact .inl (mem_cons_of_mem _ h)
    · rcases mem_cons.mp h with rfl | h
      · exact .inl mem_cons_self
      · rcases ih h with h | h | ⟨f0, hf0, h⟩
        · exact .inl (mem_cons_of_mem _ h)
        · exact .inr (.inl h)
        · exact .inr (.inr ⟨f0, mem_cons_of_mem _ hf0, h⟩)

theorem ClusterInv.startWrite (h : ClusterInv cfg s) {c : NodeId} {entry : VersionedEntry}
    {req : Request} (hc : c ∈ cfg.nodes) (hkey : req.key = cfg.key)
    (hstamp : stampOf entry = req.stamp) (hne : entry.version ≠ 0) :
    ClusterInv cfg (s.startWrite cfg c entry req) := by
  have hgrown := h.grow (grows_update cfg.key cfg.key s.copies c entry)
  have hown := holds_update cfg.key s.copies c entry
  have hversion : req.stamp.version ≠ 0 := hstamp ▸ hne
  rw [hstamp] at hown
  unfold Cluster.startWrite
  dsimp only
  split
  · rename_i hnil
    have hlen := length_replicas hc
    rw [hnil] at hlen
    refine { hgrown with reported := forall_mem_snoc hgrown.reported ?_ }
    refine reported_of_holders hc .nil (nil_subset _) hversion hown (fun i hi => ?_) ?_
    · cases hi
    · rw [quorum, ← hlen]
      decide
  · refine { hgrown with writes := forall_mem_snoc hgrown.writes ?_ }
    exact
      { member := hc
        version := hversion
        key := hkey
        own := hown
        applied := fun i hi => by cases hi
        tracked := tracked_start nodup_replicas
        counted := fun i hi => by cases hi
        acks := rfl
        w := writeQuorum_eq hc }

theorem WriteInv.handle {copies : NodeId → Table} {op : WriteOp} (h : WriteInv cfg copies op)
    (i : NodeId) (clk : ClockReading) :
    WriteInv cfg
      (update copies i ((copies i).handleReplicate clk cfg.tombstoneGc op.req))
      { op with applied := op.applied ++ [i] } := by
  unfold Table.handleReplicate
  rw [h.key]
  have hgrown := h.mono (grows_update cfg.key cfg.key copies i
    (replicatedEntry clk cfg.tombstoneGc op.req))
  have hnew := holds_update cfg.key copies i (replicatedEntry clk cfg.tombstoneGc op.req)
  rw [stampOf_replicatedEntry] at hnew
  exact { hgrown with
    applied := forall_mem_snoc hgrown.applied hnew
    counted := fun j hj => mem_append_left _ (hgrown.counted j hj) }

theorem clusterInv_step (h : ClusterInv cfg s) (hs : s.step cfg e = some s') :
    ClusterInv cfg s' := by
  cases clusterStep hs with
  | start hc hkey hstamp hne => exact h.startWrite hc hkey hstamp hne
  | @handleWrite w i clk op hop =>
    have hgrown := h.grow (grows_update cfg.key op.req.key s.copies i
      (replicatedEntry clk cfg.tombstoneGc op.req))
    have hnew := (h.writes op (mem_of_getElem? hop)).handle i clk
    exact { hgrown with writes := forall_mem_set hgrown.writes hnew }
  | writeReport hop hi hok =>
    have hnew := (h.writes _ (mem_of_getElem? hop)).report hi hok
    exact { h with writes := forall_mem_set h.writes hnew }
  | reported hop hi hok hw =>
    have hnew := (h.writes _ (mem_of_getElem? hop)).report hi hok
    exact { h with
      writes := forall_mem_set h.writes hnew
      reported := forall_mem_snoc h.reported (hnew.reported hw) }
  | writeFail hop =>
    have hold := h.writes _ (mem_of_getElem? hop)
    exact { h with writes := forall_mem_set h.writes { hold with } }
  | direct hc hlocal =>
    exact { h with direct := forall_mem_snoc h.direct ⟨h.callInv hc, rfl, hlocal⟩ }
  | startRead hc =>
    exact { h with
      starting := forall_mem_snoc h.starting ⟨h.callInv hc, Grows.refl _ _⟩ }
  | attach hcall =>
    have hstart := h.starting _ (mem_of_getElem? hcall)
    refine { h with
      starting := fun call hc => h.starting call (mem_of_mem_eraseIdx hc)
      flights := fun f hf => ?_ }
    rcases mem_attachCall hf with hold | rfl | ⟨f0, hf0, -, rfl⟩
    · exact h.flights f hold
    · exact .lead hstart.1 hstart.2
    · exact { h.flights f0 hf0 with }
  | handleRead hfl =>
    have hnew := (h.flights _ (mem_of_getElem? hfl)).serve
    exact { h with flights := forall_mem_set h.flights (hnew _ _) }
  | readReport hfl hi hans hrep =>
    have hnew := ((h.flights _ (mem_of_getElem? hfl)).report hi _ hans hrep).1
    exact { h with flights := forall_mem_set h.flights hnew }
  | @decided f i clk answer fl fl' copies hfl hi hans hrep hcopies =>
    obtain ⟨hnew, -, hdone⟩ := (h.flights _ (mem_of_getElem? hfl)).report hi _ hans hrep
    obtain ⟨hfired, hdone⟩ := hdone rfl
    have hset : ClusterInv cfg { s with flights := s.flights.set f (fl'.decide cfg clk).1 } :=
      { h with flights := forall_mem_set h.flights (hnew.decide _ hfired hdone) }
    rcases hcopies with rfl | ⟨e, rfl⟩
    · exact hset
    · exact hset.grow (grows_update cfg.key cfg.key s.copies _ e)
  | readFail hfl hopen =>
    have hold := h.flights _ (mem_of_getElem? hfl)
    refine { h with flights := forall_mem_set h.flights ?_ }
    exact { hold with
      pending := fun hfalse => by cases hfalse
      result := fun res hres => ⟨rfl, .inl (some.inj hres).symm⟩ }
  | handleRepair => exact h.grow (grows_update cfg.key _ s.copies _ _)
  | put => exact h.grow (grows_update cfg.key cfg.key s.copies _ _)

end Cluster

end Cinder
