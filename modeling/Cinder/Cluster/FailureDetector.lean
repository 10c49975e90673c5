/-
The failure detector (`src/cluster/failure_detector.cpp`): when a tick marks a peer Dead.

The table and the detector each keep their own suspicion. A probe that gets no answer makes the
table's record Suspect and sets no flag of the detector; the first probe that fails sets the flag
and the time, and only the second one touches the table. A tick marks a peer Dead by the flag.

Every method is one step and reads the clock once. The marks add no node, so `peers_` stays.
-/
import Cinder.Cluster.Membership
import Cinder.Lib.Transition
import Mathlib.Data.List.Sort

namespace Cinder

open Transition List Function Option Bool

/-! ## 1. The detector -/

structure PeerState where
  sentAt : Nanos := 0
  suspectSince : Nanos := 0
  probePending : Bool := false
  suspected : Bool := false
  consecutiveFailures : Nat := 0

/-- `peer_state_` is the list of its keys and a function. -/
structure FailureDetector where
  table : MembershipTable
  suspectTimeout : Nanos
  peers : List NodeId
  nextPeer : Nat := 0
  keys : List NodeId := []
  peerState : NodeId → PeerState := fun _ => {}

namespace FailureDetector

def kSuspectThreshold : Nat := 2

/-- `peers_` as `rebuildPeersLocked` makes it. -/
def start (t : MembershipTable) (suspectTimeout : Nanos) : FailureDetector where
  table := t
  suspectTimeout := suspectTimeout
  peers := ((t.snapshot.map (·.id)).filter (· ≠ t.self)).insertionSort (· ≤ ·)

variable (d : FailureDetector) (now : Nanos) (peer : NodeId)

def isIn (state : NodeState) : Bool := (d.table.recordOf peer).any fun r => r.state = state

/-- What the sweep looks for: a probe without an answer. -/
def timedOut : Bool :=
  (d.peerState peer).probePending && decide (d.suspectTimeout < now - (d.peerState peer).sentAt)

/-- What `escalateSuspectsLocked` looks for. -/
def overdue : Bool :=
  (d.peerState peer).suspected && d.isIn peer .suspect &&
    decide (d.suspectTimeout < now - (d.peerState peer).suspectSince)

def sweep : PeerState :=
  let st := d.peerState peer
  { st with
    probePending := st.probePending && !d.timedOut now peer
    suspected := st.suspected && !d.overdue now peer
    consecutiveFailures := if d.overdue now peer then 0 else st.consecutiveFailures }

/-- The round robin: whom to probe, and `next_peer_`. -/
def nextProbe : (attempts next : Nat) → Option NodeId × Nat
  | 0, next => (none, next)
  | attempts + 1, next =>
    let peer := d.peers.getD (next % d.peers.length) []
    let next := (next + 1) % d.peers.length
    if peer = d.table.self ∨ (d.peerState peer).probePending ∨ d.isIn peer .dead then
      nextProbe attempts next
    else (some peer, next)

def setPeer (st : PeerState) : FailureDetector :=
  { d with
    keys := if peer ∈ d.keys then d.keys else d.keys ++ [peer]
    peerState := update d.peerState peer st }

def probe : Option NodeId → FailureDetector
  | none => d
  | some peer => d.setPeer peer { d.peerState peer with probePending := true, sentAt := now }

/-- The table is marked behind the lock: what the loops read is the table before. -/
def tick : FailureDetector :=
  let swept := { d with peerState := d.sweep now }
  let target := swept.nextProbe d.peers.length d.nextPeer
  { swept.probe now target.1 with
    nextPeer := target.2
    table := (d.keys.filter (d.overdue now)).foldl .markDead
      ((d.keys.filter (d.timedOut now)).foldl .markSuspect d.table) }

def onProbeResult (acked : Bool) : FailureDetector :=
  let st := { d.peerState peer with probePending := false }
  if peer ∉ d.keys then d
  else if acked then
    { d.setPeer peer { st with suspected := false, consecutiveFailures := 0 } with
      table := d.table.markAlive now peer (((d.table.get peer).map (·.incarnation)).getD 0) }
  else
    let failures := st.consecutiveFailures + 1
    { d.setPeer peer
        { st with
          suspected := true
          suspectSince := if st.suspected then st.suspectSince else now
          consecutiveFailures := failures } with
      table := if failures < kSuspectThreshold then d.table else d.table.markSuspect peer }

def kills : Bool := !d.isIn peer .dead && (d.tick now).isIn peer .dead

/-! ## 2. Runs -/

inductive Event where
  | tick
  | result (peer : NodeId) (acked : Bool)

/-- What is heard of a peer's probes: one failed, or a sweep found one without an answer. -/
inductive Report where
  | failed (now : Nanos)
  | timedOut (now : Nanos)

namespace Report

def time : Report → Nanos
  | failed t | timedOut t => t

def failedAt : Report → Option Nanos
  | failed t => some t
  | timedOut _ => none

/-- The first probe that failed. -/
def firstFailed (reports : List Report) : Option Nanos := reports.findSome? failedAt

/-- The first probe without an answer, or the second report if the first is of a failure. -/
def marking : List Report → Option Nanos
  | [] => none
  | timedOut t :: _ => some t
  | failed _ :: reports => reports.head?.map time

end Report

open Report

/-- The detector, and two things it does not read: since when the table has had a peer as Suspect
without interruption, and the reports about a peer since a probe of it was acknowledged. -/
structure Observed where
  det : FailureDetector
  suspectAt : NodeId → Option Nanos
  reports : NodeId → List Report

def observe (suspectAt : NodeId → Option Nanos) : Option Nanos :=
  if d.isIn peer .suspect then (suspectAt peer).or (some now) else none

/-- A peer that is Suspect at the start counts as one whose probe timed out then. -/
def Observed.start (d : FailureDetector) (now : Nanos) : Observed :=
  ⟨d, fun p => d.observe now p fun _ => none,
    fun p => if d.isIn p .suspect then [.timedOut now] else []⟩

/-- Results come from peers that were probed, in any order and number. -/
def Observed.step (o : Observed) : Nanos × Event → Option Observed
  | (now, .tick) =>
    some ⟨o.det.tick now, fun p => (o.det.tick now).observe now p o.suspectAt,
      fun p => if p ∈ o.det.keys ∧ o.det.timedOut now p then o.reports p ++ [.timedOut now]
        else o.reports p⟩
  | (now, .result peer acked) =>
    let d := o.det.onProbeResult now peer acked
    if peer ∈ o.det.keys then
      some ⟨d, fun p => d.observe now p o.suspectAt, update o.reports peer
        (if acked then [] else o.reports peer ++ [.failed now])⟩
    else none

/-! ## 3. What a step does -/

def stateOf : Option NodeState := (d.table.recordOf peer).map (·.state)

theorem isIn_iff (state : NodeState) : d.isIn peer state = true ↔ d.stateOf peer = some state := by
  unfold isIn stateOf
  cases d.table.recordOf peer <;> simp

theorem recordOf_foldl_mark {op : MembershipTable → NodeId → MembershipTable}
    {g : NodeRecord → NodeRecord} (hop : ∀ t id p, (op t id).recordOf p =
      if p = id then (t.recordOf p).map g else t.recordOf p) (hg : ∀ r, g (g r) = g r)
    (l : List NodeId) (t : MembershipTable) :
    (l.foldl op t).recordOf peer =
      if peer ∈ l then (t.recordOf peer).map g else t.recordOf peer := by
  induction l generalizing t with
  | nil => rfl
  | cons id l ih =>
    rw [foldl_cons, ih, hop]
    by_cases h : peer = id <;> cases t.recordOf peer <;> simp [h, hg]

theorem stateOf_tick : (d.tick now).stateOf peer = (d.stateOf peer).map fun state =>
    if peer ∈ d.keys ∧ d.overdue now peer then .dead
    else if peer ∈ d.keys ∧ d.timedOut now peer ∧ state = .alive then .suspect else state := by
  have hmark : (d.tick now).table.recordOf peer = _ :=
    recordOf_foldl_mark peer (fun _ => MembershipTable.recordOf_markDead) (fun _ => rfl) _ _
  rw [recordOf_foldl_mark peer (fun _ => MembershipTable.recordOf_markSuspect) (by grind)] at hmark
  rw [stateOf, hmark, stateOf]
  simp only [mem_filter]
  cases d.table.recordOf peer with
  | none => simp
  | some r => cases r with | mk s _ => cases s <;> grind

theorem kills_eq : d.kills now peer = (decide (peer ∈ d.keys) && d.overdue now peer) := by
  have hstate := d.stateOf_tick now peer
  have hover : d.overdue now peer = true → d.stateOf peer = some .suspect := by
    simp only [overdue, and_eq_true, isIn_iff]
    exact fun h => h.1.2
  rw [Bool.eq_iff_iff]
  simp only [kills, and_eq_true, not_eq_true', eq_false_iff, ne_eq, isIn_iff, hstate,
    decide_eq_true_eq]
  cases hs : d.stateOf peer <;> grind

theorem peerState_tick :
    ((d.tick now).peerState peer).suspected = (d.sweep now peer).suspected ∧
      ((d.tick now).peerState peer).suspectSince = (d.sweep now peer).suspectSince ∧
      ((d.tick now).peerState peer).consecutiveFailures =
        (d.sweep now peer).consecutiveFailures ∧
      (peer ∈ d.keys → peer ∈ (d.tick now).keys) := by
  unfold tick
  dsimp only
  cases (nextProbe _ _ _).1 with
  | none => exact ⟨rfl, rfl, rfl, id⟩
  | some p => by_cases h : peer = p <;> simp [probe, setPeer, h] <;> grind

theorem onProbeResult_spec {peer : NodeId} (h : peer ∈ d.keys) (acked : Bool) (p : NodeId) :
    (d.onProbeResult now peer acked).keys = d.keys ∧
      (d.onProbeResult now peer acked).peerState p = (if p = peer then
        { d.peerState p with
          probePending := false
          suspected := !acked
          suspectSince := if acked || (d.peerState p).suspected then (d.peerState p).suspectSince
            else now
          consecutiveFailures := if acked then 0 else (d.peerState p).consecutiveFailures + 1 }
        else d.peerState p) ∧
      (d.onProbeResult now peer acked).stateOf p = (if p = peer then
        (d.stateOf p).map fun state => if acked then .alive
          else if (d.peerState p).consecutiveFailures = 0 ∨ state = .dead then state else .suspect
        else d.stateOf p) := by
  unfold onProbeResult stateOf
  rw [if_neg (not_not.mpr h)]
  cases acked with
  | true =>
    simp only [if_true, setPeer, h, update_apply, MembershipTable.recordOf_markAlive]
    cases d.table.recordOf p <;> grind
  | false =>
    simp only [false_eq_true, if_false, setPeer, h, if_true, update_apply, kSuspectThreshold]
    cases hr : d.table.recordOf p <;> grind [MembershipTable.recordOf_markSuspect]

/-- The flags say what the reports say of a peer that is not Dead. -/
structure Observed.Inv (o : Observed) : Prop where
  keys : ∀ p, (o.det.peerState p).suspected = true → p ∈ o.det.keys
  counts : ∀ p, (o.det.peerState p).suspected = true ↔ 0 < (o.det.peerState p).consecutiveFailures
  failed : ∀ p, o.det.stateOf p ≠ some .dead → firstFailed (o.reports p) =
    if (o.det.peerState p).suspected then some (o.det.peerState p).suspectSince else none
  marked : ∀ p state, o.det.stateOf p = some state → state ≠ .dead →
    o.suspectAt p = marking (o.reports p)
  suspectAt : ∀ p, (o.suspectAt p).isSome = o.det.isIn p .suspect

theorem firstFailed_append (l : List Report) (r : Report) :
    firstFailed (l ++ [r]) = (firstFailed l).or r.failedAt := by
  simp [firstFailed, findSome?_append]

theorem marking_append (l : List Report) (r : Report) :
    marking (l ++ [r]) = (marking l).or
      (if r.failedAt.isSome ∧ firstFailed l = none then none else some r.time) := by
  match l with
  | [] => cases r <;> rfl
  | [.failed _] => cases r <;> rfl
  | .timedOut _ :: _ => rfl
  | .failed _ :: _ :: _ => rfl

theorem isSome_observe (suspectAt : NodeId → Option Nanos) :
    (d.observe now peer suspectAt).isSome = d.isIn peer .suspect := by
  unfold observe
  split <;> simp [*]

theorem Observed.Inv.tick {o o' : Observed} (h : o.Inv) (hs : o.step (now, .tick) = some o') :
    o'.Inv := by
  cases hs
  have hflags := fun p => o.det.peerState_tick now p
  have hstate := fun p => o.det.stateOf_tick now p
  refine ⟨fun p hp => ?_, fun p => ?_, fun p hp => ?_, fun p state hp hne => ?_,
    fun p => isSome_observe _ _ _ _⟩
  · grind [hflags p, h.keys p, sweep]
  · grind [hflags p, h.counts p, sweep]
  · have hfailed := h.failed p
    have hkeys := h.keys p
    have hover := o.det.isIn_iff p .suspect
    grind [hflags p, sweep, overdue, firstFailed_append, failedAt]
  · obtain ⟨before, hbefore⟩ : ∃ before, o.det.stateOf p = some before := by
      cases hs : o.det.stateOf p <;> grind
    have hmarked := h.marked p before hbefore
    have hsuspect := h.suspectAt p
    rw [Bool.eq_iff_iff, isIn_iff, hbefore] at hsuspect
    simp only [observe, isIn_iff, hp]
    cases hat : o.suspectAt p <;> cases before <;> grind [marking_append, failedAt, Report.time]

theorem Observed.Inv.result {o o' : Observed} {acked : Bool} (h : o.Inv)
    (hs : o.step (now, .result peer acked) = some o') : o'.Inv := by
  unfold Observed.step at hs
  simp only [ite_none_right_eq_some, some.injEq] at hs
  obtain ⟨hkey, rfl⟩ := hs
  have hspec := fun p => o.det.onProbeResult_spec now hkey acked p
  refine ⟨fun p hp => ?_, fun p => ?_, fun p hp => ?_, fun p state hp hne => ?_,
    fun p => isSome_observe _ _ _ _⟩
  · grind [hspec p, h.keys p]
  · grind [hspec p, h.counts p]
  · have hfailed := h.failed p
    obtain ⟨-, hflags, hstate⟩ := hspec p
    dsimp only at hp ⊢
    rw [hflags, update_apply]
    by_cases hpeer : p = peer
    · subst hpeer
      cases acked with
      | true => simp [firstFailed]
      | false =>
        have hdead : o.det.stateOf p ≠ some .dead := fun hs => hp (by simp [hstate, hs])
        simp only [if_true, false_eq_true, if_false, firstFailed_append, hfailed hdead]
        cases (o.det.peerState p).suspected <;> simp [failedAt]
    · grind
  · obtain ⟨-, hflags, hstate⟩ := hspec p
    obtain ⟨before, hbefore⟩ : ∃ before, o.det.stateOf p = some before := by
      cases hs : o.det.stateOf p <;> grind
    have hmarked := h.marked p before hbefore
    have hsuspect := h.suspectAt p
    have hfailed := h.failed p
    have hcounts := h.counts p
    rw [Bool.eq_iff_iff, isIn_iff, hbefore] at hsuspect
    simp only [observe, isIn_iff, hp, update_apply]
    by_cases hpeer : p = peer
    · subst hpeer
      cases hat : o.suspectAt p <;> cases before <;> cases acked <;>
        grind [marking_append, failedAt, Report.time, marking]
    · cases hat : o.suspectAt p <;> cases before <;> grind

theorem suspectAt_acked {o o' : Observed} (hs : o.step (now, .result peer true) = some o') :
    o'.suspectAt peer = none := by
  unfold Observed.step at hs
  simp only [ite_none_right_eq_some, some.injEq] at hs
  obtain ⟨hkey, rfl⟩ := hs
  obtain ⟨-, -, hstate⟩ := o.det.onProbeResult_spec now hkey true peer
  have hnot : ¬ (o.det.onProbeResult now peer true).isIn peer .suspect := by
    rw [isIn_iff, hstate]
    cases o.det.stateOf peer <;> simp
  exact if_neg hnot

/-! ## 4. When a peer dies -/

/-- The timeout has passed since then. -/
def late (since : Option Nanos) : Bool := since.any fun s => d.suspectTimeout < now - s

/-- **The rule of the code**: the table says Suspect, and the first failure is late. -/
theorem Observed.Inv.kills_iff {o : Observed} (h : o.Inv) : o.det.kills now peer =
    (o.det.isIn peer .suspect && o.det.late now (firstFailed (o.reports peer))) := by
  rw [kills_eq, overdue]
  cases hin : o.det.isIn peer .suspect with
  | false => simp
  | true =>
    rw [h.failed peer (by simp [(o.det.isIn_iff peer _).mp hin])]
    cases hs : (o.det.peerState peer).suspected with
    | false => simp [late]
    | true => simp [late, h.keys peer hs]

theorem Observed.Inv.late_suspectAt {o : Observed} (h : o.Inv) : o.det.late now (o.suspectAt peer) =
    (o.det.isIn peer .suspect && o.det.late now (marking (o.reports peer))) := by
  cases hin : o.det.isIn peer .suspect with
  | false =>
    have hnone : o.suspectAt peer = none := by simpa [hin] using h.suspectAt peer
    rw [hnone]
    rfl
  | true => rw [h.marked peer _ ((o.det.isIn_iff peer _).mp hin) nofun, Bool.true_and]

abbrev Runs (t : MembershipTable) (timeout started : Nanos) : Observed → Prop :=
  Reaches Observed.step (fun _ _ => True) (.start (start t timeout) started)

theorem inv_of_runs {t : MembershipTable} {timeout started : Nanos} {o : Observed}
    (hrun : Runs t timeout started o) : o.Inv := by
  refine hrun.invariant ⟨nofun, fun p => ?_, fun p _ => ?_, fun p state hs hne => ?_,
    fun p => isSome_observe (start t timeout) started p fun _ => none⟩ fun o e o' h _ hs => ?_
  · simp [Observed.start, start]
  · simp only [Observed.start]
    split <;> rfl
  · simp only [Observed.start, observe]
    split <;> rfl
  · obtain ⟨now, _ | ⟨peer, acked⟩⟩ := e
    · exact h.tick now hs
    · exact h.result now peer hs

/-- **Suspects die on time exactly when failures and suspicion are late together.** A tick marks a
peer Dead if and only if the timeout has passed since the table has it as Suspect, provided that,
where it is Suspect, the first of its probes that failed is late exactly if the report that made it
Suspect is: the first probe without an answer, or the second that failed. An acknowledgement ends
the suspicion. -/
theorem suspects_die_on_time {t : MembershipTable} {timeout started now : Nanos} {o : Observed}
    {peer : NodeId} (hrun : Runs t timeout started o) :
    (o.det.kills now peer = o.det.late now (o.suspectAt peer) ↔
      (o.det.isIn peer .suspect → o.det.late now (firstFailed (o.reports peer)) =
        o.det.late now (marking (o.reports peer)))) ∧
      ∀ later o', o.step (later, .result peer true) = some o' → o'.suspectAt peer = none := by
  refine ⟨?_, fun later o' => suspectAt_acked later peer⟩
  rw [(inv_of_runs hrun).kills_iff, (inv_of_runs hrun).late_suspectAt]
  cases o.det.isIn peer .suspect <;> simp

/-- A peer `B`, a timeout of 10. -/
def twoNodes : MembershipTable := (MembershipTable.start [65]).seed [(0, { id := [66] })]

/-- Two probes fail, at 1 and at 3. -/
theorem suspects_die_on_time_twice : ∃ o, Runs twoNodes 10 0 o ∧ o.det.kills 20 [66] = true := by
  obtain ⟨o, hrun, ho⟩ := exists_reaches_of_exec Observed.step (fun _ _ => True)
    (.start (start twoNodes 10) 0)
    [(0, .tick), (1, .result [66] false), (2, .tick), (3, .result [66] false)]
    (fun o => o.det.late 20 (firstFailed (o.reports [66])) &&
      o.det.late 20 (marking (o.reports [66])) && o.det.late 20 (o.suspectAt [66])) (by decide)
  simp only [and_eq_true] at ho
  obtain ⟨⟨hfailed, hmarking⟩, hat⟩ := ho
  exact ⟨o, hrun,
    ((suspects_die_on_time hrun).1.mpr fun _ => hfailed.trans hmarking.symm).trans hat⟩

/-- A peer that swallows its probes is Suspect from 11 on and does not die at 25. A peer whose
probes fail at 1 and at 12 is Suspect from 12 on and dies at 12. -/
theorem suspects_off_time :
    (∃ o, Runs twoNodes 10 0 o ∧
      (o.det.late 25 (o.suspectAt [66]) && !o.det.kills 25 [66]) = true) ∧
    ∃ o, Runs twoNodes 10 0 o ∧
      (!o.det.late 12 (o.suspectAt [66]) && o.det.kills 12 [66]) = true :=
  ⟨exists_reaches_of_exec _ _ _ [(0, .tick), (11, .tick)] _ (by decide),
    exists_reaches_of_exec _ _ _
      [(0, .tick), (1, .result [66] false), (2, .tick), (12, .result [66] false)] _ (by decide)⟩

end FailureDetector

end Cinder
