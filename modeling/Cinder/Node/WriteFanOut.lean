/-
The quorum write as it runs (`fanOutQuorum` of `include/cinder/node/fanout.hpp`,
`ReplicationManager::fanOutWrite` of `src/node/replication_manager.cpp`): reports from any
thread, in any order and any number of times, a single reader, and one decision.

The first report of a replica goes into a channel, later ones are dropped. The channel is drained
by the caller until it is found empty, then by a detached coroutine. The exceptions the
coroutine catches (the channel is never closed) are left out.
-/
import Cinder.Node.Replication
import Cinder.Lib.Transition

namespace Cinder

open List

namespace WriteFanOut

open Transition

/-! ## 1. The fan-out -/

/-- Where the reader is: the sends are being made, the caller drains, the coroutine drains. -/
inductive Phase where
  | sending | inline | tail
  deriving DecidableEq, Repr

structure Run where
  phase : Phase := .sending
  /-- `delivered`, with the result of the first report. -/
  delivered : Nat → Option Bool := fun _ => none
  channel : List (Nat × Bool) := []
  /-- The completions read so far; `seen` is their number. -/
  received : List (Nat × Bool) := []
  fired : Bool := false
  quorum : WriteQuorum
  /-- The targets of `enqueueHint`, in order. -/
  hints : List NodeId := []
  /-- The calls of `on_done`: whether the write succeeded. -/
  done : List Bool := []

inductive Event where
  /-- A transport callback for the replica with this index. -/
  | report (i : Nat) (ok : Bool)
  | sent
  /-- The reader takes one completion from the channel. -/
  | receive
  /-- The caller found the channel empty and spawns the coroutine. -/
  | handOff
  deriving DecidableEq, Repr

/-- The acknowledgements a write needs, the local one included. -/
def needed (n : Nat) : Nat := (n + 1) / 2 + 1

/-- `fanOutWrite` for a quorum write. Without replicas the local write suffices. -/
def start (replicas : List NodeId) : Run :=
  { quorum := { pending := replicas.length, w := needed replicas.length }
    fired := replicas.isEmpty
    done := if replicas.isEmpty then [true] else [] }

def Run.reportOnce (s : Run) (n i : Nat) (ok : Bool) : Run :=
  if i < n ∧ s.delivered i = none then
    { s with
      delivered := Function.update s.delivered i (some ok)
      channel := s.channel ++ [(i, ok)] }
  else s

/-- The body of the drain loop: `on_each`, then `should_fire` and `fire`. -/
def Run.reduce (s : Run) (replicas : List NodeId) (i : Nat) (ok : Bool) : Run :=
  let quorum := s.quorum.onEach ok (!s.fired)
  let fire := !s.fired && quorum.shouldFire
  { s with
    received := s.received ++ [(i, ok)]
    quorum := quorum
    hints := if ok then s.hints else s.hints ++ [replicas.getD i []]
    fired := s.fired || fire
    done := if fire then s.done ++ [decide (quorum.w ≤ quorum.acks)] else s.done }

def step (replicas : List NodeId) (s : Run) : Event → Option Run
  | .report i ok => some (s.reportOnce replicas.length i ok)
  | .sent => if s.phase = .sending then some { s with phase := .inline } else none
  | .receive =>
    if s.phase ≠ .sending ∧ s.received.length < replicas.length then
      match s.channel with
      | [] => none
      | (i, ok) :: rest => some ({ s with channel := rest }.reduce replicas i ok)
    else none
  | .handOff =>
    if s.phase = .inline ∧ s.channel = [] ∧ s.received.length < replicas.length then
      some { s with phase := .tail }
    else none

/-! ## 2. What the counters mean -/

def acksOf (received : List (Nat × Bool)) : Nat := 1 + received.countP fun c => c.2

/-- The completions decide the outcome: success is reached, or out of reach even if every
outstanding replica acknowledges. -/
def Determined (n : Nat) (received : List (Nat × Bool)) : Bool → Prop
  | true => needed n ≤ acksOf received
  | false => acksOf received + (n - received.length) < needed n

def failedTargets (replicas : List NodeId) (received : List (Nat × Bool)) : List NodeId :=
  (received.filter fun c => !c.2).map fun c => replicas.getD c.1 []

structure Inv (replicas : List NodeId) (s : Run) : Prop where
  w : s.quorum.w = needed replicas.length
  pending : s.quorum.pending = replicas.length - s.received.length
  nodup : ((s.received ++ s.channel).map Prod.fst).Nodup
  delivered : ∀ i ok, (i, ok) ∈ s.received ++ s.channel ↔ s.delivered i = some ok
  bound : ∀ i ok, s.delivered i = some ok → i < replicas.length
  hints : s.hints = failedTargets replicas s.received
  opened : s.fired = false → s.done = [] ∧ s.quorum.acks = acksOf s.received ∧
    ∀ b, ¬ Determined replicas.length s.received b
  closed : s.fired = true → ∃ b, s.done = [b] ∧ Determined replicas.length s.received b

variable {replicas : List NodeId} {s s' : Run}

theorem inv_start (replicas : List NodeId) : Inv replicas (start replicas) where
  w := rfl
  pending := rfl
  nodup := nodup_nil
  delivered := fun i ok => by simp [start]
  bound := fun i ok h => by cases h
  hints := rfl
  opened := by
    intro h
    have hne : 0 < replicas.length := by
      simpa [start, length_pos_iff] using h
    refine ⟨by simpa [start] using h, rfl, fun b hb => ?_⟩
    cases b <;> simp only [Determined, needed, acksOf, start, countP_nil, length_nil] at hb
      <;> omega
  closed := by
    intro h
    have hnil : replicas = [] := by simpa [start] using h
    subst hnil
    exact ⟨true, rfl, by simp [Determined, needed, acksOf]⟩

/-! ## 3. Steps -/

theorem Inv.length_le (h : Inv replicas s) :
    (s.received ++ s.channel).length ≤ replicas.length := by
  have hsub : (s.received ++ s.channel).map Prod.fst ⊆ range replicas.length := by
    intro i hi
    obtain ⟨⟨j, ok⟩, hmem, rfl⟩ := mem_map.mp hi
    exact mem_range.mpr (h.bound j ok ((h.delivered j ok).mp hmem))
  have hle := (subperm_of_subset h.nodup hsub).length_le
  rwa [length_map, length_range] at hle

theorem Inv.reportOnce (h : Inv replicas s) (i : Nat) (ok : Bool) :
    Inv replicas (s.reportOnce replicas.length i ok) := by
  unfold Run.reportOnce
  split
  · rename_i hfirst
    obtain ⟨hi, hnone⟩ := hfirst
    refine ⟨h.w, h.pending, ?_, ?_, ?_, h.hints, h.opened, h.closed⟩
    · have hnew : i ∉ (s.received ++ s.channel).map Prod.fst := by
        intro hmem
        obtain ⟨⟨j, ok'⟩, hsent, rfl⟩ := mem_map.mp hmem
        rw [(h.delivered j ok').mp hsent] at hnone
        cases hnone
      rw [← append_assoc, map_append]
      exact nodup_append'.mpr ⟨h.nodup, nodup_singleton i, by simpa using hnew⟩
    · intro j ok'
      rw [← append_assoc, mem_append, h.delivered]
      by_cases hj : j = i
      · subst hj
        simp [hnone, eq_comm]
      · simp [hj]
    · intro j ok' hj
      by_cases hji : j = i
      · exact hji ▸ hi
      · exact h.bound j ok' (by simpa [Function.update_of_ne hji] using hj)
  · exact h

theorem acksOf_append (received : List (Nat × Bool)) (i : Nat) (ok : Bool) :
    acksOf (received ++ [(i, ok)]) = acksOf received + if ok then 1 else 0 := by
  cases ok <;> simp [acksOf, countP_append, add_assoc]

theorem Determined.append {n : Nat} {received : List (Nat × Bool)} {b : Bool}
    (h : Determined n received b) (hlt : received.length < n) (i : Nat) (ok : Bool) :
    Determined n (received ++ [(i, ok)]) b := by
  cases b <;> simp only [Determined, acksOf_append, length_append, length_singleton] at h ⊢
  · split <;> omega
  · omega

theorem Inv.reduce (h : Inv replicas s) {i : Nat} {ok : Bool} {rest : List (Nat × Bool)}
    (hchan : s.channel = (i, ok) :: rest) (hlt : s.received.length < replicas.length) :
    Inv replicas ({ s with channel := rest }.reduce replicas i ok) := by
  have hsame : (s.received ++ [(i, ok)]) ++ rest = s.received ++ s.channel := by
    rw [hchan, append_assoc, singleton_append]
  have hpending : s.quorum.pending - 1 = replicas.length - (s.received ++ [(i, ok)]).length := by
    rw [h.pending, length_append, length_singleton]
    omega
  have hhints : (if ok then s.hints else s.hints ++ [replicas.getD i []]) =
      failedTargets replicas (s.received ++ [(i, ok)]) := by
    rw [h.hints]
    cases ok <;> simp [failedTargets, filter_append]
  cases hfired : s.fired with
  | true =>
    obtain ⟨b, hdone, hdet⟩ := h.closed hfired
    refine ⟨h.w, hpending, ?_, ?_, h.bound, hhints, ?_, fun _ => ⟨b, ?_, ?_⟩⟩
    · simpa only [Run.reduce, hsame] using h.nodup
    · simpa only [Run.reduce, hsame] using h.delivered
    · simp [Run.reduce]
    · simpa [Run.reduce, hfired] using hdone
    · exact hdet.append hlt i ok
  | false =>
    obtain ⟨hdone, hacks, -⟩ := h.opened hfired
    have hacks' : (s.quorum.onEach ok true).acks = acksOf (s.received ++ [(i, ok)]) := by
      rw [acksOf_append, ← hacks]
      cases ok <;> rfl
    have hfire : (s.quorum.onEach ok true).shouldFire = true ↔
        ∃ b, Determined replicas.length (s.received ++ [(i, ok)]) b := by
      have hw : (s.quorum.onEach ok true).w = needed replicas.length := h.w
      have hp : (s.quorum.onEach ok true).pending =
          replicas.length - (s.received ++ [(i, ok)]).length := hpending
      simp only [WriteQuorum.shouldFire, hw, hp, hacks', Bool.or_eq_true, decide_eq_true_eq,
        Bool.exists_bool, Determined]
      omega
    refine ⟨h.w, hpending, ?_, ?_, h.bound, hhints, ?_, ?_⟩
    · simpa only [Run.reduce, hsame] using h.nodup
    · simpa only [Run.reduce, hsame] using h.delivered
    · intro hopen
      have hnot : (s.quorum.onEach ok true).shouldFire = false := by
        simpa [Run.reduce, hfired] using hopen
      refine ⟨?_, ?_, fun b hb => ?_⟩
      · simp [Run.reduce, hnot, hdone]
      · simpa only [Run.reduce, hfired, Bool.not_false] using hacks'
      · rw [hfire.mpr ⟨b, hb⟩] at hnot
        cases hnot
    · intro hclosed
      have hnow : (s.quorum.onEach ok true).shouldFire = true := by
        simpa [Run.reduce, hfired] using hclosed
      refine ⟨decide (needed replicas.length ≤ acksOf (s.received ++ [(i, ok)])), ?_, ?_⟩
      · have hw : (s.quorum.onEach ok true).w = needed replicas.length := h.w
        simp [Run.reduce, hnow, hdone, hw, hacks']
      · obtain ⟨b, hb⟩ := hfire.mp hnow
        by_cases hreached : needed replicas.length ≤ acksOf (s.received ++ [(i, ok)])
        · rw [decide_eq_true hreached]
          exact hreached
        · rw [decide_eq_false hreached]
          cases b with
          | true => exact absurd hb hreached
          | false => exact hb

theorem Inv.step (h : Inv replicas s) {e : Event} (hs : step replicas s e = some s') :
    Inv replicas s' := by
  cases e with
  | report i ok =>
    cases hs
    exact h.reportOnce i ok
  | sent =>
    simp only [WriteFanOut.step, Option.ite_none_right_eq_some, Option.some.injEq] at hs
    obtain ⟨-, rfl⟩ := hs
    exact ⟨h.w, h.pending, h.nodup, h.delivered, h.bound, h.hints, h.opened, h.closed⟩
  | receive =>
    simp only [WriteFanOut.step] at hs
    split at hs
    · rename_i hready
      split at hs
      · cases hs
      · rename_i hchan
        cases hs
        exact h.reduce hchan hready.2
    · cases hs
  | handOff =>
    simp only [WriteFanOut.step, Option.ite_none_right_eq_some, Option.some.injEq] at hs
    obtain ⟨-, rfl⟩ := hs
    exact ⟨h.w, h.pending, h.nodup, h.delivered, h.bound, h.hints, h.opened, h.closed⟩

theorem inv_reaches (h : Reaches (step replicas) (fun _ _ => True) (start replicas) s) :
    Inv replicas s := h.invariant (inv_start replicas) fun _ _ _ h _ hs => h.step hs

/-! ## 4. The end of the drain -/

/-- The steps of the fan-out itself, as opposed to the reports it waits for. -/
def Event.own : Event → Bool
  | .report _ _ => false
  | _ => true

def Phase.rank : Phase → Nat
  | .sending => 2
  | .inline => 1
  | .tail => 0

def Run.work (s : Run) : Nat := 2 * s.channel.length + s.phase.rank

theorem work_step {e : Event} (hown : e.own = true) (hs : step replicas s e = some s') :
    s'.work < s.work := by
  cases e with
  | report i ok => cases hown
  | sent =>
    simp only [step, Option.ite_none_right_eq_some, Option.some.injEq] at hs
    obtain ⟨hphase, rfl⟩ := hs
    simp [Run.work, hphase, Phase.rank]
  | receive =>
    simp only [step] at hs
    split at hs
    · split at hs
      · cases hs
      · rename_i hchan
        cases hs
        simp only [Run.work, Run.reduce, hchan, length_cons]
        omega
    · cases hs
  | handOff =>
    simp only [step, Option.ite_none_right_eq_some, Option.some.injEq] at hs
    obtain ⟨⟨hphase, -, -⟩, rfl⟩ := hs
    simp [Run.work, hphase, Phase.rank]

/-- The fan-out waits: none of its own steps is enabled. -/
def Waits (replicas : List NodeId) (s : Run) : Prop :=
  ∀ e : Event, e.own = true → step replicas s e = none

theorem Waits.channel_nil (h : Waits replicas s) (hinv : Inv replicas s) : s.channel = [] := by
  have hphase : s.phase ≠ .sending := by
    intro hsending
    have hsent := h .sent rfl
    simp [step, hsending] at hsent
  cases hchan : s.channel with
  | nil => rfl
  | cons c rest =>
    have hlt : s.received.length < replicas.length := by
      have hle := hinv.length_le
      rw [hchan, length_append, length_cons] at hle
      omega
    have hreceive := h .receive rfl
    simp [step, hphase, hlt, hchan] at hreceive

def completions (n : Nat) (outcome : Nat → Bool) : List (Nat × Bool) :=
  (range n).map fun i => (i, outcome i)

theorem received_perm (hinv : Inv replicas s) (hwaits : Waits replicas s) {outcome : Nat → Bool}
    (houtcome : ∀ i < replicas.length, s.delivered i = some (outcome i)) :
    s.received.Perm (completions replicas.length outcome) := by
  have hnil := hwaits.channel_nil hinv
  have hnodup : (s.received.map Prod.fst).Nodup := by
    simpa [hnil] using hinv.nodup
  have hmem : ∀ i ok, (i, ok) ∈ s.received ↔ s.delivered i = some ok := by
    simpa [hnil] using hinv.delivered
  refine (perm_ext_iff_of_nodup (List.Nodup.of_map _ hnodup) ?_).mpr ?_
  · exact nodup_range.map fun i j h => (Prod.mk.inj h).1
  · rintro ⟨i, ok⟩
    rw [hmem, completions, mem_map]
    constructor
    · intro hi
      have hlt := hinv.bound i ok hi
      rw [houtcome i hlt, Option.some.injEq] at hi
      exact ⟨i, mem_range.mpr hlt, by rw [hi]⟩
    · rintro ⟨j, hj, heq⟩
      obtain ⟨rfl, rfl⟩ := Prod.mk.inj heq
      exact houtcome j (mem_range.mp hj)

def failing (replicas : List NodeId) (outcome : Nat → Bool) : List NodeId :=
  failedTargets replicas (completions replicas.length outcome)

theorem done_of_perm (hinv : Inv replicas s) {outcome : Nat → Bool}
    (hperm : s.received.Perm (completions replicas.length outcome)) :
    s.done = [decide (needed replicas.length ≤ 1 + (range replicas.length).countP outcome)] := by
  have hlen : s.received.length = replicas.length := by
    rw [hperm.length_eq, completions, length_map, length_range]
  have hacks : acksOf s.received = 1 + (range replicas.length).countP outcome := by
    rw [acksOf, hperm.countP_eq, completions, countP_map]
    rfl
  have hfired : s.fired = true := by
    by_contra hopen
    -- with nothing outstanding one of the two outcomes is determined
    have hnone := (hinv.opened (by simpa using hopen)).2.2
    have htrue := hnone true
    have hfalse := hnone false
    simp only [Determined, hlen, Nat.sub_self] at htrue hfalse
    omega
  obtain ⟨b, hdone, hdet⟩ := hinv.closed hfired
  rw [hdone, ← hacks]
  cases b <;> simp only [Determined, hlen, Nat.sub_self] at hdet
  · rw [decide_eq_false (by omega)]
  · rw [decide_eq_true hdet]

/-- **The quorum write decides once and exactly, and hints each failing replica once**: at most one
call of `on_done`, only with an outcome that the completions read determine. The fan-out's own steps
run out; when every replica has reported, there has been one call, with success iff the
acknowledgements reach the quorum, and one hint for each failing replica. -/
theorem quorum_write_exact (replicas : List NodeId) (s : Run)
    (hrun : Reaches (step replicas) (fun _ _ => True) (start replicas) s) :
    s.done.length ≤ 1 ∧ (∀ b ∈ s.done, Determined replicas.length s.received b) ∧
      (s.received.map Prod.fst).Nodup ∧ s.hints = failedTargets replicas s.received ∧
      (∀ e s', e.own = true → step replicas s e = some s' → s'.work < s.work) ∧
      ∀ outcome : Nat → Bool, (∀ i < replicas.length, s.delivered i = some (outcome i)) →
        Waits replicas s →
          s.done = [decide (needed replicas.length ≤
              1 + (range replicas.length).countP outcome)] ∧
            s.hints.Perm (failing replicas outcome) := by
  have hinv := inv_reaches hrun
  have hdone : s.done.length ≤ 1 ∧ ∀ b ∈ s.done, Determined replicas.length s.received b := by
    cases hfired : s.fired with
    | false =>
      rw [(hinv.opened hfired).1]
      exact ⟨Nat.zero_le 1, fun b hb => absurd hb not_mem_nil⟩
    | true =>
      obtain ⟨b, hdone, hdet⟩ := hinv.closed hfired
      rw [hdone]
      refine ⟨le_rfl, fun b' hb' => ?_⟩
      rw [mem_singleton.mp hb']
      exact hdet
  have hnodup : (s.received.map Prod.fst).Nodup := by
    have h := hinv.nodup
    rw [map_append] at h
    exact h.of_append_left
  refine ⟨hdone.1, hdone.2, hnodup, hinv.hints, fun _ _ => work_step, ?_⟩
  intro outcome houtcome hwaits
  have hperm := received_perm hinv hwaits houtcome
  refine ⟨done_of_perm hinv hperm, ?_⟩
  rw [hinv.hints]
  exact (hperm.filter _).map _

/-- Two replicas: one answers twice, with different results, the other fails late. -/
def twoReplicas : List NodeId := [[66], [67]]

def twoReplicaEvents : List Event :=
  [.report 0 true, .sent, .report 0 false, .receive, .handOff, .report 1 false, .receive]

def twoReplicaRun : Run :=
  (exec (step twoReplicas) (fun _ _ => True) (start twoReplicas) twoReplicaEvents).getD
    (start twoReplicas)

theorem quorum_write_two_replicas :
    twoReplicaRun.done.length ≤ 1 ∧
      (∀ b ∈ twoReplicaRun.done, Determined twoReplicas.length twoReplicaRun.received b) ∧
      twoReplicaRun.done = [true] ∧ twoReplicaRun.hints = [[67]] := by
  have h := quorum_write_exact twoReplicas twoReplicaRun
    (@reaches_of_exec _ _ _ _ _ _ _ twoReplicaEvents rfl)
  exact ⟨h.1, h.2.1, by decide, by decide⟩

end WriteFanOut

end Cinder
