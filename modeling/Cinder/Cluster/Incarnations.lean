/-
Incarnations over whole runs (`src/cluster/membership.cpp`,
`src/cluster/failure_detector.cpp`): when they only grow, and when a rumor about the node
itself is refuted.

A probe result reads the incarnation of the peer and passes it to `markAlive` in a second call;
between the two, rumors may raise it. `markAlive` on a Suspect or Dead node writes what it is
given. A refutation adds one to a 64-bit counter the rumor supplies.
-/
import Cinder.Cluster.Rumors
import Cinder.Lib.Transition

namespace Cinder

open Option UInt64

namespace MembershipTable

open Transition

/-! ## 1. Runs -/

/-- The table and the incarnations that probe results have read and not yet passed on. -/
structure Detecting where
  table : MembershipTable
  reads : List (NodeId × UInt64)

inductive DetectEvent where
  | applyRumor (now : Nanos) (rumor : NodeInfo)
  | markSuspect (id : NodeId)
  | markDead (id : NodeId)
  | markAlive (now : Nanos) (id : NodeId) (incarnation : UInt64)
  | readProbe (peer : NodeId)
  | finishProbe (now : Nanos) (peer : NodeId) (incarnation : UInt64)

/-- One call. The mark operations are made on other nodes only. `readProbe` and `finishProbe` are
the two halves of an acknowledged `FailureDetector::onProbeResult`. -/
def Detecting.step (s : Detecting) : DetectEvent → Option Detecting
  | .applyRumor now rumor => some { s with table := s.table.applyRumor now rumor }
  | .markSuspect id =>
    if id = s.table.self then none else some { s with table := s.table.markSuspect id }
  | .markDead id => if id = s.table.self then none else some { s with table := s.table.markDead id }
  | .markAlive now id incarnation =>
    if id = s.table.self then none
    else some { s with table := s.table.markAlive now id incarnation }
  | .readProbe peer =>
    if peer = s.table.self then none
    else some { s with reads := (peer, ((s.table.get peer).map (·.incarnation)).getD 0) :: s.reads }
  | .finishProbe now peer incarnation =>
    if peer ≠ s.table.self ∧ (peer, incarnation) ∈ s.reads then
      some { table := s.table.markAlive now peer incarnation
             reads := s.reads.erase (peer, incarnation) }
    else none

variable {s s' : Detecting} {e : DetectEvent} {own : NodeRecord}

theorem Detecting.step_cases (hs : s.step e = some s') :
    (∃ now rumor, e = .applyRumor now rumor ∧ s'.table = s.table.applyRumor now rumor) ∨
    (∃ id, id ≠ s.table.self ∧ e = .markSuspect id ∧ s'.table = s.table.markSuspect id) ∨
    (∃ id, id ≠ s.table.self ∧ e = .markDead id ∧ s'.table = s.table.markDead id) ∨
    (∃ now id incarnation, id ≠ s.table.self ∧
      (e = .markAlive now id incarnation ∨ e = .finishProbe now id incarnation) ∧
      s'.table = s.table.markAlive now id incarnation) ∨
    (∃ peer, e = .readProbe peer ∧ s'.table = s.table) := by
  cases e with
  | applyRumor now rumor =>
    cases hs
    exact .inl ⟨now, rumor, rfl, rfl⟩
  | markSuspect id =>
    simp only [step, ite_none_left_eq_some, some.injEq] at hs
    obtain ⟨hid, rfl⟩ := hs
    exact .inr (.inl ⟨id, hid, rfl, rfl⟩)
  | markDead id =>
    simp only [step, ite_none_left_eq_some, some.injEq] at hs
    obtain ⟨hid, rfl⟩ := hs
    exact .inr (.inr (.inl ⟨id, hid, rfl, rfl⟩))
  | markAlive now id incarnation =>
    simp only [step, ite_none_left_eq_some, some.injEq] at hs
    obtain ⟨hid, rfl⟩ := hs
    exact .inr (.inr (.inr (.inl ⟨now, id, incarnation, hid, .inl rfl, rfl⟩)))
  | readProbe peer =>
    simp only [step, ite_none_left_eq_some, some.injEq] at hs
    obtain ⟨-, rfl⟩ := hs
    exact .inr (.inr (.inr (.inr ⟨peer, rfl, rfl⟩)))
  | finishProbe now peer incarnation =>
    simp only [step, ite_none_right_eq_some, some.injEq] at hs
    obtain ⟨⟨hid, -⟩, rfl⟩ := hs
    exact .inr (.inr (.inr (.inl ⟨now, peer, incarnation, hid, .inr rfl, rfl⟩)))

def Detecting.start (self : NodeId) (peers : List (Nanos × PeerConfig)) : Detecting where
  table := (MembershipTable.start self).seed peers
  reads := []

/-! ## 2. What a step must do and when it does -/

/-- No incarnation decreases, and no node is forgotten. -/
def Grows (t t' : MembershipTable) : Prop :=
  ∀ id r, t.recordOf id = some r → ∃ r', t'.recordOf id = some r' ∧ rank r ≤ rank r'

/-- The table holds its own node Alive, above incarnation `i`. -/
def Refuted (t : MembershipTable) (i : UInt64) : Prop :=
  ∃ own, t.recordOf t.self = some own ∧ own.state = .alive ∧ i < own.incarnation

/-- The contract of a step: incarnations grow, and a Suspect or Dead rumor about the node itself
is refuted. -/
def StepOk (s : Detecting) (e : DetectEvent) (s' : Detecting) : Prop :=
  Grows s.table s'.table ∧
    match e with
    | .applyRumor _ rumor =>
      rumor.id = s.table.self → rumor.state ≠ .alive → Refuted s'.table rumor.incarnation
    | _ => True

/-- The incarnation passed for a Suspect or Dead node is not below the recorded one. -/
def PassesNewest (t : MembershipTable) (id : NodeId) (incarnation : UInt64) : Prop :=
  ∀ own, t.recordOf id = some own → own.state ≠ .alive → own.incarnation ≤ incarnation

def StepSafe (s : Detecting) : DetectEvent → Prop
  | .applyRumor _ rumor =>
    rumor.id = s.table.self → rumor.state ≠ .alive → rumor.incarnation ≠ 0xFFFFFFFFFFFFFFFF
  | .markAlive _ id incarnation => PassesNewest s.table id incarnation
  | .finishProbe _ peer incarnation => PassesNewest s.table peer incarnation
  | _ => True

variable {t t' : MembershipTable}

theorem Grows.refl (t : MembershipTable) : Grows t t := fun _ r hr => ⟨r, hr, le_rfl⟩

theorem Grows.trans {t'' : MembershipTable} (h : Grows t t') (h' : Grows t' t'') : Grows t t'' := by
  intro id r hr
  obtain ⟨r', hr', hle⟩ := h id r hr
  obtain ⟨r'', hr'', hle'⟩ := h' id r' hr'
  exact ⟨r'', hr'', hle.trans hle'⟩

theorem grows_iff (id : NodeId) (hframe : ∀ id', id' ≠ id → t'.recordOf id' = t.recordOf id') :
    Grows t t' ↔
      ∀ r, t.recordOf id = some r → ∃ r', t'.recordOf id = some r' ∧ rank r ≤ rank r' := by
  constructor
  · exact fun h => h id
  · intro h id' r hr
    by_cases hid : id' = id
    · subst hid
      exact h r hr
    · exact ⟨r, (hframe id' hid).trans hr, le_rfl⟩

theorem grows_markSuspect (id : NodeId) : Grows t (t.markSuspect id) := by
  refine (grows_iff id fun id' hid => by rw [recordOf_markSuspect, if_neg hid]).mpr ?_
  intro r hr
  rw [recordOf_markSuspect, if_pos rfl, hr]
  refine ⟨_, rfl, ?_⟩
  dsimp only
  split <;> exact le_rfl

theorem grows_markDead (id : NodeId) : Grows t (t.markDead id) := by
  refine (grows_iff id fun id' hid => by rw [recordOf_markDead, if_neg hid]).mpr ?_
  intro r hr
  rw [recordOf_markDead, if_pos rfl, hr]
  exact ⟨_, rfl, le_rfl⟩

theorem grows_markAlive_iff (now : Nanos) (id : NodeId) (incarnation : UInt64) :
    Grows t (t.markAlive now id incarnation) ↔ PassesNewest t id incarnation := by
  rw [grows_iff id fun id' hid => by rw [recordOf_markAlive, if_neg hid]]
  simp only [recordOf_markAlive, if_pos]
  refine forall_congr' fun own => ?_
  constructor
  · intro h hown hstate
    obtain ⟨r', hr', hle⟩ := h hown
    rw [hown, map_some, if_neg fun hs => hstate hs.1, some.injEq] at hr'
    subst hr'
    exact le_iff_toNat_le.mpr hle
  · intro h hown
    rw [hown, map_some]
    refine ⟨_, rfl, ?_⟩
    split
    · exact le_rfl
    · rename_i hcond
      by_cases hstate : own.state = .alive
      · have hlt : ¬ incarnation ≤ own.incarnation := fun hle => hcond ⟨hstate, hle⟩
        exact (UInt64.lt_iff_toNat_lt.mp (UInt64.not_le.mp hlt)).le
      · exact UInt64.le_iff_toNat_le.mp (h hown hstate)

/-! ## 3. Rumors -/

theorem rank_refuted {i : UInt64} (hle : own.incarnation ≤ i) (hi : i ≠ 0xFFFFFFFFFFFFFFFF) :
    rank (refuted own i) = i.toNat + 1 := by
  have hmax : max own.incarnation i = i := by
    show (if own.incarnation ≤ i then i else own.incarnation) = i
    rw [if_pos hle]
  rw [rank, refuted, if_pos hle, hmax, UInt64.toNat_add]
  have hne : i.toNat ≠ 2 ^ 64 - 1 := fun h => hi (UInt64.toNat.inj h)
  have hlt := i.toNat_lt
  have hone : (1 : UInt64).toNat = 1 := rfl
  omega

theorem grows_heard {isSelf : Bool} {r : NodeRecord}
    (h : isSelf → r.state ≠ .alive → r.incarnation ≠ 0xFFFFFFFFFFFFFFFF) :
    ∃ r', heard isSelf r (some own) = some r' ∧ rank own ≤ rank r' := by
  rw [heard_some]
  split_ifs with hstale hsame hself
  · exact ⟨own, rfl, le_rfl⟩
  · exact ⟨own, rfl, le_rfl⟩
  · have hle : own.incarnation ≤ r.incarnation := UInt64.not_lt.mp hstale
    refine ⟨_, rfl, ?_⟩
    rw [rank_refuted hle (h hself.1 hself.2)]
    exact (le_iff_toNat_le.mp hle).trans (Nat.le_succ _)
  · exact ⟨r, rfl, UInt64.le_iff_toNat_le.mp (UInt64.not_lt.mp hstale)⟩

theorem refuted_of_heard {r : NodeRecord} (hown : own.state = .alive) (hstate : r.state ≠ .alive) :
    (∃ r', heard true r (some own) = some r' ∧ r'.state = .alive ∧ r.incarnation < r'.incarnation) ↔
      r.incarnation ≠ 0xFFFFFFFFFFFFFFFF := by
  rw [heard_some]
  have hne : r ≠ own := fun e => hstate (e ▸ hown)
  have hself : (true : Bool) = true ∧ r.state ≠ .alive := ⟨rfl, hstate⟩
  rw [if_neg hne, if_pos hself]
  constructor
  · rintro ⟨r', -, -, hlt⟩ hmax
    have hlt' := lt_iff_toNat_lt.mp hlt
    have hbound := r'.incarnation.toNat_lt
    rw [hmax] at hlt'
    have hmaxNat : (0xFFFFFFFFFFFFFFFF : UInt64).toNat = 2 ^ 64 - 1 := rfl
    omega
  · intro hmax
    split
    · rename_i hlt
      exact ⟨own, rfl, hown, hlt⟩
    · rename_i hlt
      refine ⟨_, rfl, rfl, lt_iff_toNat_lt.mpr ?_⟩
      have hrank := rank_refuted (UInt64.not_lt.mp hlt) hmax
      rw [rank] at hrank
      omega

theorem grows_applyRumor {now : Nanos} {rumor : NodeInfo}
    (h : rumor.id = t.self → rumor.state ≠ .alive → rumor.incarnation ≠ 0xFFFFFFFFFFFFFFFF) :
    Grows t (t.applyRumor now rumor) := by
  refine (grows_iff rumor.id fun id' hid => by rw [recordOf_applyRumor, if_neg hid]).mpr ?_
  intro own hown
  rw [recordOf_applyRumor, if_pos rfl, hown]
  exact grows_heard fun hself => h (of_decide_eq_true hself)

theorem refuted_applyRumor_iff {now : Nanos} {rumor : NodeInfo}
    (hown : t.recordOf t.self = some own) (halive : own.state = .alive) (hid : rumor.id = t.self)
    (hstate : rumor.state ≠ .alive) :
    Refuted (t.applyRumor now rumor) rumor.incarnation ↔
      rumor.incarnation ≠ 0xFFFFFFFFFFFFFFFF := by
  unfold Refuted
  rw [self_applyRumor, recordOf_applyRumor, if_pos hid.symm, hown, decide_eq_true hid]
  exact refuted_of_heard (r := rumor.record) halive hstate

/-! ## 4. The node itself -/

def SelfAlive (t : MembershipTable) : Prop :=
  ∃ own, t.recordOf t.self = some own ∧ own.state = .alive

theorem selfAlive_start (self : NodeId) : SelfAlive (start self) := by
  refine ⟨⟨.alive, 0⟩, ?_, rfl⟩
  exact recordOf_of_get ((get_start self self).trans (if_pos rfl))

theorem SelfAlive.seedPeer (h : SelfAlive t) (now : Nanos) (peer : PeerConfig) :
    SelfAlive (t.seedPeer now peer) := by
  unfold MembershipTable.seedPeer
  split
  · exact h
  · rename_i hid
    obtain ⟨own, hown, hstate⟩ := h
    refine ⟨own, ?_, hstate⟩
    rw [self_setInfo, recordOf_setInfo, if_neg fun e => hid e.symm, hown]

theorem SelfAlive.seed (h : SelfAlive t) (peers : List (Nanos × PeerConfig)) :
    SelfAlive (t.seed peers) := by
  induction peers generalizing t with
  | nil => exact h
  | cons peer peers ih => exact ih (h.seedPeer peer.1 peer.2)

theorem SelfAlive.applyRumor (h : SelfAlive t) (now : Nanos) (rumor : NodeInfo) :
    SelfAlive (t.applyRumor now rumor) := by
  obtain ⟨own, hown, hstate⟩ := h
  unfold SelfAlive
  rw [self_applyRumor, recordOf_applyRumor, hown]
  split
  · rename_i hid
    rw [decide_eq_true hid.symm, heard_some]
    split_ifs with hstale hsame hself
    · exact ⟨own, rfl, hstate⟩
    · exact ⟨own, rfl, hstate⟩
    · exact ⟨_, rfl, rfl⟩
    · exact ⟨_, rfl, by simpa using hself⟩
  · exact ⟨own, rfl, hstate⟩

theorem SelfAlive.mark (h : SelfAlive t) {id : NodeId} (hid : id ≠ t.self)
    (f : NodeInfo → Option NodeInfo) : SelfAlive (t.mark id f) := by
  obtain ⟨own, hown, hstate⟩ := h
  refine ⟨own, ?_, hstate⟩
  rw [self_mark, recordOf, get_mark, if_neg fun e => hid e.symm, ← recordOf, hown]

theorem selfAlive_step (h : SelfAlive s.table) (hs : s.step e = some s') : SelfAlive s'.table := by
  rcases Detecting.step_cases hs with ⟨now, rumor, -, ht⟩ | ⟨id, hid, -, ht⟩ | ⟨id, hid, -, ht⟩ |
    ⟨now, id, incarnation, hid, -, ht⟩ | ⟨peer, -, ht⟩ <;> rw [ht]
  · exact h.applyRumor now rumor
  · exact h.mark hid _
  · exact h.mark hid _
  · exact h.mark hid _
  · exact h

theorem selfAlive_reaches {self : NodeId} {peers : List (Nanos × PeerConfig)}
    {ok : Detecting → DetectEvent → Prop}
    (h : Reaches Detecting.step ok (Detecting.start self peers) s) : SelfAlive s.table :=
  h.invariant ((selfAlive_start self).seed peers) fun _ _ _ h _ hs => selfAlive_step h hs

/-! ## 5. Every step of every run -/

theorem step_ok_iff (hself : SelfAlive s.table) (hs : s.step e = some s') :
    StepOk s e s' ↔ StepSafe s e := by
  unfold StepOk
  rcases Detecting.step_cases hs with ⟨now, rumor, rfl, ht⟩ | ⟨id, hid, rfl, ht⟩ |
    ⟨id, hid, rfl, ht⟩ | ⟨now, id, incarnation, hid, rfl | rfl, ht⟩ | ⟨peer, rfl, ht⟩ <;> rw [ht]
  · obtain ⟨own, hown, halive⟩ := hself
    constructor
    · intro h hid hstate
      exact (refuted_applyRumor_iff hown halive hid hstate).mp (h.2 hid hstate)
    · intro h
      refine ⟨grows_applyRumor h, fun hid hstate => ?_⟩
      exact (refuted_applyRumor_iff hown halive hid hstate).mpr (h hid hstate)
  · exact ⟨fun _ => trivial, fun _ => ⟨grows_markSuspect id, trivial⟩⟩
  · exact ⟨fun _ => trivial, fun _ => ⟨grows_markDead id, trivial⟩⟩
  · exact (and_iff_left trivial).trans (grows_markAlive_iff now id incarnation)
  · exact (and_iff_left trivial).trans (grows_markAlive_iff now id incarnation)
  · exact ⟨fun _ => trivial, fun _ => ⟨Grows.refl _, trivial⟩⟩

theorem grows_reaches {s₀ : Detecting} (hself : SelfAlive s₀.table)
    (h : Reaches Detecting.step StepSafe s₀ s) : Grows s₀.table s.table := by
  let inv : Detecting → Prop := fun s => SelfAlive s.table ∧ Grows s₀.table s.table
  have hinv : inv s := by
    refine h.invariant ⟨hself, Grows.refl _⟩ ?_
    intro s e s' hs hok hstep
    exact ⟨selfAlive_step hs.1 hstep, hs.2.trans ((step_ok_iff hs.1 hstep).mpr hok).1⟩
  exact hinv.2

/-- **In every run a step keeps all incarnations and refutes what it must exactly when** a Suspect
or Dead node is marked Alive with an incarnation not below its own, and a Suspect or Dead rumor
about the node itself does not have the greatest incarnation. -/
theorem incarnations_grow_iff (self : NodeId) (peers : List (Nanos × PeerConfig)) (s : Detecting)
    (hrun : Reaches Detecting.step (fun _ _ => True) (Detecting.start self peers) s) :
    (∀ e s', s.step e = some s' → (StepOk s e s' ↔ StepSafe s e)) ∧
      ∀ s', Reaches Detecting.step StepSafe s s' → Grows s.table s'.table :=
  ⟨fun _ _ hs => step_ok_iff (selfAlive_reaches hrun) hs,
    fun _ h => grows_reaches (selfAlive_reaches hrun) h⟩

/-- A node that has just started hears that it is Dead at 4, and outbids the rumor. -/
theorem incarnations_grow_at_start :
    ∃ s', (Detecting.start [65] [(0, { id := [66] })]).step
        (.applyRumor 1 { id := [65], state := .dead, incarnation := 4 }) = some s' ∧
      StepOk (Detecting.start [65] [(0, { id := [66] })])
        (.applyRumor 1 { id := [65], state := .dead, incarnation := 4 }) s' := by
  refine ⟨_, rfl, ?_⟩
  refine ((incarnations_grow_iff [65] [(0, { id := [66] })] _ Reaches.refl).1 _ _ rfl).mpr ?_
  intro _ _
  decide

/-- `B` is read for a probe at incarnation 0; a rumor suspects it at 5, and `markAlive` takes it
back to 0. A Dead rumor at the greatest incarnation makes the node's own counter wrap. -/
theorem incarnations_shrink :
    ((exec Detecting.step (fun _ _ => True) (Detecting.start [65] [(0, { id := [66] })])
        [.readProbe [66], .applyRumor 1 { id := [66], state := .suspect, incarnation := 5 }]).map
          fun s => s.table.recordOf [66]) = some (some ⟨.suspect, 5⟩) ∧
      ((exec Detecting.step (fun _ _ => True) (Detecting.start [65] [(0, { id := [66] })])
        [.readProbe [66], .applyRumor 1 { id := [66], state := .suspect, incarnation := 5 },
          .finishProbe 2 [66] 0]).map fun s => s.table.recordOf [66]) = some (some ⟨.alive, 0⟩) ∧
      ((exec Detecting.step (fun _ _ => True) (Detecting.start [65] [])
        [.applyRumor 1 { id := [65], incarnation := 3 },
          .applyRumor 2 { id := [65], state := .dead, incarnation := 0xFFFFFFFFFFFFFFFF }]).map
            fun s => s.table.recordOf [65]) = some (some ⟨.alive, 0⟩) := by
  decide

end MembershipTable

end Cinder
