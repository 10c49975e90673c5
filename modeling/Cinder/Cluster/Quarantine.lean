/-
The quarantine window over whole runs (`src/cluster/membership.cpp`): when a node is in
quarantine exactly for the interval after it last became Alive.

`isQuarantined` measures from `joined_at`. `markAlive` sets it when a node comes back, and so do
`seed` and the first rumor about a node; a rumor that brings a known node back does not. The
time a node last became Alive is kept beside the table, where no operation reads it.
-/
import Cinder.Cluster.Membership
import Cinder.Lib.Transition

namespace Cinder

open Option

namespace MembershipTable

open Transition

/-! ## 1. Runs -/

/-- One operation with the clock reading it takes. -/
inductive MemberOp where
  | seedPeer (peer : PeerConfig)
  | applyRumor (rumor : NodeInfo)
  | markSuspect (id : NodeId)
  | markDead (id : NodeId)
  | markAlive (id : NodeId) (incarnation : UInt64)

def applyOp (t : MembershipTable) (now : Nanos) : MemberOp → MembershipTable
  | .seedPeer peer => t.seedPeer now peer
  | .applyRumor rumor => t.applyRumor now rumor
  | .markSuspect id => t.markSuspect id
  | .markDead id => t.markDead id
  | .markAlive id incarnation => t.markAlive now id incarnation

def isAlive (t : MembershipTable) (id : NodeId) : Bool :=
  match t.get id with
  | none => false
  | some info => info.state = .alive

/-- The table, the last clock reading, and since when each node is Alive without interruption. -/
structure Watched where
  table : MembershipTable
  clock : Nanos
  aliveSince : NodeId → Option Nanos

/-- The update of the observation: a node that is Alive now and was not before is so since `now`. -/
def observe (since : NodeId → Option Nanos) (now : Nanos) (t t' : MembershipTable) (id : NodeId) :
    Option Nanos :=
  if t'.isAlive id then (if t.isAlive id then since id else some now) else none

/-- A call of `seed` is one `seedPeer` step for each peer. Clock readings do not decrease. -/
def Watched.step (s : Watched) (e : Nanos × MemberOp) : Option Watched :=
  if s.clock ≤ e.1 then
    some { table := s.table.applyOp e.1 e.2
           clock := e.1
           aliveSince := observe s.aliveSince e.1 s.table (s.table.applyOp e.1 e.2) }
  else none

def Watched.start (self : NodeId) (clock : Nanos) : Watched where
  table := MembershipTable.start self
  clock := clock
  aliveSince := fun id => if id = self then some clock else none

/-! ## 2. The window -/

/-- A node other than self that is Alive since `since` is in quarantine, from now on, exactly before
`since` plus the interval. -/
def WindowExact (s : Watched) : Prop :=
  ∀ id, id ≠ s.table.self → ∀ since, s.aliveSince id = some since →
    ∀ u, s.clock ≤ u → ∀ quarantine : Int, 0 < quarantine →
      (s.table.isQuarantined id u quarantine = true ↔ u < since + quarantine * 1000000)

/-- The observation is of this table, and not of the future. -/
structure Watched.Inv (s : Watched) : Prop where
  alive : ∀ id, (s.aliveSince id).isSome = s.table.isAlive id
  past : ∀ id since, s.aliveSince id = some since → since ≤ s.clock

variable {t : MembershipTable} {id : NodeId} {s s' : Watched} {e : Nanos × MemberOp} {now : Nanos}

theorem isAlive_iff : t.isAlive id = true ↔ ∃ info, t.get id = some info ∧ info.state = .alive := by
  unfold isAlive
  cases t.get id <;> simp

/-- `joined_at` is the time the node became Alive. -/
def JoinedExact (s : Watched) : Prop :=
  ∀ id, id ≠ s.table.self → ∀ since, s.aliveSince id = some since →
    ∀ info, s.table.get id = some info → info.joinedAt = since

theorem isQuarantined_of_alive {info : NodeInfo} (hget : t.get id = some info)
    (hstate : info.state = .alive) {u : Nanos} {quarantine : Int} (hq : 0 < quarantine) :
    t.isQuarantined id u quarantine = true ↔ u < info.joinedAt + quarantine * 1000000 := by
  rw [isQuarantined, if_neg (not_le.mpr hq), hget]
  simp only [hstate, ne_eq, not_true_eq_false, if_false, decide_eq_true_eq]
  exact sub_lt_iff_lt_add'

theorem windowExact_iff (hinv : s.Inv) : WindowExact s ↔ JoinedExact s := by
  have hinfo : ∀ {id since}, s.aliveSince id = some since →
      ∃ info, s.table.get id = some info ∧ info.state = .alive := by
    intro id since hsince
    have halive := hinv.alive id
    rw [hsince] at halive
    exact isAlive_iff.mp halive.symm
  constructor
  · intro h id hid since hsince info hget
    obtain ⟨info', hget', hstate⟩ := hinfo hsince
    rw [hget, some.injEq] at hget'
    subst hget'
    -- an interval long enough to end after the clock tells the two apart
    have hwindow := fun u hu q hq => (isQuarantined_of_alive hget hstate hq).symm.trans
      (h id hid since hsince u hu q hq)
    obtain ⟨q, hq, hlarge⟩ : ∃ q : Int, 0 < q ∧
        s.clock ≤ info.joinedAt + q * 1000000 ∧ s.clock ≤ since + q * 1000000 := by
      refine ⟨max 1 (max (s.clock - info.joinedAt) (s.clock - since)), by omega, ?_, ?_⟩ <;>
        simp only [Nanos] at * <;> omega
    have h₁ := hwindow _ hlarge.1 q hq
    have h₂ := hwindow _ hlarge.2 q hq
    simp only [Nanos] at *
    omega
  · intro h id hid since hsince u _ q hq
    obtain ⟨info, hget, hstate⟩ := hinfo hsince
    rw [isQuarantined_of_alive hget hstate hq, h id hid since hsince info hget]

/-! ## 3. Steps -/

/-- A known node that is not Alive is not brought back by a rumor, unless its `joined_at` is the
present reading; and a peer that is Alive is not seeded again. -/
def StepDated (s : Watched) (e : Nanos × MemberOp) : Prop :=
  match e.2 with
  | .applyRumor rumor =>
    ∀ info, s.table.get rumor.id = some info → rumor.id ≠ s.table.self → info.state ≠ .alive →
      rumor.state = .alive → info.incarnation ≤ rumor.incarnation → info.joinedAt = e.1
  | .seedPeer peer =>
    peer.id ≠ s.table.self → ∀ since, s.aliveSince peer.id = some since → since = e.1
  | _ => True

instance (s : Watched) : (e : Nanos × MemberOp) → Decidable (StepDated s e)
  | (_, .applyRumor rumor) => inferInstanceAs (Decidable (∀ info ∈ s.table.get rumor.id, _))
  | (_, .seedPeer peer) => inferInstanceAs (Decidable (_ → ∀ since ∈ s.aliveSince peer.id, _))
  | (_, .markSuspect _) | (_, .markDead _) | (_, .markAlive _ _) => .isTrue trivial

theorem Watched.step_eq (h : s.step e = some s') :
    s.clock ≤ e.1 ∧ s'.table = s.table.applyOp e.1 e.2 ∧ s'.clock = e.1 ∧
      s'.aliveSince = observe s.aliveSince e.1 s.table s'.table := by
  unfold Watched.step at h
  split at h
  · rename_i hclock
    cases h
    exact ⟨hclock, rfl, rfl, rfl⟩
  · cases h

theorem Watched.Inv.step (hinv : s.Inv) (h : s.step e = some s') : s'.Inv := by
  obtain ⟨hclock, -, hnow, hsince⟩ := Watched.step_eq h
  constructor
  · intro id
    rw [hsince, observe]
    cases halive' : s'.table.isAlive id with
    | false => rfl
    | true =>
      cases halive : s.table.isAlive id with
      | false => rfl
      | true => simpa [halive] using hinv.alive id
  · intro id since hs
    rw [hsince, observe] at hs
    rw [hnow]
    split at hs
    · split at hs
      · exact (hinv.past id since hs).trans hclock
      · exact (some.inj hs).ge
    · cases hs

theorem Watched.inv_start (self : NodeId) (clock : Nanos) : (Watched.start self clock).Inv := by
  constructor
  · intro id
    simp only [Watched.start, isAlive, get_start]
    by_cases hid : id = self <;> simp [hid]
  · intro id since hs
    simp only [Watched.start] at hs ⊢
    split at hs
    · exact (some.inj hs).ge
    · cases hs

theorem joinedExact_start (self : NodeId) (clock : Nanos) :
    JoinedExact (Watched.start self clock) := by
  intro id hid since hs
  rw [Watched.start] at hs
  exact absurd hs (by simp [show id ≠ self from hid])

@[simp] theorem self_applyOp (t : MembershipTable) (now : Nanos) (op : MemberOp) :
    (t.applyOp now op).self = t.self := by
  cases op with
  | seedPeer peer =>
    simp only [applyOp, MembershipTable.seedPeer]
    split <;> rfl
  | applyRumor rumor => exact self_applyRumor now rumor
  | markSuspect id | markDead id | markAlive id incarnation => exact self_mark _

def MemberOp.target : MemberOp → NodeId
  | .seedPeer peer => peer.id
  | .applyRumor rumor => rumor.id
  | .markSuspect id => id
  | .markDead id => id
  | .markAlive id _ => id

theorem get_applyOp_ne {op : MemberOp} (hid : id ≠ op.target) :
    (t.applyOp now op).get id = t.get id := by
  cases op with
  | seedPeer peer =>
    simp only [applyOp, MembershipTable.seedPeer]
    split
    · rfl
    · exact get_setInfo_ne hid _
  | applyRumor rumor =>
    rw [applyOp]
    rcases applyRumor_cases t now rumor with ⟨_, _, h⟩ | ⟨_, _, h⟩ |
      ⟨_, _, ⟨_, h⟩ | ⟨_, _, ⟨_, _, h⟩ | ⟨_, h⟩⟩⟩ <;> rw [h]
    all_goals exact get_setInfo_ne hid _
  | markSuspect id' | markDead id' | markAlive id' incarnation =>
    exact (get_mark _ _).trans (if_neg hid)

theorem joinedExact_step_iff (hjoined : JoinedExact s) (h : s.step e = some s') :
    JoinedExact s' ↔ (e.2.target ≠ s.table.self →
      ∀ since, s'.aliveSince e.2.target = some since →
        ∀ info, s'.table.get e.2.target = some info → info.joinedAt = since) := by
  obtain ⟨-, htable, -, hsince⟩ := Watched.step_eq h
  have hself : s'.table.self = s.table.self := by rw [htable, self_applyOp]
  constructor
  · exact fun h hid => h _ (hself ▸ hid)
  · intro htarget id hid since hs info hget
    rw [hself] at hid
    by_cases hop : id = e.2.target
    · subst hop
      exact htarget hid since hs info hget
    · have hsame : s'.table.get id = s.table.get id := by rw [htable, get_applyOp_ne hop]
      have halive : s'.table.isAlive id = s.table.isAlive id := by rw [isAlive, isAlive, hsame]
      rw [hsince, observe, halive] at hs
      split at hs
      · exact hjoined id hid since hs info (hsame ▸ hget)
      · cases hs

/-- The record of an Alive node keeps the date of an Alive record, or has that of today where there
was none. -/
def Dates (now : Nanos) (before after : Option NodeInfo) : Prop :=
  ∀ info', after = some info' → info'.state = .alive →
    (∃ info, before = some info ∧ info.state = .alive ∧ info'.joinedAt = info.joinedAt) ∨
      ((∀ info, before = some info → info.state ≠ .alive) ∧ info'.joinedAt = now)

theorem Dates.refl (now : Nanos) (info : Option NodeInfo) : Dates now info info :=
  fun info' h hstate => .inl ⟨info', h, hstate, rfl⟩

theorem joinedExact_of_dates (hjoined : JoinedExact s) (h : s.step e = some s')
    (hdates : Dates e.1 (s.table.get e.2.target) (s'.table.get e.2.target)) : JoinedExact s' := by
  rw [joinedExact_step_iff hjoined h]
  intro hid since hs info' hget'
  obtain ⟨-, -, -, hsince⟩ := Watched.step_eq h
  rw [hsince, observe] at hs
  split at hs
  · rename_i halive'
    obtain ⟨info'', hget'', hstate⟩ := isAlive_iff.mp halive'
    rw [hget', some.injEq] at hget''
    subst hget''
    rcases hdates info' hget' hstate with ⟨info, hget, hinfo, hdate⟩ | ⟨hnone, hdate⟩
    · rw [if_pos (isAlive_iff.mpr ⟨info, hget, hinfo⟩)] at hs
      rw [hdate, hjoined _ hid since hs info hget]
    · rw [if_neg] at hs
      · rw [hdate, some.inj hs]
      · intro halive
        obtain ⟨info, hget, hinfo⟩ := isAlive_iff.mp halive
        exact hnone info hget hinfo
  · cases hs

variable (t)

theorem dates_markSuspect (now : Nanos) (id : NodeId) :
    Dates now (t.get id) ((t.markSuspect id).get id) := by
  intro info' hget' hstate
  rw [markSuspect, get_mark, if_pos rfl] at hget'
  obtain ⟨info, hget, rfl⟩ := map_eq_some_iff.mp hget'
  cases hinfo : info.state <;> simp [hinfo] at hstate

theorem dates_markDead (now : Nanos) (id : NodeId) :
    Dates now (t.get id) ((t.markDead id).get id) := by
  intro info' hget' hstate
  rw [markDead, get_mark, if_pos rfl] at hget'
  obtain ⟨info, hget, rfl⟩ := map_eq_some_iff.mp hget'
  cases hinfo : info.state <;> simp [hinfo] at hstate

theorem dates_markAlive (now : Nanos) (id : NodeId) (incarnation : UInt64) :
    Dates now (t.get id) ((t.markAlive now id incarnation).get id) := by
  intro info' hget' hstate
  rw [markAlive, get_mark, if_pos rfl] at hget'
  obtain ⟨info, hget, rfl⟩ := map_eq_some_iff.mp hget'
  rw [hget]
  by_cases hinfo : info.state = .alive
  · refine .inl ⟨info, rfl, hinfo, ?_⟩
    simp only [hinfo]
    split <;> simp
  · refine .inr ⟨fun info' h => by rwa [← some.inj h], ?_⟩
    rw [if_neg fun h => hinfo h.1, getD_some]
    exact if_pos hinfo

def Revives (rumor : NodeInfo) (info : NodeInfo) : Prop :=
  t.get rumor.id = some info ∧ info.state ≠ .alive ∧ rumor.state = .alive ∧
    info.incarnation ≤ rumor.incarnation

variable {t}

theorem dates_applyRumor {rumor : NodeInfo} (hid : rumor.id ≠ t.self)
    (h : ∀ info, ¬ Revives t rumor info) :
    Dates now (t.get rumor.id) ((t.applyRumor now rumor).get rumor.id) := by
  rcases applyRumor_cases t now rumor with ⟨_, _, e⟩ | ⟨hget, _, e⟩ |
    ⟨info, hget, ⟨_, e⟩ | ⟨hstale, _, ⟨hself, _, _⟩ | ⟨_, e⟩⟩⟩
  · rw [e]
    exact Dates.refl now _
  · rw [e, get_setInfo, hget]
    intro info' hinfo' _
    cases hinfo'
    exact .inr ⟨nofun, rfl⟩
  · rw [e]
    exact Dates.refl now _
  · exact absurd hself hid
  · rw [e, get_setInfo]
    intro info' hinfo' hstate
    cases hinfo'
    have hinfo : info.state = .alive := by
      by_contra hdown
      exact h info ⟨hget, hdown, hstate, UInt64.not_lt.mp hstale⟩
    exact .inl ⟨info, hget, hinfo, rfl⟩

theorem get_applyRumor_of_revives {rumor info : NodeInfo} (h : Revives t rumor info) :
    (t.applyRumor now rumor).get rumor.id = some (adopt info rumor) := by
  obtain ⟨hget, hdown, hstate, hle⟩ := h
  rcases applyRumor_cases t now rumor with ⟨hnone, _, _⟩ | ⟨hnone, _, _⟩ |
    ⟨info', hget', ⟨hold, _⟩ | ⟨_, _, ⟨_, hne, _⟩ | ⟨_, e⟩⟩⟩
  · rw [hget] at hnone
    cases hnone
  · rw [hget] at hnone
    cases hnone
  · rw [hget, some.injEq] at hget'
    subst hget'
    rcases hold with hlt | hsame
    · exact absurd hlt (UInt64.not_lt.mpr hle)
    · exact absurd ((congrArg NodeRecord.state hsame).symm.trans hstate) hdown
  · exact absurd hstate hne
  · rw [hget, some.injEq] at hget'
    subst hget'
    rw [e, get_setInfo]

theorem step_exact_iff {op : MemberOp} (hinv : s.Inv) (hjoined : JoinedExact s)
    (h : s.step (now, op) = some s') : JoinedExact s' ↔ StepDated s (now, op) := by
  have htable : s'.table = s.table.applyOp now op := (Watched.step_eq h).2.1
  have hsince : s'.aliveSince = observe s.aliveSince now s.table s'.table :=
    (Watched.step_eq h).2.2.2
  have hof : Dates now (s.table.get op.target) ((s.table.applyOp now op).get op.target) →
      JoinedExact s' := htable ▸ joinedExact_of_dates hjoined h
  have hiff : JoinedExact s' ↔ (op.target ≠ s.table.self →
      ∀ since, s'.aliveSince op.target = some since →
        ∀ info, s'.table.get op.target = some info → info.joinedAt = since) :=
    joinedExact_step_iff hjoined h
  cases op with
  | markSuspect id => exact ⟨fun _ => trivial, fun _ => hof (dates_markSuspect _ now id)⟩
  | markDead id => exact ⟨fun _ => trivial, fun _ => hof (dates_markDead _ now id)⟩
  | markAlive id incarnation =>
    exact ⟨fun _ => trivial, fun _ => hof (dates_markAlive _ now id incarnation)⟩
  | seedPeer peer =>
    rw [hiff]
    refine forall_congr' fun (hid : peer.id ≠ s.table.self) => ?_
    have hget : s'.table.get peer.id =
        some { id := peer.id, host := peer.host, port := peer.port, joinedAt := now } := by
      rw [htable, applyOp, MembershipTable.seedPeer, if_neg hid, get_setInfo]
    have halive' : s'.table.isAlive peer.id = true := isAlive_iff.mpr ⟨_, hget, rfl⟩
    simp only [MemberOp.target, hget, hsince, observe, halive', if_true, some.injEq, forall_eq']
    cases halive : s.table.isAlive peer.id with
    | true => exact forall_congr' fun since => by rw [if_pos rfl, eq_comm (a := now)]
    | false =>
      have hknown := hinv.alive peer.id
      rw [halive, isSome_eq_false_iff, isNone_iff_eq_none] at hknown
      simp [hknown]
  | applyRumor rumor =>
    by_cases hid : rumor.id = s.table.self
    · rw [hiff]
      exact ⟨fun _ _ _ hne => absurd hid hne, fun _ hne => absurd hid hne⟩
    by_cases hrevives : ∃ info, Revives s.table rumor info
    · -- the one case in which the date is missed
      obtain ⟨info, hinfo⟩ := hrevives
      have hget' : s'.table.get rumor.id = some (adopt info rumor) := by
        rw [htable, applyOp, get_applyRumor_of_revives hinfo]
      obtain ⟨hget, hdown, hstate, hle⟩ := hinfo
      have hsince' : s'.aliveSince rumor.id = some now := by
        have halive : s.table.isAlive rumor.id = false := by
          rw [isAlive, hget]
          exact decide_eq_false hdown
        have halive' : s'.table.isAlive rumor.id = true := isAlive_iff.mpr ⟨_, hget', hstate⟩
        rw [hsince, observe, halive', halive]
        rfl
      rw [hiff]
      constructor
      · intro h info' hinfo' hne _ _ _
        rw [hget, some.injEq] at hinfo'
        rw [← hinfo']
        have hdate := h hne now hsince' (adopt info rumor) hget'
        exact hdate
      · intro h hne since hs info' hinfo'
        have hnow : some now = some since := hsince'.symm.trans hs
        have hadopt : some (adopt info rumor) = some info' := hget'.symm.trans hinfo'
        rw [← some.inj hnow, ← some.inj hadopt]
        exact h info hget hne hdown hstate hle
    · refine ⟨fun _ info hget _ hdown hstate hle => ?_, fun _ => hof ?_⟩
      · exact absurd ⟨info, hget, hdown, hstate, hle⟩ hrevives
      · exact dates_applyRumor hid fun info h => hrevives ⟨info, h⟩

/-! ## 4. Every run -/

theorem watched_reaches {self : NodeId} {clock : Nanos}
    (h : Reaches Watched.step StepDated (Watched.start self clock) s) : s.Inv ∧ JoinedExact s := by
  let inv : Watched → Prop := fun s => s.Inv ∧ JoinedExact s
  have hinv : inv s := by
    refine h.invariant ⟨Watched.inv_start self clock, joinedExact_start self clock⟩ ?_
    intro s e s' hs hok hstep
    exact ⟨hs.1.step hstep, (step_exact_iff hs.1 hs.2 hstep).mpr hok⟩
  exact hinv

/-- **Every recovery is quarantined for its interval in every run whose rumors bring no known node
back and whose seeds name no Alive one**, and the first step that does otherwise breaks it. -/
theorem quarantine_exact_iff (self : NodeId) (clock : Nanos) (s : Watched)
    (hrun : Reaches Watched.step StepDated (Watched.start self clock) s) :
    WindowExact s ∧ ∀ e s', s.step e = some s' → (WindowExact s' ↔ StepDated s e) := by
  obtain ⟨hinv, hjoined⟩ := watched_reaches hrun
  refine ⟨(windowExact_iff hinv).mpr hjoined, fun e s' hs => ?_⟩
  rw [windowExact_iff (hinv.step hs), step_exact_iff hinv hjoined hs]

/-- `B` joins at 0, is marked Dead at 5 ms and Alive again at 20 ms: with an interval of 10 ms it is
in quarantine until 30 ms. -/
theorem quarantine_exact_recovered :
    ∃ s, Reaches Watched.step StepDated (Watched.start [65] 0) s ∧
      s.aliveSince [66] = some 20000000 ∧ s.table.isQuarantined [66] 29999999 10 = true ∧
      s.table.isQuarantined [66] 30000000 10 = false := by
  obtain ⟨s, hrun, hs⟩ := exists_reaches_of_exec Watched.step StepDated (Watched.start [65] 0)
    [(0, .seedPeer { id := [66] }), (5000000, .markDead [66]), (20000000, .markAlive [66] 1)]
    (fun s => s.table.self ≠ [66] ∧ s.clock = 20000000 ∧ s.aliveSince [66] = some 20000000)
    (by decide)
  obtain ⟨hself, hclock, hsince⟩ := of_decide_eq_true hs
  have hexact := (quarantine_exact_iff [65] 0 s hrun).1 [66] hself.symm _ hsince
  refine ⟨s, hrun, hsince, (hexact _ (by rw [hclock]; decide) 10 (by decide)).mpr (by decide), ?_⟩
  exact Bool.eq_false_iff.mpr
    ((hexact _ (by rw [hclock]; decide) 10 (by decide)).not.mpr (by decide))

/-- `B` joins at 0, is found Suspect and comes back through a rumor at 20 ms: it is not in
quarantine then. -/
theorem recovery_without_quarantine :
    (exec Watched.step (fun _ _ => True) (Watched.start [65] 0)
        [(0, .seedPeer { id := [66] }), (5000000, .markSuspect [66]),
          (20000000, .applyRumor { id := [66], incarnation := 1 })]).map
      (fun s =>
        (s.table.recordOf [66], s.aliveSince [66], s.table.isQuarantined [66] 20000000 10)) =
      some (some ⟨.alive, 1⟩, some 20000000, false) := by
  decide

end MembershipTable

end Cinder
