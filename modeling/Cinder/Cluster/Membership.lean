/-
The local view of the cluster (`src/cluster/membership.cpp`): what a node knows about
the others, how rumors and marks change it, and which nodes are still warming up.

`now` stands for the reading of `steady_clock` an operation takes. The change callbacks are left
out: they read the table and do not write it.
-/
import Cinder.Hashing.Ring
import Mathlib.Data.List.AList

namespace Cinder

open Option AList List

/-! ## 1. The table -/

inductive NodeState where
  | alive | suspect | dead
  deriving DecidableEq, Repr

structure NodeInfo where
  id : NodeId
  host : Bytes := []
  port : UInt16 := 0
  state : NodeState := .alive
  incarnation : UInt64 := 0
  joinedAt : Nanos := 0
  deriving DecidableEq, Repr

structure MembershipTable where
  self : NodeId
  nodes : AList (fun _ : NodeId => NodeInfo)

namespace MembershipTable

variable (t : MembershipTable)

def get (id : NodeId) : Option NodeInfo := t.nodes.lookup id

/-- Joined less than `quarantine` milliseconds ago; a node that is not known, or known and not
alive, is not in quarantine. -/
def isQuarantined (id : NodeId) (now : Nanos) (quarantine : Int) : Bool :=
  if quarantine ≤ 0 then false
  else
    match t.get id with
    | none => false
    | some info =>
      if info.state ≠ .alive then false
      else decide (now - info.joinedAt < quarantine * 1000000)

/-! ## 2. Operations -/

/-- The constructor: a node knows itself. -/
def start (self : NodeId) : MembershipTable where
  self := self
  nodes := AList.singleton self { id := self }

/-- `ClusterConfig::NodeConfig`. -/
structure PeerConfig where
  id : NodeId
  host : Bytes := []
  port : UInt16 := 0
  deriving DecidableEq, Repr

def setInfo (id : NodeId) (info : NodeInfo) : MembershipTable :=
  { t with nodes := t.nodes.insert id info }

def seedPeer (now : Nanos) (peer : PeerConfig) : MembershipTable :=
  if peer.id = t.self then t
  else t.setInfo peer.id { id := peer.id, host := peer.host, port := peer.port, joinedAt := now }

/-- The clock is read for each peer; a peer that is known already is recorded anew. -/
def seed (peers : List (Nanos × PeerConfig)) : MembershipTable :=
  peers.foldl (fun t peer => t.seedPeer peer.1 peer.2) t

/-- The record `refuteSelfRumor` leaves. The incarnation is a 64-bit counter. -/
def refute (self rumor : NodeInfo) : NodeInfo :=
  let newIncarnation := max self.incarnation rumor.incarnation + 1
  { self with
    incarnation := if self.incarnation ≤ rumor.incarnation then newIncarnation
      else self.incarnation
    state := .alive }

def refuteSelfRumor (rumor : NodeInfo) : MembershipTable :=
  match t.get t.self with
  | none => t
  | some self => t.setInfo t.self (refute self rumor)

def adopt (info rumor : NodeInfo) : NodeInfo :=
  { info with
    state := rumor.state
    incarnation := rumor.incarnation
    host := if info.host = [] then rumor.host else info.host
    port := if info.port = 0 then rumor.port else info.port }

def applyRumor (now : Nanos) (rumor : NodeInfo) : MembershipTable :=
  match t.get rumor.id with
  | none =>
    if rumor.state ≠ .alive then t else t.setInfo rumor.id { rumor with joinedAt := now }
  | some info =>
    if rumor.incarnation < info.incarnation then t
    else if rumor.incarnation = info.incarnation ∧ rumor.state = info.state then t
    else if rumor.id = t.self ∧ rumor.state ≠ .alive then t.refuteSelfRumor rumor
    else t.setInfo rumor.id (adopt info rumor)

/-- The three mark operations: `f` says what becomes of the record of a known node, `none` that
it returns early. -/
def mark (id : NodeId) (f : NodeInfo → Option NodeInfo) : MembershipTable :=
  match t.get id with
  | none => t
  | some info =>
    match f info with
    | none => t
    | some info' => t.setInfo id info'

def markSuspect (id : NodeId) : MembershipTable := t.mark id fun info =>
    if info.state = .dead then none
    else if info.state = .suspect then none
    else some { info with state := .suspect }

def markDead (id : NodeId) : MembershipTable :=
  t.mark id fun info => if info.state = .dead then none else some { info with state := .dead }

/-- A node that comes back from Suspect or Dead starts a new quarantine. -/
def markAlive (now : Nanos) (id : NodeId) (incarnation : UInt64) :
    MembershipTable :=
  t.mark id fun info =>
    if info.state = .alive ∧ incarnation ≤ info.incarnation then none
    else
      some
        { info with
          state := .alive
          incarnation := incarnation
          joinedAt := if info.state ≠ .alive then now else info.joinedAt }

def snapshot : List NodeInfo := t.nodes.entries.map Sigma.snd

/-! ## 3. State and incarnation -/

end MembershipTable

/-- What rumors are about. -/
@[ext] structure NodeRecord where
  state : NodeState
  incarnation : UInt64
  deriving DecidableEq, Repr

def NodeInfo.record (info : NodeInfo) : NodeRecord := ⟨info.state, info.incarnation⟩

@[simp] theorem NodeInfo.state_record (info : NodeInfo) : info.record.state = info.state := rfl

@[simp] theorem NodeInfo.incarnation_record (info : NodeInfo) :
    info.record.incarnation = info.incarnation := rfl

namespace MembershipTable

def recordOf (t : MembershipTable) (id : NodeId) : Option NodeRecord :=
  (t.get id).map NodeInfo.record

variable {t : MembershipTable} {id : NodeId}

variable (info : NodeInfo)

@[simp] theorem self_setInfo : (t.setInfo id info).self = t.self := rfl

@[simp] theorem get_setInfo : (t.setInfo id info).get id = some info := lookup_insert _

theorem get_setInfo_ne {id' : NodeId} (h : id' ≠ id) (info : NodeInfo) :
    (t.setInfo id info).get id' = t.get id' := lookup_insert_ne h

theorem get_start (self id : NodeId) :
    (start self).get id = if id = self then some { id := self } else none := by
  have hsingle : (start self).nodes = AList.insert self { id := self } ∅ := rfl
  rw [get, hsingle]
  split
  · rename_i h
    rw [h, lookup_insert]
  · rename_i h
    rw [lookup_insert_ne h, lookup_empty]

theorem recordOf_of_get {info : NodeInfo} (h : t.get id = some info) :
    t.recordOf id = some info.record := by
  rw [recordOf, h, map_some]

theorem recordOf_of_none (h : t.get id = none) : t.recordOf id = none := by
  rw [recordOf, h, map_none]

theorem recordOf_setInfo (id' : NodeId) :
    (t.setInfo id info).recordOf id' = if id' = id then some info.record else t.recordOf id' := by
  split
  · rename_i h
    subst h
    rw [recordOf, get_setInfo, map_some]
  · rename_i h
    rw [recordOf, get_setInfo_ne h, recordOf]

/-- The refutation of a rumor about the node itself. -/
def refuted (own : NodeRecord) (incarnation : UInt64) : NodeRecord where
  state := .alive
  incarnation :=
    if own.incarnation ≤ incarnation then max own.incarnation incarnation + 1
    else own.incarnation

/-- What a rumor makes of a record. -/
def heard (isSelf : Bool) (rumor : NodeRecord) : Option NodeRecord → Option NodeRecord
  | none => if rumor.state ≠ .alive then none else some rumor
  | some own =>
    if rumor.incarnation < own.incarnation then some own
    else if rumor = own then some own
    else if isSelf ∧ rumor.state ≠ .alive then some (refuted own rumor.incarnation)
    else some rumor

theorem heard_some (isSelf : Bool) (rumor own : NodeRecord) :
    heard isSelf rumor (some own) =
      if rumor.incarnation < own.incarnation then some own
      else if rumor = own then some own
      else if isSelf ∧ rumor.state ≠ .alive then some (refuted own rumor.incarnation)
      else some rumor :=
  rfl

theorem applyRumor_cases (t : MembershipTable) (now : Nanos) (rumor : NodeInfo) :
    (t.get rumor.id = none ∧ rumor.state ≠ .alive ∧ t.applyRumor now rumor = t) ∨
    (t.get rumor.id = none ∧ rumor.state = .alive ∧
      t.applyRumor now rumor = t.setInfo rumor.id { rumor with joinedAt := now }) ∨
    ∃ info, t.get rumor.id = some info ∧
      (((rumor.incarnation < info.incarnation ∨ rumor.record = info.record) ∧
          t.applyRumor now rumor = t) ∨
       (¬ rumor.incarnation < info.incarnation ∧ rumor.record ≠ info.record ∧
          ((rumor.id = t.self ∧ rumor.state ≠ .alive ∧
              t.applyRumor now rumor = t.setInfo rumor.id (refute info rumor)) ∨
           (¬ (rumor.id = t.self ∧ rumor.state ≠ .alive) ∧
              t.applyRumor now rumor = t.setInfo rumor.id (adopt info rumor))))) := by
  cases hget : t.get rumor.id with
  | none =>
    by_cases hstate : rumor.state = .alive
    · exact .inr (.inl ⟨rfl, hstate, by simp only [applyRumor, hget, hstate]; rfl⟩)
    · exact .inl ⟨rfl, hstate, by simp only [applyRumor, hget, if_pos hstate]⟩
  | some info =>
    refine .inr (.inr ⟨info, rfl, ?_⟩)
    have hrecord : rumor.record = info.record ↔
        rumor.incarnation = info.incarnation ∧ rumor.state = info.state := by
      simp only [NodeInfo.record, NodeRecord.mk.injEq]
      exact And.comm
    simp only [applyRumor, hget]
    by_cases hstale : rumor.incarnation < info.incarnation
    · exact .inl ⟨.inl hstale, if_pos hstale⟩
    by_cases hsame : rumor.record = info.record
    · refine .inl ⟨.inr hsame, ?_⟩
      rw [if_neg hstale, if_pos (hrecord.mp hsame)]
    refine .inr ⟨hstale, hsame, ?_⟩
    rw [if_neg hstale, if_neg (mt hrecord.mpr hsame)]
    by_cases hself : rumor.id = t.self ∧ rumor.state ≠ .alive
    · refine .inl ⟨hself.1, hself.2, ?_⟩
      have hown : t.get t.self = some info := hself.1 ▸ hget
      rw [if_pos hself, refuteSelfRumor, hown, hself.1]
    · exact .inr ⟨hself, if_neg hself⟩

variable (now : Nanos)

@[simp] theorem self_applyRumor (rumor : NodeInfo) : (t.applyRumor now rumor).self = t.self := by
  rcases applyRumor_cases t now rumor with ⟨_, _, h⟩ | ⟨_, _, h⟩ |
    ⟨_, _, ⟨_, h⟩ | ⟨_, _, ⟨_, _, h⟩ | ⟨_, h⟩⟩⟩ <;> rw [h] <;> rfl

theorem recordOf_applyRumor (rumor : NodeInfo) (id : NodeId) :
    (t.applyRumor now rumor).recordOf id =
      if id = rumor.id then heard (rumor.id = t.self) rumor.record (t.recordOf id)
      else t.recordOf id := by
  by_cases hid : id = rumor.id
  · subst hid
    rw [if_pos rfl]
    rcases applyRumor_cases t now rumor with ⟨hget, hstate, h⟩ | ⟨hget, hstate, h⟩ |
      ⟨info, hget, hcase⟩
    · rw [h, recordOf_of_none hget]
      exact (if_pos hstate).symm
    · rw [h, recordOf_setInfo, if_pos rfl, recordOf_of_none hget]
      exact (if_neg (not_not.mpr hstate)).symm
    · rw [recordOf_of_get hget, heard_some]
      rcases hcase with ⟨hstale | hsame, h⟩ | ⟨hstale, hsame, ⟨hself, hstate, h⟩ | ⟨hself, h⟩⟩
      · rw [h, recordOf_of_get hget]
        exact (if_pos (show rumor.record.incarnation < info.record.incarnation from hstale)).symm
      · rw [h, recordOf_of_get hget, if_pos hsame, ite_self]
      · rw [h, recordOf_setInfo, if_pos rfl,
          if_neg (show ¬ rumor.record.incarnation < info.record.incarnation from hstale),
          if_neg hsame]
        exact (if_pos ⟨decide_eq_true hself, hstate⟩).symm
      · rw [h, recordOf_setInfo, if_pos rfl,
          if_neg (show ¬ rumor.record.incarnation < info.record.incarnation from hstale),
          if_neg hsame]
        exact (if_neg fun hs => hself ⟨of_decide_eq_true hs.1, hs.2⟩).symm
  · rw [if_neg hid]
    rcases applyRumor_cases t now rumor with ⟨_, _, h⟩ | ⟨_, _, h⟩ |
      ⟨_, _, ⟨_, h⟩ | ⟨_, _, ⟨_, _, h⟩ | ⟨_, h⟩⟩⟩ <;> rw [h]
    all_goals rw [recordOf_setInfo, if_neg hid]

variable (f : NodeInfo → Option NodeInfo)

@[simp] theorem self_mark : (t.mark id f).self = t.self := by
  unfold mark
  repeat' split
  all_goals rfl

theorem get_mark (id' : NodeId) :
    (t.mark id f).get id' =
      if id' = id then (t.get id').map fun info => (f info).getD info else t.get id' := by
  by_cases hid : id' = id
  · subst hid
    rw [if_pos rfl, mark]
    cases hget : t.get id' with
    | none => exact hget
    | some info =>
      cases hf : f info with
      | none => simp only [hf, hget, map_some, getD_none]
      | some info' => simp only [hf, get_setInfo, map_some, getD_some]
  · rw [if_neg hid, mark]
    repeat' split
    all_goals first | rfl | exact get_setInfo_ne hid _

theorem recordOf_mark {f : NodeInfo → Option NodeInfo} {g : NodeRecord → NodeRecord}
    (hfg : ∀ info, ((f info).getD info).record = g info.record) (id' : NodeId) :
    (t.mark id f).recordOf id' = if id' = id then (t.recordOf id').map g else t.recordOf id' := by
  rw [recordOf, get_mark]
  split
  · cases hget : t.get id' with
    | none => rw [recordOf, hget]; rfl
    | some info => rw [recordOf_of_get hget]; exact congrArg some (hfg info)
  · rfl

theorem recordOf_markSuspect (id id' : NodeId) :
    (t.markSuspect id).recordOf id' =
      if id' = id then (t.recordOf id').map fun own =>
        if own.state = .dead then own else { own with state := .suspect }
      else t.recordOf id' := by
  refine recordOf_mark (fun info => ?_) id'
  cases hstate : info.state <;> simp [NodeInfo.record, hstate]

theorem recordOf_markDead (id id' : NodeId) :
    (t.markDead id).recordOf id' =
      if id' = id then (t.recordOf id').map fun own => { own with state := .dead }
      else t.recordOf id' := by
  refine recordOf_mark (fun info => ?_) id'
  cases hstate : info.state <;> simp [NodeInfo.record, hstate]

theorem recordOf_markAlive (id id' : NodeId) (incarnation : UInt64) :
    (t.markAlive now id incarnation).recordOf id' =
      if id' = id then (t.recordOf id').map fun own =>
        if own.state = .alive ∧ incarnation ≤ own.incarnation then own else ⟨.alive, incarnation⟩
      else t.recordOf id' := by
  refine recordOf_mark (fun info => ?_) id'
  by_cases h : info.state = .alive ∧ incarnation ≤ info.incarnation
  · rw [if_pos h, getD_none]
    exact (if_pos (show info.record.state = .alive ∧
      incarnation ≤ info.record.incarnation from h)).symm
  · rw [if_neg h, getD_some]
    exact (if_neg (show ¬ (info.record.state = .alive ∧ incarnation ≤ info.record.incarnation)
      from h)).symm

/-! ## 4. Well-formed tables -/

/-- Every record is filed under its own id. -/
def Wf (t : MembershipTable) : Prop := ∀ id info, t.get id = some info → info.id = id

theorem Wf.setInfo (h : t.Wf) {info : NodeInfo} (hinfo : info.id = id) :
    (t.setInfo id info).Wf := by
  intro id' info' hget
  by_cases hid : id' = id
  · subst hid
    rw [get_setInfo, some.injEq] at hget
    rw [← hget, hinfo]
  · rw [get_setInfo_ne hid] at hget
    exact h id' info' hget

theorem wf_start (self : NodeId) : (start self).Wf := by
  intro id info hget
  have hmem : (⟨id, info⟩ : Sigma fun _ : NodeId => NodeInfo) ∈ (start self).nodes.entries :=
    mem_lookup_iff.mp hget
  obtain ⟨rfl, rfl⟩ : id = self ∧ info = { id := self } := by
    simpa [start, singleton_entries] using hmem
  rfl

theorem Wf.seedPeer (h : t.Wf) (now : Nanos) (peer : PeerConfig) : (t.seedPeer now peer).Wf := by
  unfold MembershipTable.seedPeer
  split
  · exact h
  · exact h.setInfo rfl

@[simp] theorem self_seedPeer (peer : PeerConfig) : (t.seedPeer now peer).self = t.self := by
  unfold MembershipTable.seedPeer
  split <;> rfl

@[simp] theorem self_seed (peers : List (Nanos × PeerConfig)) : (t.seed peers).self = t.self := by
  induction peers generalizing t with
  | nil => rfl
  | cons peer peers ih => exact (ih (t := t.seedPeer peer.1 peer.2)).trans (self_seedPeer _ _)

section

variable (h : t.Wf)

include h

theorem Wf.seed (peers : List (Nanos × PeerConfig)) : (t.seed peers).Wf := by
  induction peers generalizing t with
  | nil => exact h
  | cons peer peers ih => exact ih (h.seedPeer peer.1 peer.2)

theorem Wf.applyRumor (now : Nanos) (rumor : NodeInfo) : (t.applyRumor now rumor).Wf := by
  rcases applyRumor_cases t now rumor with ⟨_, _, e⟩ | ⟨_, _, e⟩ |
    ⟨info, hget, ⟨_, e⟩ | ⟨_, _, ⟨_, _, e⟩ | ⟨_, e⟩⟩⟩ <;> rw [e]
  · exact h
  · exact h.setInfo rfl
  · exact h
  · exact h.setInfo (h _ info hget)
  · exact h.setInfo (h _ info hget)

theorem Wf.mark {f : NodeInfo → Option NodeInfo}
    (hf : ∀ info info', f info = some info' → info'.id = info.id) : (t.mark id f).Wf := by
  intro id' info' hget
  rw [get_mark] at hget
  split at hget
  · obtain ⟨info, hinfo, rfl⟩ := map_eq_some_iff.mp hget
    cases hfi : f info with
    | none => exact h id' info hinfo
    | some info' => exact (hf info info' hfi).trans (h id' info hinfo)
  · exact h id' info' hget

theorem Wf.markSuspect : (t.markSuspect id).Wf := by
  refine h.mark fun info info' hf => ?_
  split_ifs at hf
  cases hf
  rfl

theorem Wf.markDead : (t.markDead id).Wf := by
  refine h.mark fun info info' hf => ?_
  split_ifs at hf
  cases hf
  rfl

theorem Wf.markAlive (now : Nanos) (incarnation : UInt64) :
    (t.markAlive now id incarnation).Wf := by
  refine h.mark fun info info' hf => ?_
  split_ifs at hf <;> cases hf <;> rfl

theorem filter_snapshot (id : NodeId) :
    t.snapshot.filter (fun info => info.id = id) = (t.get id).toList := by
  have hall : ∀ l : List (Sigma fun _ : NodeId => NodeInfo), (∀ s ∈ l, s.2.id = s.1) →
      (l.map Sigma.snd).filter (fun info => info.id = id) = l.lookupAll id := by
    intro l
    induction l with
    | nil => exact fun _ => rfl
    | cons s l ih =>
      intro hl
      have hs := hl s mem_cons_self
      have ih := ih fun s hs => hl s (mem_cons_of_mem _ hs)
      by_cases hid : s.1 = id
      · subst hid
        rw [map_cons, filter_cons_of_pos (by simpa using hs), ih]
        exact (lookupAll_cons_eq l s.1 s.2).symm
      · rw [map_cons, filter_cons_of_neg (by simpa [hs] using hid), ih]
        exact (lookupAll_cons_ne l s fun e => hid e.symm).symm
  rw [snapshot, hall _ fun s hs => h s.1 s.2 (mem_lookup_iff.mpr hs)]
  exact lookupAll_eq_dlookup id t.nodes.nodupKeys

end

end MembershipTable

end Cinder
