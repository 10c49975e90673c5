/-
The parts a replicated operation is made of (`src/node/replication_manager.cpp`,
`include/cinder/node/read_quorum.hpp`, `include/cinder/node/fanout.hpp` and the replica side
in `src/net/tcp/connection.cpp`): entries, requests and answers, the single consumer behind both
fan-outs (`FanOut.report`), and the two folds (`WriteQuorum`, `ReadReducer`).
-/
import Cinder.Cluster.Membership
import Cinder.Net.Protocol
import Cinder.Store.Records

namespace Cinder

open VersionedEntry

/-! ## 1. Writes and deletes on the wire -/

def stampedEntry (value : Bytes) (version writer : UInt64) : VersionedEntry :=
  { VersionedEntry.setVersion { value := value } version with writerNodeHash := writer }

/-- The entry `writeAsync` puts into the local store. -/
def writeEntry (clk : ClockReading) (version writer : UInt64) (value : Bytes)
    (ttl : Option Nanos) : VersionedEntry :=
  let entry := stampedEntry value version writer
  match ttl with
  | some ttl => { entry with expiresAt := clk.now + ttl }.setHasTtl true
  | none => entry

/-- The marker `removeVersioned` plants; it always has a deadline. -/
def tombstoneEntry (clk : ClockReading) (gc : Nanos) (version writer : UInt64) :
    VersionedEntry :=
  let tomb := (stampedEntry [] version writer).setTombstone true
  { tomb with expiresAt := clk.now + gc }.setHasTtl true

def writeRequest (clk : ClockReading) (key : Key) (version writer : UInt64) (value : Bytes)
    (ttl : Option Nanos) : Request where
  opcode := .replicate
  key := key
  value := value
  version := version
  writerNodeHash := writer
  expiresAt :=
    let entry := writeEntry clk version writer value ttl
    if entry.hasTtl then some (toSystemExpiry clk entry.expiresAt) else none

/-- The deadline of a delete is read back from the store (`resident`), so that every replica
reaps at the same instant. -/
def deleteRequest (clk : ClockReading) (key : Key) (version writer : UInt64)
    (resident : Option VersionedEntry) : Request where
  opcode := .replicate
  key := key
  version := version
  writerNodeHash := writer
  tombstone := true
  expiresAt :=
    match resident with
    | some tomb =>
      if tomb.isTombstone ∧ tomb.hasTtl then some (toSystemExpiry clk tomb.expiresAt) else none
    | none => none

/-- The request that sends a resident entry on as it is. -/
def entryRequest (clk : ClockReading) (key : Key) (entry : VersionedEntry) : Request where
  opcode := .replicate
  key := key
  value := entry.value
  version := entry.version
  writerNodeHash := entry.writerNodeHash
  tombstone := entry.isTombstone
  expiresAt := if entry.hasTtl then some (toSystemExpiry clk entry.expiresAt) else none

/-- The request of `sendRepairFanOut`. -/
def repairRequest (clk : ClockReading) (key : Key) (winner : VersionedEntry) : Request :=
  entryRequest clk key winner

/-- The entry a replica applies. A tombstone without a deadline takes the path of
`removeVersioned` and gets the replica's own. -/
def replicatedEntry (clk : ClockReading) (gc : Nanos) (req : Request) : VersionedEntry :=
  let entry := stampedEntry req.value req.version req.writerNodeHash
  let entry := match req.expiresAt with
    | some t => { entry with expiresAt := toSteadyExpiry clk t }.setHasTtl true
    | none => entry
  if req.tombstone then
    if req.expiresAt.isSome then entry.setTombstone true
    else tombstoneEntry clk gc req.version req.writerNodeHash
  else entry

/-- As far as the store is concerned. -/
def Table.handleReplicate (t : Table) (clk : ClockReading) (gc : Nanos) (req : Request) : Table :=
  t.putVersioned req.key (replicatedEntry clk gc req)

/-- The stamp of a request: an entry keeps 62 bits of the version. -/
def Request.stamp (req : Request) : LwwStamp :=
  ⟨(req.version <<< 2) >>> 2, req.writerNodeHash, req.tombstone⟩

theorem stampOf_stampedEntry (value : Bytes) (version writer : UInt64) :
    stampOf (stampedEntry value version writer) = ⟨(version <<< 2) >>> 2, writer, false⟩ := by
  have hver := version_setVersion_eq { value := value } version
  have htomb := isTombstone_setVersion { value := value } version
  have hzero : ((0 : UInt64) &&& 2 != 0) = false := by decide
  exact congrArg₂ (LwwStamp.mk · writer ·) hver (htomb.trans hzero)

variable (clk : ClockReading)

theorem stampOf_writeEntry (version writer : UInt64) (value : Bytes) (ttl : Option Nanos) :
    stampOf (writeEntry clk version writer value ttl) = ⟨(version <<< 2) >>> 2, writer, false⟩ := by
  cases ttl <;> simp [writeEntry, stampOf_stampedEntry]

theorem stampOf_tombstoneEntry (gc : Nanos) (version writer : UInt64) :
    stampOf (tombstoneEntry clk gc version writer) = ⟨(version <<< 2) >>> 2, writer, true⟩ := by
  simp [tombstoneEntry, stampOf_stampedEntry]

theorem stampOf_replicatedEntry (gc : Nanos) (req : Request) :
    stampOf (replicatedEntry clk gc req) = req.stamp := by
  unfold replicatedEntry Request.stamp
  cases req.tombstone <;> cases req.expiresAt <;>
    simp [stampOf_stampedEntry, stampOf_tombstoneEntry]

theorem stamp_entryRequest (key : Key) (entry : VersionedEntry) :
    (entryRequest clk key entry).stamp = stampOf entry := by
  have hver : (entry.version <<< 2) >>> 2 = entry.version := by
    rw [← version_setVersion_eq {}, version_setVersion _ entry.version_lt]
  exact congrArg (LwwStamp.mk · entry.writerNodeHash entry.isTombstone) hver

/-! ## 2. Answers to a read -/

/-- `handleGetVersioned` for a peer: tombstones carry identity, not data. The opcode is of the
client class, so a miss away from the ring owner is answered with a redirect (`none` on
the owner). -/
def getVersionedResponse (clk : ClockReading) (redirect : Option Bytes)
    (resident : Option VersionedEntry) : Response :=
  match resident with
  | some entry =>
    { status := .ok
      value := if entry.isTombstone then none else some entry.value
      version := entry.version
      writerNodeHash := entry.writerNodeHash
      tombstone := entry.isTombstone
      expiresAt := if entry.hasTtl then some (toSystemExpiry clk entry.expiresAt) else none }
  | none =>
    match redirect with
    | some owner => { status := .notReady, value := some owner }
    | none => { status := .notFound }

def Response.vote (res : Response) : LwwStamp := ⟨res.version, res.writerNodeHash, res.tombstone⟩

def votedEntry (clk : ClockReading) (res : Response) : VersionedEntry :=
  let entry := stampedEntry (res.value.getD []) res.version res.writerNodeHash
  let entry := entry.setTombstone res.tombstone
  match res.expiresAt with
  | some t => { entry.setHasTtl true with expiresAt := toSteadyExpiry clk t }
  | none => entry

theorem stampOf_votedEntry {res : Response}
    (hv : res.version.toNat < 2 ^ 62) : stampOf (votedEntry clk res) = res.vote := by
  have hver : (res.version <<< 2) >>> 2 = res.version := by
    rw [← version_setVersion_eq {}, version_setVersion _ hv]
  unfold votedEntry Response.vote
  cases res.expiresAt <;> simp [stampOf_stampedEntry, hver]

theorem getVersionedResponse_version_lt (redirect : Option Bytes)
    (resident : Option VersionedEntry) :
    (getVersionedResponse clk redirect resident).version.toNat < 2 ^ 62 := by
  cases resident with
  | none => cases redirect <;> exact Nat.two_pow_pos 62
  | some e => exact e.version_lt

/-! ## 3. The fan-out -/

/-- The progress of one fan-out: the fold, the targets that have not reported, and whether the
decision has fired. -/
structure FanOut (σ : Type) where
  state : σ
  waiting : List NodeId
  fired : Bool := false
  deriving DecidableEq, Repr

/-- One completion: it is folded (`onEach` is told whether the decision is still open), and the
decision fires at most once. Returns whether it fires now. -/
def FanOut.report {σ : Type} (onEach : σ → Bool → σ) (shouldFire : σ → Bool) (f : FanOut σ)
    (i : NodeId) : FanOut σ × Bool :=
  let state := onEach f.state (!f.fired)
  let fire := !f.fired && shouldFire state
  ({ state := state, waiting := f.waiting.erase i, fired := f.fired || fire }, fire)

/-- The fold of a quorum write; the local write is the first acknowledgement. -/
structure WriteQuorum where
  acks : Nat := 1
  pending : Nat
  w : Nat
  deriving DecidableEq, Repr

def WriteQuorum.onEach (q : WriteQuorum) (ok active : Bool) : WriteQuorum :=
  { q with
    acks := if ok && active then q.acks + 1 else q.acks
    pending := q.pending - 1 }

/-- A write gives up as soon as the quorum is out of reach. -/
def WriteQuorum.shouldFire (q : WriteQuorum) : Bool :=
  decide (q.w ≤ q.acks) || decide (q.pending = 0) || decide (q.acks + q.pending < q.w)

/-! ## 4. The read reducer -/

structure ReadReducer where
  r : Nat
  pending : Nat
  acks : Nat := 0
  /-- `best_version_`, `best_writer_`, `best_tombstone_`. -/
  best : LwwStamp := {}
  needsRepair : Bool := false
  bestEntry : Option VersionedEntry := none
  deriving DecidableEq, Repr

namespace ReadReducer

/-- The constructor: a local entry is the first vote. -/
def start (r total : Nat) (localEntry : Option VersionedEntry) : ReadReducer :=
  match localEntry with
  | some e => { r := r, pending := total, acks := 1, best := stampOf e, bestEntry := some e }
  | none => { r := r, pending := total }

variable (q : ReadReducer)

/-- Fold one answer; `none` is a transport error. -/
def noteRemote (clk : ClockReading) (answer : Option Response) (active : Bool) :
    ReadReducer :=
  if active = false then q
  else
    let q := { q with pending := q.pending - 1 }
    match answer with
    | none => q
    | some res =>
      if res.status = .ok ∧ res.version ≠ 0 then
        let q := { q with acks := q.acks + 1 }
        if lwwWinsOver res.vote q.best then
          { q with needsRepair := true, best := res.vote, bestEntry := some (votedEntry clk res) }
        else if compareLww res.vote q.best ≠ .equal then { q with needsRepair := true }
        else q
      else if res.status = .notFound then { q with needsRepair := true }
      else q

def shouldFire : Bool := decide (q.r ≤ q.acks) || decide (q.pending = 0)

def outcome : Except Errc VersionedEntry :=
  match q.bestEntry with
  | some e => .ok e
  | none => .error .notFound

/-- The winner and the stamp it is compared by agree. -/
structure Wf : Prop where
  winner : ∀ e, q.bestEntry = some e → stampOf e = q.best
  noWinner : q.bestEntry = none → q.best = {}

def Covers (s : LwwStamp) : Prop := ∃ e, q.bestEntry = some e ∧ s ≤ stampOf e

instance (s : LwwStamp) : Decidable (q.Covers s) :=
  match h : q.bestEntry with
  | some e => decidable_of_iff (s ≤ stampOf e) (by simp [Covers, h])
  | none => .isFalse (by simp [Covers, h])

variable {q : ReadReducer} {clk : ClockReading} {s : LwwStamp}

theorem wf_start (r total : Nat) (localEntry : Option VersionedEntry) :
    (start r total localEntry).Wf := by
  cases localEntry with
  | none => exact ⟨fun e h => (by cases h), fun _ => rfl⟩
  | some e => exact ⟨fun e' h => (by cases h; rfl), fun h => (by cases h)⟩

theorem bestEntry_start (r total : Nat) (localEntry : Option VersionedEntry) :
    (start r total localEntry).bestEntry = localEntry := by
  cases localEntry <;> rfl

theorem acks_start_le (r total : Nat) (localEntry : Option VersionedEntry) :
    (start r total localEntry).acks ≤ 1 := by
  cases localEntry
  · exact Nat.zero_le 1
  · exact le_rfl

variable (q)

variable (clk)

variable (answer : Option Response)

@[simp] theorem noteRemote_inactive : q.noteRemote clk answer false = q := rfl

theorem noteRemote_cases :
    ((q.noteRemote clk answer true).best = q.best ∧
      (q.noteRemote clk answer true).bestEntry = q.bestEntry ∧
      ∀ res, answer = some res → res.status = .ok → res.version ≠ 0 → res.vote ≤ q.best) ∨
    ∃ res, answer = some res ∧ res.status = .ok ∧ res.version ≠ 0 ∧ q.best < res.vote ∧
      (q.noteRemote clk answer true).best = res.vote ∧
      (q.noteRemote clk answer true).bestEntry = some (votedEntry clk res) := by
  cases answer with
  | none => exact .inl ⟨rfl, rfl, fun res h => by cases h⟩
  | some res =>
    simp only [noteRemote, Bool.true_eq_false, if_false]
    split
    · rename_i hok
      split
      · rename_i hwins
        exact .inr ⟨res, rfl, hok.1, hok.2, lwwWinsOver_iff.mp hwins, rfl, rfl⟩
      · rename_i hwins
        have hle : res.vote ≤ q.best := by
          rw [lwwWinsOver_iff] at hwins
          exact not_lt.mp hwins
        split <;> exact .inl ⟨rfl, rfl, fun _ h _ _ => by cases h; exact hle⟩
    · rename_i hok
      split <;> exact .inl ⟨rfl, rfl, fun _ h h1 h2 => by cases h; exact absurd ⟨h1, h2⟩ hok⟩

theorem noteRemote_counts :
    (q.noteRemote clk answer true).r = q.r ∧
    (q.noteRemote clk answer true).pending = q.pending - 1 ∧
    (q.noteRemote clk answer true).acks ≤ q.acks + answer.toList.length := by
  cases answer with
  | none => exact ⟨rfl, rfl, le_rfl⟩
  | some res =>
    simp only [noteRemote, Bool.true_eq_false, if_false, Option.toList_some, List.length_singleton]
    split
    · split
      · exact ⟨rfl, rfl, le_rfl⟩
      · split <;> exact ⟨rfl, rfl, le_rfl⟩
    · split <;> exact ⟨rfl, rfl, Nat.le_succ _⟩

variable {clk}

variable {q}

theorem Wf.noteRemote (h : q.Wf) {answer : Option Response}
    (hv : ∀ res, answer = some res → res.status = .ok → res.version.toNat < 2 ^ 62) :
    (q.noteRemote clk answer true).Wf := by
  rcases noteRemote_cases q clk answer with ⟨hbest, hentry, -⟩ |
    ⟨res, hres, hok, -, -, hbest, hentry⟩
  · exact ⟨fun e he => by rw [hbest]; exact h.winner e (hentry ▸ he),
      fun he => by rw [hbest]; exact h.noWinner (hentry ▸ he)⟩
  · refine ⟨fun e he => ?_, fun he => by rw [hentry] at he; cases he⟩
    rw [hentry] at he
    cases he
    rw [hbest, stampOf_votedEntry clk (hv res hres hok)]

theorem Covers.noteRemote (hc : q.Covers s) (h : q.Wf) {answer : Option Response}
    (hv : ∀ res, answer = some res → res.status = .ok → res.version.toNat < 2 ^ 62) :
    (q.noteRemote clk answer true).Covers s := by
  obtain ⟨e, he, hle⟩ := hc
  rcases noteRemote_cases q clk answer with ⟨-, hentry, -⟩ | ⟨res, hres, hok, -, hlt, -, hentry⟩
  · exact ⟨e, hentry.trans he, hle⟩
  · refine ⟨_, hentry, ?_⟩
    rw [stampOf_votedEntry clk (hv res hres hok)]
    exact hle.trans (h.winner e he ▸ hlt.le)

theorem covers_vote (h : q.Wf) {res : Response} (hv : res.version.toNat < 2 ^ 62)
    (hok : res.status = .ok) (hne : res.version ≠ 0) :
    (q.noteRemote clk (some res) true).Covers res.vote := by
  rcases noteRemote_cases q clk (some res) with ⟨-, hentry, hle⟩ | ⟨res', hres, -, -, -, -, hentry⟩
  · have hle := hle res rfl hok hne
    cases hb : q.bestEntry with
    | some e => exact ⟨e, hentry.trans hb, (h.winner e hb).symm ▸ hle⟩
    | none =>
      -- without a winner the comparison is with the zero stamp, which no vote loses to
      rw [h.noWinner hb] at hle
      refine absurd hle (not_le.mpr (LwwStamp.lt_iff.mpr (.inl ?_)))
      exact UInt64.pos_iff_ne_zero.mpr hne
  · cases hres
    exact ⟨_, hentry, (stampOf_votedEntry clk hv).ge⟩

end ReadReducer

end Cinder
