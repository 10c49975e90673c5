/-
The contents of a store, the records persistence writes for them, and the way back
(`writeWal`, `toSnapshotEntry`, `versionedFromWal`, `versionedFromSnapshot`, `rebaseExpiry`,
the loop bodies of `recover`).

A `Table` is what the shards of a store hold, taken together: unique keys, in list order.
`Table.regs` forgets expiry: what is left of an entry is its stamp and its value, the register
of the last-writer-wins library.
-/
import Cinder.Lib.LwwLog
import Cinder.Store.Wal
import Mathlib.Data.List.AList

namespace Cinder

open VersionedEntry LwwLog Function

/-! ## 1. Contents of a store -/

abbrev Table := AList (fun _ : Key => VersionedEntry)

variable (t : Table)

/-- The last-writer-wins part of `putVersionedAt`: a strict loss is rejected, an equal stamp
is applied again. -/
def Table.putVersioned (key : Key) (entry : VersionedEntry) : Table :=
  match t.lookup key with
  | some entry0 =>
    if compareLww (stampOf entry) (stampOf entry0) = .less then t else t.insert key entry
  | none => t.insert key entry

/-- An entry a lookup would drop (`hasTtl() && expires_at <= now()`). -/
def VersionedEntry.expiredAt (e : VersionedEntry) (now : Nanos) : Bool :=
  e.hasTtl && decide (e.expiresAt ≤ now)

/-- What `get` returns: the value of an entry that is neither expired nor a tombstone. -/
def Table.read (key : Key) (now : Nanos) : Option Bytes :=
  match t.lookup key with
  | some e => if e.expiredAt now ∨ e.isTombstone then none else some e.value
  | none => none

/-! ## 2. Clocks (`include/cinder/cluster/clock.hpp`) -/

structure ClockReading where
  now : Nanos := 0
  nowSystem : Nanos := 0
  deriving DecidableEq, Repr

def toSystemExpiry (clk : ClockReading) (t : Nanos) : Nanos := clk.nowSystem + (t - clk.now)

def toSteadyExpiry (clk : ClockReading) (t : Nanos) : Nanos := clk.now + (t - clk.nowSystem)

/-- `static_cast<uint64_t>(duration_cast<milliseconds>(…).count())`. -/
def millisOf (t : Nanos) : UInt64 := UInt64.ofNat ((t.tdiv 1000000) % 2 ^ 64).toNat

/-- `system_clock::time_point(milliseconds(expires_ms))`; the count is signed. -/
def timeOfMillis (ms : UInt64) : Nanos :=
  (if ms.toNat < 2 ^ 63 then (ms.toNat : Int) else (ms.toNat : Int) - 2 ^ 64) * 1000000

def toSystemMs (clk : ClockReading) (t : Nanos) : UInt64 := millisOf (toSystemExpiry clk t)

def nowSystemMs (clk : ClockReading) : UInt64 := millisOf clk.nowSystem

theorem millisOf_timeOfMillis (ms : UInt64) : millisOf (timeOfMillis ms) = ms := by
  have hlt := ms.toNat_lt
  unfold millisOf timeOfMillis
  rw [Int.mul_tdiv_cancel _ (by decide)]
  apply UInt64.toNat_inj.mp
  rw [UInt64.toNat_ofNat']
  split <;> omega

/-! ## 3. Records -/

/-- `writeWal`: the record of the resident entry. -/
def walRecord (clk : ClockReading) (key : Key) (e : VersionedEntry) : WalEntry where
  op := .set
  key := key
  value := e.value
  version := e.version
  writerNodeHash := e.writerNodeHash
  hasTtl := e.hasTtl
  isTombstone := e.isTombstone
  expiresAtMs := if e.hasTtl then toSystemMs clk e.expiresAt else 0

/-- The record `remove` queues before it erases the resident entry. -/
def delRecord (key : Key) (e : VersionedEntry) : WalEntry where
  op := .del
  key := key
  version := e.version
  writerNodeHash := e.writerNodeHash

structure SnapshotEntry where
  key : Key
  value : Bytes := []
  version : UInt64 := 0
  writerNodeHash : UInt64 := 0
  expiresAtMs : UInt64 := 0
  hasTtl : Bool := false
  tombstone : Bool := false
  deriving DecidableEq, Repr

def toSnapshotEntry (clk : ClockReading) (key : Key) (e : VersionedEntry) : SnapshotEntry where
  key := key
  value := e.value
  version := e.version
  writerNodeHash := e.writerNodeHash
  hasTtl := e.hasTtl
  tombstone := e.isTombstone
  expiresAtMs := if e.hasTtl then toSystemMs clk e.expiresAt else 0

/-- The entry on the local steady clock, `none` when it has expired. A deadline
of `0` counts as no deadline. -/
def rebaseExpiry (clk : ClockReading) (ve : VersionedEntry) (hasTtl : Bool)
    (expiresAtMs : UInt64) : Option VersionedEntry :=
  if hasTtl = false ∨ expiresAtMs = 0 then some ve
  else if expiresAtMs ≤ nowSystemMs clk then none
  else
    -- the difference is read as a signed number and raised to one millisecond
    let diff := (expiresAtMs - nowSystemMs clk).toNat
    let remainingMs := if diff < 2 ^ 63 then max 1 diff else 1
    some { ve with expiresAt := clk.now + remainingMs * 1000000 }

def versionedFromSnapshot (clk : ClockReading) (se : SnapshotEntry) : Option VersionedEntry :=
  let ve : VersionedEntry := { value := se.value }
  let ve := { ve.setVersion se.version with writerNodeHash := se.writerNodeHash }
  let ve := (ve.setHasTtl se.hasTtl).setTombstone se.tombstone
  rebaseExpiry clk ve se.hasTtl se.expiresAtMs

def versionedFromWal (clk : ClockReading) (we : WalEntry) : Option VersionedEntry :=
  let ve : VersionedEntry := { value := we.value }
  let ve := { ve.setVersion we.version with writerNodeHash := we.writerNodeHash }
  let ve := (ve.setHasTtl we.hasTtl).setTombstone we.isTombstone
  rebaseExpiry clk ve we.hasTtl we.expiresAtMs

/-- One round of the snapshot loop of `recover`. -/
def loadEntry (clk : ClockReading) (t : Table) (se : SnapshotEntry) : Table :=
  match versionedFromSnapshot clk se with
  | none => t
  | some ve => t.putVersioned se.key ve

/-- One round of the loop of `replayWal`. -/
def replayRecord (clk : ClockReading) (t : Table) (we : WalEntry) : Table :=
  match versionedFromWal clk we with
  | none => t
  | some ve =>
    match we.op with
    | .set => t.putVersioned we.key ve
    | .del => t.erase we.key

/-! ## 4. Registers -/

/-- What an entry is once expiry is left out: its stamp and its value. -/
abbrev Reg := LwwStamp × Bytes

def regOf (e : VersionedEntry) : Reg := (stampOf e, e.value)

def Table.regs : Key → Option Reg := fun k => (t.lookup k).map regOf

def WalEntry.toRec (we : WalEntry) : LwwLog.Rec Key Reg :=
  (we.key, match we.op with
    | .set => some (⟨we.version, we.writerNodeHash, we.isTombstone⟩, we.value)
    | .del => none)

def SnapshotEntry.toRec (se : SnapshotEntry) : LwwLog.Rec Key Reg :=
  (se.key, some (⟨se.version, se.writerNodeHash, se.tombstone⟩, se.value))

@[simp] theorem toRec_walRecord (clk : ClockReading) (key : Key) (e : VersionedEntry) :
    (walRecord clk key e).toRec = (key, some (regOf e)) := rfl

variable (key : Key)

@[simp] theorem toRec_delRecord (e : VersionedEntry) : (delRecord key e).toRec = (key, none) := rfl

@[simp] theorem regs_empty : (∅ : Table).regs = fun _ => none := by
  funext k
  simp [Table.regs]

theorem regs_insert (e : VersionedEntry) :
    Table.regs (t.insert key e) = update t.regs key (some (regOf e)) := by
  funext k
  by_cases hk : k = key
  · subst hk
    simp [Table.regs]
  · simp [Table.regs, hk]

theorem regs_erase : Table.regs (t.erase key) = LwwLog.applyRec Prod.fst t.regs (key, none) := by
  funext k
  by_cases hk : k = key
  · subst hk
    simp [Table.regs, applyRec]
  · simp [Table.regs, applyRec, hk]

theorem regs_putVersioned (e : VersionedEntry) :
    (t.putVersioned key e).regs = LwwLog.applyRec Prod.fst t.regs (key, some (regOf e)) := by
  unfold Table.putVersioned
  cases hl : t.lookup key with
  | none =>
    rw [regs_insert]
    simp [applyRec, Table.regs, hl]
  | some e0 =>
    have hreg : t.regs key = some (regOf e0) := by simp [Table.regs, hl]
    simp only [compareLww_eq_less, applyRec, hreg, write]
    by_cases hlt : stampOf e < stampOf e0
    · rw [if_pos hlt, if_pos (show (regOf e).1 < (regOf e0).1 from hlt), ← hreg,
        update_eq_self]
    · rw [if_neg hlt, if_neg (show ¬ (regOf e).1 < (regOf e0).1 from hlt), regs_insert]

variable {clk : ClockReading} {ve : VersionedEntry} {we : WalEntry} {se : SnapshotEntry}

theorem rebaseExpiry_regOf {ve' : VersionedEntry} {ttl : Bool} {ms : UInt64}
    (h : rebaseExpiry clk ve ttl ms = some ve') :
    regOf ve' = regOf ve ∧ ve'.hasTtl = ve.hasTtl := by
  unfold rebaseExpiry at h
  split at h
  · cases h
    exact ⟨rfl, rfl⟩
  · split at h
    · cases h
    · cases h
      exact ⟨rfl, rfl⟩

/-- A record has been skipped by recovery exactly when its deadline has passed. -/
def expiredMs (clk : ClockReading) (hasTtl : Bool) (ms : UInt64) : Bool :=
  hasTtl && ms != 0 && decide (ms ≤ nowSystemMs clk)

theorem rebaseExpiry_eq_none {ttl : Bool} {ms : UInt64} :
    rebaseExpiry clk ve ttl ms = none ↔ expiredMs clk ttl ms = true := by
  unfold rebaseExpiry expiredMs
  cases ttl <;> by_cases hms : ms = 0 <;> by_cases hle : ms ≤ nowSystemMs clk <;> simp [hms, hle]

theorem regOf_rebuilt (value : Bytes) {v w : UInt64} (hv : v.toNat < 2 ^ 62) (ttl tomb : Bool) :
    regOf (({ ({ value } : VersionedEntry).setVersion v with writerNodeHash := w
        }.setHasTtl ttl).setTombstone tomb) = (⟨v, w, tomb⟩, value) := by
  have hversion : ({ ({ value } : VersionedEntry).setVersion v with
      writerNodeHash := w } : VersionedEntry).version = v :=
    version_setVersion { value } hv
  simp only [regOf, stampOf, version_setTombstone, version_setHasTtl,
    isTombstone_setTombstone, hversion]
  rfl

def WalEntry.expired (clk : ClockReading) (we : WalEntry) : Bool :=
  expiredMs clk we.hasTtl we.expiresAtMs

def SnapshotEntry.expired (clk : ClockReading) (se : SnapshotEntry) : Bool :=
  expiredMs clk se.hasTtl se.expiresAtMs

theorem versionedFromWal_eq_none : versionedFromWal clk we = none ↔ we.expired clk = true :=
  rebaseExpiry_eq_none

theorem versionedFromSnapshot_eq_none :
    versionedFromSnapshot clk se = none ↔ se.expired clk = true := rebaseExpiry_eq_none

variable (clk)

theorem regs_replayRecord (t : Table) (hv : we.version.toNat < 2 ^ 62) :
    (replayRecord clk t we).regs =
      if we.expired clk then t.regs else LwwLog.applyRec Prod.fst t.regs we.toRec := by
  unfold replayRecord
  cases h : versionedFromWal clk we with
  | none => rw [if_pos (versionedFromWal_eq_none.mp h)]
  | some ve =>
    have hne : ¬ we.expired clk = true := fun hx => by
      rw [versionedFromWal_eq_none.mpr hx] at h
      cases h
    rw [if_neg hne]
    cases hop : we.op with
    | set =>
      have hreg := (rebaseExpiry_regOf h).1.trans (regOf_rebuilt _ hv _ _)
      simp only [regs_putVersioned, hreg, WalEntry.toRec, hop]
    | del => simp only [regs_erase, WalEntry.toRec, hop]

theorem regs_loadEntry (t : Table) (hv : se.version.toNat < 2 ^ 62) :
    (loadEntry clk t se).regs =
      if se.expired clk then t.regs else LwwLog.applyRec Prod.fst t.regs se.toRec := by
  unfold loadEntry
  cases h : versionedFromSnapshot clk se with
  | none => rw [if_pos (versionedFromSnapshot_eq_none.mp h)]
  | some ve =>
    have hne : ¬ se.expired clk = true := fun hx => by
      rw [versionedFromSnapshot_eq_none.mpr hx] at h
      cases h
    rw [if_neg hne]
    have hreg := (rebaseExpiry_regOf h).1.trans (regOf_rebuilt _ hv _ _)
    simp only [regs_putVersioned, hreg, SnapshotEntry.toRec]

/-! ## 5. Replay as a map of entries -/

/-- The operation a record is at a given clock reading; an expired record is none. -/
def WalEntry.effect (clk : ClockReading) (we : WalEntry) : Option (LwwLog.Rec Key VersionedEntry) :=
  (versionedFromWal clk we).map fun ve => (we.key, match we.op with
    | .set => some ve
    | .del => none)

theorem lookup_putVersioned_eq (e : VersionedEntry) :
    (fun k => (t.putVersioned key e).lookup k) =
      LwwLog.applyRec stampOf t.lookup (key, some e) := by
  have hinsert : (fun k => AList.lookup k (t.insert key e)) = update t.lookup key (some e) := by
    funext k
    by_cases hk : k = key
    · subst hk
      simp
    · simp [hk]
  unfold Table.putVersioned
  cases hl : t.lookup key with
  | none => simpa [applyRec, hl] using hinsert
  | some e0 =>
    simp only [compareLww_eq_less, applyRec, write, hl]
    split
    · rw [← hl, update_eq_self]
    · exact hinsert

theorem lookup_erase_eq :
    (fun k => AList.lookup k (t.erase key)) =
      LwwLog.applyRec stampOf t.lookup (key, none) := by
  funext k
  by_cases hk : k = key
  · subst hk
    simp [applyRec]
  · simp [applyRec, hk]

theorem lookup_replayRecord (t : Table) (we : WalEntry) :
    (fun k => (replayRecord clk t we).lookup k) =
      match we.effect clk with
      | none => t.lookup
      | some r => LwwLog.applyRec stampOf t.lookup r := by
  unfold replayRecord WalEntry.effect
  cases versionedFromWal clk we with
  | none => rfl
  | some ve =>
    cases we.op with
    | set => exact lookup_putVersioned_eq t we.key ve
    | del => exact lookup_erase_eq t we.key

theorem lookup_replay (t : Table) (es : List WalEntry) :
    (fun k => (es.foldl (replayRecord clk) t).lookup k) =
      LwwLog.replay stampOf t.lookup (es.filterMap (WalEntry.effect clk)) := by
  induction es generalizing t with
  | nil => rfl
  | cons we es ih =>
    rw [List.foldl_cons, ih, lookup_replayRecord]
    cases hr : we.effect clk with
    | none => rw [List.filterMap_cons_none hr]
    | some r =>
      rw [List.filterMap_cons_some hr]
      rfl

variable {clk}

end Cinder
