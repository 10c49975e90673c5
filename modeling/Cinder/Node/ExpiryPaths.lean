/-
A deadline on its way between processes: every path sends or stores it in whole
milliseconds of wall-clock time and turns it back into a time of the steady clock.

In one process the two clocks differ by a constant, the offset. Wall clocks are not before 1970.
A conversion reads both clocks, one after the other; what is said of chains holds if it reads them
at one instant.
-/
import Cinder.Net.Codec
import Cinder.Node.HintRecovery
import Cinder.Node.Replication
import Cinder.Node.SyncCodec

namespace Cinder

open Decoding Net VersionedEntry UInt64 List Option

/-! ## 1. The paths -/

/-- The field `expires_at` of a frame, written and read. -/
def onWire (t : Nanos) : Option Nanos := (readExpiry ⟨beBytes 8 (millisOf t).toNat, 0⟩).1.toOption

/-- A request as it is sent, and the entry the replica makes of it. -/
def Request.carried (req : Request) (clk : ClockReading) (gc : Nanos) :
    Option (List UInt64 × VersionedEntry) := do
  let t ← req.expiresAt
  let t' ← onWire t
  some ([millisOf t], replicatedEntry clk gc { req with expiresAt := some t' })

/-- `replicate` is also the way of a repair and of a hint that stays in memory. -/
inductive ExpiryPath where
  | replicate | vote | sync | journal | wal | snapshot
  deriving DecidableEq, Repr

/-- What a path sends or stores of the deadline of an entry, and the entry at its end. The clocks
are read where it starts and where it ends. -/
def ExpiryPath.carry (p : ExpiryPath) (clk clk' : ClockReading) (gc : Nanos) (key : Key)
    (e : VersionedEntry) : Option (List UInt64 × VersionedEntry) :=
  match p with
  | .replicate => (entryRequest clk key e).carried clk' gc
  | .vote => do
    let res := getVersionedResponse clk none (some e)
    let t ← res.expiresAt
    let t' ← onWire t
    some ([millisOf t], votedEntry clk' { res with expiresAt := some t' })
  | .sync =>
    let w := SyncEntry.toWire clk key e
    some ([w.expiresMs], w.ofWire clk')
  | .journal => do
    -- what else the record says of the hint does not matter to the entry
    let r := addRecord ⟨[], entryRequest clk key e, 0⟩ 0
    let (sent, e') ← (r.hint 0).req.carried clk' gc
    some (r.entryExpiryMs :: sent, e')
  | .wal =>
    let we := walRecord clk key e
    (versionedFromWal clk' we).map fun e' => ([we.expiresAtMs], e')
  | .snapshot =>
    let se := toSnapshotEntry clk key e
    (versionedFromSnapshot clk' se).map fun e' => ([se.expiresAtMs], e')

/-! ## 2. No drift -/

/-- A process with this offset stops serving the entry within this millisecond. -/
structure Due (offset : Int) (ms : Nat) (e : VersionedEntry) : Prop where
  ttl : e.hasTtl = true
  reached : (ms * 1000000 : Int) ≤ e.expiresAt + offset
  passed : e.expiresAt + offset < (ms * 1000000 : Int) + 1000000

/-- Both clocks of a process with this offset, read at one instant. -/
structure ClockOf (offset : Int) (clk : ClockReading) : Prop where
  offset : clk.nowSystem = clk.now + offset
  wall : (0 : Int) ≤ clk.nowSystem
  fits : clk.nowSystem < (2 ^ 63 : Int)

variable {offset now nowSystem t : Int} {ms : Nat} {e : VersionedEntry} {clk : ClockReading}

section

variable (h : nowSystem = now + offset)

include h

theorem wall_of_steady : nowSystem + (t - now) = t + offset := by omega

theorem steady_of_wall : now + (t - nowSystem) + offset = t := by omega

theorem wall_of_left {n : Nat} (hn : n ≤ ms)
    (hge : (n * 1000000 : Int) ≤ nowSystem) (hlt : nowSystem < (n * 1000000 : Int) + 1000000) :
    (ms * 1000000 : Int) ≤ now + ((ms - n : Nat) : Int) * 1000000 + offset ∧
      now + ((ms - n : Nat) : Int) * 1000000 + offset < (ms * 1000000 : Int) + 1000000 := by
  omega

end

theorem millisOf_eq (hms : ms ≤ kMaxMs) (hge : (ms * 1000000 : Int) ≤ t)
    (hlt : t < (ms * 1000000 : Int) + 1000000) : millisOf t = UInt64.ofNat ms := by
  have hmax : kMaxMs < 2 ^ 63 := by decide
  have hdiv : t.tdiv 1000000 = ms := by
    rw [Int.tdiv_eq_ediv_of_nonneg (by omega)]
    omega
  have hmod : ((ms : Int) % 2 ^ 64).toNat = ms := by omega
  rw [millisOf, hdiv, hmod]

theorem Due.millis (h : Due offset ms e) (hms : ms ≤ kMaxMs) (hclk : ClockOf offset clk) :
    millisOf (toSystemExpiry clk e.expiresAt) = UInt64.ofNat ms := by
  have hwall : toSystemExpiry clk e.expiresAt = e.expiresAt + offset := wall_of_steady hclk.offset
  rw [hwall]
  exact millisOf_eq hms h.reached h.passed

theorem due_toSteadyExpiry (hclk : ClockOf offset clk) (ht : e.hasTtl = true)
    (he : e.expiresAt = toSteadyExpiry clk (ms * 1000000 : Int)) : Due offset ms e := by
  have hwall : e.expiresAt + offset = (ms * 1000000 : Int) := by
    rw [he]
    exact steady_of_wall hclk.offset
  exact ⟨ht, hwall.ge, hwall.trans_lt (Int.lt_add_of_pos_right _ (by decide))⟩

theorem onWire_eq (hms : ms ≤ kMaxMs) (ht : millisOf t = UInt64.ofNat ms) :
    onWire t = some (ms * 1000000 : Int) := by
  have hword : beBytes 8 (millisOf t).toNat = beBytes 8 (millisOf (ms * 1000000 : Int)).toNat := by
    rw [ht, millisOf_eq hms le_rfl (by omega)]
  have hread := (exact_readExpiry [] (beBytes 8 (millisOf t).toNat) (ms * 1000000 : Int) _).mpr
    ⟨_, [], (append_nil _).symm, rfl, ⟨ms, hms, rfl⟩, hword⟩
  exact congrArg (·.1.toOption) hread

theorem ClockOf.millis (h : ClockOf offset clk) : ∃ n : Nat, n ≤ kMaxMs ∧
    nowSystemMs clk = UInt64.ofNat n ∧ (n * 1000000 : Int) ≤ clk.nowSystem ∧
      clk.nowSystem < (n * 1000000 : Int) + 1000000 := by
  obtain ⟨wall, hwall⟩ : ∃ wall : Int, clk.nowSystem = wall := ⟨_, rfl⟩
  have hpos : 0 ≤ wall := hwall ▸ h.wall
  have hfits : wall < 2 ^ 63 := hwall ▸ h.fits
  have hmax : kMaxMs = (2 ^ 63 - 1) / 1000000 := rfl
  have hle : (wall / 1000000).toNat ≤ kMaxMs := by omega
  have hge : ((wall / 1000000).toNat * 1000000 : Int) ≤ wall := by omega
  have hlt : wall < ((wall / 1000000).toNat * 1000000 : Int) + 1000000 := by omega
  rw [nowSystemMs, hwall]
  exact ⟨_, hle, millisOf_eq hle hge hlt, hge, hlt⟩

theorem toNat_ofNat_of_le (h : ms ≤ kMaxMs) : (UInt64.ofNat ms).toNat = ms := by
  have hmax : kMaxMs < 2 ^ 63 := by decide
  rw [toNat_ofNat', Nat.mod_eq_of_lt (by omega)]

theorem ofNat_ne_zero (hpos : 0 < ms) (h : ms ≤ kMaxMs) : UInt64.ofNat ms ≠ 0 := by
  intro h0
  have hnat := congrArg toNat h0
  rw [toNat_ofNat_of_le h] at hnat
  exact hpos.ne' hnat

theorem due_rebaseExpiry {ve : VersionedEntry} (hclk : ClockOf offset clk) (hpos : 0 < ms)
    (hms : ms ≤ kMaxMs) (ht : ve.hasTtl = true)
    (h : rebaseExpiry clk ve true (UInt64.ofNat ms) = some e) : Due offset ms e := by
  obtain ⟨n, hn, hnow, hge, hlt⟩ := hclk.millis
  have hnat := toNat_ofNat_of_le hms
  rw [rebaseExpiry, if_neg (by simp [ofNat_ne_zero hpos hms]), hnow] at h
  split at h
  · cases h
  · rename_i hleft
    have hltms : n < ms := by
      rwa [le_iff_toNat_le, hnat, toNat_ofNat_of_le hn, not_le] at hleft
    have hdiff : (ofNat ms - ofNat n).toNat = ms - n := by
      rw [UInt64.toNat_sub_of_le _ _ (UInt64.le_of_lt (UInt64.not_le.mp hleft)), hnat,
        toNat_ofNat_of_le hn]
    have hmax : kMaxMs < 2 ^ 63 := by decide
    simp only [hdiff] at h
    rw [if_pos (by omega), max_eq_right (by omega)] at h
    cases h
    obtain ⟨hreached, hpassed⟩ := wall_of_left hclk.offset hltms.le hge hlt
    exact ⟨ht, hreached, hpassed⟩

/-- What `carry` and `carried` say of an entry that is due: nothing but this millisecond is sent,
and the entry arrives due in it. -/
def Kept (offset : Int) (ms : Nat) (r : List UInt64 × VersionedEntry) : Prop :=
  (∀ m ∈ r.1, m = UInt64.ofNat ms) ∧ Due offset ms r.2

theorem kept_carried {req : Request} {gc : Nanos} {r : List UInt64 × VersionedEntry}
    (hms : ms ≤ kMaxMs) (hclk : ClockOf offset clk) (ht : req.expiresAt = some t)
    (hmillis : millisOf t = UInt64.ofNat ms) (h : req.carried clk gc = some r) :
    Kept offset ms r := by
  simp only [Request.carried, ht, bind_eq_bind, bind_some, onWire_eq hms hmillis, some.injEq] at h
  subst h
  refine ⟨by simp [hmillis], due_toSteadyExpiry hclk ?_ ?_⟩
  · unfold replicatedEntry
    cases req.tombstone <;> simp
  · unfold replicatedEntry
    cases req.tombstone <;> rfl

theorem ExpiryPath.kept {p : ExpiryPath} {offset' : Int} {clk' : ClockReading} {gc : Nanos}
    {key : Key} {r : List UInt64 × VersionedEntry} (hpos : 0 < ms) (hms : ms ≤ kMaxMs)
    (he : Due offset ms e) (hclk : ClockOf offset clk) (hclk' : ClockOf offset' clk')
    (h : p.carry clk clk' gc key e = some r) : Kept offset' ms r := by
  have hmillis := he.millis hms hclk
  have htime : timeOfMillis (UInt64.ofNat ms) = (ms * 1000000 : Int) := timeOfMillis_ofNat hms
  have hsent : (entryRequest clk key e).expiresAt = some (toSystemExpiry clk e.expiresAt) :=
    if_pos he.ttl
  cases p with
  | replicate => exact kept_carried hms hclk' hsent hmillis h
  | vote =>
    simp only [carry, getVersionedResponse, he.ttl, if_true, bind_eq_bind, bind_some,
      onWire_eq hms hmillis, some.injEq] at h
    subst h
    exact ⟨by simp [hmillis], due_toSteadyExpiry hclk' (hasTtl_setHasTtl _ true) rfl⟩
  | sync =>
    simp only [carry, SyncEntry.toWire, SyncEntry.ofWire, he.ttl, if_true, toSystemMs, hmillis,
      htime, some.injEq] at h
    subst h
    exact ⟨by simp, due_toSteadyExpiry hclk' (hasTtl_setHasTtl _ true) rfl⟩
  | journal =>
    have hrecord : (addRecord ⟨[], entryRequest clk key e, 0⟩ 0).entryExpiryMs =
      UInt64.ofNat ms := by
      simp only [addRecord, hsent, hmillis]
    have hhint : ((addRecord ⟨[], entryRequest clk key e, 0⟩ 0).hint 0).req.expiresAt =
        some (ms * 1000000 : Int) := by
      simp only [AddRecord.hint, AddRecord.expiry, hrecord, if_pos (ofNat_ne_zero hpos hms), htime]
    simp only [carry, bind_eq_bind, bind_eq_some_iff, some.injEq] at h
    obtain ⟨⟨sent, e'⟩, hcarried, rfl⟩ := h
    obtain ⟨hsame, hdue⟩ := kept_carried hms hclk' hhint
      (millisOf_eq hms le_rfl (Int.lt_add_of_pos_right _ (by decide))) hcarried
    exact ⟨by simpa [hrecord] using hsame, hdue⟩
  | wal =>
    obtain ⟨e', he', rfl⟩ := map_eq_some_iff.mp h
    simp only [versionedFromWal, walRecord, he.ttl, if_true, toSystemMs, hmillis] at he'
    exact ⟨by simp [walRecord, he.ttl, toSystemMs, hmillis],
      due_rebaseExpiry hclk' hpos hms (by simp) he'⟩
  | snapshot =>
    obtain ⟨e', he', rfl⟩ := map_eq_some_iff.mp h
    simp only [versionedFromSnapshot, toSnapshotEntry, he.ttl, if_true, toSystemMs, hmillis] at he'
    exact ⟨by simp [toSnapshotEntry, he.ttl, toSystemMs, hmillis],
      due_rebaseExpiry hclk' hpos hms (by simp) he'⟩

/-- What an `int64_t` holds; the clocks count nanoseconds in it. -/
def InRange (x : Int) : Prop := -2 ^ 63 ≤ x ∧ x < 2 ^ 63

/-- Where a deadline comes from: a frame, a sync entry or journal record, a log or snapshot. -/
inductive ExpirySource where
  | frame | message | disk
  deriving DecidableEq, Repr

inductive ExpirySource.Accepts : ExpirySource → UInt64 → Prop
  | request {frame tok : Bytes} {req : Request} {t : Nanos}
      (h : decode frame = .ok (req, tok)) (ht : req.expiresAt = some t) :
        Accepts .frame (millisOf t)
  | response {frame : Bytes} {res : WireResponse} {t : Nanos}
      (h : decodeResponse frame = .ok res) (ht : res.expiresAt = some t) :
      Accepts .frame (millisOf t)
  | entry {c c' : Cursor UInt8} {w : SyncEntry}
      (h : parseSingleEntry c = (.ok w, c')) (ht : w.hasTtl = true) : Accepts .message w.expiresMs
  | record {payload : Bytes} {r : AddRecord}
      (h : parseRecord payload = some (.add r)) (ht : r.entryExpiryMs ≠ 0) :
      Accepts .message r.entryExpiryMs
  | log {xxh3 : Bytes → UInt64} {r r' : WalReader} {we : WalEntry}
      (h : r.next xxh3 = (some we, r')) (ht : we.hasTtl = true) : Accepts .disk we.expiresAtMs
  | snapshot {se : SnapshotEntry} (ht : se.hasTtl = true) : Accepts .disk se.expiresAtMs

/-- The numbers the conversion to the steady clock goes through. `rebaseExpiry` casts the
difference of two unsigned numbers first. -/
def ExpirySource.steps (clk : ClockReading) (ms : UInt64) : ExpirySource → List Int
  | .disk =>
    if ms = 0 ∨ ms ≤ nowSystemMs clk then []
    else
      let left : Int := (ms - nowSystemMs clk).toNat
      [left, left * 1000000, clk.now + left * 1000000]
  | _ => [ms.toNat, ms.toNat * 1000000, ms.toNat * 1000000 - clk.nowSystem,
      toSteadyExpiry clk (ms.toNat * 1000000 : Int)]

/-- The deadlines a process with this offset can carry at this reading of its clocks. -/
def ExpirySource.Fits (offset : Int) (clk : ClockReading) (ms : UInt64) : ExpirySource → Prop
  | .frame => (ms.toNat * 1000000 : Int) < 2 ^ 63 + offset
  | .message => ms.toNat ≤ kMaxMs ∧ (ms.toNat * 1000000 : Int) < 2 ^ 63 + offset
  | .disk => (ms.toNat : Int) ≤ (nowSystemMs clk).toNat + (2 ^ 63 - 1 - clk.now) / 1000000

theorem le_kMaxMs_of_acceptable {t : Nanos} (h : Acceptable t) : (millisOf t).toNat ≤ kMaxMs := by
  obtain ⟨n, hn, rfl⟩ := h
  rw [← timeOfMillis_ofNat hn, millisOf_timeOfMillis, toNat_ofNat_of_le hn]
  exact hn

theorem ExpirySource.Accepts.guarded {ms : UInt64} (h : Accepts .frame ms) : ms.toNat ≤ kMaxMs := by
  cases h with
  | request h ht => exact le_kMaxMs_of_acceptable ((encode_of_decode h).1.expiry _ ht)
  | response h ht => exact le_kMaxMs_of_acceptable ((encode_of_decodeResponse h).1.expiry _ ht)

theorem absolute_steps_iff {n : Nat} (hnow : 0 ≤ now) (h : nowSystem = now + offset)
    (hsys : 0 ≤ nowSystem) (hsys' : nowSystem < 2 ^ 63) :
    (∀ x ∈ [(n : Int), n * 1000000, n * 1000000 - nowSystem, now + (n * 1000000 - nowSystem)],
      InRange x) ↔ n ≤ kMaxMs ∧ (n * 1000000 : Int) < 2 ^ 63 + offset := by
  have hmax : kMaxMs = (2 ^ 63 - 1) / 1000000 := rfl
  simp only [mem_cons, forall_eq_or_imp, not_mem_nil, IsEmpty.forall_iff, implies_true,
    and_true, InRange]
  omega

theorem rebase_steps_iff {n m : Nat} (hnow : 0 ≤ now) (hlt : n < m) :
    (∀ x ∈ [((m - n : Nat) : Int), (m - n : Nat) * 1000000, now + (m - n : Nat) * 1000000],
      InRange x) ↔ (m : Int) ≤ n + (2 ^ 63 - 1 - now) / 1000000 := by
  simp only [mem_cons, forall_eq_or_imp, not_mem_nil, IsEmpty.forall_iff, implies_true,
    and_true, InRange]
  omega

/-- **An accepted expiry stays in range if and only if the process can carry it.** -/
theorem accepted_expiry_in_range_iff {src : ExpirySource} {ms : UInt64} (h : src.Accepts ms)
    (hnow : (0 : Int) ≤ clk.now) (hnow' : InRange clk.now) (hclk : ClockOf offset clk) :
    (∀ x ∈ src.steps clk ms, InRange x) ↔ src.Fits offset clk ms := by
  have habs := absolute_steps_iff (n := ms.toNat) hnow hclk.offset hclk.wall hclk.fits
  cases src with
  | frame => exact habs.trans (and_iff_right h.guarded)
  | message => exact habs
  | disk =>
    unfold ExpirySource.steps ExpirySource.Fits
    by_cases hskip : ms = 0 ∨ ms ≤ nowSystemMs clk
    · -- nothing is computed, and such a deadline always fits
      have hle : ms ≤ nowSystemMs clk := hskip.elim (fun h => h ▸ UInt64.zero_le) id
      rw [if_pos hskip]
      refine iff_of_true (by simp) ?_
      have hroom := hnow'.2
      have hnat := UInt64.le_iff_toNat_le.mp hle
      omega
    · have hlt := UInt64.not_le.mp (not_or.mp hskip).2
      rw [if_neg hskip, UInt64.toNat_sub_of_le _ _ (UInt64.le_of_lt hlt)]
      exact rebase_steps_iff hnow (UInt64.lt_iff_toNat_lt.mp hlt)

theorem accepted_expiry_in_range_soon :
    ExpirySource.disk.Accepts 5 ∧
      ∀ x ∈ ExpirySource.disk.steps { now := 1, nowSystem := 1 } 5, InRange x := by
  have hse : ExpirySource.disk.Accepts ({ key := [], hasTtl := true, expiresAtMs := 5 } :
      SnapshotEntry).expiresAtMs := .snapshot rfl
  have hclk : ClockOf 0 { now := 1, nowSystem := 1 } := ⟨rfl, by decide, by decide⟩
  refine ⟨hse, (accepted_expiry_in_range_iff hse (by decide) ⟨by decide, by decide⟩ hclk).mpr ?_⟩
  show (5 : Int) ≤ (nowSystemMs { now := 1, nowSystem := 1 }).toNat + (2 ^ 63 - 1 - 1) / 1000000
  omega

/-- A sync entry with a deadline in the year 2262 overflows. -/
theorem late_sync_entry_overflows :
    ExpirySource.message.Accepts 9223372036855 ∧
      ¬ ∀ x ∈ ExpirySource.message.steps {} 9223372036855, InRange x := by
  have hparse : (parseSingleEntry ⟨replicate 20 0 ++
      [1, 0xF7, 0x5A, 0xD0, 0x7B, 0x63, 8, 0, 0, 0, 0, 0, 0], 0⟩).1 =
        .ok ⟨[], 0, 0, true, false, 9223372036855, []⟩ := by
    decide +kernel
  refine ⟨.entry (Prod.ext hparse rfl) rfl, fun h => ?_⟩
  have hsteps := (h 9223372036855000000 (by decide)).2
  omega

end Cinder
