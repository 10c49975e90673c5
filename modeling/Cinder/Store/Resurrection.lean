/-
Recovery of a store with deadlines: which write of a key comes back.

Recovery skips a record whose deadline has passed BEFORE it compares stamps, in the snapshot and
in the log separately. A write that has expired therefore no longer shields the key from the
older writes that are still in the files.
-/
import Cinder.Store.CrashConsistency

namespace Cinder

open Transition List Function PersistState LwwLog

variable {n : Nat}

/-! ## 1. Records that have not expired -/

/-- The records of the directory that recovery does not skip, in its order. -/
def Disk.unexpiredRecs (d : Disk) (clk : ClockReading) : List (LwwLog.Rec Key Reg) :=
  (d.snapshotEntries.filter fun se => !se.expired clk).map SnapshotEntry.toRec ++
    (d.logRecords.filter fun we => !we.expired clk).map WalEntry.toRec

theorem regs_recover_mapOf {d : Disk} (h : d.Versioned) (clk : ClockReading) :
    (d.recover clk).regs = mapOf (d.unexpiredRecs clk) := by
  rw [regs_recover h, Disk.unexpiredRecs, mapOf, replay_append]
  rfl

def WalEntry.stamp (we : WalEntry) : LwwStamp := ⟨we.version, we.writerNodeHash, we.isTombstone⟩

theorem WalEntry.toRec_of_set {we : WalEntry} (h : we.op = .set) :
    we.toRec = (we.key, some (we.stamp, we.value)) := by
  simp only [WalEntry.toRec, h, WalEntry.stamp]

variable {k : Key} {s : PersistState n} {ev : PersistEvent} {cfg : PersistConfig}

theorem regs_recover_newest {d : Disk} (h : d.Versioned) {clk : ClockReading}
    (hset : ∀ we ∈ d.logRecords, we.op = .set) {r : Reg} (hr : (d.recover clk).regs k = some r) :
    (k, some r) ∈ d.unexpiredRecs clk ∧ ∀ r', (k, some r') ∈ d.unexpiredRecs clk → r'.1 ≤ r.1 := by
  rw [regs_recover_mapOf h, mapOf_apply] at hr
  have hnone : none ∉ opsOf k (d.unexpiredRecs clk) := by
    intro hmem
    rcases mem_append.mp (mem_opsOf.mp hmem) with hmem | hmem
    · obtain ⟨se, -, hse⟩ := mem_map.mp hmem
      cases hse
    · obtain ⟨we, hwe, heq⟩ := mem_map.mp hmem
      rw [WalEntry.toRec_of_set (hset we (mem_filter.mp hwe).1)] at heq
      cases heq
  obtain ⟨hmem, -, hmax⟩ := fold_newest Prod.fst hnone hr
  refine ⟨mem_opsOf.mp (hmem.resolve_left nofun), fun r' hr' => ?_⟩
  exact hmax r' (mem_opsOf.mpr hr')

/-! ## 2. The last accepted write -/

def lastWrite (hist : List WalEntry) (k : Key) : Option WalEntry :=
  (hist.filter fun we => we.key = k).getLast?

theorem lastWrite_append (a b : List WalEntry) (k : Key) :
    lastWrite (a ++ b) k = (lastWrite b k).or (lastWrite a k) := by
  rw [lastWrite, filter_append, getLast?_append]
  rfl

theorem mem_of_lastWrite {hist : List WalEntry} {w : WalEntry} (h : lastWrite hist k = some w) :
    w ∈ hist ∧ w.key = k := by
  have hw := mem_filter.mp (mem_of_getLast? h)
  exact ⟨hw.1, of_decide_eq_true hw.2⟩

theorem lastWrite_eq_none {hist : List WalEntry} :
    lastWrite hist k = none ↔ ∀ we ∈ hist, we.key ≠ k := by
  rw [lastWrite, getLast?_eq_none_iff, filter_eq_nil_iff]
  simp

/-- The store holds the last write of a key, or expiry has dropped it. -/
def lastView : View := fun hist k v => v = none ∨ ∃ w, lastWrite hist k = some w ∧ v = w.toRec.2

/-- The history of a store without hard removes. -/
structure WritesInv (s : PersistState n) : Prop where
  mem : ∀ k, lastView s.hist k (s.mem.regs k)
  writes : ∀ we ∈ s.hist, we.op = .set
  versioned : ∀ we ∈ s.hist, we.Versioned

theorem WritesInv.onWrite (h : WritesInv s) (key : Key) (e : VersionedEntry) (clk : ClockReading) :
    WritesInv ({ s with mem := s.mem.insert key e }.onWrite (walRecord clk key e)) where
  mem := by
    intro k
    show lastView (s.hist ++ [walRecord clk key e]) k (Table.regs (s.mem.insert key e) k)
    rw [regs_insert]
    by_cases hk : k = key
    · subst hk
      refine .inr ⟨walRecord clk k e, ?_, by rw [update_self]; rfl⟩
      rw [lastWrite_append]
      simp [lastWrite, walRecord]
    · rw [update_of_ne hk]
      rcases h.mem k with hnone | ⟨w, hw, heq⟩
      · exact .inl hnone
      · refine .inr ⟨w, ?_, heq⟩
        have hother : lastWrite [walRecord clk key e] k = none :=
          lastWrite_eq_none.mpr fun we hwe => by
            rw [mem_singleton.mp hwe]
            exact fun hkey => hk hkey.symm
        rw [lastWrite_append, hother]
        exact hw
  writes := by
    intro we hwe
    rcases mem_append.mp hwe with hwe | hwe
    · exact h.writes we hwe
    · rw [mem_singleton.mp hwe]
      rfl
  versioned := by
    intro we hwe
    rcases mem_append.mp hwe with hwe | hwe
    · exact h.versioned we hwe
    · rw [mem_singleton.mp hwe]
      exact versioned_walRecord clk key e

theorem writesInv_put (h : WritesInv s) (key : Key) (e : VersionedEntry) (clk : ClockReading) :
    WritesInv (s.put key e clk) := by
  unfold put
  split
  · split
    · exact h
    · exact h.onWrite key e clk
  · exact h.onWrite key e clk

theorem WritesInv.erase (h : WritesInv s) (key : Key) :
    WritesInv { s with mem := s.mem.erase key } := by
  refine ⟨fun k => ?_, h.writes, h.versioned⟩
  rw [regs_erase]
  by_cases hk : k = key
  · subst hk
    exact .inl (by simp [applyRec])
  · rw [applyRec, update_of_ne hk]
    exact h.mem k

theorem writesInv_expire (h : WritesInv s) (key : Key) (now : Nanos) :
    WritesInv (s.expire key now) := by
  unfold expire
  split
  · split
    · exact h.erase key
    · exact h
  · exact h

/-- Versioned puts and deletes, expiry and the manager; every filesystem operation succeeds. -/
def WritesOnly : PersistEvent → Prop
  | .remove _ => False
  | ev => AllOk ev

theorem WritesOnly.allOk (h : WritesOnly ev) : AllOk ev := by
  cases ev with
  | remove => exact absurd h id
  | _ => exact h

theorem writesInv_step {s s' : PersistState cfg.numShards} (h : WritesInv s) (hok : WritesOnly ev)
    (hs : s.step cfg ev = some s') : WritesInv s' := by
  cases hev : ev.ofStore with
  | false =>
    have hm := managerStep_step hev hs
    exact ⟨by rw [hm.mem, hm.hist]; exact h.mem, by rw [hm.hist]; exact h.writes,
      by rw [hm.hist]; exact h.versioned⟩
  | true =>
    cases ev with
    | put key e clk =>
      cases hs
      exact writesInv_put h key e clk
    | remove key => exact absurd hok id
    | expire key now =>
      cases hs
      exact writesInv_expire h key now
    | _ => cases hev

theorem WritesInv.liveCopies (h : WritesInv s) (ev : PersistEvent) : LiveCopies lastView s ev := by
  have hlive : ∀ now k, lastView s.hist k (s.mem.liveRegs now k) := by
    intro now k
    unfold Table.liveRegs
    cases hl : (s.mem.lookup k).filter fun e => !e.expiredAt now with
    | none => exact .inl rfl
    | some e =>
      have hlookup : s.mem.lookup k = some e := (Option.filter_eq_some_iff.mp hl).1
      have := h.mem k
      rwa [Table.regs, hlookup] at this
  unfold LiveCopies
  split
  · split
    · exact hlive _
    · trivial
  · trivial

/-! ## 3. What is left of a key in the files -/

section Files

variable {cfg : PersistConfig} {s : PersistState cfg.numShards}

theorem Selected.only_last {covered rest : List WalEntry}
    (h : Selected cfg lastView s covered.length) (hhist : s.hist = covered ++ rest) {k : Key}
    {w : WalEntry} (hw : lastWrite s.hist k = some w) (hrest : lastWrite rest k = none)
    {op : Option Reg}
    (hop : (k, op) ∈ s.disk.snapshotEntries.map SnapshotEntry.toRec) : op = w.toRec.2 := by
  unfold Selected at h
  unfold Disk.snapshotEntries at hop
  split at h
  · rename_i hnone
    rw [hnone] at hop
    cases hop
  · rename_i es hes
    obtain ⟨ms, -, hof, hcov⟩ := h
    rw [hes] at hop
    obtain ⟨m, v, hm, hle, hops, hview⟩ := hof.copy k
    -- the copy was taken after the last write of the key
    have hcm : covered.length ≤ m := hcov.2 m (mem_of_getElem? hm)
    have hlast : lastWrite (s.hist.take m) k = some w := by
      have hlater : lastWrite (rest.take (m - covered.length)) k = none :=
        lastWrite_eq_none.mpr fun we hwe =>
          lastWrite_eq_none.mp hrest we (mem_of_mem_take hwe)
      rw [hhist, lastWrite_append, hrest] at hw
      rw [hhist, take_append, take_of_length_le hcm, lastWrite_append, hlater]
      exact hw
    have hmem := mem_opsOf.mpr hop
    simp only [Option.getD_some] at hmem
    rw [hops] at hmem
    rcases hview with rfl | ⟨w', hw', rfl⟩
    · cases hmem
    · rw [hlast] at hw'
      cases hw'
      cases hv : w.toRec.2 with
      | none =>
        rw [hv] at hmem
        cases hmem
      | some r =>
        rw [hv] at hmem
        exact mem_singleton.mp hmem

theorem last_or_only (hd : DirInv cfg lastView s) (hpend : s.pending = []) {k : Key}
    {w : WalEntry} (hw : lastWrite s.hist k = some w) :
    w ∈ s.disk.logRecords ∨ ∀ clk op, (k, op) ∈ s.disk.unexpiredRecs clk → op = w.toRec.2 := by
  obtain ⟨covered, rest, htail, hsel⟩ := hd.tail
  have hhist : s.hist = covered ++ rest := by
    rw [← htail.drained, hd.log.queue, hpend, append_nil]
  have hlog : s.disk.logRecords = rest := by rw [htail.log, nil_append]
  cases hrest : lastWrite rest k with
  | some w' =>
    rw [hhist, lastWrite_append, hrest] at hw
    cases hw
    exact .inl (hlog ▸ (mem_of_lastWrite hrest).1)
  | none =>
    refine .inr fun clk op hop => ?_
    rcases mem_append.mp hop with hop | hop
    · obtain ⟨se, hse, heq⟩ := mem_map.mp hop
      exact hsel.only_last hhist hw hrest (mem_map.mpr ⟨se, (mem_filter.mp hse).1, heq⟩)
    · -- the log has no record of the key
      obtain ⟨we, hwe, heq⟩ := mem_map.mp hop
      have hkey : we.key = k := congrArg Prod.fst heq
      have hmem := (mem_filter.mp hwe).1
      rw [hlog] at hmem
      exact absurd hkey (lastWrite_eq_none.mp hrest we hmem)

end Files

/-! ## 4. Recovery -/

/-- No record that has not expired outlives the last accepted write `w` of a key: where `w` has
expired, what is left are deletes that are not older; where `w` is a delete, what is
newer are deletes. -/
def NoneOutlives (d : Disk) (clk : ClockReading) (k : Key) (w : WalEntry) : Prop :=
  (w.expired clk = true → ∀ r : Reg, (k, some r) ∈ d.unexpiredRecs clk →
    r.1.tombstone = true ∧ w.stamp ≤ r.1) ∧
  (w.isTombstone = true → ∀ r : Reg, (k, some r) ∈ d.unexpiredRecs clk →
    w.stamp < r.1 → r.1.tombstone = true)

/-- What a restart leaves of a key is not older than its last accepted write `w`, and a key
whose last write was a delete or has expired reads as absent. -/
def NotResurrected (t : Table) (clk : ClockReading) (k : Key) (w : WalEntry) : Prop :=
  (∀ e, t.lookup k = some e → w.stamp ≤ stampOf e) ∧
    (w.isTombstone = true ∨ w.expired clk = true → t.read k clk.now = none)

theorem read_eq_none_of_tombstone {t : Table} {now : Nanos}
    (h : ∀ e, t.lookup k = some e → (stampOf e).tombstone = true) : t.read k now = none := by
  unfold Table.read
  split
  · rename_i e he
    exact if_pos (.inr (h e he))
  · rfl

theorem notResurrected_of_dirInv {s : PersistState cfg.numShards} (hw : WritesInv s)
    (hd : DirInv cfg lastView s) (hpend : s.pending = []) {clk : ClockReading} {w : WalEntry}
    (hlast : lastWrite s.hist k = some w) (hnone : NoneOutlives s.disk clk k w) :
    NotResurrected (s.disk.recover clk) clk k w := by
  obtain ⟨hwmem, hwkey⟩ := mem_of_lastWrite hlast
  have hwrec := WalEntry.toRec_of_set (hw.writes w hwmem)
  have hversioned : s.disk.Versioned := by
    obtain ⟨covered, rest, htail, hsel⟩ := hd.tail
    exact ⟨htail.versioned hd.log.queue hw.versioned, hsel.versioned⟩
  have hset : ∀ we ∈ s.disk.logRecords, we.op = .set := by
    obtain ⟨covered, rest, htail, -⟩ := hd.tail
    intro we hwe
    apply hw.writes
    rw [htail.log, nil_append] at hwe
    rw [hd.log.queue, htail.drained]
    exact mem_append_left _ (mem_append_right _ hwe)
  -- what recovery leaves is the newest unexpired record
  have hnewest : ∀ e, (s.disk.recover clk).lookup k = some e →
      (k, some (regOf e)) ∈ s.disk.unexpiredRecs clk ∧
        ∀ r, (k, some r) ∈ s.disk.unexpiredRecs clk → r.1 ≤ stampOf e := by
    intro e he
    exact regs_recover_newest hversioned hset (regs_of_lookup he)
  have hle : ∀ e, (s.disk.recover clk).lookup k = some e → w.stamp ≤ stampOf e := by
    intro e he
    obtain ⟨hmem, hmax⟩ := hnewest e he
    cases hx : w.expired clk with
    | true => exact (hnone.1 hx _ hmem).2
    | false =>
      rcases last_or_only hd hpend hlast with hlog | honly
      · refine hmax (w.stamp, w.value) (mem_append_right _ (mem_map.mpr ⟨w, ?_, ?_⟩))
        · exact mem_filter.mpr ⟨hlog, by rw [hx]; rfl⟩
        · rw [hwrec, hwkey]
      · have heq := honly clk _ hmem
        rw [hwrec] at heq
        injection heq with heq
        exact le_of_eq (congrArg Prod.fst heq).symm
  refine ⟨hle, fun hgone => read_eq_none_of_tombstone fun e he => ?_⟩
  obtain ⟨hmem, -⟩ := hnewest e he
  rcases hgone with htomb | hx
  · rcases lt_or_eq_of_le (hle e he) with hlt | heq
    · exact hnone.2 htomb _ hmem hlt
    · rw [← heq]
      exact htomb
  · exact (hnone.1 hx _ hmem).1

/-- What carries recovery along a run without hard removes. -/
structure WritesRunInv (cfg : PersistConfig) (s : PersistState cfg.numShards) : Prop where
  writes : WritesInv s
  dir : DirInv cfg lastView s

theorem WritesRunInv.erase {s : PersistState cfg.numShards} (h : WritesRunInv cfg s) (key : Key) :
    WritesRunInv cfg { s with mem := s.mem.erase key } where
  writes := h.writes.erase key
  dir := h.dir.storeStep ⟨rfl, rfl, rfl, rfl, rfl, rfl, [], by simp⟩

instance (ev : PersistEvent) : Decidable (WritesOnly ev) := by
  unfold WritesOnly
  split <;> infer_instance

/-! ## 5. Stores of limited capacity -/

/-- A store, with the last accepted write of each key and whether it outlived its own call. -/
structure CappedState (cfg : PersistConfig) where
  state : PersistState cfg.numShards
  last : Key → Option (WalEntry × Bool) := fun _ => none

inductive CappedEvent where
  /-- an event that evicts nothing -/
  | stored (ev : PersistEvent)
  /-- a capacity eviction, which writes no record -/
  | evict (key : Key)
  /-- a write that is accepted and evicted in the same call, before its record is written -/
  | putEvicted (key : Key) (entry : VersionedEntry) (clk : ClockReading)

namespace CappedState

variable {c c' : CappedState cfg} {ev : CappedEvent}

def step (c : CappedState cfg) : CappedEvent → Option (CappedState cfg)
  | .stored ev => (c.state.step cfg ev).map fun s =>
    ⟨s, fun k => ((lastWrite (s.hist.drop c.state.hist.length) k).map (·, true)).or (c.last k)⟩
  | .evict key => some { c with state := { c.state with mem := c.state.mem.erase key } }
  | .putEvicted key entry clk =>
    if (c.state.mem.lookup key).any fun entry0 =>
        compareLww (stampOf entry) (stampOf entry0) = .less then some c
    else some ⟨{ c.state with mem := c.state.mem.erase key },
      update c.last key (some (walRecord clk key entry, false))⟩

def WritesOnly : CappedEvent → Prop
  | .stored ev => Cinder.WritesOnly ev
  | .evict _ | .putEvicted _ _ _ => True

instance : (ev : CappedEvent) → Decidable (WritesOnly ev)
  | .stored ev => inferInstanceAs (Decidable (Cinder.WritesOnly ev))
  | .evict _ | .putEvicted _ _ _ => .isTrue trivial

structure Inv (c : CappedState cfg) : Prop where
  run : WritesRunInv cfg c.state
  logged : ∀ k w, c.last k = some (w, true) → lastWrite c.state.hist k = some w

theorem Inv.step (h : c.Inv) (hok : WritesOnly ev) (hs : c.step ev = some c') : c'.Inv := by
  cases ev with
  | stored ev =>
    obtain ⟨s, hstep, rfl⟩ := Option.map_eq_some_iff.mp hs
    obtain ⟨rs, hhist⟩ :=
      (logEffect_step h.run.dir.log.files hok.allOk.keepsNames hstep).hist_append
    have hdir := dirInv_step h.run.dir hok.allOk (h.run.writes.liveCopies ev) hstep
    refine ⟨⟨writesInv_step h.run.writes hok hstep, hdir⟩, fun k w hlast => ?_⟩
    dsimp only at hlast ⊢
    rw [hhist, drop_left] at hlast
    rw [hhist, lastWrite_append]
    -- the step has written the key last, or it has not written it
    cases hnew : lastWrite rs k with
    | some w' =>
      rw [hnew] at hlast
      cases hlast
      rfl
    | none =>
      rw [hnew] at hlast
      exact h.logged k w hlast
  | evict key =>
    cases hs
    exact ⟨h.run.erase key, h.logged⟩
  | putEvicted key entry clk =>
    dsimp only [CappedState.step] at hs
    split at hs
    · cases hs
      exact h
    · cases hs
      refine ⟨h.run.erase key, fun k w hlast => h.logged k w ?_⟩
      by_cases hk : k = key
      · subst hk
        simp at hlast
      · dsimp only at hlast
        rwa [update_of_ne hk] at hlast

end CappedState

/-- **Recovery does not go back behind the last accepted write** of a key, whatever has been
evicted, in every state with nothing queued, for every write that has outlived its own call and
every restart at which no record outlives that write. -/
theorem recover_not_older (cfg : PersistConfig) (c : CappedState cfg)
    (h : Reaches CappedState.step (fun _ ev => CappedState.WritesOnly ev)
      ⟨.start cfg, fun _ => none⟩ c)
    (hpend : c.state.pending = []) (clk : ClockReading) (k : Key) (w : WalEntry)
    (hlast : c.last k = some (w, true)) (hnone : NoneOutlives c.state.disk clk k w) :
    NotResurrected (c.state.disk.recover clk) clk k w := by
  have hinv : c.Inv := h.invariant
    ⟨⟨⟨fun _ => .inl rfl, nofun, nofun⟩, dirInv_start cfg lastView⟩, nofun⟩
    fun _ _ _ hi hok hs => hi.step hok hs
  exact notResurrected_of_dirInv hinv.run.writes hinv.run.dir hpend (hinv.logged k w hlast) hnone

/-- A write without deadline, and one that is good for ten milliseconds. -/
def lasting : VersionedEntry := { versionAndTtl := 4, value := [7] }

def tenMillis : VersionedEntry := { versionAndTtl := 9, expiresAt := 10000000, value := [8] }

def later : ClockReading := { now := 20000000, nowSystem := 20000000 }

/-- A compaction between the two writes' deadlines leaves the second one only: after a restart
behind its deadline the key is gone. -/
theorem recover_not_older_compacted :
    ∃ c : CappedState sealAlways, Reaches CappedState.step (fun _ ev => CappedState.WritesOnly ev)
        ⟨.start sealAlways, fun _ => none⟩ c ∧
      c.state.pending = [] ∧ c.last [1] = some (walRecord {} [1] tenMillis, true) ∧
      NoneOutlives c.state.disk later [1] (walRecord {} [1] tenMillis) ∧
      NotResurrected (c.state.disk.recover later) later [1] (walRecord {} [1] tenMillis) := by
  obtain ⟨c, hreach, hp⟩ := exists_reaches_of_exec CappedState.step
    (fun _ ev => CappedState.WritesOnly ev) ⟨.start sealAlways, fun _ => none⟩
    ([.stored (.put [1] lasting {}), .evict [1], .stored (.put [1] tenMillis {}),
      .stored .compact] ++ [0, 0, 7, 0, 0, 0, 0].map fun count => .stored (.fs .ok {} count))
    (fun c => c.state.pending = [] ∧ c.last [1] = some (walRecord {} [1] tenMillis, true) ∧
      (c.state.disk.unexpiredRecs later).isEmpty) rfl
  obtain ⟨hpend, hlast, hempty⟩ := of_decide_eq_true hp
  have hnone : NoneOutlives c.state.disk later [1] (walRecord {} [1] tenMillis) := by
    rw [NoneOutlives, isEmpty_iff.mp hempty]
    exact ⟨fun _ _ hr => (not_mem_nil hr).elim, fun _ _ hr => (not_mem_nil hr).elim⟩
  exact ⟨c, hreach, hpend, hlast, hnone,
    recover_not_older sealAlways c hreach hpend later [1] _ hlast hnone⟩

/-- After some run the last accepted write of a key has version 2, and a restart leaves version
1. -/
def UncoversOlder (clk : ClockReading) (outlived : Bool) : Prop :=
  ∃ c : CappedState sealAlways, Reaches CappedState.step (fun _ ev => CappedState.WritesOnly ev)
      ⟨.start sealAlways, fun _ => none⟩ c ∧
    c.state.pending = [] ∧ c.last [1] = some (walRecord {} [1] tenMillis, outlived) ∧
    (c.state.disk.recover clk).read [1] clk.now = some [7] ∧
    ¬ NotResurrected (c.state.disk.recover clk) clk [1] (walRecord {} [1] tenMillis)

theorem uncoversOlder_of_exec {clk : ClockReading} {outlived : Bool} (evs : List CappedEvent)
    (h : (exec CappedState.step (fun _ ev => CappedState.WritesOnly ev)
      (⟨.start sealAlways, fun _ => none⟩ : CappedState sealAlways) evs).any (fun c =>
        c.state.pending = [] ∧ c.last [1] = some (walRecord {} [1] tenMillis, outlived) ∧
        (c.state.disk.recover clk).read [1] clk.now = some [7] ∧
        (c.state.disk.recover clk).lookup [1] = some lasting) = true) :
    UncoversOlder clk outlived := by
  obtain ⟨c, hreach, hp⟩ := exists_reaches_of_exec CappedState.step
    (fun _ ev => CappedState.WritesOnly ev) ⟨.start sealAlways, fun _ => none⟩ evs _ h
  obtain ⟨hpend, hlast, hread, hlookup⟩ := of_decide_eq_true hp
  refine ⟨c, hreach, hpend, hlast, hread, fun hnot => ?_⟩
  exact absurd (hnot.1 lasting hlookup) (by decide)

/-- Both writes are in the log, and behind the second one's deadline the first one is back. It also
is if the second one is evicted in its own call, which leaves no record of it. -/
theorem expired_write_uncovers_older : UncoversOlder later true ∧ UncoversOlder {} false :=
  ⟨uncoversOlder_of_exec [.stored (.put [1] lasting {}), .stored (.put [1] tenMillis {}),
      .stored (.flush false)] rfl,
    uncoversOlder_of_exec [.stored (.put [1] lasting {}), .putEvicted [1] tenMillis {},
      .stored (.flush false)] rfl⟩

end Cinder
