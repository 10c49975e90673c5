/-
Recovery after a crash at any point, when nothing expires and every filesystem
operation succeeds.
-/
import Cinder.Store.Snapshots

namespace Cinder

open Transition List PersistState LwwLog

variable {n : Nat}

/-! ## 1. The store and its records -/

/-- The store holds what the history leads to. -/
def exactView : View := fun hist k v => v = mapOf (hist.map WalEntry.toRec) k

structure HistoryInv (s : PersistState n) : Prop where
  mem : s.mem.regs = mapOf (s.hist.map WalEntry.toRec)
  accepted : ∀ k, LwwLog.Accepted Prod.fst none (LwwLog.opsOf k (s.hist.map WalEntry.toRec))
  versioned : ∀ we ∈ s.hist, we.Versioned

theorem historyInv_start (cfg : PersistConfig) : HistoryInv (PersistState.start cfg) where
  mem := rfl
  accepted := fun _ => trivial
  versioned := fun _ hwe => absurd hwe not_mem_nil

variable {s : PersistState n} {ev : PersistEvent}

theorem HistoryInv.onWrite (h : HistoryInv s) {mem : Table} {r : WalEntry}
    (hmem : mem.regs = LwwLog.applyRec Prod.fst s.mem.regs r.toRec)
    (hfresh : ∀ reg c, r.toRec.2 = some reg → s.mem.regs r.toRec.1 = some c → c.1 ≤ reg.1)
    (hv : r.Versioned) : HistoryInv ({ s with mem := mem }.onWrite r) where
  mem := by
    show mem.regs = mapOf ((s.hist ++ [r]).map WalEntry.toRec)
    rw [hmem, map_append, mapOf, replay_append, ← mapOf, ← h.mem]
    rfl
  accepted := by
    intro k
    show LwwLog.Accepted Prod.fst none (opsOf k ((s.hist ++ [r]).map WalEntry.toRec))
    rw [map_append, opsOf_append, accepted_append]
    refine ⟨h.accepted k, ?_⟩
    rw [← mapOf_apply, ← h.mem]
    by_cases hk : r.toRec.1 = k
    · subst hk
      have hops : opsOf r.toRec.1 ([r].map WalEntry.toRec) = [r.toRec.2] := opsOf_cons_self _ _ _
      rw [hops]
      cases hop : r.toRec.2 with
      | none => trivial
      | some reg => exact ⟨fun c hc => hfresh reg c hop hc, trivial⟩
    · rw [map_singleton, opsOf_cons_of_ne hk]
      trivial
  versioned := by
    intro we hwe
    rcases mem_append.mp hwe with hwe | hwe
    · exact h.versioned we hwe
    · rw [mem_singleton.mp hwe]
      exact hv

theorem regs_of_lookup {t : Table} {key : Key} {v : Option VersionedEntry}
    (h : t.lookup key = v) : t.regs key = v.map regOf := by
  rw [Table.regs, h]

theorem historyInv_put (h : HistoryInv s) (key : Key) (e : VersionedEntry) (clk : ClockReading) :
    HistoryInv (s.put key e clk) := by
  -- an accepted put writes the register
  have hput : (∀ c, s.mem.regs key = some c → c.1 ≤ stampOf e) →
      HistoryInv ({ s with mem := s.mem.insert key e }.onWrite (walRecord clk key e)) := by
    intro hle
    refine h.onWrite ?_ ?_ (versioned_walRecord clk key e)
    · rw [regs_insert, toRec_walRecord, applyRec, write_of_le]
      exact hle
    · intro reg c hreg hc
      cases hreg
      exact hle c hc
  unfold put
  split
  · rename_i e0 hl
    split
    · exact h
    · rename_i hless
      apply hput
      intro c hc
      rw [regs_of_lookup hl] at hc
      cases hc
      exact not_lt.mp (mt compareLww_eq_less.mpr hless)
  · rename_i hl
    apply hput
    intro c hc
    rw [regs_of_lookup hl] at hc
    cases hc

theorem historyInv_remove (h : HistoryInv s) (key : Key) : HistoryInv (s.remove key) := by
  unfold remove
  split
  · rename_i e hl
    refine h.onWrite ?_ ?_ e.version_lt
    · rw [regs_erase, toRec_delRecord]
    · intro reg c hreg
      cases hreg
  · exact h

/-- Nothing expires: no entry is dropped, and none is left out of a copy. -/
def NoExpiry (s : PersistState n) : PersistEvent → Prop
  | .expire _ _ => False
  | .fs _ clk _ =>
    match s.phase with
    | .capture _ (_ :: _) _ => ∀ k e, s.mem.lookup k = some e → e.expiredAt clk.now = false
    | _ => True
  | _ => True

theorem historyInv_step {cfg : PersistConfig} {s s' : PersistState cfg.numShards} (h : HistoryInv s)
    (hx : NoExpiry s ev) (hs : s.step cfg ev = some s') : HistoryInv s' := by
  cases hev : ev.ofStore with
  | false =>
    have hm := managerStep_step hev hs
    exact ⟨by rw [hm.mem, hm.hist, h.mem], by rw [hm.hist]; exact h.accepted,
      by rw [hm.hist]; exact h.versioned⟩
  | true =>
    cases ev with
    | put key e clk =>
      cases hs
      exact historyInv_put h key e clk
    | remove key =>
      cases hs
      exact historyInv_remove h key
    | expire => exact absurd hx id
    | _ => cases hev

theorem HistoryInv.liveCopies (h : HistoryInv s) (hx : NoExpiry s ev) :
    LiveCopies exactView s ev := by
  cases ev with
  | fs o clk count =>
    unfold LiveCopies
    simp only [NoExpiry] at hx
    simp only
    split
    · rename_i hp
      simp only [hp] at hx
      intro k
      rw [liveRegs_of_unexpired hx, h.mem]
      rfl
    · trivial
  | _ => trivial

/-! ## 2. What a restart finds -/

section Recovery

variable {cfg : PersistConfig} {s : PersistState cfg.numShards}

theorem Selected.snapshotMap_eq {c : Nat} (h : Selected cfg exactView s c) (k : Key) :
    ∃ m, c ≤ m ∧ snapshotMap s.disk.snapshotEntries k = mapAt s.hist m k ∧
      (m = 0 ∨ ∃ ms ∈ s.captures, ms[(cfg.shardFor k).val]? = some m) := by
  unfold Selected at h
  unfold Disk.snapshotEntries
  split at h
  · rename_i hnone
    refine ⟨0, Nat.le_of_eq h, ?_, .inl rfl⟩
    rw [hnone]
    rfl
  · rename_i es hes
    obtain ⟨ms, hms, hof, hcov⟩ := h
    obtain ⟨m, hm, -, hview⟩ := hof.copy.mapOf_eq k
    refine ⟨m, hcov.2 m (mem_of_getElem? hm), ?_, .inr ⟨ms, hms, hm⟩⟩
    rw [hes]
    exact hview

theorem Selected.versioned {view : View} {c : Nat} (h : Selected cfg view s c) :
    ∀ se ∈ s.disk.snapshotEntries, se.Versioned := by
  unfold Selected at h
  unfold Disk.snapshotEntries
  split at h
  · rename_i hnone
    rw [hnone]
    exact fun se hse => absurd hse not_mem_nil
  · rename_i es hes
    obtain ⟨ms, -, hof, -⟩ := h
    rw [hes]
    exact hof.versioned

theorem LogTail.versioned {stale covered rest : List WalEntry} (h : LogTail s stale covered rest)
    (hq : QueueInv s) (hv : ∀ we ∈ s.hist, we.Versioned) :
    ∀ we ∈ s.disk.logRecords, we.Versioned := by
  intro we hwe
  apply hv
  rw [hq, h.drained]
  rw [h.log] at hwe
  rcases mem_append.mp hwe with hwe | hwe
  · exact mem_append_left _ (mem_append_left _ (h.stale.subset hwe))
  · exact mem_append_left _ (mem_append_right _ hwe)

theorem mapAt_eq (hist : List WalEntry) (m : Nat) :
    mapAt hist m = LwwLog.replay Prod.fst noRegs ((hist.map WalEntry.toRec).take m) := by
  rw [mapAt, mapOf, map_take]

theorem recover_key (hh : HistoryInv s) (hd : DirInv cfg exactView s) {clk : ClockReading}
    (hx : s.disk.Unexpired clk) (k : Key) :
    ∃ m, (m = s.drained.length ∨ s.drained.length ≤ m ∧
        ∃ ms ∈ s.captures, ms[(cfg.shardFor k).val]? = some m) ∧
      (s.disk.recover clk).regs k = mapAt s.hist m k := by
  obtain ⟨covered, rest, htail, hsel⟩ := hd.tail
  have hhist : s.hist = covered ++ rest ++ s.pending := by
    rw [← htail.drained]
    exact hd.log.queue
  have hdrained : s.drained.length = (covered ++ rest).length := by rw [htail.drained]
  have hregs := regs_recover_of_unexpired
    ⟨htail.versioned hd.log.queue hh.versioned, hsel.versioned⟩ hx
  obtain ⟨m, hcm, hcopy, hmark⟩ := hsel.snapshotMap_eq k
  have hacc := hh.accepted k
  rw [hhist, map_append, map_append] at hacc
  have honto := replay_onto_copy Prod.fst (m := noRegs) hacc
    (show (covered.map WalEntry.toRec).length ≤ m by rw [length_map]; exact hcm)
  rw [← map_append, ← map_append, ← hhist, ← mapAt_eq] at honto
  rw [hregs, replay_apply, hcopy, htail.log, nil_append]
  rcases honto with hend | ⟨hle, hstay⟩
  · refine ⟨s.drained.length, .inl rfl, ?_⟩
    rw [hend, mapAt, hdrained, hhist, take_left]
    rfl
  · rw [length_map, ← hdrained] at hle
    refine ⟨m, ?_, hstay⟩
    rcases hmark with rfl | hmark
    · exact .inl (by omega)
    · exact .inr ⟨hle, hmark⟩

end Recovery

variable (s)

/-- Nothing expires and every filesystem operation succeeds. -/
def Undisturbed (ev : PersistEvent) : Prop := AllOk ev ∧ NoExpiry s ev

variable (cfg : PersistConfig)

/-- What carries crash consistency along a run. -/
structure UndisturbedInv (s : PersistState cfg.numShards) : Prop where
  history : HistoryInv s
  dir : DirInv cfg exactView s

/-- **Crash consistency.** In every state of every undisturbed run the store holds what its records
say, and recovery yields, for each key, the operations whose records have been drained, or those up
to the moment at which a written snapshot copied the key's shard. -/
theorem recover_after_crash (s : PersistState cfg.numShards)
    (h : Reaches (PersistState.step cfg) Undisturbed (PersistState.start cfg) s)
    (clk : ClockReading) (hx : s.disk.Unexpired clk) :
    s.mem.regs = mapAt s.hist s.hist.length ∧
      ∃ upTo : Key → Nat,
        (∀ k, upTo k = s.drained.length ∨ s.drained.length ≤ upTo k ∧
          ∃ ms ∈ s.captures, ms[(cfg.shardFor k).val]? = some (upTo k)) ∧
        (s.disk.recover clk).regs = fun k => mapAt s.hist (upTo k) k := by
  have hinv : UndisturbedInv cfg s := h.invariant
    ⟨historyInv_start cfg, dirInv_start cfg exactView⟩
    fun _ _ _ hi hu hs => ⟨historyInv_step hi.history hu.2 hs,
      dirInv_step hi.dir hu.1 (hi.history.liveCopies hu.2) hs⟩
  refine ⟨by rw [hinv.history.mem, mapAt, take_length], ?_⟩
  choose upTo hupTo hregs using recover_key hinv.history hinv.dir hx
  exact ⟨upTo, hupTo, funext hregs⟩

instance (ev : PersistEvent) : Decidable (AllOk ev) :=
  match ev with
  | .fs o _ _ => inferInstanceAs (Decidable (o = .ok))
  | .put _ _ _ | .remove _ | .expire _ _ | .flush _ | .compact | .shutdown => isTrue trivial

instance (t : Table) (now : Nanos) :
    Decidable (∀ k e, t.lookup k = some e → e.expiredAt now = false) :=
  decidable_of_iff (∀ f ∈ t.entries, f.2.expiredAt now = false)
    ⟨fun h k e hl => h ⟨k, e⟩ (AList.mem_lookup_iff.mp hl),
      fun h f hf => h f.1 f.2 (AList.mem_lookup_iff.mpr hf)⟩

def Phase.copies : Phase n → Bool
  | .capture _ (_ :: _) _ => true
  | _ => false

instance (ev : PersistEvent) : Decidable (NoExpiry s ev) :=
  match ev with
  | .expire _ _ => isFalse id
  | .fs _ clk _ =>
    decidable_of_iff
      (s.phase.copies = true → ∀ k e, s.mem.lookup k = some e → e.expiredAt clk.now = false) (by
        unfold NoExpiry Phase.copies
        split <;> simp)
  | .put _ _ _ | .remove _ | .flush _ | .compact | .shutdown => isTrue trivial

instance (ev : PersistEvent) : Decidable (Undisturbed s ev) := inferInstanceAs (Decidable (_ ∧ _))

variable {s}

/-- A crash behind the publication of a snapshot that has seen a second write of the key, of
which the log knows the first only. -/
theorem recover_after_crash_ahead_of_log :
    ∃ s, Reaches (PersistState.step sealAlways) Undisturbed (PersistState.start sealAlways) s ∧
      s.disk.Unexpired {} ∧ (s.drained.length = 1 ∧ s.captures = [[2]]) ∧
      s.mem.regs = mapAt s.hist s.hist.length ∧
      ∃ upTo : Key → Nat,
        (∀ k, upTo k = s.drained.length ∨ s.drained.length ≤ upTo k ∧
          ∃ ms ∈ s.captures, ms[(sealAlways.shardFor k).val]? = some (upTo k)) ∧
        (s.disk.recover {}).regs = fun k => mapAt s.hist (upTo k) k := by
  obtain ⟨s, hreach, hp⟩ := exists_reaches_of_exec (step sealAlways) Undisturbed (start sealAlways)
    [.wrote [1] 4, .compact, .wrote [1] 8, .ok, .ok, .fs .ok {} 7, .ok]
    (fun s => (∀ we ∈ s.disk.logRecords, we.expired {} = false) ∧
      (∀ se ∈ s.disk.snapshotEntries, se.expired {} = false) ∧
      s.drained.length = 1 ∧ s.captures = [[2]]) rfl
  obtain ⟨hlog, hsnap, hfacts⟩ := of_decide_eq_true hp
  exact ⟨s, hreach, ⟨hlog, hsnap⟩, hfacts, recover_after_crash sealAlways s hreach {} ⟨hlog, hsnap⟩⟩

end Cinder
