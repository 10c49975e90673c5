/-
Compactions that return success although `CURRENT` could not be published or sealed
segments could not be deleted.

Both failures are logged and passed over, and the log is rotated all the same. What a restart
finds then depends on two things at the moment of the rotation (`RotatesSafely`): whether the
snapshot recovery picks is the one just written, and whether the records of the segments that
are still there change anything when they are replayed onto it.
-/
import Cinder.Store.CrashConsistency

namespace Cinder

open Transition List PersistState LwwLog

variable {n : Nat}

/-! ## 1. The conditions of the runs -/

/-- Nothing expires, and nothing fails but what compaction passes over: publishing `CURRENT`
and deleting sealed segments. -/
def Tolerated (s : PersistState n) (ev : PersistEvent) : Prop :=
  NoExpiry s ev ∧
    match ev with
    | .fs o _ _ =>
      match s.phase with
      | .publishCurrent _ _ | .deleteSealed _ => True
      | _ => o = .ok
    | _ => True

variable (cfg : PersistConfig)

variable (s : PersistState cfg.numShards)

/-- For a key: the snapshot recovery picks holds what the running compaction copied, and the
records of the segments that are still there change nothing in it. -/
def RotatesKeySafely (k : Key) : Prop :=
  ∀ m ∈ s.marks[(cfg.shardFor k).val]?,
    snapshotMap s.disk.snapshotEntries k = mapAt s.hist m k ∧
      LwwLog.fold Prod.fst (mapAt s.hist m k)
        (LwwLog.opsOf k (s.disk.segRecords.map WalEntry.toRec)) = mapAt s.hist m k

/-- Rotations are safe for every key. -/
def RotatesSafely : PersistEvent → Prop
  | .fs _ _ _ =>
    match s.phase with
    | .rotate => ∀ k, RotatesKeySafely cfg s k
    | _ => True
  | _ => True

theorem Tolerated.keepsNames {s : PersistState n} {ev : PersistEvent} (h : Tolerated s ev) :
    KeepsNames s ev := by
  cases ev with
  | fs o clk count =>
    have ho := h.2
    unfold KeepsNames
    simp only at ho ⊢
    split
    case h_4 => trivial
    all_goals
      rename_i hp
      simp only [hp] at ho
      simp [ho]
  | _ => trivial

/-! ## 2. Restoring the store -/

/-- The snapshot recovery picks holds, for each key, the store at the mark `m`; the stale
records in front of the log change nothing in the store at an earlier mark `m₀`, which is
at most `b`. -/
def Restorable (b : Nat) : Prop :=
  ∃ stale covered rest, LogTail s stale covered rest ∧
    ∀ k, ∃ m₀ m, covered.length ≤ m₀ ∧ m₀ ≤ b ∧ m₀ ≤ m ∧ m ≤ s.hist.length ∧
      snapshotMap s.disk.snapshotEntries k = mapAt s.hist m k ∧
      LwwLog.fold Prod.fst (mapAt s.hist m₀ k) (LwwLog.opsOf k (stale.map WalEntry.toRec)) =
        mapAt s.hist m₀ k

theorem mapAt_append {hist : List WalEntry} {m : Nat} (h : m ≤ hist.length) (rs : List WalEntry) :
    mapAt (hist ++ rs) m = mapAt hist m := by
  rw [mapAt, mapAt, take_append_of_le_length h]

variable {cfg : PersistConfig} {s : PersistState cfg.numShards}

theorem Restorable.mono {b b' : Nat} (h : Restorable cfg s b) (hb : b ≤ b') :
    Restorable cfg s b' := by
  obtain ⟨stale, covered, rest, htail, hkeys⟩ := h
  refine ⟨stale, covered, rest, htail, fun k => ?_⟩
  obtain ⟨m₀, m, hc, hm₀, hrest⟩ := hkeys k
  exact ⟨m₀, m, hc, le_trans hm₀ hb, hrest⟩

theorem Restorable.recover {b : Nat} (h : Restorable cfg s b) (hh : HistoryInv s) (hq : QueueInv s)
    (hv : ∀ se ∈ s.disk.snapshotEntries, se.Versioned) (hpend : s.pending = []) {clk : ClockReading}
    (hx : s.disk.Unexpired clk) : (s.disk.recover clk).regs = s.mem.regs := by
  obtain ⟨stale, covered, rest, htail, hkeys⟩ := h
  have hhist : s.hist = covered ++ rest := by
    rw [← htail.drained, hq, hpend, append_nil]
  rw [regs_recover_of_unexpired ⟨htail.versioned hq hh.versioned, hv⟩ hx, hh.mem]
  funext k
  obtain ⟨m₀, m, hc, -, hm₀, -, hsnap, habs⟩ := hkeys k
  have hacc := hh.accepted k
  rw [mapAt_eq, hhist, map_append] at habs
  rw [hhist, map_append] at hacc
  have hover := replay_over_stale Prod.fst (m := noRegs) hacc
    (show (covered.map WalEntry.toRec).length ≤ m₀ by rw [length_map]; exact hc) hm₀ habs
  rw [replay_apply, hsnap, htail.log, map_append, opsOf_append,
    fold_append, mapAt_eq, hhist, map_append]
  exact hover

/-! ## 3. Steps -/

section Steps

variable {cfg : PersistConfig} {s s' : PersistState cfg.numShards}

theorem LogTail.of_same_or_drain {stale covered rest : List WalEntry}
    (h : LogTail s stale covered rest) (hq : QueueInv s) (he : LogEffect s s')
    (hp : s.phase.covers = false) : ∃ rest', LogTail s' stale covered rest' := by
  cases he with
  | same rs hlog hhist hpend => exact ⟨rest, h.of_queued hq hlog hhist hpend⟩
  | drain hlog hhist hpend => exact ⟨_, h.of_drain hq hlog hhist hpend⟩
  | delete x later hphase =>
    rw [hphase] at hp
    cases hp
  | rotate hphase =>
    rw [hphase] at hp
    cases hp

theorem Restorable.step {b : Nat} (h : Restorable cfg s b) (hq : QueueInv s)
    (he : LogEffect s s') (hp : s.phase.covers = false)
    (hsel : SelectsNext cfg exactView s s') (hb : b ≤ s.drained.length ∨
      s'.disk.findLatestSnapshot = s.disk.findLatestSnapshot) : Restorable cfg s' b := by
  obtain ⟨stale, covered, rest, htail, hkeys⟩ := h
  obtain ⟨rest', htail'⟩ := htail.of_same_or_drain hq he hp
  obtain ⟨rs, hhist⟩ := he.hist_append
  refine ⟨stale, covered, rest', htail', fun k => ?_⟩
  obtain ⟨m₀, m, hc, hm₀, hm, hlen, hsnap, habs⟩ := hkeys k
  have hm₀len : m₀ ≤ s.hist.length := le_trans hm hlen
  have hlen' : s.hist.length ≤ s'.hist.length := by
    rw [hhist, length_append]
    exact Nat.le_add_right _ _
  have habs' : fold Prod.fst (mapAt s'.hist m₀ k)
      (opsOf k (stale.map WalEntry.toRec)) = mapAt s'.hist m₀ k := by
    rw [hhist, mapAt_append hm₀len]
    exact habs
  have hsame : s'.disk.findLatestSnapshot = s.disk.findLatestSnapshot →
      snapshotMap s'.disk.snapshotEntries k = mapAt s'.hist m k := by
    intro heq
    rw [Disk.snapshotEntries, heq, hhist, mapAt_append hlen]
    exact hsnap
  rcases hsel with heq | ⟨hcov, -, es, hes, hof⟩
  · exact ⟨m₀, m, hc, hm₀, hm, le_trans hlen hlen', hsame heq, habs'⟩
  · rcases hb with hb | heq
    · -- the copy of the running operation was taken after everything drained so far
      obtain ⟨m', hm', hle', hview⟩ := hof.copy.mapOf_eq k
      have hdrained : s.drained.length ≤ m' := hcov.2 m' (mem_of_getElem? hm')
      refine ⟨m₀, m', hc, hm₀, by omega, hle', ?_, habs'⟩
      rw [Disk.snapshotEntries, hes]
      exact hview
    · exact ⟨m₀, m, hc, hm₀, hm, le_trans hlen hlen', hsame heq, habs'⟩

/-- Behind the publication the log is being cut, and only the rotation makes up for it. -/
def RestoreInv (cfg : PersistConfig) (s : PersistState cfg.numShards) : Prop :=
  match s.phase with
  | .prune _ _ _ _ | .deleteSealed _ | .rotate => True
  | .drainFresh => Restorable cfg s s.hist.length
  | _ => Restorable cfg s s.drained.length

theorem RestoreInv.of_restorable (h : Restorable cfg s s.drained.length) : RestoreInv cfg s := by
  unfold RestoreInv
  split
  case h_4 => exact h.mono QueueInv.drained_le
  case h_5 => exact h
  all_goals trivial

theorem restorable_rotate (hlog : LogInv s) (hc : CaptureInv cfg exactView s)
    (hp : s.phase = .rotate) {clk : ClockReading} {count : Nat}
    (hsafe : RotatesSafely cfg s (.fs .ok clk count)) :
    Restorable cfg (s.rotate .ok) s.hist.length := by
  obtain ⟨stale, covered, rest, htail⟩ := hlog.tail
  have hcov := hlog.copy
  simp only [CopyInv, hp] at hcov
  simp only [CaptureInv, hp] at hc
  simp only [RotatesSafely, hp] at hsafe
  obtain ⟨recs, hrecs⟩ := hc
  refine ⟨_, _, _, htail.of_rotate hlog.files.named.logRecords_createLog rfl, fun k => ?_⟩
  obtain ⟨m, hm, hle, -⟩ := hrecs.mapOf_eq k
  obtain ⟨hsnap, habs⟩ := hsafe k m hm
  exact ⟨m, m, hcov.2.2 m (mem_of_getElem? hm), hle, le_rfl, hle, hsnap, habs⟩

variable {ev : PersistEvent}

section

variable (hlog : LogInv s)

include hlog

section

variable (hc : CaptureInv cfg exactView s)

include hc

theorem selectsNext_tolerated
    (hp : ∀ rest total removed keep, s.phase ≠ .prune rest total removed keep)
    (hs : s.step cfg ev = some s') : SelectsNext cfg exactView s s' :=
  selectsNext_step hc hlog.copy (fun _ _ _ _ _ _ hprune _ => absurd hprune (hp _ _ _ _)) hs

theorem restoreInv_of_sure
    (h : Restorable cfg s s.drained.length) (hok : Tolerated s ev)
    (hcovers : s.phase.covers = false)
    (hp : ∀ rest total removed keep, s.phase ≠ .prune rest total removed keep)
    (hs : s.step cfg ev = some s') : RestoreInv cfg s' := by
  have heffect := logEffect_step hlog.files hok.keepsNames hs
  have hsel := selectsNext_tolerated hlog hc hp hs
  have h' := h.step hlog.queue heffect hcovers hsel (.inl le_rfl)
  exact .of_restorable (h'.mono (heffect.drained_le hlog.queue))

theorem restoreInv_of_drainFresh
    (h : Restorable cfg s s.hist.length) (hok : Tolerated s ev) (hp : s.phase = .drainFresh)
    (hs : s.step cfg ev = some s') : RestoreInv cfg s' := by
  have heffect := logEffect_step hlog.files hok.keepsNames hs
  have hsel := selectsNext_tolerated hlog hc (by rw [hp]; nofun) hs
  have hcovers : s.phase.covers = false := by rw [hp]; rfl
  cases stepCase hs with
  | store hev hstore =>
    have hlatest : s'.disk.findLatestSnapshot = s.disk.findLatestSnapshot := by rw [hstore.disk]
    have h' := h.step hlog.queue heffect hcovers hsel (.inr hlatest)
    obtain ⟨rs, hhist⟩ := heffect.hist_append
    have hphase : s'.phase = .drainFresh := by rw [hstore.phase, hp]
    simp only [RestoreInv, hphase]
    exact h'.mono (by rw [hhist, length_append]; exact Nat.le_add_right _ _)
  | flush hp' | compact hp' | shutdown hp' =>
    rw [hp] at hp'
    cases hp'
  | @fs o clk count hfs =>
    simp only [fsStep, hp] at hfs
    cases hfs
    have hset := (handleInv_iff_settled (by rw [hp]; rfl)).mp hlog.files.handle
    obtain ⟨-, hhist, hpend⟩ := logEffect_drainQueue hlog.files.named hset
    have hlatest : s.drainQueue.disk.findLatestSnapshot = s.disk.findLatestSnapshot := by
      unfold drainQueue
      split <;> rfl
    have h' := h.step hlog.queue heffect hcovers hsel (.inr hlatest)
    -- now nothing is queued
    have hall : s.hist.length ≤ s.drainQueue.drained.length := by
      rw [drained, hhist, hpend]
      simp
    exact .of_restorable (h'.mono hall)

theorem restoreInv_of_unsure
    (hok : Tolerated s ev) (hsafe : RotatesSafely cfg s ev)
    (hp : (∃ rest total removed keep, s.phase = .prune rest total removed keep) ∨
      (∃ rest, s.phase = .deleteSealed rest) ∨ s.phase = .rotate)
    (hs : s.step cfg ev = some s') : RestoreInv cfg s' := by
  have hbusy : s.phase ≠ .idle := by
    rcases hp with ⟨_, _, _, _, hp⟩ | ⟨_, hp⟩ | hp <;> rw [hp] <;> nofun
  cases stepCase hs with
  | store _ hstore =>
    rcases hp with ⟨_, _, _, _, hp⟩ | ⟨_, hp⟩ | hp <;> simp only [RestoreInv, hstore.phase, hp]
  | flush hp' | compact hp' | shutdown hp' => exact absurd hp' hbusy
  | @fs o clk count hfs =>
    rcases hp with ⟨rest, total, removed, keep, hp⟩ | ⟨rest, hp⟩ | hp
    · cases rest with
      | nil =>
        simp only [fsStep, hp] at hfs
        cases hfs
        trivial
      | cons x rest =>
        simp only [fsStep, hp] at hfs
        cases hfs
        unfold pruneOne
        split
        · trivial
        · split <;> trivial
    · cases rest with
      | nil =>
        simp only [fsStep, hp] at hfs
        cases hfs
        trivial
      | cons x rest =>
        simp only [fsStep, hp] at hfs
        cases hfs
        unfold deleteOne
        split <;> trivial
    · have ho := hok.2
      simp only [hp] at ho
      subst ho
      simp only [fsStep, hp] at hfs
      cases hfs
      exact restorable_rotate hlog hc hp hsafe

theorem restoreInv_step (h : RestoreInv cfg s)
    (hok : Tolerated s ev) (hsafe : RotatesSafely cfg s ev) (hs : s.step cfg ev = some s') :
    RestoreInv cfg s' := by
  unfold RestoreInv at h
  split at h
  · exact restoreInv_of_unsure hlog hc hok hsafe (.inl ⟨_, _, _, _, ‹_›⟩) hs
  · exact restoreInv_of_unsure hlog hc hok hsafe (.inr (.inl ⟨_, ‹_›⟩)) hs
  · exact restoreInv_of_unsure hlog hc hok hsafe (.inr (.inr ‹_›)) hs
  · exact restoreInv_of_drainFresh hlog hc h hok ‹_› hs
  · rename_i hprune hdelete hrotate _
    refine restoreInv_of_sure hlog hc h hok ?_ hprune hs
    unfold Phase.covers
    split
    · exact absurd ‹_› (hdelete _)
    · exact absurd ‹_› hrotate
    · rfl

end

end

/-! ## 4. Recovery at rest -/

def StoredVersioned (d : Disk) : Prop := ∀ f ∈ d.snapshots, ∀ se ∈ f.2, se.Versioned

theorem StoredVersioned.snapshotEntries {d : Disk} (h : StoredVersioned d) :
    ∀ se ∈ d.snapshotEntries, se.Versioned := by
  intro se hse
  unfold Disk.snapshotEntries Disk.findLatestSnapshot at hse
  split at hse
  · rename_i es hes
    obtain ⟨name, -, hfind⟩ := Option.bind_eq_some_iff.mp hes
    obtain ⟨f, hf, rfl⟩ := Option.map_eq_some_iff.mp hfind
    exact h f (mem_of_find?_eq_some hf) se hse
  · cases hlast : d.snapshots.getLast? with
    | none =>
      rw [hlast] at hse
      cases hse
    | some f =>
      rw [hlast] at hse
      exact h f (mem_of_getLast? hlast) se hse

theorem storedVersioned_writeSnapshot (h : StoredVersioned s.disk) (job : Job)
    (live : List (Key × VersionedEntry)) (o : FsOutcome) (clk : ClockReading) (count : Nat) :
    StoredVersioned (s.writeSnapshot job live o clk count).disk := by
  have hput : ∀ f ∈ dirPut snapshotBefore count
      (live.map fun p => toSnapshotEntry clk p.1 p.2) s.disk.snapshots,
      ∀ se ∈ f.2, se.Versioned := by
    intro f hf
    rcases mem_dirPut hf with rfl | hf
    · intro se hse
      obtain ⟨p, -, rfl⟩ := mem_map.mp hse
      exact p.2.version_lt
    · exact h f hf
  cases o with
  | ok | unsynced => exact hput
  | failed => exact h

theorem StoredVersioned.of_same {d d' : Disk} (h : StoredVersioned d)
    (hsame : d'.snapshots = d.snapshots) : StoredVersioned d' := by
  unfold StoredVersioned
  rw [hsame]
  exact h

theorem storedVersioned_step (h : StoredVersioned s.disk) (hs : s.step cfg ev = some s') :
    StoredVersioned s'.disk := by
  cases hev : ev.ofStore with
  | true =>
    cases stepCase hs with
    | store _ hstore => exact h.of_same (by rw [hstore.disk])
    | _ => cases hev
  | false =>
    cases managerCase hev hs with
    | kept hkept => exact h.of_same (congrArg (·.2.2.2.1) hkept)
    | wrote hp heq => exact heq ▸ storedVersioned_writeSnapshot h _ _ _ _ _
    | @published job name o hp heq =>
      subst heq
      obtain ⟨p, heq | heq⟩ := publishCurrent_cases s job name o
      all_goals exact h.of_same (by rw [heq])
    | pruned hp ho heq =>
      subst heq
      unfold pruneOne
      split
      · exact h
      · split
        · exact h
        · exact fun f hf => h f (mem_filter.mp hf).1

/-- What carries recovery along a run. -/
structure CompactionInv (cfg : PersistConfig) (s : PersistState cfg.numShards) : Prop where
  history : HistoryInv s
  log : LogInv s
  capture : CaptureInv cfg exactView s
  restore : RestoreInv cfg s
  versioned : StoredVersioned s.disk

theorem compactionInv_start (cfg : PersistConfig) :
    CompactionInv cfg (PersistState.start cfg) where
  history := historyInv_start cfg
  log := logInv_start cfg
  capture := trivial
  restore := ⟨[], [], [], ⟨rfl, rfl, List.Sublist.slnil⟩, fun _ =>
    ⟨0, 0, le_rfl, le_rfl, le_rfl, le_rfl, rfl, rfl⟩⟩
  versioned := fun _ hf => absurd hf not_mem_nil

theorem compactionInv_step (h : CompactionInv cfg s) (hok : Tolerated s ev)
    (hsafe : RotatesSafely cfg s ev) (hs : s.step cfg ev = some s') : CompactionInv cfg s' where
  history := historyInv_step h.history hok.1 hs
  log := logInv_step h.log hok.keepsNames hs
  capture := captureInv_step h.capture (h.history.liveCopies hok.1) hs
  restore := restoreInv_step h.log h.capture h.restore hok hsafe hs
  versioned := storedVersioned_step h.versioned hs

end Steps

/-- **Tolerated failures lose nothing if every rotation is safe.** With the manager at rest and
nothing queued, recovery yields the current contents of the store. -/
theorem recover_after_compactions (cfg : PersistConfig) (s : PersistState cfg.numShards)
    (h : Reaches (PersistState.step cfg) (fun s ev => Tolerated s ev ∧ RotatesSafely cfg s ev)
      (PersistState.start cfg) s)
    (hidle : s.phase = .idle) (hpend : s.pending = []) (clk : ClockReading)
    (hx : s.disk.Unexpired clk) : (s.disk.recover clk).regs = s.mem.regs := by
  have hinv : CompactionInv cfg s := h.invariant (compactionInv_start cfg)
    fun _ _ _ hi hok hs => compactionInv_step hi hok.1 hok.2 hs
  have hrestore := hinv.restore
  simp only [RestoreInv, hidle] at hrestore
  exact hrestore.recover hinv.history hinv.log.queue hinv.versioned.snapshotEntries hpend hx

/-! ## 5. Runs -/

/-- Operations whose failure compaction passes over. -/
def Phase.tolerant : Phase n → Bool
  | .publishCurrent _ _ | .deleteSealed _ => true
  | _ => false

instance (s : PersistState n) (ev : PersistEvent) : Decidable (Tolerated s ev) :=
  match ev with
  | .fs o clk count =>
    decidable_of_iff (NoExpiry s (.fs o clk count) ∧ (s.phase.tolerant = true ∨ o = .ok))
      (by
        unfold Tolerated Phase.tolerant
        simp only
        split <;> simp)
  | .put key e clk => inferInstanceAs (Decidable (NoExpiry s (.put key e clk) ∧ True))
  | .remove key => inferInstanceAs (Decidable (NoExpiry s (.remove key) ∧ True))
  | .expire key now => inferInstanceAs (Decidable (NoExpiry s (.expire key now) ∧ True))
  | .flush synced => inferInstanceAs (Decidable (NoExpiry s (.flush synced) ∧ True))
  | .compact => inferInstanceAs (Decidable (NoExpiry s .compact ∧ True))
  | .shutdown => inferInstanceAs (Decidable (NoExpiry s .shutdown ∧ True))

/-- The keys a rotation has to be checked for; all others are absent throughout. -/
def rotateKeys (s : PersistState n) : List Key :=
  s.hist.map WalEntry.key ++ s.disk.snapshotEntries.map SnapshotEntry.key ++
    s.disk.segRecords.map WalEntry.key

theorem rotatesKeySafely_of_notMem {k : Key} (h : k ∉ rotateKeys s) : RotatesKeySafely cfg s k := by
  simp only [rotateKeys, mem_append, not_or] at h
  obtain ⟨⟨hhist, hsnap⟩, hsegs⟩ := h
  have hwal : ∀ ws : List WalEntry, k ∉ ws.map WalEntry.key →
      opsOf k (ws.map WalEntry.toRec) = [] := by
    intro ws hws
    apply opsOf_eq_nil
    rw [map_map]
    exact hws
  have hes : opsOf k (s.disk.snapshotEntries.map SnapshotEntry.toRec) = [] := by
    apply opsOf_eq_nil
    rw [map_map]
    exact hsnap
  intro m _
  have hnone : mapAt s.hist m k = none := by
    rw [mapAt, mapOf_apply, hwal _ fun hk => hhist ?_]
    · rfl
    · rw [map_take] at hk
      exact mem_of_mem_take hk
  rw [hnone, snapshotMap, mapOf_apply, hes, hwal _ hsegs]
  exact ⟨rfl, rfl⟩

variable (cfg)

variable (s)

instance (k : Key) :
    Decidable (RotatesKeySafely cfg s k) :=
  inferInstanceAs (Decidable (∀ m ∈ s.marks[(cfg.shardFor k).val]?, _))

def Phase.rotates : Phase n → Bool
  | .rotate => true
  | _ => false

theorem rotatesSafely_iff (o : FsOutcome)
    (clk : ClockReading) (count : Nat) :
    (s.phase.rotates = true → ∀ k ∈ rotateKeys s, RotatesKeySafely cfg s k) ↔
      RotatesSafely cfg s (.fs o clk count) := by
  unfold RotatesSafely Phase.rotates
  split
  · rename_i hp
    simp only [hp]
    refine ⟨fun h k => ?_, fun h _ k _ => h k⟩
    by_cases hk : k ∈ rotateKeys s
    · exact h trivial k hk
    · exact rotatesKeySafely_of_notMem hk
  · simp

instance (ev : PersistEvent) :
    Decidable (RotatesSafely cfg s ev) :=
  match ev with
  | .fs o clk count => decidable_of_iff _ (rotatesSafely_iff cfg s o clk count)
  | .put _ _ _ | .remove _ | .expire _ _ | .flush _ | .compact | .shutdown => isTrue trivial

variable {s}

variable {cfg}

def Phase.isIdle : Phase n → Bool
  | .idle => true
  | _ => false

theorem isIdle_iff {p : Phase n} : p.isIdle ↔ p = .idle := by
  cases p <;> simp [Phase.isIdle]

/-- The compaction can neither publish its snapshot nor delete the sealed segment; the snapshot is
the only one, and the segment holds the write the snapshot holds. -/
theorem recover_after_compactions_unpublished :
    ∃ s, Reaches (PersistState.step sealAlways)
        (fun s ev => Tolerated s ev ∧ RotatesSafely sealAlways s ev)
        (PersistState.start sealAlways) s ∧
      s.phase = .idle ∧ s.pending = [] ∧ s.disk.Unexpired {} ∧
      (s.disk.current = none ∧ s.disk.segments.length = 1) ∧
      (s.disk.recover {}).regs = s.mem.regs := by
  obtain ⟨s, hreach, hp⟩ := exists_reaches_of_exec (step sealAlways)
    (fun s ev => Tolerated s ev ∧ RotatesSafely sealAlways s ev) (start sealAlways)
    [.wrote [1] 4, .flush true, .ok, .ok, .ok, .compact, .ok, .ok, .fs .ok {} 7, .fs .failed {} 0,
      .fs .failed {} 0, .ok, .ok, .ok]
    (fun s => s.phase.isIdle ∧ s.pending = [] ∧
      (∀ we ∈ s.disk.logRecords, we.expired {} = false) ∧
      (∀ se ∈ s.disk.snapshotEntries, se.expired {} = false) ∧
      s.disk.current = none ∧ s.disk.segments.length = 1) rfl
  obtain ⟨hidle, hpend, hlog, hsnap, hfacts⟩ := of_decide_eq_true hp
  have hidle := isIdle_iff.mp hidle
  exact ⟨s, hreach, hidle, hpend, ⟨hlog, hsnap⟩, hfacts,
    recover_after_compactions sealAlways s hreach hidle hpend {} ⟨hlog, hsnap⟩⟩

/-- Behind a published snapshot, a compaction that cannot publish rotates the log away: the
second write of the key is lost. And a sealed segment that cannot be deleted brings
a removed key back. -/
theorem tolerated_failures_lose_writes :
    (∃ s, Reaches (PersistState.step sealAlways) Tolerated (PersistState.start sealAlways) s ∧
      s.phase = .idle ∧ s.pending = [] ∧ (s.disk.recover {}).regs [1] ≠ s.mem.regs [1] ∧
      s.disk.segments = [] ∧ s.mem.regs [1] = some (⟨2, 0, false⟩, [])) ∧
    (∃ s, Reaches (PersistState.step sealAlways) Tolerated (PersistState.start sealAlways) s ∧
      s.phase = .idle ∧ s.pending = [] ∧ (s.disk.recover {}).regs [1] ≠ s.mem.regs [1] ∧
      s.mem.regs [1] = none) := by
  constructor
  · obtain ⟨s, hreach, hp⟩ := exists_reaches_of_exec (step sealAlways) Tolerated
      (start sealAlways)
      [.wrote [1] 4, .compact, .ok, .ok, .fs .ok {} 7, .ok, .ok, .ok, .ok,
        .wrote [1] 8, .compact, .ok, .ok, .fs .ok {} 8, .fs .failed {} 0, .ok, .ok, .ok]
      (fun s => s.phase.isIdle ∧ s.pending = [] ∧ (s.disk.recover {}).regs [1] ≠ s.mem.regs [1] ∧
        s.disk.segments = [] ∧ s.mem.regs [1] = some (⟨2, 0, false⟩, [])) rfl
    exact ⟨s, hreach, (of_decide_eq_true hp).imp_left isIdle_iff.mp⟩
  · obtain ⟨s, hreach, hp⟩ := exists_reaches_of_exec (step sealAlways) Tolerated
      (start sealAlways)
      [.wrote [1] 4, .flush true, .ok, .ok, .ok, .remove [1],
        .compact, .ok, .ok, .fs .ok {} 7, .ok, .fs .failed {} 0, .ok, .ok, .ok]
      (fun s => s.phase.isIdle ∧ s.pending = [] ∧ (s.disk.recover {}).regs [1] ≠ s.mem.regs [1] ∧
        s.mem.regs [1] = none) rfl
    exact ⟨s, hreach, (of_decide_eq_true hp).imp_left isIdle_iff.mp⟩

end Cinder
