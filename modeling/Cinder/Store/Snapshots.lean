/-
Snapshots and the `CURRENT` pointer along the runs in which every filesystem operation
succeeds.
-/
import Cinder.Store.History

namespace Cinder

open Transition List PersistState

variable {n : Nat}

/-! ## 1. Directory lemmas -/

section Directory

variable {κ V : Type} [DecidableEq κ]

theorem dirFind_cons (x : κ) (f : κ × V) (dir : List (κ × V)) :
    dirFind x (f :: dir) = if f.1 = x then some f.2 else dirFind x dir := by
  unfold dirFind
  by_cases h : f.1 = x <;> simp [h]

variable (lt : κ → κ → Bool)

theorem dirFind_dirPut_self (name : κ) (v : V) (dir : List (κ × V)) :
    dirFind name (dirPut lt name v dir) = some v := by
  induction dir with
  | nil => simp [dirPut, dirFind]
  | cons f dir ih =>
    obtain ⟨x, w⟩ := f
    unfold dirPut
    split
    · simp [dirFind_cons]
    · rename_i hne
      split
      · simp [dirFind_cons]
      · rw [dirFind_cons, if_neg hne]
        exact ih

theorem dirFind_dirPut_of_ne {x name : κ} (h : x ≠ name) (v : V)
    (dir : List (κ × V)) : dirFind x (dirPut lt name v dir) = dirFind x dir := by
  induction dir with
  | nil => simp [dirPut, dirFind, h.symm]
  | cons f dir ih =>
    obtain ⟨y, w⟩ := f
    unfold dirPut
    split
    · rename_i hy
      subst hy
      simp only [dirFind_cons, if_neg h.symm]
    · split
      · simp only [dirFind_cons, if_neg h.symm]
      · simp only [dirFind_cons, ih]

theorem getLast?_dirPut (name : κ) (v : V) (dir : List (κ × V)) :
    (dirPut lt name v dir).getLast? = some (name, v) ∨
      (dirPut lt name v dir).getLast? = dir.getLast? := by
  induction dir with
  | nil => exact .inl rfl
  | cons f dir ih =>
    obtain ⟨y, w⟩ := f
    unfold dirPut
    split
    · cases dir with
      | nil => exact .inl rfl
      | cons g dir => exact .inr rfl
    · split
      · exact .inr rfl
      · simp only [getLast?_cons]
        rcases ih with h | h
        · exact .inl (by rw [h]; rfl)
        · exact .inr (by rw [h])

theorem mem_dirPut {lt : κ → κ → Bool} {name : κ} {v : V} {dir : List (κ × V)} {f : κ × V}
    (h : f ∈ dirPut lt name v dir) : f = (name, v) ∨ f ∈ dir := by
  induction dir with
  | nil => exact .inl (mem_singleton.mp h)
  | cons g dir ih =>
    unfold dirPut at h
    split at h
    · rcases mem_cons.mp h with h | h
      · exact .inl h
      · exact .inr (mem_cons_of_mem _ h)
    · split at h
      · exact mem_cons.mp h
      · rcases mem_cons.mp h with h | h
        · exact .inr (h ▸ mem_cons_self)
        · exact (ih h).imp id (mem_cons_of_mem _)

theorem dirFind_dirRemove_of_ne {x y : κ} (h : x ≠ y) (dir : List (κ × V)) :
    dirFind x (dirRemove y dir) = dirFind x dir := by
  unfold dirFind dirRemove
  rw [List.find?_filter]
  congr 2
  funext f
  by_cases hf : f.1 = x
  · simp [hf, h]
  · simp [hf]

end Directory

theorem dirRemove_head {x i : Nat} {rest : List (Nat × Nat)}
    (h : (((x, i) :: rest).map Prod.fst).Pairwise (· < ·)) :
    dirRemove x ((x, i) :: rest) = rest := by
  rw [map_cons, pairwise_cons] at h
  have hkeep : rest.filter (fun f => decide (f.1 ≠ x)) = rest := filter_eq_self.mpr fun f hf => by
      simpa using Nat.ne_of_gt (h.1 f.1 (mem_map_of_mem hf))
  rw [dirRemove, filter_cons_of_neg (by simp)]
  exact hkeep

/-! ## 2. The pointer and the snapshot of the running operation -/

def AllOk : PersistEvent → Prop
  | .fs o _ _ => o = .ok
  | _ => True

variable (cfg : PersistConfig)

/-- A snapshot whose entries are a copy of the store. -/
structure SnapshotOf (view : View) (hist : List WalEntry) (ms : List Nat)
    (es : List SnapshotEntry) : Prop where
  copy : CopyOf cfg view hist ms (es.map SnapshotEntry.toRec)
  versioned : ∀ se ∈ es, se.Versioned

/-- The running operation's snapshot stands under `name`. -/
def Written (view : View) (s : PersistState cfg.numShards) (name : Nat) :
    Prop :=
  ∃ es, dirFind name s.disk.snapshots = some es ∧ SnapshotOf cfg view s.hist s.marks es

/-- The running operation's snapshot is the one `CURRENT` names. -/
def Published (view : View) (s : PersistState cfg.numShards) : Prop :=
  ∃ name, s.disk.current = some name ∧ Written cfg view s name

/-- What is known of the copy in each phase, whether operations fail or not. -/
def CaptureInv (view : View) (s : PersistState cfg.numShards) : Prop :=
  match s.phase with
  | .capture _ rest acc => Copying cfg view s.hist s.marks rest acc
  | .writeSnapshot _ live => CopyOf cfg view s.hist s.marks (copyRecs live)
  | .publishCurrent _ name => Written cfg view s name
  | .prune _ _ _ _ | .deleteSealed _ | .rotate => ∃ recs, CopyOf cfg view s.hist s.marks recs
  | _ => True

/-- What is known of the pointer and of the segments left in each phase, when every operation
succeeds. -/
def PointerInv (view : View) (s : PersistState cfg.numShards) : Prop :=
  match s.phase with
  | .prune _ _ _ keep => Published cfg view s ∧ keep = s.disk.current
  | .deleteSealed rest => Published cfg view s ∧ s.disk.segments.map Prod.fst = rest
  | .rotate => Published cfg view s ∧ s.disk.segments = []
  | _ => True

section Steps

variable {cfg : PersistConfig} {view : View} {s s' : PersistState cfg.numShards}

variable {es : List SnapshotEntry} {name x total removed : Nat} {live : List (Key × VersionedEntry)}
  {ev : PersistEvent} {rest : List Nat}

theorem SnapshotOf.append {hist : List WalEntry} {ms : List Nat}
    (h : SnapshotOf cfg view hist ms es) (rs : List WalEntry) :
    SnapshotOf cfg view (hist ++ rs) ms es := ⟨h.copy.append rs, h.versioned⟩

section

variable (h : StoreStep s s')

include h

theorem StoreStep.written (hw : Written cfg view s name) : Written cfg view s' name := by
  obtain ⟨rs, hhist, -⟩ := h.queued
  obtain ⟨es, hes, hof⟩ := hw
  refine ⟨es, by rw [h.disk]; exact hes, ?_⟩
  rw [hhist, h.marks]
  exact hof.append rs

theorem StoreStep.published (hp : Published cfg view s) : Published cfg view s' := by
  obtain ⟨name, hcur, hw⟩ := hp
  exact ⟨name, by rw [h.disk]; exact hcur, h.written hw⟩

theorem StoreStep.captureInv (hi : CaptureInv cfg view s) : CaptureInv cfg view s' := by
  obtain ⟨rs, hhist, -⟩ := h.queued
  unfold CaptureInv at hi ⊢
  rw [h.phase]
  split at hi
  · rw [hhist, h.marks]
    exact hi.append rs
  · rw [hhist, h.marks]
    exact hi.append rs
  · exact h.written hi
  iterate 3
    · obtain ⟨recs, hrecs⟩ := hi
      rw [hhist, h.marks]
      exact ⟨recs, hrecs.append rs⟩
  · trivial

theorem StoreStep.pointerInv (hi : PointerInv cfg view s) : PointerInv cfg view s' := by
  unfold PointerInv at hi ⊢
  rw [h.phase]
  split at hi
  · exact ⟨h.published hi.1, by rw [h.disk]; exact hi.2⟩
  · exact ⟨h.published hi.1, by rw [h.disk]; exact hi.2⟩
  · exact ⟨h.published hi.1, by rw [h.disk]; exact hi.2⟩
  · trivial

end

/-- Copies are taken of what the view allows. -/
def LiveCopies (view : View) (s : PersistState n) : PersistEvent → Prop
  | .fs _ clk _ =>
    match s.phase with
    | .capture _ (_ :: _) _ => ∀ k, view s.hist k (s.mem.liveRegs clk.now k)
    | _ => True
  | _ => True

theorem snapshotOf_copy (h : CopyOf cfg view s.hist s.marks (copyRecs live)) (clk : ClockReading) :
    SnapshotOf cfg view s.hist s.marks (live.map fun p => toSnapshotEntry clk p.1 p.2) where
  copy := by
    rw [map_map]
    exact h
  versioned := by
    intro se hse
    obtain ⟨p, -, rfl⟩ := mem_map.mp hse
    exact p.2.version_lt

theorem captureInv_publishCurrent (h : Written cfg view s name) (job : Job) (o : FsOutcome) :
    CaptureInv cfg view (s.publishCurrent job name o) := by
  obtain ⟨es, -, hof⟩ := h
  unfold publishCurrent startPrune
  cases job with
  | compact =>
    simp only
    split <;> split <;> exact ⟨_, hof.copy⟩
  | shutdown => split <;> trivial

theorem captureInv_step (h : CaptureInv cfg view s) (hlive : LiveCopies view s ev)
    (hs : s.step cfg ev = some s') : CaptureInv cfg view s' := by
  cases stepCase hs with
  | store _ hstore => exact hstore.captureInv h
  | @flush synced hp heq =>
    subst heq
    rcases phase_flush hp synced with hp' | hp' <;> simp only [CaptureInv, hp']
  | compact hp heq | shutdown hp heq =>
    subst heq
    exact ⟨rfl, fun _ _ hmark => (by cases hmark), fun _ _ => rfl⟩
  | @fs o clk count hfs =>
    simp only [LiveCopies] at hlive
    unfold fsStep at hfs
    split at hfs
    all_goals rename_i hp
    all_goals cases hfs
    all_goals simp only [CaptureInv, hp] at h
    all_goals simp only [hp] at hlive
    · exact h.shard hlive
    · exact h.copyOf
    · cases o with
      | ok => exact ⟨_, dirFind_dirPut_self _ _ _ _, snapshotOf_copy h clk⟩
      | unsynced | failed => trivial
    · exact captureInv_publishCurrent h _ o
    · unfold pruneOne
      split
      · exact h
      · split <;> exact h
    · exact h
    · unfold deleteOne
      split <;> exact h
    · exact h
    · cases o <;> trivial
    · trivial
    · unfold sealRename
      split <;> trivial
    · unfold sealSync
      split <;> trivial
    · cases o <;> trivial
    · unfold sealRollback
      split <;> trivial

theorem pointerInv_startDelete (h : Published cfg view s) : PointerInv cfg view s.startDelete :=
  ⟨h, rfl⟩

theorem pointerInv_publishCurrent (h : Written cfg view s name) (job : Job) :
    PointerInv cfg view (s.publishCurrent job name .ok) := by
  have hpub : Published cfg view
      { s with disk := { s.disk with current := some name } } := ⟨name, rfl, h⟩
  cases job with
  | compact =>
    show PointerInv cfg view (startPrune { s with disk := { s.disk with current := some name } })
    unfold startPrune
    simp only
    split
    · exact pointerInv_startDelete hpub
    · exact ⟨hpub, rfl⟩
  | shutdown => trivial

theorem pointerInv_pruneOne (h : Published cfg view s) :
    PointerInv cfg view (s.pruneOne x rest total removed s.disk.current .ok) := by
  unfold pruneOne
  split
  · exact pointerInv_startDelete h
  · split
    · exact ⟨h, rfl⟩
    · rename_i hkeep
      obtain ⟨name, hcur, es, hes, hof⟩ := h
      have hne : name ≠ x := fun hx => hkeep (.inl (hx ▸ hcur))
      exact ⟨⟨name, hcur, es, (dirFind_dirRemove_of_ne hne _).trans hes, hof⟩, rfl⟩

theorem pointerInv_deleteOne (hnamed : s.disk.Named) (h : Published cfg view s)
    (hsegs : s.disk.segments.map Prod.fst = x :: rest) :
    PointerInv cfg view (s.deleteOne x rest .ok) := by
  refine ⟨h, ?_⟩
  obtain ⟨⟨x', i⟩, segs, heq, hx, htail⟩ := map_eq_cons_iff.mp hsegs
  cases hx
  have hsorted := hnamed.sorted
  rw [heq] at hsorted
  show (dirRemove x' s.disk.segments).map Prod.fst = rest
  rw [heq, dirRemove_head hsorted]
  exact htail

theorem pointerInv_step (hnamed : s.disk.Named) (hc : CaptureInv cfg view s)
    (h : PointerInv cfg view s) (hok : AllOk ev) (hs : s.step cfg ev = some s') :
    PointerInv cfg view s' := by
  cases stepCase hs with
  | store _ hstore => exact hstore.pointerInv h
  | @flush synced hp heq =>
    subst heq
    rcases phase_flush hp synced with hp' | hp' <;> simp only [PointerInv, hp']
  | compact hp heq | shutdown hp heq =>
    subst heq
    trivial
  | @fs o clk count hfs =>
    cases hok
    unfold fsStep at hfs
    split at hfs
    all_goals rename_i hp
    all_goals cases hfs
    all_goals simp only [PointerInv, hp] at h
    · trivial
    · trivial
    · trivial
    · simp only [CaptureInv, hp] at hc
      exact pointerInv_publishCurrent hc _
    · rw [h.2]
      exact pointerInv_pruneOne h.1
    · exact pointerInv_startDelete h.1
    · exact pointerInv_deleteOne hnamed h.1 h.2
    · exact ⟨h.1, by simpa using h.2⟩
    · trivial
    · trivial
    · unfold sealRename
      split <;> trivial
    · trivial
    · trivial
    · unfold sealRollback
      split <;> trivial

/-! ## 3. The snapshot recovery picks -/

/-- The snapshot recovery picks, if there is one, is a copy of the store, and the first `c`
records had been issued when each of its shards was copied. -/
def Selected (cfg : PersistConfig) (view : View) (s : PersistState cfg.numShards) (c : Nat) :
    Prop :=
  match s.disk.findLatestSnapshot with
  | none => c = 0
  | some es => ∃ ms ∈ s.captures, SnapshotOf cfg view s.hist ms es ∧ CoversUpTo cfg.numShards c ms

theorem findLatestSnapshot_of_current {d : Disk} (hcur : d.current = some name)
    (hes : dirFind name d.snapshots = some es) : d.findLatestSnapshot = some es := by
  simp [Disk.findLatestSnapshot, hcur, hes]

/-- A step leaves the selected snapshot, or selects the one of the running operation. -/
def SelectsNext (cfg : PersistConfig) (view : View) (s s' : PersistState cfg.numShards) : Prop :=
  s'.disk.findLatestSnapshot = s.disk.findLatestSnapshot ∨
    CoversUpTo cfg.numShards s.drained.length s.marks ∧ s.marks ∈ s'.captures ∧
      ∃ es, s'.disk.findLatestSnapshot = some es ∧ SnapshotOf cfg view s'.hist s.marks es

theorem SelectsNext.same (hs : s'.disk.snapshots = s.disk.snapshots)
    (hc : s'.disk.current = s.disk.current) : SelectsNext cfg view s s' :=
  .inl (by rw [Disk.findLatestSnapshot, Disk.findLatestSnapshot, hs, hc])

theorem findLatestSnapshot_dirPut (d : Disk) (name : Nat) (es : List SnapshotEntry) :
    { d with snapshots := dirPut snapshotBefore name es d.snapshots }.findLatestSnapshot =
        d.findLatestSnapshot ∨
      { d with snapshots := dirPut snapshotBefore name es d.snapshots }.findLatestSnapshot =
        some es := by
  unfold Disk.findLatestSnapshot
  cases hcur : d.current with
  | none =>
    rcases getLast?_dirPut snapshotBefore name es d.snapshots with h | h
    · exact .inr (by simp [h])
    · exact .inl (by simp [h])
  | some x =>
    by_cases hx : x = name
    · subst hx
      exact .inr (by simp [dirFind_dirPut_self])
    · simp only [Option.bind_some, dirFind_dirPut_of_ne snapshotBefore hx]
      cases dirFind x d.snapshots with
      | some old => exact .inl rfl
      | none =>
        rcases getLast?_dirPut snapshotBefore name es d.snapshots with h | h
        · exact .inr (by simp [h])
        · exact .inl (by simp [h])

theorem selectsNext_writeSnapshot {job : Job} (h : CopyOf cfg view s.hist s.marks (copyRecs live))
    (hcov : CoversUpTo cfg.numShards s.drained.length s.marks) (o : FsOutcome) (clk : ClockReading)
    (count : Nat) : SelectsNext cfg view s (s.writeSnapshot job live o clk count) := by
  have hmarks : s.marks ∈ s.captures ++ [s.marks] := mem_append_right _ (mem_singleton_self _)
  have hlatest := findLatestSnapshot_dirPut s.disk count
    (live.map fun p => toSnapshotEntry clk p.1 p.2)
  cases o with
  | failed => exact .same rfl rfl
  | ok | unsynced =>
    rcases hlatest with hold | hnew
    · exact .inl hold
    · exact .inr ⟨hcov, hmarks, _, hnew, snapshotOf_copy h clk⟩

theorem selectsNext_publishCurrent (h : Written cfg view s name)
    (hcov : CoversUpTo cfg.numShards s.drained.length s.marks) (hmarks : s.marks ∈ s.captures)
    (job : Job) (o : FsOutcome) : SelectsNext cfg view s (s.publishCurrent job name o) := by
  obtain ⟨es, hes, hof⟩ := h
  obtain ⟨p, hp | hp⟩ := publishCurrent_cases s job name o
  · rw [hp]
    exact .same rfl rfl
  · rw [hp]
    exact .inr ⟨hcov, hmarks, es, findLatestSnapshot_of_current rfl hes, hof⟩

theorem selectsNext_pruneOne (h : Published cfg view s) :
    SelectsNext cfg view s (s.pruneOne x rest total removed s.disk.current .ok) := by
  unfold pruneOne
  split
  · exact .same rfl rfl
  · split
    · exact .same rfl rfl
    · rename_i hkeep
      obtain ⟨name, hcur, es, hes, -⟩ := h
      have hne : name ≠ x := fun hx => hkeep (.inl (hx ▸ hcur))
      refine .inl ?_
      rw [findLatestSnapshot_of_current hcur hes]
      exact findLatestSnapshot_of_current hcur ((dirFind_dirRemove_of_ne hne _).trans hes)

theorem selectsNext_step (hcap : CaptureInv cfg view s) (hc : CopyInv s)
    (hprune : ∀ x rest total removed keep o, s.phase = .prune (x :: rest) total removed keep →
      ev.outcome = some o → SelectsNext cfg view s (s.pruneOne x rest total removed keep o))
    (hs : s.step cfg ev = some s') : SelectsNext cfg view s s' := by
  cases hev : ev.ofStore with
  | true =>
    cases stepCase hs with
    | store _ hstore => exact .same (by rw [hstore.disk]) (by rw [hstore.disk])
    | _ => cases hev
  | false =>
    cases managerCase hev hs with
    | kept h => exact .same (congrArg (·.2.2.2.1) h) (congrArg (·.2.2.2.2) h)
    | wrote hp h =>
      simp only [CaptureInv, hp] at hcap
      simp only [CopyInv, hp] at hc
      exact h ▸ selectsNext_writeSnapshot hcap hc _ _ _
    | published hp h =>
      simp only [CaptureInv, hp] at hcap
      simp only [CopyInv, hp] at hc
      exact h ▸ selectsNext_publishCurrent hcap hc.2 hc.1 _ _
    | pruned hp ho h => exact h ▸ hprune _ _ _ _ _ _ hp ho

theorem PointerInv.pruneOne (h : PointerInv cfg view s) (hok : AllOk ev) {keep : Option Nat}
    {o : FsOutcome} (hp : s.phase = .prune (x :: rest) total removed keep)
    (ho : ev.outcome = some o) :
    SelectsNext cfg view s (s.pruneOne x rest total removed keep o) := by
  simp only [PointerInv, hp] at h
  cases ev with
  | fs o' clk count =>
    cases ho
    cases hok
    rw [h.2]
    exact selectsNext_pruneOne h.1
  | _ => cases ho

/-! ## 4. The directory along a run -/

theorem LogTail.step_nil {covered rest : List WalEntry} (h : LogTail s [] covered rest)
    (hq : QueueInv s) (hptr : PointerInv cfg view s) (hnamed : s.disk.Named) (he : LogEffect s s') :
    ∃ covered' rest', LogTail s' [] covered' rest' ∧
      (covered' = covered ∨ s.phase.covers ∧ s'.drained = s.drained) := by
  cases he with
  | same rs hlog hhist hpend =>
    exact ⟨covered, rest, h.of_queued hq hlog hhist hpend, .inl rfl⟩
  | drain hlog hhist hpend =>
    exact ⟨covered, rest ++ s.pending, h.of_drain hq hlog hhist hpend, .inl rfl⟩
  | delete x later hphase hstep =>
    simp only [PointerInv, hphase] at hptr
    obtain ⟨⟨x', i⟩, segs, hsegs, hx, -⟩ := map_eq_cons_iff.mp hptr.2
    cases hx
    have hsorted := hnamed.sorted
    rw [hsegs] at hsorted
    have hdrained : s'.drained = s.drained := by
      rw [hstep]
      rfl
    -- the records of the first segment are the first records of the log
    have hlog : s.disk.logRecords = s.disk.inode i ++ s'.disk.logRecords := by
      rw [hstep]
      simp only [Disk.logRecords_eq, Disk.segRecords, hsegs, dirRemove_head hsorted]
      simp
    have hrest : rest = s.disk.inode i ++ s'.disk.logRecords := by
      rw [← hlog, h.log, nil_append]
    refine ⟨covered ++ s.disk.inode i, s'.disk.logRecords, ⟨?_, rfl, nil_sublist _⟩,
      .inr ⟨by rw [hphase]; rfl, hdrained⟩⟩
    rw [hdrained, h.drained, hrest, append_assoc]
  | rotate hphase hlog hhist hpend _ =>
    simp only [PointerInv, hphase] at hptr
    have hdrained : s'.drained = s.drained := by
      rw [PersistState.drained, PersistState.drained, hhist, hpend]
    refine ⟨s.drained, [], ⟨by rw [hdrained, append_nil], ?_, nil_sublist _⟩,
      .inr ⟨by rw [hphase]; rfl, hdrained⟩⟩
    rw [hlog, Disk.segRecords, hptr.2]
    rfl

theorem AllOk.keepsNames (h : AllOk ev) : KeepsNames s ev := by
  cases ev with
  | fs o clk count =>
    cases h
    unfold KeepsNames
    simp only
    split <;> simp
  | _ => trivial

/-- **The directory**: log files, snapshots, and the log behind what the selected snapshot
covers. -/
structure DirInv (cfg : PersistConfig) (view : View) (s : PersistState cfg.numShards) : Prop where
  log : LogInv s
  capture : CaptureInv cfg view s
  pointer : PointerInv cfg view s
  tail : ∃ covered rest, LogTail s [] covered rest ∧ Selected cfg view s covered.length

theorem dirInv_start (cfg : PersistConfig) (view : View) :
    DirInv cfg view (PersistState.start cfg) where
  log := logInv_start cfg
  capture := trivial
  pointer := trivial
  tail := ⟨[], [], ⟨rfl, rfl, List.Sublist.slnil⟩, rfl⟩

theorem PointerInv.published (h : PointerInv cfg view s) (hp : s.phase.covers) :
    Published cfg view s := by
  unfold Phase.covers at hp
  split at hp
  · rename_i heq
    simp only [PointerInv, heq] at h
    exact h.1
  · rename_i heq
    simp only [PointerInv, heq] at h
    exact h.1
  · cases hp

theorem Selected.of_same {c : Nat} (h : Selected cfg view s c) {rs : List WalEntry}
    (hlatest : s'.disk.findLatestSnapshot = s.disk.findLatestSnapshot)
    (hhist : s'.hist = s.hist ++ rs) (hcap : s.captures ⊆ s'.captures) :
    Selected cfg view s' c := by
  unfold Selected at h ⊢
  rw [hlatest, hhist]
  split at h
  · exact h
  · obtain ⟨ms, hms, hof, hcov⟩ := h
    exact ⟨ms, hcap hms, hof.append rs, hcov⟩

theorem Selected.of_some {c : Nat} {ms : List Nat} (hlatest : s.disk.findLatestSnapshot = some es)
    (hms : ms ∈ s.captures) (hof : SnapshotOf cfg view s.hist ms es)
    (hcov : CoversUpTo cfg.numShards c ms) : Selected cfg view s c := by
  unfold Selected
  rw [hlatest]
  exact ⟨ms, hms, hof, hcov⟩

theorem DirInv.storeStep (h : DirInv cfg view s) (hstore : StoreStep s s') :
    DirInv cfg view s' := by
  obtain ⟨rs, hhist, hpend⟩ := hstore.queued
  obtain ⟨covered, rest, htail, hsel⟩ := h.tail
  have hqueue := h.log.queue
  have htail' : LogTail s' [] covered rest :=
    ⟨(drained_of_queued hqueue hhist hpend).trans htail.drained, hstore.disk ▸ htail.log,
      htail.stale⟩
  have heffect : LogEffect s s' := .same rs (by rw [hstore.disk]) hhist hpend
  exact ⟨⟨h.log.files.storeStep hstore, heffect.queueInv hqueue, hstore.copyInv hqueue h.log.copy,
      [], covered, rest, htail'⟩,
    hstore.captureInv h.capture, hstore.pointerInv h.pointer, covered, rest, htail',
    hsel.of_same (by rw [hstore.disk]) hhist fun _ hms => hstore.captures ▸ hms⟩

theorem dirInv_step (h : DirInv cfg view s) (hok : AllOk ev) (hlive : LiveCopies view s ev)
    (hs : s.step cfg ev = some s') : DirInv cfg view s' := by
  have hnamed := h.log.files.named
  have heffect := logEffect_step h.log.files hok.keepsNames hs
  refine ⟨logInv_step h.log hok.keepsNames hs, captureInv_step h.capture hlive hs,
    pointerInv_step hnamed h.capture h.pointer hok hs, ?_⟩
  obtain ⟨covered, rest, htail, hsel⟩ := h.tail
  obtain ⟨covered', rest', htail', hcase⟩ := htail.step_nil h.log.queue h.pointer hnamed heffect
  refine ⟨covered', rest', htail', ?_⟩
  obtain ⟨rs, hhist⟩ := heffect.hist_append
  have hcap := captures_step hs
  -- what is covered now had been drained before the step
  have hle : covered'.length ≤ s.drained.length := by
    rcases hcase with rfl | ⟨-, hdrained⟩
    · rw [htail.drained, length_append]
      exact Nat.le_add_right _ _
    · rw [← hdrained, htail'.drained, length_append]
      exact Nat.le_add_right _ _
  rcases selectsNext_step h.capture h.log.copy
      (fun _ _ _ _ _ _ hp ho => h.pointer.pruneOne hok hp ho) hs with hsame |
        ⟨hcov, hms, es, hes, hof⟩
  · rcases hcase with rfl | ⟨hcovers, -⟩
    · exact hsel.of_same hsame hhist hcap
    · obtain ⟨name, hcur, es, hes, hof⟩ := h.pointer.published hcovers
      have hes := findLatestSnapshot_of_current hcur hes
      obtain ⟨hms, hcov⟩ := h.log.copy.covers hcovers
      exact Selected.of_some (hsame.trans hes) (hcap hms) (hhist ▸ hof.append rs) (hcov.mono hle)
  · exact Selected.of_some hes hms hof (hcov.mono hle)

end Steps

end Cinder
