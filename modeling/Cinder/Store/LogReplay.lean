/-
The records a restart replays, along every run of the manager.
-/
import Cinder.Store.LogFiles

namespace Cinder

open Transition List PersistState Option

variable {n : Nat}

/-! ## 1. The records a restart finds -/

def Disk.segRecords (d : Disk) : List WalEntry := (d.segments.map Prod.snd).flatMap d.inode

theorem Disk.logRecords_eq (d : Disk) :
    d.logRecords = d.segRecords ++ d.walLog.toList.flatMap d.inode := by
  rw [Disk.logRecords, Disk.findWalFiles, flatMap_append, Disk.segRecords]

theorem flatMap_update_of_notMem {files : List Nat} {i : Nat} (h : i ∉ files)
    (inode : Nat → List WalEntry) (rs : List WalEntry) :
    files.flatMap (Function.update inode i rs) = files.flatMap inode := by
  apply flatMap_congr
  intro j hj
  exact Function.update_of_ne (fun hji : j = i => h (hji ▸ hj)) _ _

variable {d : Disk} {s s' : PersistState n} {rs stale covered rest : List WalEntry}
  {cfg : PersistConfig} {ev : PersistEvent}

theorem Disk.Named.walLog_notMem (h : d.Named) {i : Nat} (hi : d.walLog = some i) :
    i ∉ d.segments.map Prod.snd := by
  intro hmem
  have hdisj := (nodup_append.mp h.nodup).2.2 i hmem i
  rw [hi] at hdisj
  exact hdisj (by simp) rfl

theorem Disk.Named.logRecords_append (h : d.Named) {i : Nat} (hi : d.walLog = some i)
    (rs : List WalEntry) : (d.append i rs).logRecords = d.logRecords ++ rs := by
  rw [Disk.logRecords_eq, Disk.logRecords_eq, append_assoc]
  congr 1
  · exact flatMap_update_of_notMem (h.walLog_notMem hi) _ _
  · simp [Disk.append, hi]

theorem Disk.Named.segRecords_createLog (h : d.Named) : d.createLog.segRecords = d.segRecords :=
  flatMap_update_of_notMem (fun hmem => lt_irrefl _ (h.segments_lt hmem)) _ _

theorem Disk.Named.logRecords_createLog (h : d.Named) : d.createLog.logRecords = d.segRecords := by
  rw [Disk.logRecords_eq, h.segRecords_createLog]
  simp [Disk.createLog]

namespace PersistState

def drained (s : PersistState n) : List WalEntry := s.hist.take (s.hist.length - s.pending.length)

end PersistState

/-- What is queued is the end of what has been issued. -/
def QueueInv (s : PersistState n) : Prop := s.hist = s.drained ++ s.pending

theorem drained_of_append (h : s.hist = rs ++ s.pending) : s.drained = rs := by
  have : s.hist.length - s.pending.length = rs.length := by
    rw [h, length_append, Nat.add_sub_cancel]
  rw [drained, this, h, take_left]

theorem QueueInv.of_append (h : s.hist = rs ++ s.pending) : QueueInv s := by
  rw [QueueInv, drained_of_append h]
  exact h

theorem drained_of_queued (hq : QueueInv s) (hhist : s'.hist = s.hist ++ rs)
    (hpend : s'.pending = s.pending ++ rs) : s'.drained = s.drained := by
  apply drained_of_append
  rw [hhist, hpend, hq, append_assoc]

def PersistEvent.outcome : PersistEvent → Option FsOutcome
  | .fs o _ _ => some o
  | _ => none

theorem publishCurrent_cases (s : PersistState n) (job : Job) (name : Nat) (o : FsOutcome) :
    ∃ p, s.publishCurrent job name o = { s with phase := p } ∨
      s.publishCurrent job name o =
        { s with disk := { s.disk with current := some name }, phase := p } := by
  unfold publishCurrent startPrune
  cases job with
  | compact =>
    simp only
    split <;> split <;> first | exact ⟨_, .inl rfl⟩ | exact ⟨_, .inr rfl⟩
  | shutdown => split <;> first | exact ⟨_, .inl rfl⟩ | exact ⟨_, .inr rfl⟩

/-- **What a step does to the log**: nothing (it may queue records), an append of the whole
queue, the deletion of a sealed segment, or a rotation that leaves the sealed segments
only. -/
inductive LogEffect (s s' : PersistState n) : Prop where
  | same (rs : List WalEntry) (log : s'.disk.logRecords = s.disk.logRecords)
      (hist : s'.hist = s.hist ++ rs) (pending : s'.pending = s.pending ++ rs)
  | drain (log : s'.disk.logRecords = s.disk.logRecords ++ s.pending)
      (hist : s'.hist = s.hist) (pending : s'.pending = [])
  | delete (x : Nat) (rest : List Nat) (phase : s.phase = .deleteSealed (x :: rest))
      (step : s' = { s with
        disk := { s.disk with segments := dirRemove x s.disk.segments }
        phase := .deleteSealed rest })
  | rotate (phase : s.phase = .rotate) (log : s'.disk.logRecords = s.disk.segRecords)
      (hist : s'.hist = s.hist) (pending : s'.pending = s.pending)
      (next : s'.phase = .drainFresh ∧ s'.marks = s.marks)

theorem LogEffect.unchanged (log : s'.disk.logRecords = s.disk.logRecords) (hist : s'.hist = s.hist)
    (pending : s'.pending = s.pending) : LogEffect s s' :=
  .same [] log (by simpa using hist) (by simpa using pending)

theorem logEffect_drainQueue (h : s.disk.Named) (hset : Settled s) :
    s.drainQueue.disk.logRecords = s.disk.logRecords ++ s.pending ∧
      s.drainQueue.hist = s.hist ∧ s.drainQueue.pending = [] := by
  obtain ⟨i, hlog⟩ := isSome_iff_exists.mp hset.present
  simp only [drainQueue, hset.handle.trans hlog]
  exact ⟨h.logRecords_append hlog s.pending, trivial, trivial⟩

theorem logEffect_flush {s : PersistState cfg.numShards} (h : FilesInv s) (hp : s.phase = .idle)
    (synced : Bool) : LogEffect s (s.flush cfg synced) := by
  have hset := (handleInv_iff_settled (by rw [hp]; rfl)).mp h.handle
  obtain ⟨hlog, hhist, hpend⟩ := logEffect_drainQueue h.named hset
  unfold flush
  simp only
  split
  · exact .unchanged rfl rfl rfl
  · split <;> exact .drain hlog hhist hpend

theorem logEffect_sealReplace (h : FilesInv s) (hp : s.phase = .sealReplace) (o : FsOutcome) :
    LogEffect s (s.sealReplace o) := by
  have hhandle := h.handle
  simp only [HandleInv, hp] at hhandle
  obtain ⟨-, hlog, -⟩ := hhandle
  have hsegs : s.disk.logRecords = s.disk.segRecords := by
    simp [Disk.logRecords_eq, hlog]
  cases o with
  | ok | unsynced => exact .unchanged (h.named.logRecords_createLog.trans hsegs.symm) rfl rfl
  | failed => exact .unchanged rfl rfl rfl

theorem logEffect_sealRollback (h : FilesInv s) (hp : s.phase = .sealRollback) {o : FsOutcome}
    (ho : o ≠ .failed) : LogEffect s (s.sealRollback o) := by
  have hhandle := h.handle
  simp only [HandleInv, hp] at hhandle
  obtain ⟨-, ⟨segs, i, hsegs, hbelow⟩, hempty⟩ := hhandle
  rw [sealRollback_eq hsegs hbelow ho]
  refine .unchanged ?_ rfl rfl
  -- a file that the failed rotation may have left under `wal.log` holds no record
  have hlog : s.disk.walLog.toList.flatMap s.disk.inode = [] := by
    rw [flatMap_eq_nil_iff]
    intro j hj
    exact hempty j (by simpa using hj)
  rw [Disk.logRecords_eq s.disk, hlog, append_nil, Disk.logRecords_eq]
  simp [Disk.segRecords, hsegs]

theorem logEffect_sealRename (h : FilesInv s) (hp : s.phase = .sealRename) (o : FsOutcome) :
    LogEffect s (s.sealRename o) := by
  have hhandle := h.handle
  simp only [HandleInv, hp] at hhandle
  obtain ⟨-, hlog, hbelow⟩ := hhandle
  obtain ⟨i, hi⟩ := isSome_iff_exists.mp hlog
  rcases sealRename_cases hi hbelow o with heq | heq
  · rw [heq]
    exact .unchanged rfl rfl rfl
  · rw [heq]
    refine .unchanged ?_ rfl rfl
    rw [Disk.logRecords_eq, Disk.logRecords_eq s.disk, hi]
    simp [Disk.segRecords]

theorem logEffect_step {s s' : PersistState cfg.numShards} (h : FilesInv s) (hk : KeepsNames s ev)
    (hs : s.step cfg ev = some s') : LogEffect s s' := by
  cases stepCase hs with
  | store _ hstore =>
    obtain ⟨rs, hhist, hpend⟩ := hstore.queued
    exact .same rs (by rw [hstore.disk]) hhist hpend
  | flush hp heq =>
    subst heq
    exact logEffect_flush h hp _
  | compact hp heq | shutdown hp heq =>
    subst heq
    have hset := (handleInv_iff_settled (by rw [hp]; rfl)).mp h.handle
    obtain ⟨hlog, hhist, hpend⟩ := logEffect_drainQueue h.named hset
    exact .drain hlog hhist hpend
  | @fs o clk count hfs =>
    unfold fsStep at hfs
    simp only [KeepsNames] at hk
    split at hfs
    all_goals rename_i hp
    all_goals cases hfs
    all_goals simp only [hp] at hk
    · exact .unchanged rfl rfl rfl
    · exact .unchanged rfl rfl rfl
    · cases o <;> exact .unchanged rfl rfl rfl
    · obtain ⟨p, heq | heq⟩ := publishCurrent_cases s _ _ o
      all_goals rw [heq]
      all_goals exact .unchanged rfl rfl rfl
    · unfold pruneOne
      split
      · exact .unchanged rfl rfl rfl
      · split <;> exact .unchanged rfl rfl rfl
    · exact .unchanged rfl rfl rfl
    · unfold deleteOne
      split
      · exact .unchanged rfl rfl rfl
      · exact .delete _ _ hp rfl
    · exact .unchanged rfl rfl rfl
    · cases o with
      | ok => exact .rotate hp h.named.logRecords_createLog rfl rfl ⟨rfl, rfl⟩
      | failed => exact .unchanged rfl rfl rfl
      | unsynced => exact absurd rfl hk
    · have hset := (handleInv_iff_settled (by rw [hp]; rfl)).mp h.handle
      obtain ⟨hlog, hhist, hpend⟩ := logEffect_drainQueue h.named hset
      exact .drain hlog hhist hpend
    · exact logEffect_sealRename h hp o
    · rw [sealSync, if_pos hk]
      exact .unchanged rfl rfl rfl
    · exact logEffect_sealReplace h hp o
    · exact logEffect_sealRollback h hp hk

theorem LogEffect.queueInv (h : LogEffect s s') (hq : QueueInv s) : QueueInv s' := by
  cases h with
  | same rs _ hhist hpend =>
    apply QueueInv.of_append
    rw [hhist, hpend, hq, append_assoc]
  | drain _ hhist hpend =>
    apply QueueInv.of_append
    rw [hpend, append_nil]
  | delete x rest _ hstep =>
    subst hstep
    exact hq
  | rotate _ _ hhist hpend _ =>
    apply QueueInv.of_append
    rw [hhist, hpend, hq]

theorem LogEffect.hist_append (h : LogEffect s s') : ∃ rs, s'.hist = s.hist ++ rs := by
  cases h with
  | same rs _ hhist _ => exact ⟨rs, hhist⟩
  | drain _ hhist _ => exact ⟨[], by rw [hhist, append_nil]⟩
  | delete x later _ hstep =>
    subst hstep
    exact ⟨[], by rw [append_nil]⟩
  | rotate _ _ hhist _ _ => exact ⟨[], by rw [hhist, append_nil]⟩

theorem LogEffect.drained_le (h : LogEffect s s') (hq : QueueInv s) :
    s.drained.length ≤ s'.drained.length := by
  cases h with
  | same rs _ hhist hpend => rw [drained_of_queued hq hhist hpend]
  | drain _ hhist hpend =>
    have hall : s'.drained = s.drained ++ s.pending := by
      apply drained_of_append
      rw [hhist, hpend, append_nil]
      exact hq
    rw [hall, length_append]
    exact Nat.le_add_right _ _
  | delete x rest _ hstep =>
    subst hstep
    exact le_rfl
  | rotate _ _ hhist hpend _ =>
    rw [drained, drained, hhist, hpend]

/-! ## 2. Copies of the store -/

/-- A copy of the whole store none of whose shards was copied before `d` records had been
issued. -/
def CoversUpTo (n d : Nat) (marks : List Nat) : Prop := marks.length = n ∧ ∀ m ∈ marks, d ≤ m

/-- The copy of the operation in progress has seen every drained record, and so has the
snapshot written from it. -/
def CopyInv (s : PersistState n) : Prop :=
  match s.phase with
  | .capture _ rest _ =>
    s.marks.length + rest.length = n ∧ ∀ m ∈ s.marks, s.drained.length ≤ m
  | .writeSnapshot _ _ => CoversUpTo n s.drained.length s.marks
  | .publishCurrent _ _ | .prune _ _ _ _ | .deleteSealed _ | .rotate =>
    s.marks ∈ s.captures ∧ CoversUpTo n s.drained.length s.marks
  | _ => True

theorem StoreStep.copyInv (h : StoreStep s s') (hq : QueueInv s) (hc : CopyInv s) : CopyInv s' := by
  obtain ⟨rs, hhist, hpend⟩ := h.queued
  unfold CopyInv at hc ⊢
  rw [h.phase, h.marks, h.captures, drained_of_queued hq hhist hpend]
  exact hc

theorem QueueInv.drained_le : s.drained.length ≤ s.hist.length := by
  rw [drained, length_take]
  exact Nat.min_le_right _ _

section

variable (h : s.marks ∈ s.captures ∧ CoversUpTo n s.drained.length s.marks)

include h

theorem copyInv_startDelete :
    CopyInv s.startDelete :=
  h

theorem copyInv_startPrune :
    CopyInv s.startPrune := by
  unfold startPrune
  simp only
  split
  · exact copyInv_startDelete h
  · exact h

theorem copyInv_publishCurrent
    (job : Job) (name : Nat) (o : FsOutcome) : CopyInv (s.publishCurrent job name o) := by
  unfold publishCurrent
  cases job with
  | compact => split <;> exact copyInv_startPrune h
  | shutdown => split <;> exact trivial

end

variable (s)

theorem copyInv_step {s s' : PersistState cfg.numShards} (hq : QueueInv s) (hc : CopyInv s)
    (hs : s.step cfg ev = some s') : CopyInv s' := by
  cases stepCase hs with
  | store _ hstore => exact hstore.copyInv hq hc
  | @flush synced hp heq =>
    subst heq
    rcases phase_flush hp synced with hp' | hp' <;> simp only [CopyInv, hp']
  | compact hp heq | shutdown hp heq =>
    subst heq
    exact ⟨by simp [beginJob], by simp [beginJob]⟩
  | @fs o clk count hfs =>
    unfold fsStep at hfs
    split at hfs
    all_goals rename_i hp
    all_goals cases hfs
    all_goals simp only [CopyInv, hp] at hc
    · -- a shard is copied: its copy has seen every record issued so far
      refine ⟨?_, ?_⟩
      · have := hc.1
        simp only [length_append, length_cons, length_nil] at this ⊢
        omega
      · intro m hm
        rcases mem_append.mp hm with hm | hm
        · exact hc.2 m hm
        · rw [mem_singleton.mp hm]
          exact QueueInv.drained_le
    · exact ⟨by simpa using hc.1, hc.2⟩
    · cases o with
      | ok => exact ⟨mem_append_right _ (mem_singleton_self _), hc⟩
      | unsynced | failed => exact trivial
    · exact copyInv_publishCurrent hc _ _ o
    · unfold pruneOne
      split
      · exact copyInv_startDelete hc
      · split <;> exact hc
    · exact copyInv_startDelete hc
    · unfold deleteOne
      split <;> exact hc
    · exact hc
    · cases o <;> exact trivial
    · exact trivial
    · unfold sealRename
      split <;> exact trivial
    · unfold sealSync
      split <;> exact trivial
    · cases o <;> exact trivial
    · unfold sealRollback
      split <;> exact trivial

/-- What only the jobs on snapshots touch. -/
def PersistState.apart :
    Table × List WalEntry × List (List Nat) × List (Nat × List SnapshotEntry) × Option Nat :=
  (s.mem, s.hist, s.captures, s.disk.snapshots, s.disk.current)

theorem apart_drainQueue : s.drainQueue.apart = s.apart := by
  unfold drainQueue
  split <;> rfl

theorem apart_reopenLog : s.reopenLog.apart = s.apart := by
  unfold reopenLog
  split <;> rfl

/-- **What a step of the manager is**: it writes, publishes or prunes a snapshot, or touches the
files of the log alone. -/
inductive ManagerCase (s s' : PersistState n) (ev : PersistEvent) : Prop where
  | kept (h : s'.apart = s.apart)
  | wrote {job : Job} {live : List (Key × VersionedEntry)} {o : FsOutcome} {clk : ClockReading}
      {count : Nat} (hp : s.phase = .writeSnapshot job live)
      (h : s' = s.writeSnapshot job live o clk count)
  | published {job : Job} {name : Nat} {o : FsOutcome} (hp : s.phase = .publishCurrent job name)
      (h : s' = s.publishCurrent job name o)
  | pruned {x : Nat} {rest : List Nat} {total removed : Nat} {keep : Option Nat} {o : FsOutcome}
      (hp : s.phase = .prune (x :: rest) total removed keep) (ho : ev.outcome = some o)
      (h : s' = s.pruneOne x rest total removed keep o)

theorem managerCase {s s' : PersistState cfg.numShards} (hev : ev.ofStore = false)
    (hs : s.step cfg ev = some s') : ManagerCase s s' ev := by
  have hdrain := apart_drainQueue s
  have hreopen := apart_reopenLog s
  cases stepCase hs with
  | store hev' =>
    rw [hev] at hev'
    cases hev'
  | flush hp heq =>
    subst heq
    unfold flush
    simp only
    split
    · exact .kept rfl
    · split <;> exact .kept hdrain
  | compact hp heq | shutdown hp heq =>
    subst heq
    exact .kept hdrain
  | @fs o clk count hfs =>
    unfold fsStep at hfs
    split at hfs
    all_goals rename_i hp
    all_goals cases hfs
    · exact .kept rfl
    · exact .kept rfl
    · exact .wrote hp rfl
    · exact .published hp rfl
    · exact .pruned hp rfl rfl
    · exact .kept rfl
    · unfold deleteOne
      split <;> exact .kept rfl
    · exact .kept rfl
    · cases o <;> exact .kept rfl
    · exact .kept hdrain
    · unfold sealRename
      split
      · exact .kept hreopen
      · exact .kept hreopen
      · exact .kept rfl
    · unfold sealSync
      split
      · exact .kept rfl
      · exact .kept hreopen
    · cases o <;> exact .kept rfl
    · unfold sealRollback
      split
      · exact .kept hreopen
      · exact .kept hreopen
      · exact .kept rfl

/-- A step of the manager leaves the store and its history alone; written copies stay
recorded. -/
structure ManagerStep (s s' : PersistState n) : Prop where
  mem : s'.mem = s.mem
  hist : s'.hist = s.hist
  captures : s.captures ⊆ s'.captures

theorem managerStep_step {s s' : PersistState cfg.numShards} (hev : ev.ofStore = false)
    (hs : s.step cfg ev = some s') : ManagerStep s s' := by
  cases managerCase hev hs with
  | kept h =>
    have hcaptures : s'.captures = s.captures := congrArg (·.2.2.1) h
    exact ⟨congrArg (·.1) h, congrArg (·.2.1) h, hcaptures ▸ List.Subset.refl _⟩
  | @wrote job live o clk count hp h =>
    subst h
    cases o with
    | ok | unsynced => exact ⟨rfl, rfl, subset_append_left _ _⟩
    | failed => exact ⟨rfl, rfl, List.Subset.refl _⟩
  | @published job name o hp h =>
    subst h
    obtain ⟨p, heq | heq⟩ := publishCurrent_cases s job name o
    all_goals rw [heq]
    all_goals exact ⟨rfl, rfl, List.Subset.refl _⟩
  | pruned hp ho h =>
    subst h
    unfold pruneOne
    split
    · exact ⟨rfl, rfl, List.Subset.refl _⟩
    · split <;> exact ⟨rfl, rfl, List.Subset.refl _⟩

theorem captures_step {s s' : PersistState cfg.numShards} (hs : s.step cfg ev = some s') :
    s.captures ⊆ s'.captures := by
  cases hev : ev.ofStore with
  | false => exact (managerStep_step hev hs).captures
  | true =>
    cases stepCase hs with
    | store _ hstore =>
      rw [hstore.captures]
      exact List.Subset.refl _
    | _ => cases hev

/-! ## 3. The log behind a covered part -/

/-- The drained records are those `covered` by a snapshot and the `rest`; the log holds the
rest, and before it those of the covered ones whose segment could not be deleted. -/
structure LogTail (stale covered rest : List WalEntry) : Prop where
  drained : s.drained = covered ++ rest
  log : s.disk.logRecords = stale ++ rest
  stale : stale.Sublist covered

variable {s}

theorem dirRemove_cases {V : Type} {dir : List (Nat × V)}
    (h : (dir.map Prod.fst).Pairwise (· < ·)) (x : Nat) :
    dirRemove x dir = dir ∨
      ∃ pre v post, dir = pre ++ (x, v) :: post ∧ dirRemove x dir = pre ++ post := by
  induction dir with
  | nil => exact .inl rfl
  | cons f dir ih =>
    rw [map_cons, pairwise_cons] at h
    obtain ⟨y, v⟩ := f
    by_cases hxy : y = x
    · subst hxy
      refine .inr ⟨[], v, dir, rfl, ?_⟩
      rw [dirRemove, filter_cons_of_neg (by simp)]
      exact filter_eq_self.mpr fun f hf => by
        simpa using Nat.ne_of_gt (h.1 f.1 (mem_map_of_mem hf))
    · have hkeep : dirRemove x ((y, v) :: dir) = (y, v) :: dirRemove x dir := by
        rw [dirRemove, filter_cons_of_pos (by simpa using hxy)]
        rfl
      rcases ih h.2 with hnone | ⟨pre, w, post, hdir, hrem⟩
      · exact .inl (by rw [hkeep, hnone])
      · exact .inr ⟨(y, v) :: pre, w, post, by rw [hdir]; rfl, by rw [hkeep, hrem]; rfl⟩

theorem logRecords_dirRemove (h : d.Named) (x : Nat) :
    ∃ pre cut post, d.logRecords = pre ++ cut ++ post ∧
      { d with segments := dirRemove x d.segments }.logRecords = pre ++ post := by
  rcases dirRemove_cases h.sorted x with hnone | ⟨pre, i, post, hsegs, hrem⟩
  · refine ⟨d.logRecords, [], [], by simp, ?_⟩
    simp only [hnone, append_nil]
  · refine ⟨(pre.map Prod.snd).flatMap d.inode, d.inode i,
      (post.map Prod.snd).flatMap d.inode ++ d.walLog.toList.flatMap d.inode, ?_, ?_⟩
    · rw [Disk.logRecords_eq, Disk.segRecords, hsegs]
      simp
    · rw [Disk.logRecords_eq, Disk.segRecords]
      simp only [hrem]
      simp

section

variable (h : LogTail s stale covered rest)

include h

theorem LogTail.cut {pre cut post : List WalEntry}
    (hlog : s.disk.logRecords = pre ++ cut ++ post) (hlog' : s'.disk.logRecords = pre ++ post)
    (hdrained : s'.drained = s.drained) :
    ∃ stale' covered' rest', LogTail s' stale' covered' rest' := by
  rw [h.log] at hlog
  rcases append_eq_append_iff.mp hlog with ⟨a, hpre, hrest⟩ | ⟨a, hstale, hpost⟩
  · -- the cut reaches into the uncovered part: everything up to its end is now covered
    refine ⟨pre, covered ++ a, post, ?_, hlog', ?_⟩
    · rw [hdrained, h.drained, hrest, append_assoc]
    · have hkept : pre.Sublist (stale ++ a) := hpre ▸ sublist_append_left pre cut
      exact hkept.trans (h.stale.append_right a)
  · refine ⟨pre ++ a, covered, rest, by rw [hdrained, h.drained], ?_, ?_⟩
    · rw [hlog', hpost, append_assoc]
    · refine List.Sublist.trans ?_ (hstale ▸ h.stale)
      rw [append_assoc]
      exact (sublist_append_right cut a).append_left pre

theorem LogTail.of_queued (hq : QueueInv s)
    (hlog : s'.disk.logRecords = s.disk.logRecords) (hhist : s'.hist = s.hist ++ rs)
    (hpend : s'.pending = s.pending ++ rs) : LogTail s' stale covered rest where
  drained := by rw [drained_of_queued hq hhist hpend, h.drained]
  log := hlog.trans h.log
  stale := h.stale

theorem LogTail.of_drain (hq : QueueInv s)
    (hlog : s'.disk.logRecords = s.disk.logRecords ++ s.pending) (hhist : s'.hist = s.hist)
    (hpend : s'.pending = []) : LogTail s' stale covered (rest ++ s.pending) where
  drained := by
    apply drained_of_append
    rw [hhist, hpend, hq, h.drained, append_assoc, append_nil]
  log := by rw [hlog, h.log, append_assoc]
  stale := h.stale

theorem LogTail.of_rotate
    (hlog : s'.disk.logRecords = s.disk.segRecords) (hdrained : s'.drained = s.drained) :
    LogTail s' s.disk.segRecords s.drained [] where
  drained := by rw [hdrained, append_nil]
  log := by rw [hlog, append_nil]
  stale := by
    have hsegs : s.disk.segRecords.Sublist (stale ++ rest) := by
      rw [← h.log, Disk.logRecords_eq]
      exact sublist_append_left _ _
    rw [h.drained]
    exact hsegs.trans (h.stale.append_right rest)

end

/-- Dropping a segment or the active file covers records; nothing else does. -/
def Phase.covers : Phase n → Bool
  | .deleteSealed _ | .rotate => true
  | _ => false

/-- The step of a compaction that takes a file out of the log. -/
structure Drops (s s' : PersistState n) : Prop where
  drained : s'.drained = s.drained
  marks : s'.marks = s.marks
  phase : (∃ later later', s.phase = .deleteSealed later ∧ s'.phase = .deleteSealed later' ∧
    s'.disk.segments ≠ s.disk.segments) ∨ s.phase = .rotate ∧ s'.phase = .drainFresh

theorem Drops.covers (h : Drops s s') : s.phase.covers = true := by
  rcases h.phase with ⟨later, _, hp, -⟩ | ⟨hp, -⟩ <;> rw [hp] <;> rfl

theorem LogTail.step (h : LogTail s stale covered rest) (hnamed : s.disk.Named) (hq : QueueInv s)
    (he : LogEffect s s') :
    ∃ stale' covered' rest', LogTail s' stale' covered' rest' ∧
      (covered' = covered ∨ Drops s s') := by
  cases he with
  | same rs hlog hhist hpend =>
    exact ⟨stale, covered, rest, h.of_queued hq hlog hhist hpend, .inl rfl⟩
  | drain hlog hhist hpend =>
    exact ⟨stale, covered, rest ++ s.pending, h.of_drain hq hlog hhist hpend, .inl rfl⟩
  | delete x later hphase hstep =>
    have hdrained : s'.drained = s.drained := by
      rw [hstep]
      rfl
    by_cases hsegs : dirRemove x s.disk.segments = s.disk.segments
    · refine ⟨stale, covered, rest, ⟨hdrained.trans h.drained, ?_, h.stale⟩, .inl rfl⟩
      rw [← h.log, hstep]
      simp only [hsegs]
    · obtain ⟨pre, cut, post, hlog, hlog'⟩ := logRecords_dirRemove hnamed x
      have hcut : s'.disk.logRecords = pre ++ post := by
        rw [hstep]
        exact hlog'
      obtain ⟨stale', covered', rest', h'⟩ := h.cut hlog hcut hdrained
      refine ⟨stale', covered', rest', h', .inr ⟨hdrained, ?_, .inl ⟨_, later, hphase, ?_, ?_⟩⟩⟩ <;>
        rw [hstep]
      exact hsegs
  | rotate hphase hlog hhist hpend hnext =>
    have hdrained : s'.drained = s.drained := by
      rw [PersistState.drained, PersistState.drained, hhist, hpend]
    exact ⟨_, _, _, h.of_rotate hlog hdrained, .inr ⟨hdrained, hnext.2, .inr ⟨hphase, hnext.1⟩⟩⟩

/-! ## 4. Drained records are replayed -/

/-- The manager with what it does not read: the copies of the compactions that have returned
success, and whether the one that is running has deleted a segment. -/
structure Compacted (n : Nat) where
  state : PersistState n
  done : List (List Nat) := []
  deleted : Bool := false

namespace Compacted

def start (cfg : PersistConfig) : Compacted cfg.numShards where
  state := .start cfg

variable (c : Compacted n)

/-- `compact` returns success behind the drain into the fresh log. -/
def next (s : PersistState n) : Compacted n where
  state := s
  done := match c.state.phase, s.phase with
    | .drainFresh, .idle => c.done ++ [c.state.marks]
    | _, _ => c.done
  deleted := match c.state.phase with
    | .idle => false
    | .deleteSealed _ => c.deleted || s.disk.segments ≠ c.state.disk.segments
    | _ => c.deleted

def step (cfg : PersistConfig) (c : Compacted cfg.numShards) (ev : PersistEvent) :
    Option (Compacted cfg.numShards) :=
  (c.state.step cfg ev).map c.next

/-- The rotation of a compaction that has deleted a segment is due. -/
def rotating : Bool :=
  match c.state.phase with
  | .rotate => c.deleted
  | _ => false

/-- A compaction is running and has dropped a file of the log. -/
def dropping : Bool :=
  match c.state.phase with
  | .deleteSealed _ | .rotate => c.deleted
  | .drainFresh => true
  | _ => false

/-- A restart replays the drained records in order and once, from the point up to which a
compaction covers them that has returned success or is dropping files; before them come at most
covered ones. -/
def ReplaysDrained : Prop :=
  ∃ stale covered rest, LogTail c.state stale covered rest ∧
    (covered = [] ∨ (∃ ms ∈ c.done, CoversUpTo n covered.length ms) ∨
      c.dropping = true ∧ CoversUpTo n covered.length c.state.marks)

/-- Names are kept, and the rotation of a compaction that has deleted a segment succeeds. -/
def KeepsRecords (ev : PersistEvent) : Prop :=
  KeepsNames c.state ev ∧ (c.rotating = true → ev.outcome ≠ some .failed)

end Compacted

/-- The writer appends to a file the restart reads. -/
def WritesFound (s : PersistState n) : Prop := ∀ i, s.wal = some i → i ∈ s.disk.findWalFiles

/-- A seal about to rename takes a name no segment has. -/
def SealsFresh (s : PersistState n) : Prop :=
  match s.phase with
  | .sealRename => ∀ f ∈ s.disk.segments, f.1 ≠ s.nextSeq
  | _ => True

theorem FilesInv.writesFound (h : FilesInv s) : WritesFound s := by
  intro i hi
  have hhandle := h.handle
  unfold HandleInv at hhandle
  split at hhandle
  case h_5 =>
    rw [Disk.findWalFiles, ← hhandle.handle, hi]
    exact mem_append_right _ (mem_singleton_self i)
  all_goals
    rw [hhandle.1] at hi
    cases hi

theorem FilesInv.sealsFresh (h : FilesInv s) : SealsFresh s := by
  have hhandle := h.handle
  unfold SealsFresh
  split
  · rename_i hp
    simp only [HandleInv, hp] at hhandle
    intro f hf
    exact Nat.ne_of_lt (hhandle.2.2 f hf)
  · trivial

theorem CopyInv.covers (h : CopyInv s) (hp : s.phase.covers) :
    s.marks ∈ s.captures ∧ CoversUpTo n s.drained.length s.marks := by
  unfold CopyInv at h
  unfold Phase.covers at hp
  split at hp
  · rename_i heq
    simpa only [heq] using h
  · rename_i heq
    simpa only [heq] using h
  · cases hp

theorem CoversUpTo.mono {c d : Nat} {ms : List Nat} (h : CoversUpTo n d ms) (hcd : c ≤ d) :
    CoversUpTo n c ms :=
  ⟨h.1, fun m hm => le_trans hcd (h.2 m hm)⟩

/-- What a run keeps of the log. -/
structure LogInv (s : PersistState n) : Prop where
  files : FilesInv s
  queue : QueueInv s
  copy : CopyInv s
  tail : ∃ stale covered rest, LogTail s stale covered rest

theorem logInv_start (cfg : PersistConfig) : LogInv (PersistState.start cfg) where
  files := filesInv_start cfg
  queue := rfl
  copy := trivial
  tail := ⟨[], [], [], rfl, rfl, List.Sublist.slnil⟩

theorem logInv_step {s s' : PersistState cfg.numShards} (h : LogInv s) (hk : KeepsNames s ev)
    (hs : s.step cfg ev = some s') : LogInv s' := by
  have heffect := logEffect_step h.files hk hs
  obtain ⟨stale, covered, rest, htail⟩ := h.tail
  refine ⟨filesInv_step h.files hk hs, heffect.queueInv h.queue, copyInv_step h.queue h.copy hs,
    ?_⟩
  obtain ⟨stale', covered', rest', htail', -⟩ := htail.step h.files.named h.queue heffect
  exact ⟨stale', covered', rest', htail'⟩

namespace Compacted

variable {c c' : Compacted cfg.numShards}

theorem dropping_step (h : c.dropping = true) (hok : c.KeepsRecords ev)
    (hs : c.step cfg ev = some c') :
    c'.done = c.done ++ [c.state.marks] ∨
      c'.dropping = true ∧ c'.state.marks = c.state.marks := by
  obtain ⟨s, hstep, rfl⟩ := map_eq_some_iff.mp hs
  unfold dropping at h
  cases stepCase hstep with
  | store _ hstore =>
    refine .inr ⟨?_, hstore.marks⟩
    simp only [dropping, next, hstore.phase]
    cases hp : c.state.phase <;> simp_all
  | flush hp | compact hp | shutdown hp => simp [hp] at h
  | @fs o clk count hfs =>
    have hrotating := hok.2
    unfold fsStep at hfs
    unfold rotating at hrotating
    split at hfs <;> rename_i hp <;> simp only [hp, Bool.false_eq_true] at h hrotating <;> cases hfs
    · unfold deleteOne
      split <;> exact .inr ⟨by simp [dropping, next, hp, h], rfl⟩
    · exact .inr ⟨by simp [dropping, next, hp, h], rfl⟩
    · cases o with
      | ok => exact .inr ⟨rfl, rfl⟩
      | failed => exact absurd rfl (hrotating h)
      | unsynced => exact absurd hok.1 (by simp [KeepsNames, hp])
    · exact .inl (by simp [next, hp])

theorem ReplaysDrained.step (h : c.ReplaysDrained) (hinv : LogInv c.state) (hok : c.KeepsRecords ev)
    (hs : c.step cfg ev = some c') : c'.ReplaysDrained := by
  have hdropping := fun hdrop => dropping_step hdrop hok hs
  obtain ⟨s, hstep, rfl⟩ := map_eq_some_iff.mp hs
  obtain ⟨stale, covered, rest, htail, hcov⟩ := h
  obtain ⟨stale', covered', rest', htail', hcase⟩ := htail.step hinv.files.named hinv.queue
    (logEffect_step hinv.files hok.1 hstep)
  refine ⟨stale', covered', rest', htail', ?_⟩
  rcases hcase with rfl | hdrop
  · rcases hcov with hnil | ⟨ms, hms, hle⟩ | ⟨hdrop, hle⟩
    · exact .inl hnil
    · refine .inr (.inl ⟨ms, ?_, hle⟩)
      unfold next
      split
      · exact mem_append_left _ hms
      · exact hms
    · rcases hdropping hdrop with hdone | ⟨hdrop', hmarks⟩
      · refine .inr (.inl ⟨_, ?_, hle⟩)
        rw [hdone]
        exact mem_append_right _ (mem_singleton_self _)
      · exact .inr (.inr ⟨hdrop', hmarks ▸ hle⟩)
  · have hdrop' : (c.next s).dropping = true := by
      unfold dropping next
      rcases hdrop.phase with ⟨later, later', hp, hp', hsegs⟩ | ⟨hp, hp'⟩
      · simp [hp, hp', hsegs]
      · simp [hp']
    refine .inr (.inr ⟨hdrop', hdrop.marks ▸ (hinv.copy.covers hdrop.covers).2.mono ?_⟩)
    rw [← hdrop.drained, htail'.drained, length_append]
    exact Nat.le_add_right _ _

/-- **No drained record is lost by a failed seal or rotation**, as long as the directory sync
behind the seal's rename, the one behind a rotation's rename and the rename back of a failed seal
do not fail, nor the rotation of a compaction that has deleted a segment. -/
theorem drained_records_replayed (cfg : PersistConfig) (c : Compacted cfg.numShards)
    (h : Reaches (step cfg) KeepsRecords (start cfg) c) :
    c.ReplaysDrained ∧ WritesFound c.state ∧ SealsFresh c.state := by
  let inv : Compacted cfg.numShards → Prop := fun c => LogInv c.state ∧ c.ReplaysDrained
  have hinv : inv c := by
    refine h.invariant ⟨logInv_start cfg, [], [], [], ⟨rfl, rfl, List.Sublist.slnil⟩, .inl rfl⟩ ?_
    intro c ev c' hc hok hs
    obtain ⟨s, hstep, rfl⟩ := map_eq_some_iff.mp hs
    exact ⟨logInv_step hc.1 hok.1 hstep, hc.2.step hc.1 hok hs⟩
  exact ⟨hinv.2, hinv.1.files.writesFound, hinv.1.files.sealsFresh⟩

end Compacted

instance (s : PersistState n) (ev : PersistEvent) : Decidable (KeepsNames s ev) := by
  unfold KeepsNames
  split
  · split <;> infer_instance
  · infer_instance

/-- A manager with one shard that seals at every flush. -/
def sealAlways : PersistConfig :=
  { numShards := 1, shardFor := fun _ => 0, maxWalSegmentBytes := 1 }

/-- A put without value or expiry. -/
def PersistEvent.wrote (key : Key) (versionAndTtl : UInt64) : PersistEvent :=
  .put key { versionAndTtl := versionAndTtl, value := [] } {}

/-- The next file operation succeeds. -/
def PersistEvent.ok : PersistEvent := .fs .ok {} 0

instance (c : Compacted n) (ev : PersistEvent) : Decidable (c.KeepsRecords ev) :=
  inferInstanceAs (Decidable (_ ∧ _))

namespace Compacted

/-- A seal whose rotation fails is rolled back, the next one succeeds: both records are found. -/
theorem drained_records_replayed_after_rollback :
    ∃ c, Reaches (step sealAlways) KeepsRecords (start sealAlways) c ∧
      (c.state.disk.segments.length = 1 ∧ c.state.disk.logRecords.length = 2) ∧
      c.ReplaysDrained ∧ WritesFound c.state ∧ SealsFresh c.state := by
  obtain ⟨c, hreach, hp⟩ := exists_reaches_of_exec (step sealAlways) KeepsRecords (start sealAlways)
    [.wrote [1] 4, .flush true, .ok, .ok, .fs .unsynced {} 0, .ok,
      .wrote [2] 8, .flush true, .ok, .ok, .ok]
    (fun c => c.state.disk.segments.length = 1 ∧ c.state.disk.logRecords.length = 2) rfl
  exact ⟨c, hreach, by simpa using hp, drained_records_replayed sealAlways c hreach⟩

theorem ReplaysDrained.log_eq {c : Compacted n} (h : c.ReplaysDrained) (hdone : c.done = [])
    (hdrop : c.dropping = false) : c.state.disk.logRecords = c.state.drained := by
  obtain ⟨stale, covered, rest, htail, hnil | ⟨ms, hms, -⟩ | ⟨hdrop', -⟩⟩ := h
  · have hstale : stale = [] := sublist_nil.mp (hnil ▸ htail.stale)
    rw [htail.log, htail.drained, hstale, hnil]
  · rw [hdone] at hms
    cases hms
  · rw [hdrop] at hdrop'
    cases hdrop'

theorem exists_lost (ok : Compacted sealAlways.numShards → PersistEvent → Prop)
    [∀ c ev, Decidable (ok c ev)]
    (evs : List PersistEvent) (h : (exec (step sealAlways) ok (start sealAlways) evs).any
      (fun c => c.done = [] ∧ c.dropping = false ∧
        c.state.disk.logRecords.length ≠ c.state.drained.length) = true) :
    ∃ c, Reaches (step sealAlways) ok (start sealAlways) c ∧ ¬ c.ReplaysDrained := by
  obtain ⟨c, hreach, hp⟩ := exists_reaches_of_exec _ _ _ evs _ h
  obtain ⟨hdone, hdrop, hlost⟩ := of_decide_eq_true hp
  exact ⟨c, hreach, fun hrep => hlost (congrArg length (hrep.log_eq hdone hdrop))⟩

/-- The directory sync behind a seal's rename fails: the segment is there, the sequence number
stays, and the next seal renames over the segment. And where names are kept: a compaction deletes
the only segment and fails to rotate. -/
theorem sealed_segment_overwritten :
    (∃ c, Reaches (step sealAlways) (fun _ _ => True) (start sealAlways) c ∧ ¬ c.ReplaysDrained) ∧
    ∃ c, Reaches (step sealAlways) (fun c ev => KeepsNames c.state ev) (start sealAlways) c ∧
      ¬ c.ReplaysDrained :=
  ⟨exists_lost _ [.wrote [1] 4, .flush true, .ok, .fs .failed {} 0, .wrote [2] 8, .flush true, .ok]
      rfl,
    exists_lost _ [.wrote [1] 4, .flush true, .ok, .ok, .ok,
      .compact, .ok, .ok, .ok, .ok, .ok, .ok, .fs .failed {} 0] rfl⟩

end Compacted

end Cinder
