/-
The names of the log files under appends, seals, rotations and their failures.
-/
import Cinder.Store.Persistence

namespace Cinder

open List PersistState Disk Option

/-! ## 1. Directory lemmas -/

section Directory

variable {V : Type}

abbrev seqBefore (a b : Nat) : Bool := decide (a < b)

def NamesBelow (dir : List (Nat × V)) (name : Nat) : Prop := ∀ f ∈ dir, f.1 < name

variable {dir : List (Nat × V)} {name : Nat}

theorem dirPut_of_namesBelow (h : NamesBelow dir name) (v : V) :
    dirPut seqBefore name v dir = dir ++ [(name, v)] := by
  induction dir with
  | nil => rfl
  | cons f dir ih =>
    obtain ⟨hf, hrest⟩ := forall_mem_cons.mp h
    have h1 : f.1 ≠ name := Nat.ne_of_lt hf
    have h2 : ¬ name < f.1 := lt_asymm hf
    simp [dirPut, h1, h2, ih hrest]

theorem dirRemove_of_namesBelow (h : NamesBelow dir name) (v : V) :
    dirRemove name (dir ++ [(name, v)]) = dir := by
  have hkeep : dir.filter (fun f => decide (f.1 ≠ name)) = dir :=
    filter_eq_self.mpr fun f hf => by simpa using Nat.ne_of_lt (h f hf)
  simp only [dirRemove, filter_append, hkeep]
  simp

theorem dirFind_of_namesBelow (h : NamesBelow dir name) (v : V) :
    dirFind name (dir ++ [(name, v)]) = some v := by
  have hnone : dir.find? (fun f => decide (f.1 = name)) = none :=
    List.find?_eq_none.mpr fun f hf => by simpa using Nat.ne_of_lt (h f hf)
  simp [dirFind, List.find?_append, hnone]

theorem NamesBelow.dirRemove {a : Nat} (h : NamesBelow dir a) (x : Nat) :
    NamesBelow (dirRemove x dir) a := fun f hf => h f (mem_filter.mp hf).1

end Directory

/-! ## 2. Names and handles -/

variable {n : Nat}

variable (s : PersistState n)

/-- Outside a seal: `wal_` writes to `wal.log`, and every sealed segment is below the next
sequence number. -/
structure Settled : Prop where
  handle : s.wal = s.disk.walLog
  present : s.disk.walLog.isSome
  below : NamesBelow s.disk.segments s.nextSeq

/-- Inside a seal: the newest segment carries the next sequence number. -/
def SealedLast : Prop :=
  ∃ segs i, s.disk.segments = segs ++ [(s.nextSeq, i)] ∧ NamesBelow segs s.nextSeq

def HandleInv : Prop :=
  match s.phase with
  | .sealRename => s.wal = none ∧ s.disk.walLog.isSome ∧ NamesBelow s.disk.segments s.nextSeq
  | .sealSync | .sealReplace => s.wal = none ∧ s.disk.walLog = none ∧ SealedLast s
  | .sealRollback => s.wal = none ∧ SealedLast s ∧ ∀ i ∈ s.disk.walLog, s.disk.inode i = []
  | _ => Settled s

/-- No two log names share a file, and segment names ascend. -/
structure Disk.Named (d : Disk) : Prop where
  bound : ∀ i ∈ d.findWalFiles, i < d.nextInode
  nodup : d.findWalFiles.Nodup
  sorted : (d.segments.map Prod.fst).Pairwise (· < ·)

/-- **Open writer, names and sequence number agree.** -/
structure FilesInv : Prop where
  named : s.disk.Named
  handle : HandleInv s

/-- The three failures that part the writer, the names and the sequence number: the directory
sync behind the seal's rename, the directory sync behind a rotation's rename, and the
rename back of a failed seal. -/
def KeepsNames : PersistEvent → Prop
  | .fs o _ _ =>
    match s.phase with
    | .sealSync => o = .ok
    | .rotate => o ≠ .unsynced
    | .sealRollback => o ≠ .failed
    | _ => True
  | _ => True

theorem filesInv_start (cfg : PersistConfig) : FilesInv (PersistState.start cfg) where
  named :=
    { bound := by simp [start, restart, reopenLog, findWalFiles, createLog]
      nodup := nodup_singleton _
      sorted := List.Pairwise.nil }
  handle := ⟨rfl, rfl, fun _ hf => absurd hf not_mem_nil⟩

/-- Equal in everything the names of the log files are about. -/
structure SameNames (s s' : PersistState n) : Prop where
  walLog : s'.disk.walLog = s.disk.walLog
  segments : s'.disk.segments = s.disk.segments
  nextInode : s'.disk.nextInode = s.disk.nextInode
  wal : s'.wal = s.wal
  nextSeq : s'.nextSeq = s.nextSeq

variable {s s' : PersistState n} {cfg : PersistConfig} {o : FsOutcome}

theorem SameNames.findWalFiles (h : SameNames s s') :
    s'.disk.findWalFiles = s.disk.findWalFiles := by
  rw [Disk.findWalFiles, Disk.findWalFiles, h.segments, h.walLog]

theorem Settled.of_sameNames (h : Settled s) (hs : SameNames s s') : Settled s' := by
  refine ⟨?_, ?_, ?_⟩
  · rw [hs.wal, hs.walLog, h.handle]
  · rw [hs.walLog]
    exact h.present
  · rw [hs.segments, hs.nextSeq]
    exact h.below

theorem FilesInv.of_sameNames (h : FilesInv s) (hs : SameNames s s') (hhandle : HandleInv s') :
    FilesInv s' := by
  refine ⟨⟨?_, ?_, ?_⟩, hhandle⟩
  · rw [hs.findWalFiles, hs.nextInode]
    exact h.named.bound
  · rw [hs.findWalFiles]
    exact h.named.nodup
  · rw [hs.segments]
    exact h.named.sorted

/-- **What a store operation does**: it may queue a record; the disk, the writer and the
manager's phase stay. -/
structure StoreStep (s s' : PersistState n) : Prop where
  disk : s'.disk = s.disk
  wal : s'.wal = s.wal
  nextSeq : s'.nextSeq = s.nextSeq
  phase : s'.phase = s.phase
  marks : s'.marks = s.marks
  captures : s'.captures = s.captures
  queued : ∃ rs, s'.hist = s.hist ++ rs ∧ s'.pending = s.pending ++ rs

variable (s)

theorem StoreStep.refl : StoreStep s s := ⟨rfl, rfl, rfl, rfl, rfl, rfl, [], by simp⟩

theorem StoreStep.onWrite (mem : Table) (r : WalEntry) :
    StoreStep s ({ s with mem := mem }.onWrite r) := ⟨rfl, rfl, rfl, rfl, rfl, rfl, [r], rfl, rfl⟩

theorem storeStep_put (key : Key) (e : VersionedEntry)
    (clk : ClockReading) : StoreStep s (s.put key e clk) := by
  unfold put
  split
  · split
    · exact .refl s
    · exact .onWrite s _ _
  · exact .onWrite s _ _

theorem storeStep_remove (key : Key) : StoreStep s (s.remove key) := by
  unfold remove
  split
  · exact .onWrite s _ _
  · exact .refl s

theorem storeStep_expire (key : Key) (now : Nanos) : StoreStep s (s.expire key now) := by
  unfold expire
  split
  · split
    · exact ⟨rfl, rfl, rfl, rfl, rfl, rfl, [], by simp⟩
    · exact .refl s
  · exact .refl s

variable {s}

/-- The steps of the store, which do not wait for the manager. -/
def PersistEvent.ofStore : PersistEvent → Bool
  | .put _ _ _ | .remove _ | .expire _ _ => true
  | _ => false

/-- **What a step is**: an operation of the store, or of the manager, which waits until no other
one is running. -/
inductive StepCase (cfg : PersistConfig) (s s' : PersistState cfg.numShards) :
    PersistEvent → Prop where
  | store {ev : PersistEvent} (hev : ev.ofStore = true) (h : StoreStep s s') : StepCase cfg s s' ev
  | flush {synced : Bool} (hp : s.phase = .idle) (h : s' = s.flush cfg synced) :
      StepCase cfg s s' (.flush synced)
  | compact (hp : s.phase = .idle) (h : s' = s.beginJob cfg .compact) : StepCase cfg s s' .compact
  | shutdown (hp : s.phase = .idle) (h : s' = s.beginJob cfg .shutdown) :
      StepCase cfg s s' .shutdown
  | fs {o : FsOutcome} {clk : ClockReading} {count : Nat}
      (h : s.fsStep cfg o clk count = some s') : StepCase cfg s s' (.fs o clk count)

theorem stepCase {s s' : PersistState cfg.numShards} {ev : PersistEvent}
    (hs : s.step cfg ev = some s') : StepCase cfg s s' ev := by
  cases ev with
  | put key e clk =>
    cases hs
    exact .store rfl (storeStep_put s key e clk)
  | remove key =>
    cases hs
    exact .store rfl (storeStep_remove s key)
  | expire key now =>
    cases hs
    exact .store rfl (storeStep_expire s key now)
  | flush synced =>
    simp only [step] at hs
    split at hs
    · cases hs
      exact .flush ‹_› rfl
    · cases hs
  | compact =>
    simp only [step] at hs
    split at hs
    · cases hs
      exact .compact ‹_› rfl
    · cases hs
  | shutdown =>
    simp only [step] at hs
    split at hs
    · cases hs
      exact .shutdown ‹_› rfl
    · cases hs
  | fs o clk count => exact .fs hs

theorem StoreStep.sameNames (h : StoreStep s s') : SameNames s s' :=
  ⟨by rw [h.disk], by rw [h.disk], by rw [h.disk], h.wal, h.nextSeq⟩

theorem StoreStep.handleInv (h : StoreStep s s') (hi : HandleInv s) : HandleInv s' := by
  unfold HandleInv at hi ⊢
  rw [h.phase, h.wal, h.disk]
  unfold SealedLast at hi ⊢
  rw [h.disk, h.nextSeq]
  split at hi
  · exact hi
  · exact hi
  · exact hi
  · exact hi
  · exact hi.of_sameNames h.sameNames

theorem FilesInv.storeStep (h : FilesInv s) (hs : StoreStep s s') : FilesInv s' :=
  h.of_sameNames hs.sameNames (hs.handleInv h.handle)

theorem sameNames_drainQueue (s : PersistState n) : SameNames s s.drainQueue := by
  unfold drainQueue
  split <;> exact ⟨rfl, rfl, rfl, rfl, rfl⟩

theorem phase_drainQueue (s : PersistState n) : s.drainQueue.phase = s.phase := by
  unfold drainQueue
  split <;> rfl

theorem phase_flush {s : PersistState cfg.numShards} (hp : s.phase = .idle) (synced : Bool) :
    (s.flush cfg synced).phase = .idle ∨ (s.flush cfg synced).phase = .sealRename := by
  unfold flush
  simp only
  split
  · exact .inl hp
  · split
    · exact .inr rfl
    · exact .inl ((phase_drainQueue s).trans hp)

namespace Disk.Named

variable {d : Disk}

theorem segments_lt (h : d.Named) {i : Nat} (hi : i ∈ d.segments.map Prod.snd) : i < d.nextInode :=
  h.bound i (mem_append_left _ hi)

theorem createLog (h : d.Named) : d.createLog.Named where
  bound := by
    intro i hi
    rcases mem_append.mp hi with hseg | hact
    · exact Nat.lt_succ_of_lt (h.segments_lt hseg)
    · rw [Disk.createLog, toList_some, mem_singleton] at hact
      exact hact ▸ Nat.lt_succ_self _
  nodup := by
    refine nodup_append.mpr ⟨(nodup_append.mp h.nodup).1, by simp [Disk.createLog], ?_⟩
    intro i hi j hj
    rw [Disk.createLog, toList_some, mem_singleton] at hj
    exact hj ▸ Nat.ne_of_lt (h.segments_lt hi)
  sorted := h.sorted

theorem sealLog (h : d.Named) {i seq : Nat} (hlog : d.walLog = some i)
    (hbelow : NamesBelow d.segments seq) :
    { d with walLog := none, segments := d.segments ++ [(seq, i)] : Disk }.Named where
  bound := by
    have := h.bound
    rw [findWalFiles, hlog] at this
    simpa [findWalFiles] using this
  nodup := by
    have := h.nodup
    rw [findWalFiles, hlog] at this
    simpa [findWalFiles] using this
  sorted := by
    rw [map_append, pairwise_append]
    refine ⟨h.sorted, by simp, ?_⟩
    intro a ha b hb
    obtain ⟨f, hf, rfl⟩ := mem_map.mp ha
    simp only [map_cons, map_nil, mem_singleton] at hb
    exact hb ▸ hbelow f hf

theorem unsealLog (h : d.Named) {segs : List (Nat × Nat)} {i seq : Nat}
    (hsegs : d.segments = segs ++ [(seq, i)]) :
    { d with walLog := some i, segments := segs : Disk }.Named where
  bound := by
    intro j hj
    apply h.bound
    rw [findWalFiles, hsegs]
    simp only [findWalFiles, toList_some, mem_append, mem_singleton] at hj
    rcases hj with hj | hj <;> simp [hj]
  nodup := by
    have := (nodup_append.mp h.nodup).1
    rwa [hsegs, map_append] at this
  sorted := by
    have := h.sorted
    rw [hsegs, map_append, pairwise_append] at this
    exact this.1

theorem dirRemove (h : d.Named) (x : Nat) :
    { d with segments := Cinder.dirRemove x d.segments : Disk }.Named := by
  have hsub : (Cinder.dirRemove x d.segments).Sublist d.segments := filter_sublist
  have hfiles : ({ d with segments := Cinder.dirRemove x d.segments : Disk }).findWalFiles.Sublist
      d.findWalFiles := (hsub.map Prod.snd).append (List.Sublist.refl _)
  exact ⟨fun i hi => h.bound i (hfiles.subset hi), h.nodup.sublist hfiles,
    h.sorted.sublist (hsub.map Prod.fst)⟩

end Disk.Named

theorem reopenLog_of_walLog {i : Nat} (h : s.disk.walLog = some i) :
    s.reopenLog = { s with wal := some i } := by
  simp [reopenLog, h]

def Phase.sealing : Phase n → Bool
  | .sealRename | .sealSync | .sealReplace | .sealRollback => true
  | .idle | .capture _ _ _ | .writeSnapshot _ _ | .publishCurrent _ _ | .prune _ _ _ _
  | .deleteSealed _ | .rotate | .drainFresh => false

theorem handleInv_iff_settled (h : s.phase.sealing = false) : HandleInv s ↔ Settled s := by
  unfold HandleInv
  split <;> simp_all [Phase.sealing]

/-- A step outside a seal that renames no log file. -/
structure QuietStep (s s' : PersistState n) : Prop where
  names : SameNames s s'
  phase : s'.phase.sealing = false

theorem FilesInv.quiet (h : FilesInv s) (hp : s.phase.sealing = false) (hq : QuietStep s s') :
    FilesInv s' :=
  h.of_sameNames hq.names <| (handleInv_iff_settled hq.phase).mpr <|
    ((handleInv_iff_settled hp).mp h.handle).of_sameNames hq.names

variable (s)

theorem quietStep_startDelete : QuietStep s s.startDelete := ⟨⟨rfl, rfl, rfl, rfl, rfl⟩, rfl⟩

theorem quietStep_startPrune : QuietStep s s.startPrune := by
  unfold startPrune
  simp only
  split <;> exact ⟨⟨rfl, rfl, rfl, rfl, rfl⟩, rfl⟩

theorem quietStep_publishCurrent (job : Job) (name : Nat) (o : FsOutcome) :
    QuietStep s (s.publishCurrent job name o) := by
  unfold publishCurrent
  cases job with
  | compact =>
    split
    · exact quietStep_startPrune s
    · obtain ⟨⟨h1, h2, h3, h4, h5⟩, hp⟩ :=
        quietStep_startPrune { s with disk := { s.disk with current := some name } }
      exact ⟨⟨h1, h2, h3, h4, h5⟩, hp⟩
  | shutdown => split <;> exact ⟨⟨rfl, rfl, rfl, rfl, rfl⟩, rfl⟩

theorem quietStep_pruneOne (x : Nat) (rest : List Nat)
    (total removed : Nat) (keep : Option Nat) (o : FsOutcome) :
    QuietStep s (s.pruneOne x rest total removed keep o) := by
  unfold pruneOne
  split
  · exact quietStep_startDelete s
  · split <;> exact ⟨⟨rfl, rfl, rfl, rfl, rfl⟩, rfl⟩

variable {s}

theorem filesInv_flush {s : PersistState cfg.numShards} (h : FilesInv s) (hp : s.phase = .idle)
    (synced : Bool) : FilesInv (s.flush cfg synced) := by
  have hidle : s.phase.sealing = false := by rw [hp]; rfl
  have hset := (handleInv_iff_settled hidle).mp h.handle
  have hsame := sameNames_drainQueue s
  have hset' := hset.of_sameNames hsame
  have hdrained : FilesInv s.drainQueue :=
    h.quiet hidle ⟨hsame, by rw [phase_drainQueue]; exact hidle⟩
  unfold flush
  simp only
  split
  · exact h
  · split
    · exact ⟨hdrained.named, rfl, hset'.present, hset'.below⟩
    · exact hdrained

theorem filesInv_rotate (h : FilesInv s) (hp : s.phase = .rotate) (ho : o ≠ .unsynced) :
    FilesInv (s.rotate o) := by
  have hset := (handleInv_iff_settled (by rw [hp]; rfl)).mp h.handle
  cases o with
  | ok => exact ⟨h.named.createLog, rfl, rfl, hset.below⟩
  | failed => exact ⟨h.named, hset.handle, hset.present, hset.below⟩
  | unsynced => exact absurd rfl ho

theorem filesInv_deleteOne (h : FilesInv s) (hset : Settled s) (x : Nat) (rest : List Nat)
    (o : FsOutcome) : FilesInv (s.deleteOne x rest o) := by
  unfold deleteOne
  split
  · exact ⟨h.named, hset.handle, hset.present, hset.below⟩
  · exact ⟨h.named.dirRemove x, hset.handle, hset.present, hset.below.dirRemove x⟩

theorem sealRename_cases {i : Nat} (hi : s.disk.walLog = some i)
    (hbelow : NamesBelow s.disk.segments s.nextSeq) (o : FsOutcome) :
    s.sealRename o = { s with wal := some i, phase := .idle } ∨
      s.sealRename o = { s with
        disk := { s.disk with walLog := none, segments := s.disk.segments ++ [(s.nextSeq, i)] }
        phase := .sealSync } := by
  have hput := dirPut_of_namesBelow hbelow i
  cases o with
  | failed =>
    left
    rw [sealRename, reopenLog_of_walLog hi]
  | ok | unsynced =>
    right
    simp only [sealRename, hi, hput]

theorem sealRollback_eq {segs : List (Nat × Nat)} {i : Nat}
    (hsegs : s.disk.segments = segs ++ [(s.nextSeq, i)]) (hbelow : NamesBelow segs s.nextSeq)
    (ho : o ≠ .failed) : s.sealRollback o = { s with
      disk := { s.disk with walLog := some i, segments := segs }
      wal := some i
      phase := .idle } := by
  have hfind : dirFind s.nextSeq s.disk.segments = some i := by
    rw [hsegs]
    exact dirFind_of_namesBelow hbelow i
  have hremove : dirRemove s.nextSeq s.disk.segments = segs := by
    rw [hsegs]
    exact dirRemove_of_namesBelow hbelow i
  cases o with
  | failed => exact absurd rfl ho
  | ok | unsynced =>
    simp only [sealRollback, hfind, hremove]
    rw [reopenLog_of_walLog rfl]

theorem filesInv_sealRename (h : FilesInv s) (hp : s.phase = .sealRename) (o : FsOutcome) :
    FilesInv (s.sealRename o) := by
  have hhandle := h.handle
  simp only [HandleInv, hp] at hhandle
  obtain ⟨hwal, hlog, hbelow⟩ := hhandle
  obtain ⟨i, hi⟩ := isSome_iff_exists.mp hlog
  rcases sealRename_cases hi hbelow o with heq | heq
  · rw [heq]
    exact ⟨h.named, hi.symm, hlog, hbelow⟩
  · rw [heq]
    exact ⟨h.named.sealLog hi hbelow, hwal, rfl, _, i, rfl, hbelow⟩

theorem filesInv_sealReplace (h : FilesInv s) (hp : s.phase = .sealReplace) (o : FsOutcome) :
    FilesInv (s.sealReplace o) := by
  have hhandle := h.handle
  simp only [HandleInv, hp] at hhandle
  obtain ⟨hwal, hlog, segs, i, hsegs, hbelow⟩ := hhandle
  cases o with
  | ok =>
    refine ⟨h.named.createLog, rfl, rfl, ?_⟩
    intro f hf
    rw [sealReplace, createLog, hsegs, mem_append, mem_singleton] at hf
    rcases hf with hf | rfl
    · exact Nat.lt_succ_of_lt (hbelow f hf)
    · exact Nat.lt_succ_self _
  | unsynced =>
    refine ⟨h.named.createLog, hwal, ⟨segs, i, hsegs, hbelow⟩, ?_⟩
    intro j hj
    simp only [sealReplace, createLog, mem_some_iff] at hj
    simp [sealReplace, createLog, hj]
  | failed =>
    refine ⟨h.named, hwal, ⟨segs, i, hsegs, hbelow⟩, ?_⟩
    intro j hj
    simp [sealReplace, hlog] at hj

theorem filesInv_sealRollback (h : FilesInv s) (hp : s.phase = .sealRollback) (ho : o ≠ .failed) :
    FilesInv (s.sealRollback o) := by
  have hhandle := h.handle
  simp only [HandleInv, hp] at hhandle
  obtain ⟨-, ⟨segs, i, hsegs, hbelow⟩, -⟩ := hhandle
  rw [sealRollback_eq hsegs hbelow ho]
  exact ⟨h.named.unsealLog hsegs, rfl, rfl, hbelow⟩

theorem filesInv_step {s s' : PersistState cfg.numShards} {ev : PersistEvent} (h : FilesInv s)
    (hk : KeepsNames s ev) (hs : s.step cfg ev = some s') : FilesInv s' := by
  cases stepCase hs with
  | store _ hstore => exact h.storeStep hstore
  | flush hp heq =>
    subst heq
    exact filesInv_flush h hp _
  | compact hp heq | shutdown hp heq =>
    subst heq
    obtain ⟨h1, h2, h3, h4, h5⟩ := sameNames_drainQueue s
    exact h.quiet (by rw [hp]; rfl) ⟨⟨h1, h2, h3, h4, h5⟩, rfl⟩
  | @fs o clk count hfs =>
    unfold fsStep at hfs
    simp only [KeepsNames] at hk
    split at hfs
    all_goals rename_i hp
    all_goals cases hfs
    all_goals simp only [hp] at hk
    · exact h.quiet (by rw [hp]; rfl) ⟨⟨rfl, rfl, rfl, rfl, rfl⟩, rfl⟩
    · exact h.quiet (by rw [hp]; rfl) ⟨⟨rfl, rfl, rfl, rfl, rfl⟩, rfl⟩
    · exact h.quiet (by rw [hp]; rfl) (by cases o <;> exact ⟨⟨rfl, rfl, rfl, rfl, rfl⟩, rfl⟩)
    · exact h.quiet (by rw [hp]; rfl) (quietStep_publishCurrent s _ _ o)
    · exact h.quiet (by rw [hp]; rfl) (quietStep_pruneOne s _ _ _ _ _ o)
    · exact h.quiet (by rw [hp]; rfl) (quietStep_startDelete s)
    · exact filesInv_deleteOne h ((handleInv_iff_settled (by rw [hp]; rfl)).mp h.handle) _ _ o
    · exact h.quiet (by rw [hp]; rfl) ⟨⟨rfl, rfl, rfl, rfl, rfl⟩, rfl⟩
    · exact filesInv_rotate h hp hk
    · obtain ⟨h1, h2, h3, h4, h5⟩ := sameNames_drainQueue s
      exact h.quiet (by rw [hp]; rfl) ⟨⟨h1, h2, h3, h4, h5⟩, rfl⟩
    · exact filesInv_sealRename h hp o
    · have hhandle := h.handle
      simp only [HandleInv, hp] at hhandle
      rw [sealSync, if_pos hk]
      exact ⟨h.named, hhandle⟩
    · exact filesInv_sealReplace h hp o
    · exact filesInv_sealRollback h hp hk

end Cinder
