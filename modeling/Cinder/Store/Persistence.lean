/-
The persistence manager as a state machine over a directory
(`src/store/persistence.cpp`, `publishTempFile` of `io_utils.hpp`).

One step is one filesystem operation that changes what a restart would find, or one write of the
store in between: the manager's mutex keeps its own operations apart, but store writers never
take it. Every state is therefore a crash point.

* Log files are inodes under names, so that a writer can hold a file that has lost its name.
Names staged with `.tmp` are read by nobody and do not appear.
* A published file can fail before the rename (`failed`) or in the directory sync behind it
(`unsynced`): then the rename HAS taken effect.
* `hist`, `marks` and `captures` are history: the records queued so far, and how many of them
each shard's copy in a snapshot has seen.
-/
import Cinder.Lib.Transition
import Cinder.Store.Records

namespace Cinder

/-! ## 1. Directories -/

section Directory

variable {κ V : Type} [DecidableEq κ]

/-- A rename onto `name`, in a listing kept in the order `lt` of its names. -/
def dirPut (lt : κ → κ → Bool) (name : κ) (v : V) : List (κ × V) → List (κ × V)
  | [] => [(name, v)]
  | (n, w) :: rest =>
    if n = name then (name, v) :: rest
    else if lt name n then (name, v) :: (n, w) :: rest
    else (n, w) :: dirPut lt name v rest

def dirRemove (name : κ) (dir : List (κ × V)) : List (κ × V) := dir.filter fun f => f.1 ≠ name

def dirFind (name : κ) (dir : List (κ × V)) : Option V :=
  (dir.find? fun f => f.1 = name).map Prod.snd

end Directory

/-- `snapshot_<count>.dat`. -/
def snapshotName (count : Nat) : List Char :=
  "snapshot_".toList ++ Nat.toDigits 10 count ++ ".dat".toList

/-- The order `listSnapshotFiles` lists snapshots in: names as strings, not numbers. -/
def snapshotBefore (a b : Nat) : Bool := decide (snapshotName a < snapshotName b)

/-- The data directory. A snapshot is known by the count in its name, a sealed segment
`wal_<seq>.log` by its sequence number; the names are zero-padded, so their order is
the order of the numbers. -/
structure Disk where
  /-- inode of `wal.log` -/
  walLog : Option Nat := none
  /-- inodes of the sealed segments -/
  segments : List (Nat × Nat) := []
  /-- records of a log inode -/
  inode : Nat → List WalEntry := fun _ => []
  nextInode : Nat := 0
  snapshots : List (Nat × List SnapshotEntry) := []
  current : Option Nat := none

namespace Disk

variable (d : Disk)

def append (i : Nat) (rs : List WalEntry) : Disk :=
  { d with inode := Function.update d.inode i (d.inode i ++ rs) }

/-- A fresh log file (header only) under the name `wal.log`. -/
def createLog : Disk :=
  { d with
    walLog := some d.nextInode
    inode := Function.update d.inode d.nextInode []
    nextInode := d.nextInode + 1 }

/-- Sealed segments by sequence number, then the active file. -/
def findWalFiles : List Nat := d.segments.map Prod.snd ++ d.walLog.toList

/-- The target of `CURRENT` if it exists, else the last name. -/
def findLatestSnapshot : Option (List SnapshotEntry) :=
  match d.current.bind fun name => dirFind name d.snapshots with
  | some es => some es
  | none => d.snapshots.getLast?.map Prod.snd

def logRecords : List WalEntry := d.findWalFiles.flatMap d.inode

/-- What the store holds after a restart on this directory. -/
def recover (clk : ClockReading) : Table :=
  d.logRecords.foldl (replayRecord clk)
    ((d.findLatestSnapshot.getD []).foldl (loadEntry clk) ∅)

/-- Size of the active file (`file_size` of `wal.log`), `none` where it is missing. -/
def activeSize : Option Nat := d.walLog.map fun i => 8 + recordsSize (d.inode i)

end Disk

/-! ## 2. The manager -/

structure PersistConfig where
  numShards : Nat := 1
  shardFor : Key → Fin numShards
  maxWalSegmentBytes : Nat := 0

inductive Job where
  | compact | shutdown
  deriving DecidableEq, Repr

/-- Where the operation that holds the manager's mutex stands. -/
inductive Phase (n : Nat) where
  | idle
  /-- `liveEntries`: the shards still to be copied, and the copy so far -/
  | capture (job : Job) (rest : List (Fin n)) (acc : List (Key × VersionedEntry))
  /-- the snapshot is to be written under a fresh name -/
  | writeSnapshot (job : Job) (live : List (Key × VersionedEntry))
  | publishCurrent (job : Job) (name : Nat)
  /-- `pruneOldSnapshots`: names still to be visited, how many there were, how many are gone,
      the protected one -/
  | prune (rest : List Nat) (total removed : Nat) (keep : Option Nat)
  | deleteSealed (rest : List Nat)
  /-- `replaceWalLocked` of `compact` -/
  | rotate
  | drainFresh
  /-- `sealActiveWalLocked`: the rename, the directory sync, the fresh file, the way back -/
  | sealRename
  | sealSync
  | sealReplace
  | sealRollback

inductive FsOutcome where
  | ok | failed | unsynced
  deriving DecidableEq, Repr

structure PersistState (n : Nat) where
  mem : Table := ∅
  pending : List WalEntry := []
  disk : Disk := {}
  /-- inode `wal_` writes to -/
  wal : Option Nat := none
  nextSeq : Nat := 1
  phase : Phase n := .idle
  hist : List WalEntry := []
  marks : List Nat := []
  captures : List (List Nat) := []

inductive PersistEvent where
  | put (key : Key) (entry : VersionedEntry) (clk : ClockReading)
  | remove (key : Key)
  | expire (key : Key) (now : Nanos)
  | flush (synced : Bool)
  | compact
  | shutdown
  /-- the next filesystem operation of the manager, how it ends, the clocks, and the count a
      new snapshot is named after -/
  | fs (outcome : FsOutcome) (clk : ClockReading) (count : Nat)

namespace PersistState

variable {n : Nat}

variable (s : PersistState n)

def onWrite (r : WalEntry) : PersistState n :=
  { s with pending := s.pending ++ [r], hist := s.hist ++ [r] }

/-- `putVersioned` of the store; a strict loss changes nothing and logs nothing. -/
def put (key : Key) (entry : VersionedEntry) (clk : ClockReading) :
    PersistState n :=
  match s.mem.lookup key with
  | some entry0 =>
    if compareLww (stampOf entry) (stampOf entry0) = .less then s
    else { s with mem := s.mem.insert key entry }.onWrite (walRecord clk key entry)
  | none => { s with mem := s.mem.insert key entry }.onWrite (walRecord clk key entry)

def remove (key : Key) : PersistState n :=
  match s.mem.lookup key with
  | some e => { s with mem := s.mem.erase key }.onWrite (delRecord key e)
  | none => s

/-- Expiry drops an entry without a record. -/
def expire (key : Key) (now : Nanos) : PersistState n :=
  match s.mem.lookup key with
  | some e => if e.expiredAt now then { s with mem := s.mem.erase key } else s
  | none => s

/-- `drainQueueLocked` with a successful append. -/
def drainQueue : PersistState n :=
  match s.wal with
  | some i => { s with disk := s.disk.append i s.pending, pending := [] }
  | none => s

/-- `WalWriter(wal.log, Append)`: resumes the file, or creates it. -/
def reopenLog : PersistState n :=
  match s.disk.walLog with
  | some i => { s with wal := some i }
  | none => { s with disk := s.disk.createLog, wal := some s.disk.nextInode }

variable (cfg : PersistConfig)

/-- `liveEntries` of one shard, taken under its lock. -/
def liveShard (s : PersistState cfg.numShards) (i : Fin cfg.numShards)
    (now : Nanos) : List (Key × VersionedEntry) := s.mem.entries.filterMap fun ⟨k, e⟩ =>
    if cfg.shardFor k = i ∧ e.expiredAt now = false then some (k, e) else none

/-- `createSnapshot` up to its publication; an unsynced snapshot is there, but the caller
gives up. -/
def writeSnapshot (job : Job) (live : List (Key × VersionedEntry))
    (o : FsOutcome) (clk : ClockReading) (count : Nat) : PersistState n :=
  let es := live.map fun (k, e) => toSnapshotEntry clk k e
  let written := { s with
    disk := { s.disk with snapshots := dirPut snapshotBefore count es s.disk.snapshots }
    captures := s.captures ++ [s.marks] }
  match o with
  | .ok => { written with phase := .publishCurrent job count }
  | .unsynced => { written with phase := .idle }
  | .failed => { s with phase := .idle }

def startDelete : PersistState n :=
  { s with phase := .deleteSealed (s.disk.segments.map Prod.fst) }

def startPrune : PersistState n :=
  let names := s.disk.snapshots.map Prod.fst
  if names.length ≤ 2 then s.startDelete
  else { s with phase := .prune names names.length 0 s.disk.current }

/-- Best effort: a failure is logged and the operation goes on. -/
def publishCurrent (job : Job) (name : Nat) (o : FsOutcome) :
    PersistState n :=
  let s := if o = .failed then s else { s with disk := { s.disk with current := some name } }
  match job with
  | .compact => s.startPrune
  | .shutdown => { s with phase := .idle }

/-- One round of `pruneOldSnapshots`. -/
def pruneOne (x : Nat) (rest : List Nat) (total removed : Nat)
    (keep : Option Nat) (o : FsOutcome) : PersistState n :=
  if total - removed ≤ 2 then s.startDelete
  else if keep = some x ∨ o = .failed then { s with phase := .prune rest total removed keep }
  else { s with
    disk := { s.disk with snapshots := dirRemove x s.disk.snapshots }
    phase := .prune rest total (removed + 1) keep }

/-- One round of `deleteSealedSegmentsLocked`; a failure is logged. -/
def deleteOne (x : Nat) (rest : List Nat) (o : FsOutcome) :
    PersistState n :=
  if o = .failed then { s with phase := .deleteSealed rest }
  else { s with
    disk := { s.disk with segments := dirRemove x s.disk.segments }
    phase := .deleteSealed rest }

/-- `replaceWalLocked` of `compact`. Unsynced, the fresh file has the name but `wal_` keeps
the old one. -/
def rotate : FsOutcome → PersistState n
  | .ok => { s with
      disk := s.disk.createLog
      wal := some s.disk.nextInode
      phase := .drainFresh }
  | .unsynced => { s with disk := s.disk.createLog, phase := .idle }
  | .failed => { s with phase := .idle }

/-- The seal's rename of `wal.log` to the next segment name; it replaces a segment of that
name. -/
def sealRename (o : FsOutcome) : PersistState n :=
  match o, s.disk.walLog with
  | .failed, _ | _, none => { s.reopenLog with phase := .idle }
  | _, some i => { s with
      disk := { s.disk with
        walLog := none
        segments := dirPut (fun a b => decide (a < b)) s.nextSeq i s.disk.segments }
      phase := .sealSync }

/-- The directory sync behind it. On failure the writer goes to a new `wal.log`, and the
sequence number stays. -/
def sealSync (o : FsOutcome) : PersistState n :=
  if o = .ok then { s with phase := .sealReplace } else { s.reopenLog with phase := .idle }

/-- `replaceWalLocked` of a seal. -/
def sealReplace : FsOutcome → PersistState n
  | .ok => { s with
      disk := s.disk.createLog
      wal := some s.disk.nextInode
      nextSeq := s.nextSeq + 1
      phase := .idle }
  | .unsynced => { s with disk := s.disk.createLog, phase := .sealRollback }
  | .failed => { s with phase := .sealRollback }

/-- The segment is renamed back to `wal.log`; a failure is ignored. -/
def sealRollback (o : FsOutcome) : PersistState n :=
  match o, dirFind s.nextSeq s.disk.segments with
  | .failed, _ | _, none => { s.reopenLog with phase := .idle }
  | _, some i =>
    { { s with disk := { s.disk with
          walLog := some i
          segments := dirRemove s.nextSeq s.disk.segments } }.reopenLog with phase := .idle }

section

variable (s : PersistState cfg.numShards)

def fsStep (o : FsOutcome)
    (clk : ClockReading) (count : Nat) : Option (PersistState cfg.numShards) :=
  match s.phase with
  | .idle => none
  | .capture job (i :: rest) acc => some { s with
      phase := .capture job rest (acc ++ s.liveShard cfg i clk.now)
      marks := s.marks ++ [s.hist.length] }
  | .capture job [] acc => some { s with phase := .writeSnapshot job acc }
  | .writeSnapshot job live => some (s.writeSnapshot job live o clk count)
  | .publishCurrent job name => some (s.publishCurrent job name o)
  | .prune (x :: rest) total removed keep => some (s.pruneOne x rest total removed keep o)
  | .prune [] _ _ _ => some s.startDelete
  | .deleteSealed (x :: rest) => some (s.deleteOne x rest o)
  | .deleteSealed [] => some { s with phase := .rotate }
  | .rotate => some (s.rotate o)
  | .drainFresh => some { s.drainQueue with phase := .idle }
  | .sealRename => some (s.sealRename o)
  | .sealSync => some (s.sealSync o)
  | .sealReplace => some (s.sealReplace o)
  | .sealRollback => some (s.sealRollback o)

def sealDue (d : Disk) : Bool :=
  match d.activeSize with
  | some size => 0 < cfg.maxWalSegmentBytes ∧ cfg.maxWalSegmentBytes ≤ size ∧ 8 < size
  | none => false

/-- Drain, sync, and seal an oversized file. -/
def flush (synced : Bool) : PersistState cfg.numShards :=
  if s.wal = none ∨ s.pending = [] then s
  else
    let s := s.drainQueue
    if synced ∧ sealDue cfg s.disk then { s with wal := none, phase := .sealRename } else s

/-- `compact` and `shutdown` up to the copy of the store. -/
def beginJob (job : Job) : PersistState cfg.numShards :=
  { s.drainQueue with phase := .capture job (List.finRange cfg.numShards) [], marks := [] }

/-- The manager operations wait for the mutex, the store's do not. -/
def step : PersistEvent → Option (PersistState cfg.numShards)
  | .put key entry clk => some (s.put key entry clk)
  | .remove key => some (s.remove key)
  | .expire key now => some (s.expire key now)
  | .flush synced => match s.phase with
    | .idle => some (s.flush cfg synced)
    | _ => none
  | .compact => match s.phase with
    | .idle => some (s.beginJob cfg .compact)
    | _ => none
  | .shutdown => match s.phase with
    | .idle => some (s.beginJob cfg .shutdown)
    | _ => none
  | .fs o clk count => s.fsStep cfg o clk count

end

/-- A process that has run `recover` on a directory. -/
def restart (d : Disk) (clk : ClockReading) : PersistState cfg.numShards :=
  { mem := d.recover clk
    disk := d
    nextSeq := (d.segments.map Prod.fst).foldl (fun m s => max m (s + 1)) 1
    : PersistState cfg.numShards }.reopenLog

/-- The first process: `recover` on an empty directory. -/
def start : PersistState cfg.numShards := restart cfg {} {}

end PersistState

end Cinder
