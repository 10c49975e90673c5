/-
The Lamport counter of a store (`next_version_`, `mintVersion`, `observeVersion`)
across restarts: seeded from the steady clock, raised by every write the store accepts, and
rebuilt by `recover`.

The counter is not persisted (the `next_version` of a snapshot is read into a variable nobody
uses), so a new process starts from the clock seed and the records recovery APPLIES AGAIN: a
record that has expired, or that a compaction has dropped, no longer counts.
-/
import Cinder.Store.Persistence

namespace Cinder

open Transition List UInt64

/-! ## 1. The counter of a store -/

/-- What a store holds, and `next_version_`. -/
structure VersionedStore where
  table : Table := ∅
  nextVersion : UInt64 := 0

namespace VersionedStore

variable (s : VersionedStore)

/-- The compare-and-swap loop ends with the larger of the two. -/
def observeVersion (v : UInt64) : VersionedStore :=
  if s.nextVersion < v then { s with nextVersion := v } else s

/-- `fetch_add`: the value before the increment. -/
def mintVersion : UInt64 × VersionedStore :=
  (s.nextVersion, { s with nextVersion := s.nextVersion + 1 })

/-- A strict loss returns before the counter is touched. -/
def putVersioned (key : Key) (entry : VersionedEntry) : VersionedStore :=
  match s.table.lookup key with
  | some entry0 =>
    if compareLww (stampOf entry) (stampOf entry0) = .less then s
    else { s with table := s.table.insert key entry }.observeVersion (entry.version + 1)
  | none => { s with table := s.table.insert key entry }.observeVersion (entry.version + 1)

def remove (key : Key) : VersionedStore :=
  { s with table := s.table.erase key }

@[simp] theorem observeVersion_table (v : UInt64) : (s.observeVersion v).table = s.table := by
  unfold observeVersion
  split <;> rfl

theorem lt_observeVersion (v w : UInt64) :
    v < (s.observeVersion w).nextVersion ↔ v < s.nextVersion ∨ v < w := by
  unfold observeVersion
  simp only [lt_iff_toNat_lt]
  by_cases h : s.nextVersion.toNat < w.toNat
  · rw [if_pos h]
    dsimp only
    omega
  · rw [if_neg h]
    omega

theorem putVersioned_table (key : Key) (entry : VersionedEntry) :
    (s.putVersioned key entry).table = s.table.putVersioned key entry := by
  unfold putVersioned Table.putVersioned
  cases s.table.lookup key with
  | none => simp
  | some entry0 =>
    dsimp only
    split <;> simp

/-- The counter is above every resident entry. -/
def Ahead : Prop := ∀ k e, s.table.lookup k = some e → e.version < s.nextVersion

end VersionedStore

theorem VersionedEntry.lt_version_succ (e : VersionedEntry) (v : UInt64) :
    v < e.version + 1 ↔ v ≤ e.version := by
  have hlt := e.version_lt
  have hsucc : (e.version + 1).toNat = e.version.toNat + 1 := by
    rw [UInt64.toNat_add]
    exact Nat.mod_eq_of_lt (show e.version.toNat + 1 < 2 ^ 64 by omega)
  rw [lt_iff_toNat_lt, le_iff_toNat_le, hsucc]
  omega

/-! ## 2. Replaying operations -/

namespace VersionedStore

def apply (s : VersionedStore) : LwwLog.Rec Key VersionedEntry → VersionedStore
  | (key, some entry) => s.putVersioned key entry
  | (key, none) => s.remove key

variable {s : VersionedStore}

theorem lt_nextVersion_putVersioned (hs : s.Ahead) (key : Key)
    (entry : VersionedEntry) (v : UInt64) :
    v < (s.putVersioned key entry).nextVersion ↔ v < s.nextVersion ∨ v ≤ entry.version := by
  unfold putVersioned
  cases hl : s.table.lookup key with
  | none => rw [lt_observeVersion, entry.lt_version_succ]
  | some entry0 =>
    simp only [compareLww_eq_less]
    split
    · rename_i hstale
      have hle : entry.version ≤ entry0.version := LwwStamp.version_le (le_of_lt hstale)
      have hahead := hs key entry0 hl
      rw [lt_iff_toNat_lt] at hahead ⊢
      rw [le_iff_toNat_le] at hle ⊢
      omega
    · rw [lt_observeVersion, entry.lt_version_succ]

theorem ahead_putVersioned (hs : s.Ahead) (key : Key)
    (entry : VersionedEntry) : (s.putVersioned key entry).Ahead := by
  intro k e he
  rw [putVersioned_table] at he
  rw [lt_nextVersion_putVersioned hs]
  have hcase : s.table.lookup k = some e ∨ e = entry := by
    unfold Table.putVersioned at he
    have hinsert : AList.lookup k (s.table.insert key entry) = some e →
        s.table.lookup k = some e ∨ e = entry := by
      intro h
      by_cases hk : k = key
      · subst hk
        rw [AList.lookup_insert] at h
        exact .inr (Option.some.inj h).symm
      · rw [AList.lookup_insert_ne hk] at h
        exact .inl h
    split at he
    · split at he
      · exact .inl he
      · exact hinsert he
    · exact hinsert he
  rcases hcase with hold | rfl
  · exact .inl (hs k e hold)
  · exact .inr (UInt64.le_refl _)

theorem ahead_remove (hs : s.Ahead) (key : Key) : (s.remove key).Ahead := by
  intro k e he
  by_cases hk : k = key
  · subst hk
    simp [remove] at he
  · exact hs k e (by simpa [remove, hk] using he)

theorem lt_nextVersion_foldl (hs : s.Ahead)
    (ops : List (LwwLog.Rec Key VersionedEntry)) (v : UInt64) :
    v < (ops.foldl apply s).nextVersion ↔
      v < s.nextVersion ∨ ∃ e ∈ ops.filterMap Prod.snd, v ≤ e.version := by
  induction ops generalizing s with
  | nil => simp
  | cons op ops ih =>
    obtain ⟨key, entry⟩ := op
    rw [foldl_cons]
    cases entry with
    | none =>
      rw [filterMap_cons_none rfl]
      exact ih (ahead_remove hs key)
    | some entry =>
      rw [filterMap_cons_some (a := (key, some entry)) (f := Prod.snd) rfl, apply,
        ih (ahead_putVersioned hs key entry), lt_nextVersion_putVersioned hs]
      simp [or_assoc]

end VersionedStore

/-! ## 3. Recovery -/

/-- One round of the snapshot loop of `recover`, with the counter. -/
def loadVersioned (clk : ClockReading) (s : VersionedStore) (se : SnapshotEntry) :
    VersionedStore :=
  match versionedFromSnapshot clk se with
  | none => s
  | some ve => s.putVersioned se.key ve

/-- One round of the loop of `replayWal`, with the counter. -/
def replayVersioned (clk : ClockReading) (s : VersionedStore) (we : WalEntry) :
    VersionedStore :=
  match versionedFromWal clk we with
  | none => s
  | some ve =>
    match we.op with
    | .set => s.putVersioned we.key ve
    | .del => s.remove we.key

variable (d : Disk)

/-- `recover` of a store whose counter was seeded with `seed`. -/
def Disk.recoverVersioned (seed : UInt64) (clk : ClockReading) : VersionedStore :=
  d.logRecords.foldl (replayVersioned clk)
    ((d.findLatestSnapshot.getD []).foldl (loadVersioned clk) { nextVersion := seed })

theorem recoverVersioned_table (seed : UInt64) (clk : ClockReading) :
    (d.recoverVersioned seed clk).table = d.recover clk := by
  have hload : ∀ s se, (loadVersioned clk s se).table = loadEntry clk s.table se := by
    intro s se
    unfold loadVersioned loadEntry
    cases versionedFromSnapshot clk se with
    | none => rfl
    | some ve => exact s.putVersioned_table se.key ve
  have hreplay : ∀ s we, (replayVersioned clk s we).table = replayRecord clk s.table we := by
    intro s we
    unfold replayVersioned replayRecord
    cases versionedFromWal clk we with
    | none => rfl
    | some ve =>
      cases we.op with
      | set => exact s.putVersioned_table we.key ve
      | del => rfl
  unfold Disk.recoverVersioned Disk.recover
  rw [← foldl_hom VersionedStore.table (fun s we => (hreplay s we).symm),
    ← foldl_hom VersionedStore.table (fun s se => (hload s se).symm)]

/-- The entries recovery writes again: what is left of the snapshot and of the `Set` records
once the expired ones are skipped. -/
def Disk.reapplied (clk : ClockReading) : List VersionedEntry :=
  (d.findLatestSnapshot.getD []).filterMap (versionedFromSnapshot clk) ++
    (d.logRecords.filter fun r => r.op = .set).filterMap (versionedFromWal clk)

variable (clk : ClockReading)

theorem foldl_loadVersioned (ses : List SnapshotEntry) (s : VersionedStore) :
    ses.foldl (loadVersioned clk) s = (ses.filterMap fun se =>
      (versionedFromSnapshot clk se).map fun ve => (se.key, some ve)).foldl
        VersionedStore.apply s := by
  induction ses generalizing s with
  | nil => rfl
  | cons se ses ih =>
    rw [foldl_cons, ih, loadVersioned]
    cases h : versionedFromSnapshot clk se with
    | none => rw [filterMap_cons_none (by rw [h]; rfl)]
    | some ve =>
      rw [filterMap_cons_some (by rw [h]; rfl)]
      rfl

theorem foldl_replayVersioned (es : List WalEntry) (s : VersionedStore) :
    es.foldl (replayVersioned clk) s =
      (es.filterMap (WalEntry.effect clk)).foldl VersionedStore.apply s := by
  induction es generalizing s with
  | nil => rfl
  | cons we es ih =>
    rw [foldl_cons, ih, replayVersioned]
    cases h : versionedFromWal clk we with
    | none => rw [filterMap_cons_none (by rw [WalEntry.effect, h]; rfl)]
    | some ve =>
      rw [filterMap_cons_some (by rw [WalEntry.effect, h]; rfl), foldl_cons]
      cases we.op <;> rfl

theorem reapplied_eq :
    d.reapplied clk =
      ((d.findLatestSnapshot.getD []).filterMap fun se => (versionedFromSnapshot clk se).map
        fun ve => ((se.key, some ve) : LwwLog.Rec Key VersionedEntry)).filterMap Prod.snd ++
      (d.logRecords.filterMap (WalEntry.effect clk)).filterMap Prod.snd := by
  unfold Disk.reapplied
  congr 1
  · rw [filterMap_filterMap]
    congr 1
    funext se
    cases versionedFromSnapshot clk se <;> rfl
  · rw [filterMap_filterMap, filterMap_filter]
    congr 1
    funext we
    unfold WalEntry.effect
    cases hop : we.op <;> cases versionedFromWal clk we <;> simp

theorem lt_nextVersion_recover (seed : UInt64) (clk : ClockReading) (v : UInt64) :
    v < (d.recoverVersioned seed clk).nextVersion ↔
      v < seed ∨ ∃ e ∈ d.reapplied clk, v ≤ e.version := by
  have hempty : VersionedStore.Ahead { nextVersion := seed } := by
    intro k e he
    simp at he
  rw [Disk.recoverVersioned, foldl_loadVersioned, foldl_replayVersioned, ← foldl_append,
    VersionedStore.lt_nextVersion_foldl hempty, filterMap_append, ← reapplied_eq]

/-! ## 4. Histories with restarts -/

/-- A store with persistence, its counter, and every version it has minted or accepted, in
this process or an earlier one. -/
structure VersionedNode (n : Nat) where
  base : PersistState n
  nextVersion : UInt64
  seen : List UInt64 := []

inductive VersionEvent where
  | mint
  | op (ev : PersistEvent)
  /-- a crash or a shutdown, and a new process: its clock readings -/
  | restart (seed : UInt64) (clk : ClockReading)

namespace VersionedNode

variable {n : Nat}

variable (s : VersionedNode n)

def store : VersionedStore := ⟨s.base.mem, s.nextVersion⟩

def mintVersion : UInt64 × VersionedNode n := (s.nextVersion, { s with
    nextVersion := s.store.mintVersion.2.nextVersion
    seen := s.seen ++ [s.nextVersion] })

/-- A versioned write is accepted unless it loses strictly. -/
def accepts (key : Key) (entry : VersionedEntry) : Bool :=
  match s.base.mem.lookup key with
  | some entry0 => compareLww (stampOf entry) (stampOf entry0) != .less
  | none => true

/-- What an operation does to the counter and to the versions seen; only writes do anything. -/
def observe : PersistEvent → VersionedNode n
  | .put key entry _ => { s with
      nextVersion := (s.store.putVersioned key entry).nextVersion
      seen := if s.accepts key entry then s.seen ++ [entry.version] else s.seen }
  | _ => s

variable (cfg : PersistConfig)

/-- The new process: a store seeded from its clock, then `recover`. -/
def restart (s : VersionedNode cfg.numShards) (seed : UInt64)
    (clk : ClockReading) : VersionedNode cfg.numShards :=
  { s with
    base := PersistState.restart cfg s.base.disk clk
    nextVersion := (s.base.disk.recoverVersioned seed clk).nextVersion }

def step (s : VersionedNode cfg.numShards) : VersionEvent → Option (VersionedNode cfg.numShards)
  | .mint => some s.mintVersion.2
  | .op ev => (s.base.step cfg ev).map fun base => { s.observe ev with base := base }
  | .restart seed clk => some (s.restart cfg seed clk)

/-- The first process, on an empty directory. -/
def start (seed : UInt64) : VersionedNode cfg.numShards :=
  { base := PersistState.start cfg, nextVersion := seed }

end VersionedNode

/-- **The first version minted after a restart is new exactly when every version minted or
accepted before is below the new process's clock reading, or at most the version of an
entry recovery writes again.** -/
theorem version_after_restart_iff (cfg : PersistConfig) (s : VersionedNode cfg.numShards)
    (seed : UInt64) (clk : ClockReading) :
    (∀ v ∈ s.seen, v < (s.restart cfg seed clk).mintVersion.1) ↔
      ∀ v ∈ s.seen, v < seed ∨ ∃ e ∈ s.base.disk.reapplied clk, v ≤ e.version := by
  refine forall_congr' fun v => imp_congr_right fun _ => ?_
  exact lt_nextVersion_recover s.base.disk seed clk v

def oneShard : PersistConfig := { numShards := 1, shardFor := fun _ => ⟨0, Nat.one_pos⟩ }

/-- A version is minted and written with a time to live, the log is drained, and the process
restarts behind the deadline with a smaller clock reading. -/
theorem version_reused_after_expiry :
    ∃ s, Reaches (VersionedNode.step oneShard) (fun _ _ => True)
        (VersionedNode.start oneShard 100) s ∧ s.base.pending = [] ∧ 100 ∈ s.seen ∧
      (s.restart oneShard 7 { now := 9000000, nowSystem := 9000000 }).mintVersion.1 = 7 := by
  obtain ⟨s, hreach, hp⟩ := exists_reaches_of_exec (VersionedNode.step oneShard) (fun _ _ => True)
    (VersionedNode.start oneShard 100)
    [.mint, .op (.put [1] { versionAndTtl := 401, expiresAt := 5000000 } {}), .op (.flush true)]
    (fun s => s.base.pending = [] ∧ 100 ∈ s.seen ∧
      (s.restart oneShard 7 { now := 9000000, nowSystem := 9000000 }).mintVersion.1 = 7) (by decide)
  simp only [Bool.decide_and, Bool.and_eq_true, decide_eq_true_eq] at hp
  exact ⟨s, hreach, hp⟩

end Cinder
