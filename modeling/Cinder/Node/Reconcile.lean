/-
The parts an anti-entropy exchange is made of (`src/node/anti_entropy/core.cpp`,
`src/node/anti_entropy/codec.cpp`): group digests, metadata rows, the row diff, the choice of
entries under a byte budget, and the entries of a sync message.

Stores are tables without expired entries; `forEach` visits a table in the order of its list.
`std::ranges::binary_search` on a sorted list is membership, and a map that is only looked into
and then sorted out is an association list.
-/
import Cinder.Lib.Budget
import Cinder.Node.Digest
import Cinder.Node.Iblt

namespace Cinder

open Decoding List

/-! ## 1. Messages -/

def kBucketsPerGroup : Nat := 16

def kIbltMinRows : Nat := 32

def kMaxMetadataBytes : Nat := 4 * 1024 * 1024

def kMetaRowBytes : Nat := 4 + 3 * 8 + 1

structure MetaRow where
  bucket : Nat := 0
  tombstone : Bool := false
  keyHash : UInt64 := 0
  version : UInt64 := 0
  writer : UInt64 := 0
  deriving DecidableEq, Repr

def MetaRow.stamp (row : MetaRow) : LwwStamp := ⟨row.version, row.writer, row.tombstone⟩

/-- `toIbltItems` for one row. -/
def MetaRow.toItem (row : MetaRow) : Iblt.Item :=
  ⟨row.keyHash, row.version, row.writer, row.tombstone⟩

/-- `toMetaRows` for one item. -/
def MetaRow.ofItem (bucket : Nat) (item : Iblt.Item) : MetaRow :=
  ⟨bucket, item.tombstone, item.keyHash, item.version, item.writer⟩

structure MetaDiff where
  need : List UInt64 := []
  have_ : List (UInt64 × Key) := []
  deriving DecidableEq, Repr

structure DigestResponse where
  groupHashes : List UInt64 := []
  bucketHashes : List (Nat × UInt64) := []
  coveredBuckets : List Nat := []
  rows : List MetaRow := []
  ibltSketches : List (Nat × Iblt.Sketch) := []
  deriving DecidableEq, Repr

structure BucketRefinement where
  bucketHashes : List (Nat × UInt64) := []
  forceMetadata : Bool := false
  deriving DecidableEq, Repr

/-- An entry of a sync message as it stands on the wire. -/
structure SyncEntry where
  key : Key
  version : UInt64
  writer : UInt64
  hasTtl : Bool
  tombstone : Bool
  expiresMs : UInt64 := 0
  value : Bytes
  deriving DecidableEq, Repr

structure SyncMessage where
  entries : List SyncEntry := []
  needs : List UInt64 := []
  deriving DecidableEq, Repr

/-- The checks of `decodeDigestResponse` behind the framing: rows and sketches only in covered
buckets, at most one sketch for a bucket, and no bucket with both. -/
def DigestResponse.decodes (response : DigestResponse) (expectedGroups : Nat) : Bool :=
  response.groupHashes.length == expectedGroups &&
    response.rows.all (fun row => response.coveredBuckets.contains row.bucket) &&
    response.ibltSketches.all (fun s => response.coveredBuckets.contains s.1) &&
    decide (response.ibltSketches.map Prod.fst).Nodup &&
    response.rows.all (fun row => !(response.ibltSketches.map Prod.fst).contains row.bucket)

/-! ## 2. Sync entries -/

/-- `encodeSync`, the fields of one entry. -/
def SyncEntry.toWire (clk : ClockReading) (key : Key) (entry : VersionedEntry) : SyncEntry where
  key := key
  version := entry.version
  writer := entry.writerNodeHash
  hasTtl := entry.hasTtl
  tombstone := entry.isTombstone
  expiresMs := if entry.hasTtl then toSystemMs clk entry.expiresAt else 0
  value := entry.value

/-- `parseSingleEntry`, the entry made of the fields. -/
def SyncEntry.ofWire (clk : ClockReading) (w : SyncEntry) : VersionedEntry :=
  let entry := { VersionedEntry.setVersion {} w.version with
    writerNodeHash := w.writer, value := w.value }
  let entry := entry.setTombstone w.tombstone
  if w.hasTtl then
    { entry.setHasTtl true with expiresAt := toSteadyExpiry clk (timeOfMillis w.expiresMs) }
  else entry

def syncEntryWireSize (key : Key) (entry : VersionedEntry) : Nat :=
  4 + key.length + 8 + 8 + 1 + 4 + entry.value.length + if entry.hasTtl then 8 else 0

/-- As far as the store is concerned. -/
def Table.applySync (t : Table) (clk : ClockReading) (entries : List SyncEntry) : Table :=
  entries.foldl (fun t w => t.putVersioned w.key (w.ofWire clk)) t

section Node

variable (xxh3 : Bytes → UInt64) (numBuckets : Nat)

/-! ## 3. Group digests -/

def groupCount : Nat := (numBuckets + kBucketsPerGroup - 1) / kBucketsPerGroup

def groupBuckets (group : Nat) : List Nat :=
  let first := group * kBucketsPerGroup
  range' first (min (first + kBucketsPerGroup) numBuckets - first)

def groupDigest (bucketHashes : List UInt64) (group : Nat) : UInt64 :=
  xxh3 ((groupBuckets bucketHashes.length group).flatMap fun bucket =>
    leBytes 4 bucket ++ leBytes 8 (bucketHashes.getD bucket 0).toNat)

def groupDigests (bucketHashes : List UInt64) : List UInt64 :=
  (range (groupCount bucketHashes.length)).map (groupDigest xxh3 bucketHashes)

def computeDigest (t : Table) : List UInt64 := (range numBuckets).map (digest xxh3 numBuckets t)

/-! ## 4. Metadata -/

def metaRow (key : Key) (entry : VersionedEntry) : MetaRow where
  bucket := bucketFor xxh3 numBuckets key
  tombstone := entry.isTombstone
  keyHash := xxh3 key
  version := entry.version
  writer := entry.writerNodeHash

/-- The rows of a bucket in the order of the scan. -/
def bucketRows (t : Table) (bucket : Nat) : List MetaRow :=
  (t.entries.filter fun e => bucketFor xxh3 numBuckets e.1 = bucket).map
    fun e => metaRow xxh3 numBuckets e.1 e.2

def sortedRows (t : Table) (bucket : Nat) : List MetaRow :=
  (bucketRows xxh3 numBuckets t bucket).insertionSort fun r r' => r.keyHash ≤ r'.keyHash

/-- The filling loop of `collectMetadata` over the wanted buckets: the buckets covered and their
rows. A bucket over the budget is dropped again unless it is the first. -/
def collectLoop (t : Table) (maxBytes : Nat) :
    List Nat → Nat → List Nat → List MetaRow → List Nat × List MetaRow
  | [], _, covered, rows => (covered, rows)
  | b :: rest, bytes, covered, rows =>
    let vec := sortedRows xxh3 numBuckets t b
    let coverageCost := 4
    if bytes + coverageCost > maxBytes ∧ covered ≠ [] then (covered, rows)
    else
      let bytes := bytes + coverageCost
      let need := vec.length * kMetaRowBytes
      if bytes + need > maxBytes ∧ (covered ++ [b]).length > 1 then (covered, rows)
      else if bytes + need > maxBytes then (covered ++ [b], rows ++ vec)
      else collectLoop t maxBytes rest (bytes + need) (covered ++ [b]) (rows ++ vec)

def collectMetadata (t : Table) (bucketIds : List Nat) (maxBytes : Nat) : List Nat × List MetaRow :=
  collectLoop xxh3 numBuckets t maxBytes
    ((range numBuckets).filter bucketIds.contains) (2 * 4) [] []

/-! ## 5. The row diff -/

inductive Verdict where
  | skip | push | fetch
  deriving DecidableEq, Repr

/-- The comparison of an entry with the row of its hash; an absent row counts only in a bucket
whose metadata was sent completely. -/
def verdict (row : Option MetaRow) (covered : Bool) (entry : VersionedEntry) : Verdict :=
  match row with
  | none => if covered then .push else .skip
  | some row =>
    if lwwWinsOver row.stamp (stampOf entry) then .fetch
    else if lwwWinsOver (stampOf entry) row.stamp then .push
    else .skip

/-- The variables of the scan of `diffRows`: rows not matched yet, and the diff so far. -/
structure RowScan where
  byHash : AList (fun _ : UInt64 => MetaRow)
  diff : MetaDiff := {}

def RowScan.visit (divergent : List Nat) (covered : Nat → Bool) (s : RowScan)
    (e : Sigma fun _ : Key => VersionedEntry) : RowScan :=
  let bucket := bucketFor xxh3 numBuckets e.1
  let h := xxh3 e.1
  if !divergent.contains bucket then s
  else
    { byHash := s.byHash.erase h
      diff :=
        match verdict (s.byHash.lookup h) (covered bucket) e.2 with
        | .skip => s.diff
        | .push => { s.diff with have_ := s.diff.have_ ++ [(h, e.1)] }
        | .fetch => { s.diff with need := s.diff.need ++ [h] } }

/-- `by_hash`. Of rows with the same hash the last one stays. -/
def rowIndex (rows : List MetaRow) : AList (fun _ : UInt64 => MetaRow) :=
  rows.foldl (fun index row => AList.insert row.keyHash row index) ∅

def diffRows (t : Table) (rows : List MetaRow) (divergent coveredBuckets : List Nat) : MetaDiff :=
  if divergent = [] then {}
  else
    let covered := fun b => coveredBuckets.isEmpty || coveredBuckets.contains b
    let s := t.entries.foldl (RowScan.visit xxh3 numBuckets divergent covered)
      { byHash := rowIndex rows }
    let rest := (s.byHash.entries.filter fun e => covered e.2.bucket).map Sigma.fst
    { need := (s.diff.need ++ rest).insertionSort (· ≤ ·)
      have_ := s.diff.have_.insertionSort fun p q => p.1 ≤ q.1 }

/-! ## 6. Choosing entries -/

/-- The loop of `selectEntriesForPairs`. The first entry is taken whatever its size. -/
def selectLoop (t : Table) (maxBytes : Nat) :
    List (UInt64 × Key) → Nat → List (Key × VersionedEntry) → List (Key × VersionedEntry)
  | [], _, items => items
  | (_, key) :: rest, bytes, items =>
    match t.lookup key with
    | none => selectLoop t maxBytes rest bytes items
    | some existing =>
      let cost := syncEntryWireSize key existing
      if bytes + cost > maxBytes ∧ items ≠ [] then items
      else if bytes + cost > maxBytes then items ++ [(key, existing)]
      else selectLoop t maxBytes rest (bytes + cost) (items ++ [(key, existing)])

def selectEntriesForPairs (t : Table) (pairs : List (UInt64 × Key)) (maxBytes : Nat) :
    List (Key × VersionedEntry) := selectLoop t maxBytes pairs 0 []

/-- The scan of `selectEntriesForHashes`: the first key of a wanted hash stays. -/
def resolveHashes (t : Table) (hashes : List UInt64) : List (UInt64 × Key) :=
  t.entries.foldl (fun resolved e =>
    if hashes.contains (xxh3 e.1) && !(resolved.map Prod.fst).contains (xxh3 e.1) then
      resolved ++ [(xxh3 e.1, e.1)]
    else resolved) []

def selectEntriesForHashes (t : Table) (hashes : List UInt64) (maxBytes : Nat) :
    List (Key × VersionedEntry) :=
  if hashes = [] then []
  else
    let sorted := (hashes.insertionSort (· ≤ ·)).dedup
    let pairs := (resolveHashes xxh3 t sorted).insertionSort fun p q => p.1 ≤ q.1
    selectEntriesForPairs t pairs maxBytes

end Node

/-! ## 7. What an entry is worth -/

/-- An entry as a peer sees it: stamp, value, and the deadline in whole milliseconds of the wall
clock. -/
structure Content where
  stamp : LwwStamp
  value : Bytes
  deadlineMs : Option UInt64
  deriving DecidableEq, Repr

def contentOf (clk : ClockReading) (entry : VersionedEntry) : Content where
  stamp := stampOf entry
  value := entry.value
  deadlineMs := if entry.hasTtl then some (toSystemMs clk entry.expiresAt) else none

variable (clk : ClockReading)

theorem stampOf_ofWire (w : SyncEntry) (hversion : w.version.toNat < 2 ^ 62) :
    stampOf (w.ofWire clk) = ⟨w.version, w.writer, w.tombstone⟩ := by
  have hset := VersionedEntry.version_setVersion {} hversion
  unfold SyncEntry.ofWire
  split <;> simp only [stampOf_expiresAt, stampOf_setHasTtl, stampOf_setTombstone] <;>
    exact congrArg (LwwStamp.mk · w.writer w.tombstone) hset

theorem hasTtl_ofWire (w : SyncEntry) : (w.ofWire clk).hasTtl = w.hasTtl := by
  have hnone : (VersionedEntry.setVersion {} w.version).hasTtl = false :=
    (VersionedEntry.hasTtl_setVersion {} w.version).trans
      (show ((0 : UInt64) &&& 1 != 0) = false by decide)
  unfold SyncEntry.ofWire
  split
  · rename_i httl
    exact (VersionedEntry.hasTtl_setHasTtl _ true).trans httl.symm
  · rename_i httl
    exact (VersionedEntry.hasTtl_setTombstone _ _).trans
      (hnone.trans (Bool.eq_false_iff.mpr httl).symm)

theorem content_ofWire (clk clk' : ClockReading) (key : Key) (entry : VersionedEntry) :
    contentOf clk' ((SyncEntry.toWire clk key entry).ofWire clk') = contentOf clk entry := by
  have hstamp : stampOf ((SyncEntry.toWire clk key entry).ofWire clk') = stampOf entry :=
    stampOf_ofWire clk' _ entry.version_lt
  have hvalue : ((SyncEntry.toWire clk key entry).ofWire clk').value = entry.value := by
    unfold SyncEntry.ofWire
    split <;> rfl
  have httl : ((SyncEntry.toWire clk key entry).ofWire clk').hasTtl = entry.hasTtl :=
    hasTtl_ofWire clk' _
  unfold contentOf
  rw [hstamp, hvalue, httl]
  split
  · rename_i h
    have hexpires : ((SyncEntry.toWire clk key entry).ofWire clk').expiresAt =
        toSteadyExpiry clk' (timeOfMillis (toSystemMs clk entry.expiresAt)) := by
      simp only [SyncEntry.ofWire, SyncEntry.toWire, h, if_true]
    have hback : ∀ t, toSystemExpiry clk' (toSteadyExpiry clk' t) = t := by
      intro t
      rw [toSystemExpiry, toSteadyExpiry, add_sub_cancel_left, add_sub_cancel]
    rw [hexpires, toSystemMs, hback, millisOf_timeOfMillis]
  · rfl

/-- The stamp of a key, `⊥` where it is absent. -/
def stampAt (t : Table) (key : Key) : WithBot LwwStamp :=
  match t.lookup key with
  | some e => (stampOf e : WithBot LwwStamp)
  | none => ⊥

variable {t : Table} {key : Key}

theorem stampAt_of_lookup {e : VersionedEntry} (h : t.lookup key = some e) :
    stampAt t key = (stampOf e : WithBot LwwStamp) := by
  rw [stampAt, h]

theorem stampAt_of_none (h : t.lookup key = none) : stampAt t key = ⊥ := by
  rw [stampAt, h]

theorem lookup_of_stampAt_lt {s : WithBot LwwStamp} (h : s < stampAt t key) :
    ∃ e, t.lookup key = some e ∧ key ∈ t := by
  cases hlookup : t.lookup key with
  | none =>
    rw [stampAt_of_none hlookup] at h
    exact absurd h not_lt_bot
  | some e => exact ⟨e, rfl, AList.lookup_isSome.mp (by rw [hlookup]; rfl)⟩

/-! ## 8. Groups, rows and collected metadata -/

section Specs

variable {xxh3 : Bytes → UInt64} {numBuckets : Nat}

theorem mem_groupBuckets {group b : Nat} :
    b ∈ groupBuckets numBuckets group ↔ b < numBuckets ∧ b / kBucketsPerGroup = group := by
  simp only [groupBuckets, mem_range'_1, kBucketsPerGroup]
  omega

variable {t : Table}

theorem mem_bucketRows {b : Nat} {row : MetaRow} :
    row ∈ bucketRows xxh3 numBuckets t b ↔
      ∃ key entry, t.lookup key = some entry ∧ bucketFor xxh3 numBuckets key = b ∧
        metaRow xxh3 numBuckets key entry = row := by
  simp only [bucketRows, mem_map, mem_filter, decide_eq_true_eq]
  constructor
  · rintro ⟨⟨key, entry⟩, ⟨hmem, hb⟩, hrow⟩
    exact ⟨key, entry, AList.mem_lookup_iff.mpr hmem, hb, hrow⟩
  · rintro ⟨key, entry, hlookup, hb, hrow⟩
    exact ⟨⟨key, entry⟩, ⟨AList.mem_lookup_iff.mp hlookup, hb⟩, hrow⟩

theorem mem_sortedRows {b : Nat} {row : MetaRow} :
    row ∈ sortedRows xxh3 numBuckets t b ↔ row ∈ bucketRows xxh3 numBuckets t b :=
  mem_insertionSort _

theorem nodup_hashes (hinj : Set.InjOn xxh3 {key | key ∈ t}) :
    (t.entries.map fun e => xxh3 e.1).Nodup := by
  have hkeys : (t.entries.map Sigma.fst).Nodup := t.nodupKeys
  rw [show (fun e : Sigma fun _ : Key => VersionedEntry => xxh3 e.1) = xxh3 ∘ Sigma.fst from rfl,
    ← map_map]
  exact hkeys.map_on fun key hkey key' hkey' heq => hinj hkey hkey' heq

theorem nodup_bucketRows (hinj : Set.InjOn xxh3 {key | key ∈ t}) (b : Nat) :
    ((bucketRows xxh3 numBuckets t b).map MetaRow.toItem).Nodup := by
  have hhash : (((bucketRows xxh3 numBuckets t b).map MetaRow.toItem).map
      Iblt.Item.keyHash).Nodup := by
    rw [bucketRows, map_map, map_map]
    exact (nodup_hashes hinj).sublist (filter_sublist.map _)
  exact hhash.of_map _

def bucketCost (xxh3 : Bytes → UInt64) (numBuckets : Nat) (t : Table) (b : Nat) : Nat :=
  4 + (bucketRows xxh3 numBuckets t b).length * kMetaRowBytes

theorem collectLoop_eq_fill (t : Table) (maxBytes : Nat) (wanted : List Nat) (bytes : Nat)
    (covered : List Nat) :
    collectLoop xxh3 numBuckets t maxBytes wanted bytes covered
        (covered.flatMap (sortedRows xxh3 numBuckets t)) =
      let taken := Budget.fill maxBytes (bucketCost xxh3 numBuckets t) wanted bytes covered
      (taken, taken.flatMap (sortedRows xxh3 numBuckets t)) := by
  induction wanted generalizing bytes covered with
  | nil => rfl
  | cons b rest ih =>
    have hcost : bucketCost xxh3 numBuckets t b =
        4 + (sortedRows xxh3 numBuckets t b).length * kMetaRowBytes := by
      rw [bucketCost, sortedRows, length_insertionSort]
    have hrows : covered.flatMap (sortedRows xxh3 numBuckets t) ++ sortedRows xxh3 numBuckets t b =
        (covered ++ [b]).flatMap (sortedRows xxh3 numBuckets t) := by
      rw [flatMap_append, flatMap_singleton]
    rw [Budget.fill, collectLoop, hrows, hcost]
    dsimp only
    rw [add_assoc, ih]
    by_cases hfits : bytes + (4 + (sortedRows xxh3 numBuckets t b).length * kMetaRowBytes) ≤
      maxBytes
    · rw [if_neg (by omega), if_neg (by omega), if_neg (by omega), if_pos hfits]
    · rw [if_neg hfits]
      cases covered with
      | nil =>
        rw [if_neg (fun h => h.2 rfl), if_neg (fun h => lt_irrefl 1 h.2), if_pos (by omega)]
        rfl
      | cons c covered =>
        split
        · rfl
        · rw [if_pos ⟨by omega, by simp⟩]
          rfl

theorem collectMetadata_eq (t : Table) (bucketIds : List Nat) (maxBytes : Nat) :
    collectMetadata xxh3 numBuckets t bucketIds maxBytes =
      let wanted := (range numBuckets).filter bucketIds.contains
      let k := Budget.count maxBytes (2 * 4) (wanted.map (bucketCost xxh3 numBuckets t))
      (wanted.take k, (wanted.take k).flatMap (sortedRows xxh3 numBuckets t)) := by
  dsimp only
  rw [← Budget.fill_nil]
  exact collectLoop_eq_fill t maxBytes _ (2 * 4) []

/-! ## 9. The row diff -/

theorem lookup_foldl_insert (rows : List MetaRow) (index : AList fun _ : UInt64 => MetaRow)
    (h : UInt64) :
    (∃ row ∈ rows, row.keyHash = h ∧
        (rows.foldl (fun index row => AList.insert row.keyHash row index) index).lookup h =
          some row) ∨
      (∀ row ∈ rows, row.keyHash ≠ h) ∧
        (rows.foldl (fun index row => AList.insert row.keyHash row index) index).lookup h =
          index.lookup h := by
  induction rows generalizing index with
  | nil => exact .inr ⟨nofun, rfl⟩
  | cons r rows ih =>
    rcases ih (AList.insert r.keyHash r index) with ⟨row, hmem, hhash, hlookup⟩ | ⟨hnone, hlookup⟩
    · exact .inl ⟨row, mem_cons_of_mem _ hmem, hhash, hlookup⟩
    · by_cases hr : r.keyHash = h
      · subst hr
        exact .inl ⟨r, mem_cons_self, rfl, hlookup.trans (AList.lookup_insert index)⟩
      · refine .inr ⟨?_, hlookup.trans (AList.lookup_insert_ne (Ne.symm hr))⟩
        intro row hrow
        rcases mem_cons.mp hrow with rfl | hrow
        · exact hr
        · exact hnone row hrow

/-- The rows are those of the covered buckets of a table, all of them. -/
def RowsOf (xxh3 : Bytes → UInt64) (numBuckets : Nat) (t : Table) (covered : List Nat)
    (rows : List MetaRow) : Prop :=
  ∀ row, row ∈ rows ↔ ∃ b ∈ covered, row ∈ bucketRows xxh3 numBuckets t b

theorem lookup_rowIndex {covered : List Nat} {rows : List MetaRow}
    (hrows : RowsOf xxh3 numBuckets t covered rows) {keys : Set Key} (hinj : Set.InjOn xxh3 keys)
    (hkeys : ∀ key ∈ t, key ∈ keys) {key : Key} (hkey : key ∈ keys) :
    (rowIndex rows).lookup (xxh3 key) =
      if bucketFor xxh3 numBuckets key ∈ covered then
        (t.lookup key).map (metaRow xxh3 numBuckets key)
      else none := by
  -- a row of this hash is the row of this key
  have hown : ∀ row ∈ rows, row.keyHash = xxh3 key → ∃ entry, t.lookup key = some entry ∧
      bucketFor xxh3 numBuckets key ∈ covered ∧ metaRow xxh3 numBuckets key entry = row := by
    intro row hrow hhash
    obtain ⟨b, hb, hmem⟩ := (hrows row).mp hrow
    obtain ⟨key', entry, hlookup, rfl, rfl⟩ := mem_bucketRows.mp hmem
    have hkey' : key' ∈ keys := hkeys key' (AList.lookup_isSome.mp (by rw [hlookup]; rfl))
    obtain rfl := hinj hkey' hkey hhash
    exact ⟨entry, hlookup, hb, rfl⟩
  unfold rowIndex
  rcases lookup_foldl_insert rows ∅ (xxh3 key) with ⟨row, hrow, hhash, hlookup⟩ | ⟨hnone, hlookup⟩
  · obtain ⟨entry, hentry, hcov, rfl⟩ := hown row hrow hhash
    rw [hlookup, if_pos hcov, hentry, Option.map_some]
  · rw [hlookup, AList.lookup_empty]
    split
    · rename_i hcov
      cases hentry : t.lookup key with
      | none => rfl
      | some entry =>
        have hrow := (hrows (metaRow xxh3 numBuckets key entry)).mpr
          ⟨_, hcov, mem_bucketRows.mpr ⟨key, entry, hentry, rfl, rfl⟩⟩
        exact absurd rfl (hnone _ hrow)
    · rfl

end Specs

section Scan

variable {xxh3 : Bytes → UInt64} {numBuckets : Nat} {divergent : List Nat} {covered : Nat → Bool}

variable (xxh3 numBuckets divergent covered) in
/-- What the scan says about an entry, given the rows not matched yet. -/
def verdictOf (index : AList fun _ : UInt64 => MetaRow)
    (e : Sigma fun _ : Key => VersionedEntry) : Verdict :=
  if divergent.contains (bucketFor xxh3 numBuckets e.1) then
    verdict (index.lookup (xxh3 e.1)) (covered (bucketFor xxh3 numBuckets e.1)) e.2
  else .skip

variable (xxh3 numBuckets divergent covered) in
def pushOf (index : AList fun _ : UInt64 => MetaRow) (e : Sigma fun _ : Key => VersionedEntry) :
    Option (UInt64 × Key) :=
  if verdictOf xxh3 numBuckets divergent covered index e = .push then some (xxh3 e.1, e.1) else none

variable (xxh3 numBuckets divergent covered) in
def fetchOf (index : AList fun _ : UInt64 => MetaRow) (e : Sigma fun _ : Key => VersionedEntry) :
    Option UInt64 :=
  if verdictOf xxh3 numBuckets divergent covered index e = .fetch then some (xxh3 e.1) else none

theorem visit_spec (s : RowScan) (e : Sigma fun _ : Key => VersionedEntry) :
    (s.visit xxh3 numBuckets divergent covered e).diff.have_ =
        s.diff.have_ ++ (pushOf xxh3 numBuckets divergent covered s.byHash e).toList ∧
      (s.visit xxh3 numBuckets divergent covered e).diff.need =
        s.diff.need ++ (fetchOf xxh3 numBuckets divergent covered s.byHash e).toList ∧
      ∀ h, (s.visit xxh3 numBuckets divergent covered e).byHash.lookup h =
        if divergent.contains (bucketFor xxh3 numBuckets e.1) = true ∧ xxh3 e.1 = h then none
        else s.byHash.lookup h := by
  unfold pushOf fetchOf verdictOf RowScan.visit
  by_cases hdiv : divergent.contains (bucketFor xxh3 numBuckets e.1) = true
  · simp only [hdiv, Bool.not_true, Bool.false_eq_true, if_false, if_true, true_and]
    refine ⟨?_, ?_, fun h => ?_⟩
    · cases verdict (s.byHash.lookup (xxh3 e.1)) (covered (bucketFor xxh3 numBuckets e.1)) e.2 <;>
        simp
    · cases verdict (s.byHash.lookup (xxh3 e.1)) (covered (bucketFor xxh3 numBuckets e.1)) e.2 <;>
        simp
    · split
      · rename_i hh
        rw [← hh, AList.lookup_erase]
      · rename_i hh
        rw [AList.lookup_erase_ne (Ne.symm hh)]
  · rw [Bool.not_eq_true] at hdiv
    simp only [hdiv, Bool.not_false, if_true, Bool.false_eq_true, if_false, reduceCtorEq,
      Option.toList_none, append_nil, false_and, true_and, implies_true]

theorem foldl_visit_spec {l : List (Sigma fun _ : Key => VersionedEntry)}
    (hl : (l.map fun e => xxh3 e.1).Nodup) (s : RowScan) :
    (l.foldl (RowScan.visit xxh3 numBuckets divergent covered) s).diff.have_ =
        s.diff.have_ ++ l.filterMap (pushOf xxh3 numBuckets divergent covered s.byHash) ∧
      (l.foldl (RowScan.visit xxh3 numBuckets divergent covered) s).diff.need =
        s.diff.need ++ l.filterMap (fetchOf xxh3 numBuckets divergent covered s.byHash) ∧
      ∀ h, (l.foldl (RowScan.visit xxh3 numBuckets divergent covered) s).byHash.lookup h =
        if ∃ e ∈ l, divergent.contains (bucketFor xxh3 numBuckets e.1) = true ∧ xxh3 e.1 = h
        then none else s.byHash.lookup h := by
  induction l generalizing s with
  | nil => simp
  | cons e l ih =>
    obtain ⟨he, hl⟩ := nodup_cons.mp hl
    obtain ⟨hhave, hneed, hlookup⟩ := ih hl (s.visit xxh3 numBuckets divergent covered e)
    obtain ⟨hhave₁, hneed₁, hlookup₁⟩ := @visit_spec xxh3 numBuckets divergent covered s e
    -- the rest is judged by the same rows as before
    have hsame : ∀ e' ∈ l, verdictOf xxh3 numBuckets divergent covered
        (s.visit xxh3 numBuckets divergent covered e).byHash e' =
          verdictOf xxh3 numBuckets divergent covered s.byHash e' := by
      intro e' he'
      have hne : ¬ (divergent.contains (bucketFor xxh3 numBuckets e.1) = true ∧
          xxh3 e.1 = xxh3 e'.1) := fun h => he (mem_map.mpr ⟨e', he', h.2.symm⟩)
      rw [verdictOf, verdictOf, hlookup₁, if_neg hne]
    refine ⟨?_, ?_, fun h => ?_⟩
    · rw [foldl_cons, hhave, hhave₁, filterMap_cons, append_assoc]
      congr 1
      rw [filterMap_congr fun e' he' => by rw [pushOf, hsame e' he', ← pushOf]]
      cases pushOf xxh3 numBuckets divergent covered s.byHash e <;> rfl
    · rw [foldl_cons, hneed, hneed₁, filterMap_cons, append_assoc]
      congr 1
      rw [filterMap_congr fun e' he' => by rw [fetchOf, hsame e' he', ← fetchOf]]
      cases fetchOf xxh3 numBuckets divergent covered s.byHash e <;> rfl
    · rw [foldl_cons, hlookup, hlookup₁]
      simp only [mem_cons, exists_eq_or_imp]
      by_cases hmem : ∃ e ∈ l, divergent.contains (bucketFor xxh3 numBuckets e.1) = true ∧
          xxh3 e.1 = h
      · rw [if_pos hmem, if_pos (.inr hmem)]
      · simp only [hmem, if_false, or_false]

end Scan

section Diff

theorem filterMap_eq_map_filter {α β : Type} {l : List α} {f : α → Option β} {p : α → Prop}
    [DecidablePred p] {g : α → β} (h : ∀ x ∈ l, f x = if p x then some (g x) else none) :
    l.filterMap f = (l.filter p).map g := by
  induction l with
  | nil => rfl
  | cons x l ih =>
    rw [filterMap_cons, filter_cons, h x mem_cons_self]
    split <;> simp_all

variable {xxh3 : Bytes → UInt64} {numBuckets : Nat} {a b : Table} {rows : List MetaRow}
  {divergent covered : List Nat}

theorem diffRows_congr (t : Table) (rows : List MetaRow) {divergent' covered' : List Nat}
    (hdivergent : ∀ c, c ∈ divergent ↔ c ∈ divergent')
    (hcovered : ∀ c, c ∈ covered ↔ c ∈ covered') :
    diffRows xxh3 numBuckets t rows divergent covered =
      diffRows xxh3 numBuckets t rows divergent' covered' := by
  have hcontains : ∀ {l l' : List Nat}, (∀ c, c ∈ l ↔ c ∈ l') →
    ∀ c, l.contains c = l'.contains c := by
    intro l l' h c
    rw [Bool.eq_iff_iff, contains_iff_mem, contains_iff_mem, h]
  have hnil : ∀ {l l' : List Nat}, (∀ c, c ∈ l ↔ c ∈ l') → (l = [] ↔ l' = []) := by
    intro l l' h
    rw [eq_nil_iff_forall_not_mem, eq_nil_iff_forall_not_mem]
    simp only [h]
  have hempty : covered.isEmpty = covered'.isEmpty := by
    rw [Bool.eq_iff_iff, List.isEmpty_iff, List.isEmpty_iff, hnil hcovered]
  have hvisit : ∀ f, RowScan.visit xxh3 numBuckets divergent f =
      RowScan.visit xxh3 numBuckets divergent' f := by
    intro f
    funext s e
    rw [RowScan.visit, RowScan.visit, hcontains hdivergent]
  unfold diffRows
  simp only [hnil hdivergent, hvisit, hempty, hcontains hcovered]

theorem divergent_ne_nil (hcovered : covered ≠ []) (hsub : ∀ c ∈ covered, c ∈ divergent) :
    divergent ≠ [] := by
  obtain ⟨c, hc⟩ := exists_mem_of_ne_nil _ hcovered
  exact ne_nil_of_mem (hsub c hc)

section Rows

variable (hrows : RowsOf xxh3 numBuckets b covered rows)
  (hinj : Set.InjOn xxh3 {key | key ∈ a ∨ key ∈ b}) (hcovered : covered ≠ [])
  (hsub : ∀ c ∈ covered, c ∈ divergent)

include hrows hinj hcovered hsub

theorem verdictOf_iff {key : Key} {entry : VersionedEntry} (hentry : a.lookup key = some entry) :
    (verdictOf xxh3 numBuckets divergent (fun c => covered.isEmpty || covered.contains c)
        (rowIndex rows) ⟨key, entry⟩ = .push ↔
      bucketFor xxh3 numBuckets key ∈ covered ∧ stampAt b key < stampAt a key) ∧
    (verdictOf xxh3 numBuckets divergent (fun c => covered.isEmpty || covered.contains c)
        (rowIndex rows) ⟨key, entry⟩ = .fetch ↔
      bucketFor xxh3 numBuckets key ∈ covered ∧ stampAt a key < stampAt b key) := by
  have hkey : key ∈ a := AList.lookup_isSome.mp (by rw [hentry]; rfl)
  have hempty : covered.isEmpty = false := by simpa using hcovered
  unfold verdictOf
  dsimp only
  rw [lookup_rowIndex hrows hinj (fun _ => .inr) (.inl hkey), hempty, Bool.false_or,
    stampAt_of_lookup hentry]
  by_cases hcov : bucketFor xxh3 numBuckets key ∈ covered
  · rw [if_pos (by simpa using hsub _ hcov), if_pos hcov]
    cases hb : b.lookup key with
    | none => simp [stampAt_of_none hb, verdict, hcov]
    | some entry' =>
      have hstamp : (metaRow xxh3 numBuckets key entry').stamp = stampOf entry' := rfl
      simp only [Option.map_some, verdict, hstamp, lwwWinsOver_iff, stampAt_of_lookup hb,
        WithBot.coe_lt_coe, hcov, true_and]
      rcases lt_trichotomy (stampOf entry) (stampOf entry') with h | h | h
      · simp [h, h.asymm]
      · simp [h]
      · simp [h, h.asymm]
  · simp [hcov, verdict]

theorem diffRows_have_perm :
    (diffRows xxh3 numBuckets a rows divergent covered).have_.Perm
      ((a.entries.filter fun e => bucketFor xxh3 numBuckets e.1 ∈ covered ∧
        stampAt b e.1 < stampAt a e.1).map fun e => (xxh3 e.1, e.1)) := by
  have hscan := (@foldl_visit_spec xxh3 numBuckets divergent
    (fun c => covered.isEmpty || covered.contains c) _
    (nodup_hashes (hinj.mono fun key (h : key ∈ a) => .inl h)) { byHash := rowIndex rows }).1
  have hpush : ∀ e ∈ a.entries, pushOf xxh3 numBuckets divergent
      (fun c => covered.isEmpty || covered.contains c) (rowIndex rows) e =
        if bucketFor xxh3 numBuckets e.1 ∈ covered ∧ stampAt b e.1 < stampAt a e.1
        then some (xxh3 e.1, e.1) else none := by
    intro e he
    simp only [pushOf, (verdictOf_iff hrows hinj hcovered hsub (AList.mem_lookup_iff.mpr he)).1]
  unfold diffRows
  rw [if_neg (divergent_ne_nil hcovered hsub)]
  refine (perm_insertionSort _ _).trans ?_
  rw [hscan, nil_append, filterMap_eq_map_filter hpush]

theorem mem_diffRows_need (h : UInt64) :
    h ∈ (diffRows xxh3 numBuckets a rows divergent covered).need ↔
      ∃ key, xxh3 key = h ∧ bucketFor xxh3 numBuckets key ∈ covered ∧
        stampAt a key < stampAt b key := by
  obtain ⟨-, hneed, hlookup⟩ := @foldl_visit_spec xxh3 numBuckets divergent
    (fun c => covered.isEmpty || covered.contains c) _
    (nodup_hashes (hinj.mono fun key (h : key ∈ a) => .inl h)) { byHash := rowIndex rows }
  unfold diffRows
  rw [if_neg (divergent_ne_nil hcovered hsub)]
  simp only [mem_insertionSort, mem_append, hneed, nil_append]
  constructor
  · rintro (hfetch | hrest)
    · -- an entry the row wins over
      obtain ⟨e, he, hfetch⟩ := mem_filterMap.mp hfetch
      obtain ⟨hverdict, hhash⟩ := Option.ite_none_right_eq_some.mp hfetch
      exact ⟨e.1, Option.some.inj hhash,
        (verdictOf_iff hrows hinj hcovered hsub (AList.mem_lookup_iff.mpr he)).2.mp hverdict⟩
    · -- a row no entry has used up
      obtain ⟨e, he, rfl⟩ := mem_map.mp hrest
      have hrow := hlookup e.1
      rw [AList.mem_lookup_iff.mpr (mem_of_mem_filter he)] at hrow
      split at hrow
      · cases hrow
      rename_i hunused
      obtain ⟨row, hmem, hhash, hlast⟩ :
          ∃ row ∈ rows, row.keyHash = e.1 ∧ (rowIndex rows).lookup e.1 = some row := by
        rcases lookup_foldl_insert rows ∅ e.1 with h | ⟨-, h⟩
        · exact h
        · exact absurd (hrow.trans h) (by simp)
      obtain ⟨c, hc, hin⟩ := (hrows row).mp hmem
      obtain ⟨key, entry, hentry, rfl, rfl⟩ := mem_bucketRows.mp hin
      refine ⟨key, hhash, hc, ?_⟩
      cases ha : a.lookup key with
      | none =>
        rw [stampAt_of_none ha, stampAt_of_lookup hentry]
        exact WithBot.bot_lt_coe _
      | some own =>
        refine absurd ⟨⟨key, own⟩, AList.mem_lookup_iff.mp ha, ?_, hhash⟩ hunused
        simpa using hsub _ hc
  · rintro ⟨key, rfl, hcov, hlt⟩
    have hdiv : divergent.contains (bucketFor xxh3 numBuckets key) = true := by
      simpa using hsub _ hcov
    cases ha : a.lookup key with
    | some own =>
      refine .inl (mem_filterMap.mpr ⟨⟨key, own⟩, AList.mem_lookup_iff.mp ha, ?_⟩)
      rw [fetchOf, if_pos ((verdictOf_iff hrows hinj hcovered hsub ha).2.mpr ⟨hcov, hlt⟩)]
    | none =>
      right
      cases hb : b.lookup key with
      | none =>
        rw [stampAt_of_none hb] at hlt
        exact absurd hlt (WithBot.not_lt_bot _)
      | some entry =>
        have hkey : key ∈ b := AList.lookup_isSome.mp (by rw [hb]; rfl)
        -- its row is still there: no other key has this hash
        have hunused : ¬ ∃ e ∈ a.entries,
            divergent.contains (bucketFor xxh3 numBuckets e.1) = true ∧ xxh3 e.1 = xxh3 key := by
          rintro ⟨e, he, -, hhash⟩
          have hmem : e.1 ∈ a := AList.mem_keys.mpr (mem_map_of_mem he)
          rw [hinj (.inl hmem) (.inr hkey) hhash] at hmem
          exact AList.lookup_eq_none.mp ha hmem
        have hrow := hlookup (xxh3 key)
        rw [if_neg hunused, lookup_rowIndex hrows hinj (fun _ => .inr) (.inr hkey), if_pos hcov,
          hb, Option.map_some] at hrow
        refine mem_map.mpr ⟨⟨xxh3 key, metaRow xxh3 numBuckets key entry⟩,
          mem_filter.mpr ⟨AList.mem_lookup_iff.mp hrow, ?_⟩, rfl⟩
        simp only [metaRow, Bool.or_eq_true, contains_iff_mem]
        exact .inr hcov

end Rows

theorem nodup_diffRows_need (hinj : Set.InjOn xxh3 {key | key ∈ a}) :
    (diffRows xxh3 numBuckets a rows divergent covered).need.Nodup := by
  obtain ⟨-, hneed, hlookup⟩ := @foldl_visit_spec xxh3 numBuckets divergent
    (fun c => covered.isEmpty || covered.contains c) _ (nodup_hashes hinj)
    { byHash := rowIndex rows }
  unfold diffRows
  split
  · exact nodup_nil
  refine (perm_insertionSort _ _).nodup_iff.mpr ?_
  rw [hneed, nil_append]
  refine nodup_append.mpr ⟨?_, ?_, fun h hfetch h' hrest heq => ?_⟩
  · -- one hash for each entry
    rw [filterMap_eq_map_filter fun e _ => fetchOf.eq_1 ..]
    exact (nodup_hashes hinj).sublist (filter_sublist.map _)
  · exact (AList.nodupKeys _).sublist filter_sublist
  · -- the row of an entry that was judged is used up
    subst heq
    obtain ⟨e, he, hfetch⟩ := mem_filterMap.mp hfetch
    obtain ⟨r, hr, rfl⟩ := mem_map.mp hrest
    have hrow := hlookup r.1
    rw [AList.mem_lookup_iff.mpr (mem_of_mem_filter hr)] at hrow
    split at hrow
    · cases hrow
    rename_i hunused
    obtain ⟨hverdict, hhash⟩ := Option.ite_none_right_eq_some.mp hfetch
    unfold verdictOf at hverdict
    split at hverdict
    · rename_i hdivergent
      exact hunused ⟨e, he, hdivergent, Option.some.inj hhash⟩
    · cases hverdict

/-- What the local store makes of all the metadata the partner sends for the divergent buckets. -/
def metadataDiff (xxh3 : Bytes → UInt64) (numBuckets : Nat) (a b : Table) (divergent : List Nat)
    (maxBytes : Nat) : MetaDiff :=
  let sent := collectMetadata xxh3 numBuckets b divergent maxBytes
  diffRows xxh3 numBuckets a sent.2 divergent sent.1

theorem mem_metadataDiff {maxBytes : Nat} (hinj : Set.InjOn xxh3 {key | key ∈ a ∨ key ∈ b})
    (hfull : ∀ c ∈ divergent, c ∈ (collectMetadata xxh3 numBuckets b divergent maxBytes).1)
    (h : UInt64) :
    (h ∈ (metadataDiff xxh3 numBuckets a b divergent maxBytes).need ↔
      ∃ key, xxh3 key = h ∧ bucketFor xxh3 numBuckets key ∈ divergent ∧
        stampAt a key < stampAt b key) ∧
    (h ∈ (metadataDiff xxh3 numBuckets a b divergent maxBytes).have_.map Prod.fst ↔
      ∃ key, xxh3 key = h ∧ bucketFor xxh3 numBuckets key ∈ divergent ∧
        stampAt b key < stampAt a key) := by
  unfold metadataDiff
  have hsent := @collectMetadata_eq xxh3 numBuckets b divergent maxBytes
  revert hfull hsent
  generalize collectMetadata xxh3 numBuckets b divergent maxBytes = sent
  intro hfull hsent
  have hsub : ∀ c ∈ sent.1, c ∈ divergent := by
    intro c hc
    rw [hsent] at hc
    exact contains_iff_mem.mp (mem_filter.mp (mem_of_mem_take hc)).2
  have hrows : RowsOf xxh3 numBuckets b sent.1 sent.2 := by
    intro row
    rw [hsent]
    simp only [mem_flatMap, mem_sortedRows]
  by_cases hnil : divergent = []
  · subst hnil
    simp [diffRows]
  have hcovered : sent.1 ≠ [] := by
    obtain ⟨c, hc⟩ := exists_mem_of_ne_nil _ hnil
    exact ne_nil_of_mem (hfull c hc)
  have hmem : ∀ c, c ∈ sent.1 ↔ c ∈ divergent := fun c => ⟨hsub c, hfull c⟩
  refine ⟨by simp only [mem_diffRows_need hrows hinj hcovered hsub, hmem], ?_⟩
  rw [((diffRows_have_perm hrows hinj hcovered hsub).map Prod.fst).mem_iff]
  simp only [map_map, mem_map, mem_filter, decide_eq_true_eq, hmem, Function.comp]
  constructor
  · intro hkey
    obtain ⟨e, ⟨-, hbucket, hlt⟩, rfl⟩ := hkey
    exact ⟨e.1, rfl, hbucket, hlt⟩
  · intro hkey
    obtain ⟨key, rfl, hbucket, hlt⟩ := hkey
    obtain ⟨entry, hentry, -⟩ := lookup_of_stampAt_lt hlt
    exact ⟨⟨key, entry⟩, ⟨AList.mem_lookup_iff.mp hentry, hbucket, hlt⟩, rfl⟩

/-- **Metadata diffs are mirror images**: what one store asks for is what the other pushes, nothing
is both pushed and asked for, and the two together are the keys that differ. -/
theorem metadata_diffs_mirror (xxh3 : Bytes → UInt64) (numBuckets : Nat) (a b : Table)
    (divergent : List Nat) (maxBytes maxBytes' : Nat)
    (hinj : Set.InjOn xxh3 {key | key ∈ a ∨ key ∈ b})
    (hb : ∀ c ∈ divergent, c ∈ (collectMetadata xxh3 numBuckets b divergent maxBytes).1)
    (ha : ∀ c ∈ divergent, c ∈ (collectMetadata xxh3 numBuckets a divergent maxBytes').1) :
    (∀ h, h ∈ (metadataDiff xxh3 numBuckets a b divergent maxBytes).need ↔
      h ∈ (metadataDiff xxh3 numBuckets b a divergent maxBytes').have_.map Prod.fst) ∧
    (∀ h, h ∈ (metadataDiff xxh3 numBuckets b a divergent maxBytes').need ↔
      h ∈ (metadataDiff xxh3 numBuckets a b divergent maxBytes).have_.map Prod.fst) ∧
    (∀ h ∈ (metadataDiff xxh3 numBuckets a b divergent maxBytes).need,
      h ∉ (metadataDiff xxh3 numBuckets a b divergent maxBytes).have_.map Prod.fst) ∧
    ∀ h, (h ∈ (metadataDiff xxh3 numBuckets a b divergent maxBytes).need ∨
        h ∈ (metadataDiff xxh3 numBuckets a b divergent maxBytes).have_.map Prod.fst) ↔
      ∃ key, xxh3 key = h ∧ bucketFor xxh3 numBuckets key ∈ divergent ∧
        stampAt a key ≠ stampAt b key := by
  have hinj' : Set.InjOn xxh3 {key | key ∈ b ∨ key ∈ a} := hinj.mono fun _ hkey => Or.symm hkey
  have hneed := fun h => (mem_metadataDiff hinj hb h).1
  have hhave := fun h => (mem_metadataDiff hinj hb h).2
  refine ⟨fun h => (hneed h).trans (mem_metadataDiff hinj' ha h).2.symm,
    fun h => (mem_metadataDiff hinj' ha h).1.trans (hhave h).symm, fun h hin hout => ?_,
    fun h => ?_⟩
  · obtain ⟨key, rfl, -, hlt⟩ := (hneed h).mp hin
    obtain ⟨key', hhash, -, hgt⟩ := (hhave _).mp hout
    obtain ⟨-, -, hkey⟩ := lookup_of_stampAt_lt hlt
    obtain ⟨-, -, hkey'⟩ := lookup_of_stampAt_lt hgt
    -- one key for the hash, and it cannot be older on both sides
    obtain rfl := hinj (.inl hkey') (.inr hkey) hhash
    exact hlt.asymm hgt
  · rw [hneed, hhave, ← exists_or]
    simp only [← and_or_left, ne_iff_lt_or_gt]

/-- Keys 1 and 2 at versions 1 and 3, and keys 1, 2 and 3 at versions 2, 2 and 1. -/
def twoKeys : Table :=
  AList.insert [1] (VersionedEntry.setVersion {} 1)
    (AList.singleton [2] (VersionedEntry.setVersion {} 3))

def threeKeys : Table :=
  AList.insert [1] (VersionedEntry.setVersion {} 2)
    (AList.insert [2] (VersionedEntry.setVersion {} 2)
      (AList.singleton [3] (VersionedEntry.setVersion {} 1)))

theorem metadata_diffs_mirror_three :
    (metadataDiff firstByte 1 twoKeys threeKeys [0] 1000).need = [1, 3] ∧
      (metadataDiff firstByte 1 twoKeys threeKeys [0] 1000).have_.map Prod.fst = [2] ∧
      ∀ h, h ∈ (metadataDiff firstByte 1 twoKeys threeKeys [0] 1000).need ↔
        h ∈ (metadataDiff firstByte 1 threeKeys twoKeys [0] 1000).have_.map Prod.fst := by
  have hkeys : ∀ key, key ∈ twoKeys ∨ key ∈ threeKeys → key ∈ [[1], [2], [3]] := by
    rintro key (hkey | hkey)
    · exact mem_append_left [[3]] (show key ∈ [[1], [2]] from hkey)
    · exact hkey
  refine ⟨by decide +kernel, by decide +kernel, (metadata_diffs_mirror firstByte 1 twoKeys threeKeys
    [0] 1000 1000 (fun key hkey key' hkey' => ?_) (by decide +kernel) (by decide +kernel)).1⟩
  exact (by decide : ∀ key ∈ [[1], [2], [3]], ∀ key' ∈ [[1], [2], [3]],
    firstByte key = firstByte key' → key = key') key (hkeys key hkey) key' (hkeys key' hkey')

end Diff

/-! ## 10. Choosing entries -/

variable (t)

def wireCostOf (wanted : Key → Bool) : Nat :=
  ((t.entries.filter fun e => wanted e.1).map fun e => syncEntryWireSize e.1 e.2).sum

def residents (pairs : List (UInt64 × Key)) : List (Key × VersionedEntry) :=
  pairs.filterMap fun p => (t.lookup p.2).map fun entry => (p.2, entry)

def wireSizes (items : List (Key × VersionedEntry)) : List Nat :=
  items.map fun p => syncEntryWireSize p.1 p.2

theorem selectLoop_eq_fill (maxBytes : Nat) (pairs : List (UInt64 × Key)) (bytes : Nat)
    (items : List (Key × VersionedEntry)) :
    selectLoop t maxBytes pairs bytes items =
      Budget.fill maxBytes (fun p => syncEntryWireSize p.1 p.2)
        (residents t pairs) bytes items := by
  induction pairs generalizing bytes items with
  | nil => rfl
  | cons pair rest ih =>
    cases hentry : t.lookup pair.2 with
    | none =>
      have hskip : residents t (pair :: rest) = residents t rest := by simp [residents, hentry]
      rw [hskip, ← ih]
      simp only [selectLoop, hentry]
    | some existing =>
      have htake : residents t (pair :: rest) = (pair.2, existing) :: residents t rest := by
        simp [residents, hentry]
      rw [htake, Budget.fill, ← ih]
      simp only [selectLoop, hentry]
      cases items <;> grind

theorem selectEntriesForPairs_eq (pairs : List (UInt64 × Key)) (maxBytes : Nat) :
    selectEntriesForPairs t pairs maxBytes = (residents t pairs).take
      (Budget.count maxBytes 0 (wireSizes (residents t pairs))) :=
  (selectLoop_eq_fill t maxBytes pairs 0 []).trans Budget.fill_nil

/-- What is chosen of the wanted keys under a byte budget: resident entries of wanted keys, one
in any case, and all of them if they fit. -/
structure Chosen (wanted : Key → Bool) (maxBytes : Nat)
    (items : List (Key × VersionedEntry)) : Prop where
  sound : ∀ p ∈ items, t.lookup p.1 = some p.2 ∧ wanted p.1 = true
  one : ∀ key ∈ t, wanted key = true → items ≠ []
  all : wireCostOf t wanted ≤ maxBytes →
    ∀ key entry, t.lookup key = some entry → wanted key = true → (key, entry) ∈ items

variable {t}

theorem chosen_selectEntriesForPairs {t : Table} {wanted : Key → Bool} {hash : Key → UInt64}
    {pairs : List (UInt64 × Key)}
    (hpairs : pairs.Perm ((t.entries.filter fun e => wanted e.1).map fun e => (hash e.1, e.1)))
    (maxBytes : Nat) : Chosen t wanted maxBytes (selectEntriesForPairs t pairs maxBytes) := by
  have hresidents : (residents t pairs).Perm
      ((t.entries.filter fun e => wanted e.1).map fun e => (e.1, e.2)) := by
    refine (hpairs.filterMap _).trans ?_
    rw [filterMap_map, ← filterMap_eq_map]
    refine List.Perm.of_eq (filterMap_congr fun e he => ?_)
    have hentry : t.lookup e.1 = some e.2 := AList.mem_lookup_iff.mpr (mem_of_mem_filter he)
    simp only [Function.comp_apply, hentry, Option.map_some]
  have hmem : ∀ p, p ∈ residents t pairs ↔ t.lookup p.1 = some p.2 ∧ wanted p.1 = true := by
    intro p
    rw [hresidents.mem_iff, mem_map]
    constructor
    · rintro ⟨e, he, rfl⟩
      obtain ⟨hin, hwanted⟩ := mem_filter.mp he
      exact ⟨AList.mem_lookup_iff.mpr hin, hwanted⟩
    · rintro ⟨hentry, hwanted⟩
      exact ⟨⟨p.1, p.2⟩, mem_filter.mpr ⟨AList.mem_lookup_iff.mp hentry, hwanted⟩, rfl⟩
  have hcost : (wireSizes (residents t pairs)).sum = wireCostOf t wanted := by
    rw [wireSizes, (hresidents.map _).sum_eq, map_map]
    rfl
  rw [selectEntriesForPairs_eq]
  refine ⟨fun p hp => (hmem p).mp (mem_of_mem_take hp), fun key hkey hwanted hnil => ?_,
    fun hfits key entry hentry hwanted => ?_⟩
  · obtain ⟨entry, hentry⟩ := Option.isSome_iff_exists.mp (AList.lookup_isSome.mpr hkey)
    have hne := ne_nil_of_mem ((hmem (key, entry)).mpr ⟨hentry, hwanted⟩)
    have hpos := @Budget.count_pos maxBytes 0 (wireSizes (residents t pairs))
      (by simpa [wireSizes] using hne)
    rcases take_eq_nil_iff.mp hnil with h | h
    · omega
    · exact hne h
  · rw [Budget.count_eq_length (by omega), wireSizes, length_map, take_length]
    exact (hmem (key, entry)).mpr ⟨hentry, hwanted⟩

section Hashes

variable {xxh3 : Bytes → UInt64} {t : Table}

theorem foldl_resolve {hashes : List UInt64} {l : List (Sigma fun _ : Key => VersionedEntry)}
    (hl : (l.map fun e => xxh3 e.1).Nodup) (resolved : List (UInt64 × Key))
    (hfresh : ∀ e ∈ l, xxh3 e.1 ∉ resolved.map Prod.fst) : l.foldl (fun resolved e =>
        if hashes.contains (xxh3 e.1) && !(resolved.map Prod.fst).contains (xxh3 e.1) then
          resolved ++ [(xxh3 e.1, e.1)]
        else resolved) resolved =
      resolved ++ (l.filter fun e => hashes.contains (xxh3 e.1)).map fun e => (xxh3 e.1, e.1) := by
  induction l generalizing resolved with
  | nil => simp
  | cons e l ih =>
    obtain ⟨he, hl⟩ := nodup_cons.mp hl
    have hnew : (resolved.map Prod.fst).contains (xxh3 e.1) = false := by
      simpa using hfresh e mem_cons_self
    rw [foldl_cons, hnew, Bool.not_false, Bool.and_true]
    by_cases hin : hashes.contains (xxh3 e.1) = true
    · rw [if_pos hin, ih hl, filter_cons, if_pos hin, map_cons, append_assoc]
      · rfl
      · intro e' he' hmem
        rw [map_append, mem_append] at hmem
        rcases hmem with hmem | hmem
        · exact hfresh e' (mem_cons_of_mem _ he') hmem
        · exact he (mem_map.mpr ⟨e', he', by simpa using hmem⟩)
    · rw [if_neg hin, ih hl _ fun e' he' => hfresh e' (mem_cons_of_mem _ he'),
        filter_cons, if_neg hin]

theorem chosen_selectEntriesForHashes (hinj : Set.InjOn xxh3 {key | key ∈ t})
    (hashes : List UInt64) (maxBytes : Nat) :
    Chosen t (fun key => hashes.contains (xxh3 key)) maxBytes
      (selectEntriesForHashes xxh3 t hashes maxBytes) := by
  unfold selectEntriesForHashes
  split
  · rename_i hnil
    subst hnil
    exact ⟨nofun, fun _ _ h => by simp at h, fun _ _ _ _ h => by simp at h⟩
  · have hmem : ∀ key, ((hashes.insertionSort (· ≤ ·)).dedup).contains (xxh3 key) =
        hashes.contains (xxh3 key) := by
      intro key
      rw [Bool.eq_iff_iff]
      simp
    refine @chosen_selectEntriesForPairs t _ xxh3 _ ((perm_insertionSort _ _).trans ?_) maxBytes
    rw [resolveHashes, foldl_resolve (nodup_hashes hinj) [] (by simp), nil_append]
    simp only [hmem]
    exact List.Perm.refl _

end Hashes

/-! ## 11. Applying entries -/

def contentIn (clk : ClockReading) (t : Table) (key : Key) : Option Content :=
  (t.lookup key).map (contentOf clk)

theorem stampAt_eq (t : Table) (key : Key) :
    stampAt t key = (contentIn clk t key).map Content.stamp := by
  unfold stampAt contentIn
  cases t.lookup key <;> rfl

theorem stampAt_of_contentIn {clk clk' : ClockReading} {t' : Table}
    (h : contentIn clk t key = contentIn clk' t' key) : stampAt t key = stampAt t' key := by
  rw [stampAt_eq clk, h, ← stampAt_eq]

theorem putVersioned_of_le {entry : VersionedEntry}
    (h : stampAt t key ≤ (stampOf entry : WithBot LwwStamp)) :
    t.putVersioned key entry = t.insert key entry := by
  unfold Table.putVersioned
  split
  · rename_i old hold
    rw [stampAt_of_lookup hold, WithBot.coe_le_coe] at h
    rw [if_neg fun hless => (compareLww_eq_less.mp hless).not_ge h]
  · rfl

theorem contentIn_insert (t : Table) (key key' : Key) (entry : VersionedEntry) :
    contentIn clk (t.insert key entry) key' =
      if key' = key then some (contentOf clk entry) else contentIn clk t key' := by
  unfold contentIn
  split
  · rename_i h
    rw [h, AList.lookup_insert, Option.map_some]
  · rename_i h
    rw [AList.lookup_insert_ne h]

theorem contentIn_applySync {source : Table} (clk clk' : ClockReading)
    {items : List (Key × VersionedEntry)} (hsource : ∀ p ∈ items, source.lookup p.1 = some p.2)
    (hwins : ∀ p ∈ items, stampAt t p.1 ≤ stampAt source p.1) (key : Key) :
    contentIn clk' (t.applySync clk' (items.map fun p => SyncEntry.toWire clk p.1 p.2)) key =
      if key ∈ items.map Prod.fst then contentIn clk source key else contentIn clk' t key := by
  induction items generalizing t with
  | nil => rfl
  | cons p items ih =>
    have hentry := hsource p mem_cons_self
    have hput : t.putVersioned p.1 ((SyncEntry.toWire clk p.1 p.2).ofWire clk') =
        t.insert p.1 ((SyncEntry.toWire clk p.1 p.2).ofWire clk') := by
      refine putVersioned_of_le ?_
      rw [show stampOf ((SyncEntry.toWire clk p.1 p.2).ofWire clk') = stampOf p.2 from
        congrArg Content.stamp (content_ofWire clk clk' p.1 p.2), ← stampAt_of_lookup hentry]
      exact hwins p mem_cons_self
    have hcontent : ∀ key', contentIn clk' (t.putVersioned p.1
        ((SyncEntry.toWire clk p.1 p.2).ofWire clk')) key' =
          if key' = p.1 then contentIn clk source key' else contentIn clk' t key' := by
      intro key'
      rw [hput, contentIn_insert, content_ofWire]
      split
      · rename_i h
        rw [h, contentIn, hentry, Option.map_some]
      · rfl
    have hrest := ih (t := t.putVersioned p.1 ((SyncEntry.toWire clk p.1 p.2).ofWire clk'))
      (fun q hq => hsource q (mem_cons_of_mem _ hq)) fun q hq => by
        have hq' := hcontent q.1
        split at hq'
        · exact (stampAt_of_contentIn hq').le
        · rw [stampAt_of_contentIn hq']
          exact hwins q (mem_cons_of_mem _ hq)
    refine hrest.trans ?_
    rw [hcontent, map_cons]
    by_cases hin : key ∈ items.map Prod.fst
    · rw [if_pos hin, if_pos (mem_cons_of_mem _ hin)]
    · rw [if_neg hin]
      by_cases hp : key = p.1
      · rw [if_pos hp, if_pos (hp ▸ mem_cons_self)]
      · rw [if_neg hp, if_neg fun h => (mem_cons.mp h).elim hp hin]

theorem lookup_applySync_of_notMem {entries : List SyncEntry}
    (h : key ∉ entries.map SyncEntry.key) :
    (t.applySync clk entries).lookup key = t.lookup key := by
  induction entries generalizing t with
  | nil => rfl
  | cons w entries ih =>
    rw [map_cons, mem_cons, not_or] at h
    refine (ih h.2).trans ((congrFun (lookup_putVersioned_eq t w.key (w.ofWire clk)) key).trans ?_)
    exact Function.update_of_ne h.1 _ _

end Cinder
