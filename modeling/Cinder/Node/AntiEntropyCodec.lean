/-
The bytes of the anti-entropy messages as they are written
(`src/node/anti_entropy/codec.cpp`, `iblt::encode`), and how many there are.

A count is written as the low four bytes of a size. The writers of the source fill a buffer
whose size is computed beforehand; here the size is what comes out.
-/
import Cinder.Node.SyncCodec

namespace Cinder

open Decoding List

/-! ## 1. Requests -/

def kGroupDigestMagic : UInt32 := 0x41454D33

def kDigestResponseMagic : UInt32 := 0x41455236

def kBucketRefinementMagic : UInt32 := 0x41454235

def u64Bytes (h : UInt64) : Bytes := leBytes 8 h.toNat

def hashedBucket (p : Nat × UInt64) : Bytes := leBytes 4 p.1 ++ u64Bytes p.2

def encodeGroupDigest (groups : List UInt64) : Bytes :=
  leBytes 4 kGroupDigestMagic.toNat ++ leBytes 4 groups.length ++ groups.flatMap u64Bytes

def encodeBucketRefinement (request : BucketRefinement) : Bytes :=
  leBytes 4 kBucketRefinementMagic.toNat ++ leBytes 4 (if request.forceMetadata then 1 else 0) ++
    leBytes 4 request.bucketHashes.length ++ request.bucketHashes.flatMap hashedBucket

/-! ## 2. Rows and sketches -/

def encodeMetaRow (r : MetaRow) : Bytes :=
  leBytes 4 r.bucket ++ u64Bytes r.keyHash ++ u64Bytes r.version ++ u64Bytes r.writer ++
    [if r.tombstone then 1 else 0]

def encodeMetaRows (rows : List MetaRow) : Bytes :=
  leBytes 4 rows.length ++ rows.flatMap encodeMetaRow

namespace Iblt

def kMagic : UInt32 := 0x41454934

def kCellBytes : Nat := 6 * 8

/-- One cell; the count in two's complement. -/
def Cell.encode (cell : Cell) : Bytes :=
  leBytes 8 (cell.count % 2 ^ 64).toNat ++ u64Bytes cell.keyHashXor ++ u64Bytes cell.versionXor ++
    u64Bytes cell.writerXor ++ u64Bytes cell.tombstoneXor ++ u64Bytes cell.checksumXor

def encode (sketch : Sketch) : Bytes :=
  if sketch.length < kHashCount ∨ sketch.length > kMaxCells then []
  else leBytes 4 kMagic.toNat ++ leBytes 4 sketch.length ++ sketch.flatMap Cell.encode

end Iblt

/-! ## 3. Answers -/

def sketchBlob (p : Nat × Iblt.Sketch) : Bytes :=
  leBytes 4 p.1 ++ leBytes 4 (Iblt.encode p.2).length ++ Iblt.encode p.2

def encodeDigestResponse (response : DigestResponse) : Bytes :=
  leBytes 4 kDigestResponseMagic.toNat ++
    leBytes 4 response.groupHashes.length ++ response.groupHashes.flatMap u64Bytes ++
    leBytes 4 response.bucketHashes.length ++ response.bucketHashes.flatMap hashedBucket ++
    leBytes 4 response.coveredBuckets.length ++ response.coveredBuckets.flatMap (leBytes 4) ++
    leBytes 4 (encodeMetaRows response.rows).length ++ encodeMetaRows response.rows ++
    leBytes 4 response.ibltSketches.length ++ response.ibltSketches.flatMap sketchBlob

/-! ## 4. Sync messages -/

/-- `entry_flags`: bit 0 = has_ttl, bit 1 = tombstone. -/
def SyncEntry.entryFlags (w : SyncEntry) : UInt8 :=
  (if w.hasTtl then 1 else 0) ||| (if w.tombstone then 2 else 0)

def SyncEntry.encode (w : SyncEntry) : Bytes :=
  leBytes 4 w.key.length ++ w.key ++ u64Bytes w.version ++ u64Bytes w.writer ++ [w.entryFlags] ++
    (if w.hasTtl then u64Bytes w.expiresMs else []) ++ leBytes 4 w.value.length ++ w.value

def encodeSync (msg : SyncMessage) : Bytes :=
  leBytes 4 kSyncMagic.toNat ++
    leBytes 4 msg.entries.length ++ msg.entries.flatMap SyncEntry.encode ++
    leBytes 4 msg.needs.length ++ msg.needs.flatMap u64Bytes

/-! ## 5. Sizes -/

theorem length_flatMap_of_forall {α : Type} {f : α → Bytes} {n : Nat} (h : ∀ x, (f x).length = n)
    (l : List α) : (l.flatMap f).length = l.length * n := by
  rw [length_flatMap, map_congr_left fun x _ => h x, map_const', sum_replicate, smul_eq_mul]

@[simp] theorem length_u64Bytes (h : UInt64) : (u64Bytes h).length = 8 := length_leBytes 8 _

@[simp] theorem length_hashedBucket (p : Nat × UInt64) : (hashedBucket p).length = 12 := by
  simp [hashedBucket]

@[simp] theorem length_encodeMetaRow (r : MetaRow) : (encodeMetaRow r).length = kMetaRowBytes := by
  simp [encodeMetaRow, kMetaRowBytes]

@[simp] theorem Iblt.length_encode_cell (cell : Iblt.Cell) :
    cell.encode.length = Iblt.kCellBytes := by
  simp [Iblt.Cell.encode, Iblt.kCellBytes]

theorem length_encodeGroupDigest (groups : List UInt64) :
    (encodeGroupDigest groups).length = 8 + groups.length * 8 := by
  simp only [encodeGroupDigest, length_append, length_leBytes,
    length_flatMap_of_forall length_u64Bytes]

theorem length_encodeBucketRefinement (request : BucketRefinement) :
    (encodeBucketRefinement request).length = 12 + request.bucketHashes.length * 12 := by
  simp only [encodeBucketRefinement, length_append, length_leBytes,
    length_flatMap_of_forall length_hashedBucket]

theorem length_encodeMetaRows (rows : List MetaRow) :
    (encodeMetaRows rows).length = 4 + rows.length * kMetaRowBytes := by
  simp [encodeMetaRows, length_flatMap_of_forall length_encodeMetaRow]

theorem Iblt.length_encode_le (sketch : Iblt.Sketch) :
    (Iblt.encode sketch).length ≤ 8 + sketch.length * Iblt.kCellBytes := by
  unfold Iblt.encode
  split
  · exact Nat.zero_le _
  · simp only [length_append, length_leBytes, length_flatMap_of_forall Iblt.length_encode_cell]
    omega

theorem length_encodeDigestResponse (response : DigestResponse) :
    (encodeDigestResponse response).length = 28 + response.groupHashes.length * 8 +
      response.bucketHashes.length * 12 + response.coveredBuckets.length * 4 +
      response.rows.length * kMetaRowBytes +
      (response.ibltSketches.map fun p => 8 + (Iblt.encode p.2).length).sum := by
  have hsketches : (response.ibltSketches.flatMap sketchBlob).length =
      (response.ibltSketches.map fun p => 8 + (Iblt.encode p.2).length).sum := by
    rw [length_flatMap]
    refine congrArg List.sum (map_congr_left fun p _ => ?_)
    simp only [sketchBlob, length_append, length_leBytes]
  simp only [encodeDigestResponse, length_append, length_leBytes, hsketches,
    length_encodeMetaRows, length_flatMap_of_forall length_u64Bytes,
    length_flatMap_of_forall length_hashedBucket, length_flatMap_of_forall (length_leBytes 4)]
  omega

theorem length_encode_toWire (clk : ClockReading) (key : Key) (entry : VersionedEntry) :
    (SyncEntry.toWire clk key entry).encode.length = syncEntryWireSize key entry := by
  unfold SyncEntry.encode SyncEntry.toWire syncEntryWireSize
  cases entry.hasTtl <;> simp <;> omega

theorem length_encodeSync (msg : SyncMessage) :
    (encodeSync msg).length = 12 + (msg.entries.map fun w => w.encode.length).sum +
      msg.needs.length * 8 := by
  simp only [encodeSync, length_append, length_leBytes, length_flatMap,
    length_flatMap_of_forall length_u64Bytes]
  omega

/-! ## 6. Metadata and its budget -/

section Collected

variable {xxh3 : Bytes → UInt64} {numBuckets : Nat} {t : Table}

theorem length_collected (buckets : List Nat) :
    buckets.length * 4 + (buckets.flatMap (sortedRows xxh3 numBuckets t)).length * kMetaRowBytes =
      (buckets.map (bucketCost xxh3 numBuckets t)).sum := by
  induction buckets with
  | nil => rfl
  | cons bucket rest ih =>
    rw [flatMap_cons, length_append, length_cons, map_cons, sum_cons, ← ih,
      bucketCost, sortedRows, length_insertionSort]
    ring

/-- What `forEach` visits. -/
def Table.live (t : Table) (now : Nanos) : Table :=
  ⟨t.entries.filter fun e => !e.2.expiredAt now, t.nodupKeys.sublist filter_sublist⟩

/-- Metadata of whole buckets. -/
structure Collected (xxh3 : Bytes → UInt64) (numBuckets : Nat) (t : Table) (bucketIds : List Nat)
    (maxBytes : Nat) (covered : List Nat) (rows : List MetaRow) : Prop where
  ascending : covered.Pairwise (· < ·)
  segment : covered <+: (range numBuckets).filter bucketIds.contains
  nonempty : (∃ b ∈ bucketIds, b < numBuckets) → covered ≠ []
  complete : ∀ b ∈ covered,
    (rows.filter fun row => row.bucket = b).Perm (bucketRows xxh3 numBuckets t b)
  only : ∀ row ∈ rows, row.bucket ∈ covered
  /-- The rows and the list of covered buckets, each behind a count. -/
  size : covered.length ≠ 1 →
    (encodeMetaRows rows).length + (4 + covered.length * 4) ≤ max maxBytes 8

theorem bucket_of_mem_sortedRows {b : Nat} {row : MetaRow}
    (h : row ∈ sortedRows xxh3 numBuckets t b) : row.bucket = b := by
  obtain ⟨key, entry, -, hbucket, rfl⟩ := mem_bucketRows.mp (mem_sortedRows.mp h)
  exact hbucket

theorem filter_flatMap_sortedRows {buckets : List Nat} (hnodup : buckets.Nodup) {b : Nat}
    (hb : b ∈ buckets) :
    ((buckets.flatMap (sortedRows xxh3 numBuckets t)).filter fun row => row.bucket = b) =
      sortedRows xxh3 numBuckets t b := by
  obtain ⟨l₁, l₂, rfl⟩ := append_of_mem hb
  have hout := nodup_cons.mp (nodup_middle.mp hnodup)
  have hnone : ∀ l : List Nat, b ∉ l →
      (l.flatMap (sortedRows xxh3 numBuckets t)).filter (fun row => row.bucket = b) = [] := by
    intro l hl
    refine filter_eq_nil_iff.mpr fun row hrow heq => hl ?_
    obtain ⟨c, hc, hrow⟩ := mem_flatMap.mp hrow
    rw [← of_decide_eq_true heq, bucket_of_mem_sortedRows hrow]
    exact hc
  have hself : (sortedRows xxh3 numBuckets t b).filter (fun row => row.bucket = b) =
      sortedRows xxh3 numBuckets t b :=
    filter_eq_self.mpr fun row hrow => decide_eq_true (bucket_of_mem_sortedRows hrow)
  rw [flatMap_append, flatMap_cons, filter_append, filter_append,
    hnone l₁ fun h => hout.1 (mem_append_left _ h),
    hnone l₂ fun h => hout.1 (mem_append_right _ h), hself, nil_append, append_nil]

/-- **Metadata is collected bucket by bucket**, within the budget unless one bucket alone is over
it, or the budget does not even hold the two counts. -/
theorem collectMetadata_within (xxh3 : Bytes → UInt64) (numBuckets : Nat) (t : Table) (now : Nanos)
    (bucketIds : List Nat) (maxBytes : Nat) :
    Collected xxh3 numBuckets (t.live now) bucketIds maxBytes
      (collectMetadata xxh3 numBuckets (t.live now) bucketIds maxBytes).1
      (collectMetadata xxh3 numBuckets (t.live now) bucketIds maxBytes).2 := by
  generalize t.live now = t
  rw [collectMetadata_eq]
  dsimp only
  generalize hw : (range numBuckets).filter bucketIds.contains = wanted
  generalize hk : Budget.count maxBytes (2 * 4) (wanted.map (bucketCost xxh3 numBuckets t)) = k
  have hsorted : (wanted.take k).Pairwise (· < ·) := by
    rw [← hw]
    exact (pairwise_lt_range.filter _).sublist (take_sublist k _)
  refine ⟨hsorted, hw.symm ▸ take_prefix k _, fun hvalid => ?_, fun b hb => ?_, fun row hrow => ?_,
    fun hone => ?_⟩
  · obtain ⟨b, hb, hlt⟩ := hvalid
    have hmem : b ∈ wanted := hw ▸ mem_filter.mpr ⟨mem_range.mpr hlt, contains_iff_mem.mpr hb⟩
    have hpos : 0 < k := hk ▸ Budget.count_pos (by simp [ne_nil_of_mem hmem])
    exact mt take_eq_nil_iff.mp (not_or.mpr ⟨hpos.ne', ne_nil_of_mem hmem⟩)
  · rw [filter_flatMap_sortedRows (hsorted.imp Nat.ne_of_lt) hb]
    exact perm_insertionSort _ _
  · obtain ⟨b, hb, hrow⟩ := mem_flatMap.mp hrow
    rwa [bucket_of_mem_sortedRows hrow]
  · have hsize := @length_collected xxh3 numBuckets t (wanted.take k)
    rw [length_encodeMetaRows]
    rcases @Budget.count_le_one_or_fits maxBytes (2 * 4)
      (wanted.map (bucketCost xxh3 numBuckets t)) with hle | hfits
    · -- one bucket at most was taken, and it was not one: there is none
      have hlength : (wanted.take k).length = 0 := by
        rw [length_take] at hone ⊢
        omega
      rw [length_eq_zero_iff.mp hlength]
      exact le_max_right _ _
    · rw [hk, ← map_take] at hfits
      omega

/-- Without a request nothing is covered, and the count of no rows is over an empty budget. -/
theorem collectMetadata_over_empty_budget :
    (collectMetadata (fun _ => 0) 1 ∅ [] 0).1 = [] ∧
      0 < (encodeMetaRows (collectMetadata (fun _ => 0) 1 ∅ [] 0).2).length := by
  decide

end Collected

end Cinder
