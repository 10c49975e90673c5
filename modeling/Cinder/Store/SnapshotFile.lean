/-
The bytes of a snapshot (`src/store/snapshot.cpp`): a header, and the entries in chunks.

A chunk is written when the next entry does not fit into it; an entry larger than a chunk is
written by itself. The reader checks the count against the bytes that are left before it reads.
-/
import Cinder.Store.Records

namespace Cinder

open Decoding Decoder List

/-! ## 1. The writer -/

/-- A `SnapshotEntry` as the file has it. -/
structure SnapshotRecord extends SnapshotEntry where
  freq : UInt64 := 0

namespace SnapshotRecord

variable (e : SnapshotRecord)

def Fits : Prop := e.key.length < 2 ^ 32 ∧ e.value.length < 2 ^ 32

instance : Decidable e.Fits := inferInstanceAs (Decidable (_ ∧ _))

def encode : Bytes :=
  leBytes 4 e.key.length ++ e.key ++ leBytes 4 e.value.length ++ e.value ++
    leBytes 8 e.version.toNat ++ leBytes 8 e.writerNodeHash.toNat ++
    leBytes 8 e.expiresAtMs.toNat ++ [boolByte e.hasTtl] ++ leBytes 8 e.freq.toNat ++
    [boolByte e.tombstone]

def size : Nat := 4 + e.key.length + 4 + e.value.length + 8 * 4 + 1 + 1

end SnapshotRecord

def kSnapshotMagic : Nat := 0x43534E50

def kChunkBytes : Nat := 256 * 1024

def snapshotHeader (nextVersion : UInt64) (count : Nat) : Bytes :=
  leBytes 4 kSnapshotMagic ++ leBytes 4 2 ++ leBytes 8 nextVersion.toNat ++ leBytes 4 count

/-- The loop of `SnapshotWriter::write`: what is in the file, and what is in the chunk. -/
def writeEntries (chunkBytes : Nat) : List SnapshotRecord → (out chunk : Bytes) → Option Bytes
  | [], out, chunk => some (out ++ chunk)
  | e :: es, out, chunk =>
    if ¬ e.Fits then none
    else if chunkBytes < e.size then writeEntries chunkBytes es (out ++ chunk ++ e.encode) []
    else if chunkBytes < chunk.length + e.size then
      writeEntries chunkBytes es (out ++ chunk) e.encode
    else writeEntries chunkBytes es out (chunk ++ e.encode)

/-- `SnapshotWriter::write`, for any size of chunks. -/
def writeSnapshot (chunkBytes : Nat) (nextVersion : UInt64) (entries : List SnapshotRecord) :
    Option Bytes :=
  writeEntries chunkBytes entries (snapshotHeader nextVersion entries.length) []

theorem writeEntries_eq (chunkBytes : Nat) (es : List SnapshotRecord) (out chunk : Bytes) :
    writeEntries chunkBytes es out chunk =
      if ∀ e ∈ es, e.Fits then some (out ++ chunk ++ es.flatMap SnapshotRecord.encode)
      else none := by
  induction es generalizing out chunk with
  | nil => simp [writeEntries]
  | cons e es ih =>
    unfold writeEntries
    by_cases h : e.Fits
    · repeat' split
      all_goals simp_all
    · simp [h]

/-! ## 2. The reader -/

inductive SnapshotFormat where
  | v1 | v2

def parseSnapshotFormat (v : Nat) : Option SnapshotFormat :=
  if v = 1 then some .v1 else if v = 2 then some .v2 else none

def SnapshotFormat.minEntryBytes : SnapshotFormat → Nat
  | .v1 => 41
  | .v2 => 42

/-- Version 1 has no tombstone byte. -/
def SnapshotFormat.readTombstone : SnapshotFormat → Decoder UInt8 Bool
  | .v1 => pure false
  | .v2 => do
    let byte ← readU8
    if 1 < byte then reject else pure (byte != 0)

def readSnapshotEntry (format : SnapshotFormat) : Decoder UInt8 SnapshotRecord := do
  let keyLen ← readLe 4
  let key ← take keyLen
  let valLen ← readLe 4
  let value ← take valLen
  let version ← readU64
  let writerHash ← readU64
  let expiresMs ← readU64
  let hasTtl ← readU8
  let freq ← readU64
  let tombstone ← format.readTombstone
  pure ⟨⟨key, value, version, writerHash, expiresMs, hasTtl != 0, tombstone⟩, freq⟩

def readSnapshotEntries (format : SnapshotFormat) : Nat → Decoder UInt8 (List SnapshotRecord)
  | 0 => pure []
  | n + 1 => do
    let e ← readSnapshotEntry format
    let es ← readSnapshotEntries format n
    pure (e :: es)

/-- `entry_count > remaining / min_entry_bytes`: the file is too short for its count. -/
def checkCount (minEntryBytes count : Nat) : Decoder UInt8 Unit := fun c =>
  if (c.data.length - c.pos) / minEntryBytes < count then (.error .short, c) else (.ok (), c)

/-- `SnapshotReader::readAll`. -/
def readSnapshot : Decoder UInt8 (UInt64 × List SnapshotRecord) := do
  let magic ← readLe 4
  if magic ≠ kSnapshotMagic then reject
  else do
    let version ← readLe 4
    match parseSnapshotFormat version with
    | none => reject
    | some format => do
      let next ← readU64
      let count ← readLe 4
      checkCount format.minEntryBytes count
      let entries ← readSnapshotEntries format count
      pure (next, entries)

/-! ## 3. Round trip -/

theorem codes_readSnapshotEntry {e : SnapshotRecord} (h : e.Fits) :
    Codes (readSnapshotEntry .v2) e.encode e := by
  obtain ⟨⟨key, value, version, writer, expires, ttl, tombstone⟩, freq⟩ := e
  have httl : (boolByte ttl != 0) = ttl := by cases ttl <;> rfl
  have htomb : Codes SnapshotFormat.v2.readTombstone ([boolByte tombstone] ++ []) tombstone := by
    refine (codes_readU8 _).bind ?_
    cases tombstone <;> exact codes_pure _
  have hc : Codes (readSnapshotEntry .v2) _ ⟨⟨key, value, version, writer, expires,
      boolByte ttl != 0, tombstone⟩, freq⟩ :=
    (codes_readLe (w := 4) h.1).bind <| (codes_take key).bind <|
    (codes_readLe (w := 4) h.2).bind <| (codes_take value).bind <|
    (codes_readU64 _).bind <| (codes_readU64 _).bind <| (codes_readU64 _).bind <|
    (codes_readU8 _).bind <| (codes_readU64 _).bind <| htomb.bind <| codes_pure _
  rw [httl] at hc
  simpa [SnapshotRecord.encode] using hc

theorem codes_readSnapshotEntries {es : List SnapshotRecord} (h : ∀ e ∈ es, e.Fits) :
    Codes (readSnapshotEntries .v2 es.length) (es.flatMap SnapshotRecord.encode) es := by
  induction es with
  | nil => exact codes_pure _
  | cons e es ih =>
    rw [forall_mem_cons] at h
    exact (codes_readSnapshotEntry h.1).bind ((ih h.2).map _)

theorem length_le_encoded (es : List SnapshotRecord) :
    es.length ≤ (es.flatMap SnapshotRecord.encode).length / 42 := by
  rw [Nat.le_div_iff_mul_le (by decide)]
  induction es with
  | nil => rfl
  | cons e es ih =>
    simp only [flatMap_cons, length_append, length_cons, SnapshotRecord.encode, length_leBytes]
    omega

/-- The check passes on a whole word, and cuts it short where it does not. -/
theorem codes_checked {α : Type} {d : Decoder UInt8 α} {w : Bytes} {a : α} {m count : Nat}
    (hd : Codes d w a) (h : count ≤ w.length / m) : Codes (do checkCount m count; d) w a where
  whole l r := by
    have hle : count ≤ (w ++ r).length / m := h.trans (Nat.div_le_div_right (by simp))
    have hrest : (l ++ w ++ r).length - l.length = (w ++ r).length := by simp
    simp only [Bind.bind, checkCount, hrest, if_neg hle.not_gt, hd.whole]
  cut l p hp hne := by
    obtain ⟨n, hn⟩ := hd.cut l p hp hne
    simp only [Bind.bind, checkCount]
    split
    · rename_i heq
      split at heq <;> cases heq
      exact ⟨n, hn⟩
    · rename_i heq
      split at heq <;> cases heq
      exact ⟨l.length, rfl⟩

theorem codes_readSnapshot (next : UInt64) {entries : List SnapshotRecord}
    (hcount : entries.length < 2 ^ 32) (h : ∀ e ∈ entries, e.Fits) :
    Codes readSnapshot (snapshotHeader next entries.length ++
      entries.flatMap SnapshotRecord.encode) (next, entries) := by
  have hc : Codes readSnapshot _ (next, entries) :=
    (codes_readLe (w := 4) (n := kSnapshotMagic) (by decide)).bind <|
    (codes_readLe (w := 4) (n := 2) (by decide)).bind <|
    (codes_readU64 next).bind <| (codes_readLe (w := 4) hcount).bind <|
    codes_checked ((codes_readSnapshotEntries h).map _) (length_le_encoded entries)
  simpa [snapshotHeader] using hc

/-- **Snapshots are lossless and show a cut**: the size of the chunks does not matter, only an entry
with a key or a value of 4 GiB is refused, what is written is read back, and every proper prefix
of it is an error. -/
theorem snapshots_lossless (next : UInt64) {entries : List SnapshotRecord}
    (hcount : entries.length < 2 ^ 32) :
    (∀ chunkBytes, writeSnapshot chunkBytes next entries = writeSnapshot kChunkBytes next entries) ∧
    ((writeSnapshot kChunkBytes next entries).isSome ↔ ∀ e ∈ entries, e.Fits) ∧
    ∀ bytes, writeSnapshot kChunkBytes next entries = some bytes →
      (readSnapshot ⟨bytes, 0⟩).1 = .ok (next, entries) ∧
      ∀ p, p <+: bytes → p ≠ bytes → ∃ stop, (readSnapshot ⟨p, 0⟩).1 = .error stop := by
  refine ⟨fun _ => by simp only [writeSnapshot, writeEntries_eq],
    by simp only [writeSnapshot, writeEntries_eq]; split <;> simp_all, fun bytes h => ?_⟩
  simp only [writeSnapshot, writeEntries_eq, append_nil, Option.ite_none_right_eq_some,
    Option.some.injEq] at h
  obtain ⟨hfits, rfl⟩ := h
  have hc := codes_readSnapshot next hcount hfits
  constructor
  · have hwhole := hc.whole [] []
    rw [nil_append, append_nil, length_nil] at hwhole
    rw [hwhole]
  · intro p hp hne
    obtain ⟨n, hcut⟩ := hc.cut [] p hp hne
    rw [nil_append, length_nil] at hcut
    exact ⟨.short, by rw [hcut]⟩

/-- A small entry, one that is larger than a chunk, and one behind it. -/
def acrossChunks : List SnapshotRecord :=
  [{ key := [1], freq := 4 }, { key := [2], value := replicate kChunkBytes 0 },
    { key := [3], hasTtl := true, expiresAtMs := 9 }]

theorem snapshots_lossless_across_chunks :
    ∃ bytes, writeSnapshot kChunkBytes 7 acrossChunks = some bytes ∧
      writeSnapshot 50 7 acrossChunks = some bytes ∧
      (readSnapshot ⟨bytes, 0⟩).1 = .ok (7, acrossChunks) := by
  have hfits : ∀ e ∈ acrossChunks, e.Fits := by
    simp only [acrossChunks, forall_mem_cons]
    refine ⟨by decide, ⟨by decide, ?_⟩, by decide, nofun⟩
    rw [length_replicate]
    decide
  obtain ⟨hchunks, hsome, hread⟩ := @snapshots_lossless 7 acrossChunks (by simp [acrossChunks])
  obtain ⟨bytes, hwrite⟩ := Option.isSome_iff_exists.mp (hsome.mpr hfits)
  exact ⟨bytes, hwrite, (hchunks 50).trans hwrite, (hread bytes hwrite).1⟩

end Cinder
