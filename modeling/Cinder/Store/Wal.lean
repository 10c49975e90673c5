/-
The write-ahead log as bytes: record encoder, file header, writer and reader
(`src/store/wal.cpp`, `include/cinder/store/wal.hpp`), and what a replay makes of a file that
a crash has cut.
-/
import Cinder.Common.Types
import Cinder.Lib.Decoder
import Mathlib.Tactic.IntervalCases

namespace Cinder

open Decoding Decoding.Decoder List

/-! ## 1. Entries and formats -/

inductive WalOp where
  | set | del
  deriving DecidableEq, Repr

/-- The byte that stands for an operation (`enum class Op : uint8_t`). -/
def WalOp.toByte : WalOp → UInt8
  | .set => 1
  | .del => 2

structure WalEntry where
  op : WalOp := .set
  key : Bytes
  value : Bytes := []
  version : UInt64 := 0
  writerNodeHash : UInt64 := 0
  expiresAtMs : UInt64 := 0
  hasTtl : Bool := false
  isTombstone : Bool := false
  deriving DecidableEq, Repr

/-- Both lengths fit their 32-bit length fields (the check of `append`/`appendBatch`). -/
def WalEntry.Fits (e : WalEntry) : Prop := e.key.length < 2 ^ 32 ∧ e.value.length < 2 ^ 32

instance (e : WalEntry) : Decidable e.Fits := inferInstanceAs (Decidable (_ ∧ _))

inductive WalFormat where
  | legacy | v1 | v2
  deriving DecidableEq, Repr

def kWalMagic : Nat := 0x57414C30

def kWalFormatVersion : Nat := 2

def parseWalFormat (v : Nat) : Option WalFormat :=
  if v = 1 then some .v1 else if v = 2 then some .v2 else none

def walHasTombstone : WalFormat → Bool
  | .v2 => true
  | .legacy | .v1 => false

/-! ## 2. Encoding

    XXH3 enters as an arbitrary function of the bytes it digests. -/

section Codec

variable (xxh3 : Bytes → UInt64)

def boolByte (b : Bool) : UInt8 := if b then 1 else 0

variable (e : WalEntry)

/-- The record bytes the checksum covers. -/
def encodeFields : Bytes :=
  [e.op.toByte] ++ leBytes 4 e.key.length ++ e.key ++ leBytes 4 e.value.length ++ e.value ++
    leBytes 8 e.version.toNat ++ leBytes 8 e.writerNodeHash.toNat ++
    leBytes 8 e.expiresAtMs.toNat ++ [boolByte e.hasTtl] ++ [boolByte e.isTombstone]

/-- The fields, then their digest. -/
def encodeWalRecord : Bytes := encodeFields e ++ leBytes 8 (xxh3 (encodeFields e)).toNat

def encodedRecordSize : Nat := 1 + 4 + e.key.length + 4 + e.value.length + 8 + 8 + 8 + 1 + 1 + 8

@[simp] theorem length_encodeWalRecord : (encodeWalRecord xxh3 e).length = encodedRecordSize e := by
  simp only [encodeWalRecord, encodeFields, encodedRecordSize, length_append,
    length_cons, length_nil, length_leBytes]

theorem encodedRecordSize_pos : 0 < encodedRecordSize e := by
  simp only [encodedRecordSize]
  omega

def walHeader : Bytes := leBytes 4 kWalMagic ++ leBytes 4 kWalFormatVersion

@[simp] theorem length_walHeader : walHeader.length = 8 := by
  simp [walHeader]

/-! ## 3. The writer -/

/-- `WalWriter(path, Append)`. A file too short for a header gets one behind the bytes it has (the
descriptor appends); a header that is not ours makes the file start afresh. -/
def openAppend (file : Bytes) : Bytes :=
  if file.length < 8 then file ++ walHeader
  else if leNat (file.take 4) = kWalMagic ∧
      (parseWalFormat (leNat ((file.drop 4).take 4))).isSome then file
  else walHeader

/-- `WalWriter::appendBatch`: one write for the whole batch, nothing when an entry is too
large. -/
def appendBatch (file : Bytes) (es : List WalEntry) : Option Bytes :=
  if ∀ e ∈ es, e.Fits then some (file ++ (es.map (encodeWalRecord xxh3)).flatten) else none

variable {es : List WalEntry} {n : Nat} {e : WalEntry}

def walImage (es : List WalEntry) : Bytes := walHeader ++ (es.map (encodeWalRecord xxh3)).flatten

/-! ## 4. The reader -/

structure ParsedEntry where
  op : WalOp
  keyLen : UInt32
  key : Bytes
  valLen : UInt32
  value : Bytes
  version : UInt64
  writerNodeHash : UInt64
  expiresMs : UInt64
  hasTtl : UInt8
  tombstone : UInt8

def readU8 : Decoder UInt8 UInt8 := do
  let n ← readLe 1
  pure (UInt8.ofNat n)

def readU32 : Decoder UInt8 UInt32 := do
  let n ← readLe 4
  pure (UInt32.ofNat n)

def readU64 : Decoder UInt8 UInt64 := do
  let n ← readLe 8
  pure (UInt64.ofNat n)

def readOp : Decoder UInt8 WalOp := do
  let opByte ← readU8
  if opByte = 1 then pure .set else if opByte = 2 then pure .del else reject

/-- The trailing tombstone byte of a version-2 record; older records have none. -/
def readTombstone (format : WalFormat) : Decoder UInt8 UInt8 :=
  if walHasTombstone format then do
    let tombstoneByte ← readU8
    if tombstoneByte > 1 then reject else pure tombstoneByte
  else pure 0

def readEntryFields (format : WalFormat) : Decoder UInt8 ParsedEntry := do
  let op ← readOp
  let keyLen ← readU32
  let key ← take keyLen.toNat
  let valLen ← readU32
  let value ← take valLen.toNat
  let version ← readU64
  let writerHash ← readU64
  let expiresMs ← readU64
  let hasTtl ← readU8
  let tombstone ← readTombstone format
  pure ⟨op, keyLen, key, valLen, value, version, writerHash, expiresMs, hasTtl, tombstone⟩

/-- The digest of the fields as they stood in the file. -/
def computeEntryChecksum (e : ParsedEntry) (format : WalFormat) : UInt64 :=
  xxh3 ([e.op.toByte] ++ leBytes 4 e.keyLen.toNat ++ e.key ++ leBytes 4 e.valLen.toNat ++
    e.value ++ leBytes 8 e.version.toNat ++ leBytes 8 e.writerNodeHash.toNat ++
    leBytes 8 e.expiresMs.toNat ++ [e.hasTtl] ++
    (if walHasTombstone format then [e.tombstone] else []))

def toWalEntry (e : ParsedEntry) : WalEntry where
  op := e.op
  key := e.key
  value := e.value
  version := e.version
  writerNodeHash := e.writerNodeHash
  expiresAtMs := e.expiresMs
  hasTtl := e.hasTtl != 0
  isTombstone := e.tombstone != 0

structure WalReader where
  data : Bytes
  pos : Nat := 0
  commitPos : Nat := 0
  format : WalFormat := .legacy
  corrupted : Bool := false
  deriving DecidableEq, Repr

namespace WalReader

/-- The constructor. A magic that cannot be read and a version that cannot be read both
return with position 0 and the pre-magic format. -/
def ofImage (data : Bytes) : WalReader :=
  match readLe 4 ⟨data, 0⟩ with
  | (.error _, _) => { data }
  | (.ok magic, c) =>
    if magic = kWalMagic then
      match readLe 4 c with
      | (.error _, _) => { data }
      | (.ok version, c') =>
        match parseWalFormat version with
        | some format => { data, format, pos := c'.pos }
        | none => { data }
    else { data }

def hasMore (r : WalReader) : Bool := r.pos < r.data.length

def validSize (r : WalReader) : Nat := r.commitPos

def next (r : WalReader) : Option WalEntry × WalReader :=
  match readEntryFields r.format ⟨r.data, min r.pos r.data.length⟩ with
  | (.error s, c) => (none, { r with corrupted := r.corrupted || s = .invalid, pos := c.pos })
  | (.ok fields, c) =>
    if r.format = .legacy then
      (some (toWalEntry fields), { r with pos := c.pos, commitPos := c.pos })
    else
      match readU64 c with
      | (.error _, c') => (none, { r with pos := c'.pos })
      | (.ok stored, c') =>
        if computeEntryChecksum xxh3 fields r.format ≠ stored then
          (none, { r with corrupted := true, pos := c'.pos })
        else (some (toWalEntry fields), { r with pos := c'.pos, commitPos := c'.pos })

/-- The loop of `replayWal`: records until the image ends or a read stops. -/
def drain : Nat → WalReader → List WalEntry × WalReader
  | 0, r => ([], r)
  | fuel + 1, r =>
    if r.hasMore then
      match r.next xxh3 with
      | (none, r') => ([], r')
      | (some e, r') => let (es, r'') := drain fuel r'; (e :: es, r'')
    else ([], r)

end WalReader

/-- What one pass over a log file yields; a record takes at least one byte, so the length of
the image bounds the number of rounds. -/
def replayImage (data : Bytes) : List WalEntry × WalReader :=
  (WalReader.ofImage data).drain xxh3 (data.length + 1)

/-! ## 5. Fields and records, whole and cut -/

theorem codes_readU8 (b : UInt8) : Codes readU8 [b] b := by
  have h := (codes_readLe (w := 1) (n := b.toNat) b.toNat_lt).map UInt8.ofNat
  simpa [readU8, leBytes] using h

theorem codes_readU32 (h : n < 2 ^ 32) : Codes readU32 (leBytes 4 n) (UInt32.ofNat n) :=
  (codes_readLe (w := 4) h).map UInt32.ofNat

theorem codes_readU64 (v : UInt64) : Codes readU64 (leBytes 8 v.toNat) v := by
  have h := (codes_readLe (w := 8) (n := v.toNat) v.toNat_lt).map UInt64.ofNat
  simpa [readU64] using h

theorem codes_readOp (op : WalOp) : Codes readOp [op.toByte] op := by
  have hop : Codes (if op.toByte = 1 then pure .set else if op.toByte = 2 then pure .del
      else reject : Decoder UInt8 WalOp) [] op := by
    cases op <;> exact codes_pure _
  exact (codes_readU8 op.toByte).bind hop

theorem codes_readTombstone (b : Bool) : Codes (readTombstone .v2) [boolByte b] (boolByte b) := by
  have hbyte : Codes (if boolByte b > 1 then reject else pure (boolByte b) : Decoder UInt8 UInt8)
      [] (boolByte b) := by
    cases b <;> exact codes_pure _
  exact (codes_readU8 (boolByte b)).bind hbyte

def WalEntry.toParsed (e : WalEntry) : ParsedEntry where
  op := e.op
  keyLen := UInt32.ofNat e.key.length
  key := e.key
  valLen := UInt32.ofNat e.value.length
  value := e.value
  version := e.version
  writerNodeHash := e.writerNodeHash
  expiresMs := e.expiresAtMs
  hasTtl := boolByte e.hasTtl
  tombstone := boolByte e.isTombstone

theorem toWalEntry_toParsed (e : WalEntry) : toWalEntry e.toParsed = e := by
  obtain ⟨op, key, value, version, writer, expires, ttl, tomb⟩ := e
  cases ttl <;> cases tomb <;> rfl

section

variable (h : e.Fits)

include h

theorem WalEntry.Fits.toNat_key : (UInt32.ofNat e.key.length).toNat = e.key.length :=
  UInt32.toNat_ofNat_of_lt h.1

theorem WalEntry.Fits.toNat_value : (UInt32.ofNat e.value.length).toNat = e.value.length :=
  UInt32.toNat_ofNat_of_lt h.2

theorem codes_readEntryFields : Codes (readEntryFields .v2) (encodeFields e) e.toParsed := by
  have hc : Codes (readEntryFields .v2) _ e.toParsed := (codes_readOp e.op).bind <|
    (codes_readU32 h.1).bind <| (codes_take_of_length h.toNat_key.symm).bind <|
    (codes_readU32 h.2).bind <| (codes_take_of_length h.toNat_value.symm).bind <|
    (codes_readU64 _).bind <| (codes_readU64 _).bind <| (codes_readU64 _).bind <|
    (codes_readU8 _).bind <| (codes_readTombstone _).bind <| codes_pure e.toParsed
  simpa [encodeFields] using hc

theorem computeEntryChecksum_toParsed :
    computeEntryChecksum xxh3 e.toParsed .v2 = xxh3 (encodeFields e) := by
  simp only [computeEntryChecksum, WalEntry.toParsed, encodeFields, walHasTombstone, if_true,
    h.toNat_key, h.toNat_value]

theorem WalReader.next_whole (l r : Bytes) (commit : Nat) (corrupted : Bool) :
    WalReader.next xxh3 ⟨l ++ encodeWalRecord xxh3 e ++ r, l.length, commit, .v2, corrupted⟩ =
      (some e, ⟨l ++ encodeWalRecord xxh3 e ++ r, l.length + encodedRecordSize e,
        l.length + encodedRecordSize e, .v2, corrupted⟩) := by
  have hf := (codes_readEntryFields h).whole l (leBytes 8 (xxh3 (encodeFields e)).toNat ++ r)
  have hs := (codes_readU64 (xxh3 (encodeFields e))).whole (l ++ encodeFields e) r
  have hlen := length_encodeWalRecord xxh3 e
  simp only [encodeWalRecord, append_assoc, length_append, length_leBytes] at hf hs hlen ⊢
  simp only [WalReader.next, length_append, length_leBytes,
    Nat.min_eq_left (Nat.le_add_right l.length _), hf, hs]
  rw [← hlen]
  simp [computeEntryChecksum_toParsed xxh3 h, toWalEntry_toParsed, add_assoc]

theorem WalReader.next_cut (l p : Bytes) (commit : Nat)
    (hp : p <+: encodeWalRecord xxh3 e) (hne : p ≠ encodeWalRecord xxh3 e) :
    ∃ n, WalReader.next xxh3 ⟨l ++ p, l.length, commit, .v2, false⟩ =
      (none, ⟨l ++ p, n, commit, .v2, false⟩) := by
  rcases prefix_append_cases hp with ⟨hpf, hpne⟩ | ⟨q, rfl, hq⟩
  · -- the cut falls into the fields
    obtain ⟨n, hn⟩ := (codes_readEntryFields h).cut l p hpf hpne
    exact ⟨n, by simp [WalReader.next, hn]⟩
  · -- the fields are whole, the cut falls into the checksum
    have hqne : q ≠ leBytes 8 (xxh3 (encodeFields e)).toNat := fun h => hne (by rw [h]; rfl)
    have hf := (codes_readEntryFields h).whole l q
    obtain ⟨n, hn⟩ := (codes_readU64 _).cut (l ++ encodeFields e) q hq hqne
    simp only [append_assoc, length_append] at hf hn ⊢
    exact ⟨n, by simp [WalReader.next, hf, hn]⟩

end

/-! ## 6. A whole pass over a cut log -/

/-- The records of `es` that lie completely inside the first `n` bytes behind the header. -/
def completeRecords : List WalEntry → Nat → List WalEntry
  | [], _ => []
  | e :: es, n =>
    if encodedRecordSize e ≤ n then e :: completeRecords es (n - encodedRecordSize e) else []

def recordsSize (es : List WalEntry) : Nat := (es.map encodedRecordSize).sum

/-- End of the last complete record, `0` where there is none. -/
def lastRecordEnd (es : List WalEntry) : Nat := if es = [] then 0 else 8 + recordsSize es

/-- The end a reader commits that stood at `start` and has read the records `es` since. -/
def commitAfter (start commit : Nat) (es : List WalEntry) : Nat :=
  if es = [] then commit else start + recordsSize es

theorem commitAfter_cons (start commit : Nat) (e : WalEntry) (es : List WalEntry) :
    commitAfter (start + encodedRecordSize e) (start + encodedRecordSize e) es =
      commitAfter start commit (e :: es) := by
  cases es <;> simp [commitAfter, recordsSize, add_assoc]

theorem WalReader.drain_take (h : ∀ e ∈ es, e.Fits) :
    ∀ (l : Bytes) (n commit fuel : Nat), (completeRecords es n).length < fuel →
      ∃ pos, WalReader.drain xxh3 fuel
          ⟨l ++ (es.map (encodeWalRecord xxh3)).flatten.take n, l.length, commit, .v2, false⟩ =
        (completeRecords es n,
          ⟨l ++ (es.map (encodeWalRecord xxh3)).flatten.take n, pos,
            commitAfter l.length commit (completeRecords es n), .v2, false⟩) := by
  induction es with
  | nil =>
    intro l n commit fuel hfuel
    obtain ⟨fuel, rfl⟩ := Nat.exists_eq_succ_of_ne_zero (Nat.ne_of_gt (Nat.zero_lt_of_lt hfuel))
    exact ⟨l.length, by simp [drain, hasMore, completeRecords, commitAfter]⟩
  | cons e es ih =>
    intro l n commit fuel hfuel
    obtain ⟨fuel, rfl⟩ := Nat.exists_eq_succ_of_ne_zero (Nat.ne_of_gt (Nat.zero_lt_of_lt hfuel))
    rw [forall_mem_cons] at h
    have hlen := length_encodeWalRecord xxh3 e
    by_cases hn : encodedRecordSize e ≤ n
    · -- the first record is whole: read it, go on behind it
      have htake : ((e :: es).map (encodeWalRecord xxh3)).flatten.take n = encodeWalRecord xxh3 e ++
            (es.map (encodeWalRecord xxh3)).flatten.take (n - encodedRecordSize e) := by
        rw [map_cons, flatten_cons, take_append, hlen, take_of_length_le (by omega)]
      obtain ⟨pos, hrest⟩ := ih h.2 (l ++ encodeWalRecord xxh3 e) (n - encodedRecordSize e)
        (l.length + encodedRecordSize e) fuel (by simpa [completeRecords, hn] using hfuel)
      have hnext := next_whole xxh3 h.1 l
        ((es.map (encodeWalRecord xxh3)).flatten.take (n - encodedRecordSize e)) commit false
      have hmore : l.length < (l ++ encodeWalRecord xxh3 e ++
          (es.map (encodeWalRecord xxh3)).flatten.take (n - encodedRecordSize e)).length := by
        have := encodedRecordSize_pos e
        simp only [length_append, hlen]
        omega
      refine ⟨pos, ?_⟩
      rw [htake, ← append_assoc, drain, hasMore, if_pos (by simpa using hmore), hnext]
      rw [length_append, hlen] at hrest
      simp only [completeRecords, if_pos hn, hrest, ← commitAfter_cons _ commit]
    · -- the cut falls into the first record
      have htake : ((e :: es).map (encodeWalRecord xxh3)).flatten.take n =
          (encodeWalRecord xxh3 e).take n := by
        rw [map_cons, flatten_cons, take_append_of_le_length (by omega)]
      rw [htake]
      simp only [completeRecords, if_neg hn, commitAfter, if_true]
      by_cases hmore : (WalReader.mk (l ++ (encodeWalRecord xxh3 e).take n) l.length commit .v2
          false).hasMore
      · obtain ⟨pos, hnext⟩ := next_cut xxh3 h.1 l ((encodeWalRecord xxh3 e).take n) commit
          (List.take_prefix _ _) (fun heq => hn (by
            have := congrArg List.length heq
            rw [length_take, hlen] at this
            omega))
        exact ⟨pos, by rw [drain, if_pos hmore, hnext]⟩
      · exact ⟨l.length, by rw [drain, if_neg hmore]⟩

theorem length_completeRecords_le (es : List WalEntry) (n : Nat) :
    (completeRecords es n).length ≤ ((es.map (encodeWalRecord xxh3)).flatten.take n).length := by
  induction es generalizing n with
  | nil => simp [completeRecords]
  | cons e es ih =>
    unfold completeRecords
    split
    · have := ih (n - encodedRecordSize e)
      have := encodedRecordSize_pos e
      simp only [length_cons, map_cons, flatten_cons, length_take,
        length_append, length_encodeWalRecord] at this ⊢
      simp only [length_take] at *
      omega
    · simp

theorem completeRecords_of_le (h : recordsSize es ≤ n) : completeRecords es n = es := by
  induction es generalizing n with
  | nil => rfl
  | cons e es ih =>
    simp only [recordsSize, map_cons, sum_cons] at h ih
    rw [completeRecords, if_pos (by omega), ih (by omega)]

theorem fits_completeRecords (h : ∀ e ∈ es, e.Fits) (n : Nat) :
    ∀ e ∈ completeRecords es n, e.Fits := by
  induction es generalizing n with
  | nil => simp [completeRecords]
  | cons e es ih =>
    rw [forall_mem_cons] at h
    unfold completeRecords
    split
    · rw [forall_mem_cons]
      exact ⟨h.1, ih h.2 _⟩
    · simp

theorem WalReader.ofImage_walHeader (r : Bytes) :
    WalReader.ofImage (walHeader ++ r) = ⟨walHeader ++ r, 8, 0, .v2, false⟩ := by
  have h1 := (codes_readLe (w := 4) (n := kWalMagic) (by decide)).whole []
    (leBytes 4 kWalFormatVersion ++ r)
  have h2 := (codes_readLe (w := 4) (n := kWalFormatVersion) (by decide)).whole
    (leBytes 4 kWalMagic) r
  simp only [nil_append, length_nil, zero_add, length_leBytes] at h1 h2
  simp only [append_assoc] at h2
  simp only [walHeader, append_assoc]
  simp [WalReader.ofImage, h1, h2, show parseWalFormat kWalFormatVersion = some .v2 from rfl]

theorem replay_take (h : ∀ e ∈ es, e.Fits) (hn : 8 ≤ n) :
    ∃ pos, replayImage xxh3 ((walImage xxh3 es).take n) =
      (completeRecords es (n - 8), ⟨(walImage xxh3 es).take n, pos,
        lastRecordEnd (completeRecords es (n - 8)), .v2, false⟩) := by
  have himg : (walImage xxh3 es).take n =
      walHeader ++ (es.map (encodeWalRecord xxh3)).flatten.take (n - 8) := by
    rw [walImage, take_append, length_walHeader, take_of_length_le (by simpa using hn)]
  have hfuel : (completeRecords es (n - 8)).length <
      (walHeader ++ (es.map (encodeWalRecord xxh3)).flatten.take (n - 8)).length + 1 := by
    have := length_completeRecords_le xxh3 es (n - 8)
    rw [length_append]
    omega
  obtain ⟨pos, hdrain⟩ := WalReader.drain_take xxh3 h walHeader (n - 8) 0 _ hfuel
  exact ⟨pos, by rw [himg, replayImage, WalReader.ofImage_walHeader]; exact hdrain⟩

theorem length_walImage (es : List WalEntry) : (walImage xxh3 es).length = 8 + recordsSize es := by
  simp [walImage, recordsSize, length_flatten, Function.comp_def]

theorem replay_image (h : ∀ e ∈ es, e.Fits) :
    ∃ pos, replayImage xxh3 (walImage xxh3 es) =
      (es, ⟨walImage xxh3 es, pos, lastRecordEnd es, .v2, false⟩) := by
  have hlen := length_walImage xxh3 es
  have := replay_take xxh3 h (n := 8 + recordsSize es) (by omega)
  rwa [← hlen, take_length, hlen, Nat.add_sub_cancel_left, completeRecords_of_le le_rfl] at this

/-! ## 7. Truncate and append -/

variable (es)

theorem exists_completeRecords_append (n : Nat) :
    ∃ rest, es = completeRecords es n ++ rest ∧ recordsSize (completeRecords es n) ≤ n := by
  induction es generalizing n with
  | nil => exact ⟨[], rfl, Nat.zero_le _⟩
  | cons e es ih =>
    unfold completeRecords
    split
    · rename_i he
      obtain ⟨rest, hrest, hsize⟩ := ih (n - encodedRecordSize e)
      refine ⟨rest, by rw [cons_append, ← hrest], ?_⟩
      simp only [recordsSize, map_cons, sum_cons] at hsize ⊢
      omega
    · exact ⟨e :: es, rfl, Nat.zero_le _⟩

theorem walImage_append (es more : List WalEntry) :
    walImage xxh3 (es ++ more) = walImage xxh3 es ++ (more.map (encodeWalRecord xxh3)).flatten := by
  simp [walImage]

theorem take_lastRecordEnd (hn : 8 ≤ n) :
    ((walImage xxh3 es).take n).take (lastRecordEnd (completeRecords es (n - 8))) =
      if completeRecords es (n - 8) = [] then []
      else walImage xxh3 (completeRecords es (n - 8)) := by
  obtain ⟨rest, hrest, hsize⟩ := exists_completeRecords_append es (n - 8)
  generalize completeRecords es (n - 8) = c at hrest hsize ⊢
  subst hrest
  unfold lastRecordEnd
  split
  · rfl
  · rw [take_take, Nat.min_eq_left (by omega), walImage_append,
      take_append_of_le_length (by rw [length_walImage]), ← length_walImage xxh3, take_length]

theorem openAppend_truncated (c : List WalEntry) :
    openAppend (if c = [] then [] else walImage xxh3 c) = walImage xxh3 c := by
  split
  · rename_i hc
    simp [hc, openAppend, walImage]
  · have hlen := length_walImage xxh3 c
    have hmagic : leNat ((walImage xxh3 c).take 4) = kWalMagic := by
      simp only [walImage, walHeader, append_assoc]
      rw [take_append_of_le_length (by simp), take_of_length_le (by simp)]
      exact leNat_leBytes_of_lt (by decide)
    have hversion : leNat (((walImage xxh3 c).drop 4).take 4) = kWalFormatVersion := by
      simp only [walImage, walHeader, append_assoc]
      rw [drop_left' (by simp), take_append_of_le_length (by simp), take_of_length_le (by simp)]
      exact leNat_leBytes_of_lt (by decide)
    rw [openAppend, if_neg (by omega), if_pos ⟨hmagic, by rw [hversion]; rfl⟩]

/-- **The torn tail heals**: what a restart makes of a log cut at `n` -- read it, truncate it
to `validSize`, append. -/
structure TornLogHeals (es : List WalEntry) (n : Nat) : Prop where
  entries : (replayImage xxh3 ((walImage xxh3 es).take n)).1 = completeRecords es (n - 8)
  clean : (replayImage xxh3 ((walImage xxh3 es).take n)).2.corrupted = false
  validSize : (replayImage xxh3 ((walImage xxh3 es).take n)).2.validSize =
    lastRecordEnd (completeRecords es (n - 8))
  healed : ∀ more : List WalEntry, (∀ e ∈ more, e.Fits) →
    ∃ file, appendBatch xxh3 (openAppend (((walImage xxh3 es).take n).take
        (replayImage xxh3 ((walImage xxh3 es).take n)).2.validSize)) more = some file ∧
      (replayImage xxh3 file).1 = completeRecords es (n - 8) ++ more ∧
      (replayImage xxh3 file).2.corrupted = false

theorem healed_of_openAppend {c : List WalEntry} (hc : ∀ e ∈ c, e.Fits) {file : Bytes}
    (hfile : openAppend file = walImage xxh3 c) {more : List WalEntry} (h : ∀ e ∈ more, e.Fits) :
    ∃ file', appendBatch xxh3 (openAppend file) more = some file' ∧
      (replayImage xxh3 file').1 = c ++ more ∧
      (replayImage xxh3 file').2.corrupted = false := by
  refine ⟨walImage xxh3 (c ++ more), by rw [hfile, appendBatch, if_pos h, walImage_append], ?_⟩
  have hall : ∀ e ∈ c ++ more, e.Fits := by
    intro e he
    rcases mem_append.mp he with he | he
    · exact hc e he
    · exact h e he
  obtain ⟨pos, hpos⟩ := replay_image xxh3 hall
  simp [hpos]

theorem completeRecords_zero : completeRecords es 0 = [] := by
  cases es with
  | nil => rfl
  | cons e es => rw [completeRecords, if_neg (not_le.mpr (encodedRecordSize_pos e))]

theorem replay_torn_header (h0 : n ≠ 0) (h8 : n < 8) :
    (replayImage xxh3 ((walImage xxh3 es).take n)).2.corrupted = true := by
  rw [walImage, take_append_of_le_length (by simp; omega)]
  interval_cases n
  · exact absurd rfl h0
  all_goals rfl

variable {es}

/-- **A cut log heals exactly when the cut leaves the file empty or behind its header.** -/
theorem tornLogHeals_iff {es : List WalEntry} (h : ∀ e ∈ es, e.Fits) (n : Nat) :
    TornLogHeals xxh3 es n ↔ n = 0 ∨ 8 ≤ n := by
  constructor
  · intro hheals
    by_contra hn
    rw [not_or, not_le] at hn
    have := hheals.clean
    rw [replay_torn_header xxh3 es hn.1 hn.2] at this
    cases this
  · rintro (rfl | hn)
    · have hnil : replayImage xxh3 ((walImage xxh3 es).take 0) = ([], { data := [] }) := rfl
      have hc := completeRecords_zero es
      refine ⟨by rw [hnil, hc], by rw [hnil], by rw [hnil, hc]; rfl, ?_⟩
      intro more hmore
      rw [hc]
      exact healed_of_openAppend xxh3 (by simp) (openAppend_truncated xxh3 []) hmore
    · obtain ⟨pos, hpos⟩ := replay_take xxh3 h hn
      refine ⟨by rw [hpos], by rw [hpos], by rw [hpos]; rfl, ?_⟩
      intro more hmore
      rw [hpos]
      refine healed_of_openAppend xxh3 (fits_completeRecords h _) ?_ hmore
      rw [WalReader.validSize, take_lastRecordEnd xxh3 es hn, openAppend_truncated]

end Codec

/-- The log `put k v` with a constant digest, cut in the middle of its record. -/
theorem tornLogHeals_one_record_cut :
    TornLogHeals (fun _ => 0) [{ key := [107], value := [118], version := 1 }] 20 :=
  (tornLogHeals_iff (fun _ => 0) (by decide) 20).mpr (.inr (by decide))

/-- Four bytes of header: the crash fell between the two words of the header, and the
replay reports corruption. -/
theorem torn_header_not_healed :
    ¬ TornLogHeals (fun _ => 0) [{ key := [107], value := [118], version := 1 }] 4 := by
  intro h
  exact absurd h.clean (by decide)

end Cinder
