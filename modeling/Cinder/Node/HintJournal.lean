/-
The journal of hints as a file (`src/node/hint_journal.cpp`): framed records, the
recovery scan, and a descriptor whose write offset is what the last system call left.

System calls succeed; a write behind the end leaves a hole of zeros. XXH3 is an arbitrary
function of the payload. A descriptor need not stand behind the last record: `open` leaves the
offset at the size the file had before it was cut, and `compact` opens the new file without
seeking to its end.
-/
import Cinder.Lib.Transition
import Cinder.Node.HintQueue
import Cinder.Store.Records

namespace Cinder

open Decoding Decoding.Decoder List Option Transition

/-! ## 1. Records -/

def kOpAdd : UInt8 := 1

def kOpDel : UInt8 := 2

structure AddRecord where
  sysExpiryMs : UInt64
  target : NodeId
  key : Key
  value : Bytes
  version : UInt64
  writerNodeHash : UInt64
  entryExpiryMs : UInt64 := 0
  tombstone : Bool := false
  deriving DecidableEq, Repr

/-- `ParsedRecord`. -/
inductive JournalRecord where
  | add (r : AddRecord)
  | del (target : NodeId) (key : Key) (version : UInt64)
  deriving DecidableEq, Repr

/-- The record of a hint; `0` stands for a write without expiry. -/
def addRecord (hint : Hint) (sysExpiryMs : UInt64) : AddRecord where
  sysExpiryMs := sysExpiryMs
  target := hint.target
  key := hint.req.key
  value := hint.req.value
  version := hint.req.version
  writerNodeHash := hint.req.writerNodeHash
  entryExpiryMs :=
    match hint.req.expiresAt with
    | some t => millisOf t
    | none => 0
  tombstone := hint.req.tombstone

/-- The fields of an ADD up to the writer: all that records of the old format have. -/
def encodeAddFields (r : AddRecord) : Bytes :=
  leBytes 8 r.sysExpiryMs.toNat ++ (leBytes 4 r.target.length ++ (r.target ++
    (leBytes 4 r.key.length ++ (r.key ++ (leBytes 4 r.value.length ++ (r.value ++
      (leBytes 8 r.version.toNat ++ leBytes 8 r.writerNodeHash.toNat)))))))

def encodeTrailer (r : AddRecord) : Bytes :=
  leBytes 8 r.entryExpiryMs.toNat ++ [boolByte r.tombstone]

def encodeAdd (hint : Hint) (sysExpiryMs : UInt64) : Bytes :=
  kOpAdd :: (encodeAddFields (addRecord hint sysExpiryMs) ++
    encodeTrailer (addRecord hint sysExpiryMs))

def encodeDelFields (target : NodeId) (key : Key) (version : UInt64) : Bytes :=
  leBytes 4 target.length ++ (target ++ (leBytes 4 key.length ++ (key ++ leBytes 8 version.toNat)))

def encodeDel (target : NodeId) (key : Key) (version : UInt64) : Bytes :=
  kOpDel :: encodeDelFields target key version

def readAddFields : Decoder UInt8 AddRecord := do
  let exp ← readU64
  let tlen ← readU32
  let target ← take tlen.toNat
  let klen ← readU32
  let key ← take klen.toNat
  let vlen ← readU32
  let value ← take vlen.toNat
  let version ← readU64
  let writer ← readU64
  pure { sysExpiryMs := exp, target := target, key := key, value := value, version := version,
         writerNodeHash := writer }

def readTrailer : Decoder UInt8 (UInt64 × UInt8) := do
  let expMs ← readU64
  let tombstoneByte ← readU8
  pure (expMs, tombstoneByte)

def readDelFields : Decoder UInt8 JournalRecord := do
  let tlen ← readU32
  let target ← take tlen.toNat
  let klen ← readU32
  let key ← take klen.toNat
  let version ← readU64
  pure (.del target key version)

/-- An ADD that ends behind the writer is one of the old format. -/
def parseRecord (payload : Bytes) : Option JournalRecord :=
  match readU8 ⟨payload, 0⟩ with
  | (.error _, _) => none
  | (.ok op, c) =>
    if op = kOpAdd then
      match readAddFields c with
      | (.error _, _) => none
      | (.ok r, c) =>
        if c.pos = payload.length then some (.add r)
        else
          match readTrailer c with
          | (.error _, _) => none
          | (.ok (expMs, tombstoneByte), c) =>
            if tombstoneByte > 1 ∨ c.pos ≠ payload.length then none
            else some (.add { r with entryExpiryMs := expMs, tombstone := tombstoneByte != 0 })
    else if op = kOpDel then
      match readDelFields c with
      | (.error _, _) => none
      | (.ok r, c) => if c.pos = payload.length then some r else none
    else none

/-! ## 2. Records come back -/

theorem codes_sized {w : Bytes} (h : w.length < 2 ^ 32) {α : Type} {f : Bytes → Decoder UInt8 α}
    {w' : Bytes} {a : α} (hf : Codes (f w) w' a) :
    Codes (readU32 >>= fun n => take n.toNat >>= f) (leBytes 4 w.length ++ (w ++ w')) a :=
  (codes_readU32 h).bind ((codes_take_of_length (UInt32.toNat_ofNat_of_lt h).symm).bind hf)

theorem codes_readAddFields {r : AddRecord} (ht : r.target.length < 2 ^ 32)
    (hk : r.key.length < 2 ^ 32) (hv : r.value.length < 2 ^ 32) :
    Codes readAddFields (encodeAddFields r)
      { r with entryExpiryMs := 0, tombstone := false } := by
  have hend : Codes (do
      let version ← readU64
      let writer ← readU64
      pure ({ sysExpiryMs := r.sysExpiryMs, target := r.target, key := r.key, value := r.value,
              version := version, writerNodeHash := writer } : AddRecord))
      (leBytes 8 r.version.toNat ++ leBytes 8 r.writerNodeHash.toNat)
      { r with entryExpiryMs := 0, tombstone := false } := by
    have hw := (codes_readU64 r.version).bind (f := fun version => do
      let writer ← readU64
      pure ({ sysExpiryMs := r.sysExpiryMs, target := r.target, key := r.key, value := r.value,
              version := version, writerNodeHash := writer } : AddRecord))
      ((codes_readU64 r.writerNodeHash).map _)
    exact hw
  exact (codes_readU64 r.sysExpiryMs).bind (codes_sized ht (codes_sized hk (codes_sized hv hend)))

theorem codes_readDelFields {target : NodeId} {key : Key} (version : UInt64)
    (ht : target.length < 2 ^ 32) (hk : key.length < 2 ^ 32) :
    Codes readDelFields (encodeDelFields target key version) (.del target key version) :=
  codes_sized ht (codes_sized hk ((codes_readU64 version).map _))

theorem codes_readTrailer (r : AddRecord) :
    Codes readTrailer (encodeTrailer r) (r.entryExpiryMs, boolByte r.tombstone) :=
  (codes_readU64 r.entryExpiryMs).bind ((codes_readU8 (boolByte r.tombstone)).map _)

theorem length_encodeAddFields (r : AddRecord) :
    (encodeAddFields r).length =
      r.target.length + r.key.length + r.value.length + 36 := by
  simp only [encodeAddFields, length_append, length_leBytes]
  omega

theorem length_encodeTrailer (r : AddRecord) : (encodeTrailer r).length = 9 := by
  simp [encodeTrailer]

theorem parseRecord_encodeAdd {hint : Hint} {sysExpiryMs : UInt64}
    (h : (encodeAdd hint sysExpiryMs).length < 2 ^ 32) :
    parseRecord (encodeAdd hint sysExpiryMs) = some (.add (addRecord hint sysExpiryMs)) := by
  let r := addRecord hint sysExpiryMs
  have hlen : (encodeAdd hint sysExpiryMs).length = (encodeAddFields r).length + 10 := by
    simp only [encodeAdd, length_cons, length_append, length_encodeTrailer]
    rfl
  rw [hlen, length_encodeAddFields] at h
  have hop := (codes_readU8 kOpAdd).whole [] (encodeAddFields r ++ encodeTrailer r)
  have hfields := (@codes_readAddFields r (by omega) (by omega) (by omega)).whole [kOpAdd]
    (encodeTrailer r)
  have htrailer := (codes_readTrailer r).whole (kOpAdd :: encodeAddFields r) []
  simp only [nil_append, append_nil, cons_append, length_nil, length_cons,
    zero_add] at hop hfields htrailer
  have hmore : ¬ 1 + (encodeAddFields r).length = (encodeAdd hint sysExpiryMs).length := by
    rw [hlen]
    omega
  have hend : (encodeAddFields r).length + 1 + (encodeTrailer r).length =
      (encodeAdd hint sysExpiryMs).length := by
    rw [hlen, length_encodeTrailer]
  have hbyte : ¬ boolByte r.tombstone > 1 := by cases r.tombstone <;> decide
  have hback : (boolByte r.tombstone != 0) = r.tombstone := by cases r.tombstone <;> rfl
  unfold parseRecord
  rw [show encodeAdd hint sysExpiryMs =
    kOpAdd :: (encodeAddFields r ++ encodeTrailer r) from rfl] at *
  rw [hop]
  dsimp only
  rw [if_pos rfl, hfields]
  dsimp only
  rw [if_neg hmore, add_comm 1, htrailer]
  dsimp only
  rw [if_neg (not_or.mpr ⟨hbyte, not_not.mpr hend⟩), hback]

theorem parseRecord_encodeDel {target : NodeId} {key : Key} {version : UInt64}
    (h : (encodeDel target key version).length < 2 ^ 32) :
    parseRecord (encodeDel target key version) = some (.del target key version) := by
  have hlen : (encodeDel target key version).length = target.length + key.length + 17 := by
    simp only [encodeDel, encodeDelFields, length_cons, length_append, length_leBytes]
    omega
  rw [hlen] at h
  have hop := (codes_readU8 kOpDel).whole [] (encodeDelFields target key version)
  have hfields := (@codes_readDelFields target key version (by omega) (by omega)).whole [kOpDel] []
  simp only [nil_append, append_nil, cons_append, length_nil, length_cons, zero_add] at hop hfields
  have hend : 1 + (encodeDelFields target key version).length =
      (encodeDel target key version).length := by
    rw [encodeDel, length_cons, add_comm]
  unfold parseRecord
  rw [show encodeDel target key version =
    kOpDel :: encodeDelFields target key version from rfl] at *
  rw [hop]
  dsimp only
  rw [if_neg (by decide), if_pos rfl, hfields]
  dsimp only
  rw [if_pos hend]

/-! ## 3. Frames and the scan -/

section Frames

variable (xxh3 : Bytes → UInt64)

/-- `writeRecord`: length, checksum, payload. -/
def frame (payload : Bytes) : Bytes :=
  leBytes 4 payload.length ++ (leBytes 8 (xxh3 payload).toNat ++ payload)

/-- One round of the loop of `open`, on what is left of the file: the record and its size, or how
far the round has read when it stops. A read that comes short has read to the end. -/
def readFrame (rest : Bytes) : Except Nat (JournalRecord × Nat) :=
  if rest.length < 4 then .error rest.length
  else
    let len := leNat (rest.take 4)
    if rest.length < 4 + 8 + len then .error 4
    else
      let expected := leNat ((rest.drop 4).take 8)
      let payload := (rest.drop 12).take len
      if (xxh3 payload).toNat ≠ expected then .error (12 + len)
      else
        match parseRecord payload with
        | none => .error (12 + len)
        | some r => .ok (r, 12 + len)

structure Scan where
  records : List JournalRecord
  /-- What is left where the loop stops, and how much of it has been read. -/
  tail : Bytes
  read : Nat
  deriving DecidableEq, Repr

/-- A record takes bytes, so the length of the file bounds the rounds. -/
def scanLoop : (fuel : Nat) → Bytes → Scan
  | 0, rest => ⟨[], rest, 0⟩
  | fuel + 1, rest =>
    match readFrame xxh3 rest with
    | .error n => ⟨[], rest, n⟩
    | .ok (r, n) =>
      let s := scanLoop fuel (rest.drop n)
      { s with records := r :: s.records }

def scan (file : Bytes) : Scan := scanLoop xxh3 (file.length + 1) file

def PayloadOf (payload : Bytes) (r : JournalRecord) : Prop :=
  payload.length < 2 ^ 32 ∧ parseRecord payload = some r

def frames (payloads : List Bytes) : Bytes := (payloads.map (frame xxh3)).flatten

variable {xxh3}

theorem length_frame (payload : Bytes) : (frame xxh3 payload).length = 12 + payload.length := by
  simp only [frame, length_append, length_leBytes]
  omega

theorem readFrame_frame {payload : Bytes} {r : JournalRecord} (h : PayloadOf payload r)
    (rest : Bytes) :
    readFrame xxh3 (frame xxh3 payload ++ rest) = .ok (r, 12 + payload.length) := by
  have hlen : (frame xxh3 payload ++ rest).length = 12 + payload.length + rest.length := by
    rw [length_append, length_frame]
  have htake : (frame xxh3 payload ++ rest).take 4 = leBytes 4 payload.length := by
    rw [frame, append_assoc, take_left' (length_leBytes 4 _)]
  have hdrop : (frame xxh3 payload ++ rest).drop 4 =
      leBytes 8 (xxh3 payload).toNat ++ (payload ++ rest) := by
    rw [frame, append_assoc, drop_left' (length_leBytes 4 _), append_assoc]
  have hdrop' : (frame xxh3 payload ++ rest).drop 12 = payload ++ rest := by
    rw [show 12 = 4 + 8 from rfl, ← drop_drop, hdrop, drop_left' (length_leBytes 8 _)]
  have hsize : leNat (leBytes 4 payload.length) = payload.length := leNat_leBytes_of_lt h.1
  have hsum : leNat (leBytes 8 (xxh3 payload).toNat) = (xxh3 payload).toNat :=
    leNat_leBytes_of_lt (xxh3 payload).toNat_lt
  unfold readFrame
  dsimp only
  rw [htake, hsize, hdrop, hdrop', take_left' (length_leBytes 8 _), hsum, take_left, h.2,
    if_neg (by omega), if_neg (by omega), if_neg (not_not.mpr rfl)]

theorem scanLoop_frames {payloads : List Bytes} {rs : List JournalRecord}
    (h : List.Forall₂ PayloadOf payloads rs) {tail : Bytes} {n : Nat}
    (hstop : readFrame xxh3 tail = .error n) {fuel : Nat}
    (hfuel : (frames xxh3 payloads ++ tail).length < fuel) :
    scanLoop xxh3 fuel (frames xxh3 payloads ++ tail) = ⟨rs, tail, n⟩ := by
  induction h generalizing fuel with
  | nil =>
    cases fuel with
    | zero => exact absurd hfuel (Nat.not_lt_zero _)
    | succ fuel =>
      rw [frames, map_nil, flatten_nil, nil_append, scanLoop, hstop]
  | @cons payload r payloads rs hhead hrest ih =>
    cases fuel with
    | zero => exact absurd hfuel (Nat.not_lt_zero _)
    | succ fuel =>
      have hcons : frames xxh3 (payload :: payloads) ++ tail =
          frame xxh3 payload ++ (frames xxh3 payloads ++ tail) := by
        simp [frames]
      have hdrop : (frame xxh3 payload ++ (frames xxh3 payloads ++ tail)).drop
          (12 + payload.length) = frames xxh3 payloads ++ tail := drop_left' (length_frame payload)
      have hless : (frames xxh3 payloads ++ tail).length < fuel := by
        rw [hcons, length_append, length_frame] at hfuel
        omega
      rw [hcons, scanLoop, readFrame_frame hhead]
      dsimp only
      rw [hdrop, ih hless]

theorem scan_frames {payloads : List Bytes} {rs : List JournalRecord}
    (h : List.Forall₂ PayloadOf payloads rs) {tail : Bytes} {n : Nat}
    (hstop : readFrame xxh3 tail = .error n) :
    scan xxh3 (frames xxh3 payloads ++ tail) = ⟨rs, tail, n⟩ :=
  scanLoop_frames h hstop (Nat.lt_succ_self _)

theorem readFrame_nil : readFrame xxh3 [] = .error 0 := rfl

theorem readFrame_error_le {rest : Bytes} {n : Nat} (h : readFrame xxh3 rest = .error n) :
    n ≤ rest.length := by
  unfold readFrame at h
  dsimp only at h
  split at h
  · cases h
    exact le_rfl
  · split at h
    · cases h
      omega
    · split at h
      · cases h
        omega
      · split at h
        · cases h
          omega
        · cases h

theorem readFrame_take {rest : Bytes} {n : Nat} (h : readFrame xxh3 rest = .error n) :
    readFrame xxh3 (rest.take n) = .error n := by
  have hle := readFrame_error_le h
  have hlen : (rest.take n).length = n := by rw [length_take, Nat.min_eq_left hle]
  unfold readFrame at h ⊢
  dsimp only at h ⊢
  rw [hlen]
  split at h
  · rename_i hshort
    cases h
    rw [if_pos hshort]
  · split at h
    · rename_i hroom
      cases h
      rw [take_take, Nat.min_self, if_neg (by omega), if_pos (by omega)]
    · rename_i hlong hroom
      have hn : n = 12 + leNat (rest.take 4) := by
        split at h
        · cases h
          rfl
        · split at h
          · cases h
            rfl
          · cases h
      have hfour : (rest.take n).take 4 = rest.take 4 := by
        rw [take_take, Nat.min_eq_left (by omega)]
      have hsum : ((rest.take n).drop 4).take 8 = (rest.drop 4).take 8 := by
        rw [drop_take, take_take, Nat.min_eq_left (by omega)]
      have hpayload : ((rest.take n).drop 12).take (leNat (rest.take 4)) =
          (rest.drop 12).take (leNat (rest.take 4)) := by
        rw [drop_take, take_take, Nat.min_eq_left (by omega)]
      rw [hfour, hsum, hpayload, if_neg (by omega), if_neg (by omega)]
      exact h

end Frames

/-! ## 4. The file and its descriptor -/

/-- `write` at an offset: a gap behind the end of the file is filled with zeros. -/
def writeAt (file : Bytes) (offset : Nat) (bytes : Bytes) : Bytes :=
  file.take offset ++ List.replicate (offset - file.length) 0 ++ bytes ++
    file.drop (offset + bytes.length)

theorem writeAt_end (file bytes : Bytes) : writeAt file file.length bytes = file ++ bytes := by
  simp [writeAt]

/-- The journal file, the write offset of `fd_` once there is one, and `records_`. -/
structure HintJournal where
  file : Bytes
  offset : Option Nat := none
  records : Nat := 0
  deriving DecidableEq, Repr

/-- The hints a compaction keeps, each with its remaining time on the wall clock. The steady clock
is read anew for each of them. -/
def keptHints (live : List Hint) (nowMs : UInt64) (reads : Nat → Nanos) : List (Hint × UInt64) :=
  live.zipIdx.filterMap fun (hint, i) =>
    let remainingMs := (hint.expiresAt - reads i).tdiv 1000000
    if remainingMs ≤ 0 then none else some (hint, nowMs + UInt64.ofNat remainingMs.toNat)

namespace HintJournal

section Calls

variable (xxh3 : Bytes → UInt64)

variable (j : HintJournal)

/-- `HintJournal::open`. The tail is cut where the scan stopped reading; the offset is where
`lseek(SEEK_END)` put it before. -/
def «open» : HintJournal :=
  let s := scan xxh3 j.file
  let stop := j.file.length - s.tail.length + s.read
  { file := if stop < j.file.length then j.file.take stop else j.file
    offset := some j.file.length
    records := s.records.length }

def appendRecord (payload : Bytes) : HintJournal :=
  match j.offset with
  | none => j
  | some offset =>
    { file := writeAt j.file offset (frame xxh3 payload)
      offset := some (offset + (frame xxh3 payload).length)
      records := j.records + 1 }

/-- `HintJournal::compact` from the live hints of the queue: the new file takes the place of
the old one and is opened at its start. -/
def compact (live : List Hint) (nowMs : UInt64) (reads : Nat → Nanos) :
    HintJournal :=
  match j.offset with
  | none => j
  | some _ =>
    let kept := keptHints live nowMs reads
    { file := frames xxh3 (kept.map fun p => encodeAdd p.1 p.2)
      offset := some 0
      records := kept.length }

end Calls

end HintJournal

/-! ## 5. Runs -/

/-- Where the descriptor comes from. -/
inductive Descriptor where
  /-- From an `open` that found these bytes behind the valid records. -/
  | opened (tail : Bytes)
  /-- From a `compact` that wrote these records. -/
  | compacted (written : List JournalRecord)
  deriving DecidableEq, Repr

/-- The descriptor stands behind the last record. -/
def Descriptor.Clean : Descriptor → Prop
  | .opened tail => tail = []
  | .compacted written => written = []

instance (d : Descriptor) : Decidable d.Clean :=
  match d with
  | .opened tail => inferInstanceAs (Decidable (tail = []))
  | .compacted written => inferInstanceAs (Decidable (written = []))

/-- The journal, and beside it where its descriptor comes from and what the file should hold. -/
structure Journaling where
  journal : HintJournal
  descriptor : Descriptor := .opened []
  expected : List JournalRecord
  deriving DecidableEq, Repr

/-- `open` is also the `reopen` of a new process. -/
inductive JournalCall where
  | «open»
  | appendAdd (hint : Hint) (sysExpiryMs : UInt64)
  | appendDel (target : NodeId) (key : Key) (version : UInt64)
  | compact (live : List Hint) (nowMs : UInt64) (reads : Nat → Nanos)

namespace Journaling

section Runs

variable (xxh3 : Bytes → UInt64)

variable (s : Journaling)

/-- A record that is appended to an open journal is expected from then on. -/
def append (payload : Bytes) (r : JournalRecord) : Journaling :=
  { s with
    journal := s.journal.appendRecord xxh3 payload
    expected := if s.journal.offset.isSome then s.expected ++ [r] else s.expected }

def step : JournalCall → Option Journaling
  | .open =>
    some { s with
      journal := s.journal.open xxh3
      descriptor := .opened (scan xxh3 s.journal.file).tail }
  | .appendAdd hint sysExpiryMs =>
    some (s.append xxh3 (encodeAdd hint sysExpiryMs) (.add (addRecord hint sysExpiryMs)))
  | .appendDel target key version =>
    some (s.append xxh3 (encodeDel target key version) (.del target key version))
  | .compact live nowMs reads =>
    if s.journal.offset.isSome then
      let written := (keptHints live nowMs reads).map fun p => .add (addRecord p.1 p.2)
      some { journal := s.journal.compact xxh3 live nowMs reads
             descriptor := .compacted written
             expected := written }
    else some s

/-- An append goes through a descriptor behind the last record, and every payload is shorter than
its length field can say. -/
def StepOk : JournalCall → Prop
  | .open => True
  | .appendAdd hint sysExpiryMs =>
    s.descriptor.Clean ∧ (encodeAdd hint sysExpiryMs).length < 2 ^ 32
  | .appendDel target key version =>
    s.descriptor.Clean ∧ (encodeDel target key version).length < 2 ^ 32
  | .compact live nowMs reads =>
    ∀ p ∈ keptHints live nowMs reads, (encodeAdd p.1 p.2).length < 2 ^ 32

instance (e : JournalCall) : Decidable (s.StepOk e) :=
  match e with
  | .open => inferInstanceAs (Decidable True)
  | .appendAdd _ _ => inferInstanceAs (Decidable (_ ∧ _))
  | .appendDel _ _ _ => inferInstanceAs (Decidable (_ ∧ _))
  | .compact _ _ _ => inferInstanceAs (Decidable (∀ p ∈ _, _))

def start (file : Bytes) (expected : List JournalRecord) : Journaling :=
  { journal := { file := file }, expected := expected }

/-- **The file holds what it should, and perhaps a tail** at which every scan stops; a clean
descriptor stands at its end. -/
structure Inv : Prop where
  content : ∃ payloads tail n, List.Forall₂ PayloadOf payloads s.expected ∧
    s.journal.file = frames xxh3 payloads ++ tail ∧ readFrame xxh3 tail = .error n ∧
    ∀ offset, s.journal.offset = some offset → s.descriptor.Clean →
      tail = [] ∧ offset = s.journal.file.length

variable {xxh3} {s : Journaling}

theorem Inv.scan (h : s.Inv xxh3) : (scan xxh3 s.journal.file).records = s.expected := by
  obtain ⟨payloads, tail, n, hholds, hfile, hstop, -⟩ := h.content
  rw [hfile, scan_frames hholds hstop]

theorem inv_start {payloads : List Bytes} {rs : List JournalRecord}
    (h : List.Forall₂ PayloadOf payloads rs) {tail : Bytes} {n : Nat}
    (hstop : readFrame xxh3 tail = .error n) : (start (frames xxh3 payloads ++ tail) rs).Inv xxh3 :=
  ⟨payloads, tail, n, h, rfl, hstop, fun _ hopen => nomatch hopen⟩

theorem Inv.open (h : s.Inv xxh3) :
    Inv xxh3 { s with
      journal := s.journal.open xxh3
      descriptor := .opened (Cinder.scan xxh3 s.journal.file).tail } := by
  obtain ⟨payloads, tail, n, hholds, hfile, hstop, -⟩ := h.content
  have hscan := scan_frames hholds hstop
  have hle := readFrame_error_le hstop
  have hopen : s.journal.open xxh3 =
      { file := frames xxh3 payloads ++ tail.take n
        offset := some (frames xxh3 payloads ++ tail).length
        records := s.expected.length } := by
    rw [HintJournal.open, hfile, hscan]
    have hstopAt : (frames xxh3 payloads ++ tail).length - tail.length + n =
        (frames xxh3 payloads).length + n := by
      rw [length_append, Nat.add_sub_cancel]
    rw [hstopAt]
    congr 1
    split
    · exact take_length_add_append n
    · rename_i hwhole
      have hn : n = tail.length := by
        rw [length_append] at hwhole
        omega
      rw [hn, take_length]
  refine ⟨payloads, tail.take n, n, hholds, ?_, readFrame_take hstop, ?_⟩
  · rw [hopen]
  · intro offset hoffset hclean
    rw [hfile, hscan] at hclean
    have hnil : tail = [] := hclean
    subst hnil
    rw [hopen] at hoffset ⊢
    cases hoffset
    exact ⟨take_nil, by simp⟩

theorem Inv.append (h : s.Inv xxh3) (hclean : s.descriptor.Clean) {payload : Bytes}
    {r : JournalRecord} (hr : PayloadOf payload r) : (s.append xxh3 payload r).Inv xxh3 := by
  obtain ⟨payloads, tail, n, hholds, hfile, hstop, hend⟩ := h.content
  unfold Journaling.append HintJournal.appendRecord
  cases hoffset : s.journal.offset with
  | none => exact ⟨payloads, tail, n, hholds, hfile, hstop, fun _ ho => nomatch hoffset ▸ ho⟩
  | some offset =>
    obtain ⟨rfl, rfl⟩ := hend offset hoffset hclean
    rw [append_nil] at hfile
    have hgrown : frames xxh3 (payloads ++ [payload]) = s.journal.file ++ frame xxh3 payload := by
      rw [hfile]
      simp [frames]
    refine ⟨payloads ++ [payload], [], 0, ?_, ?_, readFrame_nil, ?_⟩
    · exact rel_append hholds (List.Forall₂.cons hr .nil)
    · show writeAt _ _ _ = _
      rw [writeAt_end, append_nil, hgrown]
    · intro offset' hoffset' _
      refine ⟨rfl, ?_⟩
      show offset' = (writeAt _ _ _).length
      rw [writeAt_end, length_append]
      exact (some.inj hoffset').symm

theorem Inv.step {e : JournalCall} {s' : Journaling} (h : s.Inv xxh3) (hok : s.StepOk e)
    (hs : s.step xxh3 e = some s') : s'.Inv xxh3 := by
  cases e with
  | «open» =>
    cases hs
    exact h.open
  | appendAdd hint sysExpiryMs =>
    cases hs
    exact h.append hok.1 ⟨hok.2, parseRecord_encodeAdd hok.2⟩
  | appendDel target key version =>
    cases hs
    exact h.append hok.1 ⟨hok.2, parseRecord_encodeDel hok.2⟩
  | compact live nowMs reads =>
    simp only [Journaling.step] at hs
    split at hs
    · rename_i hopen
      cases hs
      obtain ⟨offset, hoffset⟩ := isSome_iff_exists.mp hopen
      have hwritten :
          List.Forall₂ PayloadOf ((keptHints live nowMs reads).map fun p => encodeAdd p.1 p.2)
          ((keptHints live nowMs reads).map fun p => .add (addRecord p.1 p.2)) := by
        rw [forall₂_map_left_iff, forall₂_map_right_iff, forall₂_same]
        exact fun p hp => ⟨hok p hp, parseRecord_encodeAdd (hok p hp)⟩
      have hcompact : s.journal.compact xxh3 live nowMs reads =
          { file := frames xxh3 ((keptHints live nowMs reads).map fun p => encodeAdd p.1 p.2)
            offset := some 0
            records := (keptHints live nowMs reads).length } := by
        rw [HintJournal.compact, hoffset]
      refine ⟨_, [], 0, hwritten, ?_, readFrame_nil, ?_⟩
      · rw [hcompact, append_nil]
      · intro offset' hoffset' hclean
        have hnone : keptHints live nowMs reads = [] := map_eq_nil_iff.mp hclean
        rw [hcompact] at hoffset' ⊢
        cases hoffset'
        refine ⟨rfl, ?_⟩
        rw [hnone]
        rfl
    · cases hs
      exact h

/-- **The journal is a faithful log** along every run in which appends find the descriptor behind
the last record: the next open parses what the file started with, or the last compaction wrote, and
every record appended since. -/
theorem journal_faithful (xxh3 : Bytes → UInt64) {payloads : List Bytes} {rs : List JournalRecord}
    (hholds : List.Forall₂ PayloadOf payloads rs) {tail : Bytes} {n : Nat}
    (htail : readFrame xxh3 tail = .error n) {s : Journaling}
    (h : Reaches (step xxh3) StepOk (start (frames xxh3 payloads ++ tail) rs) s) :
    (scan xxh3 s.journal.file).records = s.expected := by
  have hinv : s.Inv xxh3 :=
    h.invariant (inv_start hholds htail) fun _ _ _ hinv hok hs => hinv.step hok hs
  exact hinv.scan

end Runs

def sumBytes (bytes : Bytes) : UInt64 := UInt64.ofNat (bytes.map UInt8.toNat).sum

theorem journal_faithful_two_records :
    ∃ s, Reaches (step sumBytes) StepOk (start [] []) s ∧
      s.expected = [.del [1] [2] 3, .del [1] [2] 4] ∧
      (scan sumBytes s.journal.file).records = s.expected := by
  obtain ⟨s, hreach, hexpected⟩ := exists_reaches_of_exec (step sumBytes) StepOk
    (start [] []) [.open, .appendDel [1] [2] 3, .open, .appendDel [1] [2] 4]
    (fun s => decide (s.expected = [.del [1] [2] 3, .del [1] [2] 4])) (by decide +kernel)
  exact ⟨s, hreach, of_decide_eq_true hexpected,
    @journal_faithful sumBytes [] [] .nil [] 0 readFrame_nil s hreach⟩

/-- One torn byte, found by an open, hides the record that is appended behind it; and a record that
is appended after a compaction overwrites the one the compaction wrote. -/
theorem journal_loses_records :
    ((exec (step sumBytes) (fun _ _ => True) (start [5] [])
        [.open, .appendDel [1] [2] 3]).any fun s =>
      s.expected = [.del [1] [2] 3] ∧ (scan sumBytes s.journal.file).records = []) = true ∧
    ((exec (step sumBytes) (fun _ _ => True) (start [] [])
        [.open, .compact [smallHint 3] 0 fun _ => 0, .appendAdd (smallHint 4) 7]).any fun s =>
      s.expected = [.add (addRecord (smallHint 3) 30000), .add (addRecord (smallHint 4) 7)] ∧
        (scan sumBytes s.journal.file).records = [.add (addRecord (smallHint 4) 7)]) = true := by
  exact ⟨by decide +kernel, by decide +kernel⟩

end Journaling

end Cinder
