/-
The bytes of an anti-entropy sync message, as the decoder reads them (`decodeSync` and
`parseSingleEntry` in `src/node/anti_entropy/codec.cpp`).

Every read is bounded by the buffer, and behind the needlist nothing may be left. Of the flags
of an entry the two known bits may come in any combination.
-/
import Cinder.Node.Reconcile

namespace Cinder

open Decoding Decoder

/-- `K_SYNC_MAGIC`, "AEMS". -/
def kSyncMagic : UInt32 := 0x41454D53

/-- The time stamp is there only with the TTL flag. -/
def parseSingleEntry : Decoder UInt8 SyncEntry := do
  let keyLen ← readU32
  let key ← take keyLen.toNat
  let version ← readU64
  let writer ← readU64
  let entryFlags ← readU8
  if entryFlags &&& 3 ≠ entryFlags then reject
  else do
    let hasTtl := entryFlags &&& 1 != 0
    let expiresMs ← if hasTtl then readU64 else pure 0
    let valLen ← readU32
    let value ← take valLen.toNat
    pure { key, version, writer, hasTtl, tombstone := entryFlags &&& 2 != 0, expiresMs, value }

def parseEntries : Nat → Decoder UInt8 (List SyncEntry)
  | 0 => pure []
  | n + 1 => do
    let entry ← parseSingleEntry
    let rest ← parseEntries n
    pure (entry :: rest)

def readHashes : Nat → Decoder UInt8 (List UInt64)
  | 0 => pure []
  | n + 1 => do
    let h ← readU64
    let rest ← readHashes n
    pure (h :: rest)

def expectRemaining (n : Nat) : Decoder UInt8 Unit := fun c =>
  if c.data.length - c.pos = n then (.ok (), c) else (.error .invalid, c)

def readSync : Decoder UInt8 SyncMessage := do
  let magic ← readU32
  if magic ≠ kSyncMagic then reject
  else do
    let entryCount ← readU32
    let entries ← parseEntries entryCount.toNat
    let needCount ← readU32
    expectRemaining (needCount.toNat * 8)
    let needs ← readHashes needCount.toNat
    pure { entries, needs }

def decodeSync (data : Bytes) : Option SyncMessage := (readSync ⟨data, 0⟩).1.toOption

/-- A tombstone with the TTL flag clear is read as one. -/
example : (decodeSync ([0x53, 0x4D, 0x45, 0x41] ++ [1, 0, 0, 0] ++ [1, 0, 0, 0, 9] ++
    [5, 0, 0, 0, 0, 0, 0, 0] ++ [7, 0, 0, 0, 0, 0, 0, 0] ++ [2] ++ [0, 0, 0, 0] ++ [0, 0, 0, 0])) =
    some { entries := [{ key := [9], version := 5, writer := 7, hasTtl := false, tombstone := true
                         value := [] }] } := by
  decide +kernel

end Cinder
