/-
Requests and responses of the wire protocol (`include/cinder/net/protocol.hpp`), and
the size of an encoded message.
-/
import Cinder.Common.Types

namespace Cinder

inductive Opcode where
  | get | set | del | ping | gossip | replicate | hint | getVersioned
  | antiEntropyDigest | antiEntropySync
  | adminInfo | adminCluster | adminRing | adminCompact | adminConfigReload | adminShutdown
  deriving DecidableEq, Repr

structure Request where
  opcode : Opcode
  traceId : UInt64 := 0
  spanId : UInt64 := 0
  key : Key := []
  value : Bytes := []
  version : UInt64 := 0
  writerNodeHash : UInt64 := 0
  ttl : Option Nat := none
  expiresAt : Option Nanos := none
  tombstone : Bool := false
  deriving DecidableEq, Repr

structure Response where
  status : Errc := .ok
  value : Option Bytes := none
  version : UInt64 := 0
  writerNodeHash : UInt64 := 0
  expiresAt : Option Nanos := none
  tombstone : Bool := false
  traceId : UInt64 := 0
  spanId : UInt64 := 0
  deriving DecidableEq, Repr

def kMaxMessageSize : Nat := 67108864

def kFrameHeaderSize : Nat := 7

/-- Payload bytes of `encodeInto(const Request&)`: flags, version, writer and the two length
fields, then the optional parts. -/
def Request.payloadSize (req : Request) (authToken : Bytes) : Nat :=
  25 + req.key.length + req.value.length
    + (if req.ttl.isSome then 4 else 0)
    + (if req.expiresAt.isSome then 8 else 0)
    + (if req.traceId ≠ 0 then 16 else 0)
    + authToken.length

/-- Size of the encoded request; `none` where `encodeInto` refuses it. -/
def Request.frameSize (req : Request) (authToken : Bytes) : Option Nat :=
  if req.key.length < 2 ^ 32 ∧ req.value.length < 2 ^ 32 ∧
      (authToken = [] ∨ authToken.length = 32) ∧
      req.payloadSize authToken ≤ kMaxMessageSize - kFrameHeaderSize then
    some (kFrameHeaderSize + req.payloadSize authToken)
  else none

/-- Payload bytes of `encodeInto(const Response&)`: status, flags and the value flag, then
the optional parts. -/
def Response.payloadSize (res : Response) : Nat :=
  6 + (if res.version ≠ 0 ∨ res.writerNodeHash ≠ 0 then 16 else 0)
    + (if res.expiresAt.isSome then 8 else 0)
    + (res.value.elim 0 List.length)
    + (if res.traceId ≠ 0 then 16 else 0)

/-- Size of the encoded frame; `none` where `encodeInto` refuses the message as too large. -/
def Response.frameSize (res : Response) : Option Nat :=
  if res.payloadSize ≤ kMaxMessageSize - kFrameHeaderSize then
    some (kFrameHeaderSize + res.payloadSize)
  else none

end Cinder
