/-
From a client's Set frame to the Replicate frames of the same write: what is added on
the way, and whether a replica agrees to read the result (`src/net/tcp/connection.cpp`,
`src/node/replication_manager.cpp`, `src/node/shard_manager.cpp`,
`src/node/hint_journal.cpp`).

The server mints trace ids, the primary turns a relative TTL of four bytes into an absolute
expiry of eight, and the transport appends its token; both frames are held to one read buffer.
-/
import Cinder.Net.NodeAuth
import Cinder.Node.ShardManager

namespace Cinder

/-! ## 1. A write on the primary -/

structure HmacDigest where
  bytes : Bytes
  length_eq : bytes.length = 32
  deriving DecidableEq

/-- The token as `encode` gets it: empty, or the bytes of the digest. -/
def wireToken (token : Option HmacDigest) : Bytes := token.elim [] HmacDigest.bytes

/-- `onPayload`: ids the client left open come from a counter that starts at 1 and advances
by 2; `minted` requests have taken theirs before. -/
def assignTrace (minted : UInt64) (req : Request) : Request :=
  let base := 2 * minted + 1
  { req with
    traceId := if req.traceId = 0 then base else req.traceId
    spanId := if req.spanId = 0 then base + 1 else req.spanId }

/-- A Set as the primary serves it: the decoded request, the state of the id counter, the
clock and the version `writeAsync` works with. -/
structure ServedSet where
  req : Request
  minted : UInt64
  clk : ClockReading
  version : UInt64
  writer : UInt64

namespace ServedSet

variable (w : ServedSet)

def ttl : Option Nanos := w.req.ttl.map fun ms => (ms : Int) * 1000000

/-- The entry the primary stores, and later reads back. -/
def entry : VersionedEntry := writeEntry w.clk w.version w.writer w.req.value w.ttl

def fanOutRequest : Request :=
  { writeRequest w.clk w.req.key w.version w.writer w.req.value w.ttl with
    traceId := (assignTrace w.minted w.req).traceId
    spanId := (assignTrace w.minted w.req).spanId }

end ServedSet

/-- A hint that went through the journal: trace ids are not journaled, and an expiry of
0 ms stands for none. -/
def journaledRequest (req : Request) : Request :=
  { req with
    traceId := 0
    spanId := 0
    expiresAt := req.expiresAt.bind fun t =>
      if millisOf t = 0 then none else some ((millisOf t).toNat * 1000000) }

/-- The ways a write leaves the node: the fan-out, a hint replayed from memory or from the
journal, a repair (with the ids of its span) and a rebalance push, the last two at a
later clock reading. -/
inductive ReplicaForm where
  | writeFanOut
  | hintReplay
  | recoveredHint
  | readRepair (clk : ClockReading) (traceId spanId : UInt64)
  | rebalancePush (clk : ClockReading)

def ServedSet.replicateRequest (w : ServedSet) : ReplicaForm → Request
  | .writeFanOut => w.fanOutRequest
  | .hintReplay => w.fanOutRequest
  | .recoveredHint => journaledRequest w.fanOutRequest
  | .readRepair clk traceId spanId =>
    { repairRequest clk w.req.key w.entry with traceId := traceId, spanId := spanId }
  | .rebalancePush clk => makeReplicateRequest clk w.req.key w.entry

/-! ## 2. Sizes -/

theorem payloadSize_le_of {r r' : Request} {authToken : Bytes}
    (hkey : r.key.length = r'.key.length) (hvalue : r.value.length = r'.value.length)
    (httl : r.ttl = r'.ttl) (hexp : r.expiresAt.isSome = true → r'.expiresAt.isSome = true)
    (htrace : r.traceId ≠ 0 → r'.traceId ≠ 0) :
    r.payloadSize authToken ≤ r'.payloadSize authToken := by
  simp only [Request.payloadSize, hkey, hvalue, httl]
  refine Nat.add_le_add_right (add_le_add (Nat.add_le_add_left ?_ _) ?_) _
  · split
    · rw [if_pos (hexp ‹_›)]
    · exact Nat.zero_le _
  · split
    · rw [if_pos (htrace ‹_›)]
    · exact Nat.zero_le _

theorem traceId_assignTrace_ne_zero (minted : UInt64) (req : Request) :
    (assignTrace minted req).traceId ≠ 0 := by
  have hodd : 2 * minted + 1 ≠ 0 := by
    intro hzero
    have := congrArg UInt64.toNat hzero
    simp only [UInt64.toNat_add, UInt64.toNat_mul, UInt64.toNat_ofNat] at this
    omega
  show (if req.traceId = 0 then 2 * minted + 1 else req.traceId) ≠ 0
  split
  · exact hodd
  · assumption

namespace ServedSet

variable (w : ServedSet)

theorem hasTtl_entry : w.entry.hasTtl = w.req.ttl.isSome := by
  have hstamped : (stampedEntry w.req.value w.version w.writer).hasTtl = false :=
    (VersionedEntry.hasTtl_setVersion { value := w.req.value } w.version).trans
      (show ((0 : UInt64) &&& 1 != 0) = false by decide)
  unfold entry writeEntry ttl
  cases w.req.ttl with
  | none => exact hstamped
  | some ms => exact VersionedEntry.hasTtl_setHasTtl _ true

theorem value_entry : w.entry.value = w.req.value := by
  unfold entry writeEntry ttl
  cases w.req.ttl <;> rfl

theorem expiresAt_writeRequest :
    (writeRequest w.clk w.req.key w.version w.writer w.req.value w.ttl).expiresAt.isSome =
      w.req.ttl.isSome := by
  rw [← hasTtl_entry]
  show (if w.entry.hasTtl then some _ else none).isSome = _
  cases w.entry.hasTtl <;> rfl

theorem payloadSize_fanOut (authToken : Bytes) :
    w.fanOutRequest.payloadSize authToken =
      41 + w.req.key.length + w.req.value.length + (if w.req.ttl.isSome then 8 else 0)
        + authToken.length := by
  have htrace : w.fanOutRequest.traceId ≠ 0 := traceId_assignTrace_ne_zero w.minted w.req
  have hexp : w.fanOutRequest.expiresAt.isSome = w.req.ttl.isSome := w.expiresAt_writeRequest
  have hkey : w.fanOutRequest.key = w.req.key := rfl
  have hvalue : w.fanOutRequest.value = w.req.value := rfl
  have httl : w.fanOutRequest.ttl.isSome = false := rfl
  simp only [Request.payloadSize, htrace, hexp, hkey, hvalue, httl, ne_eq, not_false_eq_true,
    if_true, Bool.false_eq_true, if_false]
  omega

theorem payloadSize_le_fanOut (form : ReplicaForm) (authToken : Bytes) :
    (w.replicateRequest form).payloadSize authToken ≤ w.fanOutRequest.payloadSize authToken := by
  have htrace : w.fanOutRequest.traceId ≠ 0 := traceId_assignTrace_ne_zero w.minted w.req
  have hentry (clk : ClockReading) : (entryRequest clk w.req.key w.entry).expiresAt.isSome = true →
      w.fanOutRequest.expiresAt.isSome = true := by
    intro h
    rw [show w.fanOutRequest.expiresAt.isSome = _ from w.expiresAt_writeRequest, ← hasTtl_entry]
    by_contra httl
    simp [entryRequest, httl] at h
  cases form with
  | writeFanOut | hintReplay => exact le_rfl
  | recoveredHint =>
    refine payloadSize_le_of rfl rfl rfl (fun h => ?_) fun _ => htrace
    obtain ⟨t, ht⟩ := Option.isSome_iff_exists.mp h
    obtain ⟨t', ht', -⟩ := Option.bind_eq_some_iff.mp ht
    exact Option.isSome_iff_exists.mpr ⟨t', ht'⟩
  | readRepair clk traceId spanId =>
    exact payloadSize_le_of rfl (congrArg _ w.value_entry) rfl (hentry clk) fun _ => htrace
  | rebalancePush clk =>
    exact payloadSize_le_of rfl (congrArg _ w.value_entry) rfl (hentry clk) fun _ => htrace

end ServedSet

/-! ## 3. Which writes can be replicated -/

theorem length_wireToken (hmac : Bytes → Bytes → HmacDigest) (sender : Peer) (now : UInt64) :
    (wireToken (transportToken hmac sender now)).length =
      if sender.sharedSecret ≠ [] ∧ sender.nodeId ≠ [] then 32 else 0 := by
  unfold transportToken generateAuthToken
  split
  · rename_i h
    rw [if_neg h.1]
    exact HmacDigest.length_eq _
  · rfl

/-- **Which accepted writes can be replicated.** Each form of the Replicate frame of a Set stays
within the replica's limit exactly if key and value leave room for the trace ids, the absolute
expiry of a TTL write and the token. -/
theorem write_replicable_iff (hmac : Bytes → Bytes → HmacDigest) (sender : Peer) (now : UInt64)
    (w : ServedSet) :
    (∀ form, (w.replicateRequest form).arrives
        (wireToken (transportToken hmac sender now)) = true) ↔
      w.req.key.length + w.req.value.length + (if w.req.ttl.isSome then 8 else 0)
        + (if sender.sharedSecret ≠ [] ∧ sender.nodeId ≠ [] then 32 else 0) ≤ 1048528 := by
  have hlen := length_wireToken hmac sender now
  generalize wireToken (transportToken hmac sender now) = token at hlen ⊢
  have hauth : token = [] ∨ token.length = 32 := by
    split at hlen
    · exact .inr hlen
    · exact .inl (List.length_eq_zero_iff.mp hlen)
  have hfan := w.payloadSize_fanOut token
  simp only [Request.arrives_iff hauth, ← hlen]
  constructor
  · intro h
    have hlimit : w.fanOutRequest.payloadSize token ≤ 1048569 := h .writeFanOut
    omega
  · intro h form
    have hle := w.payloadSize_le_fanOut form token
    omega

/-- A Set without TTL and trace ids that fills the read buffer to its last byte: the server
accepts it, and the fan-out is too large by the trace ids alone. -/
theorem full_set_not_replicable :
    let set : Request := { opcode := .set, key := [107], value := List.replicate 1048543 0 }
    set.arrives [] = true ∧
      (ServedSet.replicateRequest ⟨set, 0, {}, 1, 2⟩ .writeFanOut).arrives [] = false := by
  intro set
  have hkey : set.key.length = 1 := rfl
  have hvalue : set.value.length = 1048543 := List.length_replicate
  have httl : set.ttl.isSome = false := rfl
  constructor
  · refine (Request.arrives_iff (.inl rfl)).mpr ?_
    simp only [Request.payloadSize, hkey, hvalue, httl]
    decide
  · rw [Bool.eq_false_iff, ne_eq, Request.arrives_iff (.inl rfl)]
    have hfan := ServedSet.payloadSize_fanOut ⟨set, 0, {}, 1, 2⟩ []
    simp only [hkey, hvalue, httl] at hfan
    show ¬ (ServedSet.fanOutRequest ⟨set, 0, {}, 1, 2⟩).payloadSize [] ≤ 1048569
    rw [hfan]
    decide

end Cinder
