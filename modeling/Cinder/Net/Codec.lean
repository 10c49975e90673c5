/-
The bytes of requests and responses (`src/net/protocol.cpp`): `encodeInto`, `parseFrame`,
`decode`, `decodeResponse`.

A payload is read with a bounded reader. The fields behind the value are there if their flag is
set and enough bytes are left, so that what a reader accepts depends on what is left (`Exact`).
Numbers are big-endian; every error is `InvalidArgument`, with one of the texts below.
-/
import Cinder.Net.Protocol
import Cinder.Store.Records

namespace Cinder

open Decoding Decoder List UInt64 Option

/-! ## 1. Frames -/

namespace Net

def kMagic : UInt8 := 0xC1

def kVersion : UInt8 := 5

/-- `K_MAX_MS` of both decoders. -/
def kMaxMs : Nat := (2 ^ 63 - 1) / 1000000

/-- The flags byte. Bit 0 is the TTL of a request and the version of a response. -/
structure Flags where
  first : Bool
  expiresAt : Bool
  trace : Bool
  auth : Bool
  tombstone : Bool
  deriving DecidableEq

def Flags.toByte (fl : Flags) : UInt8 :=
  (bif fl.first then 1 else 0) ||| (bif fl.expiresAt then 2 else 0) |||
    (bif fl.tombstone then 16 else 0) ||| (bif fl.trace then 4 else 0) |||
    (bif fl.auth then 8 else 0)

def Flags.ofByte (b : UInt8) : Flags :=
  ⟨b &&& 1 != 0, b &&& 2 != 0, b &&& 4 != 0, b &&& 8 != 0, b &&& 16 != 0⟩

theorem Flags.ofByte_toByte (fl : Flags) : ofByte fl.toByte = fl := by
  rcases fl with ⟨_ | _, _ | _, _ | _, _ | _, _ | _⟩ <;> decide

def frameOf (opcode : UInt8) (payload : Bytes) : Bytes :=
  kMagic :: kVersion :: opcode :: (beBytes 4 payload.length ++ payload)

/-- The opcode and the payload of the frame the buffer begins with. -/
def parseFrame (frame : Bytes) : Except String (UInt8 × Bytes) :=
  if frame.length < kFrameHeaderSize then .error "frame too small"
  else if frame.getD 0 0 ≠ kMagic then .error "bad magic"
  else if frame.getD 1 0 ≠ kVersion then .error "bad version"
  else
    let payloadSize := leNat ((frame.drop 3).take 4).reverse
    if kMaxMessageSize - kFrameHeaderSize < payloadSize then .error "payload too large"
    else if frame.length - kFrameHeaderSize < payloadSize then .error "truncated frame"
    else .ok (frame.getD 2 0, (frame.drop kFrameHeaderSize).take payloadSize)

variable {opcode : UInt8} {payload frame extra : Bytes}

theorem parseFrame_frameOf (h : payload.length ≤ kMaxMessageSize - kFrameHeaderSize) :
    parseFrame (frameOf opcode payload ++ extra) = .ok (opcode, payload) := by
  have hlt : payload.length < 256 ^ 4 := h.trans_lt (by decide)
  have hsize : leNat (beBytes 4 payload.length).reverse = payload.length := by
    rw [beBytes, reverse_reverse, leNat_leBytes_of_lt hlt]
  have htake : ((frameOf opcode payload ++ extra).drop 3).take 4 = beBytes 4 payload.length := by
    simp [frameOf]
  have hlen : (frameOf opcode payload ++ extra).length = 7 + payload.length + extra.length := by
    simp [frameOf]
    omega
  have hdrop : (frameOf opcode payload ++ extra).drop 7 = payload ++ extra := by
    simp [frameOf]
  rw [kFrameHeaderSize] at h
  simp only [parseFrame, htake, hsize, hlen, kFrameHeaderSize, hdrop, take_left]
  rw [if_neg (by omega), if_neg (by simp [frameOf]), if_neg (by simp [frameOf]),
    if_neg (not_lt.mpr h), if_neg (by omega)]
  rfl

theorem length_of_parseFrame (h : parseFrame frame = .ok (opcode, payload)) :
    payload.length ≤ kMaxMessageSize - kFrameHeaderSize := by
  simp only [parseFrame] at h
  split_ifs at h with _ _ _ hmax
  cases h
  exact (length_take_le ..).trans (not_lt.mp hmax)

/-! ## 2. Fields -/

def readByte : Decoder UInt8 UInt8 := do
  let n ← readBe 1
  pure (UInt8.ofNat n)

def readBe64 : Decoder UInt8 UInt64 := do
  let n ← readBe 8
  pure (UInt64.ofNat n)

def readPair : Decoder UInt8 (UInt64 × UInt64) := do
  let first ← readBe64
  let second ← readBe64
  pure (first, second)

def readString : Decoder UInt8 Bytes := do
  let len ← readBe 4
  take len

def readExpiry : Decoder UInt8 Nanos := do
  let ms ← readBe 8
  if kMaxMs < ms then reject else pure (timeOfMillis (UInt64.ofNat ms))

/-- The trace behind a message; a zero trace carries no span. -/
def readTrace (hasTrace : Bool) : Decoder UInt8 (UInt64 × UInt64) :=
  whenLeft hasTrace 16 (0, 0) do
    let p ← readPair
    pure (p.1, if p.1 = 0 then 0 else p.2)

def pairBytes (p : UInt64 × UInt64) : Bytes := beBytes 8 p.1.toNat ++ beBytes 8 p.2.toNat

def traceBytes (traceId spanId : UInt64) : Bytes :=
  if traceId = 0 then [] else pairBytes (traceId, spanId)

/-- An expiry both decoders accept. -/
def Acceptable (t : Nanos) : Prop := ∃ ms : Nat, ms ≤ kMaxMs ∧ t = ms * 1000000

theorem exact_readByte : Exact readByte fun b w _ => w = [b] := by
  refine ((exact_readBe 1).map UInt8.ofNat).congr fun b w r => ?_
  constructor
  · rintro ⟨n, rfl, -, rfl⟩
    rfl
  · rintro rfl
    exact ⟨b.toNat, by simp, b.toNat_lt, by simp [beBytes, leBytes]⟩

theorem exact_readBe64 : Exact readBe64 fun v w _ => w = beBytes 8 v.toNat := by
  refine ((exact_readBe 8).map ofNat).congr fun v w r => ?_
  constructor
  · rintro ⟨n, rfl, hn, rfl⟩
    rw [toNat_ofNat', Nat.mod_eq_of_lt (by exact hn)]
  · rintro rfl
    exact ⟨v.toNat, by simp, v.toNat_lt, rfl⟩

theorem exact_readPair : Exact readPair fun p w _ => w = pairBytes p := by
  refine (exact_readBe64.bind fun first => exact_readBe64.map (Prod.mk first)).congr fun p w r => ?_
  constructor
  · rintro ⟨first, _, _, rfl, rfl, second, rfl, rfl⟩
    rfl
  · rintro rfl
    exact ⟨p.1, _, _, rfl, rfl, p.2, rfl, rfl⟩

theorem exact_readString :
    Exact readString fun s w _ => s.length < 2 ^ 32 ∧ w = beBytes 4 s.length ++ s := by
  refine ((exact_readBe 4).bind exact_take).congr fun s w r => ?_
  constructor
  · rintro ⟨_, _, _, rfl, ⟨hn, rfl⟩, rfl, rfl⟩
    exact ⟨hn, rfl⟩
  · rintro ⟨hs, rfl⟩
    exact ⟨_, _, _, rfl, ⟨hs, rfl⟩, rfl, rfl⟩

theorem timeOfMillis_ofNat {ms : Nat} (h : ms ≤ kMaxMs) :
    timeOfMillis (UInt64.ofNat ms) = ms * 1000000 := by
  have hms : ms < 2 ^ 63 := h.trans_lt (by decide)
  have hnat : (ofNat ms).toNat = ms := by
    rw [toNat_ofNat', Nat.mod_eq_of_lt (by omega)]
  rw [timeOfMillis, hnat, if_pos hms]

theorem exact_readExpiry : Exact readExpiry fun t w _ =>
    Acceptable t ∧ w = beBytes 8 (millisOf t).toNat := by
  have hread : ∀ ms, Exact (if kMaxMs < ms then reject else pure (timeOfMillis (ofNat ms)))
      fun t (w : Bytes) _ => ms ≤ kMaxMs ∧ t = timeOfMillis (ofNat ms) ∧ w = [] := by
    intro ms
    split
    · rename_i hlt
      exact exact_reject.congr fun t w r => by simp [hlt]
    · rename_i hle
      exact (exact_pure _).congr fun t w r => by simp [not_lt.mp hle]
  refine ((exact_readBe 8).bind hread).congr fun t w r => ?_
  constructor
  · rintro ⟨ms, _, _, rfl, ⟨hlt, rfl⟩, hle, rfl, rfl⟩
    refine ⟨⟨ms, hle, timeOfMillis_ofNat hle⟩, ?_⟩
    rw [millisOf_timeOfMillis, toNat_ofNat', Nat.mod_eq_of_lt (by exact hlt), append_nil]
  · rintro ⟨⟨ms, hle, rfl⟩, rfl⟩
    have hlt : ms < 2 ^ 64 := hle.trans_lt (by decide)
    have htime := timeOfMillis_ofNat hle
    refine ⟨ms, _, [], (append_nil _).symm, ⟨hlt, ?_⟩, hle, htime.symm, rfl⟩
    rw [← htime, millisOf_timeOfMillis, toNat_ofNat', Nat.mod_eq_of_lt hlt]

/-- The trace `p` is read from the word `w` before the rest `r`. -/
def TraceWord (hasTrace : Bool) (p : UInt64 × UInt64) (w r : Bytes) : Prop :=
  if hasTrace ∧ 16 ≤ (w ++ r).length then
    ∃ sid, p.2 = (if p.1 = 0 then 0 else sid) ∧ w = pairBytes (p.1, sid)
  else p = (0, 0) ∧ w = []

theorem exact_readTrace (hasTrace : Bool) : Exact (readTrace hasTrace) (TraceWord hasTrace) := by
  refine Exact.whenLeft hasTrace 16 (0, 0) ((exact_readPair.map fun p =>
    (p.1, if p.1 = 0 then 0 else p.2)).congr fun p w r => ?_)
  constructor
  · rintro ⟨⟨tid, sid⟩, rfl, rfl⟩
    exact ⟨sid, rfl, rfl⟩
  · rintro ⟨sid, hsid, rfl⟩
    exact ⟨(p.1, sid), Prod.ext rfl hsid, rfl⟩

theorem length_traceBytes (traceId spanId : UInt64) :
    (traceBytes traceId spanId).length = if traceId ≠ 0 then 16 else 0 := by
  by_cases h : traceId = 0 <;> simp [traceBytes, pairBytes, h]

theorem TraceWord.sound {hasTrace : Bool} {p : UInt64 × UInt64} {w r : Bytes}
    (h : TraceWord hasTrace p w r) :
    (p.1 = 0 → p.2 = 0) ∧ (if p.1 ≠ 0 then 16 else 0) ≤ w.length := by
  unfold TraceWord at h
  split at h
  · obtain ⟨sid, hsid, rfl⟩ := h
    refine ⟨fun hz => by rw [hsid, if_pos hz], ?_⟩
    split <;> simp [pairBytes]
  · obtain ⟨rfl, rfl⟩ := h
    simp

theorem traceWord_traceBytes {traceId spanId : UInt64} (h : traceId = 0 → spanId = 0) (r : Bytes) :
    TraceWord (traceId != 0) (traceId, spanId) (traceBytes traceId spanId) r := by
  unfold TraceWord traceBytes
  by_cases ht : traceId = 0
  · simp [ht, h ht]
  · simp only [bne_iff_ne, ne_eq, ht, not_false_eq_true, if_false, true_and]
    rw [if_pos (by simp [pairBytes]; omega)]
    exact ⟨spanId, rfl, rfl⟩

end Net

open Net

/-! ## 3. Requests -/

def Opcode.all : List Opcode :=
  [.get, .set, .del, .ping, .gossip, .replicate, .hint, .getVersioned, .antiEntropyDigest,
    .antiEntropySync, .adminInfo, .adminCluster, .adminRing, .adminCompact, .adminConfigReload,
    .adminShutdown]

def Opcode.code (op : Opcode) : UInt8 := UInt8.ofNat (Opcode.all.idxOf op + 1)

def Opcode.ofCode (b : UInt8) : Option Opcode :=
  if b = 0 then none else Opcode.all[b.toNat - 1]?

theorem Opcode.ofCode_code (op : Opcode) : Opcode.ofCode op.code = some op := by
  cases op <;> rfl

namespace Request

variable (req : Request) (authToken : Bytes)

def flags : Flags :=
  ⟨req.ttl.isSome, req.expiresAt.isSome, req.traceId != 0, authToken != [], req.tombstone⟩

/-- The payload; the TTL is cut to its four bytes. -/
def payload : Bytes :=
  [(req.flags authToken).toByte] ++ (req.ttl.elim [] (beBytes 4) ++
    (req.expiresAt.elim [] (fun t => beBytes 8 (millisOf t).toNat) ++
    (beBytes 8 req.version.toNat ++ (beBytes 8 req.writerNodeHash.toNat ++
    ((beBytes 4 req.key.length ++ req.key) ++ ((beBytes 4 req.value.length ++ req.value) ++
    (traceBytes req.traceId req.spanId ++ authToken)))))))

def encode : Option Bytes :=
  (req.frameSize authToken).map fun _ => frameOf req.opcode.code (req.payload authToken)

end Request

def readRequest (opcode : Opcode) : Decoder UInt8 (Request × Bytes) := do
  let b ← readByte
  let flags := Flags.ofByte b
  let ttl ← Decoder.when flags.first (readBe 4)
  let expiresAt ← Decoder.when flags.expiresAt readExpiry
  let version ← readBe64
  let writerNodeHash ← readBe64
  let key ← readString
  let value ← readString
  let trace ← readTrace flags.trace
  let authToken ← whenLeft flags.auth 32 [] (take 32)
  pure ({ opcode, ttl, expiresAt, version, writerNodeHash, key, value, traceId := trace.1
          spanId := trace.2, tombstone := flags.tombstone }, authToken)

def Net.finish {α : Type} (d : Decoder UInt8 α) (payload : Bytes) : Except String α :=
  match (d ⟨payload, 0⟩).1 with
  | .ok a => .ok a
  | .error .short => .error "truncated"
  | .error .invalid => .error "expires_at overflow"

def decode (frame : Bytes) : Except String (Request × Bytes) := do
  let (rawOpcode, payload) ← parseFrame frame
  match Opcode.ofCode rawOpcode with
  | none => .error "unknown opcode"
  | some opcode => finish (readRequest opcode) payload

theorem Net.finish_eq_ok {α : Type} {d : Decoder UInt8 α} {R : α → Bytes → Bytes → Prop}
    (hd : Exact d R) {payload : Bytes} {a : α} :
    finish d payload = .ok a ↔ ∃ w r, payload = w ++ r ∧ R a w r := by
  have hread := hd [] payload a
  simp only [nil_append, length_nil] at hread
  rw [finish]
  cases hc : d ⟨payload, 0⟩ with
  | mk o c =>
    rw [hc] at hread
    cases o with
    | ok b =>
      constructor
      · intro h
        obtain ⟨w, r, hw, -, hR⟩ := (hread c).mp (by rw [Except.ok.inj h])
        exact ⟨w, r, hw, hR⟩
      · rintro ⟨w, r, hw, hR⟩
        exact congrArg _ (Except.ok.inj (Prod.mk.inj ((hread _).mpr ⟨w, r, hw, rfl, hR⟩)).1)
    | error stop =>
      refine iff_of_false (by cases stop <;> simp) fun ⟨w, r, hw, hR⟩ => ?_
      cases (Prod.mk.inj ((hread _).mpr ⟨w, r, hw, rfl, hR⟩)).1

/-- What a decoder can give back: an expiry it accepts, no span without a trace, and a token of
32 bytes if any. -/
structure Request.Canonical (req : Request) (authToken : Bytes) : Prop where
  expiry : ∀ t ∈ req.expiresAt, Acceptable t
  span : req.traceId = 0 → req.spanId = 0
  token : authToken = [] ∨ authToken.length = 32

theorem Request.length_payload (req : Request) (authToken : Bytes) :
    (req.payload authToken).length = req.payloadSize authToken := by
  simp only [payload, payloadSize, length_traceBytes, length_append, length_beBytes,
    length_singleton]
  cases req.ttl <;> cases req.expiresAt <;> simp <;> omega

theorem exact_readRequest (opcode : Opcode) : ∃ R, Exact (readRequest opcode) R ∧
    (∀ req authToken w r, R (req, authToken) w r → req.Canonical authToken ∧
      (∀ t ∈ req.ttl, t < 2 ^ 32) ∧ req.payloadSize authToken ≤ w.length) ∧
    ∀ req : Request, ∀ authToken, req.opcode = opcode → req.Canonical authToken →
      req.key.length < 2 ^ 32 → req.value.length < 2 ^ 32 →
      R ({ req with ttl := req.ttl.map (· % 2 ^ 32) }, authToken) (req.payload authToken) [] := by
  refine ⟨_, exact_readByte.bind fun b => ((exact_readBe 4).when _).bind fun ttl =>
    (exact_readExpiry.when _).bind fun expiresAt => exact_readBe64.bind fun version =>
    exact_readBe64.bind fun writer => exact_readString.bind fun key =>
    exact_readString.bind fun value => (exact_readTrace _).bind fun trace =>
    ((exact_take 32).whenLeft _ 32 []).map _, ?_, ?_⟩
  · rintro req authToken w r ⟨b, _, _, rfl, rfl, ttl, u, _, rfl, ⟨-, httl⟩, expiresAt, v, _, rfl,
      ⟨-, hexp⟩, version, _, _, rfl, rfl, writer, _, _, rfl, rfl, key, _, _, rfl, ⟨hkey, rfl⟩,
      value, _, _, rfl, ⟨hvalue, rfl⟩, trace, x, y, rfl, htrace, auth, heq, hauth⟩
    obtain ⟨rfl, rfl⟩ := Prod.mk.inj heq
    have hu : (if ttl.isSome then 4 else 0) ≤ u.length := by
      cases ttl <;> simp_all
    have hv : (if expiresAt.isSome then 8 else 0) ≤ v.length := by
      cases expiresAt <;> simp_all
    have hx := htrace.sound
    have hy : (authToken = [] ∨ authToken.length = 32) ∧ authToken.length ≤ y.length := by
      split at hauth
      · obtain ⟨rfl, hlen⟩ := hauth
        exact ⟨.inr hlen, le_rfl⟩
      · obtain ⟨rfl, rfl⟩ := hauth
        exact ⟨.inl rfl, le_rfl⟩
    refine ⟨⟨?_, hx.1, hy.1⟩, ?_, ?_⟩
    · rintro t ⟨⟩
      exact hexp.1
    · rintro t ⟨⟩
      exact httl.1
    · simp only [Request.payloadSize, length_append, length_beBytes, length_singleton]
      omega
  · rintro req authToken rfl h hkey hvalue
    refine ⟨(req.flags authToken).toByte, _, _, rfl, rfl, req.ttl.map (· % 2 ^ 32), _, _, rfl, ?_,
      req.expiresAt, _, _, rfl, ?_, req.version, _, _, rfl, rfl, req.writerNodeHash, _, _, rfl, rfl,
      req.key, _, _, rfl, ⟨hkey, rfl⟩, req.value, _, _, rfl, ⟨hvalue, rfl⟩,
      (req.traceId, req.spanId), _, _, rfl, ?_, authToken, ?_, ?_⟩
    all_goals rw [Flags.ofByte_toByte]
    · refine ⟨by simp [Request.flags], ?_⟩
      cases req.ttl with
      | none => rfl
      | some t => exact ⟨Nat.mod_lt _ (by decide), (beBytes_mod 4 t).symm⟩
    · refine ⟨rfl, ?_⟩
      cases he : req.expiresAt with
      | none => rfl
      | some t => exact ⟨h.expiry t he, rfl⟩
    · exact traceWord_traceBytes h.span _
    · rfl
    · rcases h.token with rfl | hlen
      · simp [Request.flags]
      · rw [if_pos]
        · exact ⟨rfl, hlen⟩
        · refine ⟨?_, by simp [hlen]⟩
          cases authToken <;> simp_all [Request.flags]

theorem Request.encode_eq_some {req : Request} {authToken frame : Bytes} :
    req.encode authToken = some frame ↔ req.key.length < 2 ^ 32 ∧ req.value.length < 2 ^ 32 ∧
      (authToken = [] ∨ authToken.length = 32) ∧
      req.payloadSize authToken ≤ kMaxMessageSize - kFrameHeaderSize ∧
      frame = frameOf req.opcode.code (req.payload authToken) := by
  rw [encode, frameSize]
  split
  · rename_i h
    rw [map_some, some.injEq, eq_comm]
    exact ⟨fun heq => ⟨h.1, h.2.1, h.2.2.1, h.2.2.2, heq⟩, fun hall => hall.2.2.2.2⟩
  · rename_i h
    simp only [map_none, reduceCtorEq, false_iff]
    rintro ⟨hkey, hvalue, htoken, hsize, -⟩
    exact h ⟨hkey, hvalue, htoken, hsize⟩

variable {req : Request} {authToken frame : Bytes}

theorem decode_encode (h : req.Canonical authToken) (he : req.encode authToken = some frame)
    (extra : Bytes) :
    decode (frame ++ extra) = .ok ({ req with ttl := req.ttl.map (· % 2 ^ 32) }, authToken) := by
  obtain ⟨hkey, hvalue, -, hsize, rfl⟩ := Request.encode_eq_some.mp he
  obtain ⟨R, hexact, -, hwrites⟩ := exact_readRequest req.opcode
  rw [decode, parseFrame_frameOf (req.length_payload authToken ▸ hsize)]
  simp only [Bind.bind, Except.bind, Opcode.ofCode_code]
  exact (finish_eq_ok hexact).mpr
    ⟨_, [], (append_nil _).symm, hwrites req authToken rfl h hkey hvalue⟩

theorem encode_of_decode (h : decode frame = .ok (req, authToken)) :
    req.Canonical authToken ∧ (∀ t ∈ req.ttl, t < 2 ^ 32) ∧
      ∃ frame', req.encode authToken = some frame' := by
  rw [decode] at h
  cases hp : parseFrame frame with
  | error e => rw [hp] at h; cases h
  | ok p =>
    simp only [hp, Bind.bind, Except.bind] at h
    split at h
    · cases h
    · obtain ⟨R, hexact, hreads, -⟩ := exact_readRequest _
      obtain ⟨w, r, hw, hR⟩ := (finish_eq_ok hexact).mp h
      obtain ⟨hcanon, httl, hsize⟩ := hreads req authToken w r hR
      have hlen := length_of_parseFrame hp
      rw [hw, length_append] at hlen
      have hmax : kMaxMessageSize - kFrameHeaderSize < 2 ^ 32 := by decide
      have hfields : req.key.length ≤ req.payloadSize authToken ∧
          req.value.length ≤ req.payloadSize authToken := by
        rw [Request.payloadSize]
        omega
      exact ⟨hcanon, httl, _, Request.encode_eq_some.mpr
        ⟨by omega, by omega, hcanon.token, by omega, rfl⟩⟩

theorem ttl_mod_eq : req.ttl.map (· % 2 ^ 32) = req.ttl ↔ ∀ t ∈ req.ttl, t < 2 ^ 32 := by
  cases req.ttl <;> simp

/-- A request arrives as it was sent, or is refused as too large. -/
def Request.Survives (req : Request) (authToken : Bytes) : Prop :=
  (∀ frame extra, req.encode authToken = some frame →
    decode (frame ++ extra) = .ok (req, authToken)) ∧
  (req.encode authToken = none → kMaxMessageSize < kFrameHeaderSize + req.payloadSize authToken)

/-- **A request survives the wire if and only if its TTL fits into 32 bits** or it is too large. -/
theorem request_survives_iff (h : req.Canonical authToken) :
    req.Survives authToken ↔ (∀ t ∈ req.ttl, t < 2 ^ 32) ∨
      kMaxMessageSize < kFrameHeaderSize + req.payloadSize authToken := by
  have hhead : kFrameHeaderSize ≤ kMaxMessageSize := by decide
  have hfits : req.encode authToken = none →
      kMaxMessageSize < kFrameHeaderSize + req.payloadSize authToken := by
    intro hnone
    by_contra hle
    have hmax : kMaxMessageSize < 2 ^ 32 := by decide
    have hsize : req.key.length + req.value.length ≤ req.payloadSize authToken := by
      rw [Request.payloadSize]
      omega
    have hsome : req.encode authToken = some (frameOf req.opcode.code (req.payload authToken)) :=
      Request.encode_eq_some.mpr ⟨by omega, by omega, h.token, by omega, rfl⟩
    rw [hnone] at hsome
    cases hsome
  cases he : req.encode authToken with
  | none => exact ⟨fun _ => .inr (hfits he), fun _ => ⟨by simp [he], hfits⟩⟩
  | some frame =>
    have hsize := (Request.encode_eq_some.mp he).2.2.2.1
    have hwire : req.Survives authToken ↔ req.ttl.map (· % 2 ^ 32) = req.ttl := by
      constructor
      · intro hs
        have hsame := (decode_encode h he []).symm.trans (hs.1 frame [] he)
        exact congrArg (·.1.ttl) (Except.ok.inj hsame)
      · intro hsame
        refine ⟨fun frame' extra he' => ?_, hfits⟩
        rw [decode_encode h he' extra, hsame]
    rw [hwire, or_iff_left (by omega), ttl_mod_eq]

theorem request_survives_short_ttl :
    ({ opcode := .set, key := [1], ttl := some 5 } : Request).Survives [] :=
  (request_survives_iff ⟨by simp, by simp, .inl rfl⟩).mpr (.inl (by simp))

/-- A TTL of `2 ^ 32` milliseconds, 49.7 days, arrives as no time at all. -/
theorem long_ttl_arrives_as_zero :
    ¬ ({ opcode := .set, key := [1], ttl := some (2 ^ 32) } : Request).Survives [] := by
  intro h
  have hcanon : ({ opcode := .set, key := [1], ttl := some (2 ^ 32) } : Request).Canonical [] :=
    ⟨by simp, by simp, .inl rfl⟩
  cases congrArg (·.1.ttl) (Except.ok.inj ((decode_encode hcanon rfl []).symm.trans (h.1 _ [] rfl)))

/-! ## 4. Responses -/

/-- A response as the codec has it: `Errc` is an enumeration over `uint8_t`, and a status is any
byte. -/
structure WireResponse where
  status : UInt8 := 0
  value : Option Bytes := none
  version : UInt64 := 0
  writerNodeHash : UInt64 := 0
  expiresAt : Option Nanos := none
  tombstone : Bool := false
  traceId : UInt64 := 0
  spanId : UInt64 := 0
  deriving DecidableEq, Repr

namespace WireResponse

variable (res : WireResponse)

def flags : Flags :=
  ⟨res.version != 0 || res.writerNodeHash != 0, res.expiresAt.isSome, res.traceId != 0, false,
    res.tombstone⟩

def payload : Bytes :=
  [res.status] ++ ([res.flags.toByte] ++
    ((bif res.flags.first then pairBytes (res.version, res.writerNodeHash) else []) ++
    (res.expiresAt.elim [] (fun t => beBytes 8 (millisOf t).toNat) ++
    (beBytes 4 (bif res.value.isSome then 1 else 0) ++
    (res.value.getD [] ++ traceBytes res.traceId res.spanId)))))

def encode : Option Bytes :=
  if res.payload.length ≤ kMaxMessageSize - kFrameHeaderSize then some (frameOf 0 res.payload)
  else none

end WireResponse

def readResponse : Decoder UInt8 WireResponse := do
  let status ← readByte
  let b ← whenLeft true 1 0 readByte
  let flags := Flags.ofByte b
  let stamp ← Decoder.when flags.first readPair
  let expiresAt ← Decoder.when flags.expiresAt readExpiry
  let hasVal ← readBe 4
  let value ← Decoder.when (hasVal != 0) (takeRest (bif flags.trace then 16 else 0))
  let trace ← readTrace flags.trace
  pure { status, value, version := (stamp.getD (0, 0)).1, writerNodeHash := (stamp.getD (0, 0)).2
         expiresAt, tombstone := flags.tombstone, traceId := trace.1, spanId := trace.2 }

def decodeResponse (frame : Bytes) : Except String WireResponse := do
  let (_, payload) ← parseFrame frame
  finish readResponse payload

structure WireResponse.Canonical (res : WireResponse) : Prop where
  expiry : ∀ t ∈ res.expiresAt, Acceptable t
  span : res.traceId = 0 → res.spanId = 0

theorem exact_readResponse : ∃ R, Exact readResponse R ∧
    (∀ res w r, R res w r → res.Canonical ∧ res.payload.length ≤ w.length) ∧
    ∀ res : WireResponse, res.Canonical → R res res.payload [] := by
  refine ⟨_, exact_readByte.bind fun status => (exact_readByte.whenLeft true 1 0).bind fun b =>
    (exact_readPair.when _).bind fun stamp => (exact_readExpiry.when _).bind fun expiresAt =>
    (exact_readBe 4).bind fun hasVal =>
    ((exact_takeRest _).when _).bind fun value => (exact_readTrace _).map _, ?_, ?_⟩
  · rintro res w r ⟨status, _, _, rfl, rfl, b, t, _, rfl, hb, stamp, u, _, rfl, ⟨-, hstamp⟩,
      expiresAt, v, _, rfl, ⟨-, hexp⟩, hasVal, _, _, rfl, ⟨-, rfl⟩, value, x, y, rfl, ⟨-, hvalue⟩,
      trace, rfl, htrace⟩
    rw [if_pos ⟨rfl, by simp only [length_append, length_beBytes]; omega⟩] at hb
    have hx : (value.getD []).length ≤ x.length := by
      cases value with
      | none => exact Nat.zero_le _
      | some a => exact hvalue.1 ▸ le_rfl
    have hv : (expiresAt.elim [] fun t => beBytes 8 (millisOf t).toNat).length ≤ v.length := by
      cases expiresAt <;> simp_all
    have hy := htrace.sound.2
    rw [← length_traceBytes trace.1 trace.2] at hy
    refine ⟨⟨?_, htrace.sound.1⟩, ?_⟩
    · rintro t ⟨⟩
      exact hexp.1
    · have hu : (bif (stamp.getD (0, 0)).1 != 0 || (stamp.getD (0, 0)).2 != 0 then
          pairBytes ((stamp.getD (0, 0)).1, (stamp.getD (0, 0)).2) else []).length ≤ u.length := by
        cases stamp with
        | none => simp
        | some p =>
          rw [hstamp]
          cases ((some p).getD (0, 0)).1 != 0 || ((some p).getD (0, 0)).2 != 0 <;> simp
      simp only [WireResponse.payload, WireResponse.flags, hb, length_append, length_beBytes,
        length_singleton]
      omega
  · rintro res h
    refine ⟨res.status, _, _, rfl, rfl, res.flags.toByte, _, _, rfl, ?_,
      bif res.flags.first then some (res.version, res.writerNodeHash) else none, _, _, rfl, ?_,
      res.expiresAt, _, _, rfl, ?_, bif res.value.isSome then 1 else 0, _, _, rfl, ⟨?_, rfl⟩,
      res.value, _, _, rfl, ?_, (res.traceId, res.spanId), ?_, ?_⟩
    all_goals try rw [Flags.ofByte_toByte]
    · rw [if_pos ⟨rfl, by simp⟩]
    · cases res.flags.first <;> simp
    · refine ⟨rfl, ?_⟩
      cases he : res.expiresAt with
      | none => rfl
      | some t => exact ⟨h.expiry t he, rfl⟩
    · cases res.value.isSome <;> decide
    · refine ⟨by cases res.value <;> rfl, ?_⟩
      cases res.value with
      | none => rfl
      | some a =>
        refine ⟨rfl, ?_⟩
        simp only [WireResponse.flags, append_nil, length_append, length_traceBytes]
        cases h0 : res.traceId != 0 <;> simp_all
    · cases h0 : res.flags.first with
      | true => rfl
      | false =>
        obtain ⟨hversion, hwriter⟩ := Bool.or_eq_false_iff.mp h0
        rw [bne_eq_false_iff_eq] at hversion hwriter
        cases res
        simp_all [WireResponse.flags]
    · exact traceWord_traceBytes h.span _

theorem WireResponse.encode_eq_some {res : WireResponse} {frame : Bytes} :
    res.encode = some frame ↔ res.payload.length ≤ kMaxMessageSize - kFrameHeaderSize ∧
      frameOf 0 res.payload = frame := by
  rw [encode, ite_none_right_eq_some, some.injEq]

theorem decodeResponse_encode {res : WireResponse} {frame : Bytes} (h : res.Canonical)
    (he : res.encode = some frame) (extra : Bytes) : decodeResponse (frame ++ extra) = .ok res := by
  obtain ⟨hsize, rfl⟩ := WireResponse.encode_eq_some.mp he
  obtain ⟨R, hexact, -, hwrites⟩ := exact_readResponse
  rw [decodeResponse, parseFrame_frameOf hsize]
  exact (finish_eq_ok hexact).mpr ⟨_, [], (append_nil _).symm, hwrites res h⟩

/-- **Responses survive the wire unchanged**: the value ends where the trace begins. -/
theorem responses_survive (res : WireResponse) (h : res.Canonical) :
    ∀ frame, res.encode = some frame → decodeResponse frame = .ok res := by
  intro frame he
  simpa using decodeResponse_encode h he []

theorem responses_survive_empty_value :
    decodeResponse [0xC1, 5, 0, 0, 0, 0, 22, 0, 4, 0, 0, 0, 1, 0, 0, 0, 0, 0, 0, 0, 9, 0, 0, 0, 0,
      0, 0, 0, 8] = .ok { value := some [], traceId := 9, spanId := 8 } :=
  responses_survive { value := some [], traceId := 9, spanId := 8 } ⟨by simp, by decide⟩ _
    (by decide +kernel)

theorem encode_of_decodeResponse {res : WireResponse} {frame : Bytes}
    (h : decodeResponse frame = .ok res) : res.Canonical ∧ ∃ frame', res.encode = some frame' := by
  rw [decodeResponse] at h
  cases hp : parseFrame frame with
  | error e => rw [hp] at h; cases h
  | ok p =>
    rw [hp] at h
    obtain ⟨R, hexact, hreads, -⟩ := exact_readResponse
    obtain ⟨w, r, hw, hR⟩ := (finish_eq_ok hexact).mp h
    obtain ⟨hcanon, hsize⟩ := hreads res w r hR
    have hlen := length_of_parseFrame hp
    rw [hw, length_append] at hlen
    exact ⟨hcanon, _, WireResponse.encode_eq_some.mpr ⟨by omega, rfl⟩⟩

/-- **Decoding canonicalises**: what either decoder accepts can be encoded, and the encoding is
decoded to the same message. -/
theorem decoded_messages_reencode (frame : Bytes) :
    (∀ req authToken, decode frame = .ok (req, authToken) →
      ∃ frame', req.encode authToken = some frame' ∧ decode frame' = .ok (req, authToken)) ∧
    ∀ res, decodeResponse frame = .ok res →
      ∃ frame', res.encode = some frame' ∧ decodeResponse frame' = .ok res := by
  constructor
  · intro req authToken h
    obtain ⟨hcanon, httl, frame', he⟩ := encode_of_decode h
    have hdec := decode_encode hcanon he []
    rw [append_nil, ttl_mod_eq.mpr httl] at hdec
    exact ⟨frame', he, hdec⟩
  · intro res h
    obtain ⟨hcanon, frame', he⟩ := encode_of_decodeResponse h
    have hdec := decodeResponse_encode hcanon he []
    rw [append_nil] at hdec
    exact ⟨frame', he, hdec⟩

/-! ## 5. A batch of responses -/

def ofFrame (frame : Bytes) : Decoder UInt8 WireResponse :=
  match decodeResponse frame with
  | .ok res => pure res
  | .error _ => reject

/-- One round of the reading loop of `sendBatchCoroutine`: the header, then as many bytes as it
says. A connection that ends inside one is `short`. -/
def readReply : Decoder UInt8 WireResponse := do
  let header ← take kFrameHeaderSize
  let payloadLen := leNat ((header.drop 3).take 4).reverse
  if header.getD 0 0 ≠ kMagic then reject
  else if kMaxMessageSize < payloadLen then reject
  else do
    let payload ← take payloadLen
    ofFrame (header ++ payload)

def readBatch : Nat → Decoder UInt8 (List WireResponse)
  | 0 => pure []
  | n + 1 => do
    let res ← readReply
    let rest ← readBatch n
    pure (res :: rest)

theorem codes_readReply {res : WireResponse} {frame : Bytes} (h : res.Canonical)
    (he : res.encode = some frame) : Codes readReply frame res := by
  have hdec := decodeResponse_encode h he []
  obtain ⟨hsize, rfl⟩ := WireResponse.encode_eq_some.mp he
  have hlt : res.payload.length < 256 ^ 4 := hsize.trans_lt (by decide)
  have hframe : frameOf 0 res.payload =
      (kMagic :: kVersion :: 0 :: beBytes 4 res.payload.length) ++ res.payload := rfl
  rw [hframe, append_nil] at hdec
  rw [hframe]
  refine (codes_take_of_length (by simp [kFrameHeaderSize])).bind ?_
  have hlen : leNat ((beBytes 4 res.payload.length).take 4).reverse = res.payload.length := by
    rw [take_of_length_le (length_beBytes ..).le, beBytes, reverse_reverse, leNat_leBytes_of_lt hlt]
  simp only [drop_succ_cons, drop_zero, hlen, getD_cons_zero]
  rw [if_neg (by simp), if_neg (by omega)]
  have hbody : Codes (ofFrame (kMagic :: kVersion :: 0 :: beBytes 4 res.payload.length ++
      res.payload)) [] res := by
    rw [ofFrame, hdec]
    exact codes_pure res
  have hread := (codes_take res.payload).bind (f := fun p => ofFrame (_ ++ p)) hbody
  rwa [append_nil] at hread

/-- **A batch is split where its frames end**: wherever the frames of some responses stand in a
stream, they are read as these, and a stream that ends inside them is read as no batch. -/
theorem batch_survives (responses : List WireResponse) (h : ∀ res ∈ responses, res.Canonical)
    (frames : List Bytes) (he : responses.mapM WireResponse.encode = some frames) :
    Codes (readBatch responses.length) frames.flatten responses := by
  induction responses generalizing frames with
  | nil =>
    cases he
    exact codes_pure []
  | cons res responses ih =>
    obtain ⟨hres, hrest⟩ := forall_mem_cons.mp h
    simp only [mapM_cons, bind_eq_bind, bind_eq_some_iff, Option.pure_def, some.injEq] at he
    obtain ⟨frame, hframe, frames, hframes, rfl⟩ := he
    exact (codes_readReply hres hframe).bind ((ih hrest frames hframes).map (res :: ·))

theorem batch_survives_two : ∃ frames,
    [({} : WireResponse), { status := 1 }].mapM WireResponse.encode = some frames ∧
      Codes (readBatch 2) frames.flatten [{}, { status := 1 }] :=
  ⟨_, rfl, batch_survives [{}, { status := 1 }] (forall_mem_cons.mpr ⟨⟨by simp, by simp⟩,
    forall_mem_singleton.mpr ⟨by simp, by simp⟩⟩) _ rfl⟩

end Cinder
