/-
One TCP connection as the state machine its strand executes
(`src/net/tcp/connection.cpp`).

The strand serialises every access to the connection, so an interleaving is a list of events: a
frame has been read, an operation handed to `CacheOperations` has completed, the socket write in
progress has completed, and the error and drain paths. `framesRead`, the tags and `pushed` are
bookkeeping: no branch reads them.
-/
import Cinder.Common.Text
import Cinder.Lib.Transition
import Cinder.Net.Protocol

namespace Cinder

open Option List Transition

/-! ## 1. The request handlers -/

inductive OpcodeClass where
  | client | replication | admin
  deriving DecidableEq, Repr

def classifyOpcode : Opcode → OpcodeClass
  | .replicate | .hint | .gossip | .antiEntropyDigest | .antiEntropySync => .replication
  | .adminInfo | .adminCluster | .adminRing | .adminCompact | .adminConfigReload
  | .adminShutdown => .admin
  | _ => .client

/-- What a connection is configured with: which collaborators and secrets are present. -/
structure ConnConfig where
  metrics : Bool := true
  clusterAuth : Bool := false
  clientAuth : Bool := false
  antiEntropy : Bool := true
  quorum : Bool := true

/-- What the other components answer while one request is handled: token checks, the ring (`none`:
this node owns the key), the store, and the response a synchronous handler prepares. -/
structure Lookups where
  nodeTokenOk : Bool := true
  clientTokenOk : Bool := true
  redirect : Option Bytes := none
  resident : Bool := true
  reply : Response := {}

variable (cfg : ConnConfig)

/-- Without a cluster secret, replication opcodes fall through to the client
check. -/
def checkAuth (cls : OpcodeClass) (look : Lookups) : Bool :=
  if cls = .replication ∧ cfg.clusterAuth then look.nodeTokenOk
  else if cls = .admin then
    if cfg.clientAuth then look.clientTokenOk
    else if cfg.clusterAuth then look.nodeTokenOk
    else true
  else if cfg.clientAuth then look.clientTokenOk
  else true

variable (req : Request)

/-- Reads and pings are served anywhere. -/
def checkWriteOwnership (look : Lookups) : Bool :=
  req.opcode = .ping ∨ req.opcode = .get ∨ req.opcode = .getVersioned ∨ look.redirect = none

def echoTrace (res : Response) : Response :=
  { res with traceId := req.traceId, spanId := req.spanId }

def denyResponse : Response := echoTrace req { status := .permissionDenied }

def redirectValue (owner : Bytes) (addr : Option (Bytes × Nat)) : Bytes :=
  text "moved to " ++ owner ++
    match addr with
    | some (host, port) =>
      if port ≠ 0 ∧ host ≠ [] then text "@" ++ host ++ text ":" ++ decimal port else []
    | none => []

def redirectResponse (owner : Bytes) : Response :=
  echoTrace req { status := .notReady, value := some owner }

/-- The response of a synchronous opcode, `none` for the three that are
handed to `CacheOperations`. -/
def dispatchRequest (req : Request) (look : Lookups) : Option Response :=
  match req.opcode with
  | .get | .set | .del => none
  | .getVersioned =>
    if look.resident then some (echoTrace req look.reply)
    else match look.redirect with
      | some owner => some (redirectResponse req owner)
      | none => some (echoTrace req { status := .notFound })
  | .ping => some (echoTrace req {})
  | .antiEntropyDigest | .antiEntropySync =>
    if cfg.antiEntropy then some look.reply else some (echoTrace req {})
  | _ => some (echoTrace req look.reply)

/-- What `handleRequest` answers on the spot: a denial, a redirect, or the dispatched
response. -/
def answerNow (req : Request) (look : Lookups) : Option Response :=
  if checkAuth cfg (classifyOpcode req.opcode) look = false then some (denyResponse req)
  else if classifyOpcode req.opcode = .client ∧ checkWriteOwnership req look = false then
    some (redirectResponse req (look.redirect.getD []))
  else dispatchRequest cfg req look

/-- The result of an operation, and the ring's answer when the completion asks again. -/
structure OpResult where
  outcome : Except Errc Bytes
  redirect : Option Bytes := none

/-- The response the completion handlers of `handleGet` and `onWriteComplete` build. -/
def opResponse (req : Request) (r : OpResult) : Response :=
  match req.opcode, r.outcome with
  | .get, .ok v => echoTrace req { status := .ok, value := some v }
  | .get, .error e =>
    match r.redirect with
    | some owner =>
      if e = .notFound ∧ cfg.quorum = false then redirectResponse req owner
      else echoTrace req { status := e }
    | none => echoTrace req { status := e }
  | _, .ok _ => echoTrace req { status := .ok }
  | _, .error e => echoTrace req { status := e }

/-! ## 2. The connection -/

def kBufferSize : Nat := 1048576

/-- The size check of `onHeader`: what a connection agrees to read. -/
def acceptsPayload (payloadLen : Nat) : Bool :=
  payloadLen ≤ kMaxMessageSize && payloadLen + kFrameHeaderSize ≤ kBufferSize

/-- The request encodes, and the connection it is sent to agrees to read it. -/
def Request.arrives (authToken : Bytes) : Bool :=
  (req.frameSize authToken).isSome && acceptsPayload (req.payloadSize authToken)

theorem Request.arrives_iff {req : Request} {authToken : Bytes}
    (hauth : authToken = [] ∨ authToken.length = 32) :
    req.arrives authToken = true ↔ req.payloadSize authToken ≤ 1048569 := by
  have hkey : req.key.length ≤ req.payloadSize authToken := by
    unfold Request.payloadSize
    omega
  have hvalue : req.value.length ≤ req.payloadSize authToken := by
    unfold Request.payloadSize
    omega
  have hmessage : kMaxMessageSize = 67108864 := rfl
  have hheader : kFrameHeaderSize = 7 := rfl
  have hbuffer : kBufferSize = 1048576 := rfl
  simp only [Request.arrives, acceptsPayload, Request.frameSize, isSome_ite,
    Bool.and_eq_true, decide_eq_true_eq]
  constructor
  · rintro ⟨-, -, h⟩
    omega
  · intro h
    exact ⟨⟨by omega, by omega, hauth, by omega⟩, by omega, by omega⟩

def kMaxWriteQueue : Nat := 64

def kMaxWriteQueueBytes : Nat := 4 * 1024 * 1024

/-- A response on its way out, with the position of its request in the order of reading. -/
abbrev Tagged := Nat × Response

structure Conn where
  isOpen : Bool := true
  reading : Bool := false
  writing : Bool := false
  draining : Bool := false
  pendingOpcode : Option Opcode := none
  writeQueue : List (Tagged × Nat) := []
  writeQueueBytes : Nat := 0
  /-- read chains (header, then payload) in flight -/
  readsInFlight : Nat := 0
  /-- requests handed to `CacheOperations` and not completed -/
  opsInFlight : List (Nat × Request) := []
  framesRead : Nat := 0
  pushed : List Tagged := []

namespace Conn

variable (c : Conn)

def closeConnection : Conn := { c with isOpen := false }

def maybeRead : Conn :=
  if c.draining ∨ (c.reading = false ∧ c.writeQueue.length < kMaxWriteQueue ∧
      c.writeQueueBytes < kMaxWriteQueueBytes) then
    { c with reading := true, readsInFlight := c.readsInFlight + 1 }
  else c

def doWrite : Conn := { c with writing := !c.writeQueue.isEmpty }

variable (cfg : ConnConfig)

/-- The metrics branch of `sendResponse`, the only one that resets `pending_opcode_`. -/
def recordLatency (c : Conn) : Conn :=
  if c.pendingOpcode.isSome ∧ cfg.metrics then { c with pendingOpcode := none } else c

def push (res : Tagged) (size : Nat) : Conn :=
  { c with
    writeQueue := c.writeQueue ++ [(res, size)]
    writeQueueBytes := c.writeQueueBytes + size
    pushed := c.pushed ++ [res] }

def closeIfDrained : Conn :=
  if c.draining ∧ c.pendingOpcode = none ∧ c.writeQueue = [] ∧ c.writing = false then
    c.closeConnection
  else c

def sendResponse (c : Conn) (tag : Nat) (res : Response) : Conn :=
  let c := c.recordLatency cfg
  match res.frameSize with
  | none => c.closeConnection
  | some size =>
    let c := c.push (tag, res) size
    if c.writeQueueBytes > kMaxWriteQueueBytes then c.closeConnection
    else (if c.writing then c else c.doWrite).closeIfDrained

def handleRequest (c : Conn) (tag : Nat) (req : Request) (look : Lookups) :
    Conn :=
  let c := { c with pendingOpcode := some req.opcode }
  match answerNow cfg req look with
  | some res => (c.sendResponse cfg tag res).maybeRead
  | none => { c with opsInFlight := c.opsInFlight ++ [(tag, req)] }

/-- `onPayload` without a socket error. A frame that does not decode is answered without
asking for the next one: its write completion does. -/
def onPayload (c : Conn) (frame : Option Request) (look : Lookups) : Conn :=
  let tag := c.framesRead
  let c := { c with reading := false, readsInFlight := c.readsInFlight - 1, framesRead := tag + 1 }
  match frame with
  | none => c.sendResponse cfg tag { status := .invalidArgument }
  | some req => c.handleRequest cfg tag req look

def onOperation (c : Conn) (tag : Nat) (req : Request) (r : OpResult) : Conn :=
  let c := { c with opsInFlight := c.opsInFlight.erase (tag, req) }
  (c.sendResponse cfg tag (opResponse cfg req r)).maybeRead

/-- The completion of the write of `write_queue_.front()`. -/
def onWriteDone : Conn :=
  let c := { c with
    writeQueueBytes := c.writeQueueBytes - (c.writeQueue.head?.elim 0 Prod.snd)
    writeQueue := c.writeQueue.tail }
  if c.writeQueue ≠ [] then c.doWrite
  else
    let c := { c with writing := false }
    if c.draining then c.closeConnection else c.maybeRead

def onWriteError : Conn :=
  { c with writeQueue := [], writeQueueBytes := 0, writing := false }.closeConnection

/-- A read fails; only `onPayload` clears the reading flag before it looks at the error. -/
def onReadError (inPayload : Bool) : Conn :=
  { c with
    reading := c.reading && !inPayload
    readsInFlight := c.readsInFlight - 1 }.closeConnection

def drain : Conn :=
  let c := { c with draining := true }
  if c.pendingOpcode = none ∧ c.writeQueue = [] ∧ c.writing = false then c.closeConnection else c

/-- A fresh connection, after `startOnStrand`. -/
def start : Conn := maybeRead {}

end Conn

inductive ConnEvent where
  | frame (frame : Option Request) (look : Lookups)
  | operation (tag : Nat) (req : Request) (r : OpResult)
  | writeDone
  | writeError
  | readError (inPayload : Bool)
  | drain
  | close

/-- One event on the strand; `none` where the event cannot occur. -/
def Conn.step (cfg : ConnConfig) (c : Conn) : ConnEvent → Option Conn
  | .frame f look => if 0 < c.readsInFlight then some (c.onPayload cfg f look) else none
  | .operation tag req r =>
    if (tag, req) ∈ c.opsInFlight then some (c.onOperation cfg tag req r) else none
  | .writeDone => if c.writing then some c.onWriteDone else none
  | .writeError => if c.writing then some c.onWriteError else none
  | .readError inPayload => if 0 < c.readsInFlight then some (c.onReadError inPayload) else none
  | .drain => some c.drain
  | .close => some c.closeConnection

/-! ## 3. What one event does -/

namespace Conn

/-- Equal on the read side and on the operations in flight. -/
structure SameReadSide (c c' : Conn) : Prop where
  reading : c'.reading = c.reading
  draining : c'.draining = c.draining
  readsInFlight : c'.readsInFlight = c.readsInFlight
  opsInFlight : c'.opsInFlight = c.opsInFlight
  framesRead : c'.framesRead = c.framesRead

variable (cfg : ConnConfig) (c : Conn) (tag : Nat) (res : Response)

theorem recordLatency_same :
    SameReadSide c (c.recordLatency cfg) ∧ (c.recordLatency cfg).pushed = c.pushed := by
  unfold recordLatency
  split <;> exact ⟨⟨rfl, rfl, rfl, rfl, rfl⟩, rfl⟩

theorem sendResponse_cases :
    SameReadSide c (c.sendResponse cfg tag res) ∧
      ((c.sendResponse cfg tag res).pushed = c.pushed ++ [(tag, res)] ∨
        (c.sendResponse cfg tag res).pushed = c.pushed ∧
          (c.sendResponse cfg tag res).isOpen = false) := by
  obtain ⟨⟨h1, h2, h3, h4, h5⟩, hpushed⟩ := recordLatency_same cfg c
  unfold sendResponse
  generalize c.recordLatency cfg = d at h1 h2 h3 h4 h5 hpushed ⊢
  cases res.frameSize with
  | none => exact ⟨⟨h1, h2, h3, h4, h5⟩, .inr ⟨hpushed, rfl⟩⟩
  | some size =>
    have hpush : (d.push (tag, res) size).pushed = c.pushed ++ [(tag, res)] := by
      rw [push, hpushed]
    simp only
    split
    · exact ⟨⟨h1, h2, h3, h4, h5⟩, .inl hpush⟩
    · unfold closeIfDrained
      split <;> split <;> exact ⟨⟨h1, h2, h3, h4, h5⟩, .inl hpush⟩

theorem maybeRead_cases (h : c.draining = false) :
    c.maybeRead = c ∨ c.reading = false ∧
      c.maybeRead = { c with reading := true, readsInFlight := c.readsInFlight + 1 } := by
  unfold maybeRead
  split
  · rename_i hread
    rcases hread with hd | ⟨hr, -⟩
    · rw [h] at hd
      cases hd
    · exact .inr ⟨hr, rfl⟩
  · exact .inl rfl

end Conn

/-! ## 4. The order of responses -/

/-- **The order invariant** of an open connection that is not draining: at most one read is in
flight, none while an operation is outstanding, and the requests read so far are those
answered, in order, followed by the outstanding one. -/
structure InOrder (c : Conn) : Prop where
  draining : c.draining = false
  reads : c.readsInFlight = c.reading.toNat
  exclusive : c.reading = true → c.opsInFlight = []
  single : c.opsInFlight.length ≤ 1
  tags : c.pushed.map Prod.fst ++ c.opsInFlight.map Prod.fst = range c.framesRead

/-- What holds in every state: what has been pushed is in order, and while the connection
is open the invariant holds in full. -/
structure OrderInv (c : Conn) : Prop where
  pushed : c.pushed.map Prod.fst = range c.pushed.length
  inOrder : c.isOpen = true → InOrder c

/-- All requests read are answered but the last one, number `tag`, which is being handled. -/
structure Owes (c : Conn) (tag : Nat) : Prop where
  draining : c.draining = false
  reading : c.reading = false
  reads : c.readsInFlight = 0
  opsInFlight : c.opsInFlight = []
  tags : c.pushed.map Prod.fst ++ [tag] = range c.framesRead

variable {c : Conn} {tag : Nat}

theorem pushed_eq_range {rest : List Nat} {n : Nat} (h : c.pushed.map Prod.fst ++ rest = range n) :
    c.pushed.map Prod.fst = range c.pushed.length := by
  have hlen := congrArg List.length h
  have htake := congrArg (take c.pushed.length) h
  simp only [length_append, length_map, length_range] at hlen
  rwa [take_left' (by simp), take_range, Nat.min_eq_left (by omega)] at htake

theorem InOrder.orderInv (h : InOrder c) : OrderInv c := ⟨pushed_eq_range h.tags, fun _ => h⟩

theorem OrderInv.maybeRead (h : OrderInv c) (hdrain : c.draining = false)
    (hops : c.opsInFlight = []) : OrderInv c.maybeRead := by
  rcases c.maybeRead_cases hdrain with heq | ⟨hr, heq⟩
  · rwa [heq]
  · rw [heq]
    refine ⟨h.pushed, fun hopen => ?_⟩
    have hin := h.inOrder hopen
    exact ⟨hdrain, by simp [hin.reads, hr], fun _ => hops, hin.single, hin.tags⟩

theorem Owes.sendResponse (h : Owes c tag) (cfg : ConnConfig) (res : Response) :
    OrderInv (c.sendResponse cfg tag res) := by
  obtain ⟨hside, hpush | ⟨hpush, hclosed⟩⟩ := c.sendResponse_cases cfg tag res
  · apply InOrder.orderInv
    refine ⟨hside.draining.trans h.draining, ?_, ?_, ?_, ?_⟩
    · rw [hside.readsInFlight, hside.reading, h.reads, h.reading]
      rfl
    · rw [hside.opsInFlight]
      exact fun _ => h.opsInFlight
    · rw [hside.opsInFlight, h.opsInFlight]
      exact Nat.zero_le _
    · rw [hpush, hside.opsInFlight, h.opsInFlight, hside.framesRead]
      simpa using h.tags
  · -- the response was dropped: nothing new is pushed, and the connection is closed
    refine ⟨?_, fun hopen => ?_⟩
    · rw [hpush]
      exact pushed_eq_range h.tags
    · rw [hclosed] at hopen
      cases hopen

theorem Owes.reply (h : Owes c tag) (cfg : ConnConfig) (res : Response) :
    OrderInv (c.sendResponse cfg tag res).maybeRead := by
  have hside := (c.sendResponse_cases cfg tag res).1
  exact (h.sendResponse cfg res).maybeRead (hside.draining.trans h.draining)
    (hside.opsInFlight.trans h.opsInFlight)

theorem InOrder.onPayload (h : InOrder c) (hread : 0 < c.readsInFlight) (cfg : ConnConfig)
    (frame : Option Request) (look : Lookups) : OrderInv (c.onPayload cfg frame look) := by
  have hreading : c.reading = true := by
    cases hr : c.reading with
    | true => rfl
    | false => simp [h.reads, hr] at hread
  have hops := h.exclusive hreading
  have hreads : c.readsInFlight - 1 = 0 := by simp [h.reads, hreading]
  have htags : c.pushed.map Prod.fst ++ [c.framesRead] = range (c.framesRead + 1) := by
    rw [range_succ, ← h.tags, hops]
    simp
  unfold Conn.onPayload
  cases frame with
  | none =>
    apply Owes.sendResponse
    exact ⟨h.draining, rfl, hreads, hops, htags⟩
  | some req =>
    simp only [Conn.handleRequest]
    split
    · apply Owes.reply
      exact ⟨h.draining, rfl, hreads, hops, htags⟩
    · -- handed to `CacheOperations`: the request is now the outstanding one
      apply InOrder.orderInv
      refine ⟨h.draining, hreads, Bool.noConfusion, ?_, ?_⟩
      · simp [hops]
      · simpa [hops] using htags

theorem InOrder.onOperation (h : InOrder c) {req : Request} (hmem : (tag, req) ∈ c.opsInFlight)
    (cfg : ConnConfig) (r : OpResult) : OrderInv (c.onOperation cfg tag req r) := by
  have hops : c.opsInFlight = [(tag, req)] := by
    obtain ⟨x, hx⟩ := length_eq_one_iff.mp (le_antisymm h.single (length_pos_of_mem hmem))
    rw [hx, mem_singleton] at hmem
    rw [hx, hmem]
  have hreading : c.reading = false := by
    by_contra hr
    have := h.exclusive (by simpa using hr)
    rw [hops] at this
    cases this
  apply Owes.reply
  refine ⟨h.draining, hreading, ?_, ?_, ?_⟩
  · simp [h.reads, hreading]
  · simp [hops]
  · have := h.tags
    rw [hops] at this
    simpa using this

theorem InOrder.onWriteDone (h : InOrder c) (hidle : c.writeQueue.tail = [] → c.opsInFlight = []) :
    OrderInv c.onWriteDone := by
  unfold Conn.onWriteDone
  simp only
  split
  · exact InOrder.orderInv ⟨h.draining, h.reads, h.exclusive, h.single, h.tags⟩
  · rename_i hempty
    rw [if_neg (by simp [h.draining])]
    refine OrderInv.maybeRead (InOrder.orderInv ?_) h.draining (hidle (by simpa using hempty))
    exact ⟨h.draining, h.reads, h.exclusive, h.single, h.tags⟩

def ConnEvent.ordinary : ConnEvent → Bool
  | .frame _ _ | .operation _ _ _ | .writeDone => true
  | .writeError | .readError _ | .drain | .close => false

/-- No write completion empties the queue while an operation is outstanding. -/
def NoOvertakingRead (c : Conn) : ConnEvent → Prop
  | .writeDone => c.writeQueue.tail = [] → c.opsInFlight = []
  | _ => True

def OrdinaryStep (c : Conn) (ev : ConnEvent) : Prop := c.isOpen = true ∧ ev.ordinary = true

instance (c : Conn) (ev : ConnEvent) : Decidable (OrdinaryStep c ev) :=
  inferInstanceAs (Decidable (_ ∧ _))

instance (c : Conn) : (ev : ConnEvent) → Decidable (NoOvertakingRead c ev)
  | .writeDone => inferInstanceAs (Decidable (_ → _))
  | .frame _ _ | .operation _ _ _ | .writeError | .readError _ | .drain | .close =>
    inferInstanceAs (Decidable True)

/-- **Responses leave in request order**, in every run of ordinary events on an open connection in
which no write completion empties the queue while an operation is outstanding. -/
theorem responses_in_request_order (cfg : ConnConfig) {c : Conn} (h : Reaches (Conn.step cfg)
      (fun c ev => OrdinaryStep c ev ∧ NoOvertakingRead c ev) Conn.start c) :
    c.pushed.map Prod.fst = range c.pushed.length := by
  have hinv : OrderInv c := h.invariant ?_ ?_
  · exact hinv.pushed
  · exact InOrder.orderInv ⟨rfl, rfl, fun _ => rfl, Nat.zero_le _, rfl⟩
  · rintro c ev c' hinv ⟨⟨hopen, hord⟩, hsafe⟩ hstep
    have hin := hinv.inOrder hopen
    cases ev with
    | frame f look =>
      simp only [Conn.step, ite_none_right_eq_some, some.injEq] at hstep
      exact hstep.2 ▸ hin.onPayload hstep.1 cfg f look
    | operation tag req r =>
      simp only [Conn.step, ite_none_right_eq_some, some.injEq] at hstep
      exact hstep.2 ▸ hin.onOperation hstep.1 cfg r
    | writeDone =>
      simp only [Conn.step, ite_none_right_eq_some, some.injEq] at hstep
      exact hstep.2 ▸ hin.onWriteDone hsafe
    | writeError | readError | drain | close => cases hord

theorem responses_in_request_order_get_ping :
    ∃ c, Reaches (Conn.step {})
        (fun c ev => OrdinaryStep c ev ∧ NoOvertakingRead c ev) Conn.start c ∧
      c.pushed.length = 2 ∧ c.pushed.map Prod.fst = range c.pushed.length := by
  obtain ⟨c, hc, hlen⟩ := exists_reaches_of_exec (Conn.step {})
    (fun c ev => OrdinaryStep c ev ∧ NoOvertakingRead c ev) Conn.start
    [.frame (some { opcode := .get, key := [107] }) {},
      .operation 0 { opcode := .get, key := [107] } { outcome := .ok [118] },
      .writeDone, .frame (some { opcode := .ping }) {}] (fun c : Conn => c.pushed.length == 2) rfl
  exact ⟨c, hc, by simpa using hlen, responses_in_request_order {} hc⟩

/-- **A pipelined `Get` is overtaken.** `Ping`, `Get`, `Ping`: the write of the first response
completes while the `Get` is outstanding and starts the read of the second `Ping`, whose response is
pushed first. -/
theorem pipelined_get_overtaken :
    ∃ c, Reaches (Conn.step {}) OrdinaryStep Conn.start c ∧
      c.pushed.map Prod.fst ≠ range c.pushed.length := by
  obtain ⟨c, hc, htags⟩ := exists_reaches_of_exec (Conn.step {}) OrdinaryStep Conn.start
    [.frame (some { opcode := .ping }) {}, .frame (some { opcode := .get, key := [107] }) {},
      .writeDone, .frame (some { opcode := .ping }) {}]
    (fun c : Conn => c.pushed.map Prod.fst == [0, 2]) rfl
  refine ⟨c, hc, ?_⟩
  have htags' : c.pushed.map Prod.fst = [0, 2] := by simpa using htags
  have hlen : c.pushed.length = 2 := by simpa using congrArg List.length htags'
  rw [htags', hlen]
  decide

end Cinder
