/-
One key on a fixed replica set: quorum writes, quorum reads and the messages between
coordinator and replicas, as one transition system.

Any node of the set may coordinate. A message may be delayed for ever, delivered late or
answered with a transport error; a replicated write may also be applied again later, which is
what a replayed hint does. `put` is an entry that comes by any other way: anti-entropy, a
rebalance, a write that was not a quorum write.

No step takes an entry away: eviction and expiry are left out on purpose. `Cluster.reported`,
`ReadCall.before`, `ReadCall.startCopies`, `Flight.heard`, `Flight.failed`, `WriteOp.applied`
and `WriteOp.acked` are history for the statements; no step reads them.
-/
import Cinder.Lib.Transition
import Cinder.Node.Replication

namespace Cinder

open Option Function

/-- The replica set of the key and the read quorum `CacheOperations` passes. -/
structure ClusterConfig where
  key : Key
  nodes : List NodeId
  nodup : nodes.Nodup
  r : Nat
  /-- What a node answers a miss with; `none` where it is the ring owner of the key. -/
  redirect : NodeId → Option Bytes := fun _ => none
  tombstoneGc : Nanos := 0

/-- `replicaNodesFor` on the coordinator `c`. -/
def ClusterConfig.replicas (cfg : ClusterConfig) (c : NodeId) : List NodeId :=
  cfg.nodes.filter fun node => node ≠ c

def ClusterConfig.writeQuorum (cfg : ClusterConfig) (c : NodeId) : Nat :=
  ((cfg.replicas c).length + 1) / 2 + 1

/-! ## 1. Operations under way -/

/-- A quorum write or delete whose fan-out has started. -/
structure WriteOp where
  coordinator : NodeId
  req : Request
  fan : FanOut WriteQuorum
  applied : List NodeId := []
  acked : List NodeId := []

/-- A call of `readAsync` behind its local read. -/
structure ReadCall where
  coordinator : NodeId
  localEntry : Option VersionedEntry
  /-- What had been reported successful, by whom, when the read started. -/
  before : List (NodeId × LwwStamp)
  /-- The copies of all nodes when the read started. -/
  startCopies : NodeId → Table

/-- A coalesced read: the leader's reduce and the calls that wait for it. -/
structure Flight where
  leader : ReadCall
  waiters : List ReadCall := []
  fan : FanOut ReadReducer
  served : List (NodeId × Response) := []
  /-- Replicas whose answer, and replicas whose transport error, was folded. -/
  heard : List NodeId := []
  failed : List NodeId := []
  repair : Option Request := none
  result : Option (Except Errc VersionedEntry) := none

structure Cluster where
  copies : NodeId → Table := fun _ => ∅
  writes : List WriteOp := []
  starting : List ReadCall := []
  flights : List Flight := []
  direct : List (ReadCall × Except Errc VersionedEntry) := []
  /-- Stamps reported successful, with the coordinator that reported them. -/
  reported : List (NodeId × LwwStamp) := []

/-! ## 2. Steps -/

def putCopy (key : Key) (copies : NodeId → Table) (i : NodeId) (entry : VersionedEntry) :
    NodeId → Table :=
  update copies i ((copies i).putVersioned key entry)

/-- The part `writeAsync` and `deleteAsync` share: the local put of `entry`, then the fan-out
of `req`. Without replicas the local write decides. -/
def Cluster.startWrite (cfg : ClusterConfig) (s : Cluster) (c : NodeId) (entry : VersionedEntry)
    (req : Request) : Cluster :=
  let s := { s with copies := putCopy cfg.key s.copies c entry }
  let replicas := cfg.replicas c
  if replicas = [] then { s with reported := s.reported ++ [(c, req.stamp)] }
  else
    { s with
      writes := s.writes ++
        [{ coordinator := c
           req := req
           fan := { state := { pending := replicas.length, w := cfg.writeQuorum c }
                    waiting := replicas } }] }

/-- One completion of the fan-out of `op`. -/
def WriteOp.report (op : WriteOp) (i : NodeId) (ok : Bool) : WriteOp × Bool :=
  let (fan, fire) :=
    op.fan.report (fun q active => q.onEach ok active) WriteQuorum.shouldFire i
  ({ op with
     fan := fan
     acked := if ok && !op.fan.fired then op.acked ++ [i] else op.acked }, fire)

/-- `readAsync` up to its local read. -/
def Cluster.readCall (cfg : ClusterConfig) (s : Cluster) (c : NodeId) : ReadCall where
  coordinator := c
  localEntry := (s.copies c).lookup cfg.key
  before := s.reported
  startCopies := s.copies

def localResult (localEntry : Option VersionedEntry) : Except Errc VersionedEntry :=
  match localEntry with
  | some e => .ok e
  | none => .error .notFound

def Flight.lead (cfg : ClusterConfig) (call : ReadCall) : Flight where
  leader := call
  fan :=
    { state := .start cfg.r (cfg.replicas call.coordinator).length call.localEntry
      waiting := cfg.replicas call.coordinator }

/-- In the registry of its coordinator: `finish` erases a flight when it completes it. -/
def Flight.isOpenFor (f : Flight) (c : NodeId) : Bool :=
  decide (f.leader.coordinator = c) && f.result.isNone

/-- `attach`: join the flight under way, or lead a new one. -/
def attachCall (cfg : ClusterConfig) (call : ReadCall) : List Flight → List Flight
  | [] => [.lead cfg call]
  | f :: fs =>
    if f.isOpenFor call.coordinator then { f with waiters := f.waiters ++ [call] } :: fs
    else f :: attachCall cfg call fs

/-- One completion of the fan-out of a flight. -/
def Flight.report (f : Flight) (i : NodeId) (clk : ClockReading) (answer : Option Response) :
    Flight × Bool :=
  let active := !f.fan.fired
  let (fan, fire) := f.fan.report (fun q active => q.noteRemote clk answer active)
    ReadReducer.shouldFire i
  ({ f with
     fan := fan
     heard := if active && answer.isSome then f.heard ++ [i] else f.heard
     failed := if active && answer.isNone then f.failed ++ [i] else f.failed }, fire)

/-- The decision: complete every waiter with the winner; if some vote disagreed, heal the local
copy and send the winner to the replicas. Returns the entry to put locally. -/
def Flight.decide (cfg : ClusterConfig) (clk : ClockReading) (f : Flight) :
    Flight × Option VersionedEntry :=
  let f := { f with result := some f.fan.state.outcome }
  match f.fan.state.bestEntry with
  | some e =>
    if f.fan.state.needsRepair then
      ({ f with repair := some (repairRequest clk cfg.key e) }, some e)
    else (f, none)
  | none => (f, none)

inductive ClusterEvent where
  /-- The version comes from `mintVersion`; here it is any number that is not zero in an
      entry. -/
  | write (c : NodeId) (clk : ClockReading) (version writer : UInt64) (value : Bytes)
      (ttl : Option Nanos)
  | delete (c : NodeId) (clk : ClockReading) (version writer : UInt64)
  | handleWrite (w : Nat) (i : NodeId) (clk : ClockReading)
  | writeReport (w : Nat) (i : NodeId) (ok : Bool)
  | writeFail (w : Nat)
  | startRead (c : NodeId)
  | attach (j : Nat)
  | handleRead (f : Nat) (i : NodeId) (clk : ClockReading)
  | readReport (f : Nat) (i : NodeId) (clk : ClockReading) (answer : Option Response)
  | readFail (f : Nat)
  | handleRepair (f : Nat) (i : NodeId) (clk : ClockReading)
  /-- Any other versioned write that reaches a node. -/
  | put (i : NodeId) (entry : VersionedEntry)
  deriving DecidableEq, Repr

def Cluster.step (cfg : ClusterConfig) (s : Cluster) : ClusterEvent → Option Cluster
  | .write c clk version writer value ttl =>
    let entry := writeEntry clk version writer value ttl
    if c ∈ cfg.nodes ∧ entry.version ≠ 0 then
      some (s.startWrite cfg c entry (writeRequest clk cfg.key version writer value ttl))
    else none
  | .delete c clk version writer =>
    let tomb := tombstoneEntry clk cfg.tombstoneGc version writer
    let resident := (putCopy cfg.key s.copies c tomb c).lookup cfg.key
    if c ∈ cfg.nodes ∧ tomb.version ≠ 0 then
      some (s.startWrite cfg c tomb (deleteRequest clk cfg.key version writer resident))
    else none
  | .handleWrite w i clk =>
    match s.writes[w]? with
    | some op =>
      if i ∈ cfg.replicas op.coordinator then
        some { s with
          copies := update s.copies i
            ((s.copies i).handleReplicate clk cfg.tombstoneGc op.req)
          writes := s.writes.set w { op with applied := op.applied ++ [i] } }
      else none
    | none => none
  | .writeReport w i ok =>
    match s.writes[w]? with
    | some op =>
      if i ∈ op.fan.waiting ∧ (ok = true → i ∈ op.applied) then
        let (op', fire) := op.report i ok
        let s := { s with writes := s.writes.set w op' }
        if fire ∧ op'.fan.state.w ≤ op'.fan.state.acks then
          some { s with reported := s.reported ++ [(op.coordinator, op.req.stamp)] }
        else some s
      else none
    | none => none
  | .writeFail w =>
    match s.writes[w]? with
    | some op =>
      if op.fan.fired = false then
        some { s with writes := s.writes.set w { op with fan := { op.fan with fired := true } } }
      else none
    | none => none
  | .startRead c =>
    if c ∈ cfg.nodes then
      let call := s.readCall cfg c
      if cfg.replicas c = [] ∨ cfg.r ≤ 1 then
        some { s with direct := s.direct ++ [(call, localResult call.localEntry)] }
      else some { s with starting := s.starting ++ [call] }
    else none
  | .attach j =>
    match s.starting[j]? with
    | some call =>
      some { s with starting := s.starting.eraseIdx j, flights := attachCall cfg call s.flights }
    | none => none
  | .handleRead f i clk =>
    match s.flights[f]? with
    | some fl =>
      if i ∈ cfg.replicas fl.leader.coordinator then
        let res := getVersionedResponse clk (cfg.redirect i) ((s.copies i).lookup cfg.key)
        some { s with flights := s.flights.set f { fl with served := fl.served ++ [(i, res)] } }
      else none
    | none => none
  | .readReport f i clk answer =>
    match s.flights[f]? with
    | some fl =>
      if i ∈ fl.fan.waiting ∧ (∀ res ∈ answer, (i, res) ∈ fl.served) then
        let (fl', fire) := fl.report i clk answer
        if fire then
          let (fl'', heal) := fl'.decide cfg clk
          let s := { s with flights := s.flights.set f fl'' }
          match heal with
          | some e => some { s with copies := putCopy cfg.key s.copies fl.leader.coordinator e }
          | none => some s
        else some { s with flights := s.flights.set f fl' }
      else none
    | none => none
  | .readFail f =>
    match s.flights[f]? with
    | some fl =>
      if fl.fan.fired = false then
        some { s with
          flights := s.flights.set f
            { fl with fan := { fl.fan with fired := true }, result := some (.error .notReady) } }
      else none
    | none => none
  | .handleRepair f i clk =>
    match s.flights[f]? with
    | some fl =>
      match fl.repair with
      | some req =>
        if i ∈ cfg.replicas fl.leader.coordinator then
          some { s with
            copies := update s.copies i
              ((s.copies i).handleReplicate clk cfg.tombstoneGc req) }
        else none
      | none => none
    | none => none
  | .put i entry => some { s with copies := putCopy cfg.key s.copies i entry }

/-! ## 3. What a step can do -/

/-- The cases of `Cluster.step`, with their guards. `write` and `delete` differ only in the entry
and the request, which agree in their stamp. -/
inductive ClusterStep (cfg : ClusterConfig) (s : Cluster) : ClusterEvent → Cluster → Prop where
  | start {e : ClusterEvent} {c : NodeId} {entry : VersionedEntry} {req : Request}
      (hc : c ∈ cfg.nodes) (hkey : req.key = cfg.key) (hstamp : stampOf entry = req.stamp)
      (hne : entry.version ≠ 0) : ClusterStep cfg s e (s.startWrite cfg c entry req)
  | handleWrite {w : Nat} {i : NodeId} {clk : ClockReading} {op : WriteOp}
      (hop : s.writes[w]? = some op) :
      ClusterStep cfg s (.handleWrite w i clk)
        { s with
          copies := update s.copies i
            ((s.copies i).handleReplicate clk cfg.tombstoneGc op.req)
          writes := s.writes.set w { op with applied := op.applied ++ [i] } }
  | writeReport {w : Nat} {i : NodeId} {ok : Bool} {op : WriteOp} (hop : s.writes[w]? = some op)
      (hi : i ∈ op.fan.waiting) (hok : ok = true → i ∈ op.applied) :
      ClusterStep cfg s (.writeReport w i ok) { s with writes := s.writes.set w (op.report i ok).1 }
  | reported {w : Nat} {i : NodeId} {ok : Bool} {op : WriteOp} (hop : s.writes[w]? = some op)
      (hi : i ∈ op.fan.waiting) (hok : ok = true → i ∈ op.applied)
      (hw : (op.report i ok).1.fan.state.w ≤ (op.report i ok).1.fan.state.acks) :
      ClusterStep cfg s (.writeReport w i ok)
        { s with
          writes := s.writes.set w (op.report i ok).1
          reported := s.reported ++ [(op.coordinator, op.req.stamp)] }
  | writeFail {w : Nat} {op : WriteOp} (hop : s.writes[w]? = some op) :
      ClusterStep cfg s (.writeFail w)
        { s with writes := s.writes.set w { op with fan := { op.fan with fired := true } } }
  | direct {c : NodeId} (hc : c ∈ cfg.nodes) (hlocal : cfg.replicas c = [] ∨ cfg.r ≤ 1) :
      ClusterStep cfg s (.startRead c)
        { s with direct :=
          s.direct ++ [(s.readCall cfg c, localResult (s.readCall cfg c).localEntry)] }
  | startRead {c : NodeId} (hc : c ∈ cfg.nodes) :
      ClusterStep cfg s (.startRead c) { s with starting := s.starting ++ [s.readCall cfg c] }
  | attach {j : Nat} {call : ReadCall} (hcall : s.starting[j]? = some call) :
      ClusterStep cfg s (.attach j)
        { s with starting := s.starting.eraseIdx j, flights := attachCall cfg call s.flights }
  | handleRead {f : Nat} {i : NodeId} {clk : ClockReading} {fl : Flight}
      (hfl : s.flights[f]? = some fl) :
      ClusterStep cfg s (.handleRead f i clk)
        { s with
          flights := s.flights.set f
            { fl with
              served := fl.served ++
                [(i, getVersionedResponse clk (cfg.redirect i) ((s.copies i).lookup cfg.key))] } }
  | readReport {f : Nat} {i : NodeId} {clk : ClockReading} {answer : Option Response}
      {fl fl' : Flight} (hfl : s.flights[f]? = some fl) (hi : i ∈ fl.fan.waiting)
      (hans : ∀ res ∈ answer, (i, res) ∈ fl.served)
      (hrep : fl.report i clk answer = (fl', false)) :
      ClusterStep cfg s (.readReport f i clk answer) { s with flights := s.flights.set f fl' }
  | decided {f : Nat} {i : NodeId} {clk : ClockReading} {answer : Option Response}
      {fl fl' : Flight} {copies : NodeId → Table} (hfl : s.flights[f]? = some fl)
      (hi : i ∈ fl.fan.waiting) (hans : ∀ res ∈ answer, (i, res) ∈ fl.served)
      (hrep : fl.report i clk answer = (fl', true))
      (hcopies : copies = s.copies ∨
        ∃ e, copies = putCopy cfg.key s.copies fl.leader.coordinator e) :
      ClusterStep cfg s (.readReport f i clk answer)
        { s with flights := s.flights.set f (fl'.decide cfg clk).1, copies := copies }
  | readFail {f : Nat} {fl : Flight} (hfl : s.flights[f]? = some fl)
      (hopen : fl.fan.fired = false) :
      ClusterStep cfg s (.readFail f)
        { s with
          flights := s.flights.set f
            { fl with fan := { fl.fan with fired := true }, result := some (.error .notReady) } }
  | handleRepair {f : Nat} {i : NodeId} {clk : ClockReading} {req : Request} :
      ClusterStep cfg s (.handleRepair f i clk)
        { s with
          copies := update s.copies i
            ((s.copies i).handleReplicate clk cfg.tombstoneGc req) }
  | put {i : NodeId} {entry : VersionedEntry} :
      ClusterStep cfg s (.put i entry) { s with copies := putCopy cfg.key s.copies i entry }

theorem clusterStep {cfg : ClusterConfig} {s s' : Cluster} {e : ClusterEvent}
    (h : s.step cfg e = some s') : ClusterStep cfg s e s' := by
  cases e with
  | write c clk version writer value ttl =>
    simp only [Cluster.step] at h
    split at h
    · rename_i hg
      cases h
      exact .start hg.1 rfl (stampOf_writeEntry _ _ _ _ _) hg.2
    · cases h
  | delete c clk version writer =>
    simp only [Cluster.step] at h
    split at h
    · rename_i hg
      cases h
      exact .start hg.1 rfl (stampOf_tombstoneEntry _ _ _ _) hg.2
    · cases h
  | handleWrite w i clk =>
    simp only [Cluster.step] at h
    split at h
    · rename_i op hop
      split at h
      · cases h
        exact .handleWrite hop
      · cases h
    · cases h
  | writeReport w i ok =>
    simp only [Cluster.step] at h
    split at h
    · rename_i op hop
      split at h
      · rename_i hg
        split at h
        · rename_i hw
          cases h
          exact .reported hop hg.1 hg.2 hw.2
        · cases h
          exact .writeReport hop hg.1 hg.2
      · cases h
    · cases h
  | writeFail w =>
    simp only [Cluster.step] at h
    split at h
    · rename_i op hop
      split at h
      · cases h
        exact .writeFail hop
      · cases h
    · cases h
  | startRead c =>
    simp only [Cluster.step] at h
    split at h
    · rename_i hc
      split at h
      · rename_i hlocal
        cases h
        exact .direct hc hlocal
      · cases h
        exact .startRead hc
    · cases h
  | attach j =>
    simp only [Cluster.step] at h
    split at h
    · rename_i call hcall
      cases h
      exact .attach hcall
    · cases h
  | handleRead f i clk =>
    simp only [Cluster.step] at h
    split at h
    · rename_i fl hfl
      split at h
      · cases h
        exact .handleRead hfl
      · cases h
    · cases h
  | readReport f i clk answer =>
    simp only [Cluster.step] at h
    split at h
    · rename_i fl hfl
      split at h
      · rename_i hg
        split at h
        · rename_i hfire
          have hrep : fl.report i clk answer = ((fl.report i clk answer).1, true) :=
            Prod.ext rfl hfire
          split at h
          · cases h
            exact .decided hfl hg.1 hg.2 hrep (.inr ⟨_, rfl⟩)
          · cases h
            exact .decided hfl hg.1 hg.2 hrep (.inl rfl)
        · rename_i hfire
          cases h
          exact .readReport hfl hg.1 hg.2 (Prod.ext rfl (Bool.not_eq_true _ ▸ hfire))
      · cases h
    · cases h
  | readFail f =>
    simp only [Cluster.step] at h
    split at h
    · rename_i fl hfl
      split at h
      · rename_i hopen
        cases h
        exact .readFail hfl hopen
      · cases h
    · cases h
  | handleRepair f i clk =>
    simp only [Cluster.step] at h
    split at h
    · split at h
      · split at h
        · cases h
          exact .handleRepair
        · cases h
      · cases h
    · cases h
  | put i entry =>
    cases h
    exact .put

end Cinder
