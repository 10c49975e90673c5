/-
The addresses connections are made to (`src/net/tcp/transport.cpp`,
`src/client/connection_pool.cpp`: `setConfig`, `addAddr`, `getOrCreateConn`, the connect part
of the send coroutines; `src/node/cache_node_server.cpp`: the addresses of `rebuildRing`).

An address is copied when a connection object is made: `TcpTransport` never touches the copy
again, `ConnectionPool` only while the object is not connected. The choice of the object and the
wait at its gate only decide when it connects: here any object that is not connected may.
-/
import Cinder.Node.RingFollower

namespace Cinder

open Transition MembershipTable Function List

/-! ## 1. Connection objects -/

structure NodeConn where
  addr : PeerConfig
  connected : Bool := false

/-- Where the two classes differ: how many objects a node has, and which of them `addAddr` points
to the new address. -/
structure LinkKind where
  size : Nat
  repoints : NodeConn → Bool

def tcpTransport : LinkKind := ⟨1, fun _ => false⟩

def connectionPool : LinkKind := ⟨4, fun conn => !conn.connected⟩

structure Links where
  addrs : NodeId → Option PeerConfig := fun _ => none
  /-- Empty until the first send to the node. -/
  conns : NodeId → List NodeConn := fun _ => []
  /-- Not in the code: every registration, the newest first. -/
  registered : List PeerConfig := []

namespace Links

variable (l : Links)

def newest (id : NodeId) : Option PeerConfig :=
  l.registered.find? fun cfg => cfg.id = id

def setConns (id : NodeId) (conns : List NodeConn) : Links :=
  { l with conns := update l.conns id conns }

def repoint (k : LinkKind) (cfg : PeerConfig) (conn : NodeConn) : NodeConn :=
  if k.repoints conn then { conn with addr := cfg } else conn

/-- One round of the loop of `setConfig` and of the pool's constructor, too. -/
def addAddr (k : LinkKind) (l : Links) (cfg : PeerConfig) : Links where
  addrs := update l.addrs cfg.id (some cfg)
  conns := update l.conns cfg.id ((l.conns cfg.id).map (repoint k cfg))
  registered := cfg :: l.registered

def getOrCreateConn (k : LinkKind) (l : Links) (id : NodeId) : Links :=
  if l.conns id ≠ [] then l
  else l.setConns id (replicate k.size { addr := (l.addrs id).getD { id := id } })

/-- `sendAsync` and its like: "unknown node" without an address. -/
def send (k : LinkKind) (l : Links) (id : NodeId) : Links :=
  if (l.addrs id).isNone then l else l.getOrCreateConn k id

/-- The address a coroutine on the `i`-th object of a node resolves: none if it is connected. -/
def attempt (id : NodeId) (i : Nat) : Option PeerConfig :=
  (l.conns id)[i]?.bind fun conn => if conn.connected then none else some conn.addr

def setConnected (id : NodeId) (i : Nat) (up : Bool) : Links :=
  l.setConns id ((l.conns id).modify i fun conn => { conn with connected := up })

inductive Event where
  | addAddr (cfg : PeerConfig)
  | send (id : NodeId)
  /-- An attempt that succeeds; one that fails changes nothing here. -/
  | connect (id : NodeId) (i : Nat)
  | closeConn (id : NodeId) (i : Nat)

def step (k : LinkKind) (l : Links) : Event → Option Links
  | .addAddr cfg => some (l.addAddr k cfg)
  | .send id => some (l.send k id)
  | .connect id i => (l.attempt id i).map fun _ => l.setConnected id i true
  | .closeConn id i => some (l.setConnected id i false)

def address (info : NodeInfo) : PeerConfig :=
  { id := info.id, host := info.host, port := info.port }

def rebuildRing (k : LinkKind) (l : Links) (nodeId : NodeId) (members : List NodeInfo) : Links :=
  members.foldl (fun l info => if info.id = nodeId then l else l.addAddr k (address info)) l

/-! ## 2. When the copies are current -/

/-- A registration reaches every object the node has: `addAddr` points it to the address, or it
has that address. -/
def Fresh (k : LinkKind) (l : Links) : Event → Prop
  | .addAddr cfg => ∀ conn ∈ l.conns cfg.id, k.repoints conn = true ∨ conn.addr = cfg
  | _ => True

instance (k : LinkKind) (l : Links) (e : Event) : Decidable (Fresh k l e) := by
  cases e <;> unfold Fresh <;> infer_instance

/-- The map has the newest addresses, and the address of every object meets `P`. -/
structure Copies (P : List PeerConfig → NodeId → PeerConfig → Prop) (l : Links) : Prop where
  addrs : ∀ id, l.addrs id = l.newest id
  conns : ∀ id, ∀ conn ∈ l.conns id, P l.registered id conn.addr

variable {k : LinkKind} {l : Links} {id : NodeId} {cfg : PeerConfig}
  {P : List PeerConfig → NodeId → PeerConfig → Prop}

theorem newest_addAddr (id : NodeId) :
    (l.addAddr k cfg).newest id = if id = cfg.id then some cfg else l.newest id := by
  unfold newest addAddr
  grind

theorem Copies.setConns (h : l.Copies P) {conns : List NodeConn}
    (hconns : ∀ conn ∈ conns, P l.registered id conn.addr) : (l.setConns id conns).Copies P := by
  refine ⟨h.addrs, fun id' conn hconn => ?_⟩
  simp only [Links.setConns, update_apply] at hconn
  split at hconn
  · rename_i hid
    exact hid ▸ hconns conn hconn
  · exact h.conns id' conn hconn

theorem Copies.setConnected (h : l.Copies P) (i : Nat) (up : Bool) :
    (l.setConnected id i up).Copies P := by
  refine h.setConns fun conn hconn => ?_
  obtain ⟨j, hj, rfl⟩ := getElem_of_mem hconn
  have hold := h.conns id _ (getElem_mem (by simpa using hj))
  rw [getElem_modify]
  split <;> exact hold

section

variable (hnew : ∀ l id addr, newest l id = some addr → P l.registered id addr)

include hnew

theorem Copies.addAddr (h : l.Copies P)
    (hkeep : ∀ id, ∀ conn ∈ l.conns id, (id = cfg.id → k.repoints conn = false) →
      P l.registered id conn.addr → P (cfg :: l.registered) id conn.addr) :
    (l.addAddr k cfg).Copies P := by
  refine ⟨fun id => ?_, fun id conn hconn => ?_⟩
  · rw [newest_addAddr, ← h.addrs]
    exact update_apply _ _ _ id
  simp only [Links.addAddr, update_apply] at hconn
  split at hconn
  · rename_i hid
    obtain ⟨old, hold, rfl⟩ := mem_map.mp hconn
    unfold repoint
    split
    · exact hnew (l.addAddr k cfg) id cfg (by rw [newest_addAddr, if_pos hid])
    · rename_i hno
      exact hkeep id old (hid ▸ hold) (fun _ => Bool.eq_false_iff.mpr hno)
        (h.conns id old (hid ▸ hold))
  · rename_i hid
    exact hkeep id conn hconn (fun heq => absurd heq hid) (h.conns id conn hconn)

theorem Copies.send (h : l.Copies P) : (l.send k id).Copies P := by
  unfold Links.send getOrCreateConn
  split
  · exact h
  · rename_i hknown
    split
    · exact h
    · refine h.setConns fun conn hconn => hnew l id _ ?_
      rw [(mem_replicate.mp hconn).2, ← h.addrs]
      cases ha : l.addrs id with
      | none => exact absurd (by rw [ha]; rfl) hknown
      | some addr => rfl

/-- What holds of the newest address, and of an old one where `addAddr` leaves it, holds of every
attempt. -/
theorem attempt_of_reaches {ok : Links → Event → Prop} (h : Reaches (step k) ok {} l)
    (hkeep : ∀ l cfg id, ok l (.addAddr cfg) → ∀ conn ∈ l.conns id,
      (id = cfg.id → k.repoints conn = false) →
        P l.registered id conn.addr → P (cfg :: l.registered) id conn.addr)
    {i : Nat} (ha : l.attempt id i = some cfg) : P l.registered id cfg := by
  have hcopies : l.Copies P := by
    refine h.invariant ⟨fun _ => rfl, fun _ _ hconn => nomatch hconn⟩ fun l e l' hl hok hs => ?_
    cases e with
    | connect id i =>
      obtain ⟨_, _, rfl⟩ := Option.map_eq_some_iff.mp hs
      exact hl.setConnected i true
    | addAddr cfg => exact Option.some.inj hs ▸ hl.addAddr hnew fun id => hkeep l cfg id hok
    | send id => exact Option.some.inj hs ▸ hl.send hnew
    | closeConn id i => exact Option.some.inj hs ▸ hl.setConnected i false
  obtain ⟨conn, hconn, hi⟩ := Option.bind_eq_some_iff.mp ha
  split at hi
  · cases hi
  · exact Option.some.inj hi ▸ hcopies.conns id conn (mem_of_getElem? hconn)

end

theorem newest_of_attempt (h : Reaches (step k) (Fresh k) {} l) {i : Nat}
    (ha : l.attempt id i = some cfg) : l.newest id = some cfg := by
  refine attempt_of_reaches (P := fun reg id addr => reg.find? (fun c => c.id = id) = some addr)
    (fun _ _ _ hnewest => hnewest) h (fun l cfg id hfresh conn hconn hno hold => ?_) ha
  by_cases hid : cfg.id = id
  · -- An object of the node that is not pointed to the address has it.
    have haddr := (hfresh conn (hid ▸ hconn)).resolve_left (by simp [hno hid.symm])
    rw [haddr, List.find?_cons_of_pos (by simpa using hid)]
  · rwa [List.find?_cons_of_neg (by simpa using hid)]

theorem exists_attempt (k : LinkKind) (ok : Links → Event → Prop) [∀ l e, Decidable (ok l e)]
    (es : List Event) {a b : PeerConfig} (h : (exec (step k) ok {} es).any
      (fun l => l.attempt a.id 0 = some a ∧ l.newest a.id = some b) = true) :
    ∃ l, Reaches (step k) ok {} l ∧ l.attempt a.id 0 = some a ∧ l.newest a.id = some b := by
  obtain ⟨l, hl, hp⟩ := exists_reaches_of_exec _ _ _ _ _ h
  exact ⟨l, hl, of_decide_eq_true hp⟩

/-- A connection that is lost after the new address was registered. -/
theorem exists_stale : ∀ k ∈ [tcpTransport, connectionPool],
    ∃ l, Reaches (step k) (fun _ _ => True) {} l ∧ l.attempt [1] 0 = some ⟨[1], [2], 7⟩ ∧
      l.newest [1] = some ⟨[1], [3], 7⟩ := by
  refine forall_mem_cons.mpr ⟨?_, forall_mem_singleton.mpr ?_⟩
  all_goals
    exact exists_attempt _ _
      [.addAddr ⟨[1], [2], 7⟩, .send [1], .connect [1] 0, .addAddr ⟨[1], [3], 7⟩, .closeConn [1] 0]
      (a := ⟨[1], [2], 7⟩) (by decide +kernel)

/-- **Every address in use was registered for that node**: no attempt goes to another node's, or to
the empty one `getOrCreateConn` falls back to. -/
theorem attempts_to_registered (k : LinkKind) (l : Links)
    (h : Reaches (step k) (fun _ _ => True) {} l) (id : NodeId) (i : Nat) (addr : PeerConfig)
    (ha : l.attempt id i = some addr) : addr.id = id ∧ addr ∈ l.registered := by
  refine attempt_of_reaches (P := fun reg id addr => addr.id = id ∧ addr ∈ reg)
    (fun l id addr hnewest => ?_) h (fun _ _ _ _ _ _ _ hold => hold.imp_right (.tail _)) ha
  exact ⟨by simpa using List.find?_some hnewest, mem_of_find?_eq_some hnewest⟩

theorem attempts_to_registered_stale :
    ∃ l, Reaches (step tcpTransport) (fun _ _ => True) {} l ∧
      l.newest [1] = some ⟨[1], [3], 7⟩ ∧ ⟨[1], [2], 7⟩ ∈ l.registered := by
  obtain ⟨l, hl, ha, hnewest⟩ := exists_stale _ (.head _)
  exact ⟨l, hl, hnewest, (attempts_to_registered _ l hl [1] 0 _ ha).2⟩

/-! ## 3. Addresses in rumors -/

theorem registered_rebuildRing (nodeId : NodeId) (members : List NodeInfo) :
    (l.rebuildRing k nodeId members).registered =
      ((members.filter fun info => info.id ≠ nodeId).map address).reverse ++ l.registered := by
  induction members generalizing l with
  | nil => rfl
  | cons info members ih =>
    refine ih.trans ?_
    by_cases hid : info.id = nodeId
    · simp [hid]
    · simp [hid, addAddr]

theorem newest_rebuildRing {t : MembershipTable} (h : t.Wf) {info : NodeInfo}
    (hget : t.get id = some info) (hid : id ≠ t.self) :
    (l.rebuildRing k t.self t.snapshot).newest id = some (address info) := by
  -- The table lists one member with this id.
  have hfilter : (t.snapshot.filter fun m => m.id ≠ t.self).filter
      ((fun cfg => decide (cfg.id = id)) ∘ address) = [info] := by
    rw [filter_comm]
    refine (congrArg (List.filter _) (filter_snapshot h id)).trans ?_
    simp [hget, h id info hget, hid]
  rw [newest, registered_rebuildRing, ← head?_filter, filter_append,
    filter_reverse, filter_map, hfilter]
  rfl

end Links

namespace MembershipTable

/-- A record has every part of the address a rumor gives. -/
def HasAddress (info rumor : NodeInfo) : Prop :=
  (rumor.host ≠ [] → info.host = rumor.host) ∧ (rumor.port ≠ 0 → info.port = rumor.port)

/-- Each part of the address a rumor gives is one the record has already, or lacks. -/
def FillsAddress (info rumor : NodeInfo) : Prop :=
  (rumor.host = [] ∨ info.host = [] ∨ info.host = rumor.host) ∧
    (rumor.port = 0 ∨ info.port = 0 ∨ info.port = rumor.port)

theorem hasAddress_adopt_iff (info rumor : NodeInfo) :
    HasAddress (adopt info rumor) rumor ↔ FillsAddress info rumor := by
  unfold HasAddress FillsAddress adopt
  grind

theorem get_applyRumor_newer {t : MembershipTable} (now : Nanos) {rumor info : NodeInfo}
    (hget : t.get rumor.id = some info) (halive : rumor.state = .alive)
    (hnewer : info.incarnation < rumor.incarnation) : t.rumorChanges rumor = true ∧
      (t.applyRumor now rumor).get rumor.id = some (adopt info rumor) := by
  have hstale : ¬ rumor.incarnation < info.incarnation := UInt64.lt_asymm hnewer
  have hne : rumor.incarnation ≠ info.incarnation := (UInt64.ne_of_lt hnewer).symm
  simp [rumorChanges, applyRumor, hget, halive, hstale, hne, hne.symm]

end MembershipTable

/-! ## 4. Newest addresses -/

namespace Links

/-- **The newest address is used while every registration reaches the objects there are.** A rumor
of a newer incarnation fires the rebuild, which registers the address of the table's record: the
rumor's, exactly if that only fills in what the record lacks. -/
theorem newest_address_used (k : LinkKind) (l : Links) (t : MembershipTable) (now : Nanos)
    (rumor info : NodeInfo) :
    (Reaches (step k) (Fresh k) {} l →
      ∀ id i addr, l.attempt id i = some addr → l.newest id = some addr) ∧
    (t.Wf → t.get rumor.id = some info → rumor.state = .alive →
      info.incarnation < rumor.incarnation →
      t.rumorChanges rumor = true ∧ ∃ info', (t.applyRumor now rumor).get rumor.id = some info' ∧
        (rumor.id ≠ t.self → ∀ l : Links,
          (l.rebuildRing tcpTransport t.self (t.applyRumor now rumor).snapshot).newest rumor.id =
            some (address info')) ∧
        (HasAddress info' rumor ↔ FillsAddress info rumor)) := by
  refine ⟨fun h id i addr => newest_of_attempt h, fun hwf hget halive hnewer => ?_⟩
  obtain ⟨hfires, hadopt⟩ := get_applyRumor_newer now hget halive hnewer
  refine ⟨hfires, _, hadopt, fun hself l => ?_, hasAddress_adopt_iff info rumor⟩
  have hnewest := newest_rebuildRing (k := tcpTransport) (l := l) (hwf.applyRumor now rumor) hadopt
  rw [self_applyRumor] at hnewest
  exact hnewest hself

/-- A pool that lost its connection before the new address, and a record without an address. -/
theorem newest_address_used_restart :
    (∃ l, Reaches (step connectionPool) (Fresh connectionPool) {} l ∧
      l.attempt [1] 0 = some ⟨[1], [3], 7⟩ ∧ l.newest [1] = some ⟨[1], [3], 7⟩) ∧
    ∃ info', (((start [0]).applyRumor 0 { id := [1] }).applyRumor 5
      ⟨[1], [3], 7, .alive, 2, 0⟩).get [1] = some info' ∧
        HasAddress info' ⟨[1], [3], 7, .alive, 2, 0⟩ := by
  obtain ⟨l, hl, ha, -⟩ := exists_attempt connectionPool (Fresh connectionPool)
    [.addAddr ⟨[1], [2], 7⟩, .send [1], .connect [1] 0, .closeConn [1] 0, .addAddr ⟨[1], [3], 7⟩]
    (a := ⟨[1], [3], 7⟩) (b := ⟨[1], [3], 7⟩) (by decide +kernel)
  obtain ⟨hnewest, hrumor⟩ := newest_address_used connectionPool l
    ((start [0]).applyRumor 0 { id := [1] }) 5 ⟨[1], [3], 7, .alive, 2, 0⟩ { id := [1] }
  obtain ⟨-, info', hget, -, hiff⟩ :=
    hrumor ((wf_start [0]).applyRumor 0 _) (by decide +kernel) rfl (by decide)
  exact ⟨⟨l, hl, ha, hnewest hl [1] 0 _ ha⟩, info', hget,
    hiff.mpr ⟨.inr (.inl rfl), .inr (.inl rfl)⟩⟩

/-- **Old addresses stay in use**: by a transport, by a pool, and in a table that hears of the new
address. -/
theorem old_address_used :
    (∀ k ∈ [tcpTransport, connectionPool], ∃ l, Reaches (step k) (fun _ _ => True) {} l ∧
      l.attempt [1] 0 = some ⟨[1], [2], 7⟩ ∧ l.newest [1] = some ⟨[1], [3], 7⟩) ∧
    ((((start [0]).applyRumor 0 ⟨[1], [2], 7, .alive, 1, 0⟩).applyRumor 5
      ⟨[1], [3], 7, .alive, 2, 0⟩).get [1]).map (fun info => (info.host, info.incarnation)) =
        some ([2], 2) := by
  exact ⟨exists_stale, by decide +kernel⟩

end Links

end Cinder
