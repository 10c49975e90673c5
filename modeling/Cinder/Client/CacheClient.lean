/-
The client library (`src/client/cache_client.cpp`): routing with redirects and retries,
`get` and `multiGet`, against servers that may answer anything.

The servers are two functions of everything that was said before, so every sequence of responses
and transport errors is one of them; which addresses the pool knows is part of their behaviour.
The log of exchanges keeps every request with its answer.
-/
import Cinder.Common.Text
import Cinder.Hashing.Ring
import Cinder.Net.Protocol

namespace Cinder

open List Option

/-- `Result<net::Response>`; a transport error has a code. -/
abbrev Answer := Except Errc Response

abbrev BatchAnswer := Except Errc (List Response)

inductive Exchange where
  | single (node : NodeId) (req : Request) (answer : Answer)
  | batch (node : NodeId) (reqs : List Request) (answer : BatchAnswer)

/-- What `ConnectionPool::send` and `sendBatch` come back with. -/
structure Servers where
  send : List Exchange → NodeId → Request → Answer
  sendBatch : List Exchange → NodeId → List Request → BatchAnswer

def parseRedirect (value : Bytes) : Option NodeId :=
  if (text "moved to ").isPrefixOf value then some ((value.drop 9).takeWhile fun b => b ≠ 64)
  else none

def retryableCode (e : Errc) : Bool := e = .timeout || e = .notReady

def retryable : Answer → Bool
  | .error e => retryableCode e
  | .ok res => retryableCode res.status

def retryableBatch : BatchAnswer → Bool
  | .error e => retryableCode e
  | .ok _ => false

def kMaxLearnedOwners : Nat := 4096

def kMaxRedirectHops : Nat := 4

structure CacheClient where
  getNode : Key → NodeId
  maxRetries : Int

/-- `learned_`, and what was said so far. -/
structure Session where
  learned : List (Key × NodeId) := []
  log : List Exchange := []

namespace Session

variable (s : Session)

def send (w : Servers) (node : NodeId) (req : Request) : Answer × Session :=
  (w.send s.log node req, { s with log := s.log ++ [.single node req (w.send s.log node req)] })

def sendBatch (w : Servers) (node : NodeId) (reqs : List Request) : BatchAnswer × Session :=
  (w.sendBatch s.log node reqs,
    { s with log := s.log ++ [.batch node reqs (w.sendBatch s.log node reqs)] })

def forgetOwner (key : Key) : Session :=
  { s with learned := s.learned.filter fun e => e.1 ≠ key }

def learnOwner (key : Key) (node : NodeId) : Session :=
  let s := if kMaxLearnedOwners ≤ s.learned.length then { s with learned := [] } else s
  { s.forgetOwner key with learned := (key, node) :: (s.forgetOwner key).learned }

@[simp] theorem log_learnOwner (key : Key) (node : NodeId) :
    (s.learnOwner key node).log = s.log := by
  unfold learnOwner
  split <;> rfl

def Bounded : Prop := s.learned.length ≤ kMaxLearnedOwners

theorem Bounded.forgetOwner {s : Session} (h : s.Bounded) (key : Key) :
    (s.forgetOwner key).Bounded :=
  (length_filter_le _ _).trans h

theorem bounded_learnOwner (key : Key) (node : NodeId) : (s.learnOwner key node).Bounded := by
  unfold learnOwner Bounded Session.forgetOwner
  rw [length_cons]
  refine Nat.succ_le_of_lt ((length_filter_le _ _).trans_lt ?_)
  split
  · exact Nat.succ_pos _
  · rename_i hroom
    exact Nat.lt_of_not_le hroom

end Session

namespace CacheClient

/-! ## 1. Routing -/

def preferredNode (c : CacheClient) (s : Session) (key : Key) : NodeId :=
  (s.learned.lookup key).getD (c.getNode key)

/-- Where to go next; the caller learns the owner and notes the visit. -/
def tryFollowRedirect (res : Answer) (node : NodeId) (visited : List NodeId) (hops : Nat) :
    Option NodeId :=
  match res with
  | .error _ => none
  | .ok res =>
    if res.status ≠ .notReady then none
    else match parseRedirect (res.value.getD []) with
      | none => none
      | some target =>
        if target = node ∨ target ∈ visited ∨ kMaxRedirectHops ≤ hops then none else some target

/-- The node a NotReady answer names. -/
def redirectOf : Answer → Option NodeId
  | .error _ => none
  | .ok res => if res.status = .notReady then parseRedirect (res.value.getD []) else none

theorem tryFollowRedirect_eq_some {res : Answer} {node next : NodeId} {visited : List NodeId}
    {hops : Nat} (h : tryFollowRedirect res node visited hops = some next) :
    redirectOf res = some next ∧ next ≠ node ∧ next ∉ visited ∧ hops < kMaxRedirectHops := by
  unfold tryFollowRedirect at h
  unfold redirectOf
  grind

/-- After a transport error. -/
def refreshAfterFailure (c : CacheClient) (key : Key) (res : Answer) (node : NodeId) (s : Session) :
    NodeId × Session :=
  match res with
  | .error _ => (c.preferredNode (s.forgetOwner key) key, s.forgetOwner key)
  | .ok _ => (node, s)

/-- The loop of `sendToOwner`, with the attempts that are left. A redirect that is followed costs
no attempt. -/
def route (c : CacheClient) (w : Servers) (key : Key) (req : Request) (left hops : Nat)
    (node : NodeId) (visited : List NodeId) (res : Answer) (s : Session) : Answer × Session :=
  match left with
  | 0 => (res, s)
  | left + 1 =>
    let r := s.send w node req
    match _h : tryFollowRedirect r.1 node visited hops with
    | some next =>
      route c w key req (left + 1) (hops + 1) next (visited ++ [node]) r.1 (r.2.learnOwner key next)
    | none =>
      let t := c.refreshAfterFailure key r.1 node r.2
      if retryable r.1 = false ∨ left = 0 then (r.1, t.2)
      else route c w key req left hops t.1 visited r.1 t.2
termination_by left + (kMaxRedirectHops - hops)
decreasing_by
  · have := (tryFollowRedirect_eq_some _h).2.2.2
    omega
  · omega

def sendToOwner (c : CacheClient) (w : Servers) (key : Key) (req : Request) (s : Session) :
    Answer × Session :=
  c.route w key req (c.maxRetries + 1).toNat 0 (c.preferredNode s key) [] (.error .notReady) s

/-! ## 2. Reads -/

def getRequest (ctx : UInt64 × UInt64) (key : Key) : Request :=
  { opcode := .get, key := key, traceId := ctx.1, spanId := ctx.2 }

/-- The body of whatever answer routing ended on. -/
def get (c : CacheClient) (w : Servers) (ctx : UInt64 × UInt64) (key : Key) (s : Session) :
    Option Bytes × Session :=
  let r := c.sendToOwner w key (getRequest ctx key) s
  match r.1 with
  | .error _ => (none, r.2)
  | .ok res => (res.value, r.2)

/-- `by_owner[node].push_back(key)`. -/
def addToGroup (node : NodeId) (key : Key) : List (NodeId × List Key) → List (NodeId × List Key)
  | [] => [(node, [key])]
  | (owner, keys) :: groups =>
    if owner = node then (owner, keys ++ [key]) :: groups
    else (owner, keys) :: addToGroup node key groups

def batchLoop (w : Servers) (node : NodeId) (reqs : List Request) :
    (left : Nat) → BatchAnswer → Session → BatchAnswer × Session
  | 0, res, s => (res, s)
  | left + 1, _, s =>
    let r := s.sendBatch w node reqs
    if retryableBatch r.1 = false ∨ left = 0 then r else batchLoop w node reqs left r.1 r.2

/-- `result.emplace`: a key that is there stays as it is. -/
def emplace (result : List (Key × Bytes)) (key : Key) (value : Bytes) : List (Key × Bytes) :=
  if (result.lookup key).isSome then result else result ++ [(key, value)]

def okValue (res : Response) : Option Bytes := if res.status = .ok then res.value else none

def emplaceOk (result : List (Key × Bytes)) (key : Key) (res : Response) : List (Key × Bytes) :=
  match okValue res with
  | some value => emplace result key value
  | none => result

def isRedirect (res : Response) : Bool :=
  res.status = .notReady && (parseRedirect (res.value.getD [])).isSome

/-- A key that moved, through the single-key path. -/
def fetchMoved (c : CacheClient) (w : Servers) (ctx : UInt64 × UInt64)
    (acc : List (Key × Bytes) × Session) (key : Key) : List (Key × Bytes) × Session :=
  let r := c.sendToOwner w key (getRequest ctx key) acc.2
  match r.1 with
  | .error _ => (acc.1, r.2)
  | .ok res => (emplaceOk acc.1 key res, r.2)

def fetchGroup (c : CacheClient) (w : Servers) (ctx : UInt64 × UInt64)
    (acc : List (Key × Bytes) × Session) (group : NodeId × List Key) :
    List (Key × Bytes) × Session :=
  let r := batchLoop w group.1 (group.2.map (getRequest ctx)) (c.maxRetries + 1).toNat
    (.error .notReady) acc.2
  match r.1 with
  | .error _ => (acc.1, r.2)
  | .ok answers =>
    let result := (group.2.zip answers).foldl (fun result e => emplaceOk result e.1 e.2) acc.1
    let moved := ((group.2.zip answers).filter fun e => isRedirect e.2).map Prod.fst
    moved.foldl (c.fetchMoved w ctx) (result, r.2)

def multiGet (c : CacheClient) (w : Servers) (ctx : UInt64 × UInt64) (keys : List Key)
    (s : Session) : List (Key × Bytes) × Session :=
  (keys.foldl (fun groups key => addToGroup (c.getNode key) key groups) []).foldl
    (c.fetchGroup w ctx) ([], s)

/-! ## 3. What was answered -/

inductive Gives (key : Key) (value : Bytes) : Exchange → Prop where
  | single {node : NodeId} {req : Request} {res : Response} (hget : req.opcode = .get)
    (hkey : req.key = key) (hok : okValue res = some value) :
    Gives key value (.single node req (.ok res))
  | batch {node : NodeId} {reqs : List Request} {answers : List Response} {i : Nat} {req : Request}
    {res : Response} (hreq : reqs[i]? = some req) (hres : answers[i]? = some res)
    (hget : req.opcode = .get) (hkey : req.key = key) (hok : okValue res = some value) :
    Gives key value (.batch node reqs (.ok answers))

/-- During a call that started in `s` and ended in `t`. -/
def Answered (s t : Session) (key : Key) (value : Bytes) : Prop :=
  ∃ e ∈ t.log.drop s.log.length, Gives key value e

variable {c : CacheClient} {w : Servers} {key : Key} {req : Request} {s : Session}

section Equations

variable {left hops : Nat} {node : NodeId} {visited : List NodeId} {res : Answer}

theorem route_follow {next : NodeId}
    (h : tryFollowRedirect (s.send w node req).1 node visited hops = some next) :
    c.route w key req (left + 1) hops node visited res s =
      c.route w key req (left + 1) (hops + 1) next (visited ++ [node]) (s.send w node req).1
        ((s.send w node req).2.learnOwner key next) := by
  rw [route]
  split
  · rename_i next' h'
    rw [h] at h'
    cases h'
    rfl
  · rename_i h'
    rw [h] at h'
    cases h'

theorem route_stay (h : tryFollowRedirect (s.send w node req).1 node visited hops = none) :
    c.route w key req (left + 1) hops node visited res s =
      if retryable (s.send w node req).1 = false ∨ left = 0 then
        ((s.send w node req).1,
          (c.refreshAfterFailure key (s.send w node req).1 node (s.send w node req).2).2)
      else c.route w key req left hops
        (c.refreshAfterFailure key (s.send w node req).1 node (s.send w node req).2).1 visited
        (s.send w node req).1
        (c.refreshAfterFailure key (s.send w node req).1 node (s.send w node req).2).2 := by
  rw [route]
  split
  · rename_i next h'
    rw [h] at h'
    cases h'
  · rfl

end Equations

theorem log_refreshAfterFailure (res : Answer) (node : NodeId) :
    (c.refreshAfterFailure key res node s).2.log = s.log := by
  unfold refreshAfterFailure
  split <;> rfl

theorem node_refreshAfterFailure (res : Answer) (node : NodeId) :
    (c.refreshAfterFailure key res node s).1 = node ∨ redirectOf res = none := by
  cases res with
  | error => exact .inr rfl
  | ok => exact .inl rfl

theorem bounded_refreshAfterFailure (res : Answer) (node : NodeId) (h : s.Bounded) :
    (c.refreshAfterFailure key res node s).2.Bounded := by
  unfold refreshAfterFailure
  split
  · exact h.forgetOwner key
  · exact h

/-! ## 4. The budget of a call -/

/-- Behind a redirect the same node is asked again, or the redirect is followed, to a node that is
neither the sender nor one left before. -/
def FollowsFresh : List NodeId → List Exchange → Prop
  | visited, .single node _ res :: .single node' req' res' :: sent =>
    if node' = node ∨ redirectOf res = none then
      FollowsFresh visited (.single node' req' res' :: sent)
    else
      redirectOf res = some node' ∧ node' ∉ visited ∧
        FollowsFresh (visited ++ [node]) (.single node' req' res' :: sent)
  | _, _ => True

/-- What routing sends from a node on, what it ends on, and what it leaves in the table of
owners. -/
structure Routed (w : Servers) (req : Request) (left hops : Nat) (node : NodeId)
    (visited : List NodeId) (s : Session) (r : Answer × Session) (sent : List Exchange) : Prop where
  log : r.2.log = s.log ++ sent
  length_le : sent.length ≤ left + (kMaxRedirectHops - hops)
  answers : ∀ e ∈ sent, ∃ log node, e = .single node req (w.send log node req)
  last : left ≠ 0 → ∃ node, .single node req r.1 ∈ sent
  starts : ∀ e ∈ sent.head?, ∃ res, e = .single node req res
  fresh : FollowsFresh visited sent
  bounded : s.Bounded → r.2.Bounded

theorem Routed.after_send {left left' hops hops' : Nat} {node next : NodeId}
    {visited visited' : List NodeId} {s' : Session} {r : Answer × Session} {sent : List Exchange}
    (h : Routed w req left' hops' next visited' s' r sent) (hleft : left' ≠ 0)
    (hbudget : left' + (kMaxRedirectHops - hops') < left + (kMaxRedirectHops - hops))
    (hlog : s'.log = (s.send w node req).2.log) (hbounded : s.Bounded → s'.Bounded)
    (hnext : redirectOf (s.send w node req).1 = some next ∧ next ≠ node ∧ next ∉ visited ∧
        visited' = visited ++ [node] ∨
      (next = node ∨ redirectOf (s.send w node req).1 = none) ∧ visited' = visited) :
    Routed w req left hops node visited s r (.single node req (s.send w node req).1 :: sent) where
  log := by
    rw [h.log, hlog]
    simp [Session.send]
  length_le := Nat.succ_le_of_lt (h.length_le.trans_lt hbudget)
  answers := forall_mem_cons.mpr ⟨⟨s.log, node, rfl⟩, h.answers⟩
  last _ := (h.last hleft).imp fun _ => mem_cons_of_mem _
  starts _ he := ⟨_, (some.inj he).symm⟩
  fresh := by
    cases sent with
    | nil => trivial
    | cons e sent =>
      obtain ⟨res, rfl⟩ := h.starts e rfl
      have hfresh := h.fresh
      unfold FollowsFresh
      rcases hnext with ⟨hto, hne, hnew, rfl⟩ | ⟨hsame, rfl⟩
      · rw [if_neg (by simp [hto, hne])]
        exact ⟨hto, hnew, hfresh⟩
      · rwa [if_pos hsame]
  bounded hs := h.bounded (hbounded hs)

theorem route_routed (left hops : Nat) (node : NodeId) (visited : List NodeId) (res : Answer)
    (s : Session) :
    ∃ sent, Routed w req left hops node visited s (c.route w key req left hops node visited res s)
      sent := by
  induction left, hops, node, visited, res, s using route.induct c w key req with
  | case1 hops node visited res s =>
    rw [route]
    exact ⟨[], (append_nil _).symm, Nat.zero_le _, forall_mem_nil _, fun h => absurd rfl h,
      fun _ he => (not_mem_none _ he).elim, trivial, id⟩
  | case2 hops node visited res s left r next hnext ih =>
    obtain ⟨hto, hne, hnew, hhops⟩ := tryFollowRedirect_eq_some hnext
    obtain ⟨sent, hsent⟩ := ih
    rw [route_follow hnext]
    exact ⟨_, hsent.after_send (Nat.succ_ne_zero left) (by omega) (Session.log_learnOwner ..)
      (fun _ => Session.bounded_learnOwner ..) (.inl ⟨hto, hne, hnew, rfl⟩)⟩
  | case3 hops node visited res s left r hnone hstop =>
    rw [route_stay hnone, if_pos hstop]
    refine ⟨[.single node req (s.send w node req).1], log_refreshAfterFailure .., ?_,
      forall_mem_singleton.mpr ⟨s.log, node, rfl⟩, fun _ => ⟨node, mem_cons_self⟩,
      fun _ he => ⟨_, (some.inj he).symm⟩, trivial, fun hs => bounded_refreshAfterFailure _ _ hs⟩
    rw [length_singleton]
    omega
  | case4 hops node visited res s left r hnone t hgo ih =>
    obtain ⟨sent, hsent⟩ := ih
    rw [route_stay hnone, if_neg hgo]
    exact ⟨_, hsent.after_send (fun h => hgo (.inr h)) (by omega) (log_refreshAfterFailure ..)
      (fun hs => bounded_refreshAfterFailure _ _ hs) (.inr ⟨node_refreshAfterFailure .., rfl⟩)⟩

theorem sendToOwner_routed (s : Session) :
    ∃ sent, Routed w req (c.maxRetries + 1).toNat 0 (c.preferredNode s key) [] s
      (c.sendToOwner w key req s) sent := route_routed ..

/-- **A call ends within its budget**: there are at most as many sends as attempts and hops, no
redirect is followed to its sender or to a node left before, and the table of owners stays within
its limit over any sequence of calls. -/
theorem routing_ends_within_budget (c : CacheClient) (hretries : 0 ≤ c.maxRetries) :
    (∀ w key req s, ∃ sent, (c.sendToOwner w key req s).2.log = s.log ++ sent ∧
      (sent.length : Int) ≤ c.maxRetries + 1 + 4 ∧ FollowsFresh [] sent) ∧
    ∀ calls : List (Servers × Key × Request),
      (calls.foldl (fun s call => (c.sendToOwner call.1 call.2.1 call.2.2 s).2) {}).learned.length ≤
        4096 := by
  refine ⟨fun w key req s => ?_, fun calls => ?_⟩
  · obtain ⟨sent, hsent⟩ := @sendToOwner_routed c w key req s
    refine ⟨sent, hsent.log, ?_, hsent.fresh⟩
    have hlength := hsent.length_le
    unfold kMaxRedirectHops at hlength
    omega
  · have hall : ∀ s : Session, s.Bounded →
        (calls.foldl (fun s call => (c.sendToOwner call.1 call.2.1 call.2.2 s).2) s).Bounded := by
      induction calls with
      | nil => exact fun _ hs => hs
      | cons call calls ih =>
        intro s hs
        obtain ⟨sent, hsent⟩ := @sendToOwner_routed c call.1 call.2.1 call.2.2 s
        exact ih _ (hsent.bounded hs)
    exact hall {} (Nat.zero_le _)

/-- Node 1 redirects to node 2, which answers. -/
def redirecting : Servers where
  send _ node _ :=
    if node = [1] then .ok { status := .notReady, value := some (text "moved to " ++ [2]) }
    else .ok { value := some [9] }
  sendBatch _ _ _ := .error .timeout

theorem routing_ends_within_budget_redirected :
    ∃ sent, ((CacheClient.mk (fun _ => [1]) 1).sendToOwner redirecting [5] (getRequest (0, 0) [5])
        {}).2.log = [] ++ sent ∧ sent.length = 2 ∧ FollowsFresh [] sent := by
  obtain ⟨sent, hlog, -, hfresh⟩ := (routing_ends_within_budget (CacheClient.mk (fun _ => [1]) 1)
    (by decide)).1 redirecting [5] (getRequest (0, 0) [5]) {}
  have hlength : (([] : List Exchange) ++ sent).length = 2 := hlog ▸ by decide +kernel
  exact ⟨sent, hlog, hlength, hfresh⟩

/-! ## 5. `get` -/

def AnswersIn (w : Servers) (allowed : Response → Prop) : Prop :=
  ∀ log node req res, w.send log node req = .ok res → allowed res

/-- Every value `get` returns was the body of an OK answer to it. -/
def GetsAnswered (c : CacheClient) (w : Servers) : Prop :=
  ∀ ctx key s value, (c.get w ctx key s).1 = some value →
    Answered s (c.get w ctx key s).2 key value

variable {res : Response}

theorem get_of_sendToOwner {ctx : UInt64 × UInt64}
    (h : (c.sendToOwner w key (getRequest ctx key) s).1 = .ok res) :
    c.get w ctx key s = (res.value, (c.sendToOwner w key (getRequest ctx key) s).2) := by
  unfold get
  dsimp only
  rw [h]

theorem attempts_ne_zero (h : (c.sendToOwner w key req s).1 = .ok res) :
    (c.maxRetries + 1).toNat ≠ 0 := by
  intro hzero
  rw [sendToOwner, hzero, route] at h
  cases h

def always (res : Response) : Servers := ⟨fun _ _ _ => .ok res, fun _ _ _ => .error .notReady⟩

theorem get_always (hretries : 0 ≤ c.maxRetries) (res : Response) (ctx : UInt64 × UInt64) :
    (c.get (always res) ctx key s).1 = res.value ∧
      ∀ e ∈ (c.get (always res) ctx key s).2.log.drop s.log.length,
        ∃ node req, e = .single node req (.ok res) := by
  obtain ⟨sent, hsent⟩ := @sendToOwner_routed c (always res) key (getRequest ctx key) s
  obtain ⟨node, hmem⟩ := hsent.last (by omega)
  obtain ⟨log, node', heq⟩ := hsent.answers _ hmem
  have hres : (c.sendToOwner (always res) key (getRequest ctx key) s).1 = .ok res :=
    (Exchange.single.inj heq).2.2
  rw [get_of_sendToOwner hres]
  refine ⟨rfl, fun e he => ?_⟩
  rw [hsent.log, drop_left] at he
  obtain ⟨log, node, rfl⟩ := hsent.answers e he
  exact ⟨node, _, rfl⟩

theorem not_getsAnswered_always (hretries : 0 ≤ c.maxRetries)
    (hstatus : res.status ≠ .ok) {value : Bytes} (hvalue : res.value = some value) :
    ¬ GetsAnswered c (always res) := by
  intro hgets
  obtain ⟨hget, hall⟩ := @get_always c [] {} hretries res (0, 0)
  obtain ⟨e, he, hgives⟩ := hgets (0, 0) [] {} value (hget.trans hvalue)
  obtain ⟨node, req, rfl⟩ := hall e he
  cases hgives with
  | single hreq hkey hok =>
    rw [okValue, if_neg hstatus] at hok
    cases hok

theorem getsAnswered_iff (c : CacheClient) (allowed : Response → Prop) :
    (∀ w, AnswersIn w allowed → GetsAnswered c w) ↔
      c.maxRetries < 0 ∨ ∀ res, allowed res → res.status ≠ .ok → res.value = none := by
  refine ⟨fun h => ?_, fun hcond w hw ctx key s value hget => ?_⟩
  · by_contra hcond
    rw [not_or, not_forall] at hcond
    obtain ⟨hretries, res, hres⟩ := hcond
    simp only [Classical.not_imp] at hres
    obtain ⟨hallowed, hstatus, hvalue⟩ := hres
    obtain ⟨value, hvalue⟩ := ne_none_iff_exists'.mp hvalue
    refine not_getsAnswered_always (not_lt.mp hretries) hstatus hvalue (h _ ?_)
    intro log node req res' heq
    cases heq
    exact hallowed
  · obtain ⟨sent, hsent⟩ := @sendToOwner_routed c w key (getRequest ctx key) s
    cases hsend : (c.sendToOwner w key (getRequest ctx key) s).1 with
    | error e =>
      unfold get at hget
      dsimp only at hget
      rw [hsend] at hget
      cases hget
    | ok res =>
      have hleft := attempts_ne_zero hsend
      obtain ⟨node, hmem⟩ := hsent.last hleft
      obtain ⟨log, node', heq⟩ := hsent.answers _ hmem
      rw [hsend] at hmem heq
      rw [get_of_sendToOwner hsend] at hget ⊢
      have hallowed := hw log node' _ res (Exchange.single.inj heq).2.2.symm
      have hok : res.status = .ok := by
        by_contra hstatus
        have hnone := hcond.resolve_left (by omega) res hallowed hstatus
        cases hget.symm.trans hnone
      refine ⟨.single node (getRequest ctx key) (.ok res), ?_, .single rfl rfl ?_⟩
      · rw [hsent.log, drop_left]
        exact hmem
      · rw [okValue, if_pos hok]
        exact hget

/-! ## 6. `multiGet` -/

/-- The result so far is backed by what was answered since `s`. -/
def Backed (s : Session) (acc : List (Key × Bytes) × Session) : Prop :=
  ∃ added, acc.2.log = s.log ++ added ∧ ∀ e ∈ acc.1, ∃ x ∈ added, Gives e.1 e.2 x

theorem mem_emplaceOk {result : List (Key × Bytes)} {e : Key × Bytes}
    (he : e ∈ emplaceOk result key res) : e ∈ result ∨ e.1 = key ∧ okValue res = some e.2 := by
  unfold emplaceOk at he
  split at he
  · rename_i value hvalue
    unfold emplace at he
    split at he
    · exact .inl he
    · rcases mem_append.mp he with he | he
      · exact .inl he
      · rw [mem_singleton.mp he]
        exact .inr ⟨rfl, hvalue⟩
  · exact .inl he

theorem mem_foldl_emplaceOk {pairs : List (Key × Response)} {result : List (Key × Bytes)}
    {e : Key × Bytes}
    (he : e ∈ pairs.foldl (fun result pair => emplaceOk result pair.1 pair.2) result) :
    e ∈ result ∨ ∃ pair ∈ pairs, e.1 = pair.1 ∧ okValue pair.2 = some e.2 := by
  induction pairs generalizing result with
  | nil => exact .inl he
  | cons pair pairs ih =>
    rcases ih he with he | ⟨pair', hpair, h⟩
    · exact (mem_emplaceOk he).imp_right fun h => ⟨pair, mem_cons_self, h⟩
    · exact .inr ⟨pair', mem_cons_of_mem _ hpair, h⟩

theorem Backed.extend {acc acc' : List (Key × Bytes) × Session} {added : List Exchange}
    (h : Backed s acc) (hlog : acc'.2.log = acc.2.log ++ added)
    (hresult : ∀ e ∈ acc'.1, e ∈ acc.1 ∨ ∃ x ∈ added, Gives e.1 e.2 x) : Backed s acc' := by
  obtain ⟨before, hbefore, hold⟩ := h
  refine ⟨before ++ added, by rw [hlog, hbefore, append_assoc], fun e he => ?_⟩
  rcases hresult e he with he | ⟨x, hx, hgives⟩
  · obtain ⟨x, hx, hgives⟩ := hold e he
    exact ⟨x, mem_append_left _ hx, hgives⟩
  · exact ⟨x, mem_append_right _ hx, hgives⟩

theorem backed_fetchMoved {acc : List (Key × Bytes) × Session} (h : Backed s acc)
    (ctx : UInt64 × UInt64) (key : Key) : Backed s (c.fetchMoved w ctx acc key) := by
  obtain ⟨sent, hsent⟩ := @sendToOwner_routed c w key (getRequest ctx key) acc.2
  unfold fetchMoved
  dsimp only
  cases hsend : (c.sendToOwner w key (getRequest ctx key) acc.2).1 with
  | error e => exact h.extend hsent.log fun e he => .inl he
  | ok res =>
    refine h.extend hsent.log fun e he => (mem_emplaceOk he).imp_right fun ⟨hkey, hok⟩ => ?_
    obtain ⟨node, hmem⟩ := hsent.last (attempts_ne_zero hsend)
    rw [hsend] at hmem
    exact ⟨_, hmem, .single rfl hkey.symm hok⟩

theorem batchLoop_spec (node : NodeId) (reqs : List Request) (left : Nat) (e : Errc) (s : Session) :
    ∃ added, (batchLoop w node reqs left (.error e) s).2.log = s.log ++ added ∧
      ∀ answers, (batchLoop w node reqs left (.error e) s).1 = .ok answers →
        .batch node reqs (.ok answers) ∈ added := by
  induction left generalizing e s with
  | zero => exact ⟨[], (append_nil _).symm, fun _ h => nomatch h⟩
  | succ left ih =>
    rw [batchLoop]
    split
    · refine ⟨[.batch node reqs (w.sendBatch s.log node reqs)], rfl, fun answers h => ?_⟩
      have hsame : w.sendBatch s.log node reqs = .ok answers := h
      rw [hsame]
      exact mem_cons_self
    · rename_i hretry
      cases hbatch : (s.sendBatch w node reqs).1 with
      | ok answers => exact absurd (.inl (by rw [hbatch]; rfl)) hretry
      | error e' =>
        obtain ⟨added, hlog, hlast⟩ := ih e' (s.sendBatch w node reqs).2
        refine ⟨.batch node reqs (w.sendBatch s.log node reqs) :: added, ?_, fun answers h =>
          mem_cons_of_mem _ (hlast answers h)⟩
        rw [hlog]
        simp [Session.sendBatch]

theorem backed_fetchGroup {acc : List (Key × Bytes) × Session} (h : Backed s acc)
    (ctx : UInt64 × UInt64) (group : NodeId × List Key) :
    Backed s (c.fetchGroup w ctx acc group) := by
  obtain ⟨added, hlog, hlast⟩ := @batchLoop_spec w group.1 (group.2.map (getRequest ctx))
    (c.maxRetries + 1).toNat .notReady acc.2
  unfold fetchGroup
  dsimp only
  cases hbatch : (batchLoop w group.1 (group.2.map (getRequest ctx)) (c.maxRetries + 1).toNat
      (.error .notReady) acc.2).1 with
  | error e => exact h.extend hlog fun e he => .inl he
  | ok answers =>
    refine foldlRecOn _ _ (h.extend hlog fun e he => (mem_foldl_emplaceOk he).imp_right
      fun ⟨pair, hpair, hkey, hok⟩ => ?_) fun acc hacc key _ => backed_fetchMoved hacc ctx key
    -- the answers are taken one by one, each for the key of its place
    obtain ⟨i, hi⟩ := mem_iff_getElem?.mp hpair
    obtain ⟨hplace, hres⟩ := getElem?_zip_eq_some.mp hi
    have hreq : (group.2.map (getRequest ctx))[i]? = some (getRequest ctx pair.1) := by
      rw [getElem?_map, hplace]
      rfl
    exact ⟨_, hlast answers hbatch, .batch hreq hres rfl hkey.symm hok⟩

theorem multiGet_answered (c : CacheClient) (w : Servers) (ctx : UInt64 × UInt64) (keys : List Key)
    (s : Session) {key : Key} {value : Bytes} (h : (key, value) ∈ (c.multiGet w ctx keys s).1) :
    Answered s (c.multiGet w ctx keys s).2 key value := by
  have hback : Backed s (c.multiGet w ctx keys s) :=
    foldlRecOn _ _ ⟨[], (append_nil _).symm, fun _ he => absurd he not_mem_nil⟩
      fun acc hacc group _ => backed_fetchGroup hacc ctx group
  obtain ⟨added, hlog, hresult⟩ := hback
  obtain ⟨x, hx, hgives⟩ := hresult _ h
  refine ⟨x, ?_, hgives⟩
  rw [hlog, drop_left]
  exact hx

/-- **The client and what it was told**: `multiGet` never invents a value; `get` does not exactly
if it makes no attempt, or if no answer but an OK has a body. -/
theorem client_never_invents_iff (c : CacheClient) (allowed : Response → Prop) :
    ((∀ w, AnswersIn w allowed → GetsAnswered c w) ↔
        c.maxRetries < 0 ∨ ∀ res, allowed res → res.status ≠ .ok → res.value = none) ∧
      ∀ w ctx keys s, ∀ e ∈ (c.multiGet w ctx keys s).1,
        Answered s (c.multiGet w ctx keys s).2 e.1 e.2 :=
  ⟨getsAnswered_iff c allowed, fun w ctx keys s _ he => multiGet_answered c w ctx keys s he⟩

/-- Every node, `b` too, redirects to `b`: the chain ends there, and `get` returns the text of the
redirect. -/
theorem redirect_surfaces :
    let c : CacheClient := ⟨fun _ => [1], 2⟩
    let w := always { status := .notReady, value := some (text "moved to b") }
    (c.get w (0, 0) [7] {}).1 = some (text "moved to b") ∧ ¬ GetsAnswered c w := by
  have hretries : (0 : Int) ≤ (⟨fun _ => [1], 2⟩ : CacheClient).maxRetries := by decide
  exact ⟨(get_always hretries _ _).1, not_getsAnswered_always hretries (by decide) rfl⟩

end CacheClient

end Cinder
