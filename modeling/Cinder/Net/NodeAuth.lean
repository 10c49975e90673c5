/-
Tokens between nodes: what `TcpTransport` attaches and what `TcpConnection::checkAuth`
accepts (`src/common/hmac.cpp`, `src/net/tcp/transport.cpp`).

A token is the HMAC of the text `node_id:window`, a window being ten seconds of wall-clock time.
HMAC is a parameter: any function of secret and message, into any type of digests, injective
where a result needs it.
-/
import Cinder.Net.Connection
import Cinder.Hashing.Ring

namespace Cinder

/-! ## 1. The signed text -/

/-- `node_id + ":" + std::to_string(window)`. -/
def authData (nodeId : NodeId) (window : UInt64) : Bytes := nodeId ++ colon :: decimal window.toNat

def kClientAuthDomain : Bytes := text "cinder-client-v1"

theorem authData_inj {id₁ id₂ : NodeId} {w₁ w₂ : UInt64} :
    authData id₁ w₁ = authData id₂ w₂ ↔ id₁ = id₂ ∧ w₁ = w₂ := by
  constructor
  · intro h
    obtain ⟨hid, hw⟩ := append_cons_inj_of_notMem_right (colon_notMem_decimal _)
      (colon_notMem_decimal _) h
    exact ⟨hid, UInt64.toNat_inj.mp (decimal_inj hw)⟩
  · rintro ⟨rfl, rfl⟩
    rfl

theorem authData_ne_clientDomain (id : NodeId) (w : UInt64) :
    authData id w ≠ kClientAuthDomain := by
  intro h
  have hmem : colon ∈ authData id w := by simp [authData]
  rw [h] at hmem
  exact absurd hmem (by decide)

/-! ## 2. Tokens -/

section Tokens

variable {Digest : Type} [DecidableEq Digest] (hmac : Bytes → Bytes → Digest)

/-- `generateAuthToken` at wall-clock second `now`; `none` is the empty token. -/
def generateAuthToken (secret : Bytes) (nodeId : NodeId) (now : UInt64) : Option Digest :=
  if secret = [] then none else some (hmac secret (authData nodeId (now / 10)))

/-- `verifyAuthToken` at wall-clock second `now`. A token that arrived has the length of a
digest: the encoder refuses any other and the decoder reads that many bytes. -/
def verifyAuthToken (secret : Bytes) (nodeId : NodeId) (token : Option Digest) (now : UInt64)
    (windowSeconds : Nat := 30) : Bool :=
  match token with
  | none => false
  | some t =>
    secret ≠ [] && (List.range (windowSeconds / 10 + 2)).any fun i =>
      decide (t = hmac secret (authData nodeId (now / 10 - UInt64.ofNat i)))

def verifyClientAuthToken (secret : Bytes) (token : Option Digest) : Bool :=
  match token with
  | none => false
  | some t => secret ≠ [] && decide (t = hmac secret kClientAuthDomain)

/-- What a node is configured with, its transport and its server alike. -/
structure Peer where
  nodeId : NodeId
  sharedSecret : Bytes := []
  clientSecret : Bytes := []

/-- The token `TcpTransport::sendAsync` and `sendRequestAsync` attach. -/
def transportToken (sender : Peer) (now : UInt64) : Option Digest :=
  if sender.sharedSecret ≠ [] ∧ sender.nodeId ≠ [] then
    generateAuthToken hmac sender.sharedSecret sender.nodeId now
  else none

/-- `checkAuth` of the connection at `receiver`, at wall-clock second `now`. Both checks
run with the receiver's own configuration, its node id included. -/
def accepts (receiver : Peer) (now : UInt64) (op : Opcode) (token : Option Digest) : Bool :=
  checkAuth { clusterAuth := receiver.sharedSecret ≠ [], clientAuth := receiver.clientSecret ≠ [] }
    (classifyOpcode op)
    { nodeTokenOk := verifyAuthToken hmac receiver.sharedSecret receiver.nodeId token now
      clientTokenOk := verifyClientAuthToken hmac receiver.clientSecret token }

/-- The requests nodes send each other: replication, hints, gossip, anti-entropy, the
failure detector's ping and the versioned read of a quorum. -/
def nodeRequests : List Opcode :=
  [.replicate, .hint, .gossip, .antiEntropyDigest, .antiEntropySync, .ping, .getVersioned]

theorem classifyOpcode_ne_admin {op : Opcode} (h : op ∈ nodeRequests) :
    classifyOpcode op ≠ .admin := by
  revert op
  decide

variable {hmac} (hinj : Function.Injective2 hmac)
include hinj

theorem verifyAuthToken_iff (secret : Bytes) (id id' : NodeId) (w now : UInt64)
    (windowSeconds : Nat) :
    verifyAuthToken hmac secret id' (some (hmac secret (authData id w))) now windowSeconds = true ↔
      secret ≠ [] ∧ id = id' ∧
        ∃ i ≤ windowSeconds / 10 + 1, w = now / 10 - UInt64.ofNat i := by
  simp only [verifyAuthToken, Bool.and_eq_true, decide_eq_true_eq, List.any_eq_true, List.mem_range]
  constructor
  · rintro ⟨hs, i, hi, heq⟩
    obtain ⟨hid, hw⟩ := authData_inj.mp (hinj heq).2
    exact ⟨hs, hid, i, by omega, hw⟩
  · rintro ⟨hs, rfl, i, hi, rfl⟩
    exact ⟨hs, i, by omega, rfl⟩

theorem verify_transportToken {sender receiver : Peer} (hid : sender.nodeId ≠ receiver.nodeId)
    (hshared : sender.sharedSecret = receiver.sharedSecret) (sent now : UInt64) :
    verifyAuthToken hmac receiver.sharedSecret receiver.nodeId
      (transportToken hmac sender sent) now = false := by
  unfold transportToken generateAuthToken
  split
  · rw [if_neg (by tauto), Bool.eq_false_iff, hshared]
    intro h
    exact hid ((verifyAuthToken_iff hinj _ _ _ _ _ _).mp h).2.1
  · rfl

theorem verifyClient_transportToken (sender : Peer) (secret : Bytes) (sent : UInt64) :
    verifyClientAuthToken hmac secret (transportToken hmac sender sent) = false := by
  unfold transportToken generateAuthToken
  split
  · rw [if_neg (by tauto)]
    simp only [verifyClientAuthToken, Bool.and_eq_false_iff, decide_eq_false_iff_not]
    exact .inr fun h => authData_ne_clientDomain _ _ (hinj h).2
  · rfl

/-- **Which requests pass between two nodes.** For different node ids under the same secrets and any
clock readings, a request passes exactly if client authentication is off and, for the replication
opcodes, the shared secret is empty too. -/
theorem node_request_accepted_iff (sender receiver : Peer) (hid : sender.nodeId ≠ receiver.nodeId)
    (hshared : sender.sharedSecret = receiver.sharedSecret)
    (sent now : UInt64) {op : Opcode} (hop : op ∈ nodeRequests) :
    accepts hmac receiver now op (transportToken hmac sender sent) = true ↔
      receiver.clientSecret = [] ∧
        (classifyOpcode op = .replication → receiver.sharedSecret = []) := by
  have hnode := verify_transportToken hinj hid hshared sent now
  have hclient := verifyClient_transportToken hinj sender receiver.clientSecret sent
  have hadmin := classifyOpcode_ne_admin hop
  simp only [accepts, checkAuth, hnode, hclient]
  by_cases hrepl : classifyOpcode op = .replication <;> by_cases hs : receiver.sharedSecret = [] <;>
      by_cases hc : receiver.clientSecret = [] <;> simp [hrepl, hs, hc, hadmin]

end Tokens

/-- A ping passes: without client authentication no token is asked for. -/
theorem ping_between_nodes_accepted :
    accepts Prod.mk { nodeId := [98], sharedSecret := [1] } 1010 .ping
      (transportToken Prod.mk { nodeId := [97], sharedSecret := [1] } 1000) = true :=
  (node_request_accepted_iff (fun _ _ _ _ h => Prod.mk.inj h)
    { nodeId := [97], sharedSecret := [1] } { nodeId := [98], sharedSecret := [1] }
      (by decide) rfl 1000 1010 (by decide)).mpr ⟨rfl, by decide⟩

/-- Nodes "a" and "b" share a secret, their clocks agree, and the replicated write is refused; with
a client secret the ping is refused as well. -/
theorem replicate_between_nodes_denied :
    accepts Prod.mk { nodeId := [98], sharedSecret := [1] } 1000 .replicate
      (transportToken Prod.mk { nodeId := [97], sharedSecret := [1] } 1000) = false ∧
    accepts Prod.mk { nodeId := [98], sharedSecret := [1], clientSecret := [2] } 1000 .ping
      (transportToken Prod.mk
        { nodeId := [97], sharedSecret := [1], clientSecret := [2] } 1000) = false := by
  decide +kernel

end Cinder
