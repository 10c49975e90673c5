/-
Owner and replica set of a key on the consistent-hash ring
(`src/hashing/consistent_hash_ring.cpp`: `RingSnapshot`, `getNode`, `getNodes`).

A snapshot is immutable, so a reader works on one value of `RingSnapshot`. The vectors `hashes`
and `node_index` are one list of pairs here; that an index points into `physical_nodes` and that
no node is listed twice is part of the type. The hash is a parameter.
-/
import Cinder.Common.Types

namespace Cinder

abbrev NodeId := Bytes

def kMaxReplicas : Int := 32

structure RingSnapshot where
  physicalNodes : List NodeId
  /-- `hashes[i]` with `node_index[i]`. -/
  vnodes : List (UInt64 × Fin physicalNodes.length)
  sorted : vnodes.Pairwise fun a b => a.1 ≤ b.1
  nodup : physicalNodes.Nodup

namespace RingSnapshot

variable (snap : RingSnapshot)

/-- `lower_bound(hashes, h)`, back to the first vnode past the last one. -/
def startOf (h : UInt64) : Nat :=
  let idx := snap.vnodes.findIdx fun v => decide (h ≤ v.1)
  if idx = snap.vnodes.length then 0 else idx

/-- The owner of a key; the empty id on an empty ring. -/
def getNode (hash64 : Bytes → UInt64) (key : Key) : NodeId :=
  match snap.vnodes[snap.startOf (hash64 key)]? with
  | some v => snap.physicalNodes.get v.2
  | none => []

/-- The vnodes in the order the walk meets them: from `start` to the end, then from the
beginning, stopping before `start` comes up again. -/
def walkFrom (start : Nat) : List (UInt64 × Fin snap.physicalNodes.length) :=
  snap.vnodes.drop start ++ snap.vnodes.take start

/-- The loop of `getNodes`; `seen` and `result` grow together. -/
def collectNodes (replicaCount : Int) :
    List (UInt64 × Fin snap.physicalNodes.length) → List (Fin snap.physicalNodes.length) →
      List NodeId → List NodeId
  | [], _, result => result
  | v :: rest, seen, result =>
    if (result.length : Int) < replicaCount then
      if v.2 ∈ seen then collectNodes replicaCount rest seen result
      else
        collectNodes replicaCount rest (seen ++ [v.2]) (result ++ [snap.physicalNodes.get v.2])
    else result

/-- The loop of `getNodes` with its cursor; `none` when it is not done after so many rounds. -/
def walkLoop (replicaCount : Int) (start : Nat) :
    (fuel : Nat) → (cur : Nat) → List (Fin snap.physicalNodes.length) → List NodeId →
      Option (List NodeId)
  | 0, _, _, _ => none
  | fuel + 1, cur, seen, result =>
    if (result.length : Int) < replicaCount then do
      let v ← snap.vnodes[cur]?
      let seen' := if v.2 ∈ seen then seen else seen ++ [v.2]
      let result' := if v.2 ∈ seen then result else result ++ [snap.physicalNodes.get v.2]
      let next := if cur + 1 = snap.vnodes.length then 0 else cur + 1
      if next = start then some result' else walkLoop replicaCount start fuel next seen' result'
    else some result

def getNodes (hash64 : Bytes → UInt64) (key : Key) (replicaCount : Int) :
    Except String (List NodeId) :=
  if replicaCount ≤ 0 ∨ kMaxReplicas < replicaCount then
    .error "replica_count must be between 1 and 32"
  else if snap.vnodes = [] then .ok []
  else .ok (snap.collectNodes replicaCount (snap.walkFrom (snap.startOf (hash64 key))) [] [])

theorem collectNodes_nodup {n : Int} {walk : List (UInt64 × Fin snap.physicalNodes.length)}
    {seen : List (Fin snap.physicalNodes.length)} {result : List NodeId}
    (hseen : seen.Nodup) (hres : result = seen.map snap.physicalNodes.get) :
    (snap.collectNodes n walk seen result).Nodup := by
  induction walk generalizing seen result with
  | nil =>
    rw [collectNodes, hres]
    exact hseen.map (List.nodup_iff_injective_get.mp snap.nodup)
  | cons v rest ih =>
    unfold collectNodes
    split
    · split
      · exact ih hseen hres
      · rename_i hnew
        refine ih (List.nodup_append.mpr ⟨hseen, List.nodup_singleton _, ?_⟩) ?_
        · rintro i hi j hj rfl
          exact hnew (List.mem_singleton.mp hj ▸ hi)
        · simp [hres]
    · rw [hres]
      exact hseen.map (List.nodup_iff_injective_get.mp snap.nodup)

variable {snap} {hash64 : Bytes → UInt64} {key : Key} {n : Int} {desired : List NodeId}

theorem getNodes_nodup (h : snap.getNodes hash64 key n = .ok desired) : desired.Nodup := by
  unfold getNodes at h
  split at h
  · cases h
  · split at h <;> cases h
    · exact .nil
    · exact snap.collectNodes_nodup .nil rfl

end RingSnapshot

end Cinder
