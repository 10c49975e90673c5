/-
What the ring answers depends on its members only, not on the calls that made it
(`src/hashing/consistent_hash_ring.cpp`).

The numbering of the nodes depends on the history; the list of vnodes with the NAMES of their
nodes does not. `getNode` and `getNodes` read the arrays through that list.
-/
import Cinder.Hashing.RingUpdates

namespace Cinder

open List

/-! ## 1. Readers see named vnodes -/

namespace RingSnapshot

variable (snap : RingSnapshot)

def points : List (UInt64 × NodeId) := snap.vnodes.map fun v => (v.1, snap.physicalNodes.get v.2)

theorem startOf_eq (h : UInt64) : snap.startOf h = Circle.start snap.points h := by
  unfold startOf Circle.start points
  rw [findIdx_map, length_map]
  rfl

theorem getNode_eq (hash64 : Bytes → UInt64) (key : Key) :
    snap.getNode hash64 key = (Circle.owner snap.points (hash64 key)).getD [] := by
  unfold getNode Circle.owner
  rw [← startOf_eq, points, getElem?_map, Option.map_map]
  cases snap.vnodes[snap.startOf (hash64 key)]? with
  | _ => rfl

theorem collectNodes_eq (n : Nat) (walk : List (UInt64 × Fin snap.physicalNodes.length))
    (seen : List (Fin snap.physicalNodes.length)) :
    snap.collectNodes n walk seen (seen.map snap.physicalNodes.get) =
      Circle.collect n (walk.map fun v => snap.physicalNodes.get v.2)
        (seen.map snap.physicalNodes.get) := by
  induction walk generalizing seen with
  | nil => rfl
  | cons v walk ih =>
    have hinj : Function.Injective snap.physicalNodes.get := nodup_iff_injective_get.mp snap.nodup
    have hseen : snap.physicalNodes.get v.2 ∈ seen.map snap.physicalNodes.get ↔ v.2 ∈ seen :=
      mem_map_of_injective hinj
    rw [collectNodes, map_cons, Circle.collect]
    simp only [Nat.cast_lt, hseen]
    split
    · split
      · exact ih seen
      · have hnext := ih (seen ++ [v.2])
        rwa [map_append] at hnext
    · rfl

theorem getNodes_eq (hash64 : Bytes → UInt64) (key : Key) (replicaCount : Int) :
    snap.getNodes hash64 key replicaCount =
      if replicaCount ≤ 0 ∨ kMaxReplicas < replicaCount then
        .error "replica_count must be between 1 and 32"
      else .ok (Circle.owners replicaCount.toNat snap.points (hash64 key)) := by
  unfold getNodes
  split
  · rfl
  · rename_i hcount
    have hcast : (replicaCount.toNat : Int) = replicaCount := by omega
    have hloop := snap.collectNodes_eq replicaCount.toNat
      (snap.walkFrom (snap.startOf (hash64 key))) []
    have hwalk : (snap.walkFrom (snap.startOf (hash64 key))).map
          (fun v => snap.physicalNodes.get v.2) =
        (Circle.walk snap.points (Circle.start snap.points (hash64 key))).map Prod.snd := by
      rw [walkFrom, Circle.walk, ← startOf_eq, points]
      simp only [map_append, map_drop, map_take, map_map]
      rfl
    rw [hcast, hwalk] at hloop
    split
    · rename_i hempty
      simp [Circle.owners, Circle.walk, Circle.collect, points, hempty]
    · exact congrArg Except.ok hloop

end RingSnapshot

/-! ## 2. The snapshot of well-formed arrays -/

namespace RingArrays

variable {cfg : RingConfig} {r : RingArrays}

def toSnapshot (r : RingArrays) (h : r.Wf cfg) : RingSnapshot where
  physicalNodes := r.physicalNodes
  vnodes := (r.hashes.zip r.nodeIndex).pmap (fun v hv => (v.1, ⟨v.2.toNat, hv⟩)) h.inRange_zip
  sorted := by
    refine pairwise_map.mp ?_
    rw [map_pmap, pmap_eq_map]
    exact pairwise_map.mpr h.sorted_zip
  nodup := h.nodup

theorem points_toSnapshot (h : r.Wf cfg) : (r.toSnapshot h).points = r.points := by
  unfold RingSnapshot.points points toSnapshot
  rw [map_pmap]
  refine (pmap_congr_left _ fun v hv h₁ h₂ => ?_).trans (pmap_eq_map h.inRange_zip)
  rw [nodeAt, getD_eq_getElem _ _ h₁]
  rfl

def ownedHashes (r : RingArrays) (node : NodeId) : List UInt64 :=
  ((r.hashes.zip r.nodeIndex).filter fun v => decide (r.nodeAt v.2 = node)).map Prod.fst

theorem Wf.ownedHashes_perm (h : r.Wf cfg) {node : NodeId} (hnode : node ∈ r.physicalNodes) :
    (r.ownedHashes node).Perm ((range cfg.vnodesPerNode).map (cfg.hashVnode node)) := by
  have howned : r.ownedHashes node =
      (r.points.filter fun p => decide (p.2 = node)).map Prod.fst := by
    rw [ownedHashes, RingArrays.points, filter_map, map_map]
    rfl
  have honly : (r.physicalNodes.filter fun id => decide (id = node)) = [node] := by
    have hcount := count_eq_one_of_mem h.nodup hnode
    rw [filter_eq, hcount]
    rfl
  have hperm := RingConfig.points_filter_perm h fun id => decide (id = node)
  rw [honly, flatMap_singleton] at hperm
  rw [howned]
  refine (hperm.map Prod.fst).trans (List.Perm.of_eq ?_)
  rw [RingConfig.vnodesOf, map_map]
  rfl

end RingArrays

/-! ## 3. Histories with the same members -/

theorem vnodeLabel_inj {a b : NodeId} {i j : Nat} (h : vnodeLabel a i = vnodeLabel b j) :
    a = b ∧ i = j := by
  obtain ⟨hnode, hindex⟩ := append_cons_inj_of_notMem_right (dash_notMem_decimal i)
    (dash_notMem_decimal j) h
  exact ⟨hnode, decimal_inj hindex⟩

variable (cfg : RingConfig)

/-- The hash tells the labels of these nodes apart. -/
def RingConfig.LabelsApart (nodes : List NodeId) : Prop :=
  ∀ a ∈ nodes, ∀ b ∈ nodes, ∀ i < cfg.vnodesPerNode, ∀ j < cfg.vnodesPerNode,
    vnodeLabel a i ≠ vnodeLabel b j → cfg.hashVnode a i ≠ cfg.hashVnode b j

instance (nodes : List NodeId) : Decidable (cfg.LabelsApart nodes) :=
  inferInstanceAs (Decidable (∀ a ∈ nodes, ∀ b ∈ nodes, ∀ i < cfg.vnodesPerNode,
    ∀ j < cfg.vnodesPerNode, vnodeLabel a i ≠ vnodeLabel b j →
      cfg.hashVnode a i ≠ cfg.hashVnode b j))

theorem point_eq_of_hash {cfg : RingConfig} {nodes : List NodeId} (h : cfg.LabelsApart nodes) :
    ∀ p ∈ nodes.flatMap cfg.vnodesOf, ∀ q ∈ nodes.flatMap cfg.vnodesOf, p.1 = q.1 → p = q := by
  intro p hp q hq hhash
  obtain ⟨a, ha, hp⟩ := mem_flatMap.mp hp
  obtain ⟨i, hi, rfl⟩ := mem_map.mp hp
  obtain ⟨b, hb, hq⟩ := mem_flatMap.mp hq
  obtain ⟨j, hj, rfl⟩ := mem_map.mp hq
  by_cases hlabel : vnodeLabel a i = vnodeLabel b j
  · obtain ⟨rfl, rfl⟩ := vnodeLabel_inj hlabel
    rfl
  · exact absurd hhash (h a ha b hb i (mem_range.mp hi) j (mem_range.mp hj) hlabel)

theorem points_eq_of_members {cfg : RingConfig} {r r' : RingArrays} (h : r.Wf cfg) (h' : r'.Wf cfg)
    (hapart : cfg.LabelsApart r.physicalNodes)
    (hmembers : ∀ id, id ∈ r.physicalNodes ↔ id ∈ r'.physicalNodes) : r.points = r'.points := by
  have hsorted : ∀ {s : RingArrays}, s.Wf cfg → Circle.Sorted s.points :=
    fun hs => pairwise_map.mpr hs.sorted_zip
  have hnodes := (perm_ext_iff_of_nodup h.nodup h'.nodup).mpr hmembers
  refine Circle.eq_of_perm (fun p hp q hq => ?_) (hsorted h) (hsorted h')
    (h.points.trans ((hnodes.flatMap_right _).trans h'.points.symm))
  exact point_eq_of_hash hapart p (h.points.mem_iff.mp hp) q (h.points.mem_iff.mp hq)

def snapshotAfter (ops : List RingOp) : RingSnapshot :=
  (ringAfter cfg ops).toSnapshot (ringAfter_wf cfg ops)

/-- **The ring is a function of its membership**: after every history the arrays are sorted, aligned
and in range, every member owns exactly the hashes of its vnodes, and two histories that end with
the same members answer alike. -/
theorem ring_function_of_members :
    (∀ ops, (ringAfter cfg ops).hashes.Pairwise (· ≤ ·) ∧
      (ringAfter cfg ops).nodeIndex.length = (ringAfter cfg ops).hashes.length ∧
      (∀ index ∈ (ringAfter cfg ops).nodeIndex,
        index.toNat < (ringAfter cfg ops).physicalNodes.length) ∧
      ∀ node ∈ (ringAfter cfg ops).physicalNodes, ((ringAfter cfg ops).ownedHashes node).Perm
        ((range cfg.vnodesPerNode).map (cfg.hashVnode node))) ∧
    ∀ ops ops', cfg.LabelsApart (ringAfter cfg ops).physicalNodes →
      (∀ id, id ∈ (ringAfter cfg ops).physicalNodes ↔ id ∈ (ringAfter cfg ops').physicalNodes) →
      ∀ key, (snapshotAfter cfg ops).getNode cfg.hash64 key =
          (snapshotAfter cfg ops').getNode cfg.hash64 key ∧
        ∀ replicaCount, (snapshotAfter cfg ops).getNodes cfg.hash64 key replicaCount =
          (snapshotAfter cfg ops').getNodes cfg.hash64 key replicaCount := by
  constructor
  · intro ops
    have h := ringAfter_wf cfg ops
    exact ⟨h.sorted, h.aligned, h.inRange, fun node hnode => h.ownedHashes_perm hnode⟩
  · intro ops ops' hapart hmembers key
    have hpoints : (snapshotAfter cfg ops).points = (snapshotAfter cfg ops').points := by
      unfold snapshotAfter
      rw [RingArrays.points_toSnapshot, RingArrays.points_toSnapshot]
      exact points_eq_of_members (ringAfter_wf cfg ops) (ringAfter_wf cfg ops') hapart hmembers
    refine ⟨?_, fun replicaCount => ?_⟩
    · rw [RingSnapshot.getNode_eq, RingSnapshot.getNode_eq, hpoints]
    · rw [RingSnapshot.getNodes_eq, RingSnapshot.getNodes_eq, hpoints]

/-- Two vnodes a node, and a hash that reads the label as a number. -/
def twoVnodes : RingConfig where
  hash64 := fun bytes => bytes.foldl (fun h b => h * 7 + b.toUInt64) 0
  vnodesPerNode := 2
  positive := by decide
  fits := by norm_num

theorem ring_same_after_detour :
    (ringAfter twoVnodes [.addNode [1], .addNode [2]]).physicalNodes ≠
        (ringAfter twoVnodes
          [.setNodes [[3], [2], [3]], .addNode [1], .removeNode [3]]).physicalNodes ∧
      (snapshotAfter twoVnodes [.addNode [1], .addNode [2]]).getNodes twoVnodes.hash64 [5] 2 =
        (snapshotAfter twoVnodes
          [.setNodes [[3], [2], [3]], .addNode [1], .removeNode [3]]).getNodes
            twoVnodes.hash64 [5] 2 := by
  have hfirst : (ringAfter twoVnodes [.addNode [1], .addNode [2]]).physicalNodes = [[1], [2]] := by
    decide +kernel
  have hsecond : (ringAfter twoVnodes
      [.setNodes [[3], [2], [3]], .addNode [1], .removeNode [3]]).physicalNodes = [[2], [1]] := by
    decide +kernel
  refine ⟨by rw [hfirst, hsecond]; decide, ?_⟩
  refine (((ring_function_of_members twoVnodes).2 _ _ ?_ fun id => ?_) [5]).2 2
  · rw [hfirst]
    decide +kernel
  · rw [hfirst, hsecond]
    simp [or_comm]

/-! ## 4. The set of members -/

/-- What a call makes of the set of members; one that would not fit is refused. -/
def RingOp.members (s : Finset NodeId) (op : RingOp) : Finset NodeId :=
  let s' := match op with
    | .addNode nodeId => insert nodeId s
    | .removeNode nodeId => s.erase nodeId
    | .setNodes nodeIds => nodeIds.toFinset
  if s'.card ≤ kMaxPhysicalNodes then s' else s

namespace RingConfig

variable {cfg : RingConfig} {old : RingArrays}

theorem toFinset_of_wf {r : RingArrays} {s s' : Finset NodeId} (h : r.Wf cfg)
    (hmem : ∀ id, id ∈ r.physicalNodes ↔ id ∈ s') :
    r.physicalNodes.toFinset = if s'.card ≤ kMaxPhysicalNodes then s' else s := by
  obtain rfl : r.physicalNodes.toFinset = s' := Finset.ext fun id => mem_toFinset.trans (hmem id)
  rw [if_pos ((toFinset_card_of_nodup h.nodup).trans_le h.capacity)]

theorem addNode_isOk (h : old.Wf cfg) (nodeId : NodeId) : (cfg.addNode old nodeId).isOk = true ↔
    (insert nodeId old.physicalNodes.toFinset).card ≤ kMaxPhysicalNodes := by
  have hcard := toFinset_card_of_nodup h.nodup
  have hcapacity := h.capacity
  unfold addNode
  split_ifs with hin hfull
  · rw [Finset.insert_eq_of_mem (mem_toFinset.mpr hin), hcard]
    exact iff_of_true rfl hcapacity
  all_goals rw [Finset.card_insert_of_notMem (mt mem_toFinset.mp hin), hcard]
  · exact iff_of_false nofun (by omega)
  · exact iff_of_true rfl (by omega)

theorem setNodes_isOk (h : old.Wf cfg) (nodeIds : List NodeId) :
    (cfg.setNodes old nodeIds).isOk = true ↔ nodeIds.toFinset.card ≤ kMaxPhysicalNodes := by
  rw [card_toFinset]
  constructor
  · intro hok
    by_contra hover
    rw [setNodes, if_pos (not_le.mp hover)] at hok
    cases hok
  · intro hle
    obtain ⟨r, hok⟩ := setNodes_ok h hle
    rw [hok]
    rfl

theorem apply_members (h : old.Wf cfg) (op : RingOp) :
    (cfg.apply old op).physicalNodes.toFinset = op.members old.physicalNodes.toFinset := by
  cases op with
  | addNode nodeId =>
    have hiff := addNode_isOk h nodeId
    simp only [apply, RingOp.members]
    cases hr : cfg.addNode old nodeId with
    | ok r => exact toFinset_of_wf (addNode_wf h hr).1 fun id =>
        ((addNode_wf h hr).2 id).trans (by simp)
    | error e => exact (if_neg (mt hiff.mpr (by rw [hr]; exact Bool.false_ne_true))).symm
  | removeNode nodeId =>
    obtain ⟨hwf, hmem⟩ := removeNode_wf h nodeId
    exact toFinset_of_wf hwf fun id => (hmem id).trans (by simp)
  | setNodes nodeIds =>
    have hiff := setNodes_isOk h nodeIds
    simp only [apply, RingOp.members]
    cases hr : cfg.setNodes old nodeIds with
    | ok r => exact toFinset_of_wf (setNodes_wf h hr).1 fun id =>
        ((setNodes_wf h hr).2 id).trans (by simp)
    | error e => exact (if_neg (mt hiff.mpr (by rw [hr]; exact Bool.false_ne_true))).symm

end RingConfig

/-- **The ring refines a set of members**: after any calls its members are those of the set, with
the calls that do not fit refused; no other call throws. -/
theorem ring_refines_members (cfg : RingConfig) (ops : List RingOp) :
    (ringAfter cfg ops).physicalNodes.toFinset = ops.foldl RingOp.members ∅ ∧
      (∀ nodeId, (cfg.addNode (ringAfter cfg ops) nodeId).isOk = true ↔
        (insert nodeId (ops.foldl RingOp.members ∅)).card ≤ kMaxPhysicalNodes) ∧
      ∀ nodeIds, (cfg.setNodes (ringAfter cfg ops) nodeIds).isOk = true ↔
        nodeIds.toFinset.card ≤ kMaxPhysicalNodes := by
  have hmembers : (ringAfter cfg ops).physicalNodes.toFinset = ops.foldl RingOp.members ∅ := by
    induction ops using reverseRecOn with
    | nil => rfl
    | append_singleton ops op ih =>
      rw [ringAfter, foldl_append, foldl_append, ← ih]
      exact RingConfig.apply_members (ringAfter_wf cfg ops) op
  exact ⟨hmembers, hmembers ▸ RingConfig.addNode_isOk (ringAfter_wf cfg ops),
    RingConfig.setNodes_isOk (ringAfter_wf cfg ops)⟩

end Cinder
