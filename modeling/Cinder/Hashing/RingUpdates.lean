/-
The three mutators of the ring on its arrays (`src/hashing/consistent_hash_ring.cpp`:
`addNode`, `setNodes`, `removeNode`, `hashVnode`).

`addNode` sorts everything again, `setNodes` merges the sorted run of the new vnodes into what is
left of the old arrays, `removeNode` filters and shifts the indices above the removed one. A
publish is atomic, so one call is one step; a thrown exception leaves the ring as it was.
-/
import Cinder.Common.Text
import Cinder.Hashing.Ring
import Cinder.Lib.Circle
import Mathlib.Tactic.NormNum

namespace Cinder

open List

/-! ## 1. The arrays and their mutators -/

/-- The vectors of one published snapshot; a load cell is the number in it. -/
structure RingArrays where
  hashes : List UInt64 := []
  nodeIndex : List UInt16 := []
  physicalNodes : List NodeId := []
  loadCells : List UInt64 := []
  deriving DecidableEq, Repr

/-- `ConsistentHashRing` without its snapshot. The number of vnodes is an `int`, and the
constructor throws unless it is positive. -/
structure RingConfig where
  hash64 : Bytes → UInt64
  vnodesPerNode : Nat
  positive : 0 < vnodesPerNode
  fits : vnodesPerNode < 2 ^ 31

def kMaxPhysicalNodes : Nat := 65536

/-- `std::vector<VnodeEntry>::max_size()`: `(2^63 - 1) / 16`, an entry has 16 bytes. -/
def kMaxVnodeEntries : Nat := 576460752303423487

/-- `std::format("{}-{}", node_id, vnode_index)`. -/
def vnodeLabel (nodeId : NodeId) (vnodeIndex : Nat) : Bytes := nodeId ++ dash :: decimal vnodeIndex

namespace RingConfig

variable (cfg : RingConfig)

def hashVnode (nodeId : NodeId) (vnodeIndex : Nat) : UInt64 :=
  cfg.hash64 (vnodeLabel nodeId vnodeIndex)

/-- Both vectors through one order of positions, sorted by hash. Which order equal hashes get is
left open by `std::ranges::sort`. -/
def sortTogether (hashes : List UInt64) (nodeIndex : List UInt16) : List UInt64 × List UInt16 :=
  let order := (range hashes.length).insertionSort fun i j => hashes.getD i 0 ≤ hashes.getD j 0
  (order.map fun i => hashes.getD i 0, order.map fun i => nodeIndex.getD i 0)

def addNode (old : RingArrays) (nodeId : NodeId) : Except String RingArrays :=
  if nodeId ∈ old.physicalNodes then .ok old
  else if kMaxPhysicalNodes ≤ old.physicalNodes.length then
    .error "consistent hash ring exceeds uint16 node index capacity"
  else
    let physicalNodes := old.physicalNodes ++ [nodeId]
    let physIdx := UInt16.ofNat (physicalNodes.length - 1)
    let vnodes := range cfg.vnodesPerNode
    let sorted := sortTogether (old.hashes ++ vnodes.map (cfg.hashVnode nodeId))
      (old.nodeIndex ++ vnodes.map fun _ => physIdx)
    .ok { hashes := sorted.1, nodeIndex := sorted.2, physicalNodes
          loadCells := old.loadCells ++ [0] }

/-- What `setNodes` builds up; no entry of `remap` is `UINT32_MAX`. -/
structure Membership where
  physicalNodes : List NodeId := []
  loadCells : List UInt64 := []
  remap : List (Option UInt16) := []
  addedVnodes : List (UInt64 × UInt16) := []

/-- Survivors keep their order and their cells. -/
def retainNodes (desired : List NodeId) : List (NodeId × UInt64) → Membership → Membership
  | [], m => m
  | (id, cell) :: rest, m =>
    if id ∈ desired then
      retainNodes desired rest
        { m with physicalNodes := m.physicalNodes ++ [id], loadCells := m.loadCells ++ [cell]
                 remap := m.remap ++ [some (UInt16.ofNat m.physicalNodes.length)] }
    else retainNodes desired rest { m with remap := m.remap ++ [none] }

/-- New members append in supplied order; `new_index` holds the ids listed so far. -/
def appendNodes : List NodeId → Membership → Membership
  | [], m => m
  | id :: rest, m =>
    if id ∈ m.physicalNodes then appendNodes rest m
    else
      let index := UInt16.ofNat m.physicalNodes.length
      appendNodes rest
        { m with physicalNodes := m.physicalNodes ++ [id], loadCells := m.loadCells ++ [0]
                 addedVnodes := m.addedVnodes ++
                   (range cfg.vnodesPerNode).map fun i => (cfg.hashVnode id i, index) }

/-- The merge of the old run, removed nodes skipped, with the run of the new vnodes. -/
def mergeRuns (remap : List (Option UInt16)) :
    List (UInt64 × UInt16) → List (UInt64 × UInt16) → List (UInt64 × UInt16)
  | [] => fun added => added
  | (hash, index) :: old =>
    match remap.getD index.toNat none with
    | none => mergeRuns remap old
    | some index' => Circle.emit (hash, index') (mergeRuns remap old)

def setNodes (old : RingArrays) (nodeIds : List NodeId) : Except String RingArrays :=
  let desired := nodeIds.dedup
  if kMaxPhysicalNodes < desired.length then
    .error "consistent hash ring exceeds uint16 node index capacity"
  else if old.physicalNodes.length = desired.length ∧ ∀ id ∈ old.physicalNodes, id ∈ desired then
    .ok old
  else if kMaxVnodeEntries / cfg.vnodesPerNode < desired.length then
    .error "consistent hash ring vnode count overflows storage"
  else
    let m := cfg.appendNodes nodeIds
      (retainNodes desired (old.physicalNodes.zip old.loadCells) {})
    if m.physicalNodes.length ≠ desired.length then
      .error "consistent hash membership normalization mismatch"
    else
      let added := m.addedVnodes.insertionSort fun a b => a.1 ≤ b.1
      let merged := mergeRuns m.remap (old.hashes.zip old.nodeIndex) added
      .ok { hashes := merged.map Prod.fst, nodeIndex := merged.map Prod.snd
            physicalNodes := m.physicalNodes, loadCells := m.loadCells }

/-- A vnode that stays, with its index shifted; `none` for one of the removed node. -/
def shiftVnode (physIndex : UInt16) (vnode : UInt64 × UInt16) : Option (UInt64 × UInt16) :=
  if vnode.2 = physIndex then none
  else some (vnode.1, if physIndex < vnode.2 then vnode.2 - 1 else vnode.2)

def removeNode (old : RingArrays) (nodeId : NodeId) : RingArrays :=
  let physIdx := old.physicalNodes.idxOf nodeId
  if physIdx = old.physicalNodes.length then old
  else
    let kept := (old.hashes.zip old.nodeIndex).filterMap (shiftVnode (UInt16.ofNat physIdx))
    if kept.length = old.hashes.length then old
    else
      { hashes := kept.map Prod.fst, nodeIndex := kept.map Prod.snd
        physicalNodes := old.physicalNodes.eraseIdx physIdx
        loadCells := old.loadCells.eraseIdx physIdx }

end RingConfig

inductive RingOp where
  | addNode (nodeId : NodeId)
  | removeNode (nodeId : NodeId)
  | setNodes (nodeIds : List NodeId)
  deriving DecidableEq, Repr

/-- One call; an exception leaves the ring. -/
def RingConfig.apply (cfg : RingConfig) (r : RingArrays) : RingOp → RingArrays
  | .addNode nodeId => (cfg.addNode r nodeId).toOption.getD r
  | .removeNode nodeId => RingConfig.removeNode r nodeId
  | .setNodes nodeIds => (cfg.setNodes r nodeIds).toOption.getD r

def ringAfter (cfg : RingConfig) (ops : List RingOp) : RingArrays := ops.foldl cfg.apply {}

/-! ## 2. Well-formed arrays -/

namespace RingArrays

def nodeAt (r : RingArrays) (index : UInt16) : NodeId := r.physicalNodes.getD index.toNat []

/-- The vnodes with the names of their nodes. -/
def points (r : RingArrays) : List (UInt64 × NodeId) :=
  (r.hashes.zip r.nodeIndex).map fun v => (v.1, r.nodeAt v.2)

end RingArrays

def RingConfig.vnodesOf (cfg : RingConfig) (nodeId : NodeId) : List (UInt64 × NodeId) :=
  (range cfg.vnodesPerNode).map fun i => (cfg.hashVnode nodeId i, nodeId)

/-- Sorted, aligned, in range, and with every vnode of every member once. -/
structure RingArrays.Wf (cfg : RingConfig) (r : RingArrays) : Prop where
  aligned : r.nodeIndex.length = r.hashes.length
  cells : r.loadCells.length = r.physicalNodes.length
  nodup : r.physicalNodes.Nodup
  capacity : r.physicalNodes.length ≤ kMaxPhysicalNodes
  inRange : ∀ index ∈ r.nodeIndex, index.toNat < r.physicalNodes.length
  sorted : r.hashes.Pairwise (· ≤ ·)
  points : r.points.Perm (r.physicalNodes.flatMap cfg.vnodesOf)

namespace RingArrays

variable {cfg : RingConfig} {r : RingArrays}

theorem wf_of_vnodes {vnodes : List (UInt64 × UInt16)} {physicalNodes : List NodeId}
    {loadCells : List UInt64} (hcells : loadCells.length = physicalNodes.length)
    (hnodup : physicalNodes.Nodup) (hcapacity : physicalNodes.length ≤ kMaxPhysicalNodes)
    (hrange : ∀ v ∈ vnodes, v.2.toNat < physicalNodes.length) (hsorted : Circle.Sorted vnodes)
    (hpoints : (vnodes.map fun v => (v.1, physicalNodes.getD v.2.toNat [])).Perm
      (physicalNodes.flatMap cfg.vnodesOf)) :
    Wf cfg { hashes := vnodes.map Prod.fst, nodeIndex := vnodes.map Prod.snd, physicalNodes
             loadCells } := by
  refine ⟨?_, hcells, hnodup, hcapacity, ?_, pairwise_map.mpr hsorted, ?_⟩
  · rw [length_map, length_map]
  · intro index hindex
    obtain ⟨v, hv, rfl⟩ := mem_map.mp hindex
    exact hrange v hv
  · show (((vnodes.map Prod.fst).zip (vnodes.map Prod.snd)).map _).Perm _
    rw [zip_map', map_map]
    exact hpoints

theorem Wf.sorted_zip (h : Wf cfg r) : Circle.Sorted (r.hashes.zip r.nodeIndex) := by
  refine pairwise_map.mp ?_
  rw [map_fst_zip h.aligned.ge]
  exact h.sorted

theorem Wf.inRange_zip (h : Wf cfg r) :
    ∀ v ∈ r.hashes.zip r.nodeIndex, v.2.toNat < r.physicalNodes.length := by
  intro v hv
  exact h.inRange v.2 (of_mem_zip hv).2

theorem wf_empty (cfg : RingConfig) : Wf cfg {} :=
  ⟨rfl, rfl, .nil, Nat.zero_le _, forall_mem_nil _, .nil, .nil⟩

end RingArrays

/-! ## 3. `addNode` -/

namespace RingConfig

variable {cfg : RingConfig} {old : RingArrays} {nodeId : NodeId}

theorem toNat_ofNat_index {n : Nat} (h : n < kMaxPhysicalNodes) : (UInt16.ofNat n).toNat = n :=
  UInt16.toNat_ofNat_of_lt' h

theorem range_map_getD {hashes : List UInt64} {nodeIndex : List UInt16}
    (h : nodeIndex.length = hashes.length) :
    ((range hashes.length).map fun i => (hashes.getD i 0, nodeIndex.getD i 0)) =
      hashes.zip nodeIndex := by
  refine ext_getElem (by simp [h]) fun i hi hi' => ?_
  have hlt : i < hashes.length := by simpa using hi
  simp [hlt, h]

theorem sortTogether_spec (hashes : List UInt64) (nodeIndex : List UInt16)
    (h : nodeIndex.length = hashes.length) :
    ∃ vnodes : List (UInt64 × UInt16),
      sortTogether hashes nodeIndex = (vnodes.map Prod.fst, vnodes.map Prod.snd) ∧
        vnodes.Perm (hashes.zip nodeIndex) ∧ Circle.Sorted vnodes := by
  let before : Nat → Nat → Prop := fun i j => hashes.getD i 0 ≤ hashes.getD j 0
  let order := (range hashes.length).insertionSort before
  refine ⟨order.map fun i => (hashes.getD i 0, nodeIndex.getD i 0), ?_, ?_, ?_⟩
  · rw [map_map, map_map]
    rfl
  · rw [← range_map_getD h]
    exact (perm_insertionSort before _).map _
  · exact pairwise_map.mpr (pairwise_insertionSort before _)

theorem addNode_wf (h : old.Wf cfg) {r : RingArrays} (hr : cfg.addNode old nodeId = .ok r) :
    r.Wf cfg ∧ ∀ id, id ∈ r.physicalNodes ↔ id = nodeId ∨ id ∈ old.physicalNodes := by
  unfold addNode at hr
  split at hr
  · rename_i hin
    cases hr
    exact ⟨h, fun id => ⟨.inr, fun hid => hid.elim (fun heq => heq ▸ hin) fun hold => hold⟩⟩
  · rename_i hnew
    split at hr
    · cases hr
    · rename_i hroom
      have hroom := not_le.mp hroom
      dsimp only at hr
      have hindex : (UInt16.ofNat ((old.physicalNodes ++ [nodeId]).length - 1)).toNat =
          old.physicalNodes.length := by
        rw [length_append, length_singleton, Nat.add_sub_cancel]
        exact toNat_ofNat_index hroom
      generalize UInt16.ofNat ((old.physicalNodes ++ [nodeId]).length - 1) = physIdx at hr hindex
      obtain ⟨vnodes, hsort, hperm, hsorted⟩ := sortTogether_spec
        (old.hashes ++ (range cfg.vnodesPerNode).map (cfg.hashVnode nodeId))
        (old.nodeIndex ++ (range cfg.vnodesPerNode).map fun _ => physIdx) (by simp [h.aligned])
      rw [zip_append h.aligned.symm, zip_map'] at hperm
      rw [hsort] at hr
      cases hr
      refine ⟨RingArrays.wf_of_vnodes ?_ ?_ ?_ ?_ hsorted ?_, fun id => ?_⟩
      · simp [h.cells]
      · exact concat_eq_append ▸ h.nodup.concat hnew
      · rw [length_append]
        exact hroom
      · intro v hv
        rw [length_append, length_singleton]
        rcases mem_append.mp (hperm.mem_iff.mp hv) with hv | hv
        · exact Nat.lt_succ_of_lt (h.inRange_zip v hv)
        · obtain ⟨i, -, rfl⟩ := mem_map.mp hv
          exact hindex ▸ Nat.lt_succ_self _
      · refine (hperm.map _).trans ?_
        rw [map_append, map_map, flatMap_append]
        refine List.Perm.append ?_ ?_
        · refine (List.Perm.of_eq (map_congr_left fun v hv => ?_)).trans h.points
          rw [RingArrays.nodeAt, getD_append _ _ _ _ (h.inRange_zip v hv)]
        · refine List.Perm.of_eq ?_
          rw [flatMap_singleton]
          refine map_congr_left fun i _ => ?_
          simp [hindex]
      · simp [or_comm]

/-! ## 4. `removeNode` -/

variable {f : UInt64 × UInt16 → Option (UInt64 × UInt16)}

theorem map_filterMap_points
    (name : UInt16 → NodeId) (keep : NodeId → Bool)
    (hf : ∀ v ∈ old.hashes.zip old.nodeIndex, (f v).map (fun v => (v.1, name v.2)) =
      if keep (old.nodeAt v.2) then some (v.1, old.nodeAt v.2) else none) :
    (((old.hashes.zip old.nodeIndex).filterMap f).map fun v => (v.1, name v.2)) =
      old.points.filter fun p => keep p.2 := by
  rw [map_filterMap, RingArrays.points, ← filterMap_eq_filter, filterMap_map]
  exact filterMap_congr hf

theorem filter_vnodesOf (keep : NodeId → Bool) (nodes : List NodeId) :
    (nodes.flatMap cfg.vnodesOf).filter (fun p => keep p.2) =
      (nodes.filter keep).flatMap cfg.vnodesOf := by
  induction nodes with
  | nil => rfl
  | cons node nodes ih =>
    rw [flatMap_cons, filter_append, ih, filter_cons]
    have hone : (cfg.vnodesOf node).filter (fun p => keep p.2) =
        if keep node then cfg.vnodesOf node else [] := by
      unfold vnodesOf
      rw [filter_map]
      show List.map _ ((range cfg.vnodesPerNode).filter fun _ => keep node) = _
      cases keep node <;> simp
    rw [hone]
    split
    · rw [flatMap_cons]
    · rfl

theorem points_filter_perm (h : old.Wf cfg) (keep : NodeId → Bool) :
    (old.points.filter fun p => keep p.2).Perm
      ((old.physicalNodes.filter keep).flatMap cfg.vnodesOf) := by
  rw [← filter_vnodesOf]
  exact h.points.filter _

theorem sorted_filterMap (h : old.Wf cfg) (hf : ∀ v w, f v = some w → w.1 = v.1) :
    Circle.Sorted ((old.hashes.zip old.nodeIndex).filterMap f) := by
  refine pairwise_filterMap.mpr (h.sorted_zip.imp fun {v v'} hle w hw w' hw' => ?_)
  rw [hf v w hw, hf v' w' hw']
  exact hle

theorem nodeAt_inj (h : old.Wf cfg) {i j : UInt16} (hi : i.toNat < old.physicalNodes.length)
    (hj : j.toNat < old.physicalNodes.length) (heq : old.nodeAt i = old.nodeAt j) : i = j := by
  unfold RingArrays.nodeAt at heq
  rw [getD_eq_getElem _ _ hi, getD_eq_getElem _ _ hj] at heq
  exact UInt16.toNat_inj.mp (h.nodup.getElem_inj_iff.mp heq)

variable {v w : UInt64 × UInt16} {desired : List NodeId} {m : Membership}

theorem shiftVnode_eq_some {physIndex : UInt16} (h : shiftVnode physIndex v = some w) :
    v.2 ≠ physIndex ∧ w.1 = v.1 ∧
      w.2.toNat = if physIndex.toNat < v.2.toNat then v.2.toNat - 1 else v.2.toNat := by
  unfold shiftVnode at h
  split at h
  · cases h
  · rename_i hne
    cases h
    refine ⟨hne, rfl, ?_⟩
    by_cases hlt : physIndex < v.2
    · have hpos : 1 ≤ v.2.toNat := (Nat.zero_le _).trans_lt (UInt16.lt_iff_toNat_lt.mp hlt)
      simp only [if_pos hlt, if_pos (UInt16.lt_iff_toNat_lt.mp hlt)]
      exact UInt16.toNat_sub_of_le _ _ (UInt16.le_iff_toNat_le.mpr hpos)
    · simp only [if_neg hlt, if_neg (mt UInt16.lt_iff_toNat_lt.mpr hlt)]

theorem shiftVnode_name (h : old.Wf cfg) {physIndex : UInt16}
    (hphys : physIndex.toNat < old.physicalNodes.length)
    (hv : v.2.toNat < old.physicalNodes.length) :
    (shiftVnode physIndex v).map (fun w =>
        (w.1, (old.physicalNodes.eraseIdx physIndex.toNat).getD w.2.toNat [])) =
      if old.nodeAt v.2 ≠ old.nodeAt physIndex then some (v.1, old.nodeAt v.2) else none := by
  cases hshift : shiftVnode physIndex v with
  | none =>
    have heq : v.2 = physIndex := by
      by_contra hne
      rw [shiftVnode, if_neg hne] at hshift
      cases hshift
    rw [heq, if_neg (fun hne => hne rfl)]
    rfl
  | some w =>
    obtain ⟨hne, hhash, hindex⟩ := shiftVnode_eq_some hshift
    rw [if_pos (mt (nodeAt_inj h hv hphys) hne), Option.map_some, hhash, hindex, RingArrays.nodeAt,
      getD_eq_getElem?_getD, getD_eq_getElem?_getD, getElem?_eraseIdx]
    have hne := mt UInt16.toNat_inj.mp hne
    by_cases hlt : physIndex.toNat < v.2.toNat
    · rw [if_pos hlt, if_neg (by omega), Nat.sub_add_cancel (by omega)]
    · rw [if_neg hlt, if_pos (by omega)]

theorem length_kept_lt (h : old.Wf cfg) (hin : nodeId ∈ old.physicalNodes) :
    (old.points.filter fun p => decide (p.2 ≠ nodeId)).length < old.points.length := by
  refine length_filter_lt_length_iff_exists.mpr ⟨(cfg.hashVnode nodeId 0, nodeId), ?_, ?_⟩
  · refine h.points.mem_iff.mpr (mem_flatMap.mpr ⟨nodeId, hin, ?_⟩)
    exact mem_map.mpr ⟨0, mem_range.mpr cfg.positive, rfl⟩
  · simp

theorem removeNode_wf (h : old.Wf cfg) (nodeId : NodeId) :
    (removeNode old nodeId).Wf cfg ∧
      ∀ id, id ∈ (removeNode old nodeId).physicalNodes ↔ id ≠ nodeId ∧ id ∈ old.physicalNodes := by
  unfold removeNode
  dsimp only
  split
  · rename_i hnone
    have hout := idxOf_eq_length_iff.mp hnone
    exact ⟨h, fun id => ⟨fun hid => ⟨fun heq => hout (heq ▸ hid), hid⟩, fun hid => hid.2⟩⟩
  · rename_i hsome
    have hin : nodeId ∈ old.physicalNodes := by
      by_contra hout
      exact hsome (idxOf_eq_length_iff.mpr hout)
    have hlt := idxOf_lt_length_iff.mpr hin
    have hindex := toNat_ofNat_index (hlt.trans_le h.capacity)
    have hname : old.nodeAt (UInt16.ofNat (old.physicalNodes.idxOf nodeId)) = nodeId := by
      rw [RingArrays.nodeAt, hindex, getD_eq_getElem _ _ hlt]
      exact getElem_idxOf hlt
    have herase : old.physicalNodes.eraseIdx (old.physicalNodes.idxOf nodeId) =
        old.physicalNodes.filter fun id => decide (id ≠ nodeId) := by
      rw [eraseIdx_idxOf_eq_erase, h.nodup.erase_eq_filter]
      exact filter_congr fun id _ => by grind
    generalize UInt16.ofNat (old.physicalNodes.idxOf nodeId) = physIndex at hindex hname
    rw [← hindex] at herase hlt ⊢
    have hpoints := map_filterMap_points
      (fun index => (old.physicalNodes.eraseIdx physIndex.toNat).getD index.toNat [])
      (fun id => decide (id ≠ nodeId)) fun v hv => by
        rw [shiftVnode_name h hlt (h.inRange_zip v hv), hname]
        simp
    have hkept : ((old.hashes.zip old.nodeIndex).filterMap (shiftVnode physIndex)).length <
        old.hashes.length := by
      have hlen := congrArg List.length hpoints
      have hpts : old.points.length = old.hashes.length := by simp [RingArrays.points, h.aligned]
      rw [length_map] at hlen
      rw [hlen, ← hpts]
      exact length_kept_lt h hin
    rw [if_neg hkept.ne]
    refine ⟨RingArrays.wf_of_vnodes ?_ ?_ ?_ ?_ ?_ ?_, fun id => ?_⟩
    · rw [length_eraseIdx, length_eraseIdx, h.cells]
    · exact h.nodup.eraseIdx _
    · exact (length_eraseIdx_le ..).trans h.capacity
    · intro w hw
      obtain ⟨v, hv, hshift⟩ := mem_filterMap.mp hw
      obtain ⟨hne, -, hw⟩ := shiftVnode_eq_some hshift
      have hne := mt UInt16.toNat_inj.mp hne
      have hv := h.inRange_zip v hv
      rw [length_eraseIdx_of_lt hlt, hw]
      split <;> omega
    · exact sorted_filterMap h fun v w hw => (shiftVnode_eq_some hw).2.1
    · rw [hpoints, herase]
      exact points_filter_perm h fun id => decide (id ≠ nodeId)
    · rw [herase, mem_filter, decide_eq_true_eq, and_comm]

/-! ## 5. `setNodes` -/

def Noted (desired : List NodeId) (m : Membership) (id : NodeId) : Option UInt16 → Prop
  | none => id ∉ desired
  | some index => id ∈ desired ∧ m.physicalNodes[index.toNat]? = some id

/-- The first loop after the old nodes `seen`. -/
structure Retained (desired seen : List NodeId) (m : Membership) : Prop where
  nodes : m.physicalNodes = seen.filter fun id => decide (id ∈ desired)
  cells : m.loadCells.length = m.physicalNodes.length
  remap : m.remap.length = seen.length
  noted : ∀ (i : Nat) id, seen[i]? = some id → Noted desired m id (m.remap.getD i none)
  added : m.addedVnodes = []

theorem getElem?_concat_eq_some {α : Type} {l : List α} {a b : α} {i : Nat}
    (h : (l ++ [a])[i]? = some b) : l[i]? = some b ∨ i = l.length ∧ a = b := by
  rw [getElem?_append] at h
  split at h
  · exact .inl h
  · obtain ⟨hi, hab⟩ : i ≤ l.length ∧ a = b := by
      simpa [getElem?_singleton, Nat.sub_eq_zero_iff_le] using h
    exact .inr ⟨by omega, hab⟩

theorem Retained.step {seen : List NodeId} (h : Retained desired seen m)
    (hroom : seen.length < kMaxPhysicalNodes) (id : NodeId) (cell : UInt64) :
    Retained desired (seen ++ [id]) (retainNodes desired [(id, cell)] m) := by
  have hnoted : ∀ (m' : Membership) e, m'.remap = m.remap ++ [e] → Noted desired m' id e →
      (∀ b index, Noted desired m b index → Noted desired m' b index) →
      ∀ (i : Nat) b, (seen ++ [id])[i]? = some b → Noted desired m' b (m'.remap.getD i none) := by
    intro m' e hremap hnew hold i b hi
    rw [hremap]
    rcases getElem?_concat_eq_some hi with hi | ⟨rfl, rfl⟩
    · rw [getD_append _ _ _ _ (h.remap ▸ (List.getElem?_eq_some_iff.mp hi).1)]
      exact hold b _ (h.noted i b hi)
    · rwa [← h.remap, getD_eq_getElem?_getD, getElem?_concat_length]
  by_cases hin : id ∈ desired
  · simp only [retainNodes, if_pos hin]
    refine ⟨by simp [h.nodes, hin], by simp [h.cells], by simp [h.remap],
      hnoted _ _ rfl ⟨hin, ?_⟩ fun b index hb => ?_, h.added⟩
    · have hle : m.physicalNodes.length ≤ seen.length := h.nodes ▸ length_filter_le ..
      rw [toNat_ofNat_index (hle.trans_lt hroom), getElem?_concat_length]
    · cases index with
      | none => exact hb
      | some index =>
        exact ⟨hb.1, getElem?_append_left (List.getElem?_eq_some_iff.mp hb.2).1 ▸ hb.2⟩
  · simp only [retainNodes, if_neg hin]
    refine ⟨by simp [h.nodes, hin], h.cells, by simp [h.remap],
      hnoted _ none rfl hin fun b index hb => ?_, h.added⟩
    cases index <;> exact hb

theorem retainNodes_spec {seen : List NodeId} (h : Retained desired seen m)
    (rest : List (NodeId × UInt64)) (hroom : seen.length + rest.length ≤ kMaxPhysicalNodes) :
    Retained desired (seen ++ rest.map Prod.fst) (retainNodes desired rest m) := by
  induction rest generalizing seen m with
  | nil => simpa [retainNodes] using h
  | cons entry rest ih =>
    obtain ⟨id, cell⟩ := entry
    rw [length_cons] at hroom
    have hseen : (seen ++ [id]).length + rest.length ≤ kMaxPhysicalNodes := by
      rw [length_append, length_singleton]
      omega
    have hstep := ih (h.step (by omega) id cell) hseen
    have hloop : retainNodes desired ((id, cell) :: rest) m =
        retainNodes desired rest (retainNodes desired [(id, cell)] m) := by
      simp only [retainNodes]
      split <;> rfl
    rw [hloop, map_cons, append_cons]
    exact hstep

theorem appendNodes_spec (nodeIds : List NodeId) (m : Membership) (hnodup : m.physicalNodes.Nodup) :
    ∃ news added, cfg.appendNodes nodeIds m =
        { physicalNodes := m.physicalNodes ++ news
          loadCells := m.loadCells ++ news.map fun _ => 0
          remap := m.remap, addedVnodes := m.addedVnodes ++ added } ∧
      (m.physicalNodes ++ news).Nodup ∧
      (∀ id, id ∈ m.physicalNodes ++ news ↔ id ∈ m.physicalNodes ∨ id ∈ nodeIds) ∧
      ((m.physicalNodes ++ news).length ≤ kMaxPhysicalNodes →
        (added.map fun v => (v.1, (m.physicalNodes ++ news).getD v.2.toNat [])) =
            news.flatMap cfg.vnodesOf ∧
          ∀ v ∈ added, v.2.toNat < (m.physicalNodes ++ news).length) := by
  induction nodeIds generalizing m with
  | nil => exact ⟨[], [], by simp [appendNodes], by simpa using hnodup, by simp, by simp⟩
  | cons id nodeIds ih =>
    by_cases hin : id ∈ m.physicalNodes
    · obtain ⟨news, added, heq, hnd, hmem, hadded⟩ := ih m hnodup
      refine ⟨news, added, by rw [appendNodes, if_pos hin, heq], hnd, fun b => ?_, hadded⟩
      rw [hmem b, mem_cons]
      exact ⟨fun hb => hb.imp_right .inr,
        fun hb => hb.elim .inl fun hb => hb.elim (fun heq => .inl (heq ▸ hin)) .inr⟩
    · have hnodup' : (m.physicalNodes ++ [id]).Nodup := concat_eq_append ▸ hnodup.concat hin
      let vnodes := (range cfg.vnodesPerNode).map fun i =>
        (cfg.hashVnode id i, UInt16.ofNat m.physicalNodes.length)
      obtain ⟨news, added, heq, hnd, hmem, hadded⟩ := ih
        { m with physicalNodes := m.physicalNodes ++ [id], loadCells := m.loadCells ++ [0]
                 addedVnodes := m.addedVnodes ++ vnodes } hnodup'
      simp only [append_assoc, singleton_append] at heq hnd hmem hadded
      refine ⟨id :: news, vnodes ++ added, ?_, hnd, fun b => ?_, fun hroom => ?_⟩
      · rw [appendNodes, if_neg hin]
        simpa using heq
      · rw [hmem b]
        simp [or_assoc]
      · obtain ⟨hnames, hrange⟩ := hadded hroom
        have hlt : m.physicalNodes.length < (m.physicalNodes ++ id :: news).length := by simp
        have hindex := toNat_ofNat_index (hlt.trans_le hroom)
        refine ⟨?_, fun v hv => ?_⟩
        · rw [map_append, hnames, flatMap_cons, map_map]
          congr 1
          refine map_congr_left fun i _ => ?_
          simp [hindex]
        · rcases mem_append.mp hv with hv | hv
          · obtain ⟨i, -, rfl⟩ := mem_map.mp hv
            exact hindex.trans_lt hlt
          · exact hrange v hv

def remapVnode (remap : List (Option UInt16)) (v : UInt64 × UInt16) : Option (UInt64 × UInt16) :=
  (remap.getD v.2.toNat none).map fun index => (v.1, index)

theorem mergeRuns_eq (remap : List (Option UInt16)) (run added : List (UInt64 × UInt16)) :
    mergeRuns remap run added =
      (run.filterMap (remapVnode remap)).merge added fun a b => decide (a.1 ≤ b.1) := by
  induction run generalizing added with
  | nil => simp [mergeRuns]
  | cons v run ih =>
    rw [mergeRuns, filterMap_cons, remapVnode]
    cases remap.getD v.2.toNat none with
    | none => exact ih added
    | some index => exact Circle.emit_eq_merge ih added

theorem Retained.noted_remap (hm : Retained desired old.physicalNodes m)
    (hv : v.2.toNat < old.physicalNodes.length) :
    Noted desired m (old.nodeAt v.2) (m.remap.getD v.2.toNat none) := by
  refine hm.noted _ _ ?_
  rw [RingArrays.nodeAt, getD_eq_getElem _ _ hv]
  exact getElem?_eq_getElem hv

theorem remapVnode_name (hm : Retained desired old.physicalNodes m) (news : List NodeId)
    (hv : v.2.toNat < old.physicalNodes.length) :
    (remapVnode m.remap v).map (fun w => (w.1, (m.physicalNodes ++ news).getD w.2.toNat [])) =
      if decide (old.nodeAt v.2 ∈ desired) then some (v.1, old.nodeAt v.2) else none := by
  have hnoted := hm.noted_remap hv
  unfold remapVnode
  cases hindex : m.remap.getD v.2.toNat none with
  | none =>
    rw [hindex] at hnoted
    exact (if_neg (mt of_decide_eq_true hnoted)).symm
  | some index =>
    obtain ⟨hin, hnode⟩ := hindex ▸ hnoted
    rw [if_pos (decide_eq_true hin), Option.map_some, Option.map_some,
      getD_append _ _ _ _ (List.getElem?_eq_some_iff.mp hnode).1, getD_eq_getElem?_getD, hnode,
      Option.getD_some]

theorem remapVnode_inRange (hm : Retained desired old.physicalNodes m)
    (hv : v.2.toNat < old.physicalNodes.length) (hw : remapVnode m.remap v = some w) :
    w.2.toNat < m.physicalNodes.length := by
  obtain ⟨index, hindex, rfl⟩ := Option.map_eq_some_iff.mp hw
  exact (List.getElem?_eq_some_iff.mp (hindex ▸ hm.noted_remap hv).2).1

theorem fst_remapVnode {remap : List (Option UInt16)} (h : remapVnode remap v = some w) :
    w.1 = v.1 := by
  obtain ⟨index, -, rfl⟩ := Option.map_eq_some_iff.mp h
  rfl

theorem retainNodes_start (h : old.Wf cfg) (desired : List NodeId) :
    Retained desired old.physicalNodes
      (retainNodes desired (old.physicalNodes.zip old.loadCells) {}) := by
  have hstart : Retained desired [] {} := ⟨rfl, rfl, rfl, by simp, rfl⟩
  have hend := retainNodes_spec hstart (old.physicalNodes.zip old.loadCells)
    (by simpa [h.cells] using h.capacity)
  rwa [map_fst_zip h.cells.ge, nil_append] at hend

theorem setNodes_wf (h : old.Wf cfg) {nodeIds : List NodeId} {r : RingArrays}
    (hr : cfg.setNodes old nodeIds = .ok r) :
    r.Wf cfg ∧ ∀ id, id ∈ r.physicalNodes ↔ id ∈ nodeIds := by
  unfold setNodes at hr
  dsimp only at hr
  split at hr
  · cases hr
  rename_i hcapacity
  have hcapacity := not_lt.mp hcapacity
  split at hr
  · -- the members are the desired ones already
    rename_i hsame
    cases hr
    refine ⟨h, fun id => ⟨fun hid => mem_dedup.mp (hsame.2 id hid), fun hid => ?_⟩⟩
    have hperm := (h.nodup.subperm hsame.2).perm_of_length_le hsame.1.ge
    exact hperm.mem_iff.mpr (mem_dedup.mpr hid)
  split at hr
  · cases hr
  split at hr
  · cases hr
  rename_i hlen
  have hlen := not_not.mp hlen
  have hm := retainNodes_start h nodeIds.dedup
  generalize retainNodes nodeIds.dedup (old.physicalNodes.zip old.loadCells) {} = m at hr hlen hm
  obtain ⟨news, added, heq, hnodup, hmem, hadded⟩ :=
    cfg.appendNodes_spec nodeIds m (hm.nodes ▸ h.nodup.filter _)
  rw [heq] at hr hlen
  rw [hm.added, nil_append, mergeRuns_eq] at hr
  cases hr
  have hroom : (m.physicalNodes ++ news).length ≤ kMaxPhysicalNodes := hlen ▸ hcapacity
  obtain ⟨hnames, hrange⟩ := hadded hroom
  have hsort := perm_insertionSort (fun a b : UInt64 × UInt16 => a.1 ≤ b.1) added
  generalize hrun : (added.insertionSort fun a b => a.1 ≤ b.1) = run at hsort
  generalize hkept : (old.hashes.zip old.nodeIndex).filterMap (remapVnode m.remap) = kept
  have hmerge : (kept.merge run fun a b => decide (a.1 ≤ b.1)).Perm (kept ++ run) :=
    merge_perm_append _
  refine ⟨RingArrays.wf_of_vnodes ?_ hnodup hroom ?_ ?_ ?_, fun id => ?_⟩
  · simp [hm.cells]
  · intro w hw
    rcases mem_append.mp (hmerge.mem_iff.mp hw) with hw | hw
    · obtain ⟨v, hv, hremap⟩ := mem_filterMap.mp (hkept ▸ hw)
      rw [length_append]
      exact Nat.lt_add_right _ (remapVnode_inRange hm (h.inRange_zip v hv) hremap)
    · exact hrange w (hsort.mem_iff.mp hw)
  · exact Circle.sorted_merge (hkept ▸ sorted_filterMap h fun v w => fst_remapVnode)
      (hrun ▸ Circle.sorted_insertionSort added)
  · refine (hmerge.map _).trans ?_
    rw [map_append, flatMap_append]
    refine List.Perm.append ?_ ((hsort.map _).trans (List.Perm.of_eq hnames))
    rw [← hkept, map_filterMap_points (fun index => (m.physicalNodes ++ news).getD index.toNat [])
      (fun id => decide (id ∈ nodeIds.dedup)) fun v hv =>
        remapVnode_name hm news (h.inRange_zip v hv), hm.nodes]
    exact points_filter_perm h fun id => decide (id ∈ nodeIds.dedup)
  · rw [hmem id, hm.nodes, mem_filter, decide_eq_true_eq, mem_dedup]
    exact ⟨fun hid => hid.elim And.right fun hid => hid, .inr⟩

theorem setNodes_ok (h : old.Wf cfg) {nodeIds : List NodeId}
    (hcapacity : nodeIds.dedup.length ≤ kMaxPhysicalNodes) :
    ∃ r, cfg.setNodes old nodeIds = .ok r := by
  have hentries : nodeIds.dedup.length ≤ kMaxVnodeEntries / cfg.vnodesPerNode := by
    refine hcapacity.trans ((Nat.le_div_iff_mul_le cfg.positive).mpr ?_)
    calc kMaxPhysicalNodes * cfg.vnodesPerNode ≤ kMaxPhysicalNodes * 2 ^ 31 :=
          Nat.mul_le_mul_left _ cfg.fits.le
      _ ≤ kMaxVnodeEntries := by norm_num [kMaxPhysicalNodes, kMaxVnodeEntries]
  have hm := retainNodes_start h nodeIds.dedup
  unfold setNodes
  dsimp only
  generalize retainNodes nodeIds.dedup (old.physicalNodes.zip old.loadCells) {} = m at hm ⊢
  obtain ⟨news, added, heq, hnodup, hmem, -⟩ :=
    cfg.appendNodes_spec nodeIds m (hm.nodes ▸ h.nodup.filter _)
  have hlen : (m.physicalNodes ++ news).length = nodeIds.dedup.length := by
    refine ((perm_ext_iff_of_nodup hnodup (nodup_dedup _)).mpr fun id => ?_).length_eq
    rw [hmem id, hm.nodes, mem_filter, decide_eq_true_eq, mem_dedup]
    exact ⟨fun hid => hid.elim And.right fun hid => hid, .inr⟩
  rw [if_neg hcapacity.not_gt, if_neg hentries.not_gt, heq]
  rw [if_neg (not_not.mpr hlen)]
  split
  · exact ⟨_, rfl⟩
  · exact ⟨_, rfl⟩

/-! ## 6. Every sequence of calls -/

theorem apply_wf (h : old.Wf cfg) (op : RingOp) : (cfg.apply old op).Wf cfg := by
  cases op with
  | addNode nodeId =>
    show ((cfg.addNode old nodeId).toOption.getD old).Wf cfg
    cases hr : cfg.addNode old nodeId with
    | ok r => exact (addNode_wf h hr).1
    | error e => exact h
  | removeNode nodeId => exact (removeNode_wf h nodeId).1
  | setNodes nodeIds =>
    show ((cfg.setNodes old nodeIds).toOption.getD old).Wf cfg
    cases hr : cfg.setNodes old nodeIds with
    | ok r => exact (setNodes_wf h hr).1
    | error e => exact h

theorem foldl_wf (h : old.Wf cfg) (ops : List RingOp) : (ops.foldl cfg.apply old).Wf cfg := by
  induction ops generalizing old with
  | nil => exact h
  | cons op ops ih => exact ih (apply_wf h op)

end RingConfig

theorem ringAfter_wf (cfg : RingConfig) (ops : List RingOp) : (ringAfter cfg ops).Wf cfg :=
  RingConfig.foldl_wf (RingArrays.wf_empty cfg) ops

end Cinder
