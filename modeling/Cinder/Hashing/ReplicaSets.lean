/-
Replica sets: how many nodes they have, and what a change of the members does to them
(`src/hashing/consistent_hash_ring.cpp`: `getNodes`, `getNode`, `addNode`, `removeNode`).

A replica set is the beginning of one list, the members in the order a turn of the ring meets
them. A node that joins or leaves is one element more or less in that list.
-/
import Cinder.Hashing.RingMembership
import Mathlib.Data.List.Rotate

namespace Cinder

open List

/-! ## 1. The loop over the arrays -/

namespace RingSnapshot

variable {snap : RingSnapshot}

theorem startOf_lt (hne : snap.vnodes ≠ []) (h : UInt64) : snap.startOf h < snap.vnodes.length := by
  have hpos := length_pos_iff.mpr hne
  have hle : (snap.vnodes.findIdx fun v => decide (h ≤ v.1)) ≤ snap.vnodes.length :=
    findIdx_le_length
  unfold startOf
  dsimp only
  split <;> omega

theorem getNodes_of_ne (hne : snap.vnodes ≠ []) {hash64 : Bytes → UInt64} {key : Key} {n : Nat}
    (hn : 1 ≤ n) (hmax : n ≤ 32) : snap.getNodes hash64 key n =
      .ok (snap.collectNodes n (snap.walkFrom (snap.startOf (hash64 key))) [] []) := by
  rw [getNodes, if_neg, if_neg hne]
  unfold kMaxReplicas
  omega

theorem walkLoop_eq {n : Int} {start : Nat} (hstart : start < snap.vnodes.length) (fuel : Nat)
    {k : Nat} (hk : k < snap.vnodes.length) (hfuel : snap.vnodes.length ≤ k + fuel)
    (seen : List (Fin snap.physicalNodes.length)) (result : List NodeId) :
    snap.walkLoop n start fuel ((start + k) % snap.vnodes.length) seen result =
      some (snap.collectNodes n ((snap.walkFrom start).drop k) seen result) := by
  have hwalk : snap.walkFrom start = snap.vnodes.rotate start :=
    (rotate_eq_drop_append_take hstart.le).symm
  induction fuel generalizing k seen result with
  | zero => omega
  | succ fuel ih =>
    have hcur := Nat.mod_lt (start + k) (Nat.zero_lt_of_lt hk)
    obtain ⟨v, hv⟩ : ∃ v, snap.vnodes[(start + k) % snap.vnodes.length]? = some v :=
      ⟨_, getElem?_eq_getElem hcur⟩
    have hleft : (snap.walkFrom start).drop k = v :: (snap.walkFrom start).drop (k + 1) := by
      have hat : (snap.walkFrom start)[k]? = some v := by
        rw [hwalk, getElem?_rotate hk, add_comm k, hv]
      obtain ⟨hlt, hget⟩ := List.getElem?_eq_some_iff.mp hat
      rw [drop_eq_getElem_cons hlt, hget]
    have hnext : (if (start + k) % snap.vnodes.length + 1 = snap.vnodes.length then 0
        else (start + k) % snap.vnodes.length + 1) = (start + (k + 1)) % snap.vnodes.length := by
      rw [← add_assoc, ← Nat.mod_add_mod (start + k)]
      split
      · rename_i hlast
        rw [hlast, Nat.mod_self]
      · exact (Nat.mod_eq_of_lt (by omega)).symm
    have hturn : (start + (k + 1)) % snap.vnodes.length = start ↔ k + 1 = snap.vnodes.length := by
      constructor
      · intro heq
        by_contra hne
        rcases lt_or_ge (start + (k + 1)) snap.vnodes.length with hlt | hge
        · rw [Nat.mod_eq_of_lt hlt] at heq
          omega
        · rw [Nat.mod_eq_sub_mod hge, Nat.mod_eq_of_lt (by omega)] at heq
          omega
      · intro heq
        rw [heq, Nat.add_mod_right, Nat.mod_eq_of_lt hstart]
    rw [walkLoop, hleft, collectNodes, hv, Option.bind_eq_bind, Option.bind_some]
    rw [hnext, if_congr hturn rfl rfl]
    by_cases hlast : k + 1 = snap.vnodes.length
    · have hnil : (snap.walkFrom start).drop (k + 1) = [] := by
        rw [hlast, hwalk, ← length_rotate snap.vnodes start, drop_length]
      rw [hnil, if_pos hlast]
      split
      · split <;> rfl
      · rfl
    · rw [if_neg hlast, ih (by omega) (by omega)]
      split
      · split <;> rfl
      · rfl

end RingSnapshot

/-! ## 2. Members in the order of a turn -/

def membersFrom (cfg : RingConfig) (r : RingArrays) (key : Key) : List NodeId :=
  Circle.fresh (Circle.turn r.points (cfg.hash64 key)) []

namespace RingArrays

variable {cfg : RingConfig} {r r' : RingArrays} {key : Key} {x : NodeId}

theorem Wf.sorted_points (h : r.Wf cfg) : Circle.Sorted r.points := pairwise_map.mpr h.sorted_zip

theorem Wf.mem_membersFrom (h : r.Wf cfg) {id : NodeId} :
    id ∈ membersFrom cfg r key ↔ id ∈ r.physicalNodes := by
  rw [membersFrom, Circle.mem_fresh, Circle.mem_turn]
  simp only [not_mem_nil, not_false_eq_true, and_true, h.points.mem_iff, mem_flatMap]
  constructor
  · intro ⟨p, ⟨node, hnode, hp⟩, hid⟩
    obtain ⟨i, -, rfl⟩ := mem_map.mp hp
    exact hid ▸ hnode
  · intro hid
    exact ⟨_, ⟨id, hid, mem_map_of_mem (mem_range.mpr cfg.positive)⟩, rfl⟩

theorem Wf.length_membersFrom (h : r.Wf cfg) :
    (membersFrom cfg r key).length = r.physicalNodes.length :=
  ((perm_ext_iff_of_nodup Circle.nodup_fresh h.nodup).mpr fun _ => h.mem_membersFrom).length_eq

theorem getNodes_toSnapshot (h : r.Wf cfg) {n : Nat} (hn : 1 ≤ n) (hmax : n ≤ 32) :
    (r.toSnapshot h).getNodes cfg.hash64 key n = .ok ((membersFrom cfg r key).take n) := by
  rw [RingSnapshot.getNodes_eq, if_neg, points_toSnapshot, Circle.owners_eq h.sorted_points]
  · rfl
  · unfold kMaxReplicas
    omega

theorem getNode_toSnapshot (h : r.Wf cfg) :
    (r.toSnapshot h).getNode cfg.hash64 key = (membersFrom cfg r key).head?.getD [] := by
  rw [RingSnapshot.getNode_eq, points_toSnapshot, Circle.owner_eq h.sorted_points]
  rfl

theorem membersFrom_without (h : r.Wf cfg) (h' : r'.Wf cfg)
    (hapart : cfg.LabelsApart r.physicalNodes)
    (hmembers : ∀ id, id ∈ r'.physicalNodes ↔ id ≠ x ∧ id ∈ r.physicalNodes) (key : Key) :
    membersFrom cfg r' key = (membersFrom cfg r key).filter fun id => id ≠ x := by
  have hnodes : r'.physicalNodes.Perm (r.physicalNodes.filter fun id => id ≠ x) := by
    refine (perm_ext_iff_of_nodup h'.nodup (h.nodup.filter _)).mpr fun id => ?_
    rw [hmembers, mem_filter, decide_eq_true_eq, and_comm]
  have hpoints : r'.points = r.points.filter fun p => p.2 ≠ x := by
    have hperm := (h'.points.trans (hnodes.flatMap_right _)).trans
      (RingConfig.points_filter_perm h fun id => decide (id ≠ x)).symm
    have hsub : ∀ p ∈ r'.points, p ∈ r.physicalNodes.flatMap cfg.vnodesOf := fun p hp =>
      h.points.mem_iff.mp (mem_filter.mp (hperm.mem_iff.mp hp)).1
    refine Circle.eq_of_perm (fun p hp q hq => ?_) h'.sorted_points (h.sorted_points.filter _) hperm
    exact point_eq_of_hash hapart p (hsub p hp) q (hsub q hq)
  rw [membersFrom, hpoints, Circle.turn_filter fun id => decide (id ≠ x)]
  exact Circle.fresh_filter fun _ _ => Iff.rfl

end RingArrays

section Changes

variable {cfg : RingConfig} {x : NodeId} (ops : List RingOp)
  (hapart : cfg.LabelsApart (x :: (ringAfter cfg ops).physicalNodes)) (key : Key)

include hapart

theorem membersFrom_removeNode : membersFrom cfg (ringAfter cfg (ops ++ [.removeNode x])) key =
    (membersFrom cfg (ringAfter cfg ops) key).filter fun id => id ≠ x := by
  have hafter : ringAfter cfg (ops ++ [.removeNode x]) =
    RingConfig.removeNode (ringAfter cfg ops) x := by
    rw [ringAfter, foldl_append]
    rfl
  obtain ⟨hwf, hmembers⟩ := RingConfig.removeNode_wf (ringAfter_wf cfg ops) x
  rw [hafter]
  exact RingArrays.membersFrom_without (ringAfter_wf cfg ops) hwf (fun a ha b hb =>
    hapart a (mem_cons_of_mem x ha) b (mem_cons_of_mem x hb)) hmembers key

theorem membersFrom_addNode :
    membersFrom cfg (ringAfter cfg (ops ++ [.addNode x])) key =
      membersFrom cfg (ringAfter cfg ops) key ∨
    membersFrom cfg (ringAfter cfg ops) key =
      (membersFrom cfg (ringAfter cfg (ops ++ [.addNode x])) key).filter fun id => id ≠ x := by
  have hafter : ringAfter cfg (ops ++ [.addNode x]) =
      (cfg.addNode (ringAfter cfg ops) x).toOption.getD (ringAfter cfg ops) := by
    rw [ringAfter, foldl_append]
    rfl
  rw [hafter]
  by_cases hin : x ∈ (ringAfter cfg ops).physicalNodes
  · rw [RingConfig.addNode, if_pos hin]
    exact .inl rfl
  cases hadd : cfg.addNode (ringAfter cfg ops) x with
  | error => exact .inl rfl
  | ok r =>
    obtain ⟨hwf, hmembers⟩ := RingConfig.addNode_wf (ringAfter_wf cfg ops) hadd
    have hall : ∀ id ∈ r.physicalNodes, id ∈ x :: (ringAfter cfg ops).physicalNodes :=
      fun id hid => mem_cons.mpr ((hmembers id).mp hid)
    refine .inr (RingArrays.membersFrom_without hwf (ringAfter_wf cfg ops) (fun a ha b hb =>
      hapart a (hall a ha) b (hall b hb)) (fun id => ?_) key)
    rw [hmembers]
    exact ⟨fun hid => ⟨fun heq => hin (heq ▸ hid), .inr hid⟩, fun hid => hid.2.resolve_left hid.1⟩

end Changes

/-! ## 3. Replica sets -/

/-- **Replica sets** have as many nodes as are asked for and there are, all different, all members,
the owner first; one replica more appends a node; the collecting loop is done after one turn. -/
theorem replica_sets_well_formed (cfg : RingConfig) (ops : List RingOp) (key : Key) (n : Nat)
    (hn : 1 ≤ n) (hmax : n ≤ 32) :
    ∃ nodes, (snapshotAfter cfg ops).getNodes cfg.hash64 key n = .ok nodes ∧
      nodes.length = min n (ringAfter cfg ops).physicalNodes.length ∧ nodes.Nodup ∧
      (∀ id ∈ nodes, id ∈ (ringAfter cfg ops).physicalNodes) ∧
      nodes.head?.getD [] = (snapshotAfter cfg ops).getNode cfg.hash64 key ∧
      (n + 1 ≤ 32 → ∃ more, (snapshotAfter cfg ops).getNodes cfg.hash64 key (n + 1) = .ok more ∧
        nodes <+: more) ∧
      ((snapshotAfter cfg ops).vnodes ≠ [] →
        (snapshotAfter cfg ops).walkLoop n ((snapshotAfter cfg ops).startOf (cfg.hash64 key))
          (snapshotAfter cfg ops).vnodes.length
          ((snapshotAfter cfg ops).startOf (cfg.hash64 key)) [] [] = some nodes) := by
  have hwf := ringAfter_wf cfg ops
  have hget : ∀ m : Nat, 1 ≤ m → m ≤ 32 → (snapshotAfter cfg ops).getNodes cfg.hash64 key m =
      .ok ((membersFrom cfg (ringAfter cfg ops) key).take m) :=
    fun _ hm hle => RingArrays.getNodes_toSnapshot hwf hm hle
  refine ⟨_, hget n hn hmax, ?_, Circle.nodup_fresh.sublist (take_sublist n _), ?_, ?_, ?_, ?_⟩
  · rw [length_take, hwf.length_membersFrom]
  · intro id hid
    exact hwf.mem_membersFrom.mp (mem_of_mem_take hid)
  · rw [snapshotAfter, RingArrays.getNode_toSnapshot, head?_take, if_neg (Nat.ne_of_gt hn)]
  · intro hmore
    exact ⟨_, hget (n + 1) (Nat.le_add_left 1 n) hmore, take_prefix_take_left (Nat.le_succ n)⟩
  · intro hne
    have hstart := RingSnapshot.startOf_lt hne (cfg.hash64 key)
    have hloop := RingSnapshot.walkLoop_eq (n := n) hstart (snapshotAfter cfg ops).vnodes.length
      (Nat.zero_lt_of_lt hstart) (Nat.le_add_left _ _) [] []
    rw [add_zero, Nat.mod_eq_of_lt hstart, drop_zero] at hloop
    rw [hloop,
      ← Except.ok.inj ((RingSnapshot.getNodes_of_ne hne hn hmax).symm.trans (hget n hn hmax))]

theorem replica_sets_well_formed_two :
    ∃ nodes, (snapshotAfter twoVnodes [.setNodes [[1], [2], [3]]]).getNodes twoVnodes.hash64 [5] 2 =
        .ok nodes ∧
      nodes.length =
        min 2 (ringAfter twoVnodes [.setNodes [[1], [2], [3]]]).physicalNodes.length := by
  obtain ⟨nodes, hnodes, hlength, -⟩ := replica_sets_well_formed twoVnodes
    [.setNodes [[1], [2], [3]]] [5] 2 (by decide) (by decide)
  exact ⟨nodes, hnodes, hlength⟩

/-- **A node more or less changes replica sets in one place**: a node that joins comes in between,
one that leaves is taken out; nobody else gains the key or loses it. -/
theorem membership_changes_minimal (cfg : RingConfig) (ops : List RingOp) (x : NodeId) (key : Key)
    (n : Nat) (hn : 1 ≤ n) (hmax : n < 32)
    (hapart : cfg.LabelsApart (x :: (ringAfter cfg ops).physicalNodes)) :
    ∃ nodes more added removed,
      (snapshotAfter cfg ops).getNodes cfg.hash64 key n = .ok nodes ∧
      (snapshotAfter cfg ops).getNodes cfg.hash64 key (n + 1) = .ok more ∧
      (snapshotAfter cfg (ops ++ [.addNode x])).getNodes cfg.hash64 key n = .ok added ∧
      (snapshotAfter cfg (ops ++ [.removeNode x])).getNodes cfg.hash64 key n = .ok removed ∧
      (added = nodes ∨ ∃ before behind, nodes = before ++ behind ∧
        added = (before ++ x :: behind).take n) ∧
      removed = (more.filter fun id => id ≠ x).take n ∧
      (∀ id ∈ added, id = x ∨ id ∈ nodes) ∧ (∀ id ∈ nodes, id = x ∨ id ∈ removed) ∧
      ((snapshotAfter cfg (ops ++ [.addNode x])).getNode cfg.hash64 key = x ∨
        (snapshotAfter cfg (ops ++ [.addNode x])).getNode cfg.hash64 key =
          (snapshotAfter cfg ops).getNode cfg.hash64 key) ∧
      ((snapshotAfter cfg ops).getNode cfg.hash64 key = x ∨
        (snapshotAfter cfg (ops ++ [.removeNode x])).getNode cfg.hash64 key =
          (snapshotAfter cfg ops).getNode cfg.hash64 key) := by
  have hget : ∀ ops, ∀ m : Nat, 1 ≤ m → m ≤ 32 →
      (snapshotAfter cfg ops).getNodes cfg.hash64 key m =
        .ok ((membersFrom cfg (ringAfter cfg ops) key).take m) :=
    fun ops _ hm hle => RingArrays.getNodes_toSnapshot (ringAfter_wf cfg ops) hm hle
  have howner : ∀ ops, (snapshotAfter cfg ops).getNode cfg.hash64 key =
      (membersFrom cfg (ringAfter cfg ops) key).head?.getD [] :=
    fun ops => RingArrays.getNode_toSnapshot (ringAfter_wf cfg ops)
  have hremoved := membersFrom_removeNode ops hapart key
  have hadded := membersFrom_addNode ops hapart key
  have hinserted : (membersFrom cfg (ringAfter cfg (ops ++ [.addNode x])) key).take n =
        (membersFrom cfg (ringAfter cfg ops) key).take n ∨
      ∃ before behind, (membersFrom cfg (ringAfter cfg ops) key).take n = before ++ behind ∧
        (membersFrom cfg (ringAfter cfg (ops ++ [.addNode x])) key).take n =
          (before ++ x :: behind).take n := by
    rcases hadded with hsame | hsame
    · exact .inl (by rw [hsame])
    · rw [hsame]
      exact Circle.take_insert Circle.nodup_fresh x n
  refine ⟨_, _, _, _, hget _ n hn hmax.le, hget _ (n + 1) (Nat.le_add_left 1 n) hmax,
    hget _ n hn hmax.le, hget _ n hn hmax.le, hinserted, ?_, ?_, ?_, ?_, ?_⟩
  · rw [hremoved]
    exact (Circle.take_filter_ne Circle.nodup_fresh x n).symm
  · intro id hid
    rcases hinserted with hsame | ⟨before, behind, hnodes, hsame⟩
    · exact .inr (hsame ▸ hid)
    · rw [hsame] at hid
      have hmem := mem_of_mem_take hid
      rw [mem_append, mem_cons, or_left_comm, ← mem_append, ← hnodes] at hmem
      exact hmem
  · intro id hid
    refine or_iff_not_imp_left.mpr fun hne => ?_
    have hsub :=
      prefix_take_iff.mpr ⟨( take_prefix n (membersFrom cfg (ringAfter cfg ops) key)).filter
      fun id => decide (id ≠ x), (length_filter_le _ _).trans (length_take_le _ _)⟩
    rw [hremoved]
    exact hsub.subset (mem_filter.mpr ⟨hid, decide_eq_true hne⟩)
  · rw [howner, howner]
    rcases hadded with hsame | hsame
    · exact .inr (by rw [hsame])
    · rw [hsame]
      exact (Circle.head?_filter_ne _ x).imp (fun h => by rw [h]; rfl) fun h => by rw [h]
  · rw [howner, howner, hremoved]
    exact (Circle.head?_filter_ne _ x).imp (fun h => by rw [h]; rfl) fun h => by rw [h]

/-- Two nodes, a third one that joins and leaves. -/
theorem membership_changes_minimal_three :
    ∃ nodes added removed,
      (snapshotAfter twoVnodes [.addNode [1], .addNode [2]]).getNodes twoVnodes.hash64 [5] 2 =
        .ok nodes ∧
      (snapshotAfter twoVnodes [.addNode [1], .addNode [2], .addNode [3]]).getNodes twoVnodes.hash64
        [5] 2 = .ok added ∧
      (snapshotAfter twoVnodes [.addNode [1], .addNode [2], .addNode [3], .removeNode [3]]).getNodes
        twoVnodes.hash64 [5] 2 = .ok removed ∧
      (∀ id ∈ added, id = [3] ∨ id ∈ nodes) ∧ ∀ id ∈ added, id = [3] ∨ id ∈ removed := by
  obtain ⟨nodes, -, added, -, hnodes, -, hadded, -, -, -, hgain, -⟩ :=
    membership_changes_minimal twoVnodes [.addNode [1], .addNode [2]] [3] [5] 2 (by decide)
      (by decide) (by decide +kernel)
  obtain ⟨added', -, -, removed, hadded', -, -, hremoved, -, -, -, hlose, -⟩ :=
    membership_changes_minimal twoVnodes [.addNode [1], .addNode [2], .addNode [3]] [3] [5] 2
      (by decide) (by decide) (by decide +kernel)
  obtain rfl : added' = added := Except.ok.inj (hadded'.symm.trans hadded)
  exact ⟨nodes, added', removed, hnodes, hadded, hremoved, hgain, hlose⟩

end Cinder
