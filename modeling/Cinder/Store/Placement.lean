/-
What the policies' hooks keep of a shard: nodes, index, byte counter and frequency
buckets agree, and each hook does to the nodes what the base class expects of it.
-/
import Cinder.Store.Eviction

namespace Cinder

open List Function Buckets

/-! ## 1. Nodes, index and byte counter -/

/-- Nodes, index and byte counter of a shard agree. -/
structure CellsWf (p : Policy) (cells : List Cell) (index : AList fun _ : Key => Addr)
    (bytes : Nat) : Prop where
  addrs : (cells.map Cell.addr).Nodup
  keys : (cells.map Cell.key).Nodup
  indexed : ∀ k a, index.lookup k = some a ↔ ∃ c ∈ cells, c.key = k ∧ c.addr = a
  bytes_eq : bytes = (cells.map p.nodeSize).sum

namespace CellsWf

variable {p : Policy} {cells cells' : List Cell} {index : AList fun _ : Key => Addr} {bytes : Nat}
  {c : Cell}

theorem empty : CellsWf p [] ∅ 0 := ⟨by simp, by simp, by simp, rfl⟩

section

variable (h : CellsWf p cells index bytes)

include h

theorem perm (hp : cells'.Perm cells) : CellsWf p cells' index bytes where
  addrs := (hp.map _).nodup_iff.mpr h.addrs
  keys := (hp.map _).nodup_iff.mpr h.keys
  indexed := fun k a => by simp only [h.indexed, hp.mem_iff]
  bytes_eq := by rw [h.bytes_eq, (hp.map _).sum_nat]

theorem eq_of_key {d : Cell} (hc : c ∈ cells) (hd : d ∈ cells) (hk : c.key = d.key) : c = d :=
  inj_on_of_nodup_map h.keys hc hd hk

theorem eq_of_addr {d : Cell} (hc : c ∈ cells) (hd : d ∈ cells) (ha : c.addr = d.addr) : c = d :=
  inj_on_of_nodup_map h.addrs hc hd ha

end

theorem detach (h : CellsWf p (c :: cells) index bytes) :
    CellsWf p cells (index.erase c.key) (bytes - p.nodeSize c) where
  addrs := (nodup_cons.mp h.addrs).2
  keys := (nodup_cons.mp h.keys).2
  indexed := fun k a => by
    have hnot : c.key ∉ cells.map Cell.key := (nodup_cons.mp h.keys).1
    by_cases hk : k = c.key
    · subst hk
      rw [AList.lookup_erase]
      refine ⟨fun h => (by cases h), fun ⟨d, hd, hdk, _⟩ => ?_⟩
      exact absurd (hdk ▸ mem_map_of_mem hd) hnot
    · rw [AList.lookup_erase_ne hk, h.indexed]
      simp [Ne.symm hk]
  bytes_eq := by
    rw [h.bytes_eq, map_cons, sum_cons]
    omega

theorem insert (h : CellsWf p cells index bytes) (haddr : ∀ d ∈ cells, d.addr ≠ c.addr)
    (hkey : ∀ d ∈ cells, d.key ≠ c.key) :
    CellsWf p (c :: cells) (index.insert c.key c.addr) (bytes + p.nodeSize c) where
  addrs := nodup_cons.mpr ⟨by simpa using haddr, h.addrs⟩
  keys := nodup_cons.mpr ⟨by simpa using hkey, h.keys⟩
  indexed := fun k a => by
    by_cases hk : k = c.key
    · subst hk
      rw [AList.lookup_insert]
      simp only [mem_cons, exists_eq_or_imp]
      constructor
      · rintro ⟨⟩
        exact .inl ⟨trivial, rfl⟩
      · rintro (⟨-, rfl⟩ | ⟨d, hd, hdk, -⟩)
        · rfl
        · exact absurd hdk (hkey d hd)
    · rw [AList.lookup_insert_ne hk, h.indexed]
      simp [Ne.symm hk]
  bytes_eq := by
    rw [h.bytes_eq, map_cons, sum_cons]
    omega

theorem overwrite (h : CellsWf p (c :: cells) index bytes) (entry : VersionedEntry) :
    CellsWf p ({ c with entry := entry } :: cells) index
      (bytes - p.nodeSize c + p.nodeSize { c with entry := entry }) where
  addrs := h.addrs
  keys := h.keys
  indexed := fun k a => by
    simp only [h.indexed, mem_cons, exists_eq_or_imp]
  bytes_eq := by
    rw [h.bytes_eq, map_cons, map_cons, sum_cons, sum_cons]
    omega

end CellsWf

/-! ## 2. Nodes and addresses -/

namespace Shard

def cells (sh : Shard) : List Cell := sh.list.map Node.toCell

def Addressed (sh : Shard) : Prop := (sh.list.map fun n => n.addr).Nodup

variable {sh : Shard} {a : Addr} {n : Node}

variable {m : Node} {f : Node → Node}

theorem Addressed.eq_of_addr (h : sh.Addressed) (hn : n ∈ sh.list) (hm : m ∈ sh.list)
    (ha : n.addr = m.addr) : n = m := inj_on_of_nodup_map h hn hm ha

theorem mem_of_nodeAt (h : sh.nodeAt a = some n) : n ∈ sh.list ∧ n.addr = a :=
  ⟨mem_of_find?_eq_some h, by simpa using List.find?_some h⟩

theorem nodeAt_of_mem (h : sh.Addressed) (hn : n ∈ sh.list) : sh.nodeAt n.addr = some n := by
  cases hf : sh.nodeAt n.addr with
  | none =>
    have := List.find?_eq_none.mp hf n hn
    simp at this
  | some m =>
    obtain ⟨hm, ha⟩ := mem_of_nodeAt hf
    rw [h.eq_of_addr hm hn ha]

theorem addressed_modify (h : sh.Addressed) (hf : ∀ n, (f n).addr = n.addr) :
    (sh.modify a f).Addressed := by
  have : ((sh.modify a f).list.map fun n => n.addr) = sh.list.map fun n => n.addr := by
    simp only [modify, map_map]
    refine map_congr_left fun n _ => ?_
    simp only [comp_apply]
    split
    · exact hf n
    · rfl
  rwa [Addressed, this]

theorem mem_modify :
    m ∈ (sh.modify a f).list ↔ ∃ n ∈ sh.list, (if n.addr = a then f n else n) = m :=
  mem_map

theorem cells_modify_of_toCell (hf : ∀ n, (f n).toCell = n.toCell) :
    (sh.modify a f).cells = sh.cells := by
  simp only [cells, modify, map_map]
  refine map_congr_left fun n _ => ?_
  simp only [comp_apply]
  split
  · exact hf n
  · rfl

theorem perm_unlink (h : sh.Addressed) (hn : n ∈ sh.list) :
    sh.list.Perm (n :: (sh.unlink n.addr).list) := by
  unfold Addressed at h
  unfold unlink
  generalize sh.list = l at h hn
  induction l with
  | nil => cases hn
  | cons m l ih =>
    obtain ⟨hfresh, hrest⟩ := nodup_cons.mp h
    rcases mem_cons.mp hn with rfl | hn
    · have hkeep : l.filter (fun m => m.addr ≠ n.addr) = l := by
        refine filter_eq_self.mpr fun m hm => ?_
        have : m.addr ≠ n.addr := fun he => hfresh (mem_map.mpr ⟨m, hm, he⟩)
        simpa using this
      rw [filter_cons_of_neg (by simp), hkeep]
    · have hne : m.addr ≠ n.addr := fun he => hfresh (mem_map.mpr ⟨n, hn, he.symm⟩)
      rw [filter_cons_of_pos (by simpa using hne)]
      exact ((ih hrest hn).cons m).trans (.swap n m _)

theorem perm_cells_unlink (h : sh.Addressed) (hn : n ∈ sh.list) :
    sh.cells.Perm (n.toCell :: (sh.unlink n.addr).cells) := (perm_unlink h hn).map Node.toCell

theorem mem_unlink : m ∈ (sh.unlink a).list ↔ m ∈ sh.list ∧ m.addr ≠ a := by
  simp [unlink]

theorem mem_cells {c : Cell} : c ∈ sh.cells ↔ ∃ n ∈ sh.list, n.toCell = c := mem_map

end Shard

/-! ## 3. Frequency buckets -/

namespace Shard

/-- **Every node stands in its bucket at its position, and nothing else stands anywhere.** -/
structure Located (sh : Shard) : Prop where
  stands : ∀ n ∈ sh.list, (sh.freqBuckets.get n.freq)[n.freqIndex]? = some n.addr
  only : ∀ f i b, (sh.freqBuckets.get f)[i]? = some b →
    ∃ n ∈ sh.list, n.addr = b ∧ n.freq = f ∧ n.freqIndex = i

/-- The same for all nodes but the one at `a`, which stands at `place` and nowhere else. -/
structure LocatedBut (sh : Shard) (a : Addr) (place : Option (Nat × Nat)) : Prop where
  stands : ∀ n ∈ sh.list, n.addr ≠ a → (sh.freqBuckets.get n.freq)[n.freqIndex]? = some n.addr
  only : ∀ f i b, (sh.freqBuckets.get f)[i]? = some b → b ≠ a →
    ∃ n ∈ sh.list, n.addr = b ∧ n.freq = f ∧ n.freqIndex = i
  self : ∀ f i, (sh.freqBuckets.get f)[i]? = some a ↔ place = some (f, i)

variable {sh : Shard} {a : Addr} {n : Node} {place : Option (Nat × Nat)}

theorem Located.but (h : sh.Located) (haddr : sh.Addressed) (hn : n ∈ sh.list) :
    sh.LocatedBut n.addr (some (n.freq, n.freqIndex)) where
  stands := fun m hm _ => h.stands m hm
  only := fun f i b hb _ => h.only f i b hb
  self := fun f i => by
    constructor
    · intro hb
      obtain ⟨m, hm, ha, rfl, rfl⟩ := h.only f i _ hb
      rw [haddr.eq_of_addr hm hn ha]
    · rintro ⟨⟩
      exact h.stands n hn

theorem LocatedBut.modify (h : sh.LocatedBut a place) {f : Node → Node}
    (hf : ∀ n, (f n).addr = n.addr) : (sh.modify a f).LocatedBut a place where
  stands := fun m hm hne => by
    obtain ⟨n, hn, rfl⟩ := mem_modify.mp hm
    split at hne
    · rename_i ha
      exact absurd ((hf n).trans ha) hne
    · rename_i ha
      rw [if_neg ha]
      exact h.stands n hn ha
  only := fun g i b hb hne => by
    obtain ⟨n, hn, rfl, hfreq⟩ := h.only g i b hb hne
    exact ⟨n, mem_modify.mpr ⟨n, hn, if_neg hne⟩, rfl, hfreq⟩
  self := h.self

theorem Located.setEntry (h : sh.Located) (entry : VersionedEntry) :
    (sh.setEntry a entry).Located where
  stands := fun m hm => by
    obtain ⟨n, hn, rfl⟩ := mem_modify.mp hm
    have := h.stands n hn
    split <;> exact this
  only := fun f i b hb => by
    obtain ⟨n, hn, rfl, rfl, rfl⟩ := h.only f i b hb
    refine ⟨_, mem_modify.mpr ⟨n, hn, rfl⟩, ?_⟩
    split <;> exact ⟨rfl, rfl, rfl⟩

variable {idx : Nat} {sh' : Shard}

theorem takeFromBucket_eq {f : Nat} {last : Addr} (h : sh.LocatedBut a (some (f, idx)))
    (hlast : (sh.freqBuckets.get f)[(sh.freqBuckets.get f).length - 1]? = some last) :
    ∃ g : Node → Node, (∀ m, (g m).toCell = m.toCell ∧ (g m).freq = m.freq) ∧
      (∀ m, m.addr ≠ a → (g m).freqIndex = if m.addr = last then idx else m.freqIndex) ∧
      sh.takeFromBucket f idx = { sh with
        list := sh.list.map g
        freqBuckets := sh.freqBuckets.set f (swapRemove (sh.freqBuckets.get f) idx) } := by
  have hget : (sh.freqBuckets.get f).getLast? = some last := by
    rw [getLast?_eq_getElem?, hlast]
  by_cases hidx : idx = (sh.freqBuckets.get f).length - 1
  · -- the last element is the one taken
    have hself : last = a := by
      have := (h.self f idx).mpr rfl
      rw [hidx, hlast] at this
      exact Option.some.inj this
    refine ⟨id, fun m => ⟨rfl, rfl⟩, fun m hm => ?_, ?_⟩
    · rw [if_neg (hself ▸ hm)]
      rfl
    · simp only [takeFromBucket, hget, if_neg (not_not.mpr hidx), map_id]
  · refine ⟨fun m => if m.addr = last then { m with freqIndex := idx } else m, fun m => ?_,
      fun m _ => ?_, ?_⟩
    · dsimp only
      split <;> exact ⟨rfl, rfl⟩
    · dsimp only
      split <;> rfl
    · simp only [takeFromBucket, hget, ne_eq, hidx, not_false_eq_true, if_true, Shard.modify]

/-- What is known once position `idx` of bucket `f` has been taken: `last`, the last of the bucket,
stands in the gap, and `g` is what happened to the nodes. -/
structure TakenOut (sh : Shard) (a : Addr) (f idx : Nat) (last : Addr) (g : Node → Node) :
    Prop where
  addr : ∀ m, (g m).addr = m.addr
  freq : ∀ m, (g m).freq = m.freq
  index : ∀ m, m.addr ≠ a → (g m).freqIndex = if m.addr = last then idx else m.freqIndex
  list : (sh.takeFromBucket f idx).list = sh.list.map g
  get : ∀ f' j, ((sh.takeFromBucket f idx).freqBuckets.get f')[j]? =
    if f' = f then
      if j + 1 < (sh.freqBuckets.get f).length then
        if j = idx then some last else (sh.freqBuckets.get f)[j]?
      else none
    else (sh.freqBuckets.get f')[j]?
  taken : (sh.freqBuckets.get f)[idx]? = some a
  last : (sh.freqBuckets.get f)[(sh.freqBuckets.get f).length - 1]? = some last

theorem LocatedBut.takenOut {f : Nat} (h : sh.LocatedBut a (some (f, idx))) :
    ∃ last g, TakenOut sh a f idx last g := by
  have hat : (sh.freqBuckets.get f)[idx]? = some a := (h.self f idx).mpr rfl
  obtain ⟨hlt, -⟩ := List.getElem?_eq_some_iff.mp hat
  obtain ⟨last, hlast⟩ : ∃ last,
      (sh.freqBuckets.get f)[(sh.freqBuckets.get f).length - 1]? = some last :=
    ⟨_, getElem?_eq_getElem (by omega)⟩
  obtain ⟨g, hg, hidx, heq⟩ := takeFromBucket_eq h hlast
  refine ⟨last, g, fun m => congrArg Cell.addr (hg m).1, fun m => (hg m).2, hidx, by rw [heq],
    fun f' j => ?_, hat, hlast⟩
  rw [heq, get_set]
  split
  · rw [getElem?_swapRemove hlt, hlast]
  · rfl

section TakenOut

variable {f idx : Nat} {last : Addr} {g : Node → Node}

section

variable (ht : TakenOut sh a f idx last g) (h : sh.LocatedBut a (some (f, idx)))

include ht h

theorem TakenOut.back (haddr : sh.Addressed) {m : Node} (hm : m ∈ sh.list) (hl : m.addr = last)
    (hne : m.addr ≠ a) : m.freq = f ∧ m.freqIndex = (sh.freqBuckets.get f).length - 1 ∧
      idx + 1 < (sh.freqBuckets.get f).length := by
  obtain ⟨m₂, hm₂, ha₂, hf₂, hi₂⟩ := h.only f _ last ht.last (hl ▸ hne)
  obtain rfl := haddr.eq_of_addr hm hm₂ (hl.trans ha₂.symm)
  refine ⟨hf₂, hi₂, ?_⟩
  obtain ⟨hlt, -⟩ := List.getElem?_eq_some_iff.mp ht.taken
  by_contra hge
  have hi : idx = (sh.freqBuckets.get f).length - 1 := by omega
  have hlast := ht.last
  rw [← hi, ht.taken] at hlast
  exact hne (hl.trans (Option.some.inj hlast).symm)

theorem TakenOut.stands (haddr : sh.Addressed) {m : Node} (hm : m ∈ sh.list) (hne : m.addr ≠ a) :
    ((sh.takeFromBucket f idx).freqBuckets.get (g m).freq)[(g m).freqIndex]? = some (g m).addr := by
  have hstands := h.stands m hm hne
  rw [ht.get, ht.freq, ht.index m hne, ht.addr]
  by_cases hl : m.addr = last
  · -- the last element has moved into the gap
    obtain ⟨hf, -, hroom⟩ := ht.back h haddr hm hl hne
    rw [if_pos hf, if_pos hl, if_pos hroom, if_pos rfl, hl]
  · rw [if_neg hl]
    by_cases hf : m.freq = f
    · rw [hf] at hstands
      obtain ⟨hm_lt, -⟩ := List.getElem?_eq_some_iff.mp hstands
      have hm_idx : m.freqIndex ≠ idx := fun he => by
        rw [he, ht.taken] at hstands
        exact hne (Option.some.inj hstands).symm
      have hm_last : m.freqIndex ≠ (sh.freqBuckets.get f).length - 1 := fun he => by
        rw [he, ht.last] at hstands
        exact hl (Option.some.inj hstands).symm
      rw [if_pos hf, if_pos (by omega), if_neg hm_idx, hstands]
    · rw [if_neg hf, hstands]

theorem TakenOut.only (haddr : sh.Addressed) {f' j : Nat} {b : Addr}
    (hb : ((sh.takeFromBucket f idx).freqBuckets.get f')[j]? = some b) (hne : b ≠ a) :
    ∃ m ∈ sh.list, m.addr = b ∧ m.freq = f' ∧ (g m).freqIndex = j := by
  rw [ht.get] at hb
  by_cases hf : f' = f
  · subst hf
    rw [if_pos rfl] at hb
    split at hb
    · rename_i hroom
      split at hb
      · -- the gap
        rename_i hj
        cases hb
        obtain ⟨m, hm, ha, hf, -⟩ := h.only f' _ last ht.last hne
        exact ⟨m, hm, ha, hf, by rw [ht.index m (ha ▸ hne), if_pos ha, hj]⟩
      · obtain ⟨m, hm, ha, hf, hi⟩ := h.only f' j b hb hne
        have hl : m.addr ≠ last := fun hl => by
          have hlast := (ht.back h haddr hm hl (ha ▸ hne)).2.1
          omega
        exact ⟨m, hm, ha, hf, by rw [ht.index m (ha ▸ hne), if_neg hl, hi]⟩
    · cases hb
  · rw [if_neg hf] at hb
    obtain ⟨m, hm, ha, hf', hi⟩ := h.only f' j b hb hne
    have hl : m.addr ≠ last := fun hl =>
      hf (hf'.symm.trans (ht.back h haddr hm hl (ha ▸ hne)).1)
    exact ⟨m, hm, ha, hf', by rw [ht.index m (ha ▸ hne), if_neg hl, hi]⟩

theorem TakenOut.nowhere (f' j : Nat) :
    ((sh.takeFromBucket f idx).freqBuckets.get f')[j]? ≠ some a := by
  intro hb
  rw [ht.get] at hb
  by_cases hf : f' = f
  · subst hf
    rw [if_pos rfl] at hb
    split at hb
    · rename_i hroom
      split at hb
      · -- were the last element the one taken, its position would be the last
        cases hb
        cases (h.self f' _).mp ht.last
        omega
      · rename_i hj
        cases (h.self f' j).mp hb
        exact hj rfl
    · cases hb
  · rw [if_neg hf] at hb
    cases (h.self f' j).mp hb
    exact hf rfl

end

end TakenOut

theorem LocatedBut.take (haddr : sh.Addressed) {f : Nat} (h : sh.LocatedBut a (some (f, idx))) :
    (sh.takeFromBucket f idx).LocatedBut a none := by
  obtain ⟨last, g, ht⟩ := h.takenOut
  refine ⟨fun m' hm' hne => ?_, fun f' j b hb hne => ?_, fun f' j => ?_⟩
  · rw [ht.list] at hm'
    obtain ⟨m, hm, rfl⟩ := mem_map.mp hm'
    exact ht.stands h haddr hm (ht.addr m ▸ hne)
  · obtain ⟨m, hm, ha, hf, hi⟩ := ht.only h haddr hb hne
    refine ⟨g m, ?_, (ht.addr m).trans ha, (ht.freq m).trans hf, hi⟩
    rw [ht.list]
    exact mem_map_of_mem hm
  · exact iff_of_false (ht.nowhere h f' j) fun hb => by cases hb

theorem LocatedBut.push (haddr : sh.Addressed) (h : sh.LocatedBut a none) (hn : n ∈ sh.list)
    (ha : n.addr = a) : (sh.pushToFreqBucket a n.freq).Located where
  stands := fun m' hm' => by
    obtain ⟨m, hm, rfl⟩ := mem_modify.mp hm'
    show (((sh.freqBuckets.set n.freq _).get _))[_]? = _
    rw [get_set]
    by_cases hma : m.addr = a
    · obtain rfl := haddr.eq_of_addr hm hn (hma.trans ha.symm)
      rw [if_pos hma, if_pos rfl, getElem?_append_right le_rfl, Nat.sub_self, hma]
      rfl
    · have hstands := h.stands m hm hma
      rw [if_neg hma]
      split
      · rename_i hf
        rw [hf] at hstands
        obtain ⟨hlt, -⟩ := List.getElem?_eq_some_iff.mp hstands
        rw [getElem?_append_left hlt, hstands]
      · exact hstands
  only := fun f i b hb => by
    change ((sh.freqBuckets.set n.freq _).get f)[i]? = _ at hb
    rw [get_set] at hb
    have hold : (sh.freqBuckets.get f)[i]? = some b →
        ∃ m' ∈ (sh.pushToFreqBucket a n.freq).list, m'.addr = b ∧ m'.freq = f ∧
          m'.freqIndex = i := by
      intro hb
      have hba : b ≠ a := fun he => by
        have := (h.self f i).mp (he ▸ hb)
        cases this
      obtain ⟨m, hm, rfl, hf, hi⟩ := h.only f i b hb hba
      exact ⟨m, mem_modify.mpr ⟨m, hm, if_neg hba⟩, rfl, hf, hi⟩
    split at hb
    · rename_i hf
      subst hf
      rcases lt_or_ge i (sh.freqBuckets.get n.freq).length with hlt | hge
      · rw [getElem?_append_left hlt] at hb
        exact hold hb
      · rw [getElem?_append_right hge] at hb
        obtain ⟨hlt, hba⟩ := List.getElem?_eq_some_iff.mp hb
        have hi : i = (sh.freqBuckets.get n.freq).length := by
          simp only [length_singleton] at hlt
          omega
        refine ⟨_, mem_modify.mpr ⟨n, hn, rfl⟩, ?_⟩
        rw [if_pos ha]
        exact ⟨by simpa [hi, ha] using hba, rfl, hi.symm⟩
    · exact hold hb

theorem LocatedBut.detach (h : sh.LocatedBut a none) (key : Key) : (sh.detach key a).Located where
  stands := fun m hm => by
    obtain ⟨hm, hne⟩ := mem_unlink.mp hm
    exact h.stands m hm hne
  only := fun f i b hb => by
    have hne : b ≠ a := fun he => by
      have := (h.self f i).mp (he ▸ hb)
      cases this
    obtain ⟨m, hm, rfl, hfi⟩ := h.only f i b hb hne
    exact ⟨m, mem_unlink.mpr ⟨hm, hne⟩, rfl, hfi⟩

theorem Located.cons (h : sh.Located) (hfresh : ∀ m ∈ sh.list, m.addr ≠ n.addr)
    (index : AList fun _ : Key => Addr) :
    Shard.LocatedBut { sh with list := n :: sh.list, index := index } n.addr none where
  stands := fun m hm hne => by
    rcases mem_cons.mp hm with rfl | hm
    · exact absurd rfl hne
    · exact h.stands m hm
  only := fun f i b hb _ => by
    obtain ⟨m, hm, hmb⟩ := h.only f i b hb
    exact ⟨m, mem_cons_of_mem _ hm, hmb⟩
  self := fun f i => by
    refine ⟨fun hb => ?_, fun he => (by cases he)⟩
    obtain ⟨m, hm, ha, -⟩ := h.only f i _ hb
    exact absurd ha (hfresh m hm)

/-! ## 4. What a hook leaves alone -/

/-- The parts of a shard the hooks do not touch. -/
structure Frame (sh sh' : Shard) : Prop where
  index : sh'.index = sh.index
  wheel : sh'.wheel = sh.wheel
  currentBytes : sh'.currentBytes = sh.currentBytes
  lastEvict : sh'.lastEvict = sh.lastEvict

theorem Frame.trans {sh₁ sh₂ sh₃ : Shard} (h : Frame sh₁ sh₂) (h' : Frame sh₂ sh₃) :
    Frame sh₁ sh₃ :=
  ⟨h'.index.trans h.index, h'.wheel.trans h.wheel, h'.currentBytes.trans h.currentBytes,
    h'.lastEvict.trans h.lastEvict⟩

variable (sh)

theorem frame_refl : Frame sh sh := ⟨rfl, rfl, rfl, rfl⟩

variable (a)

theorem frame_touch : Frame sh (sh.touch a) := by
  unfold touch
  split
  · exact ⟨rfl, rfl, rfl, rfl⟩
  · exact frame_refl sh

/-- A hook that leaves the nodes' cells alone as well. -/
structure Keeps (sh sh' : Shard) : Prop extends Frame sh sh' where
  cells : sh'.cells = sh.cells

theorem Keeps.refl : Keeps sh sh := ⟨frame_refl sh, rfl⟩

theorem Keeps.trans {sh₁ sh₂ sh₃ : Shard} (h : Keeps sh₁ sh₂) (h' : Keeps sh₂ sh₃) :
    Keeps sh₁ sh₃ := ⟨h.toFrame.trans h'.toFrame, h'.cells.trans h.cells⟩

theorem keeps_setFreq (f : Nat) : Keeps sh (sh.setFreq a f) :=
  ⟨⟨rfl, rfl, rfl, rfl⟩, cells_modify_of_toCell fun _ => rfl⟩

theorem keeps_pushToFreqBucket (f : Nat) : Keeps sh (sh.pushToFreqBucket a f) :=
  ⟨⟨rfl, rfl, rfl, rfl⟩, cells_modify_of_toCell fun _ => rfl⟩

theorem keeps_takeFromBucket (f idx : Nat) : Keeps sh (sh.takeFromBucket f idx) := by
  unfold takeFromBucket
  dsimp only
  split
  · split
    · exact ⟨⟨rfl, rfl, rfl, rfl⟩, cells_modify_of_toCell fun _ => rfl⟩
    · exact ⟨⟨rfl, rfl, rfl, rfl⟩, rfl⟩
  · exact .refl sh

theorem keeps_removeFromFreqBucket (f : Nat) : Keeps sh (sh.removeFromFreqBucket a f) := by
  unfold removeFromFreqBucket
  split
  · exact keeps_takeFromBucket _ _ _
  · exact .refl sh

theorem keeps_restoreFreq (old f : Nat) :
    Keeps sh (((sh.removeFromFreqBucket a old).setFreq a f).pushToFreqBucket a f) :=
  ((keeps_removeFromFreqBucket sh a old).trans (keeps_setFreq _ a f)).trans
    (keeps_pushToFreqBucket _ a f)

theorem keeps_incrementFreq : Keeps sh (sh.incrementFreq a) := by
  unfold incrementFreq
  split
  · exact ((keeps_setFreq sh a _).trans (keeps_removeFromFreqBucket _ a _)).trans
      (keeps_pushToFreqBucket _ a _)
  · exact .refl sh

variable {a}

variable {sh}

theorem Addressed.of_cells_eq (h : sh.Addressed) (hc : sh'.cells = sh.cells) : sh'.Addressed := by
  have : (sh'.cells.map Cell.addr) = sh.cells.map Cell.addr := by rw [hc]
  simp only [cells, map_map] at this
  unfold Addressed at h ⊢
  exact this ▸ h

theorem list_takeFromBucket (sh : Shard) (f idx : Nat) :
    ∃ g : Node → Node, (∀ m, (g m).toCell = m.toCell ∧ (g m).freq = m.freq) ∧
      (sh.takeFromBucket f idx).list = sh.list.map g := by
  have hid : ∃ g : Node → Node, (∀ m, (g m).toCell = m.toCell ∧ (g m).freq = m.freq) ∧
      sh.list = sh.list.map g := ⟨id, fun m => ⟨rfl, rfl⟩, (map_id _).symm⟩
  unfold takeFromBucket
  dsimp only
  split
  · rename_i last _
    split
    · refine ⟨fun m => if m.addr = last then { m with freqIndex := idx } else m, fun m => ?_, rfl⟩
      dsimp only
      split <;> exact ⟨rfl, rfl⟩
    · exact hid
  · exact hid

theorem Located.incrementFreq (h : sh.Located) (haddr : sh.Addressed) (hn : n ∈ sh.list) :
    (sh.incrementFreq n.addr).Located := by
  have haddr₁ : (sh.setFreq n.addr (nextFreq n.freq)).Addressed :=
    haddr.of_cells_eq (keeps_setFreq _ _ _).cells
  have hn₁ : { n with freq := nextFreq n.freq } ∈ (sh.setFreq n.addr (nextFreq n.freq)).list :=
    mem_modify.mpr ⟨n, hn, if_pos rfl⟩
  have hat : (sh.setFreq n.addr (nextFreq n.freq)).nodeAt n.addr =
      some { n with freq := nextFreq n.freq } := nodeAt_of_mem haddr₁ hn₁
  have h₁ := (h.but haddr hn).modify (f := fun m => { m with freq := nextFreq n.freq }) fun _ => rfl
  obtain ⟨g, hg, hlist⟩ :=
    list_takeFromBucket (sh.setFreq n.addr (nextFreq n.freq)) n.freq n.freqIndex
  have hmem := mem_map_of_mem (f := g) hn₁
  rw [← hlist] at hmem
  have hpush := (h₁.take haddr₁).push (haddr₁.of_cells_eq (keeps_takeFromBucket _ _ _).cells) hmem
    (congrArg Cell.addr (hg _).1)
  simp only [Shard.incrementFreq, nodeAt_of_mem haddr hn, removeFromFreqBucket, hat]
  rwa [(hg _).2] at hpush

theorem Located.restoreFreq (h : sh.Located) (haddr : sh.Addressed) (hn : n ∈ sh.list)
    (freq : Nat) : (((sh.removeFromFreqBucket n.addr n.freq).setFreq n.addr freq).pushToFreqBucket
      n.addr freq).Located := by
  have htake := (h.but haddr hn).take haddr
  obtain ⟨g, hg, hlist⟩ := list_takeFromBucket sh n.freq n.freqIndex
  have hmem : g n ∈ (sh.takeFromBucket n.freq n.freqIndex).list := by
    rw [hlist]
    exact mem_map_of_mem hn
  have hga : (g n).addr = n.addr := congrArg Cell.addr (hg n).1
  have hset := htake.modify (f := fun m => { m with freq := freq }) fun _ => rfl
  have hmem' : { g n with freq := freq } ∈
      ((sh.takeFromBucket n.freq n.freqIndex).setFreq n.addr freq).list :=
    mem_modify.mpr ⟨g n, hmem, if_pos hga⟩
  have haddr' : ((sh.takeFromBucket n.freq n.freqIndex).setFreq n.addr freq).Addressed :=
    haddr.of_cells_eq ((keeps_takeFromBucket _ _ _).trans (keeps_setFreq _ _ _)).cells
  simp only [removeFromFreqBucket, nodeAt_of_mem haddr hn]
  exact hset.push haddr' hmem' hga

/-! ## 5. The hooks -/

/-- The policy's own bookkeeping; LRU has none. -/
def PolicyInv (p : Policy) (sh : Shard) : Prop :=
  match p with
  | .lru => True
  | .lfu => sh.Located

/-- **The representation of a shard.** -/
structure Wf (p : Policy) (sh : Shard) : Prop where
  base : CellsWf p sh.cells sh.index sh.currentBytes
  policy : sh.PolicyInv p

variable {p : Policy}

theorem Wf.addressed (h : sh.Wf p) : sh.Addressed := by
  have haddrs := h.base.addrs
  rwa [cells, map_map] at haddrs

theorem wf_start (now : Nanos) : Shard.Wf p { lastEvict := now } := by
  refine ⟨CellsWf.empty, ?_⟩
  cases p with
  | lru => trivial
  | lfu => exact ⟨fun n hn => (by cases hn), fun f i b hb => (by simp at hb)⟩

theorem Wf.find_eq (h : sh.Wf p) {key : Key} :
    sh.find key = some n ↔ n ∈ sh.list ∧ n.key = key := by
  constructor
  · intro hf
    obtain ⟨a, ha, hn⟩ := Option.bind_eq_some_iff.mp hf
    obtain ⟨hmem, rfl⟩ := mem_of_nodeAt hn
    obtain ⟨c, hc, rfl, hca⟩ := (h.base.indexed key _).mp ha
    rw [h.base.eq_of_addr hc (mem_map_of_mem hmem) hca]
    exact ⟨hmem, rfl⟩
  · rintro ⟨hn, rfl⟩
    have hidx : sh.index.lookup n.key = some n.addr :=
      (h.base.indexed _ _).mpr ⟨n.toCell, mem_map_of_mem hn, rfl, rfl⟩
    rw [find, hidx]
    exact nodeAt_of_mem h.addressed hn

theorem Wf.find_eq_none (h : sh.Wf p) {key : Key} :
    sh.find key = none ↔ ∀ n ∈ sh.list, n.key ≠ key := by
  constructor
  · intro hf n hn he
    rw [h.find_eq.mpr ⟨hn, he⟩] at hf
    cases hf
  · intro hno
    cases hf : sh.find key with
    | none => rfl
    | some n =>
      obtain ⟨hn, he⟩ := h.find_eq.mp hf
      exact absurd he (hno n hn)

theorem perm_touch (haddr : sh.Addressed) (a : Addr) : (sh.touch a).list.Perm sh.list := by
  unfold touch
  split
  · rename_i m hm
    obtain ⟨hmem, rfl⟩ := mem_of_nodeAt hm
    exact (perm_unlink haddr hmem).symm
  · exact .refl _

theorem Addressed.setEntry (h : sh.Addressed) (entry : VersionedEntry) :
    (sh.setEntry a entry).Addressed := addressed_modify h fun _ => rfl

theorem unlink_setEntry (sh : Shard) (a : Addr) (entry : VersionedEntry) :
    ((sh.setEntry a entry).unlink a).list = (sh.unlink a).list := by
  have hp : ((fun m : Node => decide (m.addr ≠ a)) ∘ fun m : Node =>
      if m.addr = a then { m with entry := entry } else m) =
      fun m : Node => decide (m.addr ≠ a) := by
    funext m
    simp only [comp_apply]
    split <;> rfl
  simp only [unlink, Shard.setEntry, Shard.modify, filter_map, hp]
  refine (map_congr_left fun m hm => ?_).trans (map_id _)
  have hne : m.addr ≠ a := by simpa using (mem_filter.mp hm).2
  simp only [if_neg hne, id_eq]

theorem perm_cells_setEntry (haddr : sh.Addressed) (hn : n ∈ sh.list) (entry : VersionedEntry) :
    (sh.setEntry n.addr entry).cells.Perm
      ({ n.toCell with entry := entry } :: (sh.unlink n.addr).cells) := by
  have hn' : { n with entry := entry } ∈ (sh.setEntry n.addr entry).list :=
    mem_modify.mpr ⟨n, hn, if_pos rfl⟩
  have hrest : ((sh.setEntry n.addr entry).unlink n.addr).cells = (sh.unlink n.addr).cells :=
    congrArg (List.map Node.toCell) (unlink_setEntry sh n.addr entry)
  rw [← hrest]
  exact perm_cells_unlink (haddr.setEntry entry) hn'

theorem applyExisting_spec (h : sh.Wf p) (hn : n ∈ sh.list) (entry : VersionedEntry) :
    (sh.applyExisting p n.addr entry).cells.Perm
        ({ n.toCell with entry := entry } :: (sh.unlink n.addr).cells) ∧
      (sh.applyExisting p n.addr entry).PolicyInv p ∧
      Frame sh (sh.applyExisting p n.addr entry) := by
  have hset := perm_cells_setEntry h.addressed hn entry
  have haddr := h.addressed.setEntry (a := n.addr) entry
  have hframe : Frame sh (sh.setEntry n.addr entry) := ⟨rfl, rfl, rfl, rfl⟩
  cases p with
  | lru =>
    exact ⟨((perm_touch haddr n.addr).map Node.toCell).trans hset, trivial,
      hframe.trans (frame_touch _ _)⟩
  | lfu =>
    have hn' : { n with entry := entry } ∈ (sh.setEntry n.addr entry).list :=
      mem_modify.mpr ⟨n, hn, if_pos rfl⟩
    refine ⟨?_, ?_, hframe.trans (keeps_incrementFreq _ _).toFrame⟩
    · show ((sh.setEntry n.addr entry).incrementFreq n.addr).cells.Perm _
      rw [(keeps_incrementFreq _ _).cells]
      exact hset
    · exact Located.incrementFreq (n := { n with entry := entry })
        (Located.setEntry h.policy entry) haddr hn'

theorem insertNew_spec (h : sh.Wf p) (hfresh : ∀ m ∈ sh.list, m.addr ≠ a) (key : Key)
    (entry : VersionedEntry) :
    (sh.insertNew p a key entry).cells = ⟨a, key, entry⟩ :: sh.cells ∧
      (sh.insertNew p a key entry).PolicyInv p ∧
      Frame { sh with index := sh.index.insert key a } (sh.insertNew p a key entry) := by
  cases p with
  | lru => exact ⟨rfl, trivial, rfl, rfl, rfl, rfl⟩
  | lfu =>
    have hbut := Located.cons (n := { addr := a, key := key, entry := entry, freq := 1 }) h.policy
      hfresh (sh.index.insert key a)
    have haddr : Shard.Addressed { sh with
        list := { addr := a, key := key, entry := entry, freq := 1 } :: sh.list
        index := sh.index.insert key a } :=
      nodup_cons.mpr ⟨by simpa using hfresh, h.addressed⟩
    refine ⟨?_, hbut.push haddr mem_cons_self rfl, rfl, rfl, rfl, rfl⟩
    show (Shard.pushToFreqBucket _ a 1).cells = _
    rw [(keeps_pushToFreqBucket _ _ _).cells]
    rfl

theorem onAccess_spec (h : sh.Wf p) (hn : n ∈ sh.list) :
    (sh.onAccess p n.addr).cells.Perm sh.cells ∧ (sh.onAccess p n.addr).PolicyInv p ∧
      Frame sh (sh.onAccess p n.addr) := by
  cases p with
  | lru => exact ⟨(perm_touch h.addressed n.addr).map Node.toCell, trivial, frame_touch _ _⟩
  | lfu =>
    refine ⟨?_, Located.incrementFreq h.policy h.addressed hn, (keeps_incrementFreq _ _).toFrame⟩
    show (sh.incrementFreq n.addr).cells.Perm sh.cells
    rw [(keeps_incrementFreq _ _).cells]

theorem detach_spec (h : sh.Wf .lfu) (hn : n ∈ sh.list) (key : Key) :
    sh.cells.Perm (n.toCell :: ((sh.takeFromBucket n.freq n.freqIndex).detach key n.addr).cells) ∧
      ((sh.takeFromBucket n.freq n.freqIndex).detach key n.addr).Located ∧
      Frame { sh with wheel := sh.wheel.remove n.addr, index := sh.index.erase key }
        ((sh.takeFromBucket n.freq n.freqIndex).detach key n.addr) := by
  have hkeeps := keeps_takeFromBucket sh n.freq n.freqIndex
  refine ⟨?_, ((Located.but h.policy h.addressed hn).take h.addressed).detach key,
    by simp [detach, hkeeps.index], by simp [detach, hkeeps.wheel], hkeeps.currentBytes,
    hkeeps.lastEvict⟩
  have hmem : n.toCell ∈ sh.cells := mem_map_of_mem hn
  obtain ⟨m, hm, hmn⟩ := mem_cells.mp (hkeeps.cells ▸ hmem)
  have hperm := perm_cells_unlink (h.addressed.of_cells_eq hkeeps.cells) hm
  rwa [hkeeps.cells, hmn] at hperm

theorem erase_spec (h : sh.Wf p) (hn : n ∈ sh.list) (key : Key) :
    sh.cells.Perm (n.toCell :: ((sh.onEvictExpired p n.addr).detach key n.addr).cells) ∧
      ((sh.onEvictExpired p n.addr).detach key n.addr).PolicyInv p ∧
      Frame { sh with wheel := sh.wheel.remove n.addr, index := sh.index.erase key }
        ((sh.onEvictExpired p n.addr).detach key n.addr) := by
  cases p with
  | lru => exact ⟨perm_cells_unlink h.addressed hn, trivial, rfl, rfl, rfl, rfl⟩
  | lfu =>
    have hhook : sh.onEvictExpired .lfu n.addr = sh.takeFromBucket n.freq n.freqIndex := by
      simp only [onEvictExpired, removeFromFreqBucket, nodeAt_of_mem h.addressed hn]
    rw [hhook]
    exact detach_spec h hn key

theorem evictOne_lfu (h : sh.Located) (haddr : sh.Addressed)
    (he : sh.evictOne .lfu = some (n, sh')) :
    n ∈ sh.list ∧ sh.freqBuckets.firstWhere? sh.liveAt = some (n.freq, n.freqIndex) ∧
      sh' = (sh.takeFromBucket n.freq n.freqIndex).detach n.key n.addr := by
  obtain ⟨⟨f, i⟩, hfirst, he⟩ := Option.bind_eq_some_iff.mp he
  obtain ⟨v, hv, he⟩ := Option.map_eq_some_iff.mp he
  cases he
  obtain ⟨b, hb, hbv⟩ := Option.bind_eq_some_iff.mp hv
  obtain ⟨hn, rfl⟩ := mem_of_nodeAt hbv
  obtain ⟨m, hm, ha, rfl, rfl⟩ := h.only f i _ hb
  obtain rfl := haddr.eq_of_addr hm hn ha
  exact ⟨hm, hfirst, rfl⟩

theorem liveAt_of_mem (haddr : sh.Addressed) (hn : n ∈ sh.list) :
    sh.liveAt n.addr = !n.entry.isTombstone := by
  rw [liveAt, nodeAt_of_mem haddr hn]

theorem evictOne_spec (h : sh.Wf p) (he : sh.evictOne p = some (n, sh')) :
    n ∈ sh.list ∧ n.entry.isTombstone = false ∧ sh.cells.Perm (n.toCell :: sh'.cells) ∧
      sh'.PolicyInv p ∧
      Frame { sh with wheel := sh.wheel.remove n.addr, index := sh.index.erase n.key } sh' := by
  cases p with
  | lru =>
    obtain ⟨v, hv, he⟩ := Option.map_eq_some_iff.mp he
    cases he
    have hn : n ∈ sh.list := mem_reverse.mp (mem_of_find?_eq_some hv)
    refine ⟨hn, by simpa using List.find?_some hv, perm_cells_unlink h.addressed hn, trivial, ?_⟩
    exact ⟨rfl, rfl, rfl, rfl⟩
  | lfu =>
    obtain ⟨hn, hfirst, rfl⟩ := evictOne_lfu h.policy h.addressed he
    have hlive : n.entry.isTombstone = false := by
      obtain ⟨⟨b, hb, hlive⟩, -⟩ := firstWhere?_eq hfirst
      rw [Located.stands h.policy n hn] at hb
      cases hb
      rw [liveAt_of_mem h.addressed hn] at hlive
      simpa using hlive
    exact ⟨hn, hlive, detach_spec h hn n.key⟩

theorem freq_le_of_evictOne (h : sh.Wf .lfu) (he : sh.evictOne .lfu = some (n, sh')) {m : Node}
    (hm : m ∈ sh.list) (hlive : m.entry.isTombstone = false) : n.freq ≤ m.freq := by
  by_contra hlt
  obtain ⟨-, hfirst, -⟩ := evictOne_lfu h.policy h.addressed he
  obtain ⟨-, -, hlower⟩ := firstWhere?_eq hfirst
  have hdead := hlower m.freq (Nat.lt_of_not_le hlt) m.addr
    (mem_of_getElem? (Located.stands h.policy m hm))
  rw [liveAt_of_mem h.addressed hm, hlive] at hdead
  cases hdead

theorem evictOne_eq_none (h : sh.Wf p) (he : sh.evictOne p = none) :
    ∀ n ∈ sh.list, n.entry.isTombstone = true := by
  intro n hn
  cases p with
  | lru =>
    have hnone := List.find?_eq_none.mp (Option.map_eq_none_iff.mp he)
    simpa using hnone n (mem_reverse.mpr hn)
  | lfu =>
    have hstands := Located.stands h.policy n hn
    cases hfirst : sh.freqBuckets.firstWhere? sh.liveAt with
    | none =>
      have hdead := firstWhere?_eq_none hfirst n.freq n.addr (mem_of_getElem? hstands)
      rw [liveAt_of_mem h.addressed hn] at hdead
      simpa using hdead
    | some fi =>
      -- the position found holds a resident node
      obtain ⟨⟨b, hb, -⟩, -⟩ := firstWhere?_eq hfirst
      obtain ⟨m, hm, rfl, -⟩ := Located.only h.policy _ _ b hb
      rw [evictOne, hfirst] at he
      simp [hb, nodeAt_of_mem h.addressed hm] at he

end Shard

end Cinder
