/-
Which entries capacity eviction takes before the one just written.

LRU takes every other live entry first. LFU takes the live entries of lower frequency, and of
its own new frequency only the FIRST one: removing that one moves the written node, which stands
last in the bucket, into its place.
-/
import Mathlib.Data.List.Find
import Cinder.Store.Moves

namespace Cinder

open List Function Buckets Bool

/-! ## 1. Bytes in front of a node -/

namespace Shard

def liveBytes (p : Policy) (l : List Node) (q : Node → Bool) : Nat :=
  (l.map fun n => if !n.entry.isTombstone && q n then p.nodeSize n.toCell else 0).sum

def frontBytes (sh : Shard) (f : Nat) : Nat :=
  match ((sh.freqBuckets.get f).find? sh.liveAt).bind sh.nodeAt with
  | some n => Policy.lfu.nodeSize n.toCell
  | none => 0

def writtenFreq (sh : Shard) (key : Key) : Nat :=
  match sh.find key with
  | some n => nextFreq n.freq
  | none => 1

/-- **The bytes capacity eviction takes before the node a write of `key` leaves.** -/
def evictedBefore (p : Policy) (sh : Shard) (key : Key) : Nat :=
  match p with
  | .lru => liveBytes .lru sh.list fun n => n.key ≠ key
  | .lfu => liveBytes .lfu sh.list (fun n => n.key ≠ key && n.freq < sh.writtenFreq key) +
      sh.frontBytes (sh.writtenFreq key)

/-- While eviction runs: at least `b` bytes are taken before the node at `a`. -/
def Guarded (p : Policy) (sh : Shard) (a : Addr) (b : Nat) : Prop :=
  match p with
  | .lru => ∃ n post, sh.list = n :: post ∧ n.addr = a ∧ b = liveBytes .lru post fun _ => true
  | .lfu => b = 0 ∨ ∃ n ∈ sh.list, n.addr = a ∧ n.entry.isTombstone = false ∧
      b = liveBytes .lfu sh.list (fun m => m.freq < n.freq) +
        if (sh.freqBuckets.get n.freq).find? sh.liveAt = some a then 0 else sh.frontBytes n.freq

variable {sh sh' : Shard} {p : Policy} {n v : Node} {a : Addr} {b : Nat}

variable {l : List Node} {q : Node → Bool}

theorem liveBytes_perm {l' : List Node} (h : l.Perm l') (q : Node → Bool) :
    liveBytes p l q = liveBytes p l' q := (h.map _).sum_nat

theorem liveBytes_cons (m : Node) (l : List Node) (q : Node → Bool) :
    liveBytes p (m :: l) q =
      (if !m.entry.isTombstone && q m then p.nodeSize m.toCell else 0) + liveBytes p l q := by
  simp [liveBytes]

theorem liveBytes_congr {q' : Node → Bool} (h : ∀ m ∈ l, q m = q' m) :
    liveBytes p l q = liveBytes p l q' := by
  unfold liveBytes
  congr 1
  exact map_congr_left fun m hm => by rw [h m hm]

theorem liveBytes_map {g : Node → Node} (hg : ∀ m ∈ l, (g m).toCell = m.toCell ∧ q (g m) = q m) :
    liveBytes p (l.map g) q = liveBytes p l q := by
  unfold liveBytes
  rw [map_map]
  congr 1
  refine map_congr_left fun m hm => ?_
  obtain ⟨hc, hq⟩ := hg m hm
  rw [comp_apply, hq, hc]

theorem liveBytes_eq_zero (h : ∀ m ∈ l, m.entry.isTombstone = false → q m = false) :
    liveBytes p l q = 0 := by
  induction l with
  | nil => rfl
  | cons m l ih =>
    rw [liveBytes_cons, ih fun m' hm' => h m' (mem_cons_of_mem _ hm')]
    have := h m mem_cons_self
    cases ht : m.entry.isTombstone with
    | true => simp
    | false => simp [this ht]

/-! ## 2. One eviction -/

theorem guarded_evictOne_lru (h : sh.Wf .lru) (hg : sh.Guarded .lru a b) (hb : 0 < b)
    (he : sh.evictOne .lru = some (v, sh')) :
    v.addr ≠ a ∧ Policy.lru.nodeSize v.toCell ≤ b ∧
      sh'.Guarded .lru a (b - Policy.lru.nodeSize v.toCell) := by
  obtain ⟨n, post, hlist, rfl, rfl⟩ := hg
  obtain ⟨w, hw, he⟩ := Option.map_eq_some_iff.mp he
  cases he
  have haddr := h.addressed
  unfold Addressed at haddr
  rw [hlist] at hw haddr
  obtain ⟨hfresh, hpost⟩ := nodup_cons.mp haddr
  have hmem : v ∈ post := by
    rw [reverse_cons, List.find?_append] at hw
    cases hfind : post.reverse.find? fun m => !m.entry.isTombstone with
    | some m =>
      rw [hfind] at hw
      obtain rfl : m = v := Option.some.inj hw
      exact mem_reverse.mp (mem_of_find?_eq_some hfind)
    | none =>
      -- nothing live behind the front
      exfalso
      have hdead := List.find?_eq_none.mp hfind
      rw [liveBytes_eq_zero fun m hm ht => ?_] at hb
      · exact lt_irrefl 0 hb
      · simpa [ht] using hdead m (mem_reverse.mpr hm)
  have hne : v.addr ≠ n.addr := fun heq => hfresh (mem_map.mpr ⟨v, hmem, heq⟩)
  have hlive : v.entry.isTombstone = false := by simpa using List.find?_some hw
  have hrest := perm_unlink (show Shard.Addressed { list := post } from hpost) hmem
  have hbytes := liveBytes_perm (p := .lru) hrest fun _ => true
  rw [liveBytes_cons, hlive] at hbytes
  have hb' : liveBytes .lru post (fun _ => true) = Policy.lru.nodeSize v.toCell +
      liveBytes .lru (Shard.unlink { list := post } v.addr).list fun _ => true := hbytes
  refine ⟨hne, by omega, n, (Shard.unlink { list := post } v.addr).list, ?_, rfl, by omega⟩
  simp only [detach, unlink, hlist, filter_cons, decide_eq_true_eq, ne_eq, Ne.symm hne,
    not_false_eq_true, if_true]

theorem find_of_firstWhere {f i : Nat} (h : sh.freqBuckets.firstWhere? sh.liveAt = some (f, i))
    (ha : (sh.freqBuckets.get f)[i]? = some a) :
    (sh.freqBuckets.get f).find? sh.liveAt = some a := by
  obtain ⟨⟨x, hx, hlive⟩, hbefore, -⟩ := firstWhere?_eq h
  obtain rfl : x = a := Option.some.inj (hx.symm.trans ha)
  obtain ⟨hlt, hget⟩ := List.getElem?_eq_some_iff.mp ha
  refine List.find?_eq_some_iff_getElem.mpr ⟨hlive, i, hlt, hget, fun j hj => ?_⟩
  simpa using hbefore j _ hj (getElem?_eq_getElem (by omega))

theorem get_takeFromBucket_of_ne (sh : Shard) {f f' : Nat} (h : f' ≠ f) (idx : Nat) :
    (sh.takeFromBucket f idx).freqBuckets.get f' = sh.freqBuckets.get f' := by
  unfold takeFromBucket
  dsimp only
  split
  · split
    · exact (get_set _ _ _ _).trans (if_neg h)
    · exact (get_set _ _ _ _).trans (if_neg h)
  · rfl

theorem front_congr (sh sh' : Shard) {f : Nat} (hget : sh'.freqBuckets.get f = sh.freqBuckets.get f)
    (hnode : ∀ x ∈ sh.freqBuckets.get f, ∃ m m', sh.nodeAt x = some m ∧ sh'.nodeAt x = some m' ∧
      m'.toCell = m.toCell) :
    (sh'.freqBuckets.get f).find? sh'.liveAt = (sh.freqBuckets.get f).find? sh.liveAt ∧
      sh'.frontBytes f = sh.frontBytes f := by
  have hlive : ∀ x ∈ sh.freqBuckets.get f, sh'.liveAt x = sh.liveAt x := by
    intro x hx
    obtain ⟨m, m', hm, hm', hc⟩ := hnode x hx
    simp only [liveAt, hm, hm', hc]
  have hfind : (sh'.freqBuckets.get f).find? sh'.liveAt =
      (sh.freqBuckets.get f).find? sh.liveAt := by
    rw [hget]
    exact List.find?_congr hlive
  refine ⟨hfind, ?_⟩
  unfold frontBytes
  rw [hfind]
  cases hx : (sh.freqBuckets.get f).find? sh.liveAt with
  | none => rfl
  | some x =>
    obtain ⟨m, m', hm, hm', hc⟩ := hnode x (mem_of_find?_eq_some hx)
    simp only [Option.bind_some, hm, hm', hc]

theorem guarded_evictOne_lfu (h : sh.Wf .lfu) (hg : sh.Guarded .lfu a b) (hb : 0 < b)
    (he : sh.evictOne .lfu = some (v, sh')) :
    v.addr ≠ a ∧ Policy.lfu.nodeSize v.toCell ≤ b ∧
      sh'.Guarded .lfu a (b - Policy.lfu.nodeSize v.toCell) := by
  rcases hg with rfl | ⟨n, hn, rfl, hlive, rfl⟩
  · exact absurd hb (lt_irrefl 0)
  have hloc : sh.Located := h.policy
  have haddr := h.addressed
  obtain ⟨-, hvlive, -, -, -⟩ := evictOne_spec h he
  obtain ⟨hv, hfirst, rfl⟩ := evictOne_lfu hloc haddr he
  obtain ⟨-, -, hlower⟩ := firstWhere?_eq hfirst
  have hdead : ∀ m ∈ sh.list, m.freq < v.freq → m.entry.isTombstone = true := by
    intro m hm hlt
    have := hlower m.freq hlt m.addr (mem_of_getElem? (hloc.stands m hm))
    rw [liveAt_of_mem haddr hm] at this
    simpa using this
  have hle : v.freq ≤ n.freq := by
    by_contra hlt
    rw [hdead n hn (Nat.lt_of_not_le hlt)] at hlive
    cases hlive
  rcases Nat.lt_or_eq_of_le hle with hlt | heq
  · -- a lower bucket: the bucket of the node is left alone
    obtain ⟨g, hgc, hlist⟩ := list_takeFromBucket sh v.freq v.freqIndex
    have haddr' := haddr.of_cells_eq (keeps_takeFromBucket sh v.freq v.freqIndex).cells
    have hget := get_takeFromBucket_of_ne sh (Nat.ne_of_gt hlt) v.freqIndex
    generalize sh.takeFromBucket v.freq v.freqIndex = taken at hlist haddr' hget ⊢
    have hga : ∀ m, (g m).addr = m.addr := fun m => congrArg Cell.addr (hgc m).1
    have hmap : ∀ m ∈ sh.list, g m ∈ taken.list := fun m hm => hlist ▸ mem_map_of_mem hm
    have hkeep : ∀ m ∈ sh.list, m.freq = n.freq → g m ∈ (taken.detach v.key v.addr).list ∧
        (taken.detach v.key v.addr).nodeAt m.addr = some (g m) := by
      intro m hm hf
      have hne : m.addr ≠ v.addr := fun he => by
        obtain rfl := haddr.eq_of_addr hm hv he
        omega
      have hmem : g m ∈ (taken.detach v.key v.addr).list := mem_unlink.mpr ⟨hmap m hm, by rwa [hga]⟩
      have haddr'' : (taken.detach v.key v.addr).Addressed := haddr'.sublist (filter_sublist.map _)
      refine ⟨hmem, ?_⟩
      have := nodeAt_of_mem haddr'' hmem
      rwa [hga] at this
    have hbytes : liveBytes .lfu sh.list (fun m => m.freq < n.freq) = Policy.lfu.nodeSize v.toCell +
        liveBytes .lfu (taken.detach v.key v.addr).list fun m => m.freq < n.freq := by
      have hperm := perm_unlink haddr' (hmap v hv)
      rw [hga, hlist] at hperm
      rw [← liveBytes_map (g := g) fun m _ => ⟨(hgc m).1, by rw [(hgc m).2]⟩,
        liveBytes_perm hperm, liveBytes_cons, (hgc v).1, (hgc v).2, hvlive]
      simp only [Bool.not_false, Bool.true_and, decide_eq_true_eq, if_pos hlt]
      rfl
    obtain ⟨hfind, hfront⟩ := front_congr sh (taken.detach v.key v.addr) hget fun x hx => by
      obtain ⟨j, hj⟩ := mem_iff_getElem?.mp hx
      obtain ⟨m, hm, rfl, hf, -⟩ := hloc.only _ _ x hj
      exact ⟨m, g m, nodeAt_of_mem haddr hm, (hkeep m hm hf).2, (hgc m).1⟩
    refine ⟨fun he => ?_, by omega, .inr ⟨g n, (hkeep n hn rfl).1, hga n, ?_, ?_⟩⟩
    · obtain rfl := haddr.eq_of_addr hv hn he
      omega
    · rw [(hgc n).1]
      exact hlive
    · rw [(hgc n).2, hfind, hfront]
      omega
  · -- its own bucket: the victim is the first live node, and nothing lower is live
    have hfind := find_of_firstWhere hfirst (hloc.stands v hv)
    have hzero : liveBytes .lfu sh.list (fun m => m.freq < n.freq) = 0 := by
      refine liveBytes_eq_zero fun m hm hml => ?_
      by_contra hlt
      have hlt : m.freq < v.freq := by
        rw [heq]
        simpa using hlt
      rw [hdead m hm hlt] at hml
      cases hml
    have hfront : sh.frontBytes n.freq = Policy.lfu.nodeSize v.toCell := by
      simp only [frontBytes, ← heq, hfind, Option.bind_some, nodeAt_of_mem haddr hv]
    rw [hzero, hfront, zero_add, ← heq, hfind] at hb ⊢
    split at hb
    · exact absurd hb (lt_irrefl 0)
    · rename_i hne
      rw [if_neg hne]
      exact ⟨fun he => hne (by rw [he]), le_rfl, .inl (Nat.sub_self _)⟩

theorem guarded_evictOne (h : sh.Wf p) (hg : sh.Guarded p a b) (hb : 0 < b)
    (he : sh.evictOne p = some (v, sh')) :
    v.addr ≠ a ∧ p.nodeSize v.toCell ≤ b ∧ sh'.Guarded p a (b - p.nodeSize v.toCell) := by
  cases p with
  | lru => exact guarded_evictOne_lru h hg hb he
  | lfu => exact guarded_evictOne_lfu h hg hb he

theorem Guarded.setBytes (h : sh.Guarded p a b) (bytes : Nat) :
    Shard.Guarded p { sh with currentBytes := bytes } a b := by
  cases p with
  | _ => exact h

end Shard

/-! ## 3. The loop -/

namespace EvictionStore

variable {cfg : StoreConfig} {s : EvictionStore cfg} {i : Fin cfg.numShards}

theorem evictLoop_keeps (fuel : Nat) (hs : s.Inv) {c : Cell} (hc : c ∈ (s.shards i).cells)
    (hguard : c.entry.isTombstone = true ∨ ∃ b, (s.shards i).Guarded cfg.policy c.addr b ∧
      (s.shards i).currentBytes ≤ s.shardCapacity + b) :
    c ∈ ((evictLoop i fuel s).shards i).cells := by
  induction fuel generalizing s with
  | zero => exact hc
  | succ fuel ih =>
    rcases evictLoop_cases s i with hstop | ⟨v, sh, hover, he⟩
    · rw [evictLoop_stop fuel hstop]
      exact hc
    · obtain ⟨-, hlive, hperm, -, hframe⟩ := Shard.evictOne_spec (hs.shard i) he
      have hshard : (s.erased i v sh).shards i =
          { sh with currentBytes := sh.currentBytes - cfg.policy.nodeSize v.toCell } :=
        update_self ..
      have hbytes : sh.currentBytes = (s.shards i).currentBytes := hframe.currentBytes
      have hstay : c ≠ v.toCell → c ∈ ((s.erased i v sh).shards i).cells := by
        intro hne
        rw [hshard]
        exact (mem_cons.mp (hperm.mem_iff.mp hc)).resolve_left hne
      rw [evictLoop_succ fuel hover he]
      refine ih ((evictOne_drift hs he).move.inv hs) ?_ ?_
      · refine hstay fun heq => ?_
        rcases hguard with htomb | ⟨b, hguard, hle⟩
        · rw [heq, hlive] at htomb
          cases htomb
        · exact (Shard.guarded_evictOne (hs.shard i) hguard (by omega) he).1
            (congrArg Cell.addr heq).symm
      · refine hguard.imp_right fun ⟨b, hguard, hle⟩ => ?_
        obtain ⟨-, hsize, hguard'⟩ := Shard.guarded_evictOne (hs.shard i) hguard (by omega) he
        refine ⟨b - cfg.policy.nodeSize v.toCell, ?_, ?_⟩
        · rw [hshard]
          exact hguard'.setBytes _
        · rw [hshard]
          show sh.currentBytes - _ ≤ s.shardCapacity + _
          omega

end EvictionStore

/-! ## 4. The node just written -/

namespace Shard

variable {sh : Shard} {n : Node}

theorem nextFreq_ne (f : Nat) : f ≠ nextFreq f := by
  unfold nextFreq
  have := Nat.mod_lt (f + 1) (show 2 ^ 64 > 0 by decide)
  rcases lt_or_ge (f + 1) (2 ^ 64) with h | h
  · rw [Nat.mod_eq_of_lt h]
    omega
  · omega

theorem incrementFreq_desc (haddr : sh.Addressed) (hn : n ∈ sh.list) :
    ∃ g : Node → Node, (sh.incrementFreq n.addr).list = sh.list.map g ∧
      (∀ m, (g m).toCell = m.toCell) ∧
      (∀ m, (g m).freq = if m.addr = n.addr then nextFreq n.freq else m.freq) ∧
      (sh.incrementFreq n.addr).freqBuckets.get (nextFreq n.freq) =
        sh.freqBuckets.get (nextFreq n.freq) ++ [n.addr] := by
  have haddr₁ : (sh.setFreq n.addr (nextFreq n.freq)).Addressed :=
    haddr.of_cells_eq (keeps_setFreq _ _ _).cells
  have hn₁ : { n with freq := nextFreq n.freq } ∈ (sh.setFreq n.addr (nextFreq n.freq)).list :=
    mem_modify.mpr ⟨n, hn, if_pos rfl⟩
  have hat := nodeAt_of_mem haddr₁ hn₁
  obtain ⟨g, hg, hlist⟩ :=
    list_takeFromBucket (sh.setFreq n.addr (nextFreq n.freq)) n.freq n.freqIndex
  have hbucket := get_takeFromBucket_of_ne (sh.setFreq n.addr (nextFreq n.freq))
    (nextFreq_ne n.freq).symm n.freqIndex
  simp only [incrementFreq, nodeAt_of_mem haddr hn, removeFromFreqBucket, hat, pushToFreqBucket,
    Shard.modify, hlist, hbucket]
  refine ⟨_, by rw [setFreq, Shard.modify, map_map, map_map], fun m => ?_, fun m => ?_, ?_⟩
  · simp only [comp_apply]
    split <;> split <;> simp [(hg _).1]
  · simp only [comp_apply]
    split <;> split <;> simp_all
  · rw [get_set, if_pos rfl]
    rfl

theorem guarded_of_push (sh : Shard) {sh' : Shard} {w : Node} {f b : Nat} (haddr' : sh'.Addressed)
    (hw : w ∈ sh'.list) (hf : w.freq = f) (hlive : w.entry.isTombstone = false)
    (hbytes : liveBytes .lfu sh'.list (fun m => m.freq < f) = b)
    (hbucket : sh'.freqBuckets.get f = sh.freqBuckets.get f ++ [w.addr])
    (hnode : ∀ x ∈ sh.freqBuckets.get f, x ≠ w.addr ∧
      ∃ m m', sh.nodeAt x = some m ∧ sh'.nodeAt x = some m' ∧ m'.toCell = m.toCell) :
    sh'.Guarded .lfu w.addr (b + sh.frontBytes f) := by
  have hlives : ∀ x ∈ sh.freqBuckets.get f, sh'.liveAt x = sh.liveAt x := by
    intro x hx
    obtain ⟨-, m, m', hm, hm', hc⟩ := hnode x hx
    simp only [liveAt, hm, hm', hc]
  have hfind : (sh'.freqBuckets.get f).find? sh'.liveAt =
      ((sh.freqBuckets.get f).find? sh.liveAt).or (some w.addr) := by
    rw [hbucket, List.find?_append, List.find?_congr hlives, List.find?_singleton,
      liveAt_of_mem haddr' hw, hlive]
    rfl
  refine .inr ⟨w, hw, rfl, hlive, ?_⟩
  rw [hf, hbytes, hfind]
  congr 1
  unfold frontBytes
  rw [hfind]
  cases hx : (sh.freqBuckets.get f).find? sh.liveAt with
  | none => simp
  | some x =>
    obtain ⟨hne, m, m', hm, hm', hc⟩ := hnode x (mem_of_find?_eq_some hx)
    simp [hm, hm', hc, hne]

variable {p : Policy} {a : Addr}

theorem applyExisting_guarded (h : sh.Wf p) (hn : n ∈ sh.list) {entry : VersionedEntry}
    (hlive : entry.isTombstone = false) :
    (sh.applyExisting p n.addr entry).Guarded p n.addr (sh.evictedBefore p n.key) := by
  have haddr := h.addressed
  have haddr₁ : (sh.setEntry n.addr entry).Addressed := haddr.setEntry entry
  have hn₁ : { n with entry := entry } ∈ (sh.setEntry n.addr entry).list :=
    mem_modify.mpr ⟨n, hn, if_pos rfl⟩
  -- the weight of the other nodes, by address and by key
  have hothers : ∀ (q : Node → Bool), liveBytes p sh.list (fun m => decide (m.key ≠ n.key) && q m) =
      liveBytes p (sh.unlink n.addr).list q := by
    intro q
    rw [liveBytes_perm (perm_unlink haddr hn), liveBytes_cons]
    simp only [ne_eq, not_true_eq_false, decide_false, Bool.false_and, Bool.and_false,
      false_eq_true, if_false, zero_add]
    refine liveBytes_congr fun m hm => ?_
    obtain ⟨hm, hne⟩ := mem_unlink.mp hm
    have hkey : m.key ≠ n.key := fun he => hne (congrArg Cell.addr
      (h.base.eq_of_key (mem_map_of_mem hm) (mem_map_of_mem hn) he))
    simp [hkey]
  cases p with
  | lru =>
    refine ⟨{ n with entry := entry }, (sh.unlink n.addr).list, ?_, rfl, ?_⟩
    · simp only [applyExisting, touch, nodeAt_of_mem haddr₁ hn₁]
      rw [unlink_setEntry]
    · show liveBytes .lru sh.list _ = _
      rw [← hothers fun _ => true]
      simp only [Bool.and_true]
  | lfu =>
    have hwritten : sh.writtenFreq n.key = nextFreq n.freq := by
      rw [writtenFreq, h.find_eq.mpr ⟨hn, rfl⟩]
    obtain ⟨g, hlist, hgc, hgf, hbucket⟩ := incrementFreq_desc haddr₁ hn₁
    have haddr₂ : ((sh.setEntry n.addr entry).incrementFreq n.addr).Addressed :=
      haddr₁.of_cells_eq (keeps_incrementFreq _ _).cells
    have hmem : ∀ m ∈ (sh.setEntry n.addr entry).list,
        g m ∈ ((sh.setEntry n.addr entry).incrementFreq n.addr).list := by
      intro m hm
      rw [hlist]
      exact mem_map_of_mem hm
    have hga : ∀ m, (g m).addr = m.addr := fun m => congrArg Cell.addr (hgc m)
    have hself : (g { n with entry := entry }).freq = nextFreq n.freq := by
      rw [hgf, if_pos rfl]
    have hguard := guarded_of_push sh (f := nextFreq n.freq) haddr₂ (hmem _ hn₁) hself
      (by rw [hgc]; exact hlive) rfl (by rw [hga]; exact hbucket) fun x hx => by
        obtain ⟨j, hj⟩ := mem_iff_getElem?.mp hx
        obtain ⟨m, hm, rfl, hf, -⟩ := Located.only h.policy _ _ x hj
        have hne : m.addr ≠ n.addr := fun he => by
          obtain rfl := haddr.eq_of_addr hm hn he
          exact nextFreq_ne m.freq hf
        have hm₁ : m ∈ (sh.setEntry n.addr entry).list := mem_modify.mpr ⟨m, hm, if_neg hne⟩
        have hat := nodeAt_of_mem haddr₂ (hmem m hm₁)
        rw [hga] at hat
        exact ⟨by rw [hga]; exact hne, m, g m, nodeAt_of_mem haddr hm, hat, hgc m⟩
    have hsum : liveBytes .lfu ((sh.setEntry n.addr entry).incrementFreq n.addr).list
        (fun m => m.freq < nextFreq n.freq) =
        liveBytes .lfu (sh.unlink n.addr).list fun m => m.freq < nextFreq n.freq := by
      rw [show ((sh.setEntry n.addr entry).incrementFreq n.addr).list = _ from hlist,
        liveBytes_perm ((perm_unlink haddr₁ hn₁).map g), map_cons, liveBytes_cons, hself,
        unlink_setEntry]
      simp only [lt_irrefl, decide_false, Bool.and_false, false_eq_true, if_false, zero_add]
      refine liveBytes_map fun m hm => ⟨hgc m, ?_⟩
      rw [hgf, if_neg (mem_unlink.mp hm).2]
    rw [hga, hsum, ← hothers fun m => m.freq < nextFreq n.freq, ← hwritten] at hguard
    exact hguard

theorem Wf.addressed_insertNew (h : sh.Wf p) (hfresh : ∀ m ∈ sh.list, m.addr ≠ a) (key : Key)
    (entry : VersionedEntry) : (sh.insertNew p a key entry).Addressed := by
  have hcells := (insertNew_spec h hfresh key entry).1
  have hnodup : ((sh.insertNew p a key entry).cells.map Cell.addr).Nodup := by
    rw [hcells]
    exact nodup_cons.mpr ⟨by simpa [cells] using hfresh, h.base.addrs⟩
  rwa [cells, map_map] at hnodup

theorem list_insertNew_lfu (hfresh : ∀ m ∈ sh.list, m.addr ≠ a) (key : Key)
    (entry : VersionedEntry) : (sh.insertNew .lfu a key entry).list =
      { addr := a, key := key, entry := entry, freq := 1,
        freqIndex := (sh.freqBuckets.get 1).length } :: sh.list := by
  simp only [insertNew, pushToFreqBucket, Shard.modify, map_cons, if_true]
  congr 1
  exact (map_congr_left fun m hm => if_neg (hfresh m hm)).trans (map_id _)

theorem insertNew_guarded {key : Key} {entry : VersionedEntry} (h : sh.Wf p)
    (hfresh : ∀ m ∈ sh.list, m.addr ≠ a) (habsent : sh.find key = none)
    (hlive : entry.isTombstone = false) :
    (sh.insertNew p a key entry).Guarded p a (sh.evictedBefore p key) := by
  have hkeys := h.find_eq_none.mp habsent
  cases p with
  | lru =>
    refine ⟨{ addr := a, key := key, entry := entry }, sh.list, rfl, rfl, ?_⟩
    exact liveBytes_congr fun m hm => by simp [hkeys m hm]
  | lfu =>
    have hwritten : sh.writtenFreq key = 1 := by rw [writtenFreq, habsent]
    have haddr' := h.addressed_insertNew hfresh key entry
    have hlist := list_insertNew_lfu hfresh key entry
    have hmem : ∀ m ∈ sh.list, m ∈ (sh.insertNew .lfu a key entry).list := by
      intro m hm
      rw [hlist]
      exact mem_cons_of_mem _ hm
    have hsum : liveBytes .lfu (sh.insertNew .lfu a key entry).list (fun m => m.freq < 1) =
        liveBytes .lfu sh.list fun m => decide (m.key ≠ key) && decide (m.freq < 1) := by
      rw [hlist, liveBytes_cons]
      simp only [lt_irrefl, decide_false, Bool.and_false, false_eq_true, if_false, zero_add]
      exact liveBytes_congr fun m hm => by simp [hkeys m hm]
    have hnew :
        { addr := a, key := key, entry := entry, freq := 1,
          freqIndex := (sh.freqBuckets.get 1).length } ∈
        (sh.insertNew .lfu a key entry).list := by
      rw [hlist]
      exact mem_cons_self
    have hbucket : (sh.insertNew .lfu a key entry).freqBuckets.get 1 =
      sh.freqBuckets.get 1 ++ [a] :=
      (get_set _ _ _ _).trans (if_pos rfl)
    have hguard := guarded_of_push sh (f := 1) haddr' hnew rfl hlive hsum hbucket fun x hx => by
        obtain ⟨j, hj⟩ := mem_iff_getElem?.mp hx
        obtain ⟨m, hm, rfl, -, -⟩ := Located.only h.policy _ _ x hj
        exact ⟨hfresh m hm, m, m, nodeAt_of_mem h.addressed hm, nodeAt_of_mem haddr' (hmem m hm),
          rfl⟩
    rw [← hwritten] at hguard
    exact hguard

end Shard

end Cinder
