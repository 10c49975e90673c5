/-
Frequencies and victims of the LFU store (`src/store/lfu_store.cpp`).
-/
import Cinder.Lib.Transition
import Cinder.Store.Edits

namespace Cinder

open List Function EvictionStore Option

/-! ## 1. The eviction loop and its iterator -/

/-- What the contract of the buckets' map leaves undefined: any erasure ends all iterators. -/
inductive Fault where
  | staleIterator
  deriving DecidableEq, Repr

namespace Shard

variable {sh sh' : Shard} {n v : Node} {slice : Nat}

/-- The loop over the buckets. The header increments `bucket_it` before it looks at `found`, so
also behind the erasure of the bucket it stands on. -/
def scanBuckets (live : Addr → Bool) : List (Nat × List Addr) → Except Fault (Option (Nat × Nat))
  | [] => .ok none
  | (freq, vec) :: buckets =>
    match vec.findIdx? live with
    | none => scanBuckets live buckets
    | some idx =>
      if (Buckets.swapRemove vec idx).isEmpty then .error .staleIterator else .ok (some (freq, idx))

/-- `LfuStore::evictOne`. -/
def evictOneChecked (sh : Shard) : Except Fault (Option (Node × Shard)) :=
  match scanBuckets sh.liveAt sh.freqBuckets.cells with
  | .error fault => .error fault
  | .ok none => .ok none
  | .ok (some (freq, idx)) =>
    .ok ((((sh.freqBuckets.get freq)[idx]?).bind sh.nodeAt).map fun victim =>
      (victim, (sh.takeFromBucket freq idx).detach victim.key victim.addr))

/-- The loop of `evictIfNeeded` over it. -/
def evictDownChecked (slice : Nat) : (fuel : Nat) → Shard → Except Fault (List Node × Shard)
  | 0, sh => .ok ([], sh)
  | fuel + 1, sh =>
    if slice < sh.currentBytes then
      match sh.evictOneChecked with
      | .error fault => .error fault
      | .ok none => .ok ([], sh)
      | .ok (some (victim, sh)) =>
        (evictDownChecked slice fuel { sh with
          currentBytes := sh.currentBytes - Policy.lfu.nodeSize victim.toCell }).map
            fun rest => (victim :: rest.1, rest.2)
    else .ok ([], sh)

theorem scanBuckets_append {live : Addr → Bool} {dead : List (Nat × List Addr)}
    (h : ∀ c ∈ dead, c.2.findIdx? live = none) (buckets : List (Nat × List Addr)) :
    scanBuckets live (dead ++ buckets) = scanBuckets live buckets := by
  induction dead with
  | nil => rfl
  | cons c dead ih =>
    obtain ⟨hc, hdead⟩ := forall_mem_cons.mp h
    rw [cons_append, scanBuckets, hc]
    exact ih hdead

theorem length_swapRemove {vec : List Addr} {idx : Nat} (h : idx < vec.length) :
    (Buckets.swapRemove vec idx).length + 1 = vec.length :=
  (Buckets.perm_cons_swapRemove (getElem?_eq_getElem h)).length_eq

theorem scanBuckets_none {b : Buckets Nat Addr} {live : Addr → Bool}
    (h : b.firstWhere? live = none) : scanBuckets live b.cells = .ok none := by
  have hdead : ∀ c ∈ b.cells, c.2.findIdx? live = none := fun c hc =>
    map_eq_none_iff.mp (findSome?_eq_none_iff.mp h c hc)
  have hscan := scanBuckets_append hdead []
  rw [append_nil] at hscan
  exact hscan

theorem scanBuckets_some {b : Buckets Nat Addr} {live : Addr → Bool} {freq idx : Nat}
    (h : b.firstWhere? live = some (freq, idx)) :
    scanBuckets live b.cells =
      if (b.get freq).length = 1 then .error .staleIterator else .ok (some (freq, idx)) := by
  obtain ⟨dead, c, rest, hcells, hc, hdead⟩ := findSome?_eq_some_iff.mp h
  obtain ⟨idx', hidx, heq⟩ := map_eq_some_iff.mp hc
  cases heq
  have hget : b.get c.1 = c.2 := by
    refine Buckets.getCells_of_mem b.ascending ?_
    rw [hcells]
    exact mem_append_right _ mem_cons_self
  obtain ⟨hlt, -⟩ := findIdx?_eq_some_iff_getElem.mp hidx
  have hlength := length_swapRemove hlt
  have hempty : (Buckets.swapRemove c.2 idx).isEmpty = true ↔ c.2.length = 1 := by
    rw [isEmpty_iff_length_eq_zero]
    omega
  rw [hcells, scanBuckets_append fun d hd => map_eq_none_iff.mp (hdead d hd), scanBuckets,
    hidx, hget]
  exact if_congr hempty rfl rfl

theorem length_bucket (h : sh.Located) (haddr : sh.Addressed) (hv : v ∈ sh.list) :
    (sh.freqBuckets.get v.freq).length ≠ 1 ↔
      ∃ n ∈ sh.nodes, n.addr ≠ v.addr ∧ n.freq = v.freq := by
  obtain ⟨hvlt, -⟩ := List.getElem?_eq_some_iff.mp (h.stands v hv)
  constructor
  · intro hlength
    -- some position of the bucket is not the victim's
    obtain ⟨j, hj, hne⟩ : ∃ j < (sh.freqBuckets.get v.freq).length, j ≠ v.freqIndex := by
      by_cases hzero : v.freqIndex = 0
      · exact ⟨1, by omega, by omega⟩
      · exact ⟨0, by omega, fun h => hzero h.symm⟩
    obtain ⟨n, hn, -, hfreq, hidx⟩ := h.only _ j _ (getElem?_eq_getElem hj)
    refine ⟨n.unplaced, mem_nodes.mpr ⟨n, hn, rfl⟩, fun heq => ?_, hfreq⟩
    rw [haddr.eq_of_addr hn hv heq] at hidx
    exact hne hidx.symm
  · intro ⟨n, hn, hne, hfreq⟩ hlength
    obtain ⟨m, hm, rfl⟩ := mem_nodes.mp hn
    obtain ⟨hmlt, hmat⟩ := List.getElem?_eq_some_iff.mp (h.stands m hm)
    have hstands := h.stands m hm
    have hfreq : m.freq = v.freq := hfreq
    rw [hfreq] at hstands hmlt
    have hidx : m.freqIndex = v.freqIndex := by omega
    rw [hidx, h.stands v hv] at hstands
    exact hne (some.inj hstands).symm

theorem evictOneChecked_none (h : sh.Wf .lfu) (he : sh.evictOne .lfu = none) :
    sh.evictOneChecked = .ok none := by
  unfold evictOneChecked
  cases hfirst : sh.freqBuckets.firstWhere? sh.liveAt with
  | none => rw [scanBuckets_none hfirst]
  | some found =>
    -- the position found holds a resident node
    obtain ⟨⟨b, hb, -⟩, -⟩ := Buckets.firstWhere?_eq hfirst
    obtain ⟨m, hm, rfl, -⟩ := Located.only h.policy _ _ b hb
    rw [evictOne, hfirst] at he
    simp [hb, nodeAt_of_mem h.addressed hm] at he

theorem evictOneChecked_some (h : sh.Wf .lfu) (he : sh.evictOne .lfu = some (v, sh')) :
    sh.evictOneChecked =
      if ∃ n ∈ sh.nodes, n.addr ≠ v.addr ∧ n.freq = v.freq then .ok (some (v, sh'))
      else .error .staleIterator := by
  obtain ⟨hv, hfirst, rfl⟩ := evictOne_lfu h.policy h.addressed he
  have hstands := Located.stands h.policy v hv
  have hbucket := length_bucket h.policy h.addressed hv
  unfold evictOneChecked
  rw [scanBuckets_some hfirst]
  by_cases hlength : (sh.freqBuckets.get v.freq).length = 1
  · rw [if_pos hlength, if_neg fun hother => hbucket.mpr hother hlength]
  · rw [if_neg hlength, if_pos (hbucket.mp hlength)]
    dsimp only
    rw [hstands, bind_some, nodeAt_of_mem h.addressed hv, map_some]

/-- **Every victim leaves company behind**: when its turn comes, another node of the shard has its
frequency. -/
def Accompanied (nodes : List Node) : List Node → Prop
  | [] => True
  | v :: victims => (∃ n ∈ nodes, n.addr ≠ v.addr ∧ n.freq = v.freq) ∧
      Accompanied (nodes.filter fun n => n.addr ≠ v.addr) victims

instance decidableAccompanied : (nodes victims : List Node) → Decidable (Accompanied nodes victims)
  | _, [] => .isTrue trivial
  | nodes, _ :: victims =>
    @instDecidableAnd _ _ inferInstance (decidableAccompanied (nodes.filter _) victims)

theorem evictDownChecked_eq (fuel : Nat) (h : sh.Wf .lfu) :
    evictDownChecked slice fuel sh =
      if Accompanied sh.nodes (evictDown .lfu slice fuel sh).1 then
        .ok (evictDown .lfu slice fuel sh)
      else .error .staleIterator := by
  induction fuel generalizing sh with
  | zero => rfl
  | succ fuel ih =>
    unfold evictDownChecked
    by_cases hover : slice < sh.currentBytes
    · rw [if_pos hover]
      cases he : sh.evictOne .lfu with
      | none =>
        rw [evictOneChecked_none h he, evictDown_stop fuel (.inr he)]
        rfl
      | some r =>
        obtain ⟨v, sh'⟩ := r
        have hrest := ih (h.evictOne he).1
        have hnodes := nodes_evictOne h he
        have hleft : ∀ bytes, nodes { sh' with currentBytes := bytes } =
            sh.nodes.filter fun n => n.addr ≠ v.addr := fun _ => hnodes
        rw [hleft] at hrest
        rw [evictOneChecked_some h he, evictDown_succ fuel hover he]
        by_cases hother : ∃ n ∈ sh.nodes, n.addr ≠ v.addr ∧ n.freq = v.freq
        · rw [if_pos hother]
          dsimp only
          rw [hrest]
          split
          · rename_i hall
            exact (if_pos ⟨hother, hall⟩).symm
          · rename_i hall
            exact (if_neg fun hacc => hall hacc.2).symm
        · rw [if_neg hother]
          exact (if_neg fun hacc => hother hacc.1).symm
    · rw [if_neg hover, evictDown_stop fuel (.inl (not_lt.mp hover))]
      rfl

/-! ## 2. Victims -/

/-- A victim, given those that left before it: it is live, and no live node is less frequent. -/
structure LeastFrequent (nodes before : List Node) (v : Node) : Prop where
  live : v.entry.isTombstone = false
  resident : ∃ n ∈ nodes, n.addr = v.addr ∧ n.freq = v.freq
  least : ∀ n ∈ nodes, n.entry.isTombstone = false → n.addr ∉ before.map (fun b => b.addr) →
    v.freq ≤ n.freq

theorem leastFrequent_of_evictDown {fuel : Nat} {before rest : List Node} (h : sh.Wf .lfu)
    (hout : (evictDown .lfu slice fuel sh).1 = before ++ v :: rest) :
    LeastFrequent sh.nodes before v := by
  refine evictDown_rounds (P := fun sh r => ∀ before, r.1 = before ++ v :: rest →
    LeastFrequent sh.nodes before v) ?_ ?_ fuel h before hout
  · intro sh _ before hout
    simp at hout
  · intro sh first sh' r h _ he ih before hout
    cases before with
    | nil =>
      obtain ⟨rfl, -⟩ := List.cons.inj hout
      obtain ⟨hmem, hlive, -⟩ := evictOne_spec h he
      refine ⟨hlive, ⟨first.unplaced, mem_nodes.mpr ⟨first, hmem, rfl⟩, rfl, rfl⟩, ?_⟩
      intro n hn hnlive _
      obtain ⟨m, hm, rfl⟩ := mem_nodes.mp hn
      have hle := freq_le_of_evictOne h he hm hnlive
      exact hle
    | cons b before =>
      obtain ⟨rfl, hrest⟩ := List.cons.inj hout
      have hnodes := nodes_evictOne h he
      have hleft : ∀ bytes, nodes { sh' with currentBytes := bytes } =
          sh.nodes.filter fun n => n.addr ≠ first.addr := fun _ => hnodes
      obtain ⟨hlive, ⟨n, hn, hsame⟩, hleast⟩ := ih before hrest
      rw [hleft] at hn hleast
      refine ⟨hlive, ⟨n, (mem_filter.mp hn).1, hsame⟩, fun m hm hmlive hnot => ?_⟩
      rw [map_cons, mem_cons, not_or] at hnot
      exact hleast m (mem_filter.mpr ⟨hm, decide_eq_true hnot.1⟩) hmlive hnot.2

end Shard

/-! ## 3. Frequencies -/

def Tallied (tally : Key → Nat) (nodes : List Node) : Prop :=
  ∀ n ∈ nodes, n.freq = tally n.key ∧ 1 ≤ n.freq

variable {tally : Key → Nat} {nodes : List Node} {key : Key} {a : Addr} {c : Nat}

section

variable (h : Tallied tally nodes)

include h

theorem Tallied.subset {nodes' : List Node}
    (hsub : ∀ n ∈ nodes', n ∈ nodes) : Tallied tally nodes' := fun n hn => h n (hsub n hn)

theorem Tallied.drops (p : Policy) (victims : List Node) :
    Tallied tally (Edit.applyAll p (victims.map fun v => .drop v.addr) nodes) := by
  rw [Edit.applyAll_victims]
  exact h.subset fun n hn => (mem_filter.mp hn).1

theorem Tallied.update (habsent : ∀ n ∈ nodes, n.key ≠ key) (c : Nat) :
    Tallied (update tally key c) nodes := by
  intro n hn
  rw [update_of_ne (habsent n hn)]
  exact h n hn

theorem Tallied.insert (habsent : ∀ n ∈ nodes, n.key ≠ key) (a : Addr) (entry : VersionedEntry) :
    Tallied (Function.update tally key 1) (Edit.apply .lfu nodes (.insert a key entry)) := by
  intro n hn
  rcases mem_cons.mp hn with rfl | hn
  · refine ⟨?_, le_rfl⟩
    show 1 = Function.update tally key 1 key
    rw [update_self]
  · exact h.update habsent 1 n hn

theorem Tallied.editAt
    (hnode : ∀ n ∈ nodes, n.addr = a ↔ n.key = key) {f : Node → Node}
    (hf : ∀ n ∈ nodes, n.addr = a → (f n).key = n.key ∧ (f n).freq = c) (hc : 1 ≤ c) :
    Tallied (Function.update tally key c) (editAt a f nodes) := by
  intro m hm
  obtain ⟨n, hn, rfl⟩ := mem_map.mp hm
  by_cases haddr : n.addr = a
  · obtain ⟨hkey, hfreq⟩ := hf n hn haddr
    rw [if_pos haddr, hkey, (hnode n hn).mp haddr, hfreq, update_self]
    exact ⟨rfl, hc⟩
  · rw [if_neg haddr, update_of_ne fun hkey => haddr ((hnode n hn).mpr hkey)]
    exact h n hn

end

namespace EvictionStore

variable {cfg : StoreConfig} {s : EvictionStore cfg}

variable (s)

def tallyWrite (tally : Key → Nat) (key : Key) (entry : VersionedEntry) : Key → Nat :=
  if s.rejects key entry then tally
  else update tally key
    (if ((s.shards (cfg.shardFor key)).find key).isSome then tally key + 1 else 1)

/-- **The frequencies an operation calls for**: accesses count one, a restored frequency counts
where it is the larger one. -/
def tallyOf (tally : Key → Nat) : StoreOp → Key → Nat
  | .put key value ttl clk =>
    s.mintVersion.2.tallyWrite tally key (putEntry s.nextVersion value ttl clk.now)
  | .putVersioned key entry _ => s.tallyWrite tally key entry
  | .removeVersioned key version writer clk =>
    s.tallyWrite tally key (tombstone version writer (clk.now + s.tombstoneGc))
  | .get key now =>
    match (s.shards (cfg.shardFor key)).find key with
    | some n =>
      if n.entry.expiredAt now ∨ n.entry.isTombstone then tally
      else update tally key (tally key + 1)
    | none => tally
  | .restoreFreq key freq =>
    if ((s.shards (cfg.shardFor key)).find key).isSome then
      update tally key (max (tally key) freq.toNat)
    else tally
  | .remove _ | .getVersioned _ _ | .evictExpired _ | .setCapacity _ | .setTombstoneGcInterval _
  | .mintVersion => tally

/-- The entry of a key can be accessed once more without a wrap-around of its frequency. -/
def RoomAt (key : Key) : Prop :=
  ∀ n ∈ (s.shards (cfg.shardFor key)).find key, n.freq + 1 < UInt64.size

/-- No access of the operation wraps a frequency around. -/
def NoWrap : StoreOp → Prop
  | .put key value ttl clk =>
    s.mintVersion.2.rejects key (putEntry s.nextVersion value ttl clk.now) = false → s.RoomAt key
  | .putVersioned key entry _ => s.rejects key entry = false → s.RoomAt key
  | .removeVersioned key version writer clk =>
    s.rejects key (tombstone version writer (clk.now + s.tombstoneGc)) = false → s.RoomAt key
  | .get key now => ∀ n ∈ (s.shards (cfg.shardFor key)).find key,
    n.entry.expiredAt now = false → n.entry.isTombstone = false → n.freq + 1 < UInt64.size
  | .remove _ | .getVersioned _ _ | .evictExpired _ | .setCapacity _ | .setTombstoneGcInterval _
  | .restoreFreq _ _ | .mintVersion => True

def AllTallied (tally : Key → Nat) : Prop := ∀ i, Tallied tally (s.shards i).nodes

variable {s}

theorem AllTallied.update {t : EvictionStore cfg} (h : s.AllTallied tally) (hs : s.Inv)
    (helse : ∀ i, i ≠ cfg.shardFor key → (t.shards i).nodes = (s.shards i).nodes)
    (hhere : Tallied (update tally key c) (t.shards (cfg.shardFor key)).nodes) :
    t.AllTallied (update tally key c) := by
  intro i
  by_cases hi : i = cfg.shardFor key
  · rw [hi]
    exact hhere
  · rw [helse i hi]
    refine (h i).update (fun n hn hkey => hi ?_) c
    obtain ⟨m, hm, rfl⟩ := Shard.mem_nodes.mp hn
    rw [← hs.placed i m.toCell (mem_map_of_mem hm)]
    exact congrArg cfg.shardFor hkey

theorem node_iff (hs : s.Inv) {n : Node} (hf : (s.shards (cfg.shardFor key)).find key = some n) :
    ∀ m ∈ (s.shards (cfg.shardFor key)).nodes, m.addr = n.addr ↔ m.key = key := by
  intro m hm
  obtain ⟨m', hm', rfl⟩ := Shard.mem_nodes.mp hm
  obtain ⟨hn, rfl⟩ := (hs.shard _).find_eq.mp hf
  have hiff := (hs.shard _).addr_eq_iff hn hm'
  exact hiff

theorem absent_iff (hs : s.Inv) (hf : (s.shards (cfg.shardFor key)).find key = none) :
    ∀ m ∈ (s.shards (cfg.shardFor key)).nodes, m.key ≠ key := by
  intro m hm hkey
  obtain ⟨m', hm', rfl⟩ := Shard.mem_nodes.mp hm
  rw [(hs.shard _).find_eq.mpr ⟨hm', hkey⟩] at hf
  cases hf

theorem AllTallied.freq (h : s.AllTallied tally) (hs : s.Inv) {n : Node}
    (hf : (s.shards (cfg.shardFor key)).find key = some n) : n.freq = tally key ∧ 1 ≤ n.freq := by
  obtain ⟨hn, rfl⟩ := (hs.shard _).find_eq.mp hf
  have htally := h (cfg.shardFor n.key) n.unplaced (Shard.mem_nodes.mpr ⟨n, hn, rfl⟩)
  exact htally

theorem AllTallied.thins {t : EvictionStore cfg} (h : s.AllTallied tally) (ht : s.Thins t) :
    t.AllTallied tally := fun i => (h i).subset fun _ hn => ht.mem hn

theorem AllTallied.access (h : s.AllTallied tally) (hs : s.Inv) {n : Node}
    (hf : (s.shards (cfg.shardFor key)).find key = some n) (hroom : n.freq + 1 < UInt64.size)
    {f : Node → Node} (hfkey : ∀ m, (f m).key = m.key)
    (hffreq : ∀ m, (f m).freq = Shard.nextFreq m.freq) :
    Tallied (Function.update tally key (tally key + 1))
      (editAt n.addr f (s.shards (cfg.shardFor key)).nodes) := by
  obtain ⟨hfreq, -⟩ := h.freq hs hf
  refine (h _).editAt (node_iff hs hf) (fun m hm haddr => ⟨hfkey m, ?_⟩) (Nat.le_add_left 1 _)
  have hm' : m.freq = tally key := by
    rw [(h _ m hm).1, (node_iff hs hf m hm).mp haddr]
  rw [hffreq, hm', ← hfreq]
  exact Nat.mod_eq_of_lt hroom

section

variable (hlfu : cfg.policy = .lfu)

include hlfu

theorem tallied_write (hs : s.Inv) (h : s.AllTallied tally)
    {entry : VersionedEntry} (hroom : s.rejects key entry = false → s.RoomAt key) (now : Nanos)
    (clk : ClockReading) :
    (s.putVersionedAt key entry now clk).2.AllTallied (s.tallyWrite tally key entry) := by
  unfold tallyWrite
  cases hrej : s.rejects key entry with
  | true =>
    rw [putVersionedAt_of_rejects hrej, if_pos rfl]
    exact h
  | false =>
    have hnodes : ((s.putVersionedAt key entry now clk).2.shards (cfg.shardFor key)).nodes =
        Edit.applyAll .lfu ((s.writeVictims key entry (cfg.shardFor key)).map fun v => .drop v.addr)
          (Edit.apply .lfu (s.shards (cfg.shardFor key)).nodes (s.writeEdit key entry)) := by
      rw [nodes_putVersionedAt hs, writeEdits, if_pos ⟨hrej, rfl⟩, hlfu]
      rfl
    rw [if_neg Bool.false_ne_true]
    refine h.update hs (fun i hi => congrArg Shard.nodes (putVersionedAt_shards_ne hi ..)) ?_
    rw [hnodes]
    refine Tallied.drops ?_ _ _
    unfold writeEdit
    cases hf : (s.shards (cfg.shardFor key)).find key with
    | some n => exact h.access hs hf (hroom hrej n hf) (fun _ => rfl) fun _ => rfl
    | none => exact (h _).insert (absent_iff hs hf) _ _

theorem tallied_get (hs : s.Inv) (h : s.AllTallied tally) {now : Nanos}
    (hroom : s.NoWrap (.get key now)) :
    (s.get key now).2.AllTallied (s.tallyOf tally (.get key now)) := by
  unfold tallyOf get
  dsimp only
  cases hf : (s.shards (cfg.shardFor key)).find key with
  | none => exact h
  | some n =>
    obtain ⟨hn, -⟩ := (hs.shard _).find_eq.mp hf
    dsimp only
    cases hexp : n.entry.expiredAt now with
    | true => exact h.thins (eraseNode_thins _ _ _ _)
    | false =>
      cases htomb : n.entry.isTombstone with
      | true => exact h
      | false =>
        show (s.setShard _ ((s.shards _).onAccess cfg.policy n.addr)).AllTallied
          (update tally key (tally key + 1))
        refine h.update hs (fun i hi => congrArg Shard.nodes (setShard_of_ne _ hi _)) ?_
        rw [setShard_self, Shard.nodes_onAccess (hs.shard _).addressed hn, hlfu]
        exact h.access hs hf (hroom n hf hexp htomb) (fun _ => rfl) fun _ => rfl

theorem tallied_restoreFreq (hs : s.Inv) (h : s.AllTallied tally) (freq : UInt64) :
    (s.restoreFreq key freq).AllTallied (s.tallyOf tally (.restoreFreq key freq)) := by
  have hnodes := restoreFreq_nodes s key freq
  unfold tallyOf
  dsimp only
  cases hf : (s.shards (cfg.shardFor key)).find key with
  | none =>
    intro i
    rw [hnodes i, editsOf, atKey_none _ hf]
    exact h i
  | some n =>
    obtain ⟨hfreq, hone⟩ := h.freq hs hf
    refine h.update hs (fun i hi => ?_) ?_
    · rw [hnodes i, editsOf, atKey_of_ne _ hi]
      rfl
    · rw [hnodes, editsOf, atKey_some _ hf, hlfu]
      by_cases hup : 1 < freq ∧ n.freq < freq.toNat
      · have hmax : max (tally key) freq.toNat = freq.toNat := by omega
        rw [if_pos ⟨rfl, hup⟩, hmax]
        exact (h _).editAt (node_iff hs hf) (fun m _ _ => ⟨rfl, rfl⟩) (by omega)
      · -- the frequency is the larger one already
        have hle : freq.toNat ≤ n.freq := by
          by_contra hlt
          have hbig : ¬ 1 < freq := fun hone' => hup ⟨hone', Nat.lt_of_not_le hlt⟩
          have hsmall : freq.toNat ≤ 1 := UInt64.le_iff_toNat_le.mp (UInt64.not_lt.mp hbig)
          omega
        have hmax : max (tally key) freq.toNat = tally key := by omega
        rw [if_neg fun hcond => hup hcond.2, hmax, update_eq_self]
        exact h _

theorem tallied_apply (hs : s.Inv) (h : s.AllTallied tally)
    {op : StoreOp} (hroom : s.NoWrap op) : (s.apply op).AllTallied (s.tallyOf tally op) := by
  cases op with
  | put key value ttl clk => exact tallied_write (s := s.mintVersion.2) hlfu hs.mint h hroom _ clk
  | putVersioned key entry clk => exact tallied_write hlfu hs h hroom _ clk
  | removeVersioned key version writer clk => exact tallied_write hlfu hs h hroom _ clk
  | remove key => exact h.thins (remove_thins s key)
  | get key now => exact tallied_get hlfu hs h hroom
  | getVersioned key now => exact h.thins (getVersioned_thins s key now)
  | evictExpired now => exact h.thins (evictExpired_sweeps hs now).thins
  | setCapacity capacityBytes =>
    intro i
    rw [apply, setCapacity_nodes hs]
    exact (h i).drops _ _
  | setTombstoneGcInterval interval => exact h
  | restoreFreq key freq => exact tallied_restoreFreq hlfu hs h freq
  | mintVersion => exact h

end

theorem le_tallyOf (hs : s.Inv) (tally : Key → Nat) (op : StoreOp) {i : Fin cfg.numShards}
    {n : Node} (hn : n ∈ (s.shards i).list) : tally n.key ≤ s.tallyOf tally op n.key := by
  have hf : (s.shards (cfg.shardFor n.key)).find n.key = some n := by
    have hplace := hs.placed i n.toCell (mem_map_of_mem hn)
    rw [show cfg.shardFor n.key = i from hplace]
    exact (hs.shard i).find_eq.mpr ⟨hn, rfl⟩
  -- the tally changes at one key only, and does not fall there if it is that of the node
  have hupdate : ∀ key c, (n.key = key → tally n.key ≤ c) →
      tally n.key ≤ update tally key c n.key := by
    intro key c hc
    by_cases hkey : n.key = key
    · subst hkey
      rw [update_self]
      exact hc rfl
    · rw [update_of_ne hkey]
  have hwrite : ∀ (t : EvictionStore cfg), t.shards = s.shards → ∀ key entry,
      tally n.key ≤ t.tallyWrite tally key entry n.key := by
    intro t ht key entry
    unfold tallyWrite
    split
    · exact le_rfl
    · refine hupdate _ _ fun hkey => ?_
      subst hkey
      rw [ht, hf]
      exact Nat.le_succ _
  cases op with
  | put key value ttl clk => exact hwrite s.mintVersion.2 rfl key _
  | putVersioned key entry clk => exact hwrite s rfl key _
  | removeVersioned key version writer clk => exact hwrite s rfl key _
  | get key now =>
    unfold tallyOf
    dsimp only
    cases (s.shards (cfg.shardFor key)).find key with
    | none => exact le_rfl
    | some m =>
      dsimp only
      split
      · exact le_rfl
      · refine hupdate _ _ fun hkey => ?_
        subst hkey
        exact Nat.le_succ _
  | restoreFreq key freq =>
    unfold tallyOf
    dsimp only
    split
    · refine hupdate _ _ fun hkey => ?_
      subst hkey
      exact le_max_left _ _
    · exact le_rfl
  | _ => exact le_rfl

/-! ## 4. Operations with their eviction loops -/

variable (s)

/-- `evictIfNeeded` with the iterator of its rounds. -/
def victimsChecked (i : Fin cfg.numShards) : Except Fault (List Node) :=
  ((s.shards i).evictDownChecked s.shardCapacity (s.shards i).list.length).map fun r => r.1

/-- The victims of an operation in a shard, unless it goes wrong. -/
def evictedByChecked (i : Fin cfg.numShards) (op : StoreOp) : Except Fault (List Node) :=
  if s.evictsAt i op then (s.beforeEviction op).victimsChecked i else .ok []

/-- Every victim of an operation leaves company behind. -/
def LeavesCompany (op : StoreOp) : Prop :=
  ∀ i, Shard.Accompanied ((s.beforeEviction op).shards i).nodes (s.evictedBy i op)

variable {s}

theorem victimsChecked_eq (hlfu : cfg.policy = .lfu) (hs : s.Inv) (i : Fin cfg.numShards) :
    s.victimsChecked i =
      if Shard.Accompanied (s.shards i).nodes (s.victims i) then .ok (s.victims i)
      else .error .staleIterator := by
  have hwf : (s.shards i).Wf .lfu := hlfu ▸ hs.shard i
  unfold victimsChecked victims
  rw [Shard.evictDownChecked_eq _ hwf, hlfu]
  split <;> rfl

theorem evictedByChecked_eq (hlfu : cfg.policy = .lfu) (hs : s.Inv) (op : StoreOp)
    (i : Fin cfg.numShards) :
    s.evictedByChecked i op =
      if Shard.Accompanied ((s.beforeEviction op).shards i).nodes (s.evictedBy i op) then
        .ok (s.evictedBy i op)
      else .error .staleIterator := by
  rw [evictedBy_eq]
  unfold evictedByChecked
  split
  · exact victimsChecked_eq hlfu (beforeEviction_inv hs op) i
  · exact (if_pos trivial).symm

theorem leastFrequent_victim (hlfu : cfg.policy = .lfu) (hs : s.Inv) {op : StoreOp}
    {i : Fin cfg.numShards} {before rest : List Node} {v : Node}
    (h : s.evictedBy i op = before ++ v :: rest) :
    Shard.LeastFrequent ((s.beforeEviction op).shards i).nodes before v := by
  have hwf : ((s.beforeEviction op).shards i).Wf .lfu := hlfu ▸ (beforeEviction_inv hs op).shard i
  rw [evictedBy_eq] at h
  split at h
  · unfold victims at h
    rw [hlfu] at h
    exact Shard.leastFrequent_of_evictDown hwf h
  · simp at h

variable (s)

instance (key : Key) : Decidable (s.RoomAt key) :=
  inferInstanceAs (Decidable (∀ n ∈ (s.shards (cfg.shardFor key)).find key, _))

instance : (op : StoreOp) → Decidable (s.NoWrap op)
  | .put _ _ _ _ | .putVersioned _ _ _ | .removeVersioned _ _ _ _ =>
    inferInstanceAs (Decidable (_ → s.RoomAt _))
  | .get key _ => inferInstanceAs (Decidable (∀ n ∈ (s.shards (cfg.shardFor key)).find key, _))
  | .remove _ | .getVersioned _ _ | .evictExpired _ | .setCapacity _ | .setTombstoneGcInterval _
  | .restoreFreq _ _ | .mintVersion => .isTrue trivial

instance (op : StoreOp) : Decidable (s.LeavesCompany op) := inferInstanceAs (Decidable (∀ _, _))

/-! ## 5. Histories with their eviction loops -/

/-- An operation that goes wrong where an eviction loop does. Only the LFU store loops over
buckets. -/
def applyChecked (op : StoreOp) : Except Fault (EvictionStore cfg) :=
  if cfg.policy = .lfu ∧ ∃ i, (s.evictedByChecked i op).isOk = false then .error .staleIterator
  else .ok (s.apply op)

variable {s}

def afterChecked (cfg : StoreConfig) (capacityBytes : Nat) (now : Nanos) (ops : List StoreOp) :
    Except Fault (EvictionStore cfg) := ops.foldlM applyChecked (start cfg capacityBytes now)

/-- **No operation of a history goes wrong**: in an LFU store every victim leaves company behind. -/
def Harmless (cfg : StoreConfig) (capacityBytes : Nat) (now : Nanos) (ops : List StoreOp) : Prop :=
  ∀ before op, before ++ [op] <+: ops → cfg.policy = .lfu →
    (after cfg capacityBytes now before).LeavesCompany op

theorem applyChecked_eq_ok (hs : s.Inv) {op : StoreOp} {s' : EvictionStore cfg} :
    s.applyChecked op = .ok s' ↔ (cfg.policy = .lfu → s.LeavesCompany op) ∧ s' = s.apply op := by
  have hfault : (cfg.policy = .lfu ∧ ∃ i, (s.evictedByChecked i op).isOk = false) ↔
      ¬ (cfg.policy = .lfu → s.LeavesCompany op) := by
    rw [Classical.not_imp]
    refine and_congr_right fun hlfu => ?_
    unfold LeavesCompany
    rw [not_forall]
    refine exists_congr fun i => ?_
    rw [evictedByChecked_eq hlfu hs op i]
    split <;> simp_all [Except.isOk, Except.toBool]
  unfold applyChecked
  by_cases hcompany : cfg.policy = .lfu → s.LeavesCompany op
  · rw [if_neg fun h => hfault.mp h hcompany, Except.ok.injEq]
    exact ⟨fun h => ⟨hcompany, h.symm⟩, fun h => h.2.symm⟩
  · rw [if_pos (hfault.mpr hcompany)]
    exact ⟨nofun, fun h => absurd h.1 hcompany⟩

section

variable {capacityBytes : Nat} {now : Nanos} {ops : List StoreOp}

theorem harmless_append {op : StoreOp} : Harmless cfg capacityBytes now (ops ++ [op]) ↔
    Harmless cfg capacityBytes now ops ∧
      (cfg.policy = .lfu → (after cfg capacityBytes now ops).LeavesCompany op) := by
  constructor
  · exact fun h => ⟨fun before op' hpre => h before op' (hpre.trans (prefix_append _ _)),
      h ops op prefix_rfl⟩
  · rintro ⟨h, hlast⟩ before op' hpre
    rcases prefix_concat_iff.mp hpre with heq | hpre
    · obtain ⟨rfl, rfl⟩ := append_singleton_inj.mp heq
      exact hlast
    · exact h before op' hpre

/-- A history that runs to its end is harmless, and its eviction loops change nothing else. -/
theorem afterChecked_eq_ok : afterChecked cfg capacityBytes now ops = .ok s ↔
    Harmless cfg capacityBytes now ops ∧ s = after cfg capacityBytes now ops := by
  induction ops using reverseRecOn generalizing s with
  | nil =>
    refine ⟨fun h => ⟨fun before op hpre => ?_, (Except.ok.inj h).symm⟩,
      fun h => congrArg _ h.2.symm⟩
    simp at hpre
  | append_singleton ops op ih =>
    have hafter : after cfg capacityBytes now (ops ++ [op]) =
        (after cfg capacityBytes now ops).apply op := foldl_concat ..
    have hstep : (after cfg capacityBytes now ops).applyChecked op = .ok s ↔ _ :=
      applyChecked_eq_ok (after_keeps capacityBytes now ops).1
    rw [harmless_append, and_assoc, hafter, ← hstep]
    unfold afterChecked at ih ⊢
    rw [foldlM_append]
    cases hrun : ops.foldlM applyChecked (start cfg capacityBytes now) with
    | error fault =>
      refine ⟨nofun, fun h => ?_⟩
      have hok := ih.mpr ⟨h.1, rfl⟩
      rw [hrun] at hok
      cases hok
    | ok s₁ =>
      obtain ⟨hharmless, rfl⟩ := ih.mp hrun
      rw [and_iff_right hharmless]
      show [op].foldlM applyChecked (after cfg capacityBytes now ops) = .ok s ↔ _
      rw [foldlM_cons]
      cases (after cfg capacityBytes now ops).applyChecked op <;> exact .rfl

end

/-- **The representation invariant**, for both policies: a history runs to its end exactly if it is
harmless, and then index and nodes agree, keys live in the shard of their hash, the counters are
exact, and the nodes scheduled in a wheel are the residents with a TTL. -/
theorem representation_invariant (cfg : StoreConfig) (capacityBytes : Nat) (now : Nanos)
    (ops : List StoreOp) :
    (∃ s, afterChecked cfg capacityBytes now ops = .ok s ∧ s.Represented) ↔
      Harmless cfg capacityBytes now ops := by
  constructor
  · rintro ⟨s, hs, -⟩
    exact (afterChecked_eq_ok.mp hs).1
  · intro h
    obtain ⟨hs, hc, ht⟩ := @after_keeps cfg capacityBytes now ops
    exact ⟨_, afterChecked_eq_ok.mpr ⟨h, rfl⟩, represented_of hs hc ht⟩

/-- The only entry of an LFU store is evicted, and the loop goes on behind its bucket. -/
theorem representation_lost_on_last_eviction :
    ¬ ∃ s, afterChecked (oneShardStore .lfu) 280 0 [.put [1] [7] none {}, .setCapacity 0] = .ok s ∧
      s.Represented := by
  rintro ⟨s, hs, -⟩
  cases hs

/-- **Capacity is respected and tombstones survive it**: a history runs to its end exactly if it is
harmless, and then each shard is within its slice or holds tombstones only; of the nodes its last
operation evicts none is a tombstone, and without the last of them the shard would still be over its
slice. -/
theorem capacity_respected (cfg : StoreConfig) (capacityBytes : Nat) (now : Nanos)
    (ops : List StoreOp) (op : StoreOp) :
    (∃ s s', afterChecked cfg capacityBytes now ops = .ok s ∧ s.applyChecked op = .ok s' ∧
        s.Fits ∧ s'.Fits ∧ ∀ i, ((s.beforeEviction op).shards i).EvictedTo cfg.policy
          s'.shardCapacity (s.evictedBy i op) (s'.shards i)) ↔
      Harmless cfg capacityBytes now (ops ++ [op]) := by
  have hinv : (after cfg capacityBytes now ops).Inv := (after_keeps capacityBytes now ops).1
  have hfits := after_fits cfg capacityBytes now ops
  rw [harmless_append]
  constructor
  · rintro ⟨s, s', hs, hs', -⟩
    obtain ⟨h, rfl⟩ := afterChecked_eq_ok.mp hs
    exact ⟨h, ((applyChecked_eq_ok hinv).mp hs').1⟩
  · rintro ⟨h, hlast⟩
    exact ⟨_, _, afterChecked_eq_ok.mpr ⟨h, rfl⟩, (applyChecked_eq_ok hinv).mpr ⟨hlast, rfl⟩, hfits,
      apply_fits hinv hfits op, apply_evicts hinv op⟩

/-- Both entries of an LFU store are evicted, and the loop goes on behind the bucket of the
second. -/
theorem capacity_lost_on_last_eviction :
    ¬ ∃ s s', afterChecked (oneShardStore .lfu) 280 0 twoSmall = .ok s ∧
      s.applyChecked (.setCapacity 0) = .ok s' := by
  rintro ⟨s, s', hs, hs'⟩
  cases hs
  cases hs'

end EvictionStore

/-! ## 6. Runs -/

/-- A store and the frequencies its operations call for. -/
structure TalliedStore (cfg : StoreConfig) where
  store : EvictionStore cfg
  tally : Key → Nat := fun _ => 0

namespace TalliedStore

open Transition

variable {cfg : StoreConfig} {r : TalliedStore cfg} {op : StoreOp}

def start (cfg : StoreConfig) (capacityBytes : Nat) (now : Nanos) : TalliedStore cfg :=
  { store := .start cfg capacityBytes now }

variable (r)

def step (op : StoreOp) : Option (TalliedStore cfg) :=
  some ⟨r.store.apply op, r.store.tallyOf r.tally op⟩

/-- No access wraps a frequency around, and no victim is the last of its frequency. -/
def Sound (op : StoreOp) : Prop := r.store.NoWrap op ∧ r.store.LeavesCompany op

instance (op : StoreOp) : Decidable (r.Sound op) := inferInstanceAs (Decidable (_ ∧ _))

structure Inv : Prop where
  store : r.store.Inv
  tallied : r.store.AllTallied r.tally

variable {r}

theorem inv_start (cfg : StoreConfig) (capacityBytes : Nat) (now : Nanos) :
    (start cfg capacityBytes now).Inv :=
  ⟨EvictionStore.inv_start cfg capacityBytes now, fun _ n hn => by cases hn⟩

theorem Inv.step (hlfu : cfg.policy = .lfu) (h : r.Inv) (hsound : r.Sound op) :
    Inv ⟨r.store.apply op, r.store.tallyOf r.tally op⟩ :=
  ⟨apply_inv h.store op, tallied_apply hlfu h.store h.tallied hsound.1⟩

theorem Inv.freq (h : r.Inv) {i : Fin cfg.numShards} {n : Node} (hn : n ∈ (r.store.shards i).list) :
    n.freq = r.tally n.key := by
  have htally := (h.tallied i n.unplaced (Shard.mem_nodes.mpr ⟨n, hn, rfl⟩)).1
  exact htally

/-- What is right in a shard whatever was restored and accessed: every node stands where it says
and nowhere else, no bucket is empty, and the next victims are least frequent. -/
structure Kept (s : EvictionStore cfg) (i : Fin cfg.numShards) : Prop where
  located : (s.shards i).Located
  nonempty : ∀ c ∈ (s.shards i).freqBuckets.cells, c.2 ≠ []
  victims : ∀ op before v rest, s.evictedBy i op = before ++ v :: rest →
    Shard.LeastFrequent ((s.beforeEviction op).shards i).nodes before v

theorem kept_of_inv (hlfu : cfg.policy = .lfu) {s : EvictionStore cfg} (hs : s.Inv)
    (i : Fin cfg.numShards) : Kept s i := by
  have hwf : (s.shards i).Wf .lfu := hlfu ▸ hs.shard i
  exact ⟨hwf.policy, (s.shards i).freqBuckets.nonempty,
    fun op before v rest h => leastFrequent_victim hlfu hs h⟩

/-- **LFU bookkeeping.** After every history each shard is kept; in every run in which no access
wraps a frequency around and no victim is the last of its frequency, frequencies are the tallies, no
node is demoted, and the eviction loops use no iterator behind an erasure. -/
theorem lfu_bookkeeping (cfg : StoreConfig) (hlfu : cfg.policy = .lfu) (capacityBytes : Nat)
    (now : Nanos) :
    (∀ ops i, Kept (EvictionStore.after cfg capacityBytes now ops) i) ∧
      ∀ r, Reaches step Sound (start cfg capacityBytes now) r →
        (∀ i, Kept r.store i ∧ ∀ n ∈ (r.store.shards i).list, n.freq = r.tally n.key) ∧
        ∀ op, r.Sound op → ∀ i,
          (∀ n ∈ (r.store.shards i).list, ∀ n' ∈ ((r.store.apply op).shards i).list,
            n'.key = n.key → n.freq ≤ n'.freq) ∧
          r.store.evictedByChecked i op = .ok (r.store.evictedBy i op) := by
  refine ⟨fun ops i => kept_of_inv hlfu (after_keeps capacityBytes now ops).1 i, ?_⟩
  intro r hreach
  have hinv : r.Inv := by
    refine hreach.invariant (inv_start cfg capacityBytes now) fun r op r' h hsound hr => ?_
    cases hr
    exact h.step hlfu hsound
  refine ⟨fun i => ⟨kept_of_inv hlfu hinv.store i, fun n hn => hinv.freq hn⟩, ?_⟩
  intro op hsound i
  refine ⟨fun n hn n' hn' hkey => ?_, ?_⟩
  · have hafter := (hinv.step hlfu hsound).freq hn'
    rw [hinv.freq hn, hafter, hkey]
    exact le_tallyOf hinv.store r.tally op hn
  · rw [evictedByChecked_eq hlfu hinv.store op i]
    exact if_pos (hsound.2 i)

theorem lfu_bookkeeping_evicts :
    ∃ r : TalliedStore (oneShardStore .lfu),
      Reaches step Sound (start (oneShardStore .lfu) 280 0) r ∧
      (((r.store.shards ⟨0, Nat.one_pos⟩).list.map fun n => (n.key, n.freq)) =
        [([3], 1), ([1], 2)]) ∧
      (∀ i, ∀ n ∈ (r.store.shards i).list, n.freq = r.tally n.key) := by
  obtain ⟨r, hreach, hp⟩ := exists_reaches_of_exec step Sound (start (oneShardStore .lfu) 280 0)
    (twoSmall ++ [.get [1] 0, .put [3] [9] none {}])
    (fun r => decide ((((r.store.shards ⟨0, Nat.one_pos⟩).list.map fun n => (n.key, n.freq)) =
      [([3], 1), ([1], 2)]))) (by decide +kernel)
  obtain ⟨-, hruns⟩ := lfu_bookkeeping (oneShardStore .lfu) rfl 280 0
  exact ⟨r, hreach, of_decide_eq_true hp, fun i => ((hruns r hreach).1 i).2⟩

def restoredToMax : List StoreOp := [.put [1] [7] none {}, .restoreFreq [1] 18446744073709551615]

/-- An entry with the largest frequency is read and has none; the only entry of a store is evicted,
and the loop goes on behind its bucket. -/
theorem wraps_and_outlives_bucket :
    ((((EvictionStore.after (oneShardStore .lfu) 280 0 restoredToMax).shards
        ⟨0, Nat.one_pos⟩).list.map fun n => n.freq) = [18446744073709551615] ∧
      (((EvictionStore.after (oneShardStore .lfu) 280 0 (restoredToMax ++ [.get [1] 0])).shards
        ⟨0, Nat.one_pos⟩).list.map fun n => n.freq) = [0]) ∧
      (EvictionStore.after (oneShardStore .lfu) 280 0 [.put [1] [7] none {}]).evictedByChecked
        ⟨0, Nat.one_pos⟩ (.setCapacity 0) = .error .staleIterator := by
  refine ⟨?_, ?_⟩
  · decide +kernel
  · rfl

end TalliedStore

end Cinder
