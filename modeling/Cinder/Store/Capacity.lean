/-
Capacity eviction over every history
(`include/cinder/store/detail/eviction_store_base.hpp`: `evictIfNeeded`, `setCapacity`;
`evictOne` of both policies).

`evictIfNeeded` reads and writes one shard; `evictDown` is that shard's part of its loop, with
the list of its victims. The loop ends when the shard fits its slice or `evictOne` finds no
victim, and `evictOne` passes over tombstones only.
-/
import Cinder.Store.Representation

namespace Cinder

open List Function

/-! ## 1. The loop of one shard -/

namespace Shard

variable {p : Policy} {sh sh' : Shard} {slice : Nat}

/-- The shard is within its slice of the capacity, or holds nothing that may be evicted. -/
def FitsIn (sh : Shard) (slice : Nat) : Prop :=
  sh.currentBytes ≤ slice ∨ ∀ n ∈ sh.list, n.entry.isTombstone = true

/-- The loop of `evictIfNeeded` on its shard: the victims in their order, and the shard left. -/
def evictDown (p : Policy) (slice : Nat) : (fuel : Nat) → Shard → List Node × Shard
  | 0, sh => ([], sh)
  | fuel + 1, sh =>
    if slice < sh.currentBytes then
      match sh.evictOne p with
      | none => ([], sh)
      | some (victim, sh) =>
        let rest := evictDown p slice fuel
          { sh with currentBytes := sh.currentBytes - p.nodeSize victim.toCell }
        (victim :: rest.1, rest.2)
    else ([], sh)

theorem evictDown_succ {n : Node} (fuel : Nat) (hover : slice < sh.currentBytes)
    (he : sh.evictOne p = some (n, sh')) :
    evictDown p slice (fuel + 1) sh =
      (n :: (evictDown p slice fuel
          { sh' with currentBytes := sh'.currentBytes - p.nodeSize n.toCell }).1,
        (evictDown p slice fuel
          { sh' with currentBytes := sh'.currentBytes - p.nodeSize n.toCell }).2) := by
  rw [evictDown, if_pos hover, he]

theorem evictDown_stop (fuel : Nat) (h : sh.currentBytes ≤ slice ∨ sh.evictOne p = none) :
    evictDown p slice (fuel + 1) sh = ([], sh) := by
  rw [evictDown]
  rcases h with h | h
  · rw [if_neg (not_lt.mpr h)]
  · rw [h, ite_self]

theorem Wf.evictOne (h : sh.Wf p) {n : Node} (he : sh.evictOne p = some (n, sh')) :
    Shard.Wf p { sh' with currentBytes := sh'.currentBytes - p.nodeSize n.toCell } ∧
      sh'.currentBytes = sh.currentBytes ∧ p.nodeSize n.toCell ≤ sh.currentBytes := by
  obtain ⟨-, -, hcells, hpol, hframe⟩ := evictOne_spec h he
  have hidx : sh'.index = sh.index.erase n.key := hframe.index
  have hbytes : sh'.currentBytes = sh.currentBytes := hframe.currentBytes
  have hbase := (h.base.perm hcells.symm).detach
  rw [← hidx, ← hbytes] at hbase
  refine ⟨wf_setBytes hbase hpol, hbytes, ?_⟩
  rw [h.base.bytes_eq, (hcells.map _).sum_eq, map_cons, sum_cons]
  exact Nat.le_add_right _ _

/-- **What one run of the loop does.** -/
structure EvictedTo (p : Policy) (slice : Nat) (sh : Shard) (victims : List Node)
    (left : Shard) : Prop where
  cells : sh.cells.Perm (victims.map Node.toCell ++ left.cells)
  live : ∀ v ∈ victims, v.entry.isTombstone = false
  needed : victims ≠ [] →
    slice + (victims.dropLast.map fun v => p.nodeSize v.toCell).sum < sh.currentBytes

theorem EvictedTo.nil (p : Policy) (slice : Nat) (sh : Shard) : EvictedTo p slice sh [] sh :=
  ⟨.refl _, forall_mem_nil _, fun h => absurd rfl h⟩

theorem EvictedTo.congr {victims : List Node} {left left' : Shard}
    (h : EvictedTo p slice sh victims left) (hcells : left'.cells = left.cells) :
    EvictedTo p slice sh victims left' := ⟨hcells ▸ h.cells, h.live, h.needed⟩

theorem EvictedTo.cons (h : sh.Wf p) {n : Node} (hover : slice < sh.currentBytes)
    (he : sh.evictOne p = some (n, sh')) {victims : List Node} {left : Shard}
    (hrest : EvictedTo p slice
      { sh' with currentBytes := sh'.currentBytes - p.nodeSize n.toCell } victims left) :
    EvictedTo p slice sh (n :: victims) left := by
  obtain ⟨-, hlive, hcells, -, -⟩ := evictOne_spec h he
  obtain ⟨-, hbytes, hle⟩ := h.evictOne he
  refine ⟨hcells.trans (hrest.cells.cons _), forall_mem_cons.mpr ⟨hlive, hrest.live⟩, ?_⟩
  intro _
  cases victims with
  | nil => simpa using hover
  | cons v victims =>
    have hneeded := hrest.needed (cons_ne_nil v victims)
    dsimp only at hneeded
    rw [dropLast_cons_cons, map_cons, sum_cons]
    omega

theorem evictDown_rounds {P : Shard → List Node × Shard → Prop}
    (hstop : ∀ sh, sh.Wf p → P sh ([], sh))
    (hround : ∀ sh n sh' r, sh.Wf p → slice < sh.currentBytes → sh.evictOne p = some (n, sh') →
      P { sh' with currentBytes := sh'.currentBytes - p.nodeSize n.toCell } r →
      P sh (n :: r.1, r.2)) (fuel : Nat) (h : sh.Wf p) : P sh (evictDown p slice fuel sh) := by
  induction fuel generalizing sh with
  | zero => exact hstop sh h
  | succ fuel ih =>
    by_cases hover : slice < sh.currentBytes
    · cases he : sh.evictOne p with
      | none =>
        rw [evictDown_stop fuel (.inr he)]
        exact hstop sh h
      | some r =>
        obtain ⟨n, sh'⟩ := r
        rw [evictDown_succ fuel hover he]
        exact hround sh n sh' _ h hover he (ih (h.evictOne he).1)
    · rw [evictDown_stop fuel (.inl (not_lt.mp hover))]
      exact hstop sh h

theorem evictDown_spec (slice fuel : Nat) (h : sh.Wf p) :
    EvictedTo p slice sh (evictDown p slice fuel sh).1 (evictDown p slice fuel sh).2 ∧
      (evictDown p slice fuel sh).2.Wf p ∧
      (sh.list.length ≤ fuel → (evictDown p slice fuel sh).2.FitsIn slice) := by
  induction fuel generalizing sh with
  | zero =>
    refine ⟨.nil p slice sh, h, fun hlen => .inr ?_⟩
    show ∀ n ∈ sh.list, _
    rw [eq_nil_of_length_eq_zero (Nat.le_zero.mp hlen)]
    exact forall_mem_nil _
  | succ fuel ih =>
    by_cases hover : slice < sh.currentBytes
    · cases he : sh.evictOne p with
      | none =>
        rw [evictDown_stop fuel (.inr he)]
        exact ⟨.nil p slice sh, h, fun _ => .inr (evictOne_eq_none h he)⟩
      | some r =>
        obtain ⟨n, sh'⟩ := r
        obtain ⟨hrest, hwf, hfits⟩ := ih (h.evictOne he).1
        rw [evictDown_succ fuel hover he]
        refine ⟨.cons h hover he hrest, hwf, fun hlen => hfits ?_⟩
        obtain ⟨-, -, hcells, -, -⟩ := evictOne_spec h he
        have hlength := hcells.length_eq
        simp only [cells, length_map, length_cons] at hlength
        show sh'.list.length ≤ fuel
        omega
    · have hstop := not_lt.mp hover
      rw [evictDown_stop fuel (.inl hstop)]
      exact ⟨.nil p slice sh, h, fun _ => .inl hstop⟩

theorem FitsIn.mono (hf : sh.FitsIn slice) (hbytes : sh'.currentBytes ≤ sh.currentBytes)
    (hsub : ∀ c ∈ sh'.cells, c ∈ sh.cells) : sh'.FitsIn slice := by
  refine hf.imp hbytes.trans fun htomb n hn => ?_
  obtain ⟨m, hm, hcell⟩ := mem_cells.mp (hsub n.toCell (mem_map_of_mem hn))
  rw [← congrArg Cell.entry hcell]
  exact htomb m hm

end Shard

/-! ## 2. The loop of the store -/

namespace EvictionStore

variable {cfg : StoreConfig} {s s' : EvictionStore cfg} {i j : Fin cfg.numShards}

theorem evictLoop_shards (i : Fin cfg.numShards) (fuel : Nat) (s : EvictionStore cfg) :
    (evictLoop i fuel s).shards = Function.update s.shards i
      ((s.shards i).evictDown cfg.policy s.shardCapacity fuel).2 := by
  induction fuel generalizing s with
  | zero => exact (update_eq_self i s.shards).symm
  | succ fuel ih =>
    rcases evictLoop_cases s i with hstop | ⟨n, sh, hover, he⟩
    · rw [evictLoop_stop fuel hstop, Shard.evictDown_stop fuel hstop]
      exact (update_eq_self i s.shards).symm
    · have hself : (s.erased i n sh).shards i =
          { sh with currentBytes := sh.currentBytes - cfg.policy.nodeSize n.toCell } :=
        update_self ..
      rw [evictLoop_succ fuel hover he, Shard.evictDown_succ fuel hover he, ih, hself]
      exact update_idem ..

def victims (s : EvictionStore cfg) (i : Fin cfg.numShards) : List Node :=
  ((s.shards i).evictDown cfg.policy s.shardCapacity (s.shards i).list.length).1

theorem evictIfNeeded_spec (hs : s.Inv) (i : Fin cfg.numShards) :
    (s.shards i).EvictedTo cfg.policy s.shardCapacity (s.victims i)
        ((s.evictIfNeeded i).shards i) ∧
      ((s.evictIfNeeded i).shards i).FitsIn s.shardCapacity := by
  obtain ⟨hrun, -, hfits⟩ := Shard.evictDown_spec s.shardCapacity (s.shards i).list.length
    (hs.shard i)
  rw [evictIfNeeded, evictLoop_shards i _ s, update_self]
  exact ⟨hrun, hfits le_rfl⟩

theorem evictIfNeeded_shards_ne (h : j ≠ i) (s : EvictionStore cfg) :
    (s.evictIfNeeded i).shards j = s.shards j := (evictLoop_frame i _ s).1 j h

@[simp] theorem evictIfNeeded_capacityBytes (s : EvictionStore cfg) (i : Fin cfg.numShards) :
    (s.evictIfNeeded i).capacityBytes = s.capacityBytes :=
  congrArg Prod.fst (evictLoop_frame i _ s).2

theorem evictIfNeeded_shards_congr {t : EvictionStore cfg} (hshard : t.shards i = s.shards i)
    (hcap : t.capacityBytes = s.capacityBytes) :
    (t.evictIfNeeded i).shards i = (s.evictIfNeeded i).shards i := by
  have hslice : t.shardCapacity = s.shardCapacity := congrArg (· / cfg.numShards) hcap
  rw [evictIfNeeded, evictIfNeeded, evictLoop_shards i _ t, evictLoop_shards i _ s,
    update_self, update_self, hshard, hslice]

theorem foldl_evictIfNeeded (l : List (Fin cfg.numShards)) (hl : l.Nodup) (s : EvictionStore cfg) :
    (l.foldl evictIfNeeded s).capacityBytes = s.capacityBytes ∧
      (∀ i ∉ l, (l.foldl evictIfNeeded s).shards i = s.shards i) ∧
      ∀ i ∈ l, (l.foldl evictIfNeeded s).shards i = (s.evictIfNeeded i).shards i := by
  induction l generalizing s with
  | nil => exact ⟨rfl, fun i _ => rfl, forall_mem_nil _⟩
  | cons j l ih =>
    obtain ⟨hj, hl⟩ := nodup_cons.mp hl
    obtain ⟨hcap, hout, hin⟩ := ih hl (s.evictIfNeeded j)
    refine ⟨hcap.trans (evictIfNeeded_capacityBytes s j), fun i hi => ?_, fun i hi => ?_⟩
    · rw [mem_cons, not_or] at hi
      exact (hout i hi.2).trans (evictIfNeeded_shards_ne hi.1 s)
    · by_cases hij : i = j
      · subst hij
        exact hout i hj
      · have hi := (mem_cons.mp hi).resolve_left hij
        exact (hin i hi).trans (evictIfNeeded_shards_congr (evictIfNeeded_shards_ne hij s)
          (evictIfNeeded_capacityBytes s j))

theorem setCapacity_spec (s : EvictionStore cfg) (capacityBytes : Nat) :
    (s.setCapacity capacityBytes).capacityBytes = capacityBytes ∧
      ∀ i, (s.setCapacity capacityBytes).shards i =
        (({ s with capacityBytes := capacityBytes } : EvictionStore cfg).evictIfNeeded
          i).shards i := by
  obtain ⟨hcap, -, hin⟩ := foldl_evictIfNeeded _ (nodup_finRange cfg.numShards)
    { s with capacityBytes := capacityBytes }
  exact ⟨hcap, fun i => hin i (mem_finRange i)⟩

/-! ## 3. The capacity is set by `setCapacity` only, the version counter by writes -/

theorem putVersionedAt_capacityBytes (s : EvictionStore cfg) (key : Key) (entry : VersionedEntry)
    (now : Nanos) (clk : ClockReading) :
    (s.putVersionedAt key entry now clk).2.capacityBytes = s.capacityBytes := by
  cases hrej : s.rejects key entry with
  | true => rw [putVersionedAt_of_rejects hrej]
  | false => exact (putVersionedAt_fields hrej now clk).1

theorem apply_capacityBytes (hs : s.Inv) (op : StoreOp) :
    (s.apply op).capacityBytes = match op with
      | .setCapacity capacityBytes => capacityBytes
      | _ => s.capacityBytes := by
  have hdrifts := fun hop : op.drifts = true => congrArg Prod.fst (apply_drifts hs hop).counters_eq
  cases op with
  | put key value ttl clk => exact putVersionedAt_capacityBytes s.mintVersion.2 _ _ _ _
  | putVersioned | removeVersioned => exact putVersionedAt_capacityBytes s _ _ _ _
  | evictExpired now => exact congrArg Prod.fst (evictExpired_sweeps hs now).counters_eq
  | _ => exact hdrifts rfl

/-! ## 4. Every operation leaves the shards within their slices -/

/-- Every shard is within its slice, or holds tombstones only. -/
def Fits (s : EvictionStore cfg) : Prop := ∀ i, (s.shards i).FitsIn s.shardCapacity

theorem Move.currentBytes_le (h : Move s s') (i : Fin cfg.numShards) :
    (s'.shards i).currentBytes ≤ (s.shards i).currentBytes := by
  have hupdate : ∀ {j} sh, sh.currentBytes ≤ (s.shards j).currentBytes →
      ∀ i, (update s.shards j sh i).currentBytes ≤ (s.shards i).currentBytes :=
    fun _ => forall_update (r := fun sh sh' => sh'.currentBytes ≤ sh.currentBytes) fun _ => le_rfl
  cases h with
  | erase j n sh resident cells policy frame =>
    exact hupdate _ ((Nat.sub_le _ _).trans_eq frame.currentBytes) i
  | reorder j sh cells policy frame => exact hupdate _ frame.currentBytes.le i
  | schedule j wheel lastEvict =>
    refine hupdate _ ?_ i
    exact le_rfl
  | fields capacityBytes nextVersion tombstoneGc wal => exact le_rfl

theorem Moves.currentBytes_le (h : Moves s s') (i : Fin cfg.numShards) :
    (s'.shards i).currentBytes ≤ (s.shards i).currentBytes := by
  induction h with
  | refl => exact le_rfl
  | tail _ hstep ih => exact (hstep.currentBytes_le i).trans ih

theorem Fits.moves (h : s.Fits) (hmoves : Moves s s') (hcap : s'.capacityBytes = s.capacityBytes) :
    s'.Fits := by
  intro i
  rw [shardCapacity, hcap]
  exact (h i).mono (hmoves.currentBytes_le i) (hmoves.cells_subset i)

theorem Fits.congr {t : EvictionStore cfg} (h : s.Fits) (hsh : t.shards = s.shards)
    (hcap : t.capacityBytes = s.capacityBytes) : t.Fits := by
  intro i
  rw [hsh, shardCapacity, hcap]
  exact h i

theorem putVersionedAt_fits (hs : s.Inv) (h : s.Fits) (key : Key) (entry : VersionedEntry)
    (now : Nanos) (clk : ClockReading) : (s.putVersionedAt key entry now clk).2.Fits := by
  have hinv := (write_spec hs key entry).1
  have hslice : (s.write key entry).2.shardCapacity = s.shardCapacity :=
    congrArg (· / cfg.numShards) (write_fields s key entry).1
  have hevict : ((s.write key entry).2.evictIfNeeded (cfg.shardFor key)).Fits := by
    intro i
    rw [shardCapacity, evictIfNeeded_capacityBytes, ← shardCapacity]
    by_cases hi : i = cfg.shardFor key
    · subst hi
      exact (evictIfNeeded_spec hinv _).2
    · rw [evictIfNeeded_shards_ne hi, write_shards_ne hi, hslice]
      exact h i
  cases hrej : s.rejects key entry with
  | true => rwa [putVersionedAt_of_rejects hrej]
  | false =>
    obtain ⟨feed, wheel, wal, heq⟩ := putVersionedAt_accepted hrej now clk
    rw [heq]
    exact Fits.congr (hevict.moves (.single (.schedule _ _ wheel _)) rfl) rfl rfl

theorem apply_fits (hs : s.Inv) (h : s.Fits) (op : StoreOp) : (s.apply op).Fits := by
  have hcap := apply_capacityBytes hs op
  cases op with
  | put key value ttl clk => exact putVersionedAt_fits hs.mint (h.congr rfl rfl) _ _ _ _
  | putVersioned | removeVersioned => exact putVersionedAt_fits hs h _ _ _ _
  | setCapacity capacityBytes =>
    have hresized : Inv { s with capacityBytes := capacityBytes } := hs.of_shards rfl le_rfl
    intro i
    show ((s.setCapacity capacityBytes).shards i).FitsIn _
    rw [shardCapacity, hcap, (setCapacity_spec s capacityBytes).2 i]
    exact (evictIfNeeded_spec hresized i).2
  | _ => exact h.moves (apply_moves hs rfl) hcap

/-! ## 5. Victims -/

variable (s)

/-- The store behind the write, where capacity eviction starts. -/
def acceptWrite (key : Key) (entry : VersionedEntry) : EvictionStore cfg :=
  if s.rejects key entry then s else (s.write key entry).2

/-- The store an operation has made when its capacity eviction starts; most have none. -/
def beforeEviction : StoreOp → EvictionStore cfg
  | .put key value ttl clk =>
    s.mintVersion.2.acceptWrite key (putEntry s.nextVersion value ttl clk.now)
  | .putVersioned key entry _ => s.acceptWrite key entry
  | .removeVersioned key version writer clk =>
    s.acceptWrite key (tombstone version writer (clk.now + s.tombstoneGc))
  | .setCapacity capacityBytes => { s with capacityBytes := capacityBytes }
  | op => s.apply op

def writeVictims (key : Key) (entry : VersionedEntry) (i : Fin cfg.numShards) : List Node :=
  if s.rejects key entry = false ∧ i = cfg.shardFor key then (s.write key entry).2.victims i else []

/-- **The victims of an operation in a shard**, in the order in which they leave. -/
def evictedBy (i : Fin cfg.numShards) : StoreOp → List Node
  | .put key value ttl clk =>
    s.mintVersion.2.writeVictims key (putEntry s.nextVersion value ttl clk.now) i
  | .putVersioned key entry _ => s.writeVictims key entry i
  | .removeVersioned key version writer clk =>
    s.writeVictims key (tombstone version writer (clk.now + s.tombstoneGc)) i
  | .setCapacity capacityBytes =>
    ({ s with capacityBytes := capacityBytes } : EvictionStore cfg).victims i
  | _ => []

def evictsAt (i : Fin cfg.numShards) : StoreOp → Bool
  | .put key value ttl clk =>
    !s.mintVersion.2.rejects key (putEntry s.nextVersion value ttl clk.now) && i = cfg.shardFor key
  | .putVersioned key entry _ => !s.rejects key entry && i = cfg.shardFor key
  | .removeVersioned key version writer clk =>
    !s.rejects key (tombstone version writer (clk.now + s.tombstoneGc)) && i = cfg.shardFor key
  | .setCapacity _ => true
  | _ => false

variable {s}

theorem acceptWrite_inv (hs : s.Inv) (key : Key) (entry : VersionedEntry) :
    (s.acceptWrite key entry).Inv := by
  unfold acceptWrite
  split
  · exact hs
  · exact (write_spec hs key entry).1

theorem beforeEviction_inv (hs : s.Inv) (op : StoreOp) : (s.beforeEviction op).Inv := by
  have happly := apply_inv hs op
  cases op with
  | put key value ttl clk => exact acceptWrite_inv hs.mint _ _
  | putVersioned | removeVersioned => exact acceptWrite_inv hs _ _
  | setCapacity capacityBytes => exact hs.of_shards rfl le_rfl
  | _ => exact happly

theorem evictedBy_eq (s : EvictionStore cfg) (op : StoreOp) (i : Fin cfg.numShards) :
    s.evictedBy i op = if s.evictsAt i op then (s.beforeEviction op).victims i else [] := by
  have hwrite : ∀ (t : EvictionStore cfg) key entry, t.writeVictims key entry i =
      if (!t.rejects key entry && i = cfg.shardFor key : Bool) then
        (t.acceptWrite key entry).victims i else [] := by
    intro t key entry
    unfold writeVictims acceptWrite
    cases hrej : t.rejects key entry with
    | true => rfl
    | false => simp
  cases op with
  | put key value ttl clk => exact hwrite s.mintVersion.2 _ _
  | putVersioned | removeVersioned => exact hwrite s _ _
  | _ => rfl

theorem putVersionedAt_evicts (hs : s.Inv) (key : Key) (entry : VersionedEntry) (now : Nanos)
    (clk : ClockReading) (i : Fin cfg.numShards) :
    ((s.acceptWrite key entry).shards i).EvictedTo cfg.policy s.shardCapacity
      (s.writeVictims key entry i) ((s.putVersionedAt key entry now clk).2.shards i) := by
  unfold acceptWrite writeVictims
  cases hrej : s.rejects key entry with
  | true =>
    rw [putVersionedAt_of_rejects hrej]
    exact .nil ..
  | false =>
    have hslice : (s.write key entry).2.shardCapacity = s.shardCapacity :=
      congrArg (· / cfg.numShards) (write_fields s key entry).1
    refine Shard.EvictedTo.congr ?_ (putVersionedAt_shard (fun _ _ => rfl) hrej now clk i)
    rw [if_neg Bool.false_ne_true]
    by_cases hi : i = cfg.shardFor key
    · subst hi
      rw [if_pos ⟨rfl, rfl⟩, ← hslice]
      exact (evictIfNeeded_spec (write_spec hs key entry).1 _).1
    · rw [if_neg fun h : _ ∧ _ => hi h.2, evictIfNeeded_shards_ne hi]
      exact .nil ..

theorem apply_evicts (hs : s.Inv) (op : StoreOp) (i : Fin cfg.numShards) :
    ((s.beforeEviction op).shards i).EvictedTo cfg.policy (s.apply op).shardCapacity
      (s.evictedBy i op) ((s.apply op).shards i) := by
  have hcap := congrArg (· / cfg.numShards) (apply_capacityBytes hs op)
  cases op with
  | put key value ttl clk =>
    rw [shardCapacity, hcap]
    exact putVersionedAt_evicts hs.mint _ _ _ _ i
  | putVersioned | removeVersioned =>
    rw [shardCapacity, hcap]
    exact putVersionedAt_evicts hs _ _ _ _ i
  | setCapacity capacityBytes =>
    have hresized : Inv { s with capacityBytes := capacityBytes } := hs.of_shards rfl le_rfl
    rw [shardCapacity, hcap, apply, (setCapacity_spec s capacityBytes).2 i]
    exact (evictIfNeeded_spec hresized i).1
  | _ => exact .nil ..

theorem after_fits (cfg : StoreConfig) (capacityBytes : Nat) (now : Nanos) (ops : List StoreOp) :
    (after cfg capacityBytes now ops).Fits := by
  induction ops using reverseRecOn with
  | nil => exact fun i => .inl (Nat.zero_le _)
  | append_singleton ops op ih =>
    have hs : (after cfg capacityBytes now ops).Inv := (after_keeps capacityBytes now ops).1
    unfold after at hs ih ⊢
    rw [foldl_append, foldl_cons, foldl_nil]
    exact apply_fits hs ih op

/-! ## 6. Writes larger than a slice -/

variable (s)

/-- The node of the entry is larger than the slice of a shard. -/
def Oversized (key : Key) (entry : VersionedEntry) : Prop :=
  s.shardCapacity < cfg.policy.nodeSize ⟨s.nextAddr, key, entry⟩

/-- The key is resident, with an entry that is newer than the one written. -/
def LosesLww (key : Key) (entry : VersionedEntry) : Prop :=
  ∃ n, (s.shards (cfg.shardFor key)).find key = some n ∧
    compareLww (stampOf entry) (stampOf n.entry) = .less

/-- **An oversized write is turned away**: nothing changes, and the caller hears of it unless the
write had lost anyway. -/
def TurnedAway (key : Key) (entry : VersionedEntry) (clk : ClockReading) :
    Prop :=
  (s.putVersioned key entry clk).2 = s ∧
    ((s.putVersioned key entry clk).1 = .error .capacityExceeded ∨ s.LosesLww key entry)

variable {s}

variable {key : Key} {entry : VersionedEntry}

variable (clk : ClockReading)

theorem putVersioned_absent (hbig : s.Oversized key entry)
    (habsent : (s.shards (cfg.shardFor key)).find key = none) :
    s.putVersioned key entry clk = (.error .capacityExceeded, s) := by
  unfold putVersioned putVersionedAt
  dsimp only
  rw [habsent]
  exact if_pos hbig

theorem putVersioned_lost (hlost : s.LosesLww key entry) :
    s.putVersioned key entry clk = (.ok (), s) := by
  obtain ⟨n, hf, hless⟩ := hlost
  unfold putVersioned putVersionedAt
  dsimp only
  rw [hf]
  exact if_pos hless

theorem putVersioned_resident (hwins : ¬ s.LosesLww key entry) {n : Node}
    (hf : (s.shards (cfg.shardFor key)).find key = some n) :
    (s.putVersioned key entry clk).1 = .ok () ∧ s.rejects key entry = false := by
  have hstale : ¬ compareLww (stampOf entry) (stampOf n.entry) = .less :=
    fun hless => hwins ⟨n, hf, hless⟩
  refine ⟨?_, ?_⟩
  · unfold putVersioned putVersionedAt
    dsimp only
    rw [hf]
    dsimp only
    rw [if_neg hstale]
    split <;> rfl
  · unfold rejects
    rw [hf]
    exact decide_eq_false hstale

theorem find_oversized (hs : s.Inv) (h : s.Fits) (hbig : s.Oversized key entry)
    (hlive : entry.isTombstone = false) (haccept : s.rejects key entry = false)
    (clk : ClockReading) :
    ((s.putVersioned key entry clk).2.shards (cfg.shardFor key)).find key = none := by
  have hinv : (s.putVersioned key entry clk).2.Inv := putVersionedAt_inv hs _ _ _ _
  have hwf := hinv.shard (cfg.shardFor key)
  rw [hwf.find_eq_none]
  intro n hn hk
  have hentry : n.entry = entry := by
    have hwrite := (write_spec hs key entry).1
    have hcells : n.toCell ∈ (((s.write key entry).2.evictIfNeeded (cfg.shardFor key)).shards
        (cfg.shardFor key)).cells := by
      rw [← putVersionedAt_shard (f := Shard.cells) (fun _ _ => rfl) haccept]
      exact mem_map_of_mem hn
    have hmoves := evictIfNeeded_moves hwrite (cfg.shardFor key)
    obtain ⟨m, hm, hmn⟩ := Shard.mem_cells.mp hcells
    have hmk : m.key = key := (congrArg Cell.key hmn).trans hk
    rw [← find_after_write hs hmoves (((hmoves.inv hwrite).shard _).find_eq.mpr ⟨hm, hmk⟩)]
    exact (congrArg Cell.entry hmn).symm
  -- within its slice the shard has no room for it, and it is no tombstone
  rcases putVersionedAt_fits hs h key entry (if entry.hasTtl then clk.now else 0) clk
    (cfg.shardFor key) with hfits | htombs
  · have hmem := perm_cons_erase (mem_map_of_mem (f := Node.toCell) hn)
    have hsize := nodeSize_le hinv (i := cfg.shardFor key) hmem
    have hcap : (s.putVersioned key entry clk).2.shardCapacity = s.shardCapacity :=
      congrArg (· / cfg.numShards) (putVersionedAt_capacityBytes s _ _ _ _)
    have hnode : cfg.policy.nodeSize n.toCell = cfg.policy.nodeSize ⟨s.nextAddr, key, entry⟩ := by
      simp only [Policy.nodeSize, hk, hentry]
    have hbig : s.shardCapacity < cfg.policy.nodeSize ⟨s.nextAddr, key, entry⟩ := hbig
    have hfits : ((s.putVersioned key entry clk).2.shards (cfg.shardFor key)).currentBytes ≤
      (s.putVersioned key entry clk).2.shardCapacity := hfits
    omega
  · have htomb := htombs n hn
    rw [hentry, hlive] at htomb
    cases htomb

/-- **Which oversized writes are turned away**: those of a key that is not resident and those that
lose. Any other reports success; a live entry written so is gone at once, and with it the one
it replaced. -/
theorem oversized_turnedAway_iff (cfg : StoreConfig) (capacityBytes : Nat) (now : Nanos)
    (ops : List StoreOp) (key : Key) (entry : VersionedEntry) (clk : ClockReading)
    (hbig : (after cfg capacityBytes now ops).Oversized key entry) :
    ((after cfg capacityBytes now ops).TurnedAway key entry clk ↔
      ((after cfg capacityBytes now ops).shards (cfg.shardFor key)).find key = none ∨
        (after cfg capacityBytes now ops).LosesLww key entry) ∧
    (¬ (after cfg capacityBytes now ops).TurnedAway key entry clk →
      ((after cfg capacityBytes now ops).putVersioned key entry clk).1 = .ok () ∧
        (entry.isTombstone = false →
          (((after cfg capacityBytes now ops).putVersioned key entry clk).2.shards
            (cfg.shardFor key)).find key = none)) := by
  have hs : (after cfg capacityBytes now ops).Inv := (after_keeps capacityBytes now ops).1
  have hfits := after_fits cfg capacityBytes now ops
  generalize after cfg capacityBytes now ops = s at hbig hs hfits ⊢
  have hiff : s.TurnedAway key entry clk ↔
      (s.shards (cfg.shardFor key)).find key = none ∨ s.LosesLww key entry := by
    constructor
    · intro haway
      rcases haway.2 with herr | hlost
      · by_contra hnot
        obtain ⟨hres, hwins⟩ := not_or.mp hnot
        obtain ⟨n, hf⟩ := Option.ne_none_iff_exists'.mp hres
        rw [(putVersioned_resident clk hwins hf).1] at herr
        cases herr
      · exact .inr hlost
    · intro hcond
      rcases hcond with habsent | hlost
      · rw [TurnedAway, putVersioned_absent clk hbig habsent]
        exact ⟨rfl, .inl rfl⟩
      · rw [TurnedAway, putVersioned_lost clk hlost]
        exact ⟨rfl, .inr hlost⟩
  refine ⟨hiff, fun hnot => ?_⟩
  obtain ⟨hres, hwins⟩ := not_or.mp (hiff.not.mp hnot)
  obtain ⟨n, hf⟩ := Option.ne_none_iff_exists'.mp hres
  obtain ⟨hok, haccept⟩ := putVersioned_resident clk hwins hf
  exact ⟨hok, fun hlive => find_oversized hs hfits hbig hlive haccept clk⟩

end EvictionStore

def twoSmall : List StoreOp := [.put [1] [7] none {}, .put [2] [8] none {}]

def bulky : VersionedEntry := VersionedEntry.setVersion { value := List.replicate 300 0 } 99

variable (policy : Policy)

theorem oversized_bulky (key : Key) (ops : List StoreOp)
    (h : (EvictionStore.after (oneShardStore policy) 400 5 ops).capacityBytes = 400) :
    (EvictionStore.after (oneShardStore policy) 400 5 ops).Oversized key bulky := by
  have hvalue : bulky.value.length = 300 := by decide +kernel
  have hnode : 120 ≤ policy.nodeBytes := by cases policy <;> decide
  unfold EvictionStore.Oversized EvictionStore.shardCapacity Policy.nodeSize
  rw [h]
  show 400 / 1 < key.length + bulky.value.length + policy.nodeBytes
  omega

theorem oversized_turnedAway_absent :
    (EvictionStore.after (oneShardStore .lfu) 400 5 twoSmall).Oversized [3] bulky ∧
      (EvictionStore.after (oneShardStore .lfu) 400 5 twoSmall).TurnedAway [3] bulky {} := by
  have hbig := oversized_bulky .lfu [3] twoSmall (by decide +kernel)
  refine ⟨hbig, (EvictionStore.oversized_turnedAway_iff (oneShardStore .lfu) 400 5 twoSmall [3]
    bulky {} hbig).1.mpr (.inl ?_)⟩
  decide +kernel

theorem overwrite_bulky :
    (EvictionStore.after (oneShardStore policy) 400 5 twoSmall).totalEntries = 2 ∧
      ((EvictionStore.after (oneShardStore policy) 400 5 twoSmall).putVersioned [1] bulky
        {}).2.totalEntries = 0 ∧
      ((EvictionStore.after (oneShardStore policy) 400 5 twoSmall).putVersioned [1] bulky
        {}).2.wal.length = 2 := by
  cases policy with
  | _ => decide +kernel

theorem not_turnedAway_bulky :
    ¬ (EvictionStore.after (oneShardStore policy) 400 5 twoSmall).TurnedAway [1] bulky {} := by
  intro haway
  obtain ⟨hbefore, hafter, -⟩ := overwrite_bulky policy
  rw [haway.1, hbefore] at hafter
  cases hafter

/-- **An oversized overwrite is accepted**, under either policy, and both entries are lost. -/
theorem oversized_overwrite_accepted :
    ((EvictionStore.after (oneShardStore .lru) 400 5 twoSmall).Oversized [1] bulky ∧
      ¬ (EvictionStore.after (oneShardStore .lru) 400 5 twoSmall).TurnedAway [1] bulky {} ∧
      ((EvictionStore.after (oneShardStore .lru) 400 5 twoSmall).putVersioned [1] bulky
        {}).2.totalEntries = 0) ∧
    (EvictionStore.after (oneShardStore .lfu) 400 5 twoSmall).Oversized [1] bulky ∧
      ¬ (EvictionStore.after (oneShardStore .lfu) 400 5 twoSmall).TurnedAway [1] bulky {} ∧
      ((EvictionStore.after (oneShardStore .lfu) 400 5 twoSmall).putVersioned [1] bulky
        {}).2.totalEntries = 0 :=
  ⟨⟨oversized_bulky .lru [1] twoSmall (by decide +kernel), not_turnedAway_bulky .lru,
      (overwrite_bulky .lru).2.1⟩,
    oversized_bulky .lfu [1] twoSmall (by decide +kernel), not_turnedAway_bulky .lfu,
    (overwrite_bulky .lfu).2.1⟩

end Cinder
