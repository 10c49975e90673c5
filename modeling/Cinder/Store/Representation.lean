/-
The representation of the eviction store in every history: nodes, index and byte
counters (`Moves.lean`), the counters of the whole store, and the wheels.

A move may set a wheel to anything, so the wheels are followed along the operations themselves.
Two things happen on the way that the final statement does not show: a tick has unlinked nodes
it has not yet handled (`Timed` with what is pending), and a written node is scheduled only
after capacity eviction (`TimedBut` that node).
-/
import Cinder.Store.Moves
import Mathlib.Algebra.BigOperators.Fin
import Mathlib.Algebra.Order.BigOperators.Group.Finset

namespace Cinder

open List Function TtlWheel

/-! ## 1. Scheduled nodes of a shard -/

namespace Shard

variable {sh sh' : Shard} {n : Node} {a : Addr} {pending : List Addr}

/-- The resident nodes with a TTL are scheduled once each, or `pending`: unlinked from the wheel
and about to be handled. -/
structure Timed (sh : Shard) (pending : List Addr) : Prop where
  nodup : (pending ++ sh.wheel.scheduled).Nodup
  mem : ∀ b, b ∈ pending ++ sh.wheel.scheduled ↔ ∃ c ∈ sh.cells, c.addr = b ∧ c.entry.hasTtl = true

/-- The same up to one node, which may be scheduled or not. -/
structure TimedBut (sh : Shard) (a : Addr) : Prop where
  nodup : sh.wheel.scheduled.Nodup
  resident : ∀ b ∈ sh.wheel.scheduled, ∃ c ∈ sh.cells, c.addr = b
  others : ∀ b ≠ a, b ∈ sh.wheel.scheduled ↔ ∃ c ∈ sh.cells, c.addr = b ∧ c.entry.hasTtl = true

theorem Timed.but (h : sh.Timed []) (a : Addr) : sh.TimedBut a where
  nodup := h.nodup
  resident b hb := by
    obtain ⟨c, hc, hca, -⟩ := (h.mem b).mp hb
    exact ⟨c, hc, hca⟩
  others b _ := h.mem b

theorem TimedBut.timed (h : sh.TimedBut a) (ha : ∀ c ∈ sh.cells, c.addr ≠ a) : sh.Timed [] where
  nodup := h.nodup
  mem b := by
    by_cases hb : b = a
    · subst hb
      constructor
      · intro hin
        obtain ⟨c, hc, hca⟩ := h.resident b hin
        exact absurd hca (ha c hc)
      · rintro ⟨c, hc, hca, -⟩
        exact absurd hca (ha c hc)
    · exact h.others b hb

theorem Timed.congr (h : sh.Timed pending) (hcells : sh'.cells.Perm sh.cells)
    (hwheel : sh'.wheel = sh.wheel) : sh'.Timed pending where
  nodup := hwheel ▸ h.nodup
  mem b := by
    rw [hwheel, h.mem]
    simp only [hcells.mem_iff]

theorem TimedBut.congr (h : sh.TimedBut a) (hcells : sh'.cells.Perm sh.cells)
    (hwheel : sh'.wheel = sh.wheel) : sh'.TimedBut a where
  nodup := hwheel ▸ h.nodup
  resident b hb := by
    obtain ⟨c, hc, hcb⟩ := h.resident b (hwheel ▸ hb)
    exact ⟨c, hcells.mem_iff.mpr hc, hcb⟩
  others b hb := by
    rw [hwheel, h.others b hb]
    simp only [hcells.mem_iff]

theorem exists_cell_of_perm (haddr : sh.Addressed) (hcells : sh.cells.Perm (n.toCell :: sh'.cells))
    (b : Addr) {q : Cell → Prop} :
    (∃ c ∈ sh'.cells, c.addr = b ∧ q c) ↔ (∃ c ∈ sh.cells, c.addr = b ∧ q c) ∧ b ≠ n.addr := by
  have hnodup : (sh.cells.map Cell.addr).Nodup := by
    rw [cells, map_map]
    exact haddr
  rw [(hcells.map Cell.addr).nodup_iff, map_cons, nodup_cons] at hnodup
  constructor
  · rintro ⟨c, hc, rfl, hq⟩
    refine ⟨⟨c, hcells.mem_iff.mpr (mem_cons_of_mem _ hc), rfl, hq⟩, fun heq => ?_⟩
    exact hnodup.1 (heq ▸ mem_map_of_mem hc)
  · rintro ⟨⟨c, hc, rfl, hq⟩, hne⟩
    rcases mem_cons.mp (hcells.mem_iff.mp hc) with rfl | hc
    · exact absurd rfl hne
    · exact ⟨c, hc, rfl, hq⟩

theorem Timed.erase (h : sh.Timed pending) (haddr : sh.Addressed)
    (hcells : sh.cells.Perm (n.toCell :: sh'.cells)) (hwheel : sh'.wheel = sh.wheel.remove n.addr) :
    sh'.Timed (pending.filter fun b => b ≠ n.addr) := by
  have hw : sh.wheel.scheduled.Nodup := (nodup_append'.mp h.nodup).2.1
  have hperm : (pending.filter (fun b => b ≠ n.addr) ++ sh'.wheel.scheduled).Perm
      ((pending ++ sh.wheel.scheduled).filter fun b => b ≠ n.addr) := by
    rw [hwheel, filter_append]
    exact (scheduled_remove hw n.addr).append_left _
  refine ⟨hperm.nodup_iff.mpr (h.nodup.filter _), fun b => ?_⟩
  rw [hperm.mem_iff, mem_filter, decide_eq_true_eq, h.mem, exists_cell_of_perm haddr hcells]

theorem TimedBut.erase (h : sh.TimedBut a) (haddr : sh.Addressed)
    (hcells : sh.cells.Perm (n.toCell :: sh'.cells)) (hwheel : sh'.wheel = sh.wheel.remove n.addr) :
    sh'.TimedBut a where
  nodup := hwheel ▸ nodup_remove h.nodup n.addr
  resident b hb := by
    rw [hwheel, mem_remove h.nodup] at hb
    obtain ⟨c, hc, hcb⟩ := h.resident b hb.1
    obtain ⟨c', hc', hcb', -⟩ := (exists_cell_of_perm (q := fun _ => True) haddr hcells b).mpr
      ⟨⟨c, hc, hcb, trivial⟩, hb.2⟩
    exact ⟨c', hc', hcb'⟩
  others b hb := by
    rw [hwheel, mem_remove h.nodup, h.others b hb, exists_cell_of_perm haddr hcells]

theorem Timed.insert (h : sh.Timed (a :: pending)) (ticks : Nat) :
    Shard.Timed { sh with wheel := sh.wheel.insert a ticks } pending := by
  have hw : sh.wheel.scheduled.Nodup := (nodup_append'.mp h.nodup).2.1
  obtain ⟨ha, hrest⟩ := nodup_cons.mp h.nodup
  have hout : a ∉ sh.wheel.scheduled := fun hin => ha (mem_append_right _ hin)
  have hsame : (sh.wheel.remove a).scheduled.Perm sh.wheel.scheduled := by
    refine (scheduled_remove hw a).trans (List.Perm.of_eq ?_)
    exact filter_eq_self.mpr fun b hb => by simpa using fun hba : b = a => hout (hba ▸ hb)
  have hperm : (pending ++ (sh.wheel.insert a ticks).scheduled).Perm
      (a :: pending ++ sh.wheel.scheduled) :=
    (((scheduled_insert _ _ _).trans (hsame.cons a)).append_left _).trans perm_middle
  refine ⟨hperm.nodup_iff.mpr h.nodup, fun b => ?_⟩
  rw [hperm.mem_iff, h.mem]
  rfl

theorem Timed.setWheel {pending' : List Addr} (h : sh.Timed pending) {wheel : TtlWheel Addr}
    (hperm : (pending' ++ wheel.scheduled).Perm (pending ++ sh.wheel.scheduled))
    (lastEvict : Nanos) :
    Shard.Timed { sh with wheel := wheel, lastEvict := lastEvict } pending' where
  nodup := hperm.nodup_iff.mpr h.nodup
  mem b := by
    rw [hperm.mem_iff, h.mem]
    rfl

theorem TimedBut.update (h : sh.TimedBut n.addr) (haddr : sh.Addressed) (hn : n ∈ sh.list)
    (ticks : Nat) : Shard.Timed { sh with
      wheel := if n.entry.hasTtl then sh.wheel.insert n.addr ticks
        else sh.wheel.remove n.addr } [] := by
  have hown : ∀ c ∈ sh.cells, c.addr = n.addr → c.entry.hasTtl = n.entry.hasTtl := by
    intro c hc hca
    obtain ⟨m, hm, rfl⟩ := mem_cells.mp hc
    rw [haddr.eq_of_addr hm hn hca]
  split
  · rename_i httl
    refine ⟨nodup_insert h.nodup n.addr ticks, fun b => ?_⟩
    refine (mem_insert h.nodup).trans ?_
    by_cases hb : b = n.addr
    · subst hb
      exact ⟨fun _ => ⟨n.toCell, mem_map_of_mem hn, rfl, httl⟩, fun _ => .inl rfl⟩
    · exact (or_iff_right hb).trans (h.others b hb)
  · rename_i httl
    refine ⟨nodup_remove h.nodup n.addr, fun b => ?_⟩
    refine (mem_remove h.nodup).trans ?_
    by_cases hb : b = n.addr
    · subst hb
      refine ⟨fun hin => absurd rfl hin.2, ?_⟩
      rintro ⟨c, hc, hca, hct⟩
      exact absurd ((hown c hc hca).symm.trans hct) httl
    · exact (and_iff_left hb).trans (h.others b hb)

end Shard

namespace EvictionStore

variable {cfg : StoreConfig} {s s' : EvictionStore cfg} {i : Fin cfg.numShards} {a : Addr}
  {pending : List Addr}

/-! ## 2. The counters of the store -/

/-- The global counters are the sums over the shards. -/
structure Counted (s : EvictionStore cfg) : Prop where
  bytes : s.totalBytes = ∑ i, (s.shards i).currentBytes
  entries : s.totalEntries = ∑ i, (s.shards i).cells.length

theorem sum_update (g : Shard → Nat) (shards : Fin cfg.numShards → Shard) (i : Fin cfg.numShards)
    (sh : Shard) : (∑ j, g (update shards i sh j)) + g (shards i) = (∑ j, g (shards j)) + g sh := by
  have hrest : ∑ j ∈ Finset.univ.erase i, g (update shards i sh j) =
      ∑ j ∈ Finset.univ.erase i, g (shards j) :=
    Finset.sum_congr rfl fun j hj => by rw [update_of_ne (Finset.ne_of_mem_erase hj)]
  rw [← Finset.add_sum_erase _ _ (Finset.mem_univ i), hrest, update_self,
    ← Finset.add_sum_erase Finset.univ (fun j => g (shards j)) (Finset.mem_univ i)]
  omega

variable {t : EvictionStore cfg} {sh : Shard}

theorem Counted.of_shards (h : s.Counted) (hsh : t.shards = s.shards)
    (hbytes : t.totalBytes = s.totalBytes) (hentries : t.totalEntries = s.totalEntries) :
    t.Counted := ⟨by rw [hbytes, hsh, h.bytes], by rw [hentries, hsh, h.entries]⟩

theorem Counted.update (h : s.Counted) (hsh : t.shards = update s.shards i sh)
    (hbytes : t.totalBytes + (s.shards i).currentBytes = s.totalBytes + sh.currentBytes)
    (hentries : t.totalEntries + (s.shards i).cells.length = s.totalEntries + sh.cells.length) :
    t.Counted := by
  have hb := sum_update Shard.currentBytes s.shards i sh
  have he := sum_update (fun sh => sh.cells.length) s.shards i sh
  rw [h.bytes] at hbytes
  rw [h.entries] at hentries
  refine ⟨?_, ?_⟩
  · rw [hsh]
    omega
  · rw [hsh]
    omega

theorem le_totalBytes (h : s.Counted) (i : Fin cfg.numShards) :
    (s.shards i).currentBytes ≤ s.totalBytes := by
  rw [h.bytes]
  exact Finset.single_le_sum (f := fun i => (s.shards i).currentBytes) (fun _ _ => Nat.zero_le _)
    (Finset.mem_univ i)

theorem le_totalEntries (h : s.Counted) (i : Fin cfg.numShards) :
    (s.shards i).cells.length ≤ s.totalEntries := by
  rw [h.entries]
  exact Finset.single_le_sum (f := fun i => (s.shards i).cells.length) (fun _ _ => Nat.zero_le _)
    (Finset.mem_univ i)

theorem nodeSize_le (hs : s.Inv) {c : Cell} {rest : List Cell}
    (hcells : (s.shards i).cells.Perm (c :: rest)) :
    cfg.policy.nodeSize c ≤ (s.shards i).currentBytes := by
  rw [(hs.shard i).base.bytes_eq, (hcells.map _).sum_eq, map_cons, sum_cons]
  exact Nat.le_add_right _ _

theorem Move.counted (h : Move s s') (hs : s.Inv) (hc : s.Counted) : s'.Counted := by
  cases h with
  | erase i n sh resident cells policy frame =>
    have hsize := nodeSize_le hs cells
    have hbytes : sh.currentBytes = (s.shards i).currentBytes := frame.currentBytes
    have hlength := cells.length_eq
    have htotal := le_totalBytes hc i
    have hentries := le_totalEntries hc i
    rw [length_cons] at hlength
    refine hc.update rfl ?_ ?_
    · show s.totalBytes - _ + _ = s.totalBytes + (sh.currentBytes - _)
      omega
    · show s.totalEntries - 1 + _ = s.totalEntries + sh.cells.length
      omega
  | reorder i sh cells policy frame =>
    exact hc.update rfl (congrArg (s.totalBytes + ·) frame.currentBytes.symm)
      (congrArg (s.totalEntries + ·) cells.length_eq.symm)
  | schedule i wheel lastEvict => exact hc.update rfl rfl rfl
  | fields capacityBytes nextVersion tombstoneGc wal => exact ⟨hc.bytes, hc.entries⟩

theorem Moves.counted (h : Moves s s') (hs : s.Inv) (hc : s.Counted) : s'.Counted := by
  induction h with
  | refl => exact hc
  | tail hmoves hstep ih => exact hstep.counted (Moves.inv hmoves hs) ih

theorem write_counted (hs : s.Inv) (hc : s.Counted) (key : Key) (entry : VersionedEntry) :
    (s.write key entry).2.Counted := by
  unfold write
  cases hf : (s.shards (cfg.shardFor key)).find key with
  | some n =>
    obtain ⟨hn, -⟩ := (hs.shard _).find_eq.mp hf
    obtain ⟨hcells, -, hframe⟩ := Shard.applyExisting_spec (hs.shard _) hn entry
    have hold := Shard.perm_cells_unlink (hs.shard _).addressed hn
    have hsize := nodeSize_le hs hold
    have htotal := le_totalBytes hc (cfg.shardFor key)
    have hbytes := hframe.currentBytes
    refine hc.update (overwrite_shard s _ n entry) ?_ ?_
    · simp only [overwrite, setShard, observeVersion_frame]
      omega
    · have hlength := hcells.length_eq
      have hlength' := hold.length_eq
      rw [length_cons] at hlength hlength'
      simp only [overwrite, setShard, observeVersion_frame]
      show _ = s.totalEntries + (Shard.applyExisting cfg.policy _ n.addr entry).cells.length
      omega
  | none =>
    obtain ⟨hcells, -, hframe⟩ :=
      Shard.insertNew_spec (hs.shard _) (fun _ => hs.ne_nextAddr) key entry
    have hbytes : ((s.shards (cfg.shardFor key)).insertNew cfg.policy s.nextAddr key
      entry).currentBytes = (s.shards (cfg.shardFor key)).currentBytes := hframe.currentBytes
    refine hc.update (insertFresh_shard s _ key entry) ?_ ?_
    · simp only [insertFresh, setShard, observeVersion_frame]
      omega
    · simp only [insertFresh, setShard, observeVersion_frame]
      show _ = s.totalEntries + (Shard.insertNew cfg.policy _ s.nextAddr key entry).cells.length
      rw [hcells, length_cons]
      omega

theorem putVersionedAt_counted (hs : s.Inv) (hc : s.Counted) (key : Key) (entry : VersionedEntry)
    (now : Nanos) (clk : ClockReading) : (s.putVersionedAt key entry now clk).2.Counted := by
  have hwrite := (write_spec hs key entry).1
  have hevict := evictIfNeeded_moves hwrite (cfg.shardFor key)
  cases hrej : s.rejects key entry with
  | true => rwa [putVersionedAt_of_rejects hrej]
  | false =>
    obtain ⟨feed, wheel, wal, heq⟩ := putVersionedAt_accepted hrej now clk
    rw [heq]
    exact ((Move.schedule _ _ wheel _).counted (hevict.inv hwrite)
      (hevict.counted hwrite (write_counted hs hc key entry))).of_shards rfl rfl rfl

theorem apply_counted (hs : s.Inv) (hc : s.Counted) (op : StoreOp) : (s.apply op).Counted := by
  cases op with
  | put key value ttl clk => exact putVersionedAt_counted hs.mint (hc.of_shards rfl rfl rfl) _ _ _ _
  | putVersioned | removeVersioned => exact putVersionedAt_counted hs hc _ _ _ _
  | _ => exact Moves.counted (apply_moves hs rfl) hs hc

/-! ## 3. The wheels -/

variable (s)

/-- In every shard the residents with a TTL are scheduled; in shard `i` some are pending. -/
structure TimedAt (i : Fin cfg.numShards) (pending : List Addr) : Prop where
  here : (s.shards i).Timed pending
  elsewhere : ∀ j ≠ i, (s.shards j).Timed []

/-- The same for a shard with a node in question. -/
structure TimedButAt (i : Fin cfg.numShards) (a : Addr) : Prop where
  here : (s.shards i).TimedBut a
  elsewhere : ∀ j ≠ i, (s.shards j).Timed []

def AllTimed : Prop := ∀ i, (s.shards i).Timed []

variable {s}

theorem TimedAt.all (h : s.TimedAt i []) : s.AllTimed := by
  intro j
  by_cases hj : j = i
  · exact hj ▸ h.here
  · exact h.elsewhere j hj

theorem AllTimed.of_shards (h : s.AllTimed) (hsh : t.shards = s.shards) :
    t.AllTimed := fun i => hsh ▸ h i

theorem TimedAt.update (h : ∀ j ≠ i, (s.shards j).Timed [])
    (hsh : t.shards = update s.shards i sh) (hhere : sh.Timed pending) : t.TimedAt i pending := by
  refine ⟨?_, fun j hj => ?_⟩
  · rw [hsh, update_self]
    exact hhere
  · rw [hsh, update_of_ne hj]
    exact h j hj

theorem TimedButAt.of_shards (h : s.TimedButAt i a) (hsh : t.shards = s.shards) :
    t.TimedButAt i a := ⟨hsh ▸ h.here, hsh ▸ h.elsewhere⟩

theorem eraseNode_timed (hs : s.Inv) (h : s.TimedAt i pending) {n : Node}
    (hn : n ∈ (s.shards i).list) :
    (s.eraseNode i n.key n).TimedAt i (pending.filter fun b => b ≠ n.addr) := by
  obtain ⟨hcells, -, hframe⟩ := Shard.erase_spec (hs.shard i) hn n.key
  exact .update h.elsewhere rfl ((h.here.erase (hs.shard i).addressed hcells hframe.wheel).congr
    (.refl _) rfl)

theorem Drifts.timedBut (h : Drifts s s') (hs : s.Inv) (ht : (s.shards i).TimedBut a) :
    (s'.shards i).TimedBut a := by
  induction h with
  | refl => exact ht
  | tail hbefore hstep ih =>
    cases hstep.shard i with
    | erase n resident cells wheel lastEvict =>
      exact ih.erase (((Drifts.moves hbefore).inv hs).shard i).addressed cells wheel
    | reorder cells wheel lastEvict => exact ih.congr cells wheel

theorem Drifts.timed (h : Drifts s s') (hs : s.Inv) (ht : (s.shards i).Timed []) :
    (s'.shards i).Timed [] := by
  refine (h.timedBut hs (ht.but s.nextAddr)).timed fun c hc => ?_
  exact (hs.fresh i c (h.moves.cells_subset i c hc)).ne

theorem onExpired_timed (hs : s.Inv) (h : s.TimedAt i (a :: pending)) (now : Nanos) :
    (onExpired i now s a).TimedAt i pending := by
  obtain ⟨c, hc, hca, -⟩ := (h.here.mem a).mp mem_cons_self
  obtain ⟨n, hn, rfl⟩ := Shard.mem_cells.mp hc
  subst hca
  have hfind : (s.shards i).find n.key = some n := (hs.shard i).find_eq.mpr ⟨hn, rfl⟩
  unfold onExpired
  rw [Shard.nodeAt_of_mem (hs.shard i).addressed hn]
  dsimp only
  split
  · rw [hfind]
    have hgone := eraseNode_timed hs h hn
    obtain ⟨hout, -⟩ := nodup_cons.mp h.here.nodup
    have hrest : (n.addr :: pending).filter (fun b => b ≠ n.addr) = pending := by
      rw [filter_cons_of_neg (by simp)]
      refine filter_eq_self.mpr fun b hb => ?_
      simpa using fun hba : b = n.addr => hout (mem_append_left _ (hba ▸ hb))
    rwa [hrest] at hgone
  · exact .update h.elsewhere rfl (h.here.insert _)

theorem foldl_onExpired_timed (hs : s.Inv) (h : s.TimedAt i pending) (now : Nanos) :
    (pending.foldl (onExpired i now) s).TimedAt i [] := by
  induction pending generalizing s with
  | nil => exact h
  | cons a pending ih => exact ih ((onExpired_reaps hs i now a).inv hs) (onExpired_timed hs h now)

theorem expireHeap_timed (now : Nanos) (fuel : Nat) (hs : s.Inv) (h : s.TimedAt i []) :
    (expireHeap i now fuel s).TimedAt i [] := by
  induction fuel generalizing s with
  | zero => exact h
  | succ fuel ih =>
    unfold expireHeap
    split
    · exact h
    · rename_i a wheel hpop
      have hmove : Move s (s.setShard i { s.shards i with wheel := wheel }) := .schedule s i _ _
      have hpopped : (s.setShard i { s.shards i with wheel := wheel }).TimedAt i [a] :=
        .update h.elsewhere rfl (h.here.setWheel (perm_popDue hpop) _)
      exact ih ((onExpired_reaps (hmove.inv hs) i now a).inv (hmove.inv hs))
        (onExpired_timed (hmove.inv hs) hpopped now)

section

variable (hs : s.Inv)

include hs

theorem tick_timed (h : s.TimedAt i []) (now : Nanos) : (tick i now s).TimedAt i [] := by
  have hmove : Move s (s.setShard i
      { s.shards i with wheel := (s.shards i).wheel.advance.drainSlot.2 }) := .schedule s i _ _
  have hdrained : (s.setShard i { s.shards i with
      wheel := (s.shards i).wheel.advance.drainSlot.2 }).TimedAt i
        (s.shards i).wheel.advance.drainSlot.1 :=
    .update h.elsewhere rfl (h.here.setWheel (perm_drainSlot (s.shards i).wheel.advance) _)
  have hslot : Reaps now i _ _ := foldl_steps Reap.move (fun s a hs => onExpired_reaps hs i now a)
    (s.shards i).wheel.advance.drainSlot.1 (hmove.inv hs)
  exact expireHeap_timed now _ (hslot.inv (hmove.inv hs))
    (foldl_onExpired_timed (hmove.inv hs) hdrained now)

theorem evictExpiredShard_timed (h : s.AllTimed) (now : Nanos)
    (i : Fin cfg.numShards) : (evictExpiredShard now s i).AllTimed := by
  have hmove : Move s (s.setShard i { s.shards i with lastEvict := now }) := .schedule s i _ _
  have hstart : (s.setShard i { s.shards i with lastEvict := now }).TimedAt i [] :=
    .update (fun j _ => h j) rfl ((h i).setWheel (.refl _) now)
  have hticks : ∀ k, (Nat.iterate (tick i now) k
        (s.setShard i { s.shards i with lastEvict := now })).Inv ∧
      (Nat.iterate (tick i now) k
        (s.setShard i { s.shards i with lastEvict := now })).TimedAt i [] := by
    intro k
    induction k with
    | zero => exact ⟨hmove.inv hs, hstart⟩
    | succ k ih =>
      rw [iterate_succ_apply']
      exact ⟨(tick_reaps ih.1 i now).inv ih.1, tick_timed ih.1 ih.2 now⟩
  exact (hticks _).2.all

theorem evictExpired_timed (h : s.AllTimed) (now : Nanos) : (s.evictExpired now).2.AllTimed := by
  have hfold : ∀ (l : List (Fin cfg.numShards)) (s : EvictionStore cfg), s.Inv → s.AllTimed →
      (l.foldl (evictExpiredShard now) s).AllTimed := by
    intro l
    induction l with
    | nil => exact fun s _ h => h
    | cons i l ih =>
      exact fun s hs h => ih _ ((evictExpiredShard_reaps now s i hs).inv hs)
        (evictExpiredShard_timed hs h now i)
  exact hfold _ _ hs h

theorem write_timed (h : s.AllTimed) (key : Key) (entry : VersionedEntry) :
    (s.write key entry).2.TimedButAt (cfg.shardFor key) (s.write key entry).1.addr := by
  have hhere := h (cfg.shardFor key)
  obtain ⟨-, -, -, rest, hnew, -⟩ := write_spec hs key entry
  have hwheel := (write_stamped hs key entry).1
  refine ⟨⟨hwheel ▸ hhere.nodup, fun b hb => ?_, fun b hb => ?_⟩, fun j hj => ?_⟩
  · obtain ⟨c, hc, rfl, -⟩ := (hhere.mem b).mp (hwheel ▸ hb)
    by_cases hne : c.addr = (s.write key entry).1.addr
    · exact ⟨_, hnew.mem_iff.mpr mem_cons_self, hne.symm⟩
    · exact ⟨c, (mem_cells_write hs hne).mpr hc, rfl⟩
  · rw [hwheel]
    refine (hhere.mem b).trans (exists_congr fun c => ?_)
    constructor
    · rintro ⟨hc, rfl, httl⟩
      exact ⟨(mem_cells_write hs hb).mpr hc, rfl, httl⟩
    · rintro ⟨hc, rfl, httl⟩
      exact ⟨(mem_cells_write hs hb).mp hc, rfl, httl⟩
  · rw [write_shards_ne hj]
    exact h j

theorem updateWheelAt_timed {n : Node} (h : s.TimedButAt i n.addr)
    (hn : n ∈ (s.shards i).list) (now : Nanos) : (s.updateWheelAt i n now).AllTimed :=
  (TimedAt.update h.elsewhere rfl (h.here.update (hs.shard i).addressed hn _)).all

theorem putVersionedAt_timed (h : s.AllTimed) (key : Key) (entry : VersionedEntry)
    (now : Nanos) (clk : ClockReading) : (s.putVersionedAt key entry now clk).2.AllTimed := by
  rcases putVersionedAt_cases s key entry now clk with
    ⟨-, heq⟩ | ⟨t, rfl, -, ⟨hgone, heq⟩ | ⟨n, hf, heq⟩⟩
  · rw [heq]
    exact h
  all_goals
    have hinv := (write_spec hs key entry).1
    have hwrite := write_timed hs h key entry
    have hdrifts := evictLoop_drifts (cfg.shardFor key)
      ((s.write key entry).2.shards (cfg.shardFor key)).list.length hinv
    have hevict : ((s.write key entry).2.evictIfNeeded (cfg.shardFor key)).TimedButAt
        (cfg.shardFor key) (s.write key entry).1.addr :=
      ⟨hdrifts.timedBut hinv hwrite.here, fun j hj => hdrifts.timed hinv (hwrite.elsewhere j hj)⟩
    have hmoves := evictIfNeeded_moves hinv (cfg.shardFor key)
    have hinv' := hmoves.inv hinv
  · exact AllTimed.of_shards (TimedAt.all (i := cfg.shardFor key) ⟨hevict.here.timed fun c hc =>
      addr_ne_after_write hs hmoves hgone hc, hevict.elsewhere⟩) (heq ▸ shards_noteReplaced s _ key)
  · obtain ⟨hn, -⟩ := (hinv'.shard _).find_eq.mp hf
    have hhere := hevict.here
    rw [← toCell_after_write hs hmoves hf] at hhere
    rw [heq]
    refine AllTimed.of_shards
      (updateWheelAt_timed ?_ (TimedButAt.of_shards ⟨hhere, hevict.elsewhere⟩
        (shards_noteReplaced s _ key)) ?_ now) (shards_writeWal _ _ _ _)
    · exact (noteReplaced_inv s hinv' key).of_shards rfl le_rfl
    · exact (congrArg (fun shards => n ∈ (shards (cfg.shardFor key)).list)
        (shards_noteReplaced s _ key)).mpr hn

theorem apply_timed (h : s.AllTimed) (op : StoreOp) : (s.apply op).AllTimed := by
  cases op with
  | put key value ttl clk => exact putVersionedAt_timed hs.mint (h.of_shards rfl) _ _ _ _
  | putVersioned | removeVersioned => exact putVersionedAt_timed hs h _ _ _ _
  | evictExpired now => exact evictExpired_timed hs h now
  | _ =>
    exact fun i => Drifts.timed (apply_drifts hs rfl) ((configured_move s _).inv hs)
      (h.of_shards (shards_configured s _) i)

end

/-! ## 4. Every history -/

def after (cfg : StoreConfig) (capacityBytes : Nat) (now : Nanos) (ops : List StoreOp) :
    EvictionStore cfg :=
  ops.foldl apply (start cfg capacityBytes now)

/-- **The representation of the store.** -/
structure Represented (s : EvictionStore cfg) : Prop where
  indexed : ∀ i key a, (s.shards i).index.lookup key = some a ↔
    ∃ n ∈ (s.shards i).list, n.key = key ∧ n.addr = a
  addrs : ∀ i, ((s.shards i).list.map fun n => n.addr).Nodup
  keys : ∀ i, ((s.shards i).list.map fun n => n.key).Nodup
  placed : ∀ i, ∀ n ∈ (s.shards i).list, cfg.shardFor n.key = i
  bytes : ∀ i, (s.shards i).currentBytes =
    ((s.shards i).list.map fun n => cfg.policy.nodeSize n.toCell).sum
  totalBytes : s.totalBytes = ∑ i, (s.shards i).currentBytes
  totalEntries : s.totalEntries = ∑ i, (s.shards i).list.length
  scheduledOnce : ∀ i, (s.shards i).wheel.scheduled.Nodup
  scheduled : ∀ i a, a ∈ (s.shards i).wheel.scheduled ↔
    ∃ n ∈ (s.shards i).list, n.addr = a ∧ n.entry.hasTtl = true

theorem represented_of (hs : s.Inv) (hc : s.Counted) (h : s.AllTimed) : s.Represented where
  indexed i key a := by
    rw [(hs.shard i).base.indexed]
    simp only [Shard.mem_cells, exists_exists_and_eq_and]
  addrs i := (hs.shard i).addressed
  keys i := by
    have hkeys := (hs.shard i).base.keys
    rwa [Shard.cells, map_map] at hkeys
  placed i n hn := hs.placed i n.toCell (mem_map_of_mem hn)
  bytes i := by
    have hbytes := (hs.shard i).base.bytes_eq
    rwa [Shard.cells, map_map] at hbytes
  totalBytes := hc.bytes
  totalEntries := by
    rw [hc.entries]
    simp only [Shard.cells, length_map]
  scheduledOnce i := (h i).nodup
  scheduled i a := by
    refine ((h i).mem a).trans ?_
    simp only [Shard.mem_cells, exists_exists_and_eq_and]

theorem after_keeps {cfg : StoreConfig} (capacityBytes : Nat) (now : Nanos) (ops : List StoreOp) :
    (after cfg capacityBytes now ops).Inv ∧ (after cfg capacityBytes now ops).Counted ∧
      (after cfg capacityBytes now ops).AllTimed := by
  induction ops using reverseRecOn with
  | nil =>
    refine ⟨inv_start cfg capacityBytes now, ⟨?_, ?_⟩, fun i => ⟨?_, fun b => ?_⟩⟩
    · exact (Finset.sum_const_zero).symm
    · exact (Finset.sum_const_zero).symm
    · show ([] ++ scheduled ({} : TtlWheel Addr)).Nodup
      rw [scheduled_empty]
      exact nodup_nil
    · show b ∈ [] ++ scheduled ({} : TtlWheel Addr) ↔ ∃ c ∈ ([] : List Cell), _
      rw [scheduled_empty]
      simp
  | append_singleton ops op ih =>
    obtain ⟨hs, hc, ht⟩ := ih
    unfold after at hs hc ht ⊢
    rw [foldl_append, foldl_cons, foldl_nil]
    exact ⟨apply_inv hs op, apply_counted hs hc op, apply_timed hs ht op⟩

end EvictionStore

end Cinder
