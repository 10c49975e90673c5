/-
What an operation of the eviction store can do, as a sequence of elementary moves.

Apart from a write, every operation comes to four kinds of moves: a node leaves and the sink is
told, a shard is put in another order, a wheel changes, or fields outside the shards do. An
invariant is therefore checked against four moves and the write, and not against every operation.
-/
import Cinder.Store.Placement

namespace Cinder

open List Function

namespace EvictionStore

variable {cfg : StoreConfig} {s s' : EvictionStore cfg} {i : Fin cfg.numShards}

/-! ## 1. The invariant -/

variable (s)

structure Inv : Prop where
  shard : ∀ i, (s.shards i).Wf cfg.policy
  placed : ∀ i, ∀ c ∈ (s.shards i).cells, cfg.shardFor c.key = i
  fresh : ∀ i, ∀ c ∈ (s.shards i).cells, c.addr < s.nextAddr

theorem inv_start (cfg : StoreConfig) (capacityBytes : Nat) (now : Nanos) :
    (start cfg capacityBytes now).Inv where
  shard := fun _ => Shard.wf_start now
  placed := fun _ c hc => by simp [start, Shard.cells] at hc
  fresh := fun _ c hc => by simp [start, Shard.cells] at hc

@[simp] theorem setShard_self (i : Fin cfg.numShards) (sh : Shard) :
    (s.setShard i sh).shards i = sh := update_self ..

theorem setShard_of_ne {i j : Fin cfg.numShards} (h : j ≠ i) (sh : Shard) :
    (s.setShard i sh).shards j = s.shards j := update_of_ne h ..

variable {s}

theorem Inv.setShard (h : s.Inv) {sh : Shard} (hwf : sh.Wf cfg.policy)
    (hcells : ∀ c ∈ sh.cells, cfg.shardFor c.key = i ∧ c.addr < s.nextAddr) :
    (s.setShard i sh).Inv where
  shard := (forall_update_iff s.shards fun _ sh => sh.Wf cfg.policy).mpr ⟨hwf, fun j _ => h.shard j⟩
  placed := (forall_update_iff s.shards fun j sh => ∀ c ∈ sh.cells, cfg.shardFor c.key = j).mpr
    ⟨fun c hc => (hcells c hc).1, fun j _ => h.placed j⟩
  fresh := (forall_update_iff s.shards fun _ sh => ∀ c ∈ sh.cells, c.addr < s.nextAddr).mpr
    ⟨fun c hc => (hcells c hc).2, fun j _ => h.fresh j⟩

/-- What holds between a shard and what replaces it holds of every shard. -/
theorem forall_update {r : Shard → Shard → Prop} (hrefl : ∀ sh, r sh sh) {sh : Shard}
    (h : r (s.shards i) sh) : ∀ j, r (s.shards j) (update s.shards i sh j) :=
  (forall_update_iff s.shards fun j sh => r (s.shards j) sh).mpr ⟨h, fun _ _ => hrefl _⟩

end EvictionStore

theorem Shard.PolicyInv.congr {p : Policy} {sh sh' : Shard} (h : sh.PolicyInv p)
    (hl : sh'.list = sh.list) (hb : sh'.freqBuckets = sh.freqBuckets) : sh'.PolicyInv p := by
  cases p with
  | lru => trivial
  | lfu =>
    refine ⟨?_, ?_⟩
    · rw [hl, hb]
      exact Shard.Located.stands h
    · rw [hl, hb]
      exact Shard.Located.only h

theorem Shard.wf_setBytes {p : Policy} {sh : Shard} {bytes : Nat}
    (h : CellsWf p sh.cells sh.index bytes) (hpol : sh.PolicyInv p) :
    Shard.Wf p { sh with currentBytes := bytes } :=
  ⟨h, hpol.congr rfl rfl⟩

namespace EvictionStore

variable {cfg : StoreConfig} {s s' : EvictionStore cfg} {i : Fin cfg.numShards}

/-! ## 2. Moves -/

/-- A node is gone: the sink is told, and the counters go down. `sh` is the shard without it,
its byte counter not yet adjusted. -/
def erased (s : EvictionStore cfg) (i : Fin cfg.numShards) (n : Node) (sh : Shard) :
    EvictionStore cfg :=
  { s with
    shards := update s.shards i
      { sh with currentBytes := sh.currentBytes - cfg.policy.nodeSize n.toCell }
    feed := s.feed ++ [⟨identityOf n.key n.entry, true⟩]
    totalBytes := s.totalBytes - cfg.policy.nodeSize n.toCell
    totalEntries := s.totalEntries - 1 }

/-- **The elementary moves.** -/
inductive Move : EvictionStore cfg → EvictionStore cfg → Prop where
  | erase (s : EvictionStore cfg) (i : Fin cfg.numShards) (n : Node) (sh : Shard)
      (resident : n ∈ (s.shards i).list)
      (cells : (s.shards i).cells.Perm (n.toCell :: sh.cells))
      (policy : sh.PolicyInv cfg.policy)
      (frame : Shard.Frame { s.shards i with
        wheel := (s.shards i).wheel.remove n.addr
        index := (s.shards i).index.erase n.key } sh) : Move s (s.erased i n sh)
  | reorder (s : EvictionStore cfg) (i : Fin cfg.numShards) (sh : Shard)
      (cells : sh.cells.Perm (s.shards i).cells) (policy : sh.PolicyInv cfg.policy)
      (frame : Shard.Frame (s.shards i) sh) : Move s (s.setShard i sh)
  | schedule (s : EvictionStore cfg) (i : Fin cfg.numShards) (wheel : TtlWheel Addr)
      (lastEvict : Nanos) :
      Move s (s.setShard i { s.shards i with wheel := wheel, lastEvict := lastEvict })
  | fields (s : EvictionStore cfg) (capacityBytes : Nat) (nextVersion : UInt64)
      (tombstoneGc : Nanos) (wal : List WalEntry) :
      Move s { s with
        capacityBytes := capacityBytes, nextVersion := nextVersion
        tombstoneGc := tombstoneGc, wal := wal }

abbrev Moves : EvictionStore cfg → EvictionStore cfg → Prop := Relation.ReflTransGen Move

theorem Move.inv (h : Move s s') (hs : s.Inv) : s'.Inv := by
  cases h with
  | erase i n sh resident cells policy frame =>
    have hwf := (hs.shard i).base.perm cells.symm
    have hsub : ∀ c ∈ sh.cells, c ∈ (s.shards i).cells := fun c hc =>
      cells.mem_iff.mpr (mem_cons_of_mem _ hc)
    have hidx : sh.index = (s.shards i).index.erase n.key := frame.index
    have hbytes : sh.currentBytes = (s.shards i).currentBytes := frame.currentBytes
    have hbase := hwf.detach
    rw [← hidx, ← hbytes] at hbase
    have hinv := Inv.setShard hs (i := i) (Shard.wf_setBytes hbase policy)
      fun c hc => ⟨hs.placed i c (hsub c hc), hs.fresh i c (hsub c hc)⟩
    exact ⟨hinv.shard, hinv.placed, hinv.fresh⟩
  | reorder i sh cells policy frame =>
    have hwf := (hs.shard i).base.perm cells
    rw [← frame.index, ← frame.currentBytes] at hwf
    exact hs.setShard ⟨hwf, policy⟩ fun c hc =>
      ⟨hs.placed i c (cells.mem_iff.mp hc), hs.fresh i c (cells.mem_iff.mp hc)⟩
  | schedule i wheel lastEvict =>
    exact hs.setShard ⟨(hs.shard i).base, (hs.shard i).policy.congr rfl rfl⟩ fun c hc =>
      ⟨hs.placed i c hc, hs.fresh i c hc⟩
  | fields capacityBytes nextVersion tombstoneGc wal => exact ⟨hs.shard, hs.placed, hs.fresh⟩

theorem Moves.inv (h : Moves s s') (hs : s.Inv) : s'.Inv := by
  induction h with
  | refl => exact hs
  | tail _ hstep ih => exact hstep.inv ih

theorem Move.cells_subset (h : Move s s') (i : Fin cfg.numShards) :
    ∀ c ∈ (s'.shards i).cells, c ∈ (s.shards i).cells := by
  have hupdate : ∀ {j} sh, _ → ∀ i, ∀ c ∈ (update s.shards j sh i).cells, c ∈ (s.shards i).cells :=
    fun _ => forall_update (r := fun sh sh' => ∀ c ∈ sh'.cells, c ∈ sh.cells) fun _ _ hc => hc
  cases h with
  | erase j n sh resident cells policy frame =>
    refine hupdate _ (fun c hc => ?_) i
    exact cells.mem_iff.mpr (mem_cons_of_mem _ hc)
  | reorder j sh cells policy frame => exact hupdate _ (fun c hc => cells.mem_iff.mp hc) i
  | schedule j wheel lastEvict =>
    refine hupdate _ (fun c hc => ?_) i
    exact hc
  | fields capacityBytes nextVersion tombstoneGc wal => exact fun c hc => hc

theorem Moves.cells_subset (h : Moves s s') (i : Fin cfg.numShards) :
    ∀ c ∈ (s'.shards i).cells, c ∈ (s.shards i).cells := by
  induction h with
  | refl => exact fun c hc => hc
  | tail _ hstep ih => exact fun c hc => ih c (hstep.cells_subset i c hc)

/-- **The moves of an operation that neither writes nor sweeps**: nodes leave or change places,
and the log grows. -/
inductive Drift : EvictionStore cfg → EvictionStore cfg → Prop where
  | erase (s : EvictionStore cfg) (i : Fin cfg.numShards) (n : Node) (sh : Shard)
      (resident : n ∈ (s.shards i).list)
      (cells : (s.shards i).cells.Perm (n.toCell :: sh.cells))
      (policy : sh.PolicyInv cfg.policy)
      (frame : Shard.Frame { s.shards i with
        wheel := (s.shards i).wheel.remove n.addr
        index := (s.shards i).index.erase n.key } sh) : Drift s (s.erased i n sh)
  | reorder (s : EvictionStore cfg) (i : Fin cfg.numShards) (sh : Shard)
      (cells : sh.cells.Perm (s.shards i).cells) (policy : sh.PolicyInv cfg.policy)
      (frame : Shard.Frame (s.shards i) sh) : Drift s (s.setShard i sh)
  | log (s : EvictionStore cfg) (wal : List WalEntry) : Drift s { s with wal := wal }

abbrev Drifts : EvictionStore cfg → EvictionStore cfg → Prop := Relation.ReflTransGen Drift

theorem Drift.move (h : Drift s s') : Move s s' := by
  cases h with
  | erase i n sh resident cells policy frame => exact .erase s i n sh resident cells policy frame
  | reorder i sh cells policy frame => exact .reorder s i sh cells policy frame
  | log wal => exact .fields s _ _ _ wal

theorem Drifts.moves (h : Drifts s s') : Moves s s' :=
  Relation.ReflTransGen.mono (fun _ _ => Drift.move) _ _ h

/-- What a drift does to one shard. -/
inductive Drifted (sh sh' : Shard) : Prop where
  | erase (n : Node) (resident : n ∈ sh.list) (cells : sh.cells.Perm (n.toCell :: sh'.cells))
      (wheel : sh'.wheel = sh.wheel.remove n.addr) (lastEvict : sh'.lastEvict = sh.lastEvict)
  | reorder (cells : sh'.cells.Perm sh.cells) (wheel : sh'.wheel = sh.wheel)
      (lastEvict : sh'.lastEvict = sh.lastEvict)

theorem Drift.shard (h : Drift s s') (j : Fin cfg.numShards) :
    Drifted (s.shards j) (s'.shards j) := by
  have hrefl : ∀ sh, Drifted sh sh := fun _ => .reorder (.refl _) rfl rfl
  cases h with
  | erase i n sh resident cells policy frame =>
    refine forall_update hrefl ?_ j
    exact .erase n resident cells frame.wheel frame.lastEvict
  | reorder i sh cells policy frame =>
    exact forall_update hrefl (.reorder cells frame.wheel frame.lastEvict) j
  | log wal => exact hrefl _

/-- **What the sweep of a shard does**: it changes the schedule, and drops what has expired. -/
inductive Reap (now : Nanos) (i : Fin cfg.numShards) : EvictionStore cfg → EvictionStore cfg →
    Prop where
  | schedule (s : EvictionStore cfg) (wheel : TtlWheel Addr) (lastEvict : Nanos) :
      Reap now i s (s.setShard i { s.shards i with wheel := wheel, lastEvict := lastEvict })
  | erase (s : EvictionStore cfg) (n : Node) (resident : n ∈ (s.shards i).list)
      (expired : n.entry.expiredAt now = true) : Reap now i s (s.eraseNode i n.key n)

abbrev Reaps (now : Nanos) (i : Fin cfg.numShards) : EvictionStore cfg → EvictionStore cfg → Prop :=
  Relation.ReflTransGen (Reap now i)

/-! ## 3. Operations as moves -/

variable {n : Node} {t : EvictionStore cfg} {key : Key} {entry : VersionedEntry}

theorem evictLoop_succ {sh : Shard} (fuel : Nat)
    (hover : s.shardCapacity < (s.shards i).currentBytes)
    (he : (s.shards i).evictOne cfg.policy = some (n, sh)) :
    evictLoop i (fuel + 1) s = evictLoop i fuel (s.erased i n sh) := by
  rw [evictLoop, if_pos hover, he]
  rfl

theorem evictLoop_stop (fuel : Nat) (h : (s.shards i).currentBytes ≤ s.shardCapacity ∨
    (s.shards i).evictOne cfg.policy = none) : evictLoop i (fuel + 1) s = s := by
  unfold evictLoop
  rcases h with h | h
  · rw [if_neg (not_lt.mpr h)]
  · rw [h, ite_self]

theorem evictLoop_cases (s : EvictionStore cfg) (i : Fin cfg.numShards) :
    ((s.shards i).currentBytes ≤ s.shardCapacity ∨ (s.shards i).evictOne cfg.policy = none) ∨
    ∃ n sh, s.shardCapacity < (s.shards i).currentBytes ∧
      (s.shards i).evictOne cfg.policy = some (n, sh) := by
  rcases lt_or_ge s.shardCapacity (s.shards i).currentBytes with hover | hfits
  · cases he : (s.shards i).evictOne cfg.policy with
    | none => exact .inl (.inr rfl)
    | some r => exact .inr ⟨r.1, r.2, hover, rfl⟩
  · exact .inl (.inl hfits)

theorem evictOne_drift (hs : s.Inv) {sh : Shard}
    (he : (s.shards i).evictOne cfg.policy = some (n, sh)) : Drift s (s.erased i n sh) := by
  obtain ⟨hn, -, hcells, hpol, hframe⟩ := Shard.evictOne_spec (hs.shard i) he
  exact .erase s i n sh hn hcells hpol hframe

theorem evictLoop_drifts (i : Fin cfg.numShards) (fuel : Nat) (hs : s.Inv) :
    Drifts s (evictLoop i fuel s) := by
  induction fuel generalizing s with
  | zero => exact .refl
  | succ fuel ih =>
    rcases evictLoop_cases s i with hstop | ⟨n, sh, hover, he⟩
    · rw [evictLoop_stop fuel hstop]
    · rw [evictLoop_succ fuel hover he]
      exact .head (evictOne_drift hs he) (ih ((evictOne_drift hs he).move.inv hs))

theorem evictIfNeeded_moves (hs : s.Inv) (i : Fin cfg.numShards) :
    Moves s (s.evictIfNeeded i) :=
  (evictLoop_drifts i _ hs).moves

theorem eraseNode_drift (hs : s.Inv) (hn : n ∈ (s.shards i).list) :
    Drift s (s.eraseNode i n.key n) := by
  obtain ⟨hcells, hpol, hframe⟩ := Shard.erase_spec (hs.shard i) hn n.key
  exact .erase s i n _ hn hcells hpol hframe

theorem writeWal_moves (s : EvictionStore cfg) (i : Fin cfg.numShards) (key : Key)
    (clk : ClockReading) : Moves s (s.writeWal i key clk) := by
  unfold writeWal
  split
  · exact .single (.fields s _ _ _ _)
  · exact .refl

theorem get_drifts (hs : s.Inv) (key : Key) (now : Nanos) : Drifts s (s.get key now).2 := by
  unfold get
  dsimp only
  split
  · exact .refl
  · rename_i n hf
    obtain ⟨hn, rfl⟩ := (hs.shard _).find_eq.mp hf
    split
    · exact .single (eraseNode_drift hs hn)
    · split
      · exact .refl
      · obtain ⟨hcells, hpol, hframe⟩ := Shard.onAccess_spec (hs.shard _) hn
        exact .single (.reorder s _ _ hcells hpol hframe)

theorem getVersioned_drifts (hs : s.Inv) (key : Key) (now : Nanos) :
    Drifts s (s.getVersioned key now).2 := by
  unfold getVersioned
  dsimp only
  split
  · exact .refl
  · rename_i n hf
    obtain ⟨hn, rfl⟩ := (hs.shard _).find_eq.mp hf
    split
    · exact .single (eraseNode_drift hs hn)
    · exact .refl

theorem remove_drifts (hs : s.Inv) (key : Key) : Drifts s (s.remove key).2 := by
  unfold remove
  dsimp only
  split
  · exact .refl
  · rename_i n hf
    obtain ⟨hn, rfl⟩ := (hs.shard _).find_eq.mp hf
    have hlog : Drift s { s with wal := s.wal ++ [delRecord n.key n.entry] } := .log s _
    exact .tail (.single hlog) (eraseNode_drift (hlog.move.inv hs) hn)

theorem restoreFreq_drifts (hs : s.Inv) (key : Key) (freq : UInt64) :
    Drifts s (s.restoreFreq key freq) := by
  unfold restoreFreq
  split
  · exact .refl
  · rename_i hp
    dsimp only
    split
    · exact .refl
    · split
      · exact .refl
      · rename_i n hf
        obtain ⟨hn, rfl⟩ := (hs.shard _).find_eq.mp hf
        split
        · exact .refl
        · have hwf := hs.shard (cfg.shardFor n.key)
          have hpol := hwf.policy
          rw [hp] at hpol
          have hkeeps := Shard.keeps_restoreFreq (s.shards (cfg.shardFor n.key)) n.addr n.freq
            freq.toNat
          refine .single (.reorder s _ _ (.of_eq hkeeps.cells) ?_ hkeeps.toFrame)
          rw [hp]
          exact Shard.Located.restoreFreq hpol hwf.addressed hn freq.toNat

theorem foldl_steps {α : Type} {R : EvictionStore cfg → EvictionStore cfg → Prop}
    {f : EvictionStore cfg → α → EvictionStore cfg}
    (hR : ∀ {s s'}, R s s' → s.Inv → Move s s')
    (hf : ∀ s a, s.Inv → Relation.ReflTransGen R s (f s a))
    (l : List α) (hs : s.Inv) : Relation.ReflTransGen R s (l.foldl f s) := by
  have hinv : ∀ {s s'}, Relation.ReflTransGen R s s' → s.Inv → s'.Inv := by
    intro s s' h hs
    induction h with
    | refl => exact hs
    | tail _ hstep ih => exact (hR hstep ih).inv ih
  induction l generalizing s with
  | nil => exact .refl
  | cons a l ih => exact (hf s a hs).trans (ih (hinv (hf s a hs) hs))

variable {now : Nanos}

theorem Reap.move (h : Reap now i s s') (hs : s.Inv) : Move s s' := by
  cases h with
  | schedule wheel lastEvict => exact .schedule s i wheel lastEvict
  | erase n resident expired => exact (eraseNode_drift hs resident).move

theorem Reaps.moves (h : Reaps now i s s') (hs : s.Inv) : Moves s s' := by
  induction h with
  | refl => exact .refl
  | tail _ hstep ih => exact ih.tail (hstep.move (ih.inv hs))

theorem Reaps.inv (h : Reaps now i s s') (hs : s.Inv) : s'.Inv := (h.moves hs).inv hs

theorem onExpired_reaps (hs : s.Inv) (i : Fin cfg.numShards) (now : Nanos) (a : Addr) :
    Reaps now i s (onExpired i now s a) := by
  unfold onExpired
  split
  · exact .refl
  · rename_i n hat
    split
    · rename_i hexpired
      split
      · exact .refl
      · rename_i m hf
        obtain ⟨hn, -⟩ := Shard.mem_of_nodeAt hat
        obtain ⟨hm, hk⟩ := (hs.shard i).find_eq.mp hf
        have hcell : m.toCell = n.toCell := (hs.shard i).base.eq_of_key
          (mem_map_of_mem hm) (mem_map_of_mem hn) hk
        have hentry : m.entry = n.entry := congrArg Cell.entry hcell
        rw [← hk]
        exact .single (.erase s m hm (hentry ▸ hexpired))
    · exact .single (.schedule s _ _)

theorem expireHeap_reaps (i : Fin cfg.numShards) (now : Nanos) (fuel : Nat) (hs : s.Inv) :
    Reaps now i s (expireHeap i now fuel s) := by
  induction fuel generalizing s with
  | zero => exact .refl
  | succ fuel ih =>
    unfold expireHeap
    split
    · exact .refl
    · rename_i a wheel _
      have hpop : Reap now i s (s.setShard i { s.shards i with wheel := wheel }) := .schedule s _ _
      have hfire := onExpired_reaps ((hpop.move hs).inv hs) i now a
      exact .head hpop (hfire.trans (ih (hfire.inv ((hpop.move hs).inv hs))))

theorem tick_reaps (hs : s.Inv) (i : Fin cfg.numShards) (now : Nanos) :
    Reaps now i s (tick i now s) := by
  have hdrain : Reap now i s (s.setShard i
      { s.shards i with wheel := (s.shards i).wheel.advance.drainSlot.2 }) := .schedule s _ _
  have hslot : Reaps now i _ _ := foldl_steps Reap.move (fun s a hs => onExpired_reaps hs i now a)
    (s.shards i).wheel.advance.drainSlot.1 ((hdrain.move hs).inv hs)
  exact .head hdrain (hslot.trans (expireHeap_reaps i now _ (hslot.inv ((hdrain.move hs).inv hs))))

theorem evictExpiredShard_reaps (now : Nanos) (s : EvictionStore cfg) (i : Fin cfg.numShards)
    (hs : s.Inv) : Reaps now i s (evictExpiredShard now s i) := by
  have hstamp : Reap now i s (s.setShard i { s.shards i with lastEvict := now }) := .schedule s _ _
  have hticks : ∀ n, Reaps now i s (Nat.iterate (tick i now) n
      (s.setShard i { s.shards i with lastEvict := now })) := by
    intro n
    induction n with
    | zero => exact .single hstamp
    | succ n ih =>
      rw [iterate_succ_apply']
      exact ih.trans (tick_reaps (ih.inv hs) i now)
  exact hticks _

abbrev Sweeps (now : Nanos) : EvictionStore cfg → EvictionStore cfg → Prop :=
  Relation.ReflTransGen fun s s' => ∃ i, Reap now i s s'

theorem evictExpired_sweeps (hs : s.Inv) (now : Nanos) : Sweeps now s (s.evictExpired now).2 :=
  foldl_steps (fun hstep hs => hstep.elim fun _ h => h.move hs)
    (fun s i hs => Relation.ReflTransGen.mono (fun _ _ h => Exists.intro i h) _ _
      (evictExpiredShard_reaps now s i hs)) _ hs

/-- What reads and expiry leave alone. -/
def counters (s : EvictionStore cfg) : Nat × UInt64 := (s.capacityBytes, s.nextVersion)

theorem Drifts.counters_eq (h : Drifts s s') : s'.counters = s.counters := by
  induction h with
  | refl => rfl
  | tail _ hstep ih => cases hstep <;> exact ih

theorem Sweeps.counters_eq (h : Sweeps now s s') : s'.counters = s.counters := by
  induction h with
  | refl => rfl
  | tail _ hstep ih =>
    obtain ⟨i, hstep⟩ := hstep
    cases hstep <;> exact ih

theorem Sweeps.moves (h : Sweeps now s s') (hs : s.Inv) : Moves s s' := by
  induction h with
  | refl => exact .refl
  | tail _ hstep ih => exact hstep.elim fun _ h => ih.tail (h.move (ih.inv hs))

variable (s)

def configured : StoreOp → EvictionStore cfg
  | .setCapacity capacityBytes => { s with capacityBytes := capacityBytes }
  | .setTombstoneGcInterval interval => { s with tombstoneGc := interval }
  | .mintVersion => s.mintVersion.2
  | _ => s

theorem shards_configured (op : StoreOp) :
    (s.configured op).shards = s.shards := by
  cases op <;> rfl

theorem configured_move (op : StoreOp) : Move s (s.configured op) := by
  cases op <;> exact .fields s _ _ _ _

variable {s}

end EvictionStore

/-- Neither a versioned put nor a sweep. -/
def StoreOp.drifts : StoreOp → Bool
  | .put .. | .putVersioned .. | .removeVersioned .. | .evictExpired _ => false
  | _ => true

def StoreOp.writes : StoreOp → Bool
  | .put .. | .putVersioned .. | .removeVersioned .. => true
  | _ => false

namespace EvictionStore

variable {cfg : StoreConfig} {s s' : EvictionStore cfg} {i : Fin cfg.numShards} {n : Node}
  {t : EvictionStore cfg} {key : Key} {entry : VersionedEntry} {op : StoreOp}

theorem apply_drifts (hs : s.Inv) (hop : op.drifts = true) :
    Drifts (s.configured op) (s.apply op) := by
  cases op with
  | remove key => exact remove_drifts hs key
  | get key now => exact get_drifts hs key now
  | getVersioned key now => exact getVersioned_drifts hs key now
  | setCapacity capacityBytes =>
    exact foldl_steps (fun hstep _ => hstep.move) (fun s i hs => evictLoop_drifts i _ hs) _
      ((configured_move s (.setCapacity capacityBytes)).inv hs)
  | restoreFreq key freq => exact restoreFreq_drifts hs key freq
  | setTombstoneGcInterval | mintVersion => exact .refl
  | _ => cases hop

theorem apply_moves (hs : s.Inv) (hop : op.writes = false) : Moves s (s.apply op) := by
  cases hdrifts : op.drifts with
  | true => exact .head (configured_move s op) (apply_drifts hs hdrifts).moves
  | false =>
    cases op with
    | evictExpired now => exact (evictExpired_sweeps hs now).moves hs
    | put | putVersioned | removeVersioned => cases hop
    | _ => cases hdrifts

/-! ## 4. Writes -/

variable (s)

@[simp] theorem observeVersion_frame (v : UInt64) :
    (s.observeVersion v).shards = s.shards ∧ (s.observeVersion v).nextAddr = s.nextAddr ∧
      (s.observeVersion v).feed = s.feed ∧ (s.observeVersion v).capacityBytes = s.capacityBytes ∧
      (s.observeVersion v).totalBytes = s.totalBytes ∧
      (s.observeVersion v).totalEntries = s.totalEntries := by
  unfold observeVersion
  split <;> exact ⟨rfl, rfl, rfl, rfl, rfl, rfl⟩

theorem overwrite_shard (i : Fin cfg.numShards) (n : Node)
    (entry : VersionedEntry) :
    (s.overwrite i n entry).shards = update s.shards i
      { (s.shards i).applyExisting cfg.policy n.addr entry with
        currentBytes := ((s.shards i).applyExisting cfg.policy n.addr entry).currentBytes -
          cfg.policy.nodeSize n.toCell +
          cfg.policy.nodeSize { n.toCell with entry := entry } } := by
  simp only [overwrite, setShard, observeVersion_frame]

theorem insertFresh_shard (i : Fin cfg.numShards) (key : Key)
    (entry : VersionedEntry) :
    (s.insertFresh i key entry).shards = update s.shards i
      { (s.shards i).insertNew cfg.policy s.nextAddr key entry with
        currentBytes := ((s.shards i).insertNew cfg.policy s.nextAddr key entry).currentBytes +
          cfg.policy.nodeSize ⟨s.nextAddr, key, entry⟩ } := by
  simp only [insertFresh, setShard, observeVersion_frame]

variable {s}

theorem Inv.of_shards (h : s.Inv) (hsh : t.shards = s.shards) (hnext : s.nextAddr ≤ t.nextAddr) :
    t.Inv where
  shard := fun i => hsh ▸ h.shard i
  placed := fun i c hc => h.placed i c (hsh ▸ hc)
  fresh := fun i c hc => lt_of_lt_of_le (h.fresh i c (hsh ▸ hc)) hnext

theorem Inv.mint (h : s.Inv) : s.mintVersion.2.Inv := h.of_shards rfl le_rfl

theorem overwrite_spec (hs : s.Inv) (hn : n ∈ (s.shards i).list) (entry : VersionedEntry) :
    (s.overwrite i n entry).Inv ∧ ∃ rest, (s.shards i).cells.Perm (n.toCell :: rest) ∧
      ((s.overwrite i n entry).shards i).cells.Perm ({ n.toCell with entry := entry } :: rest) := by
  obtain ⟨hcells, hpol, hframe⟩ := Shard.applyExisting_spec (hs.shard i) hn entry
  have hold := Shard.perm_cells_unlink (hs.shard i).addressed hn
  have hmem : n.toCell ∈ (s.shards i).cells := mem_map_of_mem hn
  have hbase := (((hs.shard i).base.perm hold.symm).overwrite entry).perm hcells
  rw [← hframe.index, ← hframe.currentBytes] at hbase
  refine ⟨?_, _, hold, ?_⟩
  · refine Inv.of_shards (hs.setShard (i := i) (Shard.wf_setBytes hbase hpol) fun c hc => ?_)
      (overwrite_shard s i n entry) (by simp [overwrite, setShard])
    rcases mem_cons.mp (hcells.mem_iff.mp hc) with rfl | hc
    · exact ⟨hs.placed i n.toCell hmem, hs.fresh i n.toCell hmem⟩
    · have hc := hold.mem_iff.mpr (mem_cons_of_mem _ hc)
      exact ⟨hs.placed i c hc, hs.fresh i c hc⟩
  · rw [overwrite_shard, update_self]
    exact hcells

theorem Inv.ne_nextAddr (hs : s.Inv) (hn : n ∈ (s.shards i).list) : n.addr ≠ s.nextAddr :=
  (hs.fresh i n.toCell (mem_map_of_mem hn)).ne

theorem insertFresh_spec (hs : s.Inv) (habsent : (s.shards (cfg.shardFor key)).find key = none)
    (entry : VersionedEntry) :
    (s.insertFresh (cfg.shardFor key) key entry).Inv ∧
      ((s.insertFresh (cfg.shardFor key) key entry).shards (cfg.shardFor key)).cells =
        ⟨s.nextAddr, key, entry⟩ :: (s.shards (cfg.shardFor key)).cells := by
  have hwf := hs.shard (cfg.shardFor key)
  have hfresh : ∀ c ∈ (s.shards (cfg.shardFor key)).cells, c.addr ≠ s.nextAddr :=
    fun c hc => (hs.fresh _ c hc).ne
  have hkey : ∀ c ∈ (s.shards (cfg.shardFor key)).cells, c.key ≠ key := by
    intro c hc
    obtain ⟨m, hm, rfl⟩ := Shard.mem_cells.mp hc
    exact hwf.find_eq_none.mp habsent m hm
  obtain ⟨hcells, hpol, hframe⟩ := Shard.insertNew_spec hwf (fun _ => hs.ne_nextAddr) key entry
  have hidx : ((s.shards (cfg.shardFor key)).insertNew cfg.policy s.nextAddr key entry).index =
      (s.shards (cfg.shardFor key)).index.insert key s.nextAddr := hframe.index
  have hbytes : ((s.shards (cfg.shardFor key)).insertNew cfg.policy s.nextAddr key
      entry).currentBytes = (s.shards (cfg.shardFor key)).currentBytes := hframe.currentBytes
  have hbase := CellsWf.insert (c := ⟨s.nextAddr, key, entry⟩) hwf.base hfresh hkey
  rw [← hcells, ← hbytes, ← hidx] at hbase
  refine ⟨?_, ?_⟩
  · have hnext : Inv { s with nextAddr := s.nextAddr + 1 } :=
      Inv.of_shards hs rfl (Nat.le_succ _)
    refine Inv.of_shards (hnext.setShard (i := cfg.shardFor key) (Shard.wf_setBytes hbase hpol)
      fun c hc => ?_) (insertFresh_shard s _ key entry) (by simp [insertFresh, setShard])
    have hc : c ∈ (⟨s.nextAddr, key, entry⟩ : Cell) :: (s.shards (cfg.shardFor key)).cells :=
      hcells ▸ hc
    rcases mem_cons.mp hc with rfl | hc
    · exact ⟨rfl, Nat.lt_succ_self _⟩
    · exact ⟨hs.placed _ c hc, Nat.lt_succ_of_lt (hs.fresh _ c hc)⟩
  · rw [insertFresh_shard, update_self]
    exact hcells

variable (s)

/-- A write that the last-writer-wins rule or the capacity check turns away. -/
def rejects (key : Key) (entry : VersionedEntry) : Bool :=
  match (s.shards (cfg.shardFor key)).find key with
  | some n => compareLww (stampOf entry) (stampOf n.entry) = .less
  | none => s.shardCapacity < cfg.policy.nodeSize ⟨s.nextAddr, key, entry⟩

/-- The node a write makes, and the store that holds it, before `evictIfNeeded`. -/
def write (key : Key) (entry : VersionedEntry) : Cell × EvictionStore cfg :=
  match (s.shards (cfg.shardFor key)).find key with
  | some n => ({ n.toCell with entry := entry }, s.overwrite (cfg.shardFor key) n entry)
  | none => (⟨s.nextAddr, key, entry⟩, s.insertFresh (cfg.shardFor key) key entry)

/-- The note of the entry a write replaces. -/
def noteReplaced (s t : EvictionStore cfg) (key : Key) : EvictionStore cfg :=
  match (s.shards (cfg.shardFor key)).find key with
  | some n => t.noteRemoved (identityOf key n.entry)
  | none => t

theorem putVersionedAt_cases (key : Key) (entry : VersionedEntry)
    (now : Nanos) (clk : ClockReading) :
    (s.rejects key entry = true ∧ (s.putVersionedAt key entry now clk).2 = s) ∨
    ∃ t, t = (s.write key entry).2.evictIfNeeded (cfg.shardFor key) ∧ s.rejects key entry = false ∧
      ((t.shards (cfg.shardFor key)).find key = none ∧
          (s.putVersionedAt key entry now clk).2 = s.noteReplaced t key ∨
        ∃ n, (t.shards (cfg.shardFor key)).find key = some n ∧
          (s.putVersionedAt key entry now clk).2 =
            (((s.noteReplaced t key).noteAdded (identityOf key n.entry)).updateWheelAt
              (cfg.shardFor key) n now).writeWal (cfg.shardFor key) key clk) := by
  unfold putVersionedAt rejects noteReplaced write
  dsimp only
  cases (s.shards (cfg.shardFor key)).find key with
  | _ =>
    dsimp only
    split
    · rename_i hrej
      exact .inl ⟨decide_eq_true hrej, rfl⟩
    · rename_i haccept
      refine .inr ⟨_, rfl, decide_eq_false haccept, ?_⟩
      split
      · rename_i hgone
        exact .inl ⟨hgone, rfl⟩
      · rename_i resident hres
        exact .inr ⟨resident, hres, rfl⟩

variable {s}

theorem putVersionedAt_of_rejects (hrej : s.rejects key entry = true) (now : Nanos)
    (clk : ClockReading) : (s.putVersionedAt key entry now clk).2 = s := by
  rcases putVersionedAt_cases s key entry now clk with ⟨-, heq⟩ | ⟨t, -, haccept, -⟩
  · exact heq
  · rw [hrej] at haccept
    cases haccept

theorem evictLoop_frame (i : Fin cfg.numShards) (fuel : Nat) (s : EvictionStore cfg) :
    (∀ j, j ≠ i → (evictLoop i fuel s).shards j = s.shards j) ∧
      (evictLoop i fuel s).counters = s.counters := by
  induction fuel generalizing s with
  | zero => exact ⟨fun _ _ => rfl, rfl⟩
  | succ fuel ih =>
    rcases evictLoop_cases s i with hstop | ⟨n, sh, hover, he⟩
    · rw [evictLoop_stop fuel hstop]
      exact ⟨fun _ _ => rfl, rfl⟩
    · rw [evictLoop_succ fuel hover he]
      exact ⟨fun j hj => ((ih _).1 j hj).trans (setShard_of_ne _ hj _), (ih _).2⟩

theorem shards_writeWal (s : EvictionStore cfg) (i : Fin cfg.numShards) (key : Key)
    (clk : ClockReading) : (s.writeWal i key clk).shards = s.shards := by
  unfold writeWal
  split <;> rfl

theorem shards_noteReplaced (s t : EvictionStore cfg) (key : Key) :
    (s.noteReplaced t key).shards = t.shards := by
  unfold noteReplaced
  split <;> rfl

theorem noteReplaced_eq (s t : EvictionStore cfg) (key : Key) :
    ∃ feed, s.noteReplaced t key = { t with feed := feed } := by
  unfold noteReplaced
  split <;> exact ⟨_, rfl⟩

/-- **Behind the eviction of a write**: the feed and the log grow, and the node written is
scheduled. -/
theorem putVersionedAt_accepted (haccept : s.rejects key entry = false) (now : Nanos)
    (clk : ClockReading) : ∃ feed wheel wal, (s.putVersionedAt key entry now clk).2 =
      let t := (s.write key entry).2.evictIfNeeded (cfg.shardFor key)
      { t.setShard (cfg.shardFor key) { t.shards (cfg.shardFor key) with wheel := wheel } with
        feed := feed, wal := wal } := by
  dsimp only
  rcases putVersionedAt_cases s key entry now clk with
    ⟨hrej, -⟩ | ⟨t, ht, -, ⟨-, heq⟩ | ⟨n, -, heq⟩⟩
  · rw [haccept] at hrej
    cases hrej
  all_goals
    obtain ⟨feed, hfeed⟩ := noteReplaced_eq s t key
    rw [heq, hfeed, ← ht]
  · refine ⟨feed, (t.shards (cfg.shardFor key)).wheel, t.wal, ?_⟩
    rw [setShard, update_eq_self]
  · rw [writeWal]
    split <;> exact ⟨_, _, _, rfl⟩

theorem putVersionedAt_shard {α : Type} {f : Shard → α}
    (hf : ∀ sh wheel, f { sh with wheel := wheel } = f sh) (haccept : s.rejects key entry = false)
    (now : Nanos) (clk : ClockReading) (j : Fin cfg.numShards) :
    f ((s.putVersionedAt key entry now clk).2.shards j) =
      f (((s.write key entry).2.evictIfNeeded (cfg.shardFor key)).shards j) := by
  obtain ⟨feed, wheel, wal, heq⟩ := putVersionedAt_accepted haccept now clk
  rw [heq]
  exact forall_update (r := fun sh sh' => f sh' = f sh) (fun _ => rfl) (hf _ wheel) j

theorem write_shards (s : EvictionStore cfg) (key : Key) (entry : VersionedEntry) :
    ∃ sh, (s.write key entry).2.shards = update s.shards (cfg.shardFor key) sh := by
  unfold write
  cases (s.shards (cfg.shardFor key)).find key with
  | some n => exact ⟨_, overwrite_shard s _ n entry⟩
  | none => exact ⟨_, insertFresh_shard s _ key entry⟩

theorem write_shards_ne {j : Fin cfg.numShards} (h : j ≠ cfg.shardFor key) :
    (s.write key entry).2.shards j = s.shards j := by
  obtain ⟨sh, hsh⟩ := write_shards s key entry
  rw [hsh, update_of_ne h]

theorem write_fields (s : EvictionStore cfg) (key : Key) (entry : VersionedEntry) :
    (s.write key entry).2.capacityBytes = s.capacityBytes ∧ (s.write key entry).2.feed = s.feed ∧
      (s.write key entry).2.nextVersion = (s.observeVersion (entry.version + 1)).nextVersion := by
  unfold write
  cases (s.shards (cfg.shardFor key)).find key with
  | some n => simp [overwrite, setShard]
  | none => simp [insertFresh, setShard]

theorem putVersionedAt_fields (haccept : s.rejects key entry = false) (now : Nanos)
    (clk : ClockReading) :
    (s.putVersionedAt key entry now clk).2.capacityBytes = s.capacityBytes ∧
      (s.putVersionedAt key entry now clk).2.nextVersion =
        (s.observeVersion (entry.version + 1)).nextVersion := by
  obtain ⟨feed, wheel, wal, heq⟩ := putVersionedAt_accepted haccept now clk
  obtain ⟨hcap, -, hnext⟩ := write_fields s key entry
  have hevict := fun fuel => (evictLoop_frame (cfg.shardFor key) fuel (s.write key entry).2).2
  rw [heq]
  exact ⟨(congrArg Prod.fst (hevict _)).trans hcap, (congrArg Prod.snd (hevict _)).trans hnext⟩

theorem updateWheelAt_writeWal_moves (t : EvictionStore cfg) (i : Fin cfg.numShards) (n : Node)
    (now : Nanos) (key : Key) (clk : ClockReading) :
    Moves t ((t.updateWheelAt i n now).writeWal i key clk) :=
  .head (.schedule t i _ _) (writeWal_moves _ _ _ _)

theorem write_spec (hs : s.Inv) (key : Key) (entry : VersionedEntry) :
    (s.write key entry).2.Inv ∧ (s.write key entry).1.key = key ∧
      (s.write key entry).1.entry = entry ∧
      ∃ rest, ((s.write key entry).2.shards (cfg.shardFor key)).cells.Perm
          ((s.write key entry).1 :: rest) ∧
        (s.shards (cfg.shardFor key)).cells.Perm
          (match (s.shards (cfg.shardFor key)).find key with
            | some n => n.toCell :: rest
            | none => rest) := by
  unfold write
  cases hf : (s.shards (cfg.shardFor key)).find key with
  | some n =>
    obtain ⟨hn, hk⟩ := (hs.shard _).find_eq.mp hf
    obtain ⟨hinv, rest, hold, hnew⟩ := overwrite_spec hs hn entry
    exact ⟨hinv, hk, rfl, rest, hnew, hold⟩
  | none =>
    obtain ⟨hinv, hcells⟩ := insertFresh_spec hs hf entry
    exact ⟨hinv, rfl, rfl, _, by rw [hcells], .refl _⟩

theorem write_stamped (hs : s.Inv) (key : Key) (entry : VersionedEntry) :
    ((s.write key entry).2.shards (cfg.shardFor key)).wheel = (s.shards (cfg.shardFor key)).wheel ∧
      ((s.write key entry).2.shards (cfg.shardFor key)).lastEvict =
        (s.shards (cfg.shardFor key)).lastEvict := by
  unfold write
  cases hf : (s.shards (cfg.shardFor key)).find key with
  | some n =>
    obtain ⟨hn, -⟩ := (hs.shard _).find_eq.mp hf
    obtain ⟨-, -, hframe⟩ := Shard.applyExisting_spec (hs.shard _) hn entry
    rw [overwrite_shard, update_self]
    exact ⟨hframe.wheel, hframe.lastEvict⟩
  | none =>
    obtain ⟨-, -, hframe⟩ := Shard.insertNew_spec (hs.shard _) (fun _ => hs.ne_nextAddr) key entry
    rw [insertFresh_shard, update_self]
    exact ⟨hframe.wheel, hframe.lastEvict⟩

theorem mem_cells_write (hs : s.Inv) {c : Cell} (hne : c.addr ≠ (s.write key entry).1.addr) :
    c ∈ ((s.write key entry).2.shards (cfg.shardFor key)).cells ↔
      c ∈ (s.shards (cfg.shardFor key)).cells := by
  obtain ⟨-, -, -, rest, hnew, hold⟩ := write_spec hs key entry
  have hwritten : c ≠ (s.write key entry).1 := fun heq => hne (congrArg Cell.addr heq)
  rw [hnew.mem_iff, hold.mem_iff, mem_cons, or_iff_right hwritten]
  unfold write at hne
  cases hf : (s.shards (cfg.shardFor key)).find key with
  | none => exact Iff.rfl
  | some n =>
    rw [hf] at hne
    have hreplaced : c ≠ n.toCell := fun heq => hne (by rw [heq])
    exact (mem_cons.trans (or_iff_right hreplaced)).symm

section AfterWrite

variable (hs : s.Inv) (ht : Moves (s.write key entry).2 t)
include hs ht

theorem toCell_after_write (hf : (t.shards (cfg.shardFor key)).find key = some n) :
    n.toCell = (s.write key entry).1 := by
  obtain ⟨hinv, hkey, -, rest, hperm, -⟩ := write_spec hs key entry
  obtain ⟨hn, hk⟩ := ((ht.inv hinv).shard _).find_eq.mp hf
  have hmem := ht.cells_subset (cfg.shardFor key) n.toCell (mem_map_of_mem hn)
  have hself := hperm.mem_iff.mpr (mem_cons_self (a := (s.write key entry).1))
  exact (hinv.shard (cfg.shardFor key)).base.eq_of_key hmem hself (hk.trans hkey.symm)

theorem find_after_write (hf : (t.shards (cfg.shardFor key)).find key = some n) :
    n.entry = entry := by
  rw [← (write_spec hs key entry).2.2.1, ← toCell_after_write hs ht hf]

theorem addr_ne_after_write (hgone : (t.shards (cfg.shardFor key)).find key = none) {c : Cell}
    (hc : c ∈ (t.shards (cfg.shardFor key)).cells) : c.addr ≠ (s.write key entry).1.addr := by
  intro haddr
  obtain ⟨hinv, hkey, -, rest, hperm, -⟩ := write_spec hs key entry
  have hself := hperm.mem_iff.mpr (mem_cons_self (a := (s.write key entry).1))
  have heq := (hinv.shard _).base.eq_of_addr (ht.cells_subset _ c hc) hself haddr
  obtain ⟨m, hm, rfl⟩ := Shard.mem_cells.mp hc
  exact ((ht.inv hinv).shard _).find_eq_none.mp hgone m hm ((congrArg Cell.key heq).trans hkey)

end AfterWrite

theorem mem_cells_putVersionedAt (hs : s.Inv) {now : Nanos} {clk : ClockReading}
    {i : Fin cfg.numShards} {c : Cell}
    (hc : c ∈ ((s.putVersionedAt key entry now clk).2.shards i).cells) :
    c ∈ (s.shards i).cells ∨ s.rejects key entry = false ∧ c.entry = entry := by
  cases hrej : s.rejects key entry with
  | true => exact .inl (putVersionedAt_of_rejects hrej now clk ▸ hc)
  | false =>
    obtain ⟨hinv, -, hentry, rest, hnew, hold⟩ := write_spec hs key entry
    rw [putVersionedAt_shard (f := Shard.cells) (fun _ _ => rfl) hrej] at hc
    have hc := (evictIfNeeded_moves hinv (cfg.shardFor key)).cells_subset i c hc
    by_cases hi : i = cfg.shardFor key
    · subst hi
      rcases mem_cons.mp (hnew.mem_iff.mp hc) with rfl | hc
      · exact .inr ⟨rfl, hentry⟩
      · refine .inl (hold.mem_iff.mpr ?_)
        split
        · exact mem_cons_of_mem _ hc
        · exact hc
    · rw [write_shards_ne hi] at hc
      exact .inl hc

theorem noteReplaced_inv (s : EvictionStore cfg) (h : t.Inv) (key : Key) :
    (s.noteReplaced t key).Inv := by
  unfold noteReplaced
  split
  · exact h.of_shards rfl le_rfl
  · exact h

theorem putVersionedAt_inv (hs : s.Inv) (key : Key) (entry : VersionedEntry) (now : Nanos)
    (clk : ClockReading) : (s.putVersionedAt key entry now clk).2.Inv := by
  have hevict := (evictIfNeeded_moves (write_spec hs key entry).1 (cfg.shardFor key)).inv
    (write_spec hs key entry).1
  cases hrej : s.rejects key entry with
  | true => rwa [putVersionedAt_of_rejects hrej]
  | false =>
    obtain ⟨feed, wheel, wal, heq⟩ := putVersionedAt_accepted hrej now clk
    rw [heq]
    exact ((Move.schedule _ _ wheel _).inv hevict).of_shards rfl le_rfl

theorem apply_inv (hs : s.Inv) (op : StoreOp) : (s.apply op).Inv := by
  cases op with
  | put key value ttl clk => exact putVersionedAt_inv hs.mint _ _ _ _
  | putVersioned | removeVersioned => exact putVersionedAt_inv hs _ _ _ _
  | _ => exact Moves.inv (apply_moves hs rfl) hs

end EvictionStore

end Cinder
