/-
What `evictExpired` does to the schedule of a shard, and what the other operations
leave of it (`include/cinder/store/detail/eviction_store_base.hpp`: `evictExpired`,
`expiryTicksAt`, `updateWheelAt`).

Only writes and the callback of a sweep schedule anything; every other operation at most takes
nodes off the wheel. A predicate `due` says when a resident may be due.
-/
import Cinder.Store.Capacity
import Cinder.Store.WheelSchedule

namespace Cinder

open List Function VersionedEntry TtlWheel

/-! ## 1. Ticks of a deadline -/

/-- The end of the range of `steady_clock::time_point`. -/
def lastNanos : Nanos := 9223372036854775808

def second : Nanos := 1000000000

theorem expiryTicksAt_pos (e now : Nanos) : 1 ≤ expiryTicksAt e now := by
  unfold expiryTicksAt
  dsimp only
  split
  · exact le_rfl
  · exact le_max_left _ _

theorem expiryTicksAt_lt {e now : Int} (h : now < e) :
    ((expiryTicksAt e now : Int) - 1) * second < e - now := by
  have hleft : ¬ e - now ≤ 0 := by omega
  unfold expiryTicksAt second
  rw [if_neg hleft]
  omega

theorem expiryTicksAt_le {e now : Int} (he : e < lastNanos) (hnow : 0 ≤ now) :
    expiryTicksAt e now ≤ 9223372037 := by
  have he : e < 9223372036854775808 := he
  unfold expiryTicksAt
  dsimp only
  split
  · decide
  · omega

theorem elapsedTicks_pos (now lastEvict : Nanos) : 1 ≤ elapsedTicks now lastEvict := le_max_left _ _

namespace TtlWheel

variable {α : Type} [DecidableEq α] {w w' : TtlWheel α}

def Lapses (w w' : TtlWheel α) : Prop :=
  Relation.ReflTransGen (fun w w' => ∃ a, w' = w.remove a) w w'

theorem Lapses.keeps (h : Lapses w w') (hwf : w.Wf) :
    w'.Wf ∧ w'.tickCount = w.tickCount ∧ dueCount w' ≤ dueCount w ∧
      ∀ a r, w'.DueIn a r → w.DueIn a r := by
  induction h with
  | refl => exact ⟨hwf, rfl, le_rfl, fun _ _ hdue => hdue⟩
  | tail _ hstep ih =>
    obtain ⟨a, rfl⟩ := hstep
    obtain ⟨hwf', htick, hcount, hdue⟩ := ih
    refine ⟨hwf'.remove a, (tickCount_remove _ a).trans htick,
      (dueCount_remove_le hwf'.nodup a).trans hcount, fun b r hb => ?_⟩
    exact hdue b r ((dueIn_remove hwf'.nodup).mp hb).1

omit [DecidableEq α] in
theorem inRange_expiryTicksAt {e now : Nanos} (hcount : w.tickCount ≤ 2 ^ 63) (he : e < lastNanos)
    (hnow : 0 ≤ now) : w.InRange (expiryTicksAt e now) := by
  have hle := expiryTicksAt_le he hnow
  refine .inr ?_
  unfold UInt64.size
  omega

end TtlWheel

/-! ## 2. The schedule of a shard -/

namespace Shard

variable {sh sh' : Shard} {due due' : Cell → Nat → Prop}

/-- The wheel is in order, and every resident it has scheduled is due as `due` allows. -/
structure Scheduled (sh : Shard) (due : Cell → Nat → Prop) : Prop where
  wf : sh.wheel.Wf
  range : ∀ c ∈ sh.cells, c.entry.expiresAt < lastNanos
  within : ∀ c ∈ sh.cells, ∀ r, sh.wheel.DueIn c.addr r → due c r

/-- Nodes have left or changed places; nothing was scheduled. -/
structure Lapsed (sh sh' : Shard) : Prop where
  cells : ∀ c ∈ sh'.cells, c ∈ sh.cells
  wheel : sh.wheel.Lapses sh'.wheel
  lastEvict : sh'.lastEvict = sh.lastEvict

theorem Lapsed.refl (sh : Shard) : Lapsed sh sh := ⟨fun _ hc => hc, .refl, rfl⟩

theorem Lapsed.trans {sh'' : Shard} (h : Lapsed sh sh') (h' : Lapsed sh' sh'') : Lapsed sh sh'' :=
  ⟨fun c hc => h.cells c (h'.cells c hc), h.wheel.trans h'.wheel, h'.lastEvict.trans h.lastEvict⟩

theorem Scheduled.lapsed (h : sh.Scheduled due) (hl : Lapsed sh sh') : sh'.Scheduled due := by
  obtain ⟨hwf, -, -, hdue⟩ := hl.wheel.keeps h.wf
  exact ⟨hwf, fun c hc => h.range c (hl.cells c hc),
    fun c hc r hr => h.within c (hl.cells c hc) r (hdue _ r hr)⟩

/-- A shard between two operations: `T` ticks were made, the last of them in the sweep at `L`. -/
structure Waits (sh : Shard) (due : Cell → Nat → Prop) (T : Nat) (L : Nanos) : Prop where
  sched : sh.Scheduled due
  quiet : sh.wheel.Quiet
  count : sh.wheel.tickCount = T
  stamp : sh.lastEvict = L

theorem Waits.lapsed {T : Nat} {L : Nanos} (h : sh.Waits due T L) (hl : Lapsed sh sh') :
    sh'.Waits due T L := by
  obtain ⟨hwf, htick, -, hdue⟩ := hl.wheel.keeps h.sched.wf
  exact ⟨h.sched.lapsed hl, ⟨hwf, fun a hnow => h.quiet.later a (hdue a 0 hnow)⟩,
    htick.trans h.count, hl.lastEvict.trans h.stamp⟩

theorem Waits.mono {T : Nat} {L : Nanos} (h : sh.Waits due T L)
    (hle : ∀ c ∈ sh.cells, ∀ r, due c r → due' c r) : sh.Waits due' T L :=
  ⟨⟨h.sched.wf, h.sched.range, fun c hc r hr => hle c hc r (h.sched.within c hc r hr)⟩,
    h.quiet, h.count, h.stamp⟩

end Shard

namespace EvictionStore

variable {cfg : StoreConfig} {s s' : EvictionStore cfg} {i : Fin cfg.numShards} {now : Nanos}
  {due due' : Cell → Nat → Prop} {T : Nat} {L : Nanos}

def Lapses (s s' : EvictionStore cfg) : Prop := ∀ i, (s.shards i).Lapsed (s'.shards i)

theorem Lapses.of_shards (h : s'.shards = s.shards) : s.Lapses s' :=
  fun i => h ▸ Shard.Lapsed.refl (s.shards i)

theorem Lapses.trans {s'' : EvictionStore cfg} (h : s.Lapses s') (h' : s'.Lapses s'') :
    s.Lapses s'' := fun i => (h i).trans (h' i)

theorem Drift.lapses (h : Drift s s') : s.Lapses s' := by
  intro i
  cases h.shard i with
  | erase n resident cells wheel lastEvict =>
    exact ⟨fun c hc => cells.mem_iff.mpr (mem_cons_of_mem _ hc), .single ⟨n.addr, wheel⟩, lastEvict⟩
  | reorder cells wheel lastEvict =>
    exact ⟨fun c hc => cells.mem_iff.mp hc, wheel ▸ .refl, lastEvict⟩

theorem Drifts.lapses (h : Drifts s s') : s.Lapses s' := by
  induction h with
  | refl => exact .of_shards rfl
  | tail _ hstep ih => exact ih.trans hstep.lapses

/-! ## 3. A sweep never reaps early -/

/-- Every entry that has not expired is still there. -/
structure Spares (now : Nanos) (s s' : EvictionStore cfg) : Prop where
  inv : s'.Inv
  kept : ∀ i, ∀ c ∈ (s.shards i).cells, c.entry.expiredAt now = false → c ∈ (s'.shards i).cells

theorem Spares.refl (hs : s.Inv) : Spares now s s := ⟨hs, fun _ _ hc _ => hc⟩

theorem Spares.trans {s'' : EvictionStore cfg} (h : Spares now s s') (h' : Spares now s' s'') :
    Spares now s s'' := ⟨h'.inv, fun i c hc hlive => h'.kept i c (h.kept i c hc hlive) hlive⟩

variable {j : Fin cfg.numShards}

theorem eraseNode_shards_ne (h : j ≠ i) (key : Key) (n : Node) :
    (s.eraseNode i key n).shards j = s.shards j := update_of_ne h ..

theorem Reap.shards_ne (h : Reap now i s s') (hj : j ≠ i) : s'.shards j = s.shards j := by
  cases h with
  | schedule wheel lastEvict => exact setShard_of_ne _ hj _
  | erase n resident expired => exact eraseNode_shards_ne hj _ _

theorem Reaps.shards_ne (h : Reaps now i s s') (hj : j ≠ i) : s'.shards j = s.shards j := by
  induction h with
  | refl => rfl
  | tail _ hstep ih => exact (hstep.shards_ne hj).trans ih

theorem Reap.spares (h : Reap now i s s') (hs : s.Inv) : Spares now s s' := by
  refine ⟨(h.move hs).inv hs, fun j c hc hlive => ?_⟩
  by_cases hj : j = i
  · subst hj
    cases h with
    | schedule wheel lastEvict =>
      rw [setShard_self]
      exact hc
    | erase n resident expired =>
      obtain ⟨hcells, -, -⟩ := Shard.erase_spec (hs.shard j) resident n.key
      rw [eraseNode, setShard]
      dsimp only
      rw [update_self]
      rcases mem_cons.mp (hcells.mem_iff.mp hc) with rfl | hc
      · rw [expired] at hlive
        cases hlive
      · exact hc
  · rw [h.shards_ne hj]
    exact hc

theorem Sweeps.spares (h : Sweeps now s s') (hs : s.Inv) : Spares now s s' := by
  induction h with
  | refl => exact .refl hs
  | tail _ hstep ih => exact hstep.elim fun _ hstep => ih.trans (hstep.spares ih.inv)

/-! ## 4. One shard inside a sweep -/

/-- The shard's schedule between two callbacks. -/
structure Sweep (s : EvictionStore cfg) (i : Fin cfg.numShards) (due : Cell → Nat → Prop) (T : Nat)
    (L : Nanos) : Prop where
  inv : s.Inv
  sched : (s.shards i).Scheduled due
  count : (s.shards i).wheel.tickCount = T
  stamp : (s.shards i).lastEvict = L

theorem sweep_setShard {sh : Shard} (hinv : (s.setShard i sh).Inv) (hsched : sh.Scheduled due)
    (hcount : sh.wheel.tickCount = T) (hstamp : sh.lastEvict = L) :
    (s.setShard i sh).Sweep i due T L := by
  refine ⟨hinv, ?_, ?_, ?_⟩
  all_goals rw [setShard_self]
  exacts [hsched, hcount, hstamp]

theorem Sweep.setWheel (h : s.Sweep i due T L) {wheel : TtlWheel Addr} (hwf : wheel.Wf)
    (hcount : wheel.tickCount = T)
    (hdue : ∀ c ∈ (s.shards i).cells, ∀ r, wheel.DueIn c.addr r → due' c r) :
    (s.setShard i { s.shards i with wheel := wheel }).Sweep i due' T L :=
  sweep_setShard ((Move.schedule s i wheel (s.shards i).lastEvict).inv h.inv)
    ⟨hwf, h.sched.range, hdue⟩ hcount h.stamp

section

variable (hT : T ≤ 2 ^ 63) (hnow : 0 ≤ now)
  (hagain : ∀ c : Cell, c.entry.expiredAt now = false →
    due c (expiryTicksAt c.entry.expiresAt now))

include hT hnow hagain

theorem onExpired_sweep (h : s.Sweep i due T L) (a : Addr) :
    (onExpired i now s a).Sweep i due T L ∧
      TtlWheel.dueCount ((onExpired i now s a).shards i).wheel ≤
        TtlWheel.dueCount (s.shards i).wheel := by
  unfold onExpired
  split
  · exact ⟨h, le_rfl⟩
  · rename_i n hat
    obtain ⟨hn, rfl⟩ := Shard.mem_of_nodeAt hat
    split
    · split
      · exact ⟨h, le_rfl⟩
      · rename_i m hf
        obtain ⟨hm, hk⟩ := (h.inv.shard i).find_eq.mp hf
        rw [← hk]
        have hlapse := (eraseNode_drift h.inv hm).lapses i
        obtain ⟨-, htick, hcount, -⟩ := hlapse.wheel.keeps h.sched.wf
        exact ⟨⟨(eraseNode_drift h.inv hm).move.inv h.inv, h.sched.lapsed hlapse,
          htick.trans h.count, hlapse.lastEvict.trans h.stamp⟩, hcount⟩
    · rename_i hlive
      rw [Bool.not_eq_true] at hlive
      have hrange := inRange_expiryTicksAt (w := (s.shards i).wheel) (h.count.trans_le hT)
        (h.sched.range n.toCell (mem_map_of_mem hn)) hnow
      refine ⟨h.setWheel (h.sched.wf.insert n.addr hrange)
        ((tickCount_insert _ _ _).trans h.count) fun c hc r hr => ?_, ?_⟩
      · rcases (dueIn_insert h.sched.wf.nodup (expiryTicksAt_pos _ _) hrange).mp hr with
          ⟨haddr, rfl⟩ | ⟨-, hr⟩
        · have hcell : c = n.toCell := (h.inv.shard i).base.eq_of_addr hc (mem_map_of_mem hn) haddr
          rw [hcell]
          exact hagain n.toCell hlive
        · exact h.sched.within c hc r hr
      · rw [setShard_self]
        exact dueCount_insert_le h.sched.wf.nodup n.addr hrange

theorem foldl_onExpired_sweep (h : s.Sweep i due T L) (batch : List Addr) :
    (batch.foldl (onExpired i now) s).Sweep i due T L := by
  induction batch generalizing s with
  | nil => exact h
  | cons a batch ih => exact ih (onExpired_sweep hT hnow hagain h a).1

theorem expireHeap_sweep (fuel : Nat) (h : s.Sweep i due T L)
    (hfuel : TtlWheel.dueCount (s.shards i).wheel ≤ fuel) :
    (expireHeap i now fuel s).Sweep i due T L ∧
      ((expireHeap i now fuel s).shards i).wheel.Quiet := by
  induction fuel generalizing s with
  | zero => exact ⟨h, h.sched.wf.quiet_of_dueCount (Nat.le_zero.mp hfuel)⟩
  | succ fuel ih =>
    unfold expireHeap
    split
    · rename_i hpop
      exact ⟨h, popDue_none h.sched.wf hpop⟩
    · rename_i a wheel hpop
      obtain ⟨-, hwf, htick, hcount, hrest⟩ := popDue_some h.sched.wf hpop
      have hpopped : (s.setShard i { s.shards i with wheel := wheel }).Sweep i due T L :=
        h.setWheel hwf (htick.trans h.count)
          fun c hc r hr => h.sched.within c hc r ((hrest _ r).mp hr).1
      obtain ⟨hfired, hle⟩ := onExpired_sweep hT hnow hagain hpopped a
      rw [setShard_self] at hle
      have hle : _ ≤ dueCount wheel := hle
      exact ih hfired (by omega)

end

theorem tick_sweep (h : s.Sweep i due T L) (hq : (s.shards i).wheel.Quiet) (hT : T < 2 ^ 63)
    (hnow : 0 ≤ now) (hcloser : ∀ c r, due c (r + 1) → due' c r)
    (hagain : ∀ c : Cell, c.entry.expiredAt now = false →
      due' c (expiryTicksAt c.entry.expiresAt now)) :
    (tick i now s).Sweep i due' (T + 1) L ∧ ((tick i now s).shards i).wheel.Quiet := by
  have hcount : (s.shards i).wheel.advance.drainSlot.2.tickCount = T + 1 := by
    show ((s.shards i).wheel.tickCount + 1) % UInt64.size = T + 1
    rw [h.count]
    exact Nat.mod_eq_of_lt (by unfold UInt64.size; omega)
  have hdrained : (s.setShard i { s.shards i with
      wheel := (s.shards i).wheel.advance.drainSlot.2 }).Sweep i due' (T + 1) L :=
    sweep_setShard ((Move.schedule s i _ (s.shards i).lastEvict).inv h.inv)
      ⟨hq.drainSlot, h.sched.range, fun c hc r hr => hcloser c r
        (h.sched.within c hc (r + 1) ((dueIn_drainSlot hq).mp hr).1)⟩ hcount h.stamp
  have hslot := foldl_onExpired_sweep hT hnow hagain hdrained (s.shards i).wheel.advance.drainSlot.1
  exact expireHeap_sweep hT hnow hagain _ hslot countP_le_length

/-! ## 5. A whole sweep -/

variable {B : Nanos} {key : Key}

/-- Due no later than one tick behind the deadline, on the scale of a wheel that has caught up
with `B`. -/
def dueBy (B : Nanos) (c : Cell) (r : Nat) : Prop :=
  c.entry.hasTtl = true → r ≤ 1 ∨ ((r : Int) - 1) * second < c.entry.expiresAt - B

/-- The same after `k` ticks of a sweep at `now`; what fired early was scheduled anew. -/
def dueWithin (B now : Nanos) (k : Nat) (c : Cell) (r : Nat) : Prop :=
  c.entry.hasTtl = true →
    (r + k ≤ 1 ∨ (((r + k : Nat) : Int) - 1) * second < c.entry.expiresAt - B) ∨
      now < c.entry.expiresAt ∧ r ≤ expiryTicksAt c.entry.expiresAt now

theorem dueWithin_closer {now : Nanos} {k : Nat} {c : Cell} {r : Nat}
    (h : dueWithin B now k c (r + 1)) : dueWithin B now (k + 1) c r := by
  intro httl
  rcases h httl with hold | ⟨hlive, hle⟩
  · rw [Nat.add_right_comm, add_assoc] at hold
    exact .inl hold
  · exact .inr ⟨hlive, by omega⟩

theorem dueWithin_again (B now : Nanos) (k : Nat) {c : Cell} (h : c.entry.expiredAt now = false) :
    dueWithin B now k c (expiryTicksAt c.entry.expiresAt now) := by
  intro httl
  unfold expiredAt at h
  rw [httl, Bool.true_and, decide_eq_false_iff_not, Int.not_le] at h
  exact .inr ⟨h, le_rfl⟩

theorem iterate_tick_sweep (n : Nat) (h : s.Sweep i (dueBy B) T L) (hq : (s.shards i).wheel.Quiet)
    (hT : T + n ≤ 2 ^ 63) (hnow : 0 ≤ now) :
    (Nat.iterate (tick i now) n s).Sweep i (dueWithin B now n) (T + n) L ∧
      ((Nat.iterate (tick i now) n s).shards i).wheel.Quiet := by
  induction n with
  | zero =>
    refine ⟨⟨h.inv, ⟨h.sched.wf, h.sched.range, fun c hc r hr httl => ?_⟩, h.count, h.stamp⟩, hq⟩
    exact .inl (h.sched.within c hc r hr httl)
  | succ n ih =>
    obtain ⟨hsweep, hquiet⟩ := ih (by omega)
    rw [iterate_succ_apply']
    exact tick_sweep hsweep hquiet hT hnow (fun _ _ hdue => dueWithin_closer hdue)
      fun c hlive => dueWithin_again B now (n + 1) hlive

theorem evictExpiredShard_waits (hs : s.Inv) (h : (s.shards i).Waits (dueBy B) T L)
    (hT : T + elapsedTicks now L ≤ 2 ^ 63) (hnow : 0 ≤ now) :
    ((evictExpiredShard now s i).shards i).Waits (dueWithin B now (elapsedTicks now L))
      (T + elapsedTicks now L) now := by
  have hstamped : (s.setShard i { s.shards i with lastEvict := now }).Sweep i (dueBy B) T now :=
    sweep_setShard ((Move.schedule s i (s.shards i).wheel now).inv hs)
      ⟨h.sched.wf, h.sched.range, h.sched.within⟩ h.count rfl
  have hquiet : ((s.setShard i { s.shards i with lastEvict := now }).shards i).wheel.Quiet := by
    rw [setShard_self]
    exact h.quiet
  obtain ⟨hsweep, hq⟩ := iterate_tick_sweep (elapsedTicks now L) hstamped hquiet hT hnow
  unfold evictExpiredShard
  rw [h.stamp]
  exact ⟨hsweep.sched, hq, hsweep.count, hsweep.stamp⟩

theorem foldl_each {f : EvictionStore cfg → Fin cfg.numShards → EvictionStore cfg}
    {P Q : Shard → Prop} (hinv : ∀ s i, s.Inv → (f s i).Inv)
    (honly : ∀ s i j, s.Inv → j ≠ i → (f s i).shards j = s.shards j)
    (hstep : ∀ s i, s.Inv → P (s.shards i) → Q ((f s i).shards i))
    {l : List (Fin cfg.numShards)} (hl : l.Nodup) (hs : s.Inv) (h : ∀ i ∈ l, P (s.shards i)) :
    (∀ i ∈ l, Q ((l.foldl f s).shards i)) ∧ ∀ i ∉ l, (l.foldl f s).shards i = s.shards i := by
  induction l generalizing s with
  | nil => exact ⟨fun i hi => absurd hi not_mem_nil, fun _ _ => rfl⟩
  | cons i l ih =>
    obtain ⟨hi, hl⟩ := nodup_cons.mp hl
    have hrest : ∀ j ∈ l, P ((f s i).shards j) := by
      intro j hj
      rw [honly s i j hs fun heq => hi (heq ▸ hj)]
      exact h j (mem_cons_of_mem _ hj)
    obtain ⟨hin, hout⟩ := ih hl (hinv s i hs) hrest
    refine ⟨fun j hj => ?_, fun j hj => ?_⟩
    · rcases mem_cons.mp hj with rfl | hj
      · rw [foldl_cons, hout j hi]
        exact hstep s j hs (h j mem_cons_self)
      · exact hin j hj
    · rw [mem_cons, not_or] at hj
      rw [foldl_cons, hout j hj.2, honly s i j hs hj.1]

theorem evictExpired_waits (hs : s.Inv) (h : ∀ i, (s.shards i).Waits (dueBy B) T L)
    (hT : T + elapsedTicks now L ≤ 2 ^ 63) (hnow : 0 ≤ now) (i : Fin cfg.numShards) :
    ((s.evictExpired now).2.shards i).Waits (dueWithin B now (elapsedTicks now L))
      (T + elapsedTicks now L) now := by
  have hall := foldl_each (P := fun sh => sh.Waits (dueBy B) T L)
    (Q := fun sh => sh.Waits (dueWithin B now (elapsedTicks now L)) (T + elapsedTicks now L) now)
    (fun s i hs => (evictExpiredShard_reaps now s i hs).inv hs)
    (fun s i _ hs hj => (evictExpiredShard_reaps now s i hs).shards_ne hj)
    (fun _ _ hs h => evictExpiredShard_waits hs h hT hnow) (nodup_finRange _) hs fun i _ => h i
  exact hall.1 i (mem_finRange i)

/-! ## 6. Writes -/

theorem write_waits (hs : s.Inv) (h : (s.shards (cfg.shardFor key)).Waits due T L)
    {entry : VersionedEntry} (hrange : entry.expiresAt < lastNanos) :
    ((s.write key entry).2.shards (cfg.shardFor key)).Waits
      (fun c r => c.addr ≠ (s.write key entry).1.addr → due c r) T L := by
  obtain ⟨hinv, -, hentry, rest, hnew, -⟩ := write_spec hs key entry
  obtain ⟨hwheel, hstamp⟩ := write_stamped hs key entry
  refine ⟨⟨hwheel ▸ h.sched.wf, fun c hc => ?_, fun c hc r hr hne => ?_⟩,
    hwheel ▸ h.quiet, hwheel ▸ h.count, hstamp.trans h.stamp⟩
  · by_cases haddr : c.addr = (s.write key entry).1.addr
    · have hself := hnew.mem_iff.mpr (mem_cons_self (a := (s.write key entry).1))
      rwa [(hinv.shard _).base.eq_of_addr hc hself haddr, hentry]
    · exact h.sched.range c ((mem_cells_write hs haddr).mp hc)
  · rw [hwheel] at hr
    exact h.sched.within c ((mem_cells_write hs hne).mp hc) r hr

theorem updateWheelAt_waits (hs : s.Inv) {n : Node} (hn : n ∈ (s.shards i).list)
    (h : (s.shards i).Waits (fun c r => c.addr ≠ n.addr → due c r) T L) (hT : T ≤ 2 ^ 63)
    (hnow : 0 ≤ now)
    (hnew : n.entry.hasTtl = true → due n.toCell (expiryTicksAt n.entry.expiresAt now)) :
    ((s.updateWheelAt i n now).shards i).Waits due T L := by
  have hown : ∀ c ∈ (s.shards i).cells, c.addr = n.addr → c = n.toCell := fun c hc =>
    (hs.shard i).base.eq_of_addr hc (mem_map_of_mem hn)
  have hnodup := h.sched.wf.nodup
  rw [updateWheelAt, setShard_self]
  split
  · rename_i httl
    have hrange := inRange_expiryTicksAt (w := (s.shards i).wheel) (h.count.trans_le hT)
      (h.sched.range n.toCell (mem_map_of_mem hn)) hnow
    have hpos := expiryTicksAt_pos n.entry.expiresAt now
    refine ⟨⟨h.sched.wf.insert n.addr hrange, h.sched.range, fun c hc r hr => ?_⟩,
      ⟨h.sched.wf.insert n.addr hrange, fun a hdue => ?_⟩,
      (tickCount_insert _ _ _).trans h.count, h.stamp⟩
    · rcases (dueIn_insert hnodup hpos hrange).mp hr with ⟨haddr, rfl⟩ | ⟨hne, hr⟩
      · rw [hown c hc haddr]
        exact hnew httl
      · exact h.sched.within c hc r hr hne
    · rcases (dueIn_insert hnodup hpos hrange).mp hdue with ⟨-, hzero⟩ | ⟨-, hdue⟩
      · have hzero : 0 = expiryTicksAt n.entry.expiresAt now := hzero
        omega
      · exact h.quiet.later a hdue
  · refine ⟨⟨h.sched.wf.remove n.addr, h.sched.range, fun c hc r hr => ?_⟩,
      ⟨h.sched.wf.remove n.addr, fun a hdue => ?_⟩, (tickCount_remove _ _).trans h.count, h.stamp⟩
    · obtain ⟨hr, hne⟩ := (dueIn_remove hnodup).mp hr
      exact h.sched.within c hc r hr hne
    · exact h.quiet.later a ((dueIn_remove hnodup).mp hdue).1

theorem putVersionedAt_shards_ne (h : j ≠ cfg.shardFor key) (s : EvictionStore cfg)
    (entry : VersionedEntry) (now : Nanos) (clk : ClockReading) :
    (s.putVersionedAt key entry now clk).2.shards j = s.shards j := by
  cases hrej : s.rejects key entry with
  | true => rw [putVersionedAt_of_rejects hrej]
  | false =>
    obtain ⟨feed, wheel, wal, heq⟩ := putVersionedAt_accepted hrej now clk
    rw [heq]
    exact (setShard_of_ne _ h _).trans ((evictIfNeeded_shards_ne h _).trans (write_shards_ne h))

theorem hasTtl_putEntry (version : UInt64) (value : Bytes) (ttl : Option Nanos) (now : Nanos) :
    (putEntry version value ttl now).hasTtl = ttl.isSome := by
  cases ttl with
  | some d => exact hasTtl_setHasTtl _ true
  | none =>
    refine (hasTtl_setVersion { value := value } version).trans ?_
    simp [hasTtl]

theorem expiresAt_putEntry {version : UInt64} {value : Bytes} {ttl : Option Nanos} {now : Nanos}
    (h : ∀ d, ttl = some d → now + d < lastNanos) :
    (putEntry version value ttl now).expiresAt < lastNanos := by
  cases ttl with
  | some d => exact h d rfl
  | none => exact (by decide : (0 : Int) < lastNanos)

theorem putVersionedAt_waits (hs : s.Inv) (h : ∀ i, (s.shards i).Waits due T L) (hT : T ≤ 2 ^ 63)
    {entry : VersionedEntry} (hrange : entry.expiresAt < lastNanos) (hnow : 0 ≤ now)
    (hnew : entry.hasTtl = true → ∀ c : Cell, c.entry = entry →
      due c (expiryTicksAt entry.expiresAt now))
    (clk : ClockReading) (i : Fin cfg.numShards) :
    ((s.putVersionedAt key entry now clk).2.shards i).Waits due T L := by
  by_cases hi : i = cfg.shardFor key
  · subst hi
    have hinv := (write_spec hs key entry).1
    have hevict := evictIfNeeded_moves hinv (cfg.shardFor key)
    have hlapse : (s.write key entry).2.Lapses
        ((s.write key entry).2.evictIfNeeded (cfg.shardFor key)) :=
          (evictLoop_drifts _ _ hinv).lapses
    have hopen := (write_waits hs (h (cfg.shardFor key)) hrange).lapsed (hlapse _)
    rcases putVersionedAt_cases s key entry now clk with
      ⟨-, heq⟩ | ⟨t, rfl, -, ⟨hgone, heq⟩ | ⟨n, hf, heq⟩⟩
    · rw [heq]
      exact h _
    · -- the node written is gone, so no node left has its address
      rw [heq, shards_noteReplaced]
      exact hopen.mono fun c hc r hdue => hdue (addr_ne_after_write hs hevict hgone hc)
    · obtain ⟨hn, -⟩ := ((hevict.inv hinv).shard _).find_eq.mp hf
      have hentry := find_after_write hs hevict hf
      have hshards := shards_noteReplaced s
        ((s.write key entry).2.evictIfNeeded (cfg.shardFor key)) key
      rw [← toCell_after_write hs hevict hf, ← congrFun hshards] at hopen
      rw [← congrFun hshards] at hn
      rw [heq, shards_writeWal]
      refine updateWheelAt_waits ?_ hn hopen hT hnow fun httl => ?_
      · exact (noteReplaced_inv s (hevict.inv hinv) key).of_shards rfl le_rfl
      · rw [hentry] at httl ⊢
        exact hnew httl n.toCell hentry
  · rw [putVersionedAt_shards_ne hi]
    exact h i

end EvictionStore

end Cinder
