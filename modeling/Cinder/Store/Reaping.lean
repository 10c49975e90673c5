/-
When `evictExpired` reaps an entry, over whole runs.

An entry is scheduled by its remaining time rounded UP to whole seconds, and a sweep makes as
many ticks as whole seconds have passed, rounded DOWN, but one at least. What rounding down
drops is not made up for: the wheel falls behind the clock. `caughtUp` is the time the wheels
have caught up with; a scheduled entry is due no later than one tick behind its deadline on that
scale.
-/
import Cinder.Lib.Transition
import Cinder.Store.Sweep

namespace Cinder

open Transition EvictionStore Option

/-! ## 1. Runs -/

/-- The clock reading an operation schedules or sweeps by. -/
def StoreOp.reading : StoreOp → Option Nanos
  | .put _ _ ttl clk => if ttl.isSome then some clk.now else none
  | .putVersioned _ entry clk => if entry.hasTtl then some clk.now else none
  | .removeVersioned _ _ _ clk => some clk.now
  | .get _ now | .getVersioned _ now | .evictExpired now => some now
  | .remove _ | .setCapacity _ | .setTombstoneGcInterval _ | .restoreFreq _ _ | .mintVersion => none

/-- The store, the latest reading, the last sweep, how far the wheels have caught up with the
clock, and the ticks they have made. -/
structure SweptStore (cfg : StoreConfig) where
  store : EvictionStore cfg
  clock : Nanos
  sweptAt : Nanos
  caughtUp : Nanos
  ticks : Nat := 0

namespace SweptStore

variable {cfg : StoreConfig} {s s' : SweptStore cfg} {op : StoreOp} {now : Nanos}

def start (cfg : StoreConfig) (capacityBytes : Nat) (now : Nanos) : SweptStore cfg where
  store := .start cfg capacityBytes now
  clock := now
  sweptAt := now
  caughtUp := now

variable (s)

def sweepTicks (now : Nanos) : Nat := elapsedTicks now s.sweptAt

def step (op : StoreOp) : Option (SweptStore cfg) :=
  some (match op with
    | .evictExpired now =>
      { store := s.store.apply op
        clock := now
        sweptAt := now
        caughtUp := min now (s.caughtUp + s.sweepTicks now * second)
        ticks := s.ticks + s.sweepTicks now }
    | op => { s with store := s.store.apply op, clock := op.reading.getD s.clock })

/-- The deadline of the entry an operation writes is in the range of the clock. -/
def InTime : StoreOp → Prop
  | .put _ _ ttl clk => ∀ d, ttl = some d → clk.now + d < lastNanos
  | .putVersioned _ entry _ => entry.expiresAt < lastNanos
  | .removeVersioned _ _ _ clk => clk.now + s.store.tombstoneGc < lastNanos
  | _ => True

/-- **A step that keeps the wheels close to the clock**: readings do not go back, times are in
range, and a sweep comes at most one second behind what its ticks catch up with. -/
structure Paced (op : StoreOp) : Prop where
  forward : ∀ t, op.reading = some t → 0 ≤ t ∧ s.clock ≤ t
  range : s.InTime op
  sweep : ∀ now, op = .evictExpired now →
    now ≤ s.caughtUp + (s.sweepTicks now + 1) * second ∧ s.ticks + s.sweepTicks now ≤ 2 ^ 63

/-! ## 2. The invariant -/

structure Inv : Prop where
  store : s.store.Inv
  timed : s.store.AllTimed
  waits : ∀ i, (s.store.shards i).Waits (EvictionStore.dueBy s.caughtUp) s.ticks s.sweptAt
  ticks : s.ticks ≤ 2 ^ 63
  behind : s.caughtUp ≤ s.sweptAt
  ahead : s.sweptAt ≤ s.clock

variable {s}

theorem dueBy_written {B : Int} {now : Int} (hB : B ≤ now) (c : Cell) :
    EvictionStore.dueBy B c (expiryTicksAt c.entry.expiresAt now) := by
  intro _
  by_cases hlive : now < c.entry.expiresAt
  · have hlt := expiryTicksAt_lt hlive
    refine .inr (Int.lt_of_lt_of_le hlt ?_)
    exact Int.sub_le_sub_left hB _
  · refine .inl ?_
    have hleft : c.entry.expiresAt - now ≤ 0 := Int.sub_nonpos_of_le (Int.not_lt.mp hlive)
    unfold expiryTicksAt
    rw [if_pos hleft]

theorem dueBy_of_dueWithin {B B' now : Int} {k : Nat} {c : Cell} {r : Nat}
    (hB : B' ≤ B + k * second) (hB' : B' ≤ now) (hk : 1 ≤ k)
    (h : EvictionStore.dueWithin B now k c r) : EvictionStore.dueBy B' c r := by
  have hB : B' ≤ B + (k : Int) * 1000000000 := hB
  intro httl
  rcases h httl with (hsmall | hlt) | ⟨hlive, hle⟩
  · exact .inl (by omega)
  · refine .inr ?_
    push_cast at hlt
    have hlt : ((r : Int) + k - 1) * 1000000000 < c.entry.expiresAt - B := hlt
    show ((r : Int) - 1) * 1000000000 < c.entry.expiresAt - B'
    omega
  · have hlt := expiryTicksAt_lt hlive
    refine .inr ?_
    have hlt : ((expiryTicksAt c.entry.expiresAt now : Int) - 1) * 1000000000 <
      c.entry.expiresAt - now := hlt
    show ((r : Int) - 1) * 1000000000 < c.entry.expiresAt - B'
    omega

theorem reaped_of_dueWithin {B now : Int} {k : Nat} {c : Cell} {r : Nat} (hr : 1 ≤ r) (hk : 1 ≤ k)
    (hpace : now ≤ B + (k + 1) * second) (httl : c.entry.hasTtl = true)
    (h : EvictionStore.dueWithin B now k c r) : now < c.entry.expiresAt + second := by
  have hpace : now ≤ B + ((k : Int) + 1) * 1000000000 := hpace
  show now < c.entry.expiresAt + 1000000000
  rcases h httl with (hsmall | hlt) | ⟨hlive, -⟩
  · omega
  · push_cast at hlt
    have hlt : ((r : Int) + k - 1) * 1000000000 < c.entry.expiresAt - B := hlt
    omega
  · have hlive : now < c.entry.expiresAt := hlive
    omega

theorem inv_start (cfg : StoreConfig) (capacityBytes : Nat) (now : Nanos) :
    (start cfg capacityBytes now).Inv := by
  have hnone : ∀ a r, ¬ ({} : TtlWheel Addr).DueIn a r := by
    intro a r hdue
    have hmem := hdue.mem_scheduled
    rw [TtlWheel.scheduled_empty] at hmem
    cases hmem
  have hwf : ({} : TtlWheel Addr).Wf := by
    refine ⟨?_, fun j hj0 hj => absurd hj (Nat.not_lt_zero _),
      fun e he => absurd he List.not_mem_nil⟩
    rw [TtlWheel.scheduled_empty]
    exact List.nodup_nil
  obtain ⟨hinv, -, htimed⟩ := @after_keeps cfg capacityBytes now []
  exact ⟨hinv, htimed, fun i => ⟨⟨hwf, fun c hc => absurd hc List.not_mem_nil,
    fun c hc => absurd hc List.not_mem_nil⟩, ⟨hwf, fun a => hnone a 0⟩, rfl, rfl⟩,
    Nat.zero_le _, le_rfl, le_rfl⟩

theorem Inv.lapses (h : s.Inv) {t : EvictionStore cfg} (hinv : t.Inv) (htimed : t.AllTimed)
    (hl : s.store.Lapses t) {clock : Nanos} (hclock : s.clock ≤ clock) :
    Inv { s with store := t, clock := clock } :=
  ⟨hinv, htimed, fun i => (h.waits i).lapsed (hl i), h.ticks, h.behind, h.ahead.trans hclock⟩

theorem Inv.write (h : s.Inv) {t : EvictionStore cfg} (ht : t.shards = s.store.shards)
    (hnext : t.nextAddr = s.store.nextAddr) {key : Key} {entry : VersionedEntry}
    (hrange : entry.expiresAt < lastNanos) {now : Nanos} (hnow : 0 ≤ now)
    (hahead : entry.hasTtl = true → s.clock ≤ now) (clk : ClockReading) :
    ∀ i, ((t.putVersionedAt key entry now clk).2.shards i).Waits (EvictionStore.dueBy s.caughtUp)
      s.ticks s.sweptAt := by
  have hinv : t.Inv := h.store.of_shards ht hnext.ge
  refine putVersionedAt_waits hinv (fun i => ht ▸ h.waits i) h.ticks hrange hnow
    (fun httl c hc => ?_) clk
  have hB : s.caughtUp ≤ now := (h.behind.trans h.ahead).trans (hahead httl)
  rw [← hc]
  exact dueBy_written hB c

theorem clock_le_getD (hp : s.Paced op) : s.clock ≤ op.reading.getD s.clock := by
  cases hr : op.reading with
  | none => exact le_rfl
  | some t => exact (hp.forward t hr).2

theorem Paced.readings (hp : s.Paced op) (entry : VersionedEntry) {clk : ClockReading}
    (hread : entry.hasTtl = true → op.reading = some clk.now) :
    0 ≤ (if entry.hasTtl then clk.now else 0) ∧
      (entry.hasTtl = true → s.clock ≤ (if entry.hasTtl then clk.now else 0)) := by
  cases httl : entry.hasTtl with
  | true =>
    obtain ⟨hnow, hahead⟩ := hp.forward clk.now (hread httl)
    exact ⟨hnow, fun _ => hahead⟩
  | false => exact ⟨le_rfl, fun h => by cases h⟩

theorem Inv.step (h : s.Inv) (hp : s.Paced op) (hs : s.step op = some s') : s'.Inv := by
  have hclock := clock_le_getD hp
  have hinv := apply_inv h.store op
  have htimed := apply_timed h.store h.timed op
  have hdrifts : op.drifts = true → s.store.Lapses (s.store.apply op) := fun hop =>
    (EvictionStore.Lapses.of_shards (shards_configured s.store op)).trans
      (apply_drifts h.store hop).lapses
  cases hs
  cases op with
  | put key value ttl clk =>
    refine ⟨hinv, htimed, ?_, h.ticks, h.behind, h.ahead.trans hclock⟩
    have hput := hp.readings (putEntry s.store.nextVersion value ttl clk.now)
      fun httl => if_pos (by rwa [hasTtl_putEntry] at httl)
    have hrange : (putEntry s.store.nextVersion value ttl clk.now).expiresAt <
        lastNanos := expiresAt_putEntry hp.range
    exact h.write (t := s.store.mintVersion.2) rfl rfl hrange hput.1 hput.2 clk
  | putVersioned key entry clk =>
    refine ⟨hinv, htimed, ?_, h.ticks, h.behind, h.ahead.trans hclock⟩
    have hput := hp.readings entry fun httl => if_pos httl
    exact h.write rfl rfl hp.range hput.1 hput.2 clk
  | removeVersioned key version writer clk =>
    refine ⟨hinv, htimed, ?_, h.ticks, h.behind, h.ahead.trans hclock⟩
    obtain ⟨hnow, hahead⟩ := hp.forward clk.now rfl
    have hrange : (tombstone version writer
        (clk.now + s.store.tombstoneGc)).expiresAt < lastNanos := hp.range
    exact h.write rfl rfl hrange hnow (fun _ => hahead) clk
  | evictExpired now =>
    obtain ⟨hnow, hahead⟩ := hp.forward now rfl
    obtain ⟨hpace, hticks⟩ := hp.sweep now rfl
    refine ⟨hinv, htimed, fun i => ?_, hticks, min_le_left _ _, le_rfl⟩
    refine (evictExpired_waits h.store h.waits hticks hnow i).mono fun c _ r hdue => ?_
    exact dueBy_of_dueWithin (min_le_right _ _) (min_le_left _ _) (elapsedTicks_pos _ _) hdue
  | _ => exact h.lapses hinv htimed (hdrifts rfl) hclock

/-! ## 3. Entries are reaped on time -/

/-- Nothing whose deadline is a second past is left. -/
def Reaped (s : EvictionStore cfg) (now : Nanos) : Prop :=
  ∀ i, ∀ c ∈ (s.shards i).cells, c.entry.hasTtl = true → now < c.entry.expiresAt + second

/-- **Entries are reaped on time** by every sweep of a run that keeps its wheels close to the
clock, and no sweep of any history reaps an entry before its deadline. -/
theorem reaped_on_time (cfg : StoreConfig) (capacityBytes : Nat) (begun : Nanos) :
    (∀ s, Reaches step Paced (start cfg capacityBytes begun) s →
      ∀ now, s.Paced (.evictExpired now) → Reaped (s.store.evictExpired now).2 now) ∧
    ∀ ops now i, ∀ c ∈ ((EvictionStore.after cfg capacityBytes begun ops).shards i).cells,
      c.entry.expiredAt now = false →
        c ∈ (((EvictionStore.after cfg capacityBytes begun ops).evictExpired now).2.shards
          i).cells := by
  refine ⟨fun s hreach now hp i c hc httl => ?_, fun ops now i c hc hlive => ?_⟩
  · have h : s.Inv := hreach.invariant (inv_start cfg capacityBytes begun)
      fun _ _ _ hi hp hs => hi.step hp hs
    obtain ⟨hpace, hticks⟩ := hp.sweep now rfl
    have hwaits := evictExpired_waits h.store h.waits hticks (hp.forward now rfl).1 i
    -- the entry is scheduled, so it is due at some time
    have hsched : c.addr ∈ [] ++ ((s.store.evictExpired now).2.shards i).wheel.scheduled :=
      ((evictExpired_timed h.store h.timed now i).mem c.addr).mpr ⟨c, hc, rfl, httl⟩
    obtain ⟨r, hr⟩ := hwaits.sched.wf.mem_scheduled_iff.mp hsched
    have hpos : 1 ≤ r := pos_of_ne_zero fun hzero => hwaits.quiet.later c.addr (hzero ▸ hr)
    exact reaped_of_dueWithin hpos (elapsedTicks_pos _ _) hpace httl (hwaits.sched.within c hc r hr)
  · have hs : (after cfg capacityBytes begun ops).Inv := (after_keeps capacityBytes begun ops).1
    exact ((evictExpired_sweeps hs now).spares hs).kept i c hc hlive

theorem paced_sweep (hnow : 0 ≤ now ∧ s.clock ≤ now)
    (hpace : now ≤ s.caughtUp + (s.sweepTicks now + 1) * second)
    (hticks : s.ticks + s.sweepTicks now ≤ 2 ^ 63) : s.Paced (.evictExpired now) where
  forward _ ht := some.inj ht ▸ hnow
  range := trivial
  sweep _ ht := StoreOp.evictExpired.inj ht ▸ ⟨hpace, hticks⟩

def oneEntry : SweptStore (oneShardStore .lru) :=
  { start (oneShardStore .lru) 1000 0 with
    store := (EvictionStore.start (oneShardStore .lru) 1000 0).apply
      (.put [1] [7] (some 2700000000) {}) }

def sweptOnce (now : Nanos) : SweptStore (oneShardStore .lru) :=
  { store := oneEntry.store.apply (.evictExpired now)
    clock := now
    sweptAt := now
    caughtUp := min now (oneEntry.caughtUp + oneEntry.sweepTicks now * second)
    ticks := oneEntry.ticks + oneEntry.sweepTicks now }

/-- Swept after one second and again 2700 ms later: the second sweep reaps the entry. -/
theorem reaped_on_time_steady :
    (∃ s, Reaches step Paced (start (oneShardStore .lru) 1000 0) s ∧
      s.Paced (.evictExpired 3700000000) ∧ s.store.totalEntries = 1 ∧
      Reaped (s.store.evictExpired 3700000000).2 3700000000) := by
  have hput : Reaches step Paced (start (oneShardStore .lru) 1000 0) oneEntry := by
    refine Reaches.refl.tail (e := .put [1] [7] (some 2700000000) {}) ⟨fun t ht => ?_, ?_, ?_⟩ rfl
    · obtain rfl : (0 : Int) = t := some.inj ht
      exact ⟨le_rfl, le_rfl⟩
    · intro d hd
      cases hd
      decide
    · intro now hnow
      cases hnow
  have hsweep : Reaches step Paced (start (oneShardStore .lru) 1000 0) (sweptOnce 1000000000) :=
    hput.tail (e := .evictExpired 1000000000) (paced_sweep (by decide) (by decide) (by decide)) rfl
  have hp : (sweptOnce 1000000000).Paced (.evictExpired 3700000000) :=
    paced_sweep (by decide) (by decide) (by decide)
  exact ⟨_, hsweep, hp, by decide +kernel,
    (reaped_on_time (oneShardStore .lru) 1000 0).1 _ hsweep _ hp⟩

/-- Readings that do not go back, and times in range. -/
def Forward (s : SweptStore cfg) (op : StoreOp) : Prop :=
  (∀ t, op.reading = some t → 0 ≤ t ∧ s.clock ≤ t) ∧ s.InTime op

/-- **Sweeps every 1900 ms fall behind**: the entry is past its deadline by 1100 ms and the sweep
leaves it. -/
theorem slow_sweeps_reap_late :
    ∃ s, Reaches step Forward (start (oneShardStore .lru) 1000 0) s ∧
      s.Forward (.evictExpired 3800000000) ∧
      ¬ Reaped (s.store.evictExpired 3800000000).2 3800000000 := by
  have hforward : ∀ (s : SweptStore (oneShardStore .lru)) (now : Nanos), 0 ≤ now ∧ s.clock ≤ now →
      s.Forward (.evictExpired now) := fun _ _ hnow => ⟨fun t ht => some.inj ht ▸ hnow, trivial⟩
  have hput : Reaches step Forward (start (oneShardStore .lru) 1000 0) oneEntry := by
    refine Reaches.refl.tail (e := .put [1] [7] (some 2700000000) {}) ⟨fun t ht => ?_, ?_⟩ rfl
    · obtain rfl : (0 : Int) = t := some.inj ht
      exact ⟨le_rfl, le_rfl⟩
    · intro d hd
      cases hd
      decide
  have hsweep : Reaches step Forward (start (oneShardStore .lru) 1000 0) (sweptOnce 1900000000) :=
    hput.tail (e := .evictExpired 1900000000) (hforward _ _ (by decide)) rfl
  have hlate : ∃ c ∈ (((sweptOnce 1900000000).store.evictExpired 3800000000).2.shards
      ⟨0, Nat.one_pos⟩).cells, c.entry.hasTtl = true ∧
        c.entry.expiresAt + second ≤ 3800000000 := by decide +kernel
  obtain ⟨c, hc, httl, hle⟩ := hlate
  exact ⟨_, hsweep, hforward _ _ (by decide), fun hreaped =>
    absurd (hreaped _ c hc httl) (Int.not_lt.mpr hle)⟩

end SweptStore

end Cinder
