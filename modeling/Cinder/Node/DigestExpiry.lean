/-
Incremental digests and expiry: the accumulators of anti-entropy against
`computeDigest` along a sequential history of store operations and full rehashes
(`src/node/anti_entropy/core.cpp`, `liveEntries` in `eviction_store_base.hpp`).

The scan of a rehash passes over an entry as soon as its time has come, the mutation feed
toggles its hash when it is reaped. So an entry that is expired and still resident when a rehash
scans is taken out twice.
-/
import Cinder.Node.Digest
import Cinder.Store.Capacity

namespace Cinder

open Transition XorSum List UInt64

/-! ## 1. Histories without capacity eviction -/

namespace Shard

variable {p : Policy} {sh : Shard} {slice fuel : Nat}

theorem fitsIn_of_no_victims (h : sh.Wf p) (hfuel : sh.list.length ≤ fuel)
    (hnone : (evictDown p slice fuel sh).1 = []) : sh.FitsIn slice := by
  cases fuel with
  | zero =>
    refine .inr ?_
    rw [eq_nil_of_length_eq_zero (Nat.le_zero.mp hfuel)]
    exact forall_mem_nil _
  | succ fuel =>
    by_cases hover : slice < sh.currentBytes
    · cases he : sh.evictOne p with
      | none => exact .inr (evictOne_eq_none h he)
      | some r =>
        rw [evictDown_succ fuel hover he] at hnone
        cases hnone
    · exact .inl (not_lt.mp hover)

end Shard

namespace EvictionStore

variable {cfg : StoreConfig} {s s' : EvictionStore cfg}

def NoVictims (s : EvictionStore cfg) (op : StoreOp) : Prop := ∀ i, s.evictedBy i op = []

instance (s : EvictionStore cfg) (op : StoreOp) : Decidable (s.NoVictims op) :=
  inferInstanceAs (Decidable (∀ i, s.evictedBy i op = []))

theorem kept_of_writeVictims (hs : s.Inv) {key : Key} {entry : VersionedEntry}
    (h : s.writeVictims key entry (cfg.shardFor key) = []) : s.Kept key entry := by
  cases hrej : s.rejects key entry with
  | true => exact .inl hrej
  | false =>
    obtain ⟨hinv, -, hentry, rest, hnew, -⟩ := write_spec hs key entry
    obtain ⟨hbytes, hslice, -⟩ := write_shard hs key entry
    rw [writeVictims, if_pos ⟨hrej, rfl⟩] at h
    rcases Shard.fitsIn_of_no_victims (hinv.shard _) le_rfl h with hfits | htomb
    · rw [hbytes, hslice] at hfits
      exact .inr (.inr (hfits.trans (Nat.le_add_right _ _)))
    · obtain ⟨n, hn, hcell⟩ := Shard.mem_cells.mp (hnew.mem_iff.mpr mem_cons_self)
      have hsame : n.entry = entry := (congrArg Cell.entry hcell).trans hentry
      exact .inr (.inl (hsame ▸ htomb n hn))

theorem kept_of_no_victims (hs : s.Inv) {op : StoreOp} (h : s.NoVictims op) : s.KeptOp op := by
  cases op with
  | put key value ttl clk => exact kept_of_writeVictims hs.mint (h (cfg.shardFor key))
  | putVersioned key entry clk => exact kept_of_writeVictims hs (h (cfg.shardFor key))
  | _ => exact trivial

/-! ## 2. The feed only grows -/

theorem Moves.feed_append (h : Moves s s') : ∃ notes, s'.feed = s.feed ++ notes := by
  induction h with
  | refl => exact ⟨[], (append_nil _).symm⟩
  | tail _ hstep ih =>
    obtain ⟨notes, ih⟩ := ih
    cases hstep with
    | erase i n sh resident cells policy frame =>
      exact ⟨notes ++ [⟨identityOf n.key n.entry, true⟩], by
        rw [← append_assoc, ← ih]
        rfl⟩
    | _ => exact ⟨notes, ih⟩

theorem noteReplaced_feed (s t : EvictionStore cfg) (key : Key) :
    ∃ notes, (s.noteReplaced t key).feed = t.feed ++ notes := by
  unfold noteReplaced
  split
  · exact ⟨_, rfl⟩
  · exact ⟨[], (append_nil _).symm⟩

theorem putVersionedAt_feed (hs : s.Inv) (key : Key) (entry : VersionedEntry) (now : Nanos)
    (clk : ClockReading) :
    ∃ notes, (s.putVersionedAt key entry now clk).2.feed = s.feed ++ notes := by
  obtain ⟨evicted, hevicted⟩ :=
    (evictIfNeeded_moves (write_spec hs key entry).1 (cfg.shardFor key)).feed_append
  obtain ⟨replaced, hreplaced⟩ := noteReplaced_feed s
    ((s.write key entry).2.evictIfNeeded (cfg.shardFor key)) key
  rw [hevicted, (write_fields s key entry).2.1, append_assoc] at hreplaced
  rcases putVersionedAt_cases s key entry now clk with
    ⟨-, heq⟩ | ⟨t, rfl, -, ⟨-, heq⟩ | ⟨n, -, heq⟩⟩
  · exact ⟨[], by rw [heq, append_nil]⟩
  · exact ⟨_, by rw [heq, hreplaced]⟩
  · obtain ⟨notes, hnotes⟩ := (updateWheelAt_writeWal_moves
      ((s.noteReplaced ((s.write key entry).2.evictIfNeeded (cfg.shardFor key)) key).noteAdded
        (identityOf key n.entry)) (cfg.shardFor key) n now key clk).feed_append
    refine ⟨evicted ++ replaced ++ [⟨identityOf key n.entry, false⟩] ++ notes, ?_⟩
    rw [heq, hnotes]
    show (s.noteReplaced _ key).feed ++ _ ++ notes = _
    rw [hreplaced]
    simp only [append_assoc]

theorem apply_feed (hs : s.Inv) (op : StoreOp) : ∃ notes, (s.apply op).feed = s.feed ++ notes := by
  cases op with
  | put key value ttl clk => exact putVersionedAt_feed hs.mint _ _ _ _
  | putVersioned | removeVersioned => exact putVersionedAt_feed hs _ _ _ _
  | _ => exact Moves.feed_append (apply_moves hs rfl)

/-! ## 3. Live and expired residents -/

variable (s)

def nodes : List Node := (List.finRange cfg.numShards).flatMap fun i => (s.shards i).list

/-- What has not expired, tombstones included. -/
def liveEntries (snapTime : Nanos) : List (Key × VersionedEntry) :=
  (s.nodes.filter fun n => !n.entry.expiredAt snapTime).map fun n => (n.key, n.entry)

def expiredResidents (snapTime : Nanos) : List Identity :=
  (s.nodes.filter fun n => n.entry.expiredAt snapTime).map fun n => identityOf n.key n.entry

theorem residents_eq : s.residents = s.nodes.map fun n => identityOf n.key n.entry := by
  rw [nodes, map_flatMap]
  simp only [residents, idsOf, Shard.cells, map_map]
  rfl

def NoneExpired (now : Nanos) : Prop := s.expiredResidents now = []

instance (now : Nanos) : Decidable (s.NoneExpired now) :=
  inferInstanceAs (Decidable (s.expiredResidents now = []))

variable {s}

section Digest

variable (xxh3 : Bytes → UInt64) (numBuckets : Nat)

def computeDigest (s : EvictionStore cfg) (now : Nanos) (b : Nat) : UInt64 :=
  xorSum ((s.liveEntries now).map fun e => hashIn xxh3 numBuckets b (identityOf e.1 e.2))

variable {xxh3 numBuckets}

theorem computeDigest_eq (s : EvictionStore cfg) (now : Nanos) (b : Nat) :
    s.computeDigest xxh3 numBuckets now b =
      xorSum (s.residents.map (hashIn xxh3 numBuckets b)) ^^^
        xorSum ((s.expiredResidents now).map (hashIn xxh3 numBuckets b)) := by
  have hparts := xorSum_filter (fun n : Node => hashIn xxh3 numBuckets b (identityOf n.key n.entry))
    (fun n => n.entry.expiredAt now) s.nodes
  rw [computeDigest, liveEntries, expiredResidents, residents_eq, map_map, map_map, map_map]
  simp only [Function.comp_def]
  rw [hparts, UInt64.xor_comm, ← UInt64.xor_assoc, UInt64.xor_self, UInt64.zero_xor]

end Digest

end EvictionStore

/-! ## 4. A store with its accumulators -/

/-- The store, the accumulators its sink feeds, and (history) the entries that were resident and
expired when the last rehash scanned. -/
structure DigestedStore (cfg : StoreConfig) where
  store : EvictionStore cfg
  acc : Accumulators
  missed : List Identity := []

inductive DigestEvent where
  | store (op : StoreOp)
  | fullRehash (now : Nanos)

/-- `fullRehash` with no writer in between: the log it opens stays empty. -/
def Accumulators.fullRehash (acc : Accumulators) (scan : Nat → UInt64) : Accumulators :=
  let capture : Accumulators := { acc with capturing := true, pending := [] }
  { xor := fun b => scan b ^^^ pendingIn capture.pending b, capturing := false, pending := [] }

namespace DigestedStore

section Runs

variable {cfg : StoreConfig} (xxh3 : Bytes → UInt64) (numBuckets : Nat)

def start (cfg : StoreConfig) (capacityBytes : Nat) (now : Nanos) : DigestedStore cfg where
  store := .start cfg capacityBytes now
  acc := ⟨fun _ => 0, false, []⟩

variable (s : DigestedStore cfg)

def step : DigestEvent → Option (DigestedStore cfg)
  | .store op =>
    let t := s.store.apply op
    let notes := t.feed.drop s.store.feed.length
    some { s with
      store := t
      acc := notes.foldl (Accumulators.onStoreMutation xxh3 numBuckets) s.acc }
  | .fullRehash now =>
    some { s with
      acc := s.acc.fullRehash (s.store.computeDigest xxh3 numBuckets now)
      missed := s.store.expiredResidents now }

def Uncrowded : DigestEvent → Prop
  | .store op => s.store.NoVictims op
  | .fullRehash _ => True

instance (ev : DigestEvent) : Decidable (s.Uncrowded ev) :=
  match ev with
  | .store op => inferInstanceAs (Decidable (s.store.NoVictims op))
  | .fullRehash _ => isTrue trivial

/-- What the last rehash passed over, by bucket. -/
def missedIn (b : Nat) : UInt64 := xorSum (s.missed.map (hashIn xxh3 numBuckets b))

/-- **The invariant.** -/
structure Drifted : Prop where
  feed : s.store.FeedInv
  idle : s.acc.capturing = false
  xor : ∀ b, s.acc.xor b = xorSum (s.store.residents.map (hashIn xxh3 numBuckets b)) ^^^
    s.missedIn xxh3 numBuckets b

variable {xxh3 numBuckets} {s s' : DigestedStore cfg}

theorem foldl_capturing (acc : Accumulators) (notes : List Mutation) :
    (notes.foldl (Accumulators.onStoreMutation xxh3 numBuckets) acc).capturing = acc.capturing := by
  induction notes generalizing acc with
  | nil => rfl
  | cons m notes ih => exact (ih _).trans (onStoreMutation_capturing acc m)

theorem drifted_start (cfg : StoreConfig) (capacityBytes : Nat) (now : Nanos) :
    (start cfg capacityBytes now).Drifted xxh3 numBuckets where
  feed := EvictionStore.feedInv_start cfg capacityBytes now
  idle := rfl
  xor := fun b => by
    have hfeed := EvictionStore.xorSum_feed
      (EvictionStore.feedInv_start cfg capacityBytes now).balanced (hashIn xxh3 numBuckets b)
    show 0 = xorSum ((EvictionStore.start cfg capacityBytes now).residents.map _) ^^^ 0
    rw [UInt64.xor_zero, ← hfeed]
    rfl

theorem drifted_step {ev : DigestEvent} (h : s.Drifted xxh3 numBuckets) (hok : s.Uncrowded ev)
    (hstep : s.step xxh3 numBuckets ev = some s') : s'.Drifted xxh3 numBuckets := by
  cases ev with
  | store op =>
    cases hstep
    have hkept := EvictionStore.kept_of_no_victims h.feed.store hok
    have hnext : (s.store.apply op).FeedInv := EvictionStore.feedInv_step h.feed hkept rfl
    obtain ⟨notes, hnotes⟩ := EvictionStore.apply_feed h.feed.store op
    have hdrop : (s.store.apply op).feed.drop s.store.feed.length = notes := by
      rw [hnotes, drop_left]
    refine ⟨hnext, ?_, fun b => ?_⟩
    · rw [foldl_capturing]
      exact h.idle
    · have hbefore := EvictionStore.xorSum_feed h.feed.balanced (hashIn xxh3 numBuckets b)
      have hafter := EvictionStore.xorSum_feed hnext.balanced (hashIn xxh3 numBuckets b)
      rw [hnotes, map_append, xorSum_append, hbefore] at hafter
      show (List.foldl _ s.acc ((s.store.apply op).feed.drop _)).xor b =
        _ ^^^ s.missedIn xxh3 numBuckets b
      rw [hdrop, foldl_onStoreMutation_xor h.idle, h.xor b, ← hafter]
      grind
  | fullRehash now =>
    cases hstep
    refine ⟨h.feed, rfl, fun b => ?_⟩
    exact (UInt64.xor_zero).trans (EvictionStore.computeDigest_eq s.store now b)

theorem xor_eq (h : s.Drifted xxh3 numBuckets) {now : Nanos} (hnone : s.store.NoneExpired now)
    (b : Nat) :
    s.acc.xor b = s.store.computeDigest xxh3 numBuckets now b ^^^ s.missedIn xxh3 numBuckets b := by
  rw [h.xor b, EvictionStore.computeDigest_eq, hnone]
  simp

end Runs

end DigestedStore

section Exact

variable {xxh3 : Bytes → UInt64} {numBuckets : Nat} {cfg cfg' : StoreConfig}

/-- **The accumulators equal `computeDigest`, at a moment when no expired entry is resident, if and
only if, bucket by bucket, the hashes of the entries that were resident and expired at the last
rehash cancel**; and those of two nodes with the same live entries agree if and only if these hashes
do. -/
theorem digest_exact_iff (capacityBytes : Nat) (opened : Nanos) (s : DigestedStore cfg)
    (h : Reaches (DigestedStore.step xxh3 numBuckets) DigestedStore.Uncrowded
      (DigestedStore.start cfg capacityBytes opened) s) (now : Nanos)
    (hnone : s.store.NoneExpired now) :
    ((∀ b, s.acc.xor b = s.store.computeDigest xxh3 numBuckets now b) ↔
      ∀ b, s.missedIn xxh3 numBuckets b = 0) ∧
    ∀ (capacityBytes' : Nat) (opened' : Nanos) (s' : DigestedStore cfg'),
      Reaches (DigestedStore.step xxh3 numBuckets) DigestedStore.Uncrowded
        (DigestedStore.start cfg' capacityBytes' opened') s' →
      ∀ now', s'.store.NoneExpired now' →
        (s.store.liveEntries now).Perm (s'.store.liveEntries now') →
        ((∀ b, s.acc.xor b = s'.acc.xor b) ↔
          ∀ b, s.missedIn xxh3 numBuckets b = s'.missedIn xxh3 numBuckets b) := by
  have hinv : s.Drifted xxh3 numBuckets := h.invariant
    (DigestedStore.drifted_start cfg capacityBytes opened)
    fun _ _ _ hi hok hstep => DigestedStore.drifted_step hi hok hstep
  constructor
  · refine forall_congr' fun b => ?_
    rw [DigestedStore.xor_eq hinv hnone b]
    have hinj := xor_right_inj (a := s.missedIn xxh3 numBuckets b) (b := 0)
      (s.store.computeDigest xxh3 numBuckets now b)
    rwa [UInt64.xor_zero] at hinj
  · intro capacityBytes' opened' s' h' now' hnone' hlive
    have hinv' : s'.Drifted xxh3 numBuckets := h'.invariant
      (DigestedStore.drifted_start cfg' capacityBytes' opened')
      fun _ _ _ hi hok hstep => DigestedStore.drifted_step hi hok hstep
    refine forall_congr' fun b => ?_
    have hsame : s.store.computeDigest xxh3 numBuckets now b =
        s'.store.computeDigest xxh3 numBuckets now' b := xorSum_perm (hlive.map _)
    rw [DigestedStore.xor_eq hinv hnone b, DigestedStore.xor_eq hinv' hnone' b, hsame]
    exact xor_right_inj _

end Exact

/-- An entry that expires after the rehash and is reaped by a read. -/
def reapedLater : List DigestEvent :=
  [.store (.put [1] [7] (some 10) {}), .fullRehash 5, .store (.get [1] 20)]

def reapedAfterScan : List DigestEvent :=
  [.store (.put [1] [7] (some 10) {}), .fullRehash 15, .store (.get [1] 20)]

theorem digest_exact_when_reaped_later :
    ∃ s, Reaches (DigestedStore.step firstByte 4) DigestedStore.Uncrowded
        (DigestedStore.start (oneShardStore .lru) 1000 0) s ∧ s.store.NoneExpired 20 ∧
      s.missed = [] ∧ ∀ b, s.acc.xor b = s.store.computeDigest firstByte 4 20 b := by
  obtain ⟨s, hreach, hp⟩ := exists_reaches_of_exec (DigestedStore.step firstByte 4)
    DigestedStore.Uncrowded (DigestedStore.start (oneShardStore .lru) 1000 0) reapedLater
    (fun s => decide (s.store.NoneExpired 20) && s.missed.isEmpty) (by decide +kernel)
  simp only [Bool.and_eq_true, decide_eq_true_eq, List.isEmpty_iff] at hp
  have hexact := @digest_exact_iff firstByte 4 (oneShardStore .lru) (oneShardStore .lru) 1000 0 s
    hreach 20 hp.1
  refine ⟨s, hreach, hp.1, hp.2, hexact.1.mpr fun b => ?_⟩
  rw [DigestedStore.missedIn, hp.2]
  rfl

/-- The rehash passes over the expired entry, and the read that reaps it toggles its hash back in:
an empty store with an accumulator that is not zero. -/
theorem reaped_entry_stays_in_digest :
    ∃ s, Reaches (DigestedStore.step firstByte 4) DigestedStore.Uncrowded
        (DigestedStore.start (oneShardStore .lru) 1000 0) s ∧ s.store.NoneExpired 20 ∧
      s.acc.xor 1 ≠ s.store.computeDigest firstByte 4 20 1 ∧
      s.store.liveEntries 20 =
        (DigestedStore.start (oneShardStore .lru) 1000 0).store.liveEntries 20 ∧
      s.acc.xor 1 ≠ (DigestedStore.start (oneShardStore .lru) 1000 0).acc.xor 1 := by
  obtain ⟨s, hreach, hp⟩ := exists_reaches_of_exec (DigestedStore.step firstByte 4)
    DigestedStore.Uncrowded (DigestedStore.start (oneShardStore .lru) 1000 0) reapedAfterScan
    (fun s => decide (s.store.NoneExpired 20 ∧
      s.acc.xor 1 ≠ s.store.computeDigest firstByte 4 20 1 ∧
      s.store.liveEntries 20 =
        (DigestedStore.start (oneShardStore .lru) 1000 0).store.liveEntries 20 ∧
      s.acc.xor 1 ≠ (DigestedStore.start (oneShardStore .lru) 1000 0).acc.xor 1))
    (by decide +kernel)
  exact ⟨s, hreach, of_decide_eq_true hp⟩

end Cinder
