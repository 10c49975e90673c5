/-
The bucket digests of anti-entropy: the hash of an entry, the incremental accumulators
the mutation sink feeds, and `fullRehash`, which rebuilds them by a scan while writers go on
(`src/node/anti_entropy/core.cpp`).

A rehash diverts the notes of the sink to a log while it scans the shards one after the other,
and XORs the log onto the scan. A mutation of a shard the scan HAS visited belongs into that
log. A mutation of a shard it has NOT visited is seen by the scan as well, and cancels.
-/
import Cinder.Store.MutationFeed

namespace Cinder

open Transition XorSum List Function

section Digest

variable (xxh3 : Bytes → UInt64) (numBuckets : Nat)

/-! ## 1. Hashes and digests -/

def bucketFor (key : Key) : Nat := (xxh3 key).toNat % numBuckets

/-- The key's hash mixed with the packed version word and the writer. -/
def entryHashRaw (key : Key) (versionAndTtl writer : UInt64) : UInt64 :=
  let h : UInt64 := xxh3 key
  let h : UInt64 := h + ((0x9E3779B97F4A7C15 : UInt64) + (versionAndTtl <<< 1) + versionAndTtl)
  let h : UInt64 := h ^^^ (writer + (0x9E3779B97F4A7C15 : UInt64) + (h <<< 6) + (h >>> 2))
  let h : UInt64 := h ^^^ (h >>> 30)
  let h : UInt64 := h * 0xBF58476D1CE4E5B9
  let h : UInt64 := h ^^^ (h >>> 27)
  let h : UInt64 := h * 0x94D049BB133111EB
  h ^^^ (h >>> 31)

def hashIn (b : Nat) (id : Identity) : UInt64 :=
  if bucketFor xxh3 numBuckets id.key = b then entryHashRaw xxh3 id.key id.versionAndTtl id.writer
  else 0

/-- `computeDigest`: the XOR of the hashes of a bucket's entries. -/
def digest (t : Table) (b : Nat) : UInt64 :=
  xorSum (t.entries.map fun e => hashIn xxh3 numBuckets b (identityOf e.1 e.2))

variable {xxh3 numBuckets}

variable {t : Table} {key : Key}

theorem digest_of_lookup {old : VersionedEntry} (h : t.lookup key = some old) (b : Nat) :
    digest xxh3 numBuckets t b =
      hashIn xxh3 numBuckets b (identityOf key old) ^^^ digest xxh3 numBuckets (t.erase key) b := by
  have hmem : (⟨key, old⟩ : Sigma fun _ : Key => VersionedEntry) ∈ t.entries :=
    AList.mem_lookup_iff.mp h
  obtain ⟨e, l₁, l₂, hnot, hl, hkerase⟩ := exists_of_kerase (mem_keys_of_mem hmem)
  have he : t.lookup key = some e := AList.mem_lookup_iff.mpr (by rw [hl]; simp)
  obtain rfl : e = old := Option.some.inj (he.symm.trans h)
  have hperm : t.entries.Perm (⟨key, e⟩ :: t.entries.kerase key) := by
    rw [hkerase, hl]
    exact perm_middle
  rw [digest, xorSum_perm (hperm.map _)]
  rfl

theorem digest_erase {old : VersionedEntry} (h : t.lookup key = some old) (b : Nat) :
    digest xxh3 numBuckets (t.erase key) b =
      digest xxh3 numBuckets t b ^^^ hashIn xxh3 numBuckets b (identityOf key old) := by
  rw [digest_of_lookup h, UInt64.xor_comm (hashIn _ _ _ _), xor_cancel_right]

theorem digest_insert (t : Table) (key : Key) (entry : VersionedEntry) (b : Nat) :
    digest xxh3 numBuckets (t.insert key entry) b =
      digest xxh3 numBuckets (t.erase key) b ^^^ hashIn xxh3 numBuckets b
        (identityOf key entry) := by
  rw [UInt64.xor_comm]
  rfl

theorem digest_insert_of_absent (h : t.lookup key = none) (entry : VersionedEntry) (b : Nat) :
    digest xxh3 numBuckets (t.insert key entry) b =
      digest xxh3 numBuckets t b ^^^ hashIn xxh3 numBuckets b (identityOf key entry) := by
  have habsent : key ∉ t := AList.lookup_eq_none.mp h
  rw [digest, AList.entries_insert_of_notMem habsent, UInt64.xor_comm]
  rfl

/-! ## 2. Accumulators -/

/-- `xor_`, `capturing_` and `pending_`. -/
structure Accumulators where
  xor : Nat → UInt64
  capturing : Bool := false
  pending : List (Nat × UInt64) := []

variable (xxh3 numBuckets)

/-- An added and a removed entry are the same toggle. -/
def Accumulators.onStoreMutation (acc : Accumulators) (m : Mutation) : Accumulators :=
  let h := entryHashRaw xxh3 m.id.key m.id.versionAndTtl m.id.writer
  let bucket := bucketFor xxh3 numBuckets m.id.key
  if acc.capturing then { acc with pending := acc.pending ++ [(bucket, h)] }
  else { acc with xor := update acc.xor bucket (acc.xor bucket ^^^ h) }

variable {xxh3 numBuckets}

def pendingIn (pending : List (Nat × UInt64)) (b : Nat) : UInt64 :=
  xorSum (pending.map fun p => if p.1 = b then p.2 else 0)

variable {acc : Accumulators}

theorem onStoreMutation_xor (h : acc.capturing = false) (m : Mutation) (b : Nat) :
    (acc.onStoreMutation xxh3 numBuckets m).xor b =
      acc.xor b ^^^ hashIn xxh3 numBuckets b m.id := by
  simp only [Accumulators.onStoreMutation, h, Bool.false_eq_true, if_false, hashIn]
  by_cases hb : bucketFor xxh3 numBuckets m.id.key = b
  · subst hb
    rw [update_self, if_pos rfl]
  · rw [update_of_ne (Ne.symm hb), if_neg hb, UInt64.xor_zero]

theorem onStoreMutation_pending (h : acc.capturing = true) (m : Mutation) (b : Nat) :
    pendingIn (acc.onStoreMutation xxh3 numBuckets m).pending b =
      pendingIn acc.pending b ^^^ hashIn xxh3 numBuckets b m.id := by
  simp [Accumulators.onStoreMutation, h, pendingIn, xorSum_append, hashIn]

theorem onStoreMutation_capturing (acc : Accumulators) (m : Mutation) :
    (acc.onStoreMutation xxh3 numBuckets m).capturing = acc.capturing := by
  unfold Accumulators.onStoreMutation
  split <;> rfl

theorem foldl_onStoreMutation_xor (h : acc.capturing = false) (feed : List Mutation) (b : Nat) :
    (feed.foldl (Accumulators.onStoreMutation xxh3 numBuckets) acc).xor b =
      acc.xor b ^^^ xorSum (feed.map fun m => hashIn xxh3 numBuckets b m.id) := by
  induction feed generalizing acc with
  | nil => simp
  | cons m feed ih =>
    rw [foldl_cons, ih ((onStoreMutation_capturing acc m).trans h), onStoreMutation_xor h,
      map_cons, xorSum_cons, UInt64.xor_assoc]

/-! ## 3. `fullRehash` among writers -/

/-- How far the rehash has come: `scanning` holds the next shard, the time `forEach` took its
snapshot, and `local`. -/
inductive RehashPhase where
  | idle
  | scanning (next : Nat) (snapTime : Nanos) (scan : Nat → UInt64)
  | published

def RehashPhase.isPublished : RehashPhase → Bool
  | .published => true
  | .idle | .scanning _ _ _ => false

theorem RehashPhase.eq_published {p : RehashPhase} (h : p.isPublished = true) : p = .published := by
  cases p with
  | published => rfl
  | _ => cases h

/-- The shards of a store, the accumulators, and (history) the entries noted while the rehash
was capturing and had not yet scanned their shard. -/
structure RehashState (n : Nat) where
  shards : Fin n → Table
  acc : Accumulators
  phase : RehashPhase := .idle
  early : List Identity := []

inductive RehashEvent where
  /-- the opening write section, and the clock reading of `forEach` -/
  | startCapture (snapTime : Nanos)
  | scanShard
  | publish
  | insert (key : Key) (entry : VersionedEntry)
  | overwrite (key : Key) (entry : VersionedEntry)
  | remove (key : Key)

namespace RehashState

variable {n : Nat} (xxh3 numBuckets) (shardFor : Key → Fin n)

variable (s : RehashState n)

/-- A shard that the running scan has still to visit. -/
def notYetScanned (i : Fin n) : Bool :=
  match s.phase with
  | .scanning next _ _ => next ≤ i.val
  | .idle | .published => false

def note (m : Mutation) : RehashState n :=
  { s with
    acc := s.acc.onStoreMutation xxh3 numBuckets m
    early := if s.notYetScanned (shardFor m.id.key) then s.early ++ [m.id] else s.early }

def setShard (i : Fin n) (t : Table) : RehashState n :=
  { s with shards := update s.shards i t }

/-- The entries `liveEntries` copies out of a shard. -/
def liveDigest (t : Table) (snapTime : Nanos) (b : Nat) : UInt64 :=
  xorSum ((t.entries.filter fun e => !e.2.expiredAt snapTime).map fun e =>
    hashIn xxh3 numBuckets b (identityOf e.1 e.2))

/-- The atomic steps of the rehash, and of writers: a mutation with its notes. -/
def step : RehashEvent → Option (RehashState n)
  | .startCapture snapTime =>
    match s.phase with
    | .idle => some { s with
        acc := { s.acc with capturing := true, pending := [] }
        phase := .scanning 0 snapTime fun _ => 0 }
    | .scanning _ _ _ | .published => none
  | .scanShard =>
    match s.phase with
    | .scanning next snapTime scan =>
      if h : next < n then
        let live := liveDigest xxh3 numBuckets (s.shards ⟨next, h⟩) snapTime
        some { s with phase := .scanning (next + 1) snapTime fun b => scan b ^^^ live b }
      else none
    | .idle | .published => none
  | .publish =>
    match s.phase with
    | .scanning next _ scan =>
      if next = n then
        some { s with
          acc := { xor := fun b => scan b ^^^ pendingIn s.acc.pending b }
          phase := .published }
      else none
    | .idle | .published => none
  | .insert key entry =>
    match (s.shards (shardFor key)).lookup key with
    | none => some ((s.setShard (shardFor key) ((s.shards (shardFor key)).insert key entry)).note
        xxh3 numBuckets shardFor ⟨identityOf key entry, false⟩)
    | some _ => none
  | .overwrite key entry =>
    match (s.shards (shardFor key)).lookup key with
    | some old =>
      some (((s.setShard (shardFor key) ((s.shards (shardFor key)).insert key entry)).note
        xxh3 numBuckets shardFor ⟨identityOf key old, true⟩).note xxh3 numBuckets shardFor
          ⟨identityOf key entry, false⟩)
    | none => none
  | .remove key =>
    match (s.shards (shardFor key)).lookup key with
    | some old => some ((s.setShard (shardFor key) ((s.shards (shardFor key)).erase key)).note
        xxh3 numBuckets shardFor ⟨identityOf key old, true⟩)
    | none => none

def noneExpired (ev : RehashEvent) : Bool :=
  match ev, s.phase with
  | .scanShard, .scanning next snapTime _ => (finRange n).all fun i =>
      i.val != next || (s.shards i).entries.all fun e => !e.2.expiredAt snapTime
  | _, _ => true

/-- A store with exact accumulators, before the rehash. -/
def start (shards : Fin n → Table) : RehashState n where
  shards := shards
  acc := ⟨fun b => xorSum ((finRange n).map fun i => digest xxh3 numBuckets (shards i) b),
    false, []⟩

def digestUpTo (k : Nat) (b : Nat) : UInt64 :=
  xorSum (((finRange n).filter fun i : Fin n => i.val < k).map fun i =>
    digest xxh3 numBuckets (s.shards i) b)

def exactDigest (b : Nat) : UInt64 :=
  xorSum ((finRange n).map fun i => digest xxh3 numBuckets (s.shards i) b)

def earlyIn (b : Nat) : UInt64 := xorSum (s.early.map (hashIn xxh3 numBuckets b))

/-! ## 4. The invariant -/

/-- **The invariant**, in the middle of a mutation of shard `i` too: `d` is what the sink has
still to be told of it. Once published, the accumulators are exact up to the early notes. -/
def Owing (i : Nat) (d : Nat → UInt64) : Prop :=
  match s.phase with
  | .idle => s.acc.capturing = false ∧ s.early = [] ∧
      ∀ b, s.acc.xor b = s.exactDigest xxh3 numBuckets b ^^^ d b
  | .scanning next _ scan => s.acc.capturing = true ∧ next ≤ n ∧
      ∀ b, scan b ^^^ pendingIn s.acc.pending b = s.digestUpTo xxh3 numBuckets next b ^^^
        s.earlyIn xxh3 numBuckets b ^^^ if i < next then d b else 0
  | .published => s.acc.capturing = false ∧
      ∀ b, s.acc.xor b = s.exactDigest xxh3 numBuckets b ^^^ s.earlyIn xxh3 numBuckets b ^^^ d b

variable {xxh3 numBuckets shardFor} {s s' : RehashState n}

theorem xorSum_update {l : List (Fin n)} (hl : l.Nodup) (f : Fin n → UInt64) (i : Fin n)
    (v : UInt64) : xorSum (l.map (update f i v)) =
      xorSum (l.map f) ^^^ if i ∈ l then f i ^^^ v else 0 := by
  induction l with
  | nil => simp
  | cons j l ih =>
    obtain ⟨hj, hl⟩ := nodup_cons.mp hl
    rw [map_cons, map_cons, xorSum_cons, xorSum_cons, ih hl]
    by_cases hij : i = j
    · subst hij
      have hv : v = f i ^^^ (f i ^^^ v) := by
        rw [← UInt64.xor_assoc, UInt64.xor_self, UInt64.zero_xor]
      rw [update_self, if_neg hj, if_pos mem_cons_self, UInt64.xor_zero]
      conv_lhs => rw [hv]
      rw [UInt64.xor_assoc, UInt64.xor_comm (f i ^^^ v), UInt64.xor_assoc]
    · rw [update_of_ne (Ne.symm hij)]
      simp only [mem_cons, hij, false_or, UInt64.xor_assoc]

variable (s)

theorem digest_setShard (i : Fin n) (t : Table) {l : List (Fin n)} (hl : l.Nodup) (b : Nat) :
    xorSum (l.map fun j => digest xxh3 numBuckets ((s.setShard i t).shards j) b) =
      xorSum (l.map fun j => digest xxh3 numBuckets (s.shards j) b) ^^^
        if i ∈ l then digest xxh3 numBuckets (s.shards i) b ^^^ digest xxh3 numBuckets t b
        else 0 := by
  rw [← xorSum_update hl]
  congr 1
  refine map_congr_left fun j _ => ?_
  by_cases hj : j = i
  · subst hj
    simp [setShard]
  · simp [setShard, hj]

theorem exactDigest_setShard (i : Fin n) (t : Table) (b : Nat) :
    (s.setShard i t).exactDigest xxh3 numBuckets b = s.exactDigest xxh3 numBuckets b ^^^
      (digest xxh3 numBuckets (s.shards i) b ^^^ digest xxh3 numBuckets t b) := by
  rw [exactDigest, digest_setShard s i t (nodup_finRange n), if_pos (mem_finRange i)]
  rfl

theorem digestUpTo_setShard (i : Fin n) (t : Table) (k b : Nat) :
    (s.setShard i t).digestUpTo xxh3 numBuckets k b = s.digestUpTo xxh3 numBuckets k b ^^^
      if i.val < k then digest xxh3 numBuckets (s.shards i) b ^^^ digest xxh3 numBuckets t b
      else 0 := by
  rw [digestUpTo, digest_setShard s i t ((nodup_finRange n).filter _)]
  simp [digestUpTo]

variable {s}

variable {d : Nat → UInt64}

theorem Owing.setShard {j : Nat} (h : s.Owing xxh3 numBuckets j fun _ => 0) (i : Fin n) {t : Table}
    (hd : ∀ b, digest xxh3 numBuckets t b = digest xxh3 numBuckets (s.shards i) b ^^^ d b) :
    (s.setShard i t).Owing xxh3 numBuckets i d := by
  have hdiff : ∀ b, digest xxh3 numBuckets (s.shards i) b ^^^ digest xxh3 numBuckets t b = d b := by
    intro b
    rw [hd, ← UInt64.xor_assoc, UInt64.xor_self, UInt64.zero_xor]
  have hphase : (s.setShard i t).phase = s.phase := rfl
  have hearly : ∀ b, (s.setShard i t).earlyIn xxh3 numBuckets b = s.earlyIn xxh3 numBuckets b :=
    fun _ => rfl
  unfold Owing at h ⊢
  rw [hphase]
  cases hp : s.phase with
  | idle =>
    rw [hp] at h
    refine ⟨h.1, h.2.1, fun b => ?_⟩
    rw [exactDigest_setShard, hdiff, xor_cancel_right]
    exact (h.2.2 b).trans (UInt64.xor_zero)
  | scanning next snapTime scan =>
    rw [hp] at h
    refine ⟨h.1, h.2.1, fun b => ?_⟩
    have hb := h.2.2 b
    simp only [ite_self, UInt64.xor_zero] at hb
    rw [digestUpTo_setShard, hdiff, hearly]
    split
    · rename_i hi
      rw [UInt64.xor_assoc (s.digestUpTo _ _ _ _), UInt64.xor_comm (d b), ← UInt64.xor_assoc,
        xor_cancel_right]
      exact hb
    · rw [UInt64.xor_zero, UInt64.xor_zero]
      exact hb
  | published =>
    rw [hp] at h
    refine ⟨h.1, fun b => ?_⟩
    rw [exactDigest_setShard, hdiff, hearly, UInt64.xor_assoc (s.exactDigest _ _ _),
      UInt64.xor_comm (d b), ← UInt64.xor_assoc, xor_cancel_right]
    exact (h.2 b).trans (UInt64.xor_zero)

theorem Owing.note (m : Mutation) (h : s.Owing xxh3 numBuckets (shardFor m.id.key) d) :
    (s.note xxh3 numBuckets shardFor m).Owing xxh3 numBuckets (shardFor m.id.key)
      fun b => d b ^^^ hashIn xxh3 numBuckets b m.id := by
  have hphase : (s.note xxh3 numBuckets shardFor m).phase = s.phase := rfl
  have hexact : ∀ b, (s.note xxh3 numBuckets shardFor m).exactDigest xxh3 numBuckets b =
      s.exactDigest xxh3 numBuckets b := fun _ => rfl
  have hupto : ∀ k b, (s.note xxh3 numBuckets shardFor m).digestUpTo xxh3 numBuckets k b =
      s.digestUpTo xxh3 numBuckets k b := fun _ _ => rfl
  have hcapt : (s.note xxh3 numBuckets shardFor m).acc.capturing = s.acc.capturing :=
    onStoreMutation_capturing s.acc m
  have hearly : s.notYetScanned (shardFor m.id.key) = false →
      (s.note xxh3 numBuckets shardFor m).early = s.early := by
    intro hno
    simp [RehashState.note, hno]
  have hkeep : s.notYetScanned (shardFor m.id.key) = false → ∀ b,
      (s.note xxh3 numBuckets shardFor m).earlyIn xxh3 numBuckets b =
        s.earlyIn xxh3 numBuckets b := by
    intro hno b
    rw [earlyIn, hearly hno, earlyIn]
  have hgrow : s.notYetScanned (shardFor m.id.key) = true → ∀ b,
      (s.note xxh3 numBuckets shardFor m).earlyIn xxh3 numBuckets b =
        s.earlyIn xxh3 numBuckets b ^^^ hashIn xxh3 numBuckets b m.id := by
    intro hyes b
    simp [RehashState.note, hyes, earlyIn, xorSum_append]
  unfold Owing at h ⊢
  rw [hphase, hcapt]
  cases hp : s.phase with
  | idle =>
    rw [hp] at h
    have hno : s.notYetScanned (shardFor m.id.key) = false := by simp [notYetScanned, hp]
    refine ⟨h.1, (hearly hno).trans h.2.1, fun b => ?_⟩
    rw [hexact, ← UInt64.xor_assoc, ← h.2.2 b]
    exact onStoreMutation_xor h.1 m b
  | scanning next snapTime scan =>
    rw [hp] at h
    refine ⟨h.1, h.2.1, fun b => ?_⟩
    have hpend : pendingIn (s.note xxh3 numBuckets shardFor m).acc.pending b =
        pendingIn s.acc.pending b ^^^ hashIn xxh3 numBuckets b m.id :=
      onStoreMutation_pending h.1 m b
    rw [hpend, ← UInt64.xor_assoc, h.2.2 b, hupto]
    by_cases hi : (shardFor m.id.key).val < next
    · -- the scan has been there: the log is right
      have hno : s.notYetScanned (shardFor m.id.key) = false := by
        simp [notYetScanned, hp, hi]
      rw [if_pos hi, if_pos hi, hkeep hno, ← UInt64.xor_assoc]
    · have hyes : s.notYetScanned (shardFor m.id.key) = true := by
        simp only [notYetScanned, hp, decide_eq_true_eq]
        omega
      rw [if_neg hi, if_neg hi, hgrow hyes, UInt64.xor_zero, UInt64.xor_zero, UInt64.xor_assoc]
  | published =>
    rw [hp] at h
    have hno : s.notYetScanned (shardFor m.id.key) = false := by simp [notYetScanned, hp]
    refine ⟨h.1, fun b => ?_⟩
    rw [hexact, hkeep hno, ← UInt64.xor_assoc, ← h.2 b]
    exact onStoreMutation_xor h.1 m b

theorem Owing.of_eq {i j : Nat} (h : s.Owing xxh3 numBuckets i d) (hd : ∀ b, d b = 0) :
    s.Owing xxh3 numBuckets j fun _ => 0 := by
  unfold Owing at h ⊢
  simpa only [hd, ite_self] using h

theorem liveDigest_eq {t : Table} {snapTime : Nanos}
    (h : ∀ e ∈ t.entries, e.2.expiredAt snapTime = false) (b : Nat) :
    liveDigest xxh3 numBuckets t snapTime b = digest xxh3 numBuckets t b := by
  unfold liveDigest digest
  rw [filter_eq_self.mpr fun e he => by rw [h e he]; rfl]

theorem entries_of_noneExpired {next : Nat} {snapTime : Nanos} {scan : Nat → UInt64}
    (hp : s.phase = .scanning next snapTime scan) (hok : s.noneExpired .scanShard = true)
    (hnext : next < n) :
    ∀ e ∈ (s.shards ⟨next, hnext⟩).entries, e.2.expiredAt snapTime = false := by
  intro e he
  simp only [noneExpired, hp, all_eq_true] at hok
  have hall := hok ⟨next, hnext⟩ (mem_finRange _)
  simp only [bne_self_eq_false, Bool.false_or, all_eq_true] at hall
  simpa using hall e he

theorem digestUpTo_succ (s : RehashState n) {k : Nat} (hk : k < n) (b : Nat) :
    s.digestUpTo xxh3 numBuckets (k + 1) b =
      s.digestUpTo xxh3 numBuckets k b ^^^ digest xxh3 numBuckets (s.shards ⟨k, hk⟩) b := by
  have hperm : ((finRange n).filter fun i : Fin n => i.val < k + 1).Perm
      (((finRange n).filter fun i : Fin n => i.val < k) ++ [⟨k, hk⟩]) := by
    have hnodup :
        (((finRange n).filter fun i : Fin n => i.val < k) ++ [(⟨k, hk⟩ : Fin n)]).Nodup := by
      refine nodup_append.mpr ⟨(nodup_finRange n).filter _, nodup_singleton _, ?_⟩
      rintro i hi j hj rfl
      have hlt : i.val < k := by simpa using (mem_filter.mp hi).2
      rw [mem_singleton.mp hj] at hlt
      exact lt_irrefl k hlt
    refine (perm_ext_iff_of_nodup ((nodup_finRange n).filter _) hnodup).mpr fun i => ?_
    simp only [mem_filter, mem_finRange, true_and, decide_eq_true_eq, mem_append,
      mem_singleton, Fin.ext_iff]
    omega
  rw [digestUpTo, xorSum_perm (hperm.map _), map_append, xorSum_append]
  simp [digestUpTo]

theorem digestUpTo_all (s : RehashState n) (b : Nat) :
    s.digestUpTo xxh3 numBuckets n b = s.exactDigest xxh3 numBuckets b := by
  unfold digestUpTo exactDigest
  rw [filter_eq_self.mpr fun i _ => by simp]

theorem owing_step {ev : RehashEvent} (h : s.Owing xxh3 numBuckets 0 fun _ => 0)
    (hok : s.noneExpired ev = true) (hstep : s.step xxh3 numBuckets shardFor ev = some s') :
    s'.Owing xxh3 numBuckets 0 fun _ => 0 := by
  cases ev with
  | startCapture snapTime =>
    simp only [step] at hstep
    split at hstep
    · rename_i hp
      cases hstep
      unfold Owing at h
      rw [hp] at h
      refine ⟨rfl, Nat.zero_le _, fun b => ?_⟩
      have hnone : digestUpTo xxh3 numBuckets { s with
          acc := { s.acc with capturing := true, pending := [] }
          phase := .scanning 0 snapTime fun _ => 0 } 0 b = 0 := by
        simp [digestUpTo]
      rw [hnone]
      simp [earlyIn, h.2.1, pendingIn]
    · cases hstep
    · cases hstep
  | scanShard =>
    simp only [step] at hstep
    split at hstep
    · rename_i next snapTime scan hp
      split at hstep
      · rename_i hnext
        cases hstep
        unfold Owing at h
        rw [hp] at h
        refine ⟨h.1, hnext, fun b => ?_⟩
        have hb := h.2.2 b
        have hlive : liveDigest xxh3 numBuckets (s.shards ⟨next, hnext⟩) snapTime b =
            digest xxh3 numBuckets (s.shards ⟨next, hnext⟩) b :=
          liveDigest_eq (entries_of_noneExpired hp hok hnext) b
        simp only [ite_self, UInt64.xor_zero] at hb ⊢
        show scan b ^^^ liveDigest _ _ _ _ _ ^^^ pendingIn s.acc.pending b =
          s.digestUpTo xxh3 numBuckets (next + 1) b ^^^ s.earlyIn xxh3 numBuckets b
        rw [hlive, digestUpTo_succ s hnext, UInt64.xor_assoc, UInt64.xor_comm (digest _ _ _ _),
          ← UInt64.xor_assoc, hb, UInt64.xor_assoc, UInt64.xor_assoc,
          UInt64.xor_comm (digest _ _ _ _)]
      · cases hstep
    · cases hstep
    · cases hstep
  | publish =>
    simp only [step] at hstep
    split at hstep
    · rename_i next snapTime scan hp
      split at hstep
      · rename_i hall
        cases hstep
        unfold Owing at h
        rw [hp] at h
        refine ⟨rfl, fun b => ?_⟩
        have hb := h.2.2 b
        rw [hall, digestUpTo_all] at hb
        simp only [ite_self] at hb
        exact hb
      · cases hstep
    · cases hstep
    · cases hstep
  | insert key entry =>
    simp only [step] at hstep
    split at hstep
    · rename_i hl
      cases hstep
      exact ((h.setShard (shardFor key)
        (d := fun b => hashIn xxh3 numBuckets b (identityOf key entry))
        (digest_insert_of_absent hl entry)).note ⟨identityOf key entry, false⟩).of_eq fun b =>
          UInt64.xor_self
    · cases hstep
  | overwrite key entry =>
    simp only [step] at hstep
    split at hstep
    · rename_i old hl
      cases hstep
      refine (((h.setShard (shardFor key)
        (d := fun b => hashIn xxh3 numBuckets b (identityOf key old) ^^^
          hashIn xxh3 numBuckets b (identityOf key entry)) fun b => ?_).note
        ⟨identityOf key old, true⟩).note ⟨identityOf key entry, false⟩).of_eq fun b => ?_
      · rw [digest_insert, digest_erase hl, UInt64.xor_assoc]
      · rw [UInt64.xor_comm (hashIn _ _ b (identityOf key old)), xor_cancel_right, UInt64.xor_self]
    · cases hstep
  | remove key =>
    simp only [step] at hstep
    split at hstep
    · rename_i old hl
      cases hstep
      refine ((h.setShard (shardFor key)
        (d := fun b => hashIn xxh3 numBuckets b (identityOf key old))
        fun b => ?_).note ⟨identityOf key old, true⟩).of_eq fun b => UInt64.xor_self
      rw [digest_erase hl]
    · cases hstep

end RehashState

/-- **The published accumulators, and all later ones, are exact if and only if, bucket by
bucket, the hashes noted between the start of the capture and the scan of their shard
cancel.** -/
theorem rehash_exact_iff {n : Nat} (shardFor : Key → Fin n) (shards : Fin n → Table)
    (s : RehashState n)
    (h : Reaches (RehashState.step xxh3 numBuckets shardFor) (fun s ev => s.noneExpired ev = true)
      (RehashState.start xxh3 numBuckets shards) s) (hp : s.phase = .published) :
    (∀ b, s.acc.xor b = s.exactDigest xxh3 numBuckets b) ↔
      ∀ b, s.earlyIn xxh3 numBuckets b = 0 := by
  have hinv : s.Owing xxh3 numBuckets 0 fun _ => 0 :=
    h.invariant ⟨rfl, rfl, fun _ => UInt64.xor_zero.symm⟩
    fun _ _ _ hi hok hstep => RehashState.owing_step hi hok hstep
  unfold RehashState.Owing at hinv
  rw [hp] at hinv
  refine forall_congr' fun b => ?_
  rw [hinv.2 b, UInt64.xor_zero]
  constructor
  · intro heq
    have hcancel := congrArg (s.exactDigest xxh3 numBuckets b ^^^ ·) heq
    simpa only [← UInt64.xor_assoc, UInt64.xor_self, UInt64.zero_xor] using hcancel
  · intro hzero
    rw [hzero, UInt64.xor_zero]

end Digest

/-- A key hash and a placement to run the rehash with. -/
def firstByte (key : Key) : UInt64 := (key.headD 0).toUInt64

def byFirstByte (key : Key) : Fin 2 :=
  if key.headD 0 < 8 then ⟨0, Nat.two_pos⟩ else ⟨1, Nat.one_lt_two⟩

/-- Writes before the capture, behind the scan of their shard, and once the rehash is through. -/
theorem rehash_exact_behind_scan :
    ∃ s, Reaches (RehashState.step firstByte 4 byFirstByte) (fun s ev => s.noneExpired ev = true)
        (RehashState.start firstByte 4 fun _ => ∅) s ∧ s.phase = .published ∧ s.early = [] ∧
      ((∀ b, s.acc.xor b = s.exactDigest firstByte 4 b) ↔ ∀ b, s.earlyIn firstByte 4 b = 0) := by
  obtain ⟨s, hreach, hp⟩ := exists_reaches_of_exec (RehashState.step firstByte 4 byFirstByte)
    (fun s ev => s.noneExpired ev = true) (RehashState.start firstByte 4 fun _ => ∅)
    [.insert [9] { versionAndTtl := 4 }, .startCapture 0, .scanShard,
      .insert [1] { versionAndTtl := 4 }, .scanShard, .overwrite [9] { versionAndTtl := 8 },
      .publish, .remove [1]] (fun s => s.phase.isPublished && s.early.isEmpty) (by decide +kernel)
  simp only [Bool.and_eq_true, List.isEmpty_iff] at hp
  have hphase := RehashPhase.eq_published hp.1
  exact ⟨s, hreach, hphase, hp.2, rehash_exact_iff byFirstByte _ s hreach hphase⟩

/-- An entry written between the start of the capture and the scan of its shard is scanned and
logged, and the two cancel: the published digest is that of an empty store. -/
theorem early_write_cancels :
    ∃ s, Reaches (RehashState.step firstByte 4 byFirstByte) (fun s ev => s.noneExpired ev = true)
        (RehashState.start firstByte 4 fun _ => ∅) s ∧ s.phase = .published ∧
      s.acc.xor 1 ≠ s.exactDigest firstByte 4 1 := by
  obtain ⟨s, hreach, hp⟩ := exists_reaches_of_exec (RehashState.step firstByte 4 byFirstByte)
    (fun s ev => s.noneExpired ev = true) (RehashState.start firstByte 4 fun _ => ∅)
    [.startCapture 0, .insert [1] { versionAndTtl := 4 }, .scanShard, .scanShard, .publish]
    (fun s => s.phase.isPublished && s.acc.xor 1 != s.exactDigest firstByte 4 1) (by decide +kernel)
  simp only [Bool.and_eq_true, bne_iff_ne] at hp
  exact ⟨s, hreach, RehashPhase.eq_published hp.1, hp.2⟩

end Cinder
