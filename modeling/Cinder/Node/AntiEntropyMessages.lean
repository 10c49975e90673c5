/-
The messages of a round, whatever the hashes are: which buckets are sampled, peeled and
asked for once more, and the sync message that comes of it.
-/
import Cinder.Node.AntiEntropyRound

namespace Cinder

open List

namespace AntiEntropyManager

section Messages

variable {xxh3 : Bytes → UInt64} {numBuckets : Nat} {a b m : AntiEntropyManager}

/-! ## 1. What is known of a bucket -/

variable (xxh3 numBuckets a b)

def sketchDiff (bucket : Nat) : Option Iblt.Diff :=
  Iblt.difference xxh3 (sketchOf xxh3 (bucketRows xxh3 numBuckets b.store bucket))
    (sketchOf xxh3 (sortedRows xxh3 numBuckets a.store bucket))

/-- The sketches of the two stores peel, to a difference that is not empty. -/
def peels (bucket : Nat) : Bool :=
  match sketchDiff xxh3 numBuckets a b bucket with
  | some diff => !(diff.remoteOnly.isEmpty && diff.localOnly.isEmpty)
  | none => false

def unpeeledBuckets (asked : List Nat) : List Nat :=
  (range numBuckets).filter fun bucket => (requestedOf a b asked).contains bucket &&
    decide (kIbltMinRows ≤ (bucketRows xxh3 numBuckets b.store bucket).length) &&
      !peels xxh3 numBuckets a b bucket

/-- Those of them whose rows fit the metadata message, the first one in any case. -/
def collectedBuckets (asked : List Nat) : List Nat :=
  (unpeeledBuckets xxh3 numBuckets a b asked).take (Budget.count kMaxMetadataBytes (2 * 4)
    ((unpeeledBuckets xxh3 numBuckets a b asked).map (bucketCost xxh3 numBuckets b.store)))

def comparedBuckets (asked : List Nat) : List Nat := (requestedOf a b asked).filter (fun bucket =>
    !(unpeeledBuckets xxh3 numBuckets a b asked).contains bucket) ++
      collectedBuckets xxh3 numBuckets a b asked

def peeledRows (bucket : Nat) : List MetaRow :=
  (sketchDiff xxh3 numBuckets a b bucket).elim []
    (patchRows bucket (sortedRows xxh3 numBuckets a.store bucket))

/-- The rows the initiator knows in the end, in the order in which they come. -/
def knownRows (asked : List Nat) : List MetaRow :=
  ((requestedOf a b asked).filter (sampled xxh3 numBuckets b.store)).flatMap
      (bucketRows xxh3 numBuckets b.store) ++
    ((requestedOf a b asked).filter fun bucket => !sampled xxh3 numBuckets b.store bucket &&
      peels xxh3 numBuckets a b bucket).flatMap (peeledRows xxh3 numBuckets a b) ++
    (collectedBuckets xxh3 numBuckets a b asked).flatMap (sortedRows xxh3 numBuckets b.store)

def knownDiff (asked : List Nat) : MetaDiff :=
  diffRows xxh3 numBuckets a.store (knownRows xxh3 numBuckets a b asked) (requestedOf a b asked)
    (comparedBuckets xxh3 numBuckets a b asked)

variable {xxh3 numBuckets a b}

section Asked

variable {asked : List Nat}

variable {bucket : Nat}

theorem mem_unpeeledBuckets (hlt : ∀ bucket ∈ asked, bucket < numBuckets) :
    bucket ∈ unpeeledBuckets xxh3 numBuckets a b asked ↔ bucket ∈ requestedOf a b asked ∧
      kIbltMinRows ≤ (bucketRows xxh3 numBuckets b.store bucket).length ∧
        peels xxh3 numBuckets a b bucket = false := by
  simp only [unpeeledBuckets, mem_filter, mem_range, Bool.and_eq_true, contains_iff_mem,
    decide_eq_true_eq, Bool.not_eq_true', and_assoc, and_iff_right_iff_imp]
  exact fun h => hlt bucket (mem_requestedOf.mp h.1).1

theorem nodup_unpeeledBuckets : (unpeeledBuckets xxh3 numBuckets a b asked).Nodup :=
  nodup_range.filter _

theorem collectedBuckets_ne_nil (h : unpeeledBuckets xxh3 numBuckets a b asked ≠ []) :
    collectedBuckets xxh3 numBuckets a b asked ≠ [] := by
  have hpos := @Budget.count_pos kMaxMetadataBytes (2 * 4)
    ((unpeeledBuckets xxh3 numBuckets a b asked).map (bucketCost xxh3 numBuckets b.store))
    (by simpa using h)
  intro hnil
  rcases take_eq_nil_iff.mp hnil with hzero | hnone
  · omega
  · exact h hnone

theorem mem_comparedBuckets :
    bucket ∈ comparedBuckets xxh3 numBuckets a b asked ↔
      bucket ∈ requestedOf a b asked ∧ bucket ∉ unpeeledBuckets xxh3 numBuckets a b asked ∨
        bucket ∈ collectedBuckets xxh3 numBuckets a b asked := by
  simp only [comparedBuckets, mem_append, mem_filter, Bool.not_eq_true',
    contains_eq_mem, decide_eq_false_iff_not]

theorem requested_of_compared (hlt : ∀ bucket ∈ asked, bucket < numBuckets)
    (h : bucket ∈ comparedBuckets xxh3 numBuckets a b asked) : bucket ∈ requestedOf a b asked := by
  rcases mem_comparedBuckets.mp h with h | h
  · exact h.1
  · exact ((mem_unpeeledBuckets hlt).mp (mem_of_mem_take h)).1

theorem comparedBuckets_ne_nil (h : requestedOf a b asked ≠ []) :
    comparedBuckets xxh3 numBuckets a b asked ≠ [] := by
  obtain ⟨bucket, hbucket⟩ := exists_mem_of_ne_nil _ h
  by_cases hpeel : bucket ∈ unpeeledBuckets xxh3 numBuckets a b asked
  · exact append_ne_nil_of_right_ne_nil _ (collectedBuckets_ne_nil (ne_nil_of_mem hpeel))
  · exact ne_nil_of_mem (mem_comparedBuckets.mpr (.inl ⟨hbucket, hpeel⟩))

theorem mem_compared_of_fits
    (hfits : 2 * 4 + ((unpeeledBuckets xxh3 numBuckets a b asked).map
      (bucketCost xxh3 numBuckets b.store)).sum ≤ kMaxMetadataBytes)
    (h : bucket ∈ requestedOf a b asked) : bucket ∈ comparedBuckets xxh3 numBuckets a b asked := by
  refine mem_comparedBuckets.mpr ?_
  by_cases hpeel : bucket ∈ unpeeledBuckets xxh3 numBuckets a b asked
  · rw [collectedBuckets, Budget.count_eq_length hfits, length_map, take_length]
    exact .inr hpeel
  · exact .inl ⟨h, hpeel⟩

end Asked

/-! ## 2. The sketches -/

variable {bucket : Nat} {response : DigestResponse}

theorem collectMetadata_single (t : Table) (h : bucket < numBuckets) (maxBytes : Nat) :
    collectMetadata xxh3 numBuckets t [bucket] maxBytes =
      ([bucket], sortedRows xxh3 numBuckets t bucket) := by
  have hwanted : ((range numBuckets).filter fun c => [bucket].contains c) = [bucket] := by
    refine perm_singleton.mp ((perm_ext_iff_of_nodup (nodup_range.filter _)
      (nodup_singleton bucket)).mpr fun c => ?_)
    simp only [mem_filter, mem_range, contains_iff_mem, and_iff_right_iff_imp]
    exact fun hc => mem_singleton.mp hc ▸ h
  have hone : Budget.count maxBytes (2 * 4) ([bucket].map (bucketCost xxh3 numBuckets t)) = 1 := by
    simp [Budget.count_cons, Budget.fitting]
  rw [collectMetadata_eq, hwanted]
  dsimp only
  rw [hone]
  simp

theorem bucket_of_mem_bucketRows {t : Table} {row : MetaRow}
    (h : row ∈ bucketRows xxh3 numBuckets t bucket) : row.bucket = bucket := by
  obtain ⟨key, entry, -, rfl, rfl⟩ := mem_bucketRows.mp h
  rfl

theorem bucket_of_mem_peeledRows {row : MetaRow} (h : row ∈ peeledRows xxh3 numBuckets a b bucket) :
    row.bucket = bucket := by
  unfold peeledRows at h
  cases hdiff : sketchDiff xxh3 numBuckets a b bucket with
  | none =>
    rw [hdiff] at h
    exact absurd h not_mem_nil
  | some diff =>
    rw [hdiff] at h
    rcases mem_append.mp h with hown | hremote
    · exact bucket_of_mem_bucketRows (mem_sortedRows.mp (mem_of_mem_filter hown))
    · obtain ⟨item, -, rfl⟩ := mem_map.mp hremote
      rfl

theorem decodes_of {groups : Nat} (hgroups : response.groupHashes.length = groups)
    (hrows : ∀ row ∈ response.rows, row.bucket ∈ response.coveredBuckets)
    (hsketches : ∀ p ∈ response.ibltSketches, p.1 ∈ response.coveredBuckets)
    (hnodup : (response.ibltSketches.map Prod.fst).Nodup)
    (hapart : ∀ row ∈ response.rows, row.bucket ∉ response.ibltSketches.map Prod.fst) :
    response.decodes groups = true := by
  simp only [DigestResponse.decodes, Bool.and_eq_true, beq_iff_eq, all_eq_true,
    decide_eq_true_eq, Bool.not_eq_true', contains_eq_mem, decide_eq_false_iff_not]
  exact ⟨⟨⟨⟨hgroups, hrows⟩, hsketches⟩, hnodup⟩, hapart⟩

section Asked

variable {asked : List Nat} {response : DigestResponse}

theorem reconstructBucket_eq (hans : Answers xxh3 a b asked response) {bucket : Nat}
    (hlt : bucket < numBuckets) (hcovered : bucket ∈ response.coveredBuckets) :
    reconstructBucket xxh3 numBuckets a response bucket
        (sketchOf xxh3 (bucketRows xxh3 numBuckets b.store bucket)) =
      if peels xxh3 numBuckets a b bucket then some (peeledRows xxh3 numBuckets a b bucket, true)
      else none := by
  obtain ⟨hasked, hne⟩ := hans.differ bucket hcovered
  obtain ⟨remote, hfind, hremote⟩ : ∃ remote, response.bucketHashes.find? (fun p => p.1 == bucket) =
      some remote ∧ remote.2 = b.localHash bucket := by
    have hin : (bucket, b.localHash bucket) ∈ response.bucketHashes :=
      (hans.hashes _).mpr ⟨hasked, rfl⟩
    have hsome : (response.bucketHashes.find? fun p => p.1 == bucket).isSome = true :=
      List.find?_isSome.mpr ⟨_, hin, beq_self_eq_true bucket⟩
    obtain ⟨remote, hfind⟩ := Option.isSome_iff_exists.mp hsome
    have heq : remote.1 = bucket := by simpa using List.find?_some hfind
    refine ⟨remote, hfind, ?_⟩
    rw [((hans.hashes remote).mp (mem_of_find?_eq_some hfind)).2, heq]
  unfold reconstructBucket peels peeledRows
  rw [if_neg (by simpa using ⟨hlt, hcovered⟩), collectMetadata_single a.store hlt]
  dsimp only
  rw [build_eq_sketchOf]
  dsimp only
  rw [if_neg (by simp), hfind, ← sketchDiff]
  cases sketchDiff xxh3 numBuckets a b bucket with
  | none => rfl
  | some diff =>
    dsimp only [Option.any_some, Option.elim_some]
    rw [hremote]
    by_cases hempty : diff.remoteOnly = [] ∧ diff.localOnly = []
    · rw [if_pos ⟨hne, hempty⟩]
      simp [hempty]
    · have hpeels : (!(diff.remoteOnly.isEmpty && diff.localOnly.isEmpty)) = true := by
        rwa [Bool.not_eq_true', Bool.eq_false_iff, ne_eq, Bool.and_eq_true, List.isEmpty_iff,
          List.isEmpty_iff]
      rw [if_neg fun h => hempty h.2, if_pos hpeels, ← Bool.not_and, hpeels]

theorem foldl_reconstructInto (hans : Answers xxh3 a b asked response) {buckets : List Nat}
    (hin : ∀ bucket ∈ buckets, bucket < numBuckets ∧ bucket ∈ response.coveredBuckets)
    (s : Reconstruction) : ∃ hasDiff, (buckets.map fun bucket =>
        (bucket, sketchOf xxh3 (bucketRows xxh3 numBuckets b.store bucket))).foldl
        (reconstructInto xxh3 numBuckets a response) s =
      { rows := s.rows ++ (buckets.filter (peels xxh3 numBuckets a b)).flatMap
          (peeledRows xxh3 numBuckets a b)
        failed := s.failed ++ buckets.filter fun bucket => !peels xxh3 numBuckets a b bucket
        hasDiff := hasDiff } := by
  induction buckets generalizing s with
  | nil => exact ⟨s.hasDiff, by simp⟩
  | cons bucket rest ih =>
    obtain ⟨hlt, hcovered⟩ := hin bucket mem_cons_self
    have hrest := ih fun bucket hbucket => hin bucket (mem_cons_of_mem _ hbucket)
    rw [map_cons, foldl_cons, reconstructInto, reconstructBucket_eq hans hlt hcovered]
    cases hpeels : peels xxh3 numBuckets a b bucket with
    | true =>
      obtain ⟨hasDiff, heq⟩ := hrest { s with
        rows := s.rows ++ peeledRows xxh3 numBuckets a b bucket
        hasDiff := Function.update s.hasDiff bucket true }
      exact ⟨hasDiff, heq.trans (by simp [hpeels])⟩
    | false =>
      obtain ⟨hasDiff, heq⟩ := hrest { s with failed := s.failed ++ [bucket] }
      exact ⟨hasDiff, heq.trans (by simp [hpeels])⟩

section

variable (hans : SketchAnswer xxh3 numBuckets a b asked response)

include hans

section

variable (hlt : ∀ bucket ∈ asked, bucket < numBuckets)

include hlt

theorem SketchAnswer.reconstruct_eq : ∃ hasDiff, reconstruct xxh3 numBuckets a response =
    { rows := ((requestedOf a b asked).filter (sampled xxh3 numBuckets b.store)).flatMap
          (bucketRows xxh3 numBuckets b.store) ++
        ((requestedOf a b asked).filter fun bucket => !sampled xxh3 numBuckets b.store bucket &&
          peels xxh3 numBuckets a b bucket).flatMap (peeledRows xxh3 numBuckets a b)
      failed := (requestedOf a b asked).filter fun bucket =>
        !sampled xxh3 numBuckets b.store bucket && !peels xxh3 numBuckets a b bucket
      hasDiff := hasDiff } := by
  obtain ⟨hasDiff, heq⟩ := @foldl_reconstructInto xxh3 numBuckets a b asked response hans.answers
    ((requestedOf a b asked).filter fun bucket => !sampled xxh3 numBuckets b.store bucket)
    (fun bucket hbucket =>
      have hreq := mem_of_mem_filter hbucket
      ⟨hlt _ (mem_requestedOf.mp hreq).1, hans.covered ▸ hreq⟩) { rows := response.rows }
  refine ⟨hasDiff, ?_⟩
  rw [reconstruct, hans.sketches, heq, hans.rows, filter_filter, filter_filter, nil_append]
  simp only [Bool.and_comm]

theorem SketchAnswer.mem_failed {bucket : Nat} :
    bucket ∈ failedBuckets xxh3 numBuckets a response ↔
      bucket ∈ unpeeledBuckets xxh3 numBuckets a b asked := by
  obtain ⟨hasDiff, heq⟩ := hans.reconstruct_eq hlt
  rw [failedBuckets, mem_dedup, mem_insertionSort, heq, mem_unpeeledBuckets hlt, mem_filter,
    Bool.and_eq_true, Bool.not_eq_true', Bool.not_eq_true', sampled_eq_false]

theorem SketchAnswer.failedBuckets_eq_nil : failedBuckets xxh3 numBuckets a response = [] ↔
    unpeeledBuckets xxh3 numBuckets a b asked = [] := by
  rw [eq_nil_iff_forall_not_mem, eq_nil_iff_forall_not_mem]
  simp only [hans.mem_failed hlt]

end

theorem SketchAnswer.decodes (hlength : b.digestForRound.length = numBuckets) :
    response.decodes (groupCount numBuckets) = true := by
  refine decodes_of ?_ (fun row hrow => ?_) (fun p hp => ?_) hans.nodup_sketches
    (fun row hrow hsketch => ?_)
  · rw [hans.answers.groups]
    simp [groupDigests, hlength]
  · obtain ⟨bucket, hreq, -, hin⟩ := hans.mem_rows.mp hrow
    rw [bucket_of_mem_bucketRows hin, hans.covered]
    exact hreq
  · rw [hans.covered]
    exact (hans.mem_sketches.mp hp).1
  · obtain ⟨bucket, -, hfew, hin⟩ := hans.mem_rows.mp hrow
    obtain ⟨p, hp, heq⟩ := mem_map.mp hsketch
    rw [bucket_of_mem_bucketRows hin] at heq
    have hmany := (hans.mem_sketches.mp hp).2.1
    rw [heq, hfew] at hmany
    cases hmany

end

end Asked

/-! ## 3. The sync message -/

/-- An answer whose rows are in covered buckets, as those of the sketches in it. -/
structure Consistent (xxh3 : Bytes → UInt64) (numBuckets : Nat) (a b : AntiEntropyManager)
    (asked : List Nat) (response : DigestResponse) (rows : List MetaRow) : Prop where
  answers : Answers xxh3 a b asked response
  groups : response.groupHashes.length = groupCount numBuckets
  sketches : ∀ p ∈ response.ibltSketches, p.1 ∈ response.coveredBuckets
  sketchesNodup : (response.ibltSketches.map Prod.fst).Nodup
  rows : ∀ row ∈ rows, row.bucket ∈ response.coveredBuckets

def syncOf (a : AntiEntropyManager) (diff : MetaDiff) : SyncMessage where
  entries := (selectEntriesForPairs a.store diff.have_ a.fetchBytes).map
    fun p => SyncEntry.toWire a.clock p.1 p.2
  needs := diff.need

section Asked

variable {asked : List Nat} {response : DigestResponse}

theorem Consistent.mem_divergentBuckets {rows : List MetaRow}
    (h : Consistent xxh3 numBuckets a b asked response rows)
    (hlt : ∀ bucket ∈ asked, bucket < numBuckets) (hasDiff : Nat → Bool) (bucket : Nat) :
    bucket ∈ divergentBuckets numBuckets a response hasDiff ↔ bucket ∈ requestedOf a b asked := by
  rw [divergentBuckets, mem_filter, mem_range, Bool.or_eq_true, any_eq_true, mem_requestedOf]
  constructor
  · rintro ⟨-, ⟨p, hp, hdiffers⟩ | hsketch⟩
    · obtain ⟨hasked, hhash⟩ := (h.answers.hashes p).mp hp
      rw [Bool.and_eq_true, beq_iff_eq, bne_iff_ne, hhash] at hdiffers
      obtain ⟨rfl, hne⟩ := hdiffers
      exact ⟨hasked, hne⟩
    · rw [Bool.and_eq_true, Bool.and_eq_true, contains_iff_mem] at hsketch
      exact h.answers.differ bucket hsketch.1.2
  · rintro ⟨hasked, hne⟩
    refine ⟨hlt bucket hasked, .inl ⟨(bucket, b.localHash bucket), ?_, ?_⟩⟩
    · exact (h.answers.hashes _).mpr ⟨hasked, rfl⟩
    · rw [beq_self_eq_true, Bool.true_and, bne_iff_ne]
      exact hne

theorem resolve_eq {s : Reconstruction} (h : Consistent xxh3 numBuckets a b asked response s.rows)
    (hlt : ∀ bucket ∈ asked, bucket < numBuckets) :
    resolve xxh3 numBuckets a response s =
      if requestedOf a b asked = [] then .ok none
      else .ok (some (syncOf a (diffRows xxh3 numBuckets a.store s.rows (requestedOf a b asked)
        response.coveredBuckets))) := by
  have hdivergent := h.mem_divergentBuckets hlt s.hasDiff
  have hdiffers : ∀ bucket ∈ response.coveredBuckets, bucket ∈ requestedOf a b asked :=
    fun bucket hbucket => mem_requestedOf.mpr (h.answers.differ bucket hbucket)
  have hcoveredLt : ∀ bucket ∈ response.coveredBuckets, bucket < numBuckets :=
    fun bucket hbucket => hlt _ (h.answers.differ bucket hbucket).1
  have hbuckets : ¬ (response.bucketHashes.any (fun p => numBuckets ≤ p.1) = true ∨
      ¬ (response.bucketHashes.map Prod.fst).Nodup) := by
    simpa [h.answers.nodup] using fun bucket hash hp =>
      hlt _ ((h.answers.hashes (bucket, hash)).mp hp).1
  have hsketches : ¬ (response.ibltSketches.any (fun p => numBuckets ≤ p.1) = true ∨
      ¬ (response.ibltSketches.map Prod.fst).Nodup) := by
    simpa [h.sketchesNodup] using fun bucket sketch hp =>
      hcoveredLt _ (h.sketches (bucket, sketch) hp)
  -- no sketch is left to be counted as covered
  have hextra : ((range numBuckets).filter fun bucket =>
      response.ibltSketches.any (fun p => p.1 == bucket) &&
        !response.coveredBuckets.contains bucket) = [] := by
    refine filter_eq_nil_iff.mpr fun bucket _ hextra => ?_
    rw [Bool.and_eq_true, any_eq_true] at hextra
    obtain ⟨⟨p, hp, heq⟩, hnot⟩ := hextra
    obtain rfl : p.1 = bucket := by simpa using heq
    simp [h.sketches p hp] at hnot
  have hcovered : response.coveredBuckets.any (fun bucket => numBuckets ≤ bucket) = false := by
    simpa [any_eq_false] using hcoveredLt
  have hrows : s.rows.any (fun row => numBuckets ≤ row.bucket ||
      !response.coveredBuckets.contains row.bucket ||
        !(divergentBuckets numBuckets a response s.hasDiff).contains row.bucket) = false := by
    refine any_eq_false.mpr fun row hrow => ?_
    have hin := h.rows row hrow
    simp [hin, (hdivergent _).mpr (hdiffers _ hin), hcoveredLt _ hin]
  have hnil : divergentBuckets numBuckets a response s.hasDiff = [] ↔
    requestedOf a b asked = [] := by
    rw [eq_nil_iff_forall_not_mem, eq_nil_iff_forall_not_mem]
    simp only [hdivergent]
  unfold resolve
  rw [if_neg hbuckets, if_neg hsketches, if_neg (not_not.mpr h.groups)]
  simp only [hnil]
  split
  · rfl
  · rw [hextra, append_nil, if_neg (Bool.eq_false_iff.mp hcovered),
      if_neg (Bool.eq_false_iff.mp hrows),
      diffRows_congr a.store s.rows hdivergent fun _ => Iff.rfl]
    rfl

end Asked

/-! ## 4. The fallback -/

theorem setHash_eq_self {hashes : List (Nat × UInt64)} (hnodup : (hashes.map Prod.fst).Nodup)
    {p : Nat × UInt64} (hp : p ∈ hashes) : setHash hashes p = hashes := by
  induction hashes with
  | nil => exact absurd hp not_mem_nil
  | cons q rest ih =>
    obtain ⟨hq, hrest⟩ := nodup_cons.mp hnodup
    unfold setHash
    rcases mem_cons.mp hp with rfl | hp
    · rw [if_pos rfl]
    · have hne : q.1 ≠ p.1 := fun heq => hq (heq ▸ mem_map_of_mem hp)
      rw [if_neg hne, ih hrest hp]

theorem foldl_setHash_eq_self {hashes new : List (Nat × UInt64)}
    (hnodup : (hashes.map Prod.fst).Nodup) (hnew : ∀ p ∈ new, p ∈ hashes) :
    new.foldl setHash hashes = hashes := by
  induction new with
  | nil => rfl
  | cons p new ih =>
    rw [foldl_cons, setHash_eq_self hnodup (hnew p mem_cons_self)]
    exact ih fun q hq => hnew q (mem_cons_of_mem _ hq)

theorem mem_covered_mergeFallback {fallback : DigestResponse} {rows : List MetaRow}
    {failed : List Nat} :
    bucket ∈ (mergeFallback response rows failed fallback).coveredBuckets ↔
      bucket ∈ response.coveredBuckets ∧ bucket ∉ failed ∨ bucket ∈ fallback.coveredBuckets := by
  simp only [mergeFallback, mem_dedup, mem_insertionSort, mem_append, mem_filter, decide_eq_true_eq]

theorem reconstruct_mergeFallback {fallback : DigestResponse} {rows : List MetaRow}
    {failed : List Nat} :
    reconstruct xxh3 numBuckets a (mergeFallback response rows failed fallback) =
      { rows := (mergeFallback response rows failed fallback).rows } := rfl

section Asked

variable {asked : List Nat} {response : DigestResponse}

theorem SketchAnswer.fallback (hans : SketchAnswer xxh3 numBuckets a b asked response)
    (hlength : a.digestForRound.length = numBuckets) (hlt : ∀ bucket ∈ asked, bucket < numBuckets) :
    ∃ asked' fallback, asked'.Perm (unpeeledBuckets xxh3 numBuckets a b asked) ∧
      fallbackRequest a (failedBuckets xxh3 numBuckets a response) = asking a asked' true ∧
      onBucketRefinement xxh3 numBuckets b (asking a asked' true) = some fallback ∧
      Answers xxh3 a b asked' fallback ∧ fallback.ibltSketches = [] ∧
      fallback.coveredBuckets = collectedBuckets xxh3 numBuckets a b asked ∧
      fallback.rows = (collectedBuckets xxh3 numBuckets a b asked).flatMap
        (sortedRows xxh3 numBuckets b.store) := by
  have hasked' : ∀ bucket, bucket ∈ (failedBuckets xxh3 numBuckets a response).filter
      (fun c => c < a.digestForRound.length) ↔
        bucket ∈ unpeeledBuckets xxh3 numBuckets a b asked := by
    intro bucket
    rw [mem_filter, hans.mem_failed hlt, hlength, decide_eq_true_eq, and_iff_left_iff_imp]
    exact fun hbucket => hlt _ (mem_requestedOf.mp ((mem_unpeeledBuckets hlt).mp hbucket).1).1
  have hnodup : ((failedBuckets xxh3 numBuckets a response).filter
      fun c => c < a.digestForRound.length).Nodup := (nodup_dedup _).filter _
  -- the partner finds all of them different
  have hwanted : unpeeledBuckets xxh3 numBuckets a b asked = (range numBuckets).filter fun c =>
      (requestedOf a b ((failedBuckets xxh3 numBuckets a response).filter
        fun c => c < a.digestForRound.length)).contains c := by
    refine filter_congr fun c hc => ?_
    rw [Bool.eq_iff_iff, contains_iff_mem, mem_requestedOf, hasked']
    have hmem : c ∈ unpeeledBuckets xxh3 numBuckets a b asked ↔ _ :=
      mem_filter.trans (and_iff_right hc)
    rw [← hmem]
    exact ⟨fun hin => ⟨hin, (mem_requestedOf.mp ((mem_unpeeledBuckets hlt).mp hin).1).2⟩, And.left⟩
  obtain ⟨fallback, hfallback, hfans, hsketches, hcovered, hrows⟩ :=
    @onBucketRefinement_rows xxh3 numBuckets a b _ _ hnodup
      (fun bucket hbucket => hlt _ (mem_requestedOf.mp
        ((mem_unpeeledBuckets hlt).mp ((hasked' bucket).mp hbucket)).1).1) hwanted
  refine ⟨_, fallback, (perm_ext_iff_of_nodup hnodup nodup_unpeeledBuckets).mpr hasked',
    rfl, hfallback, hfans, hsketches, hcovered, ?_⟩
  rw [hrows, hcovered]
  rfl

theorem SketchAnswer.bucket_notMem_failed (hans : SketchAnswer xxh3 numBuckets a b asked response)
    (hlt : ∀ bucket ∈ asked, bucket < numBuckets) {row : MetaRow}
    (hrow : row ∈ (reconstruct xxh3 numBuckets a response).rows) :
    row.bucket ∈ response.coveredBuckets ∧
      row.bucket ∉ failedBuckets xxh3 numBuckets a response := by
  rw [hans.mem_failed hlt, mem_unpeeledBuckets hlt, hans.covered]
  obtain ⟨hasDiff, heq⟩ := hans.reconstruct_eq hlt
  rw [heq, mem_append, mem_flatMap, mem_flatMap] at hrow
  rcases hrow with ⟨bucket, hbucket, hin⟩ | ⟨bucket, hbucket, hin⟩
  · obtain ⟨hreq, hfew⟩ := mem_filter.mp hbucket
    rw [bucket_of_mem_bucketRows hin, ← sampled_eq_false, hfew]
    exact ⟨hreq, fun h => Bool.noConfusion h.2.1⟩
  · obtain ⟨hreq, hpeels⟩ := mem_filter.mp hbucket
    rw [Bool.and_eq_true] at hpeels
    rw [bucket_of_mem_peeledRows hin, hpeels.2]
    exact ⟨hreq, fun h => Bool.noConfusion h.2.2⟩

theorem consistent_mergeFallback {fallback : DigestResponse} {asked' failed : List Nat}
    {rows : List MetaRow} (hans : Answers xxh3 a b asked response)
    (hfans : Answers xxh3 a b asked' fallback) (hsub : ∀ bucket ∈ asked', bucket ∈ asked)
    (hgroups : response.groupHashes.length = groupCount numBuckets)
    (hrows : ∀ row ∈ rows, row.bucket ∈ response.coveredBuckets)
    (hfrows : ∀ row ∈ fallback.rows, row.bucket ∈ fallback.coveredBuckets) :
    Consistent xxh3 numBuckets a b asked (mergeFallback response rows failed fallback)
      (mergeFallback response rows failed fallback).rows := by
  -- the hashes of the fallback are those already there
  have hhashes : (mergeFallback response rows failed fallback).bucketHashes =
      response.bucketHashes := by
    refine foldl_setHash_eq_self hans.nodup fun p hp => ?_
    obtain ⟨hasked, hhash⟩ := (hfans.hashes p).mp hp
    exact (hans.hashes p).mpr ⟨hsub _ hasked, hhash⟩
  refine ⟨⟨hans.groups, ?_, ?_, fun bucket hbucket => ?_⟩, hgroups, forall_mem_nil _,
    nodup_nil, fun row hrow => ?_⟩
  · rw [hhashes]
    exact hans.hashes
  · rw [hhashes]
    exact hans.nodup
  · rcases mem_covered_mergeFallback.mp hbucket with ⟨hin, -⟩ | hin
    · exact hans.differ bucket hin
    · exact ⟨hsub _ (hfans.differ bucket hin).1, (hfans.differ bucket hin).2⟩
  · rcases mem_append.mp hrow with hrow | hrow
    · obtain ⟨hrow, hok⟩ := mem_filter.mp hrow
      exact mem_covered_mergeFallback.mpr (.inl ⟨hrows row hrow, of_decide_eq_true hok⟩)
    · exact mem_covered_mergeFallback.mpr (.inr (hfrows row hrow))

theorem SketchAnswer.finishRefinement_eq (hans : SketchAnswer xxh3 numBuckets a b asked response)
    (ha : a.digestForRound.length = numBuckets) (hb : b.digestForRound.length = numBuckets)
    (hlt : ∀ bucket ∈ asked, bucket < numBuckets) :
    finishRefinement xxh3 numBuckets a b response =
      if requestedOf a b asked = [] then .ok none
      else .ok (some (syncOf a (knownDiff xxh3 numBuckets a b asked))) := by
  have hgroups : response.groupHashes.length = groupCount numBuckets := by
    rw [hans.answers.groups]
    simp [groupDigests, hb]
  obtain ⟨hasDiff, heq⟩ := hans.reconstruct_eq hlt
  unfold finishRefinement
  by_cases hfailed : failedBuckets xxh3 numBuckets a response = []
  · -- every sketch was peeled
    have hunpeeled := (hans.failedBuckets_eq_nil hlt).mp hfailed
    have hcollected : collectedBuckets xxh3 numBuckets a b asked = [] := by
      rw [collectedBuckets, hunpeeled, take_nil]
    have hcons : Consistent xxh3 numBuckets a b asked response
        (reconstruct xxh3 numBuckets a response).rows :=
      ⟨hans.answers, hgroups, fun p hp => hans.covered ▸ (hans.mem_sketches.mp hp).1,
        hans.nodup_sketches, fun row hrow => (hans.bucket_notMem_failed hlt hrow).1⟩
    have hknown : knownRows xxh3 numBuckets a b asked =
        (reconstruct xxh3 numBuckets a response).rows := by
      rw [knownRows, hcollected, heq, flatMap_nil, append_nil]
    rw [if_pos hfailed, resolve_eq hcons hlt, knownDiff, hknown,
      diffRows_congr a.store _ (fun _ => Iff.rfl) fun bucket => ?_]
    rw [hans.covered, mem_comparedBuckets, hunpeeled, hcollected]
    simp
  · -- the failed ones are asked for once more
    obtain ⟨asked', fallback, hasked', hrequest, hfallback, hfans, hfsketches, hfcovered, hfrows⟩ :=
      hans.fallback ha hlt
    have hsub : ∀ bucket ∈ asked', bucket ∈ asked := fun bucket hbucket =>
      (mem_requestedOf.mp ((mem_unpeeledBuckets hlt).mp (hasked'.mem_iff.mp hbucket)).1).1
    have hrowsIn : ∀ row ∈ fallback.rows, row.bucket ∈ fallback.coveredBuckets := by
      intro row hrow
      rw [hfrows] at hrow
      obtain ⟨bucket, hbucket, hin⟩ := mem_flatMap.mp hrow
      rw [hfcovered, bucket_of_mem_bucketRows (mem_sortedRows.mp hin)]
      exact hbucket
    have hfdecodes : fallback.decodes (groupCount numBuckets) = true := by
      refine decodes_of ?_ hrowsIn ?_ ?_ ?_
      · rw [hfans.groups, ← hans.answers.groups, hgroups]
      all_goals rw [hfsketches]; simp
    have hcons : Consistent xxh3 numBuckets a b asked (mergeFallback response
        (reconstruct xxh3 numBuckets a response).rows (failedBuckets xxh3 numBuckets a response)
          fallback) _ := consistent_mergeFallback hans.answers hfans hsub hgroups
        (fun row hrow => (hans.bucket_notMem_failed hlt hrow).1) hrowsIn
    have hknown : knownRows xxh3 numBuckets a b asked = (mergeFallback response
        (reconstruct xxh3 numBuckets a response).rows (failedBuckets xxh3 numBuckets a response)
          fallback).rows := by
      refine Eq.symm (congrArg₂ (· ++ ·) ?_ hfrows)
      rw [filter_eq_self.mpr fun row hrow =>
        decide_eq_true (hans.bucket_notMem_failed hlt hrow).2, heq]
    rw [if_neg hfailed, hrequest, hfallback]
    dsimp only
    rw [hfdecodes, if_neg (by decide), reconstruct_mergeFallback, resolve_eq hcons hlt, knownDiff,
      hknown, diffRows_congr a.store _ (fun _ => Iff.rfl) fun bucket => ?_]
    rw [mem_covered_mergeFallback, hans.mem_failed hlt, hans.covered, hfcovered,
      mem_comparedBuckets]

end Asked

/-! ## 5. The round -/

def askedBuckets (xxh3 : Bytes → UInt64) (numBuckets : Nat) (a b : AntiEntropyManager) : List Nat :=
  (divergentGroups xxh3 numBuckets a { groupHashes := groupDigests xxh3 b.digestForRound }).flatMap
    (groupBuckets numBuckets)

theorem askedBuckets_lt : ∀ bucket ∈ askedBuckets xxh3 numBuckets a b, bucket < numBuckets := by
  intro bucket hbucket
  obtain ⟨group, -, hin⟩ := mem_flatMap.mp hbucket
  exact (mem_groupBuckets.mp hin).1

theorem nodup_askedBuckets : (askedBuckets xxh3 numBuckets a b).Nodup := by
  have hgroups := (@nodup_range (groupCount numBuckets)).filter fun group =>
    (groupDigests xxh3 a.digestForRound).getD group 0 !=
      (groupDigests xxh3 b.digestForRound).getD group 0
  refine nodup_flatMap.mpr ⟨fun group _ => nodup_range', hgroups.imp fun hne => ?_⟩
  intro bucket hbucket hbucket'
  exact hne ((mem_groupBuckets.mp hbucket).2.symm.trans (mem_groupBuckets.mp hbucket').2)

theorem length_groupDigests (hashes : List UInt64) :
    (groupDigests xxh3 hashes).length = groupCount hashes.length := by
  rw [groupDigests, length_map, length_range]

theorem onDigestRequest_eq (ha : a.digestForRound.length = numBuckets)
    (hb : b.digestForRound.length = numBuckets) :
    onDigestRequest xxh3 numBuckets b (groupDigests xxh3 a.digestForRound) =
        some { groupHashes := groupDigests xxh3 b.digestForRound } ∧
      DigestResponse.decodes { groupHashes := groupDigests xxh3 b.digestForRound }
        (groupCount numBuckets) = true := by
  constructor
  · rw [onDigestRequest, length_groupDigests, ha, if_neg (not_not.mpr rfl)]
  · refine decodes_of ?_ (forall_mem_nil _) (forall_mem_nil _) nodup_nil (forall_mem_nil _)
    rw [length_groupDigests, hb]

theorem requestedOf_eq_nil (h : divergentGroups xxh3 numBuckets a
      { groupHashes := groupDigests xxh3 b.digestForRound } = []) :
    requestedOf a b (askedBuckets xxh3 numBuckets a b) = [] := by
  rw [askedBuckets, h]
  rfl

theorem runRound_eq (ha : a.digestForRound.length = numBuckets)
    (hb : b.digestForRound.length = numBuckets) :
    runRound xxh3 numBuckets a b = .ok (exchange xxh3 a b
      (if requestedOf a b (askedBuckets xxh3 numBuckets a b) = [] then none
      else some (syncOf a
        (knownDiff xxh3 numBuckets a b (askedBuckets xxh3 numBuckets a b))))) := by
  obtain ⟨hdigest, hdecodes⟩ := @onDigestRequest_eq xxh3 _ _ _ ha hb
  obtain ⟨refined, hrefined, hans⟩ := @onBucketRefinement_sketches xxh3 numBuckets a b _
    nodup_askedBuckets askedBuckets_lt
  unfold runRound
  rw [hdigest]
  dsimp only
  rw [hdecodes, if_neg (by decide)]
  split
  · rename_i hnone
    rw [if_pos (requestedOf_eq_nil hnone)]
    rfl
  · rw [refinement_eq, ← askedBuckets, hrefined]
    dsimp only
    rw [hans.decodes hb, if_neg (by decide), hans.finishRefinement_eq ha hb askedBuckets_lt]
    by_cases hnone : requestedOf a b (askedBuckets xxh3 numBuckets a b) = []
    · rw [if_pos hnone, if_pos hnone]
    · rw [if_neg hnone, if_neg hnone]

end Messages

end AntiEntropyManager

end Cinder
