/-
One round of anti-entropy between two nodes (`src/node/anti_entropy/core.cpp`).

The initiator sends the digests of its bucket groups. For the groups that differ it asks for
bucket digests; the partner adds, for every bucket that differs, either its rows or a sketch of
them. The initiator peels the sketches against its own, asks once more for rows where that
fails, diffs the rows with its store, pushes what it wins and asks for the rest.

Messages are values; the refusals of the decoders are those of their content. Both sides have
the same number of buckets.
-/
import Cinder.Node.Reconcile

namespace Cinder

open List Function

/-! ## 1. The two sides -/

/-- One side of a round: its store, `digestForRound()`, its clock and `fetchBytes()`. -/
structure AntiEntropyManager where
  store : Table
  digestForRound : List UInt64
  clock : ClockReading
  fetchBytes : Nat

/-- Why a round ends early: the outcome on its span, or a fallback that only logs. -/
inductive RoundFailure where
  | digestFailed | shortResponse | refinementFailed | badRefinement
  | fallbackFailed | badFallback
  | badBuckets | badIbltBuckets | badMetaCoverage | badMetaRow
  deriving DecidableEq, Repr

/-- `decodeBucketRefinement` behind the framing. -/
def BucketRefinement.decodes (request : BucketRefinement) (numBuckets : Nat) : Bool :=
  request.bucketHashes.all fun p => p.1 < numBuckets

/-- The rows of a bucket as long as they are few, then a sketch. -/
structure BucketBuild where
  sample : List MetaRow := []
  sketch : Iblt.Sketch := []
  sketching : Bool := false

/-- The variables of the loop of `finishRefinement` over the sketches. -/
structure Reconstruction where
  failed : List Nat := []
  rows : List MetaRow
  hasDiff : Nat → Bool := fun _ => false

/-- The new hash of a bucket, in the place of the old one if there is one. -/
def setHash : List (Nat × UInt64) → Nat × UInt64 → List (Nat × UInt64)
  | [], p => [p]
  | q :: rest, p => if q.1 = p.1 then p :: rest else q :: setHash rest p

namespace AntiEntropyManager

def localHash (m : AntiEntropyManager) (bucket : Nat) : UInt64 := m.digestForRound.getD bucket 0

section Round

variable (xxh3 : Bytes → UInt64) (numBuckets : Nat)

/-! ## 2. The partner -/

variable (m : AntiEntropyManager)

/-- `none` is `InvalidArgument`. -/
def onDigestRequest (remoteGroups : List UInt64) :
    Option DigestResponse :=
  if remoteGroups.length ≠ groupCount numBuckets then none
  else some { groupHashes := groupDigests xxh3 m.digestForRound }

def addRow (build : BucketBuild) (row : MetaRow) : BucketBuild :=
  if build.sketching then { build with sketch := Iblt.insert xxh3 build.sketch row.toItem }
  else
    let sample := build.sample ++ [row]
    if sample.length = kIbltMinRows then
      match Iblt.build xxh3 (sample.map MetaRow.toItem) Iblt.kDefaultCells with
      | some sketch => { sample := [], sketch, sketching := true }
      | none => { build with sample }
    else { build with sample }

def scanBuilds (t : Table) (requested : List Nat) : Nat → BucketBuild :=
  t.entries.foldl (fun builds e =>
    let bucket := bucketFor xxh3 numBuckets e.1
    if requested.contains bucket then
      update builds bucket (addRow xxh3 (builds bucket) (metaRow xxh3 numBuckets e.1 e.2))
    else builds) fun _ => {}

/-- `none` is `InvalidArgument`. -/
def onBucketRefinement (request : BucketRefinement) :
    Option DigestResponse :=
  if !request.decodes numBuckets then none
  else
    let requested := ((request.bucketHashes.filter fun p => m.localHash p.1 != p.2).map
      Prod.fst).insertionSort (· ≤ ·)
    let response : DigestResponse :=
      { groupHashes := groupDigests xxh3 m.digestForRound
        bucketHashes := (request.bucketHashes.map fun p => (p.1, m.localHash p.1)).insertionSort
          fun p q => p.1 < q.1 ∨ p.1 = q.1 ∧ p.2 ≤ q.2 }
    if request.forceMetadata then
      let collected := collectMetadata xxh3 numBuckets m.store requested kMaxMetadataBytes
      some { response with coveredBuckets := collected.1, rows := collected.2 }
    else
      let builds := scanBuilds xxh3 numBuckets m.store requested
      some { response with
        coveredBuckets := requested
        ibltSketches := (requested.filter fun bucket => (builds bucket).sketching).map
          fun bucket => (bucket, (builds bucket).sketch)
        rows := (requested.filter fun bucket => !(builds bucket).sketching).flatMap
          fun bucket => (builds bucket).sample }

/-- The pushed entries are applied first, then the needlist is served. -/
def onSyncRequest (msg : SyncMessage) : Table × List SyncEntry :=
  let store := m.store.applySync m.clock msg.entries
  (store,
    if msg.needs = [] then []
    else (selectEntriesForHashes xxh3 store msg.needs m.fetchBytes).map
      fun p => SyncEntry.toWire m.clock p.1 p.2)

/-! ## 3. The initiator -/

/-- `difference->local_only` and `difference->remote_only` applied to the local rows. -/
def patchRows (bucket : Nat) (localRows : List MetaRow) (diff : Iblt.Diff) : List MetaRow :=
  let removed := diff.localOnly.map Iblt.Item.keyHash
  localRows.filter (fun row => !removed.contains row.keyHash) ++
    diff.remoteOnly.map (MetaRow.ofItem bucket)

/-- The loop body of `finishRefinement` for one sketch: the partner's rows of the bucket, and
whether the sketches differ; `none` is a failed sketch. The source tests for coverage twice. -/
def reconstructBucket (response : DigestResponse) (bucket : Nat)
    (sketch : Iblt.Sketch) : Option (List MetaRow × Bool) :=
  if numBuckets ≤ bucket ∨ bucket ∉ response.coveredBuckets then none
  else
    let own := collectMetadata xxh3 numBuckets m.store [bucket] kMaxMetadataBytes
    match Iblt.build xxh3 (own.2.map MetaRow.toItem) Iblt.kDefaultCells with
    | none => none
    | some localSketch =>
      if bucket ∉ own.1 then none
      else
        match Iblt.difference xxh3 sketch localSketch,
          response.bucketHashes.find? (fun p => p.1 == bucket) with
        | some diff, some remote =>
          if m.localHash bucket ≠ remote.2 ∧ diff.remoteOnly = [] ∧ diff.localOnly = [] then none
          else some (patchRows bucket own.2 diff,
            !diff.remoteOnly.isEmpty || !diff.localOnly.isEmpty)
        | _, _ => none

def reconstructInto (response : DigestResponse) (s : Reconstruction)
    (p : Nat × Iblt.Sketch) : Reconstruction :=
  match reconstructBucket xxh3 numBuckets m response p.1 p.2 with
  | none => { s with failed := s.failed ++ [p.1] }
  | some (rows, hasDiff) => { s with
      rows := s.rows ++ rows
      hasDiff := update s.hasDiff p.1 hasDiff }

def reconstruct (response : DigestResponse) : Reconstruction :=
  response.ibltSketches.foldl (reconstructInto xxh3 numBuckets m response) { rows := response.rows }

/-- `failed_sketch_buckets`, sorted and without repetitions. -/
def failedBuckets (response : DigestResponse) : List Nat :=
  ((reconstruct xxh3 numBuckets m response).failed.insertionSort (· ≤ ·)).dedup

def fallbackRequest (failed : List Nat) : BucketRefinement where
  bucketHashes := (failed.filter fun bucket => bucket < m.digestForRound.length).map
    fun bucket => (bucket, m.localHash bucket)
  forceMetadata := true

/-- `merged`. The loop of the source that adds the covered buckets which did not fail finds
them all there. -/
def mergeFallback (response : DigestResponse) (rows : List MetaRow) (failed : List Nat)
    (fallback : DigestResponse) : DigestResponse where
  groupHashes := response.groupHashes
  bucketHashes := fallback.bucketHashes.foldl setHash response.bucketHashes
  coveredBuckets := (((response.coveredBuckets.filter fun bucket => bucket ∉ failed) ++
    fallback.coveredBuckets).insertionSort (· ≤ ·)).dedup
  rows := (rows.filter fun row => row.bucket ∉ failed) ++ fallback.rows

def divergentBuckets (response : DigestResponse) (hasDiff : Nat → Bool) : List Nat :=
  (range numBuckets).filter fun bucket =>
    response.bucketHashes.any (fun p => p.1 == bucket && m.localHash bucket != p.2) ||
      (response.ibltSketches.any (fun p => p.1 == bucket) &&
        response.coveredBuckets.contains bucket && hasDiff bucket)

/-- `finishRefinement` when no sketch failed: the sync message, or nothing to be done. -/
def resolve (response : DigestResponse) (s : Reconstruction) :
    Except RoundFailure (Option SyncMessage) :=
  if response.bucketHashes.any (fun p => numBuckets ≤ p.1) ∨
      ¬ (response.bucketHashes.map Prod.fst).Nodup then .error .badBuckets
  else if response.ibltSketches.any (fun p => numBuckets ≤ p.1) ∨
      ¬ (response.ibltSketches.map Prod.fst).Nodup then .error .badIbltBuckets
  else if response.groupHashes.length ≠ groupCount numBuckets then .error .badRefinement
  else
    let divergent := divergentBuckets numBuckets m response s.hasDiff
    if divergent = [] then .ok none
    else
      let covered := response.coveredBuckets ++ (range numBuckets).filter fun bucket =>
        response.ibltSketches.any (fun p => p.1 == bucket) &&
          !response.coveredBuckets.contains bucket
      if covered.any (fun bucket => numBuckets ≤ bucket) then .error .badMetaCoverage
      else if s.rows.any (fun row => numBuckets ≤ row.bucket || !covered.contains row.bucket ||
          !divergent.contains row.bucket) then .error .badMetaRow
      else
        let diff := diffRows xxh3 numBuckets m.store s.rows divergent covered
        .ok (some
          { entries := (selectEntriesForPairs m.store diff.have_ m.fetchBytes).map
              fun p => SyncEntry.toWire m.clock p.1 p.2
            needs := diff.need })

/-- The source calls itself once more on `merged`, which has no sketches, so
that no sketch can fail again (`reconstruct_mergeFallback`). -/
def finishRefinement (a b : AntiEntropyManager) (response : DigestResponse) :
    Except RoundFailure (Option SyncMessage) :=
  let s := reconstruct xxh3 numBuckets a response
  let failed := failedBuckets xxh3 numBuckets a response
  if failed = [] then resolve xxh3 numBuckets a response s
  else
    match onBucketRefinement xxh3 numBuckets b (fallbackRequest a failed) with
    | none => .error .fallbackFailed
    | some fallback =>
      if !fallback.decodes (groupCount numBuckets) then .error .badFallback
      else
        let merged := mergeFallback response s.rows failed fallback
        resolve xxh3 numBuckets a merged (reconstruct xxh3 numBuckets a merged)

def refinement (divergentGroups : List Nat) : BucketRefinement where
  bucketHashes := divergentGroups.flatMap fun group =>
    (groupBuckets numBuckets group).map fun bucket => (bucket, m.localHash bucket)

def divergentGroups (response : DigestResponse) : List Nat :=
  (range (groupCount numBuckets)).filter fun group =>
    (groupDigests xxh3 m.digestForRound).getD group 0 != response.groupHashes.getD group 0

/-- The sync message and its answer: both stores afterwards. -/
def exchange (a b : AntiEntropyManager) : Option SyncMessage → Table × Table
  | none => (a.store, b.store)
  | some msg =>
    let served := onSyncRequest xxh3 b msg
    (a.store.applySync a.clock served.2, served.1)

/-- `runRound` with every request answered: both stores at the end. A round that fails has
changed nothing. -/
def runRound (a b : AntiEntropyManager) : Except RoundFailure (Table × Table) :=
  match onDigestRequest xxh3 numBuckets b (groupDigests xxh3 a.digestForRound) with
  | none => .error .digestFailed
  | some response =>
    if !response.decodes (groupCount numBuckets) then .error .shortResponse
    else
      let groups := divergentGroups xxh3 numBuckets a response
      if groups = [] then .ok (a.store, b.store)
      else
        match onBucketRefinement xxh3 numBuckets b (refinement numBuckets a groups) with
        | none => .error .refinementFailed
        | some refined =>
          if !refined.decodes (groupCount numBuckets) then .error .badRefinement
          else
            match finishRefinement xxh3 numBuckets a b refined with
            | .error failure => .error failure
            | .ok msg => .ok (exchange xxh3 a b msg)

end Round

section Specs

variable {xxh3 : Bytes → UInt64} {numBuckets : Nat} {a b m : AntiEntropyManager}

/-! ## 4. Sampled and sketched buckets -/

def sketchOf (xxh3 : Bytes → UInt64) (rows : List MetaRow) : Iblt.Sketch :=
  (rows.map MetaRow.toItem).foldl (Iblt.insert xxh3) (replicate Iblt.kDefaultCells {})

variable (rows : List MetaRow)

theorem build_eq_sketchOf :
    Iblt.build xxh3 (rows.map MetaRow.toItem) Iblt.kDefaultCells = some (sketchOf xxh3 rows) := by
  rw [Iblt.build, if_neg (by decide), sketchOf]

theorem sketchOf_append (row : MetaRow) :
    sketchOf xxh3 (rows ++ [row]) = Iblt.insert xxh3 (sketchOf xxh3 rows) row.toItem := by
  rw [sketchOf, sketchOf, map_append, foldl_append, map_singleton, foldl_cons, foldl_nil]

theorem foldl_addRow :
    rows.foldl (addRow xxh3) {} =
      if rows.length < kIbltMinRows then { sample := rows }
      else { sketching := true, sketch := sketchOf xxh3 rows } := by
  induction rows using reverseRecOn with
  | nil => rw [if_pos (show ([] : List MetaRow).length < kIbltMinRows by decide), foldl_nil]
  | append_singleton rows row ih =>
    rw [foldl_append, ih, foldl_cons, foldl_nil]
    have hlen : (rows ++ [row]).length = rows.length + 1 := length_append
    by_cases hfew : rows.length < kIbltMinRows
    · rw [if_pos hfew]
      unfold addRow
      rw [if_neg Bool.false_ne_true]
      by_cases hlast : rows.length + 1 = kIbltMinRows
      · -- the sample becomes a sketch
        have hmany : ¬ (rows ++ [row]).length < kIbltMinRows := by omega
        rw [if_pos (hlen.trans hlast), build_eq_sketchOf, if_neg hmany]
      · have hstill : (rows ++ [row]).length < kIbltMinRows := by omega
        rw [if_neg (hlen ▸ hlast), if_pos hstill]
    · have hmany : ¬ (rows ++ [row]).length < kIbltMinRows := by omega
      rw [if_neg hfew, if_neg hmany, sketchOf_append]
      unfold addRow
      rw [if_pos rfl]

variable {bucket : Nat} {asked : List Nat}

theorem foldl_builds (requested : List Nat) (l : List (Sigma fun _ : Key => VersionedEntry))
    (builds : Nat → BucketBuild) (hbucket : bucket ∈ requested) : l.foldl (fun builds e =>
        let bucket := bucketFor xxh3 numBuckets e.1
        if requested.contains bucket then
          update builds bucket (addRow xxh3 (builds bucket) (metaRow xxh3 numBuckets e.1 e.2))
        else builds) builds bucket =
      ((l.filter fun e => bucketFor xxh3 numBuckets e.1 = bucket).map
        fun e => metaRow xxh3 numBuckets e.1 e.2).foldl (addRow xxh3) (builds bucket) := by
  induction l generalizing builds with
  | nil => rfl
  | cons e l ih =>
    rw [foldl_cons, ih, filter_cons]
    by_cases he : bucketFor xxh3 numBuckets e.1 = bucket
    · have hin : requested.contains (bucketFor xxh3 numBuckets e.1) = true := by
        rw [he]
        simpa using hbucket
      simp only [hin, if_true]
      rw [if_pos (decide_eq_true he), map_cons, foldl_cons, ← he, update_self]
    · rw [if_neg (fun h => he (of_decide_eq_true h))]
      split
      · rw [update_of_ne (Ne.symm he)]
      · rfl

/-! ## 5. What the partner answers -/

/-- The two requests of a round are of this form. -/
def asking (a : AntiEntropyManager) (asked : List Nat) (forceMetadata : Bool) :
    BucketRefinement where
  bucketHashes := asked.map fun bucket => (bucket, a.localHash bucket)
  forceMetadata := forceMetadata

theorem refinement_eq (groups : List Nat) :
    refinement numBuckets a groups = asking a (groups.flatMap (groupBuckets numBuckets)) false := by
  rw [refinement, asking, map_flatMap]

/-- What every answer to such a request says about buckets: the hash of each bucket asked for,
once, and coverage only of buckets that differ. -/
structure Answers (xxh3 : Bytes → UInt64) (a b : AntiEntropyManager) (asked : List Nat)
    (response : DigestResponse) : Prop where
  groups : response.groupHashes = groupDigests xxh3 b.digestForRound
  hashes : ∀ p, p ∈ response.bucketHashes ↔ p.1 ∈ asked ∧ p.2 = b.localHash p.1
  nodup : (response.bucketHashes.map Prod.fst).Nodup
  differ : ∀ bucket ∈ response.coveredBuckets,
    bucket ∈ asked ∧ a.localHash bucket ≠ b.localHash bucket

def requestedOf (a b : AntiEntropyManager) (asked : List Nat) : List Nat :=
  (((asked.map fun bucket => (bucket, a.localHash bucket)).filter fun p =>
    b.localHash p.1 != p.2).map Prod.fst).insertionSort (· ≤ ·)

theorem mem_requestedOf :
    bucket ∈ requestedOf a b asked ↔ bucket ∈ asked ∧ a.localHash bucket ≠ b.localHash bucket := by
  simp only [requestedOf, mem_insertionSort, mem_map, mem_filter, bne_iff_ne, ne_eq]
  constructor
  · rintro ⟨p, ⟨⟨c, hc, rfl⟩, hne⟩, rfl⟩
    exact ⟨hc, fun h => hne h.symm⟩
  · rintro ⟨hc, hne⟩
    exact ⟨_, ⟨⟨bucket, hc, rfl⟩, fun h => hne h.symm⟩, rfl⟩

theorem nodup_requestedOf (h : asked.Nodup) : (requestedOf a b asked).Nodup := by
  refine (perm_insertionSort _ _).nodup_iff.mpr ?_
  refine List.Nodup.sublist (filter_sublist.map _) ?_
  rw [map_map]
  exact (map_id asked).symm ▸ h

theorem answers_of (hasked : asked.Nodup) {response : DigestResponse}
    (hgroups : response.groupHashes = groupDigests xxh3 b.digestForRound)
    (hhashes : response.bucketHashes = ((asked.map fun bucket => (bucket, a.localHash bucket)).map
      fun p => (p.1, b.localHash p.1)).insertionSort fun p q => p.1 < q.1 ∨ p.1 = q.1 ∧ p.2 ≤ q.2)
    (hcovered : ∀ bucket ∈ response.coveredBuckets, bucket ∈ requestedOf a b asked) :
    Answers xxh3 a b asked response where
  groups := hgroups
  hashes p := by
    rw [hhashes, mem_insertionSort, map_map, mem_map]
    constructor
    · rintro ⟨c, hc, rfl⟩
      exact ⟨hc, rfl⟩
    · rintro ⟨hc, hp⟩
      exact ⟨p.1, hc, Prod.ext rfl hp.symm⟩
  nodup := by
    rw [hhashes]
    refine ((perm_insertionSort _ _).map Prod.fst).nodup_iff.mpr ?_
    rw [map_map, map_map]
    exact (map_id asked).symm ▸ hasked
  differ bucket hbucket := mem_requestedOf.mp (hcovered bucket hbucket)

theorem decodes_asking {force : Bool} (h : ∀ bucket ∈ asked, bucket < numBuckets) :
    (asking a asked force).decodes numBuckets = true := by
  simp only [BucketRefinement.decodes, asking, all_eq_true, decide_eq_true_eq]
  intro p hp
  obtain ⟨c, hc, rfl⟩ := mem_map.mp hp
  exact h c hc

/-- A bucket with few rows is sent as it is. -/
def sampled (xxh3 : Bytes → UInt64) (numBuckets : Nat) (t : Table) (bucket : Nat) : Bool :=
  (bucketRows xxh3 numBuckets t bucket).length < kIbltMinRows

theorem sampled_eq_false {t : Table} : sampled xxh3 numBuckets t bucket = false ↔
    kIbltMinRows ≤ (bucketRows xxh3 numBuckets t bucket).length :=
  decide_eq_false_iff_not.trans not_lt

/-- The answer with sketches covers every bucket asked for that differs, by its rows if they are
few and by their sketch otherwise. -/
structure SketchAnswer (xxh3 : Bytes → UInt64) (numBuckets : Nat) (a b : AntiEntropyManager)
    (asked : List Nat) (response : DigestResponse) : Prop where
  answers : Answers xxh3 a b asked response
  nodup : (requestedOf a b asked).Nodup
  covered : response.coveredBuckets = requestedOf a b asked
  rows : response.rows = ((requestedOf a b asked).filter
    (sampled xxh3 numBuckets b.store)).flatMap (bucketRows xxh3 numBuckets b.store)
  sketches : response.ibltSketches = ((requestedOf a b asked).filter fun bucket =>
    !sampled xxh3 numBuckets b.store bucket).map fun bucket =>
      (bucket, sketchOf xxh3 (bucketRows xxh3 numBuckets b.store bucket))

theorem onBucketRefinement_sketches {asked : List Nat} (hasked : asked.Nodup)
    (hlt : ∀ bucket ∈ asked, bucket < numBuckets) :
    ∃ response, onBucketRefinement xxh3 numBuckets b (asking a asked false) = some response ∧
      SketchAnswer xxh3 numBuckets a b asked response := by
  have hbuild : ∀ bucket ∈ requestedOf a b asked,
      scanBuilds xxh3 numBuckets b.store (requestedOf a b asked) bucket = _ :=
    fun bucket hbucket => (foldl_builds _ b.store.entries _ hbucket).trans
      (foldl_addRow (bucketRows xxh3 numBuckets b.store bucket))
  have hsketching : ∀ bucket ∈ requestedOf a b asked,
      (scanBuilds xxh3 numBuckets b.store (requestedOf a b asked) bucket).sketching =
        !sampled xxh3 numBuckets b.store bucket := by
    intro bucket hbucket
    rw [hbuild bucket hbucket, sampled]
    split
    · rename_i hfew
      rw [decide_eq_true hfew]
      rfl
    · rename_i hmany
      rw [decide_eq_false hmany]
      rfl
  refine ⟨_, by rw [onBucketRefinement, decodes_asking hlt]; rfl,
    answers_of hasked rfl rfl fun _ => id, nodup_requestedOf hasked, rfl, ?_, ?_⟩
  · change ((requestedOf a b asked).filter fun bucket => !(scanBuilds xxh3 numBuckets b.store
      (requestedOf a b asked) bucket).sketching).flatMap (fun bucket => (scanBuilds xxh3 numBuckets
        b.store (requestedOf a b asked) bucket).sample) = _
    rw [filter_congr fun bucket hbucket => by rw [hsketching bucket hbucket, Bool.not_not]]
    refine flatMap_congr fun bucket hbucket => ?_
    obtain ⟨hreq, hfew⟩ := mem_filter.mp hbucket
    rw [hbuild bucket hreq, if_pos (of_decide_eq_true hfew)]
  · change ((requestedOf a b asked).filter fun bucket => (scanBuilds xxh3 numBuckets b.store
      (requestedOf a b asked) bucket).sketching).map (fun bucket => (bucket, (scanBuilds xxh3
        numBuckets b.store (requestedOf a b asked) bucket).sketch)) = _
    rw [filter_congr hsketching]
    refine map_congr_left fun bucket hbucket => ?_
    obtain ⟨hreq, hmany⟩ := mem_filter.mp hbucket
    rw [Bool.not_eq_true'] at hmany
    rw [hbuild bucket hreq, if_neg (of_decide_eq_false hmany)]

section Answer

variable {asked : List Nat} {response : DigestResponse}

section

variable (h : SketchAnswer xxh3 numBuckets a b asked response)

include h

theorem SketchAnswer.mem_rows {row : MetaRow} :
    row ∈ response.rows ↔ ∃ bucket ∈ requestedOf a b asked,
      sampled xxh3 numBuckets b.store bucket = true ∧
        row ∈ bucketRows xxh3 numBuckets b.store bucket := by
  simp only [h.rows, mem_flatMap, mem_filter, and_assoc]

theorem SketchAnswer.mem_sketches
    {p : Nat × Iblt.Sketch} :
    p ∈ response.ibltSketches ↔ p.1 ∈ requestedOf a b asked ∧
      sampled xxh3 numBuckets b.store p.1 = false ∧
        p.2 = sketchOf xxh3 (bucketRows xxh3 numBuckets b.store p.1) := by
  rw [h.sketches, mem_map]
  constructor
  · rintro ⟨bucket, hbucket, rfl⟩
    obtain ⟨hreq, hmany⟩ := mem_filter.mp hbucket
    exact ⟨hreq, Bool.not_eq_true' _ |>.mp hmany, rfl⟩
  · rintro ⟨hreq, hmany, hsketch⟩
    refine ⟨p.1, mem_filter.mpr ⟨hreq, ?_⟩, Prod.ext rfl hsketch.symm⟩
    rw [hmany]
    rfl

theorem SketchAnswer.nodup_sketches : (response.ibltSketches.map Prod.fst).Nodup := by
  rw [h.sketches, map_map]
  exact (map_id _).symm ▸ h.nodup.filter _

end

end Answer

theorem onBucketRefinement_rows {asked wanted : List Nat} (hasked : asked.Nodup)
    (hlt : ∀ bucket ∈ asked, bucket < numBuckets)
    (hwanted : wanted = (range numBuckets).filter fun c => (requestedOf a b asked).contains c) :
    ∃ response, onBucketRefinement xxh3 numBuckets b (asking a asked true) = some response ∧
      Answers xxh3 a b asked response ∧ response.ibltSketches = [] ∧
      response.coveredBuckets = wanted.take (Budget.count kMaxMetadataBytes (2 * 4)
        (wanted.map (bucketCost xxh3 numBuckets b.store))) ∧
      response.rows = response.coveredBuckets.flatMap (sortedRows xxh3 numBuckets b.store) := by
  have hcollect := @collectMetadata_eq xxh3 numBuckets b.store (requestedOf a b asked)
    kMaxMetadataBytes
  rw [← hwanted] at hcollect
  refine ⟨_, by rw [onBucketRefinement, decodes_asking hlt]; rfl,
    answers_of hasked rfl rfl fun c hc => ?_, rfl, congrArg Prod.fst hcollect, ?_⟩
  · have hmem : c ∈ wanted := mem_of_mem_take (congrArg Prod.fst hcollect ▸ hc)
    rw [hwanted] at hmem
    simpa using (mem_filter.mp hmem).2
  · refine (congrArg Prod.snd hcollect).trans ?_
    exact congrArg (flatMap _) (congrArg Prod.fst hcollect).symm

end Specs

end AntiEntropyManager

end Cinder
