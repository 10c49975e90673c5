/-
The frames of a round of anti-entropy (`src/node/anti_entropy/core.cpp`,
`src/net/tcp/connection.cpp`), and which of them the connection between the two nodes carries.

The budgets of a round count entries and rows; the limits of a connection count frames. The
partner reads a request into a buffer of the size of the default push budget, and its write
queue is as large as the metadata budget.
-/
import Cinder.Node.AntiEntropyCodec
import Cinder.Node.AntiEntropyJoin
import Cinder.Node.WriteFrames

namespace Cinder

open List VersionedEntry

/-! ## 1. Requests and answers -/

inductive RoundPhase where
  | digest | refinement | fallback | sync
  deriving DecidableEq, Repr

/-- What the frames of a round carry besides their messages: the token of the initiator, the ids
of its spans, and the id counter of the partner's server at each request. -/
structure RoundLink where
  token : Option HmacDigest
  traceId : RoundPhase → UInt64
  spanId : RoundPhase → UInt64
  minted : RoundPhase → UInt64

inductive RoundFrame where
  | request (req : Request) (token : Option HmacDigest)
  | response (res : Response)

/-- A request is carried if the partner agrees to read it, an answer if it can be encoded and does
not overflow the write queue. -/
def RoundFrame.fits : RoundFrame → Bool
  | .request req token => req.arrives (wireToken token)
  | .response res => res.frameSize.any fun size => size ≤ kMaxWriteQueueBytes

namespace RoundLink

variable (link : RoundLink)

def request (phase : RoundPhase) (opcode : Opcode) (key : Key) (value : Bytes) : Request :=
  { opcode, key, value, traceId := link.traceId phase, spanId := link.spanId phase }

/-- The answer to a request as it was received; `none` is `InvalidArgument`. -/
def response (phase : RoundPhase) (req : Request) (value : Option Bytes) : Response :=
  let received := assignTrace (link.minted phase) req
  { status := if value.isSome then .ok else .invalidArgument
    value
    traceId := received.traceId
    spanId := received.spanId }

def exchange (phase : RoundPhase) (opcode : Opcode) (key : Key) (value : Bytes)
    (answer : Option Bytes) : List RoundFrame :=
  let req := link.request phase opcode key value
  [.request req link.token, .response (link.response phase req answer)]

/-- The bytes of a request that are neither key nor value. -/
def overhead (phase : RoundPhase) : Nat :=
  25 + (if link.traceId phase ≠ 0 then 16 else 0) + (wireToken link.token).length

end RoundLink

namespace AntiEntropyManager

section Frames

variable (xxh3 : Bytes → UInt64) (numBuckets : Nat) (link : RoundLink)

def refinementKey : Key := text "bucket-refinement-v3"

/-- `finishRefinement`: the request for the rows of failed sketches. -/
def fallbackFrames (a b : AntiEntropyManager) (refined : DigestResponse) : List RoundFrame :=
  let failed := failedBuckets xxh3 numBuckets a refined
  if failed = [] then []
  else link.exchange .fallback .antiEntropyDigest refinementKey
    (encodeBucketRefinement (fallbackRequest a failed))
    ((onBucketRefinement xxh3 numBuckets b (fallbackRequest a failed)).map encodeDigestResponse)

/-- `finishRefinement`: the sync message, and the entries served for it. -/
def syncFrames (a b : AntiEntropyManager) (refined : DigestResponse) : List RoundFrame :=
  match finishRefinement xxh3 numBuckets a b refined with
  | .ok (some msg) => link.exchange .sync .antiEntropySync [] (encodeSync msg)
      (some (encodeSync { entries := (onSyncRequest xxh3 b msg).2 }))
  | _ => []

/-- The frames of `runRound`, in the order in which they are sent. -/
def roundFrames (a b : AntiEntropyManager) : List RoundFrame :=
  let groups := groupDigests xxh3 a.digestForRound
  let answer := onDigestRequest xxh3 numBuckets b groups
  link.exchange .digest .antiEntropyDigest [] (encodeGroupDigest groups)
      (answer.map encodeDigestResponse) ++
    match answer with
    | none => []
    | some response =>
      let divergent := divergentGroups xxh3 numBuckets a response
      if !response.decodes (groupCount numBuckets) ∨ divergent = [] then []
      else
        let request := refinement numBuckets a divergent
        let answer := onBucketRefinement xxh3 numBuckets b request
        link.exchange .refinement .antiEntropyDigest refinementKey (encodeBucketRefinement request)
            (answer.map encodeDigestResponse) ++
          match answer with
          | none => []
          | some refined =>
            if !refined.decodes (groupCount numBuckets) then []
            else fallbackFrames xxh3 numBuckets link a b refined ++
              syncFrames xxh3 numBuckets link a b refined

end Frames

/-! ## 2. Default nodes -/

/-- `anti_entropy_buckets`. -/
def kDefaultBuckets : Nat := 256

/-- `AntiEntropyTuning::fetch_bytes`. -/
def kDefaultFetchBytes : Nat := 1048576

/-- Key and value came in one request that a connection agreed to read. -/
def AcceptedOverTcp (key : Key) (entry : VersionedEntry) : Prop :=
  ∃ (req : Request) (token : Option HmacDigest), req.arrives (wireToken token) = true ∧
    key.length + entry.value.length ≤ req.key.length + req.value.length

structure DefaultNode (m : AntiEntropyManager) : Prop where
  buckets : m.digestForRound.length = kDefaultBuckets
  fetch : m.fetchBytes = kDefaultFetchBytes
  accepted : ∀ key entry, m.store.lookup key = some entry → AcceptedOverTcp key entry

/-- The rows of the buckets that do not peel fit the write queue, with the digests of the groups and
of the buckets asked for, and the counts. -/
def FallbackFits (xxh3 : Bytes → UInt64) (a b : AntiEntropyManager) : Prop :=
  let asked := askedBuckets xxh3 kDefaultBuckets a b
  let unpeeled := unpeeledBuckets xxh3 kDefaultBuckets a b asked
  unpeeled = [] ∨
    185 + unpeeled.length * 12 + ((collectedBuckets xxh3 kDefaultBuckets a b asked).map
      (bucketCost xxh3 kDefaultBuckets b.store)).sum ≤ kMaxWriteQueueBytes

/-- The entries pushed for some pairs: from the front as long as they fit, one in any case. -/
def pushedCosts (m : AntiEntropyManager) (pairs : List (UInt64 × Key)) : List Nat :=
  let costs := wireSizes (residents m.store pairs)
  costs.take (Budget.count m.fetchBytes 0 costs)

/-- The entries pushed and the hashes asked for fit the read buffer; which these are, by the stamps
of the two stores, is `Comparable.knownDiff_spec`. -/
def SyncFits (xxh3 : Bytes → UInt64) (link : RoundLink) (a b : AntiEntropyManager) : Prop :=
  let asked := askedBuckets xxh3 kDefaultBuckets a b
  let diff := knownDiff xxh3 kDefaultBuckets a b asked
  requestedOf a b asked = [] ∨
    link.overhead .sync + 12 + (pushedCosts a diff.have_).sum + diff.need.length * 8 ≤ 1048569

/-! ## 3. One exchange -/

theorem wireToken_cases (token : Option HmacDigest) :
    wireToken token = [] ∨ (wireToken token).length = 32 := by
  cases token with
  | none => exact .inl rfl
  | some digest => exact .inr digest.length_eq

variable (link : RoundLink)

variable (phase : RoundPhase)

theorem overhead_le : link.overhead phase ≤ 73 := by
  unfold RoundLink.overhead
  have htoken : (wireToken link.token).length ≤ 32 := by
    rcases wireToken_cases link.token with h | h
    · rw [h]
      exact Nat.zero_le _
    · exact h.le
  split <;> omega

theorem fits_request_iff (opcode : Opcode) (key : Key) (value : Bytes) :
    (RoundFrame.request (link.request phase opcode key value) link.token).fits = true ↔
      link.overhead phase + key.length + value.length ≤ 1048569 := by
  refine (Request.arrives_iff (wireToken_cases link.token)).trans ?_
  have hsize : (link.request phase opcode key value).payloadSize (wireToken link.token) =
      25 + key.length + value.length + 0 + 0 + (if link.traceId phase ≠ 0 then 16 else 0) +
        (wireToken link.token).length := rfl
  rw [hsize, RoundLink.overhead]
  omega

theorem fits_response_iff (req : Request) (value : Option Bytes) :
    (RoundFrame.response (link.response phase req value)).fits = true ↔
      29 + value.elim 0 List.length ≤ kMaxWriteQueueBytes := by
  have htrace : (link.response phase req value).traceId ≠ 0 := traceId_assignTrace_ne_zero _ req
  have hsize : (link.response phase req value).payloadSize =
      6 + 0 + 0 + value.elim 0 List.length + 16 := by
    rw [Response.payloadSize, if_pos htrace]
    rfl
  have hmessage : kMaxMessageSize = 67108864 := rfl
  have hheader : kFrameHeaderSize = 7 := rfl
  have hqueue : kMaxWriteQueueBytes = 4194304 := rfl
  rw [RoundFrame.fits, Response.frameSize, hsize]
  split
  · rw [Option.any_some, decide_eq_true_eq]
    omega
  · rw [Option.any_none]
    constructor
    · intro h
      cases h
    · intro h
      omega

variable {value : Bytes}

theorem exchange_fits_iff {link : RoundLink} {phase : RoundPhase} {opcode : Opcode} {key : Key}
    {answer : Option Bytes} :
    (∀ frame ∈ link.exchange phase opcode key value answer, frame.fits = true) ↔
      link.overhead phase + key.length + value.length ≤ 1048569 ∧
        29 + answer.elim 0 List.length ≤ kMaxWriteQueueBytes := by
  rw [RoundLink.exchange, forall_mem_cons, forall_mem_singleton, fits_request_iff,
    fits_response_iff]

/-! ## 4. Messages that always fit -/

theorem length_le_of_forall_lt {l : List Nat} {n : Nat} (hnodup : l.Nodup) (hlt : ∀ x ∈ l, x < n) :
    l.length ≤ n := by
  have hsub := hnodup.subperm fun x hx => mem_range.mpr (hlt x hx)
  simpa using hsub.length_le

theorem sum_map_le_mul {α : Type} {l : List α} {f : α → Nat} {n most : Nat} (hlength : l.length ≤ n)
    (h : ∀ x ∈ l, f x ≤ most) : (l.map f).sum ≤ n * most := by
  refine (sum_le_card_nsmul _ most fun cost hcost => ?_).trans ?_
  · obtain ⟨x, hx, rfl⟩ := mem_map.mp hcost
    exact h x hx
  · rw [length_map, smul_eq_mul]
    exact Nat.mul_le_mul_right _ hlength

theorem length_refinementKey : refinementKey.length = 20 := by decide

theorem length_sketchOf (xxh3 : Bytes → UInt64) (rows : List MetaRow) :
    (sketchOf xxh3 rows).length = Iblt.kDefaultCells := by
  have hmodify : ∀ (ps : List Nat) (f : Iblt.Cell → Iblt.Cell) (sketch : Iblt.Sketch),
      (ps.foldl (fun cells pos => cells.modify pos f) sketch).length = sketch.length := by
    intro ps f sketch
    induction ps generalizing sketch with
    | nil => rfl
    | cons p ps ih => rw [foldl_cons, ih, length_modify]
  induction rows using reverseRecOn with
  | nil => exact length_replicate
  | append_singleton rows row ih => rw [sketchOf_append, Iblt.insert, hmodify, ih]

section Sizes

variable {xxh3 : Bytes → UInt64} {numBuckets : Nat} {a b : AntiEntropyManager} {asked : List Nat}
  {response : DigestResponse}

theorem Answers.length_bucketHashes (hans : Answers xxh3 a b asked response)
    (hnodup : asked.Nodup) : response.bucketHashes.length = asked.length := by
  rw [← length_map (f := Prod.fst)]
  refine ((perm_ext_iff_of_nodup hans.nodup hnodup).mpr fun bucket => ?_).length_eq
  rw [mem_map]
  constructor
  · rintro ⟨p, hp, rfl⟩
    exact ((hans.hashes p).mp hp).1
  · intro hbucket
    exact ⟨(bucket, b.localHash bucket), (hans.hashes _).mpr ⟨hbucket, rfl⟩, rfl⟩

theorem SketchAnswer.length_encode_le (hans : SketchAnswer xxh3 numBuckets a b asked response)
    (hnodup : asked.Nodup) (hlt : ∀ bucket ∈ asked, bucket < numBuckets) :
    (encodeDigestResponse response).length ≤
      28 + groupCount b.digestForRound.length * 8 + numBuckets * 4003 := by
  have hasked := length_le_of_forall_lt hnodup hlt
  have hrequested : (requestedOf a b asked).length ≤ numBuckets :=
    length_le_of_forall_lt hans.nodup fun bucket hbucket => hlt _ (mem_requestedOf.mp hbucket).1
  have hrows : response.rows.length ≤ numBuckets * 31 := by
    rw [hans.rows, length_flatMap]
    refine sum_map_le_mul ((length_filter_le _ _).trans hrequested) fun bucket hbucket => ?_
    exact Nat.le_of_lt_succ (of_decide_eq_true (mem_filter.mp hbucket).2)
  have hsketches : (response.ibltSketches.map fun p => 8 + (Iblt.encode p.2).length).sum ≤
      numBuckets * 3088 := by
    have hfewer : response.ibltSketches.length ≤ numBuckets := by
      rw [hans.sketches, length_map]
      exact (length_filter_le _ _).trans hrequested
    refine sum_map_le_mul hfewer fun p hp => ?_
    have hencode := Iblt.length_encode_le p.2
    have hlength : p.2.length = 64 := (hans.mem_sketches.mp hp).2.2 ▸ length_sketchOf xxh3 _
    rw [hlength, Iblt.kCellBytes] at hencode
    omega
  rw [length_encodeDigestResponse, hans.answers.groups, length_groupDigests, hans.covered,
    hans.answers.length_bucketHashes hnodup, kMetaRowBytes]
  omega

theorem wireSizes_selectEntriesForPairs (t : Table) (pairs : List (UInt64 × Key)) (maxBytes : Nat) :
    wireSizes (selectEntriesForPairs t pairs maxBytes) = (wireSizes (residents t pairs)).take
      (Budget.count maxBytes 0 (wireSizes (residents t pairs))) := by
  rw [selectEntriesForPairs_eq, wireSizes, map_take, ← wireSizes]

variable {t : Table}

theorem sum_selectEntriesForPairs_le {most : Nat}
    (hmost : ∀ key entry, t.lookup key = some entry → syncEntryWireSize key entry ≤ most)
    (pairs : List (UInt64 × Key)) (maxBytes : Nat) :
    (wireSizes (selectEntriesForPairs t pairs maxBytes)).sum ≤ max maxBytes most := by
  have hcosts : ∀ cost ∈ wireSizes (residents t pairs), cost ≤ most := by
    intro cost hcost
    obtain ⟨p, hp, rfl⟩ := mem_map.mp hcost
    obtain ⟨pair, -, hpair⟩ := mem_filterMap.mp hp
    obtain ⟨entry, hentry, rfl⟩ := Option.map_eq_some_iff.mp hpair
    exact hmost _ _ hentry
  have hsum := @Budget.used_add_sum_le maxBytes 0 (wireSizes (residents t pairs)) most hcosts
  rw [zero_add, zero_add] at hsum
  rwa [wireSizes_selectEntriesForPairs]

theorem sum_selectEntriesForHashes_le {t : Table} {most : Nat}
    (hmost : ∀ key entry, t.lookup key = some entry → syncEntryWireSize key entry ≤ most)
    (hashes : List UInt64) (maxBytes : Nat) :
    (wireSizes (selectEntriesForHashes xxh3 t hashes maxBytes)).sum ≤ max maxBytes most := by
  unfold selectEntriesForHashes
  split
  · exact Nat.zero_le _
  · exact sum_selectEntriesForPairs_le hmost _ _

theorem forall_lookup_applySync {P : Key → VersionedEntry → Prop} (clk : ClockReading)
    {entries : List SyncEntry} (ht : ∀ key entry, t.lookup key = some entry → P key entry)
    (hentries : ∀ w ∈ entries, P w.key (w.ofWire clk)) :
    ∀ key entry, (t.applySync clk entries).lookup key = some entry → P key entry := by
  induction entries generalizing t with
  | nil => exact ht
  | cons w entries ih =>
    refine ih (fun key entry hentry => ?_) fun w' hw' => hentries w' (mem_cons_of_mem _ hw')
    have hput := hentries w mem_cons_self
    have hinsert : (t.insert w.key (w.ofWire clk)).lookup key = some entry → P key entry := by
      intro hentry
      by_cases hkey : key = w.key
      · subst hkey
        rw [AList.lookup_insert] at hentry
        exact Option.some.inj hentry ▸ hput
      · rw [AList.lookup_insert_ne hkey] at hentry
        exact ht key entry hentry
    dsimp only [Table.putVersioned] at hentry
    split at hentry
    · split at hentry
      · exact ht key entry hentry
      · exact hinsert hentry
    · exact hinsert hentry

theorem value_ofWire (clk : ClockReading) (w : SyncEntry) : (w.ofWire clk).value = w.value := by
  unfold SyncEntry.ofWire
  split <;> rfl

theorem AcceptedOverTcp.length_le {key : Key} {entry : VersionedEntry}
    (h : AcceptedOverTcp key entry) : key.length + entry.value.length ≤ 1048544 := by
  obtain ⟨req, token, harrives, hle⟩ := h
  have hpayload := (Request.arrives_iff (wireToken_cases token)).mp harrives
  unfold Request.payloadSize at hpayload
  omega

theorem length_encodeSync_syncOf (diff : MetaDiff) :
    (encodeSync (syncOf a diff)).length =
      12 + (pushedCosts a diff.have_).sum + diff.need.length * 8 := by
  have hsizes : (syncOf a diff).entries.map (fun w => w.encode.length) =
      wireSizes (selectEntriesForPairs a.store diff.have_ a.fetchBytes) := by
    rw [syncOf, map_map]
    exact map_congr_left fun p _ => length_encode_toWire a.clock p.1 p.2
  rw [length_encodeSync, hsizes, wireSizes_selectEntriesForPairs]
  rfl

theorem length_onSyncRequest_le (ha : DefaultNode a) (hb : DefaultNode b) (diff : MetaDiff) :
    (encodeSync { entries := (onSyncRequest xxh3 b (syncOf a diff)).2 }).length ≤ 1048589 := by
  -- what the partner holds then was accepted by it or by the initiator
  have hstore : ∀ key entry,
      (b.store.applySync b.clock (syncOf a diff).entries).lookup key = some entry →
        syncEntryWireSize key entry ≤ 1048577 := by
    intro key entry hentry
    have hlength := forall_lookup_applySync (P := fun key entry =>
      key.length + entry.value.length ≤ 1048544) b.clock
      (fun key entry hentry => (hb.accepted key entry hentry).length_le)
      (fun w hw => ?_) key entry hentry
    · unfold syncEntryWireSize
      split <;> omega
    · obtain ⟨p, hp, rfl⟩ := mem_map.mp hw
      rw [selectEntriesForPairs_eq] at hp
      obtain ⟨pair, -, hpair⟩ := mem_filterMap.mp (mem_of_mem_take hp)
      obtain ⟨entry', hentry', rfl⟩ := Option.map_eq_some_iff.mp hpair
      rw [value_ofWire]
      exact (ha.accepted _ _ hentry').length_le
  have hsum := @sum_selectEntriesForHashes_le xxh3 _ _ hstore (syncOf a diff).needs b.fetchBytes
  have hmax : max b.fetchBytes 1048577 = 1048577 := by rw [hb.fetch, kDefaultFetchBytes]; rfl
  rw [hmax] at hsum
  rw [length_encodeSync, onSyncRequest_eq, map_map]
  simp only [Function.comp_def, length_encode_toWire, length_nil]
  exact Nat.add_le_add_left hsum 12

end Sizes

/-! ## 5. The frames of a round -/

section Round

variable {xxh3 : Bytes → UInt64} {numBuckets : Nat} {a b : AntiEntropyManager} {link : RoundLink}

theorem roundFrames_eq (ha : a.digestForRound.length = numBuckets)
    (hb : b.digestForRound.length = numBuckets) :
    ∃ refined, SketchAnswer xxh3 numBuckets a b (askedBuckets xxh3 numBuckets a b) refined ∧
      roundFrames xxh3 numBuckets link a b =
        link.exchange .digest .antiEntropyDigest []
            (encodeGroupDigest (groupDigests xxh3 a.digestForRound))
            (some (encodeDigestResponse { groupHashes := groupDigests xxh3 b.digestForRound })) ++
          if divergentGroups xxh3 numBuckets a
              { groupHashes := groupDigests xxh3 b.digestForRound } = [] then []
          else link.exchange .refinement .antiEntropyDigest refinementKey
              (encodeBucketRefinement (asking a (askedBuckets xxh3 numBuckets a b) false))
              (some (encodeDigestResponse refined)) ++
            (fallbackFrames xxh3 numBuckets link a b refined ++
              syncFrames xxh3 numBuckets link a b refined) := by
  obtain ⟨refined, hrefined, hans⟩ := @onBucketRefinement_sketches xxh3 numBuckets a b _
    nodup_askedBuckets askedBuckets_lt
  obtain ⟨hdigest, hdecodes⟩ := @onDigestRequest_eq xxh3 _ _ _ ha hb
  refine ⟨refined, hans, ?_⟩
  unfold roundFrames
  dsimp only
  rw [hdigest]
  dsimp only
  rw [hdecodes]
  congr 1
  split
  · rename_i hnone
    rw [if_pos (hnone.resolve_left (by decide))]
  · rename_i hsome
    rw [if_neg fun h => hsome (.inr h), refinement_eq, ← askedBuckets, hrefined]
    dsimp only
    rw [hans.decodes hb, if_neg (by decide), Option.map_some]

variable {asked : List Nat}

theorem fallbackFrames_fit_iff {refined : DigestResponse}
    (hans : SketchAnswer xxh3 kDefaultBuckets a b asked refined) (ha : DefaultNode a)
    (hb : DefaultNode b) (hlt : ∀ bucket ∈ asked, bucket < kDefaultBuckets) :
    (∀ frame ∈ fallbackFrames xxh3 kDefaultBuckets link a b refined, frame.fits = true) ↔
      unpeeledBuckets xxh3 kDefaultBuckets a b asked = [] ∨
        185 + (unpeeledBuckets xxh3 kDefaultBuckets a b asked).length * 12 +
          ((collectedBuckets xxh3 kDefaultBuckets a b asked).map
            (bucketCost xxh3 kDefaultBuckets b.store)).sum ≤ kMaxWriteQueueBytes := by
  rw [fallbackFrames, ← hans.failedBuckets_eq_nil hlt]
  by_cases hfailed : failedBuckets xxh3 kDefaultBuckets a refined = []
  · rw [if_pos hfailed]
    exact iff_of_true (forall_mem_nil _) (.inl hfailed)
  · obtain ⟨asked', fallback, hasked', hrequest, hfallback, hfans, hsketches, hcovered, hrows⟩ :=
      hans.fallback ha.buckets hlt
    have hnodup := hasked'.nodup_iff.mpr nodup_unpeeledBuckets
    have hlength : (unpeeledBuckets xxh3 kDefaultBuckets a b asked).length ≤ 256 :=
      (length_filter_le _ _).trans length_range.le
    have hcost : (encodeDigestResponse fallback).length =
        156 + (unpeeledBuckets xxh3 kDefaultBuckets a b asked).length * 12 +
          ((collectedBuckets xxh3 kDefaultBuckets a b asked).map
            (bucketCost xxh3 kDefaultBuckets b.store)).sum := by
      have hgroups : groupCount kDefaultBuckets = 16 := by decide
      have hrowBytes : fallback.coveredBuckets.length * 4 + fallback.rows.length * kMetaRowBytes =
          ((collectedBuckets xxh3 kDefaultBuckets a b asked).map
            (bucketCost xxh3 kDefaultBuckets b.store)).sum := by
        rw [hcovered, hrows]
        exact length_collected _
      rw [length_encodeDigestResponse, hfans.groups, length_groupDigests, hb.buckets, hgroups,
        hfans.length_bucketHashes hnodup, hasked'.length_eq, hsketches, map_nil, sum_nil]
      omega
    have hrefinement : (asking a asked' true).bucketHashes.length ≤ 256 := by
      rw [asking, length_map, hasked'.length_eq]
      exact hlength
    have hoverhead := overhead_le link .fallback
    rw [if_neg hfailed, hrequest, hfallback, exchange_fits_iff, Option.map_some, Option.elim_some,
      length_encodeBucketRefinement, length_refinementKey, hcost, or_iff_right hfailed]
    omega

theorem syncFrames_fit_iff {refined : DigestResponse}
    (hans : SketchAnswer xxh3 kDefaultBuckets a b asked refined) (ha : DefaultNode a)
    (hb : DefaultNode b) (hlt : ∀ bucket ∈ asked, bucket < kDefaultBuckets) :
    (∀ frame ∈ syncFrames xxh3 kDefaultBuckets link a b refined, frame.fits = true) ↔
      requestedOf a b asked = [] ∨
        link.overhead .sync + 12 +
          (pushedCosts a (knownDiff xxh3 kDefaultBuckets a b asked).have_).sum +
            (knownDiff xxh3 kDefaultBuckets a b asked).need.length * 8 ≤ 1048569 := by
  rw [syncFrames, hans.finishRefinement_eq ha.buckets hb.buckets hlt]
  by_cases hnone : requestedOf a b asked = []
  · rw [if_pos hnone]
    exact iff_of_true (forall_mem_nil _) (.inl hnone)
  · rw [if_neg hnone]
    have hserved :=
      @length_onSyncRequest_le xxh3 _ _ ha hb (knownDiff xxh3 kDefaultBuckets a b asked)
    have hqueue : kMaxWriteQueueBytes = 4194304 := rfl
    rw [exchange_fits_iff, Option.elim_some, length_encodeSync_syncOf, or_iff_right hnone,
      length_nil]
    omega

theorem roundFrames_fit_iff (ha : DefaultNode a) (hb : DefaultNode b) :
    (∀ frame ∈ roundFrames xxh3 kDefaultBuckets link a b, frame.fits = true) ↔
      FallbackFits xxh3 a b ∧ SyncFits xxh3 link a b := by
  obtain ⟨refined, hans, hframes⟩ := @roundFrames_eq xxh3 _ _ _ link ha.buckets hb.buckets
  have hgroups : groupCount kDefaultBuckets = 16 := by decide
  have hqueue : kMaxWriteQueueBytes = 4194304 := rfl
  have hdigest : ∀ frame ∈ link.exchange .digest .antiEntropyDigest []
      (encodeGroupDigest (groupDigests xxh3 a.digestForRound))
      (some (encodeDigestResponse { groupHashes := groupDigests xxh3 b.digestForRound })),
        frame.fits = true := by
    have hoverhead := overhead_le link .digest
    rw [exchange_fits_iff, Option.elim_some, length_encodeGroupDigest, length_encodeDigestResponse]
    rw [length_groupDigests, length_groupDigests, ha.buckets, hb.buckets, hgroups]
    simp only [length_nil, map_nil, sum_nil]
    omega
  have hrefinement : ∀ frame ∈ link.exchange .refinement .antiEntropyDigest refinementKey
      (encodeBucketRefinement (asking a (askedBuckets xxh3 kDefaultBuckets a b) false))
      (some (encodeDigestResponse refined)), frame.fits = true := by
    have hoverhead := overhead_le link .refinement
    have hasked := length_le_of_forall_lt (@nodup_askedBuckets xxh3 kDefaultBuckets a b)
      askedBuckets_lt
    have hanswer := hans.length_encode_le nodup_askedBuckets askedBuckets_lt
    have hbuckets : kDefaultBuckets = 256 := rfl
    rw [hb.buckets, hgroups] at hanswer
    rw [exchange_fits_iff, Option.elim_some, length_encodeBucketRefinement, length_refinementKey,
      asking, length_map]
    omega
  rw [hframes, forall_mem_append, and_iff_right hdigest]
  split
  · -- no group differs: nothing is asked for
    rename_i hnone
    have hrequested := requestedOf_eq_nil hnone
    refine iff_of_true (forall_mem_nil _) ⟨.inl ?_, .inl hrequested⟩
    rw [eq_nil_iff_forall_not_mem]
    intro bucket hbucket
    have hreq := ((mem_unpeeledBuckets askedBuckets_lt).mp hbucket).1
    rw [hrequested] at hreq
    exact not_mem_nil hreq
  · rw [forall_mem_append, and_iff_right hrefinement, forall_mem_append,
      fallbackFrames_fit_iff hans ha hb askedBuckets_lt,
      syncFrames_fit_iff hans ha hb askedBuckets_lt]
    rfl

theorem Comparable.knownDiff_spec (h : Comparable xxh3 numBuckets a b)
    (hlt : ∀ bucket ∈ asked, bucket < numBuckets) (hsome : requestedOf a b asked ≠ []) :
    (knownDiff xxh3 numBuckets a b asked).have_.Perm
        ((a.store.entries.filter fun e =>
          bucketFor xxh3 numBuckets e.1 ∈ comparedBuckets xxh3 numBuckets a b asked ∧
            stampAt b.store e.1 < stampAt a.store e.1).map fun e => (xxh3 e.1, e.1)) ∧
      (knownDiff xxh3 numBuckets a b asked).need.Nodup ∧
      ∀ hash, hash ∈ (knownDiff xxh3 numBuckets a b asked).need ↔ ∃ key, xxh3 key = hash ∧
        bucketFor xxh3 numBuckets key ∈ comparedBuckets xxh3 numBuckets a b asked ∧
          stampAt a.store key < stampAt b.store key := by
  have hrows := h.rowsOf_knownRows hlt
  have hcompared := @comparedBuckets_ne_nil xxh3 numBuckets _ _ _ hsome
  have hsub : ∀ bucket ∈ comparedBuckets xxh3 numBuckets a b asked,
      bucket ∈ requestedOf a b asked := fun _ => requested_of_compared hlt
  exact ⟨diffRows_have_perm hrows h.keysTell hcompared hsub,
    nodup_diffRows_need h.keysTellInitiator, mem_diffRows_need hrows h.keysTell hcompared hsub⟩

end Round

/-! ## 6. Which rounds are carried -/

/-- **Which rounds are carried.** For every pair of stores with the default budget and bucket count
whose entries were all accepted over TCP, the connection carries every frame of a round exactly if
the rows of the buckets that do not peel leave room in the write queue, and the entries pushed leave
room for the rest of the sync message in the read buffer. Unless hashes collide, entries pushed and
hashes asked for are those the one and the other side wins. -/
theorem round_fits_iff (xxh3 : Bytes → UInt64) (link : RoundLink) (a b : AntiEntropyManager)
    (ha : DefaultNode a) (hb : DefaultNode b) :
    ((∀ frame ∈ roundFrames xxh3 kDefaultBuckets link a b, frame.fits = true) ↔
      FallbackFits xxh3 a b ∧ SyncFits xxh3 link a b) ∧
    (Comparable xxh3 kDefaultBuckets a b →
      requestedOf a b (askedBuckets xxh3 kDefaultBuckets a b) ≠ [] →
        let compared := comparedBuckets xxh3 kDefaultBuckets a b
          (askedBuckets xxh3 kDefaultBuckets a b)
        let diff := knownDiff xxh3 kDefaultBuckets a b (askedBuckets xxh3 kDefaultBuckets a b)
        diff.have_.Perm ((a.store.entries.filter fun e =>
            bucketFor xxh3 kDefaultBuckets e.1 ∈ compared ∧
              stampAt b.store e.1 < stampAt a.store e.1).map fun e => (xxh3 e.1, e.1)) ∧
          diff.need.Nodup ∧
          ∀ hash, hash ∈ diff.need ↔ ∃ key, xxh3 key = hash ∧
            bucketFor xxh3 kDefaultBuckets key ∈ compared ∧
              stampAt a.store key < stampAt b.store key) :=
  ⟨roundFrames_fit_iff ha hb, fun h hsome => h.knownDiff_spec askedBuckets_lt hsome⟩

/-- A node with one entry, as a Set leaves it, and exact digests. -/
def keeping (value : Bytes) : AntiEntropyManager where
  store := AList.insert [1] (VersionedEntry.setVersion { value } 1) ∅
  digestForRound := computeDigest polyHash kDefaultBuckets
    (AList.insert [1] (VersionedEntry.setVersion { value } 1) ∅)
  clock := {}
  fetchBytes := kDefaultFetchBytes

def vacant : AntiEntropyManager where
  store := ∅
  digestForRound := computeDigest polyHash kDefaultBuckets ∅
  clock := {}
  fetchBytes := kDefaultFetchBytes

theorem length_computeDigest (xxh3 : Bytes → UInt64) (numBuckets : Nat) (t : Table) :
    (computeDigest xxh3 numBuckets t).length = numBuckets := by
  rw [computeDigest, length_map, length_range]

theorem defaultNode_keeping (h : value.length ≤ 1048543) : DefaultNode (keeping value) where
  buckets := length_computeDigest _ _ _
  fetch := rfl
  accepted := by
    intro key entry hentry
    have hset : Request.arrives { opcode := .set, key := [1], value } (wireToken none) = true := by
      refine (Request.arrives_iff (wireToken_cases none)).mpr ?_
      show 25 + 1 + value.length + 0 + 0 + 0 + 0 ≤ 1048569
      omega
    refine ⟨_, none, hset, ?_⟩
    by_cases hkey : key = [1]
    · subst hkey
      rw [keeping, AList.lookup_insert] at hentry
      cases hentry
      exact le_rfl
    · rw [keeping, AList.lookup_insert_ne hkey] at hentry
      cases hentry

theorem defaultNode_vacant : DefaultNode vacant where
  buckets := length_computeDigest _ _ _
  fetch := rfl
  accepted := by
    intro key entry hentry
    cases hentry

variable (value)

theorem digestForRound_keeping : (keeping value).digestForRound = (keeping []).digestForRound := rfl

theorem comparable_keeping : Comparable polyHash kDefaultBuckets (keeping value) vacant where
  lengthInitiator := length_computeDigest _ _ _
  lengthPartner := length_computeDigest _ _ _
  keysTell := by
    have hone : ∀ key, key ∈ (keeping value).store ∨ key ∈ vacant.store → key = [1] := by
      intro key hkey
      rcases hkey with hkey | hkey
      · exact ((AList.mem_insert _).mp hkey).resolve_right (AList.notMem_empty key)
      · exact absurd hkey (AList.notMem_empty key)
    intro key hkey key' hkey' _
    rw [hone key hkey, hone key' hkey']
  cellsTell := by
    intro bucket _ hmany
    exact absurd hmany (show ¬ 32 ≤ 0 by decide)

theorem requested_keeping :
    bucketFor polyHash kDefaultBuckets [1] ∈ requestedOf (keeping value) vacant
      (askedBuckets polyHash kDefaultBuckets (keeping value) vacant) := by
  have hgroup : bucketFor polyHash kDefaultBuckets [1] / kBucketsPerGroup <
      groupCount kDefaultBuckets := by decide +kernel
  have hin : bucketFor polyHash kDefaultBuckets [1] ∈ groupBuckets kDefaultBuckets
      (bucketFor polyHash kDefaultBuckets [1] / kBucketsPerGroup) :=
    mem_groupBuckets.mpr ⟨by decide +kernel, rfl⟩
  refine mem_requestedOf.mpr ⟨mem_flatMap.mpr ⟨_, mem_filter.mpr
    ⟨mem_range.mpr hgroup, ?_⟩, hin⟩, ?_⟩
  · have hdigest : ∀ m : AntiEntropyManager, m.digestForRound.length = kDefaultBuckets →
        (groupDigests polyHash m.digestForRound).getD
          (bucketFor polyHash kDefaultBuckets [1] / kBucketsPerGroup) 0 =
            groupDigest polyHash m.digestForRound
              (bucketFor polyHash kDefaultBuckets [1] / kBucketsPerGroup) :=
      fun m hm => getD_groupDigests (hm.symm ▸ hgroup)
    rw [hdigest _ (length_computeDigest _ _ _), hdigest vacant (length_computeDigest _ _ _),
      digestForRound_keeping]
    decide +kernel
  · rw [localHash, digestForRound_keeping]
    decide +kernel

theorem unpeeledBuckets_vacant (a : AntiEntropyManager) (asked : List Nat) :
    unpeeledBuckets polyHash kDefaultBuckets a vacant asked = [] := by
  refine filter_eq_nil_iff.mpr fun bucket _ hbucket => ?_
  rw [Bool.and_eq_true, Bool.and_eq_true] at hbucket
  exact absurd (of_decide_eq_true hbucket.1.2) (show ¬ 32 ≤ 0 by decide)

theorem knownDiff_keeping :
    knownDiff polyHash kDefaultBuckets (keeping value) vacant
      (askedBuckets polyHash kDefaultBuckets (keeping value) vacant) =
        { have_ := [(polyHash [1], [1])] } := by
  have hrequested := requested_keeping value
  obtain ⟨hhave, -, hneed⟩ := (comparable_keeping value).knownDiff_spec askedBuckets_lt
    (ne_nil_of_mem hrequested)
  have hcompared : bucketFor polyHash kDefaultBuckets [1] ∈ comparedBuckets polyHash kDefaultBuckets
      (keeping value) vacant (askedBuckets polyHash kDefaultBuckets (keeping value) vacant) := by
    refine mem_comparedBuckets.mpr (.inl ⟨hrequested, ?_⟩)
    rw [unpeeledBuckets_vacant]
    exact not_mem_nil
  have hentry : stampAt (keeping value).store [1] =
      (stampOf (setVersion { value } 1) : WithBot LwwStamp) :=
    stampAt_of_lookup (AList.lookup_insert _)
  have hwins : stampAt vacant.store [1] < stampAt (keeping value).store [1] := by
    rw [hentry]
    exact WithBot.bot_lt_coe _
  have hentries : (keeping value).store.entries = [⟨[1], setVersion { value } 1⟩] := rfl
  rw [hentries, filter_cons, if_pos (decide_eq_true ⟨hcompared, hwins⟩), filter_nil] at hhave
  generalize knownDiff polyHash kDefaultBuckets (keeping value) vacant
    (askedBuckets polyHash kDefaultBuckets (keeping value) vacant) = diff at hhave hneed ⊢
  obtain ⟨need, pushed⟩ := diff
  obtain rfl : pushed = [(polyHash [1], [1])] := perm_singleton.mp hhave
  obtain rfl : need = [] := by
    rw [eq_nil_iff_forall_not_mem]
    intro hash hin
    obtain ⟨key, -, -, hlt⟩ := (hneed hash).mp hin
    exact WithBot.not_lt_bot _ hlt
  rfl

variable {value}

theorem syncFits_keeping {link : RoundLink} :
    SyncFits polyHash link (keeping value) vacant ↔
      link.overhead .sync + 38 + value.length ≤ 1048569 := by
  have hentry : (keeping value).store.lookup [1] = some (setVersion { value } 1) :=
    AList.lookup_insert _
  have httl : (setVersion { value } 1).hasTtl = false :=
    (hasTtl_setVersion { value } 1).trans (show ((0 : UInt64) &&& 1 != 0) = false by decide)
  have hcosts : wireSizes (residents (keeping value).store [(polyHash [1], [1])]) =
      [syncEntryWireSize [1] (setVersion { value } 1)] := by
    simp only [residents, filterMap_cons, hentry, Option.map_some, filterMap_nil, wireSizes,
      map_cons, map_nil]
  have hsize : syncEntryWireSize [1] (setVersion { value } 1) = 26 + value.length := by
    rw [syncEntryWireSize, httl]
    show 4 + 1 + 8 + 8 + 1 + 4 + value.length + 0 = _
    omega
  have hpushed : (pushedCosts (keeping value) [(polyHash [1], [1])]).sum = 26 + value.length := by
    simp [pushedCosts, hcosts, hsize, Budget.count_cons, Budget.fitting]
  rw [SyncFits, knownDiff_keeping, or_iff_right (ne_nil_of_mem (requested_keeping value)), hpushed]
  simp only [length_nil]
  omega

def plainLink : RoundLink where
  token := none
  traceId := fun _ => 0
  spanId := fun _ => 0
  minted := fun _ => 0

theorem round_fits_small_entry :
    DefaultNode (keeping [7]) ∧ DefaultNode vacant ∧
      ∀ frame ∈ roundFrames polyHash kDefaultBuckets plainLink (keeping [7]) vacant,
        frame.fits = true := by
  have hnode : DefaultNode (keeping [7]) := defaultNode_keeping (by decide)
  have hsync : SyncFits polyHash plainLink (keeping [7]) vacant := syncFits_keeping.mpr (by decide)
  exact ⟨hnode, defaultNode_vacant, (round_fits_iff polyHash plainLink (keeping [7]) vacant hnode
    defaultNode_vacant).1.mpr ⟨.inl (unpeeledBuckets_vacant _ _), hsync⟩⟩

/-- An entry that fills the read buffer of the Set that brought it: the sync message that pushes
it is never read. -/
theorem bulky_entry_not_carried :
    DefaultNode (keeping (replicate 1048543 0)) ∧ DefaultNode vacant ∧
      ∃ frame ∈ roundFrames polyHash kDefaultBuckets plainLink
        (keeping (replicate 1048543 0)) vacant, frame.fits = false := by
  have hlength : (replicate 1048543 (0 : UInt8)).length = 1048543 := length_replicate
  have hnode := defaultNode_keeping hlength.le
  have hsync : ¬ SyncFits polyHash plainLink (keeping (replicate 1048543 0)) vacant := by
    rw [syncFits_keeping, hlength]
    decide
  refine ⟨hnode, defaultNode_vacant, ?_⟩
  by_contra hall
  push Not at hall
  refine hsync ((roundFrames_fit_iff hnode defaultNode_vacant).mp fun frame hframe => ?_).2
  exact Bool.eq_true_of_not_eq_false (hall frame hframe)

end AntiEntropyManager

end Cinder
