/-
What one round of anti-entropy does to two stores at rest: progress towards, and within
its budgets all the way to, the last-writer-wins join of the two.

`AtRest` collects what is assumed of the hashes (distinct keys, buckets and groups have distinct
hashes, no cell of a sketch with several items looks like one item) and of the stores (exact
digests, one payload per stamp). Nothing happens besides the round.
-/
import Cinder.Node.AntiEntropyRefinement

namespace Cinder

open List

namespace AntiEntropyManager

open XorSum

/-! ## 1. Assumptions -/

/-- Two nodes at rest, and hashes without collisions. -/
structure AtRest (xxh3 : Bytes → UInt64) (numBuckets : Nat) (a b : AntiEntropyManager) : Prop where
  buckets : 0 < numBuckets
  exactInitiator : a.digestForRound = computeDigest xxh3 numBuckets a.store
  exactPartner : b.digestForRound = computeDigest xxh3 numBuckets b.store
  keysTell : Set.InjOn xxh3 {key | key ∈ a.store ∨ key ∈ b.store}
  bucketsTell : ∀ bucket < numBuckets,
    digest xxh3 numBuckets a.store bucket = digest xxh3 numBuckets b.store bucket →
      ∀ key, bucketFor xxh3 numBuckets key = bucket →
        (a.store.lookup key).map (identityOf key) = (b.store.lookup key).map (identityOf key)
  groupsTell : ∀ group < groupCount numBuckets,
    groupDigest xxh3 a.digestForRound group = groupDigest xxh3 b.digestForRound group →
      ∀ bucket ∈ groupBuckets numBuckets group, a.localHash bucket = b.localHash bucket
  cellsTell : ∀ bucket < numBuckets,
    kIbltMinRows ≤ (bucketRows xxh3 numBuckets b.store bucket).length →
      Iblt.NoFalsePure xxh3 Iblt.kDefaultCells (itemDiff xxh3 numBuckets b.store a.store bucket)
  stampsTell : ∀ key entry entry', a.store.lookup key = some entry →
    b.store.lookup key = some entry' → stampOf entry = stampOf entry' →
      contentOf a.clock entry = contentOf b.clock entry'

def sketchedBuckets (xxh3 : Bytes → UInt64) (numBuckets : Nat) (a b : AntiEntropyManager) :
    List Nat :=
  (List.range numBuckets).filter fun bucket => a.localHash bucket != b.localHash bucket &&
    decide (kIbltMinRows ≤ (bucketRows xxh3 numBuckets b.store bucket).length)

/-- The budgets cover all differences: what each side wins fits its fetch budget, and the rows
of the sketched buckets fit one metadata message. -/
structure BudgetsCover (xxh3 : Bytes → UInt64) (numBuckets : Nat) (a b : AntiEntropyManager) :
    Prop where
  push : wireCostOf a.store (fun key => stampAt b.store key < stampAt a.store key) ≤ a.fetchBytes
  fetch : wireCostOf b.store (fun key => stampAt a.store key < stampAt b.store key) ≤ b.fetchBytes
  metadata : 2 * 4 + ((sketchedBuckets xxh3 numBuckets a b).map
    (bucketCost xxh3 numBuckets b.store)).sum ≤ kMaxMetadataBytes

def differing (t t' : Table) : Finset Key :=
  (t.keys ++ t'.keys).toFinset.filter fun key => stampAt t key ≠ stampAt t' key

/-- The last-writer-wins join of two stores, key by key. -/
def joinAt (a b : AntiEntropyManager) (key : Key) : Option Content :=
  if stampAt a.store key < stampAt b.store key then contentIn b.clock b.store key
  else contentIn a.clock a.store key

theorem mem_differing {t t' : Table} {key : Key} :
    key ∈ differing t t' ↔ stampAt t key ≠ stampAt t' key := by
  simp only [differing, Finset.mem_filter, mem_toFinset, mem_append, and_iff_right_iff_imp]
  intro hne
  by_contra hnot
  rw [not_or] at hnot
  rw [stampAt_of_none (AList.lookup_eq_none.mpr hnot.1),
    stampAt_of_none (AList.lookup_eq_none.mpr hnot.2)] at hne
  exact hne rfl

theorem sum_map_le_of_subset {α : Type} {l l' : List α} (f : α → Nat) (hl : l.Nodup) (h : l ⊆ l') :
    (l.map f).sum ≤ (l'.map f).sum := by
  obtain ⟨l₀, hperm, hsub⟩ := subperm_of_subset hl h
  rw [← (hperm.map f).sum_eq]
  exact (hsub.map f).sum_le_sum fun _ _ => Nat.zero_le _

section Rest

variable {xxh3 : Bytes → UInt64} {numBuckets : Nat} {a b : AntiEntropyManager}

/-! ## 2. Hashes and stamps -/

variable {t t' : Table} {key : Key} {bucket : Nat}

theorem stampAt_of_identity
    (h : (t.lookup key).map (identityOf key) = (t'.lookup key).map (identityOf key)) :
    stampAt t key = stampAt t' key := by
  cases hl : t.lookup key with
  | none =>
    rw [hl, Option.map_none, eq_comm, Option.map_eq_none_iff] at h
    rw [stampAt_of_none hl, stampAt_of_none h]
  | some entry =>
    rw [hl, Option.map_some, eq_comm, Option.map_eq_some_iff] at h
    obtain ⟨entry', hl', heq⟩ := h
    rw [stampAt_of_lookup hl, stampAt_of_lookup hl']
    simp only [identityOf, Identity.mk.injEq, true_and] at heq
    simp only [stampOf, VersionedEntry.version, VersionedEntry.isTombstone, heq.1, heq.2]

theorem AtRest.content_eq (h : AtRest xxh3 numBuckets a b)
    (heq : stampAt a.store key = stampAt b.store key) :
    contentIn a.clock a.store key = contentIn b.clock b.store key := by
  unfold contentIn
  cases ha : a.store.lookup key with
  | none =>
    cases hb : b.store.lookup key with
    | none => rfl
    | some entry' =>
      rw [stampAt_of_none ha, stampAt_of_lookup hb] at heq
      exact absurd heq.symm WithBot.coe_ne_bot
  | some entry =>
    cases hb : b.store.lookup key with
    | none =>
      rw [stampAt_of_lookup ha, stampAt_of_none hb] at heq
      exact absurd heq WithBot.coe_ne_bot
    | some entry' =>
      rw [stampAt_of_lookup ha, stampAt_of_lookup hb, WithBot.coe_inj] at heq
      exact congrArg some (h.stampsTell key entry entry' ha hb heq)

theorem identity_of_content {clk clk' : ClockReading}
    (h : contentIn clk t key = contentIn clk' t' key) :
    (t.lookup key).map (identityOf key) = (t'.lookup key).map (identityOf key) := by
  unfold contentIn at h
  cases hl : t.lookup key with
  | none =>
    rw [hl, Option.map_none, eq_comm, Option.map_eq_none_iff] at h
    rw [h]
  | some entry =>
    rw [hl, Option.map_some, eq_comm, Option.map_eq_some_iff] at h
    obtain ⟨entry', hl', heq⟩ := h
    have hstamp : stampOf entry' = stampOf entry := congrArg Content.stamp heq
    have httl : entry'.hasTtl = entry.hasTtl := by
      have hdeadline := congrArg (fun c => c.deadlineMs.isSome) heq
      simp only [contentOf] at hdeadline
      cases h₁ : entry'.hasTtl <;> cases h₂ : entry.hasTtl <;> simp [h₁, h₂] at hdeadline ⊢
    rw [hl', Option.map_some, Option.map_some]
    refine congrArg some ?_
    rw [identityOf, identityOf, VersionedEntry.versionAndTtl_ext
      (congrArg LwwStamp.version hstamp) httl (congrArg LwwStamp.tombstone hstamp),
      show entry'.writerNodeHash = entry.writerNodeHash from congrArg LwwStamp.writer hstamp]

def identitiesIn (xxh3 : Bytes → UInt64) (numBuckets : Nat) (t : Table) (bucket : Nat) :
    List Identity :=
  (t.entries.filter fun e => bucketFor xxh3 numBuckets e.1 = bucket).map fun e => identityOf e.1 e.2

theorem mem_identitiesIn {id : Identity} :
    id ∈ identitiesIn xxh3 numBuckets t bucket ↔ bucketFor xxh3 numBuckets id.key = bucket ∧
      (t.lookup id.key).map (identityOf id.key) = some id := by
  simp only [identitiesIn, mem_map, mem_filter, decide_eq_true_eq, Option.map_eq_some_iff]
  constructor
  · rintro ⟨e, ⟨hmem, hb⟩, rfl⟩
    exact ⟨hb, e.2, AList.mem_lookup_iff.mpr hmem, rfl⟩
  · rintro ⟨hb, entry, hentry, heq⟩
    exact ⟨⟨id.key, entry⟩, ⟨AList.mem_lookup_iff.mp hentry, hb⟩, heq⟩

theorem nodup_identitiesIn (t : Table) (bucket : Nat) :
    (identitiesIn xxh3 numBuckets t bucket).Nodup := by
  refine List.Nodup.of_map Identity.key ?_
  rw [identitiesIn, map_map]
  have hkeys : (t.entries.map Sigma.fst).Nodup := t.nodupKeys
  exact hkeys.sublist (filter_sublist.map Sigma.fst)

theorem xorSum_eq_zero {l : List UInt64} (h : ∀ x ∈ l, x = 0) : xorSum l = 0 := by
  induction l with
  | nil => rfl
  | cons x l ih =>
    rw [xorSum_cons, h x mem_cons_self, ih fun y hy => h y (mem_cons_of_mem _ hy), UInt64.xor_self]

theorem digest_eq (t : Table) (bucket : Nat) :
    digest xxh3 numBuckets t bucket =
      xorSum ((identitiesIn xxh3 numBuckets t bucket).map (hashIn xxh3 numBuckets bucket)) := by
  rw [digest, xorSum_filter _ (fun e => bucketFor xxh3 numBuckets e.1 = bucket), identitiesIn,
    map_map]
  refine (congrArg (_ ^^^ ·) (xorSum_eq_zero fun x hx => ?_)).trans UInt64.xor_zero
  obtain ⟨e, he, rfl⟩ := mem_map.mp hx
  have hout : ¬ bucketFor xxh3 numBuckets e.1 = bucket := by
    simpa using (mem_filter.mp he).2
  exact if_neg hout

theorem localHash_eq_digest {m : AntiEntropyManager}
    (h : m.digestForRound = computeDigest xxh3 numBuckets m.store) (hbucket : bucket < numBuckets) :
    m.localHash bucket = digest xxh3 numBuckets m.store bucket := by
  rw [localHash, h, computeDigest]
  simp [hbucket]

theorem AtRest.localHash_eq_iff (h : AtRest xxh3 numBuckets a b) (hbucket : bucket < numBuckets) :
    a.localHash bucket = b.localHash bucket ↔
      ∀ key, bucketFor xxh3 numBuckets key = bucket →
        stampAt a.store key = stampAt b.store key := by
  rw [localHash_eq_digest h.exactInitiator hbucket, localHash_eq_digest h.exactPartner hbucket]
  constructor
  · intro heq key hkey
    exact stampAt_of_identity (h.bucketsTell bucket hbucket heq key hkey)
  · intro hsame
    have hperm : (identitiesIn xxh3 numBuckets a.store bucket).Perm
        (identitiesIn xxh3 numBuckets b.store bucket) := by
      refine (perm_ext_iff_of_nodup (nodup_identitiesIn _ _) (nodup_identitiesIn _ _)).mpr ?_
      intro id
      rw [mem_identitiesIn, mem_identitiesIn]
      refine and_congr_right fun hid => ?_
      rw [identity_of_content (h.content_eq (hsame id.key hid))]
    rw [digest_eq, digest_eq, xorSum_perm (hperm.map _)]

theorem AtRest.comparable (h : AtRest xxh3 numBuckets a b) : Comparable xxh3 numBuckets a b where
  lengthInitiator := by rw [h.exactInitiator, computeDigest, length_map, length_range]
  lengthPartner := by rw [h.exactPartner, computeDigest, length_map, length_range]
  keysTell := h.keysTell
  cellsTell := h.cellsTell

/-! ## 3. Push and fetch -/

theorem wireCostOf_le {wanted wanted' : Key → Bool}
    (h : ∀ key entry, t.lookup key = some entry → wanted key = true →
      t'.lookup key = some entry ∧ wanted' key = true) :
    wireCostOf t wanted ≤ wireCostOf t' wanted' := by
  have hnodup : t.entries.Nodup := List.Nodup.of_map Sigma.fst t.nodupKeys
  refine sum_map_le_of_subset _ (hnodup.filter _) fun e he => ?_
  obtain ⟨hmem, hwanted⟩ := mem_filter.mp he
  obtain ⟨hlookup, hwanted'⟩ := h e.1 e.2 (AList.mem_lookup_iff.mpr hmem) hwanted
  exact mem_filter.mpr ⟨AList.mem_lookup_iff.mp hlookup, hwanted'⟩

/-- The two stores after an exchange over the keys in play: each side has taken over some entries
the other one wins, one at least, and all of them if they fit. -/
structure Exchanged (a b : AntiEntropyManager) (inPlay : Key → Prop) (pushed fetched : List Key)
    (ta tb : Table) : Prop where
  partner : ∀ key, contentIn b.clock tb key =
    if key ∈ pushed then contentIn a.clock a.store key else contentIn b.clock b.store key
  initiator : ∀ key, contentIn a.clock ta key =
    if key ∈ fetched then contentIn b.clock b.store key else contentIn a.clock a.store key
  pushedWins : ∀ key ∈ pushed, stampAt b.store key < stampAt a.store key
  fetchedWins : ∀ key ∈ fetched, stampAt a.store key < stampAt b.store key
  onePushed : ∀ key, inPlay key → stampAt b.store key < stampAt a.store key → pushed ≠ []
  oneFetched : ∀ key, inPlay key → stampAt a.store key < stampAt b.store key → fetched ≠ []
  allPushed : wireCostOf a.store (fun key => stampAt b.store key < stampAt a.store key) ≤
    a.fetchBytes → ∀ key, inPlay key → stampAt b.store key < stampAt a.store key → key ∈ pushed
  allFetched : wireCostOf b.store (fun key => stampAt a.store key < stampAt b.store key) ≤
    b.fetchBytes → ∀ key, inPlay key → stampAt a.store key < stampAt b.store key → key ∈ fetched

theorem mem_of_stampAt_lt (h : stampAt t' key < stampAt t key) : key ∈ t := by
  by_contra hnot
  rw [stampAt_of_none (AList.lookup_eq_none.mpr hnot)] at h
  exact WithBot.not_lt_bot _ h

theorem onSyncRequest_eq (b : AntiEntropyManager) (msg : SyncMessage) :
    onSyncRequest xxh3 b msg = (b.store.applySync b.clock msg.entries,
      (selectEntriesForHashes xxh3 (b.store.applySync b.clock msg.entries) msg.needs
        b.fetchBytes).map fun p => SyncEntry.toWire b.clock p.1 p.2) := by
  unfold onSyncRequest
  split
  · rename_i hnil
    rw [hnil, selectEntriesForHashes, if_pos rfl]
    rfl
  · rfl

/-- What a table takes over from another one: entries it loses, one at least if any is in play, and
all of them if they fit. -/
structure TakesOver (clk clk' : ClockReading) (source t t' : Table) (inPlay : Key → Prop)
    (maxBytes : Nat) (taken : List Key) : Prop where
  content : ∀ key, contentIn clk' t' key =
    if key ∈ taken then contentIn clk source key else contentIn clk' t key
  untouched : ∀ key, key ∉ taken → t'.lookup key = t.lookup key
  wins : ∀ key ∈ taken, stampAt t key < stampAt source key
  one : ∀ key, inPlay key → stampAt t key < stampAt source key → taken ≠ []
  all : wireCostOf source (fun key => stampAt t key < stampAt source key) ≤ maxBytes →
    ∀ key, inPlay key → stampAt t key < stampAt source key → key ∈ taken

theorem takesOver_of_chosen {source : Table} {wanted : Key → Bool} {inPlay : Key → Prop}
    {maxBytes : Nat} {items : List (Key × VersionedEntry)} (clk clk' : ClockReading)
    (hchosen : Chosen source wanted maxBytes items)
    (hwanted : ∀ key ∈ source,
      (wanted key = true ↔ inPlay key ∧ stampAt t key < stampAt source key)) :
    TakesOver clk clk' source t
      (t.applySync clk' (items.map fun p => SyncEntry.toWire clk p.1 p.2)) inPlay maxBytes
      (items.map Prod.fst) := by
  have hwins : ∀ p ∈ items, stampAt t p.1 < stampAt source p.1 := by
    intro p hp
    obtain ⟨hlookup, hin⟩ := hchosen.sound p hp
    exact ((hwanted p.1 (AList.lookup_isSome.mp (by rw [hlookup]; rfl))).mp hin).2
  refine ⟨?_, fun key hkey => ?_, fun key hkey => ?_, fun key hplay hlt => ?_,
    fun hfits key hplay hlt => ?_⟩
  · exact contentIn_applySync clk clk' (fun p hp => (hchosen.sound p hp).1) fun p hp =>
      (hwins p hp).le
  · refine lookup_applySync_of_notMem clk' ?_
    rwa [map_map]
  · obtain ⟨p, hp, rfl⟩ := mem_map.mp hkey
    exact hwins p hp
  · have hin := mem_of_stampAt_lt hlt
    have hne := hchosen.one key hin ((hwanted key hin).mpr ⟨hplay, hlt⟩)
    exact fun hnil => hne (map_eq_nil_iff.mp hnil)
  · have hin := mem_of_stampAt_lt hlt
    obtain ⟨entry, hentry⟩ := Option.isSome_iff_exists.mp (AList.lookup_isSome.mpr hin)
    have hcost : wireCostOf source wanted ≤ maxBytes := by
      refine (wireCostOf_le fun key entry hentry hw => ⟨hentry, decide_eq_true ?_⟩).trans hfits
      exact ((hwanted key (AList.lookup_isSome.mp (by rw [hentry]; rfl))).mp hw).2
    exact mem_map.mpr ⟨_, hchosen.all hcost key entry hentry
      ((hwanted key hin).mpr ⟨hplay, hlt⟩), rfl⟩

section TakesOver

variable {clk clk' : ClockReading} {source t t' : Table} {inPlay : Key → Prop} {maxBytes : Nat}
  {taken : List Key}

section

variable (h : TakesOver clk clk' source t t' inPlay maxBytes taken)

include h

theorem TakesOver.lookup_eq {key : Key}
    (hlt : stampAt source key < stampAt t key) : t'.lookup key = t.lookup key :=
  h.untouched key fun hin => (h.wins key hin).asymm hlt

theorem TakesOver.stampAt_lt_iff
    (key : Key) : stampAt source key < stampAt t' key ↔ stampAt source key < stampAt t key := by
  by_cases hin : key ∈ taken
  · have hcontent := h.content key
    rw [if_pos hin] at hcontent
    rw [stampAt_of_contentIn hcontent]
    exact iff_of_false (lt_irrefl _) (h.wins key hin).asymm
  · rw [stampAt, stampAt, h.untouched key hin, ← stampAt, ← stampAt]

theorem TakesOver.mem_or_mem {key : Key} (hkey : key ∈ t') : key ∈ source ∨ key ∈ t := by
  by_cases hin : key ∈ taken
  · exact .inl (mem_of_stampAt_lt (h.wins key hin))
  · right
    rwa [← AList.lookup_isSome, h.untouched key hin, AList.lookup_isSome] at hkey

end

end TakesOver

theorem AtRest.exchange_spec (h : AtRest xxh3 numBuckets a b) {covered divergent : List Nat}
    {rows : List MetaRow} (hrows : RowsOf xxh3 numBuckets b.store covered rows)
    (hcovered : covered ≠ []) (hsub : ∀ bucket ∈ covered, bucket ∈ divergent) :
    ∃ pushed fetched, Exchanged a b (fun key => bucketFor xxh3 numBuckets key ∈ covered)
      pushed fetched
      (exchange xxh3 a b (some (syncOf a
        (diffRows xxh3 numBuckets a.store rows divergent covered)))).1
      (exchange xxh3 a b (some (syncOf a
        (diffRows xxh3 numBuckets a.store rows divergent covered)))).2 := by
  generalize hdiff : diffRows xxh3 numBuckets a.store rows divergent covered = diff
  have hperm := diffRows_have_perm hrows h.keysTell hcovered hsub
  have hneed := mem_diffRows_need hrows h.keysTell hcovered hsub
  rw [hdiff] at hperm hneed
  have hpush : TakesOver a.clock b.clock a.store b.store
      (b.store.applySync b.clock (syncOf a diff).entries)
      (fun key => bucketFor xxh3 numBuckets key ∈ covered) a.fetchBytes
      ((selectEntriesForPairs a.store diff.have_ a.fetchBytes).map Prod.fst) :=
    takesOver_of_chosen a.clock b.clock (chosen_selectEntriesForPairs hperm a.fetchBytes)
      fun key _ => decide_eq_true_iff
  have hexchange : exchange xxh3 a b (some (syncOf a diff)) =
      (a.store.applySync a.clock ((selectEntriesForHashes xxh3
        (b.store.applySync b.clock (syncOf a diff).entries) diff.need b.fetchBytes).map
          fun p => SyncEntry.toWire b.clock p.1 p.2),
        b.store.applySync b.clock (syncOf a diff).entries) := by
    simp only [exchange, onSyncRequest_eq]
    rfl
  rw [hexchange]
  -- the partner's store once the pushed entries are applied
  generalize b.store.applySync b.clock (syncOf a diff).entries = tb at hpush
  have hkeys : ∀ key ∈ tb, key ∈ a.store ∨ key ∈ b.store := fun key => hpush.mem_or_mem
  -- the needlist names the keys in play that the partner wins, and these the push has not touched
  have hwanted : ∀ key ∈ tb, (diff.need.contains (xxh3 key) = true ↔
      bucketFor xxh3 numBuckets key ∈ covered ∧ stampAt a.store key < stampAt tb key) := by
    intro key hkey
    rw [hpush.stampAt_lt_iff, contains_iff_mem, hneed]
    constructor
    · rintro ⟨key', hhash, hcov, hlt⟩
      obtain rfl := h.keysTell (.inr (mem_of_stampAt_lt hlt)) (hkeys key hkey) hhash
      exact ⟨hcov, hlt⟩
    · rintro ⟨hcov, hlt⟩
      exact ⟨key, rfl, hcov, hlt⟩
  have hfetch := takesOver_of_chosen b.clock a.clock
    (chosen_selectEntriesForHashes (h.keysTell.mono hkeys) diff.need b.fetchBytes) hwanted
  have hcost : wireCostOf tb (fun key => stampAt a.store key < stampAt tb key) ≤
      wireCostOf b.store fun key => stampAt a.store key < stampAt b.store key := by
    refine wireCostOf_le fun key entry hentry hw => ?_
    have hlt := (hpush.stampAt_lt_iff key).mp (of_decide_eq_true hw)
    exact ⟨(hpush.lookup_eq hlt).symm.trans hentry, decide_eq_true hlt⟩
  refine ⟨_, (selectEntriesForHashes xxh3 tb diff.need b.fetchBytes).map Prod.fst, hpush.content,
    fun key => ?_, hpush.wins, fun key hin => ?_, hpush.one, fun key hplay hlt => ?_, hpush.all,
    fun hfits key hplay hlt => ?_⟩
  · refine (hfetch.content key).trans ?_
    split
    · rename_i hin
      have hlt := (hpush.stampAt_lt_iff key).mp (hfetch.wins key hin)
      rw [contentIn, hpush.lookup_eq hlt, ← contentIn]
    · rfl
  · exact (hpush.stampAt_lt_iff key).mp (hfetch.wins key hin)
  · exact hfetch.one key hplay ((hpush.stampAt_lt_iff key).mpr hlt)
  · exact hfetch.all (hcost.trans hfits) key hplay ((hpush.stampAt_lt_iff key).mpr hlt)

/-! ## 4. The round -/

theorem getD_groupDigests {hashes : List UInt64} {group : Nat}
    (h : group < groupCount hashes.length) :
    (groupDigests xxh3 hashes).getD group 0 = groupDigest xxh3 hashes group := by
  rw [groupDigests]
  simp [h]

theorem AtRest.mem_asked (h : AtRest xxh3 numBuckets a b) (hbucket : bucket < numBuckets)
    (hne : a.localHash bucket ≠ b.localHash bucket) :
    bucket ∈ askedBuckets xxh3 numBuckets a b := by
  have hgroup : bucket / kBucketsPerGroup < groupCount numBuckets := by
    rw [groupCount, kBucketsPerGroup]
    omega
  have hin : bucket ∈ groupBuckets numBuckets (bucket / kBucketsPerGroup) :=
    mem_groupBuckets.mpr ⟨hbucket, rfl⟩
  refine mem_flatMap.mpr ⟨_, mem_filter.mpr ⟨mem_range.mpr hgroup, ?_⟩, hin⟩
  rw [getD_groupDigests (by rw [h.comparable.lengthInitiator]; exact hgroup),
    getD_groupDigests (by rw [h.comparable.lengthPartner]; exact hgroup), bne_iff_ne]
  exact fun heq => hne (h.groupsTell _ hgroup heq bucket hin)

theorem unpeeled_subset_sketched {asked : List Nat} (hlt : ∀ bucket ∈ asked, bucket < numBuckets) :
    unpeeledBuckets xxh3 numBuckets a b asked ⊆ sketchedBuckets xxh3 numBuckets a b := by
  intro bucket hbucket
  obtain ⟨hreq, hmany, -⟩ := (mem_unpeeledBuckets hlt).mp hbucket
  obtain ⟨hasked, hne⟩ := mem_requestedOf.mp hreq
  refine mem_filter.mpr ⟨mem_range.mpr (hlt bucket hasked), ?_⟩
  rw [Bool.and_eq_true, bne_iff_ne, decide_eq_true_eq]
  exact ⟨hne, hmany⟩

theorem AtRest.runRound_spec (h : AtRest xxh3 numBuckets a b) :
    ∃ ta tb inPlay pushed fetched, runRound xxh3 numBuckets a b = .ok (ta, tb) ∧
      Exchanged a b inPlay pushed fetched ta tb ∧
      ((∃ key, stampAt a.store key ≠ stampAt b.store key) →
        ∃ key, inPlay key ∧ stampAt a.store key ≠ stampAt b.store key) ∧
      (2 * 4 + ((sketchedBuckets xxh3 numBuckets a b).map
          (bucketCost xxh3 numBuckets b.store)).sum ≤ kMaxMetadataBytes →
        ∀ key, stampAt a.store key ≠ stampAt b.store key → inPlay key) := by
  -- a key whose stamps differ is in a bucket that is asked for
  have hasked : ∀ key, stampAt a.store key ≠ stampAt b.store key →
      bucketFor xxh3 numBuckets key ∈ requestedOf a b (askedBuckets xxh3 numBuckets a b) := by
    intro key hne
    have hbucket : bucketFor xxh3 numBuckets key < numBuckets := Nat.mod_lt _ h.buckets
    have hhash := mt ((h.localHash_eq_iff hbucket).mp · key rfl) hne
    exact mem_requestedOf.mpr ⟨h.mem_asked hbucket hhash, hhash⟩
  have hrun := @runRound_eq xxh3 _ _ _ h.comparable.lengthInitiator h.comparable.lengthPartner
  by_cases hnone : requestedOf a b (askedBuckets xxh3 numBuckets a b) = []
  · -- no bucket differs, so no stamp does
    have hsame : ∀ key, stampAt a.store key = stampAt b.store key := by
      intro key
      by_contra hne
      exact not_mem_nil (hnone ▸ hasked key hne)
    rw [if_pos hnone] at hrun
    refine ⟨a.store, b.store, fun _ => True, [], [], hrun, ?_,
      fun hne => hne.imp fun _ hne => ⟨trivial, hne⟩, fun _ _ _ => trivial⟩
    exact ⟨fun _ => rfl, fun _ => rfl, fun _ hin => absurd hin not_mem_nil,
      fun _ hin => absurd hin not_mem_nil, fun key _ hlt => absurd (hsame key) hlt.ne',
      fun key _ hlt => absurd (hsame key) hlt.ne, fun _ key _ hlt => absurd (hsame key) hlt.ne',
      fun _ key _ hlt => absurd (hsame key) hlt.ne⟩
  · have hcompared := @comparedBuckets_ne_nil xxh3 numBuckets _ _ _ hnone
    obtain ⟨pushed, fetched, hexchanged⟩ := h.exchange_spec
      (h.comparable.rowsOf_knownRows askedBuckets_lt) hcompared
      fun bucket => requested_of_compared askedBuckets_lt
    rw [if_neg hnone] at hrun
    refine ⟨_, _, _, pushed, fetched, hrun, hexchanged, fun _ => ?_, fun hfits key hne => ?_⟩
    · -- a compared bucket differs, hence a key of it
      obtain ⟨bucket, hbucket⟩ := exists_mem_of_ne_nil _ hcompared
      obtain ⟨hin, hne⟩ := mem_requestedOf.mp (requested_of_compared askedBuckets_lt hbucket)
      rw [ne_eq, h.localHash_eq_iff (askedBuckets_lt bucket hin), not_forall] at hne
      obtain ⟨key, hkey⟩ := hne
      obtain ⟨rfl, hstamps⟩ := Classical.not_imp.mp hkey
      exact ⟨key, hbucket, hstamps⟩
    · refine mem_compared_of_fits (le_trans ?_ hfits) (hasked key hne)
      exact Nat.add_le_add_left (sum_map_le_of_subset _ (nodup_range.filter _)
        (unpeeled_subset_sketched askedBuckets_lt)) _

/-! ## 5. Progress and join -/

section Exchange

variable {inPlay : Key → Prop} {pushed fetched : List Key} {ta tb : Table}

section

variable (h : Exchanged a b inPlay pushed fetched ta tb)

include h

theorem Exchanged.stamps (key : Key) :
    stampAt ta key = (if key ∈ fetched then stampAt b.store key else stampAt a.store key) ∧
      stampAt tb key = if key ∈ pushed then stampAt a.store key else stampAt b.store key := by
  rw [stampAt_eq a.clock ta, stampAt_eq b.clock tb, h.initiator, h.partner]
  constructor <;> split
  · exact (stampAt_eq b.clock b.store key).symm
  · exact (stampAt_eq a.clock a.store key).symm
  · exact (stampAt_eq a.clock a.store key).symm
  · exact (stampAt_eq b.clock b.store key).symm

theorem Exchanged.between (key : Key) :
    (stampAt a.store key ≤ stampAt ta key ∧
        stampAt ta key ≤ stampAt a.store key ⊔ stampAt b.store key) ∧
      stampAt b.store key ≤ stampAt tb key ∧
        stampAt tb key ≤ stampAt a.store key ⊔ stampAt b.store key := by
  obtain ⟨hta, htb⟩ := h.stamps key
  rw [hta, htb]
  constructor <;> split
  · rename_i hin
    exact ⟨(h.fetchedWins key hin).le, le_sup_right⟩
  · exact ⟨le_rfl, le_sup_left⟩
  · rename_i hin
    exact ⟨(h.pushedWins key hin).le, le_sup_left⟩
  · exact ⟨le_rfl, le_sup_right⟩

theorem Exchanged.agrees {key : Key}
    (hkey : key ∈ pushed ∨ key ∈ fetched) : stampAt ta key = stampAt tb key := by
  obtain ⟨hta, htb⟩ := h.stamps key
  rw [hta, htb]
  rcases hkey with hin | hin
  · have hout : key ∉ fetched := fun h' => (h.pushedWins key hin).asymm (h.fetchedWins key h')
    rw [if_neg hout, if_pos hin]
  · have hout : key ∉ pushed := fun h' => (h.pushedWins key h').asymm (h.fetchedWins key hin)
    rw [if_pos hin, if_neg hout]

theorem Exchanged.differing_subset : differing ta tb ⊆ differing a.store b.store := by
  intro key hkey
  rw [mem_differing] at hkey ⊢
  obtain ⟨hpushed, hfetched⟩ := not_or.mp (mt h.agrees hkey)
  obtain ⟨hta, htb⟩ := h.stamps key
  rwa [hta, htb, if_neg hfetched, if_neg hpushed] at hkey

theorem Exchanged.differing_ssubset {key : Key}
    (hplay : inPlay key) (hne : stampAt a.store key ≠ stampAt b.store key) :
    differing ta tb ⊂ differing a.store b.store := by
  obtain ⟨key', hmoved, hne'⟩ : ∃ key', (key' ∈ pushed ∨ key' ∈ fetched) ∧
      stampAt a.store key' ≠ stampAt b.store key' := by
    rcases lt_or_gt_of_ne hne with hlt | hlt
    · obtain ⟨key', hin⟩ := exists_mem_of_ne_nil _ (h.oneFetched key hplay hlt)
      exact ⟨key', .inr hin, (h.fetchedWins key' hin).ne⟩
    · obtain ⟨key', hin⟩ := exists_mem_of_ne_nil _ (h.onePushed key hplay hlt)
      exact ⟨key', .inl hin, (h.pushedWins key' hin).ne'⟩
  refine Finset.ssubset_iff_of_subset h.differing_subset |>.mpr
    ⟨key', mem_differing.mpr hne', fun hin => ?_⟩
  exact mem_differing.mp hin (h.agrees hmoved)

theorem Exchanged.joins
    (hrest : AtRest xxh3 numBuckets a b)
    (hplay : ∀ key, stampAt a.store key ≠ stampAt b.store key → inPlay key)
    (hbudget : BudgetsCover xxh3 numBuckets a b) (key : Key) :
    contentIn a.clock ta key = joinAt a b key ∧ contentIn b.clock tb key = joinAt a b key := by
  rw [h.initiator, h.partner, joinAt]
  rcases lt_trichotomy (stampAt a.store key) (stampAt b.store key) with hlt | heq | hlt
  · have hfetched := h.allFetched hbudget.fetch key (hplay key hlt.ne) hlt
    have hpushed : key ∉ pushed := fun hin => (h.pushedWins key hin).asymm hlt
    rw [if_pos hfetched, if_neg hpushed, if_pos hlt]
    exact ⟨rfl, rfl⟩
  · have hfetched : key ∉ fetched := fun hin => (h.fetchedWins key hin).ne heq
    have hpushed : key ∉ pushed := fun hin => (h.pushedWins key hin).ne' heq
    rw [if_neg hfetched, if_neg hpushed, if_neg heq.not_lt]
    exact ⟨rfl, (hrest.content_eq heq).symm⟩
  · have hpushed := h.allPushed hbudget.push key (hplay key hlt.ne') hlt
    have hfetched : key ∉ fetched := fun hin => (h.fetchedWins key hin).asymm hlt
    rw [if_neg hfetched, if_pos hpushed, if_neg hlt.asymm]
    exact ⟨rfl, rfl⟩

end

end Exchange

end Rest

/-- **A round makes progress and reaches the join**: every stamp ends between its old value and the
greater one of the two; the keys that differ become fewer; and both stores are the last-writer-wins
join if the budgets cover all differences. -/
theorem round_joins (xxh3 : Bytes → UInt64) (numBuckets : Nat) (a b : AntiEntropyManager)
    (h : AtRest xxh3 numBuckets a b) :
    ∃ ta tb, runRound xxh3 numBuckets a b = .ok (ta, tb) ∧
      (∀ key, (stampAt a.store key ≤ stampAt ta key ∧
          stampAt ta key ≤ stampAt a.store key ⊔ stampAt b.store key) ∧
        stampAt b.store key ≤ stampAt tb key ∧
          stampAt tb key ≤ stampAt a.store key ⊔ stampAt b.store key) ∧
      (differing ta tb).card ≤ (differing a.store b.store).card ∧
      (0 < (differing a.store b.store).card →
        (differing ta tb).card < (differing a.store b.store).card) ∧
      (BudgetsCover xxh3 numBuckets a b → ∀ key,
        contentIn a.clock ta key = joinAt a b key ∧ contentIn b.clock tb key = joinAt a b key) := by
  obtain ⟨ta, tb, inPlay, pushed, fetched, hrun, hexchanged, hone, hall⟩ := h.runRound_spec
  refine ⟨ta, tb, hrun, hexchanged.between, Finset.card_le_card hexchanged.differing_subset,
    fun hpos => ?_, fun hbudget => hexchanged.joins h (hall hbudget.metadata) hbudget⟩
  obtain ⟨key, hkey⟩ := Finset.card_pos.mp hpos
  obtain ⟨key', hplay, hne⟩ := hone ⟨key, mem_differing.mp hkey⟩
  exact Finset.card_lt_card (hexchanged.differing_ssubset hplay hne)

/-- A hash to run a round with, and two nodes with one entry each. -/
def polyHash (bytes : Bytes) : UInt64 := bytes.foldl (fun h x => h * 31 + x.toUInt64) 7

def holding (key : Key) (version : UInt64) : AntiEntropyManager where
  store := AList.insert key (VersionedEntry.setVersion { value := [7] } version) ∅
  digestForRound := computeDigest polyHash 1
    (AList.insert key (VersionedEntry.setVersion { value := [7] } version) ∅)
  clock := {}
  fetchBytes := 64

theorem mem_holding {key key' : Key} {version : UInt64} :
    key' ∈ (holding key version).store ↔ key' = key := by
  refine (AList.mem_insert _).trans (or_iff_left fun h => ?_)
  exact not_mem_nil h

theorem holding_atRest : AtRest polyHash 1 (holding [1] 2) (holding [2] 1) where
  buckets := Nat.one_pos
  exactInitiator := rfl
  exactPartner := rfl
  keysTell := by
    have hne : polyHash [1] ≠ polyHash [2] := by decide
    intro key hkey key' hkey' heq
    rw [Set.mem_ofPred_eq, mem_holding, mem_holding] at hkey hkey'
    rcases hkey with rfl | rfl <;> rcases hkey' with rfl | rfl
    · rfl
    · exact absurd heq hne
    · exact absurd heq.symm hne
    · rfl
  bucketsTell := by
    intro bucket hbucket heq
    obtain rfl : bucket = 0 := Nat.lt_one_iff.mp hbucket
    exact absurd heq (by decide +kernel)
  groupsTell := by
    intro group hgroup heq
    obtain rfl : group = 0 := Nat.lt_one_iff.mp hgroup
    exact absurd heq (by decide +kernel)
  cellsTell := by
    intro bucket hbucket hmany
    obtain rfl : bucket = 0 := Nat.lt_one_iff.mp hbucket
    exact absurd hmany (by decide +kernel)
  stampsTell := by
    intro key entry entry' hentry hentry'
    have hkey : key ∈ (holding [1] 2).store := AList.lookup_isSome.mp (by rw [hentry]; rfl)
    have hkey' : key ∈ (holding [2] 1).store := AList.lookup_isSome.mp (by rw [hentry']; rfl)
    exact absurd ((mem_holding.mp hkey).symm.trans (mem_holding.mp hkey')) (by decide)

theorem round_joins_two_entries :
    ∃ ta tb, runRound polyHash 1 (holding [1] 2) (holding [2] 1) = .ok (ta, tb) ∧
      (differing ta tb).card < 2 ∧
      contentIn (holding [2] 1).clock tb [1] =
        contentIn (holding [1] 2).clock (holding [1] 2).store [1] ∧
      contentIn (holding [1] 2).clock ta [2] =
        contentIn (holding [2] 1).clock (holding [2] 1).store [2] := by
  obtain ⟨ta, tb, hrun, -, -, hfewer, hjoin⟩ := round_joins polyHash 1 _ _ holding_atRest
  have htwo : (differing (holding [1] 2).store (holding [2] 1).store).card = 2 := by decide +kernel
  have hbudget : BudgetsCover polyHash 1 (holding [1] 2) (holding [2] 1) :=
    ⟨by decide +kernel, by decide +kernel, by decide +kernel⟩
  refine ⟨ta, tb, hrun, htwo ▸ hfewer (htwo ▸ Nat.two_pos), ?_, ?_⟩
  · rw [(hjoin hbudget [1]).2]
    decide +kernel
  · rw [(hjoin hbudget [2]).1]
    decide +kernel

end AntiEntropyManager

end Cinder
