/-
The rows the initiator of a round knows in the end are those of its partner, for hashes
that tell keys and cells apart.
-/
import Cinder.Node.AntiEntropyMessages

namespace Cinder

open List Bool

namespace AntiEntropyManager

section Refinement

variable {xxh3 : Bytes → UInt64} {numBuckets : Nat} {a b m : AntiEntropyManager}

/-! ## 1. Patched rows -/

theorem toItem_injective {t : Table} {bucket : Nat} {row row' : MetaRow}
    (h : row ∈ bucketRows xxh3 numBuckets t bucket) (h' : row'.bucket = bucket)
    (heq : row.toItem = row'.toItem) : row = row' := by
  obtain ⟨key, entry, -, rfl, rfl⟩ := mem_bucketRows.mp h
  cases row'
  simp only [MetaRow.toItem, metaRow, Iblt.Item.mk.injEq] at heq h' ⊢
  obtain ⟨rfl, rfl, rfl, rfl⟩ := heq
  rw [h']

theorem eq_of_keyHash {t : Table} (hinj : Set.InjOn xxh3 {key | key ∈ t}) {bucket : Nat}
    {row row' : MetaRow} (h : row ∈ bucketRows xxh3 numBuckets t bucket)
    (h' : row' ∈ bucketRows xxh3 numBuckets t bucket) (heq : row.keyHash = row'.keyHash) :
    row = row' := by
  obtain ⟨key, entry, hentry, -, rfl⟩ := mem_bucketRows.mp h
  obtain ⟨key', entry', hentry', -, rfl⟩ := mem_bucketRows.mp h'
  have hkey : key ∈ t := AList.lookup_isSome.mp (by rw [hentry]; rfl)
  have hkey' : key' ∈ t := AList.lookup_isSome.mp (by rw [hentry']; rfl)
  obtain rfl : key = key' := hinj hkey hkey' heq
  rw [Option.some.inj (hentry.symm.trans hentry')]

def itemDiff (xxh3 : Bytes → UInt64) (numBuckets : Nat) (remote own : Table) (bucket : Nat) :
    Finset (Iblt.Item ⊕ Iblt.Item) :=
  let items := fun t => ((bucketRows xxh3 numBuckets t bucket).map MetaRow.toItem).toFinset
  (items remote \ items own).disjSum (items own \ items remote)

theorem mem_patchRows {remote own : Table} (hown : Set.InjOn xxh3 {key | key ∈ own}) {bucket : Nat}
    {diff : Iblt.Diff}
    (hremoteOnly : ∀ item, item ∈ diff.remoteOnly ↔
      item ∈ (bucketRows xxh3 numBuckets remote bucket).map MetaRow.toItem ∧
        item ∉ (bucketRows xxh3 numBuckets own bucket).map MetaRow.toItem)
    (hlocalOnly : ∀ item, item ∈ diff.localOnly ↔
      item ∈ (bucketRows xxh3 numBuckets own bucket).map MetaRow.toItem ∧
        item ∉ (bucketRows xxh3 numBuckets remote bucket).map MetaRow.toItem) (row : MetaRow) :
    row ∈ patchRows bucket (sortedRows xxh3 numBuckets own bucket) diff ↔
      row ∈ bucketRows xxh3 numBuckets remote bucket := by
  have hofItem : ∀ row' ∈ bucketRows xxh3 numBuckets remote bucket,
      MetaRow.ofItem bucket row'.toItem = row' := by
    intro row' hrow'
    have hbucket : (MetaRow.ofItem bucket row'.toItem).bucket = bucket := rfl
    exact (toItem_injective hrow' hbucket rfl).symm
  simp only [patchRows, mem_append, mem_filter, mem_sortedRows, not_eq_true',
    contains_eq_mem, decide_eq_false_iff_not]
  constructor
  · rintro (⟨hrow, hkept⟩ | hrow)
    · -- a local row that was not removed is one of the partner's
      by_contra hnot
      refine hkept (mem_map.mpr ⟨row.toItem, (hlocalOnly _).mpr ⟨mem_map_of_mem hrow, ?_⟩, rfl⟩)
      intro hitem
      obtain ⟨row', hrow', heq⟩ := mem_map.mp hitem
      exact hnot (toItem_injective hrow' (bucket_of_mem_bucketRows hrow) heq ▸ hrow')
    · obtain ⟨item, hitem, rfl⟩ := mem_map.mp hrow
      obtain ⟨row', hrow', rfl⟩ := mem_map.mp ((hremoteOnly item).mp hitem).1
      rwa [hofItem row' hrow']
  · intro hrow
    by_cases hshared : row.toItem ∈ (bucketRows xxh3 numBuckets own bucket).map MetaRow.toItem
    · left
      obtain ⟨row', hrow', heq⟩ := mem_map.mp hshared
      obtain rfl := toItem_injective hrow' (bucket_of_mem_bucketRows hrow) heq
      refine ⟨hrow', fun hremoved => ?_⟩
      -- the removed row with this hash would be the same row
      obtain ⟨item, hitem, hhash⟩ := mem_map.mp hremoved
      obtain ⟨hin, hout⟩ := (hlocalOnly item).mp hitem
      obtain ⟨row'', hrow'', rfl⟩ := mem_map.mp hin
      rw [eq_of_keyHash hown hrow'' hrow' hhash] at hout
      exact hout (mem_map_of_mem hrow)
    · right
      refine mem_map.mpr ⟨row.toItem, (hremoteOnly _).mpr ⟨mem_map_of_mem hrow, hshared⟩, ?_⟩
      exact hofItem row hrow

/-! ## 2. The known rows -/

/-- What refinement rests on: different keys have different hashes, and no cell of a sketch with
several items looks like one item. -/
structure Comparable (xxh3 : Bytes → UInt64) (numBuckets : Nat) (a b : AntiEntropyManager) :
    Prop where
  lengthInitiator : a.digestForRound.length = numBuckets
  lengthPartner : b.digestForRound.length = numBuckets
  keysTell : Set.InjOn xxh3 {key | key ∈ a.store ∨ key ∈ b.store}
  cellsTell : ∀ bucket < numBuckets,
    kIbltMinRows ≤ (bucketRows xxh3 numBuckets b.store bucket).length →
      Iblt.NoFalsePure xxh3 Iblt.kDefaultCells (itemDiff xxh3 numBuckets b.store a.store bucket)

section

variable (h : Comparable xxh3 numBuckets a b)

include h

theorem Comparable.keysTellInitiator : Set.InjOn xxh3 {key | key ∈ a.store} :=
  h.keysTell.mono fun _ => .inl

theorem Comparable.keysTellPartner : Set.InjOn xxh3 {key | key ∈ b.store} :=
  h.keysTell.mono fun _ => .inr

theorem Comparable.mem_peeledRows {bucket : Nat}
    (hlt : bucket < numBuckets) (hmany : sampled xxh3 numBuckets b.store bucket = false)
    (hpeels : peels xxh3 numBuckets a b bucket = true) (row : MetaRow) :
    row ∈ peeledRows xxh3 numBuckets a b bucket ↔
      row ∈ bucketRows xxh3 numBuckets b.store bucket := by
  have ha := h.keysTellInitiator
  have hb := h.keysTellPartner
  have hpure := h.cellsTell bucket hlt (sampled_eq_false.mp hmany)
  obtain ⟨diff, hdiff⟩ : ∃ diff, sketchDiff xxh3 numBuckets a b bucket = some diff := by
    unfold peels at hpeels
    split at hpeels
    · rename_i diff hdiff
      exact ⟨diff, hdiff⟩
    · cases hpeels
  have hperm : ((sortedRows xxh3 numBuckets a.store bucket).map MetaRow.toItem).Perm
      ((bucketRows xxh3 numBuckets a.store bucket).map MetaRow.toItem) :=
    (perm_insertionSort _ _).map _
  have hreports := Iblt.difference_reports (build_eq_sketchOf _) (build_eq_sketchOf _)
    (nodup_bucketRows hb bucket) (hperm.nodup_iff.mpr (nodup_bucketRows ha bucket))
    (by rw [toFinset_eq_of_perm _ _ hperm]; exact hpure) hdiff
  simp only [hperm.mem_iff] at hreports
  rw [peeledRows, hdiff]
  exact mem_patchRows ha hreports.1 hreports.2 row

theorem Comparable.rowsOf_knownRows {asked : List Nat}
    (hlt : ∀ bucket ∈ asked, bucket < numBuckets) :
    RowsOf xxh3 numBuckets b.store (comparedBuckets xxh3 numBuckets a b asked)
      (knownRows xxh3 numBuckets a b asked) := by
  intro row
  have hpeeled : ∀ bucket ∈ (requestedOf a b asked).filter (fun bucket =>
      !sampled xxh3 numBuckets b.store bucket && peels xxh3 numBuckets a b bucket),
        (row ∈ peeledRows xxh3 numBuckets a b bucket ↔
          row ∈ bucketRows xxh3 numBuckets b.store bucket) := by
    intro bucket hbucket
    obtain ⟨hreq, hpeels⟩ := mem_filter.mp hbucket
    rw [and_eq_true, not_eq_true'] at hpeels
    exact h.mem_peeledRows (hlt _ (mem_requestedOf.mp hreq).1) hpeels.1 hpeels.2 row
  simp only [knownRows, mem_append, mem_flatMap, mem_sortedRows]
  constructor
  · rintro ((⟨bucket, hbucket, hin⟩ | ⟨bucket, hbucket, hin⟩) | ⟨bucket, hbucket, hin⟩)
    · obtain ⟨hreq, hfew⟩ := mem_filter.mp hbucket
      refine ⟨bucket, mem_comparedBuckets.mpr (.inl ⟨hreq, fun hun => ?_⟩), hin⟩
      have hmany := sampled_eq_false.mpr ((mem_unpeeledBuckets hlt).mp hun).2.1
      exact Bool.noConfusion (hfew.symm.trans hmany)
    · obtain ⟨hreq, hpeels⟩ := mem_filter.mp hbucket
      refine ⟨bucket, mem_comparedBuckets.mpr (.inl ⟨hreq, fun hun => ?_⟩),
        (hpeeled bucket hbucket).mp hin⟩
      rw [and_eq_true] at hpeels
      exact Bool.noConfusion (hpeels.2.symm.trans ((mem_unpeeledBuckets hlt).mp hun).2.2)
    · exact ⟨bucket, mem_comparedBuckets.mpr (.inr hbucket), hin⟩
  · rintro ⟨bucket, hbucket, hin⟩
    rcases mem_comparedBuckets.mp hbucket with ⟨hreq, hpeel⟩ | hcollected
    · left
      cases hfew : sampled xxh3 numBuckets b.store bucket with
      | true => exact .inl ⟨bucket, mem_filter.mpr ⟨hreq, hfew⟩, hin⟩
      | false =>
        have hpeels : peels xxh3 numBuckets a b bucket = true := by
          by_contra hnot
          exact hpeel ((mem_unpeeledBuckets hlt).mpr
            ⟨hreq, sampled_eq_false.mp hfew, eq_false_iff.mpr hnot⟩)
        have hmem : bucket ∈ (requestedOf a b asked).filter fun bucket =>
            !sampled xxh3 numBuckets b.store bucket && peels xxh3 numBuckets a b bucket := by
          refine mem_filter.mpr ⟨hreq, ?_⟩
          rw [hfew, hpeels]
          rfl
        exact .inr ⟨bucket, hmem, (hpeeled bucket hmem).mpr hin⟩
    · exact .inr ⟨bucket, hcollected, hin⟩

end

end Refinement

end AntiEntropyManager

end Cinder
