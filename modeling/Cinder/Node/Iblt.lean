/-
The invertible Bloom lookup table of anti-entropy (`include/cinder/node/iblt.hpp`,
`src/node/anti_entropy/iblt.cpp`): building a sketch, and peeling the difference of two.

An item goes into three cells. Peeling looks for a cell of the difference that passes the purity
check, reports the item it shows, takes that item out of its three cells, and goes on as long as
new pure cells turn up.
-/
import Cinder.Common.Types
import Cinder.Lib.Decoder
import Cinder.Lib.Peeling
import Cinder.Lib.Xor

namespace Cinder

open List Function

namespace Iblt

open Decoding XorSum

/-! ## 1. Items, cells and sketches -/

structure Item where
  keyHash : UInt64 := 0
  version : UInt64 := 0
  writer : UInt64 := 0
  tombstone : Bool := false
  deriving DecidableEq, Repr

/-- One cell. The count stays far below the range of `int64_t`. -/
@[ext] structure Cell where
  count : Int := 0
  keyHashXor : UInt64 := 0
  versionXor : UInt64 := 0
  writerXor : UInt64 := 0
  tombstoneXor : UInt64 := 0
  checksumXor : UInt64 := 0
  deriving DecidableEq, Repr

abbrev Sketch := List Cell

structure Diff where
  remoteOnly : List Item := []
  localOnly : List Item := []
  deriving DecidableEq, Repr

def kHashCount : Nat := 3

def kMaxCells : Nat := 4096

def kDefaultCells : Nat := 64

def tombstoneWord (tombstone : Bool) : UInt64 := if tombstone then 1 else 0

section Hash

variable (xxh3 : Bytes → UInt64)

def itemChecksum (row : Item) : UInt64 :=
  xxh3 (leBytes 8 row.keyHash.toNat ++ leBytes 8 row.version.toNat ++
    leBytes 8 row.writer.toNat ++ leBytes 8 (tombstoneWord row.tombstone).toNat)

def candidate (hash : UInt64) (i : Nat) : UInt64 :=
  let c : UInt64 := hash + UInt64.ofNat (i + 1) * 0x9E3779B97F4A7C15
  let c : UInt64 := c ^^^ (c >>> 30)
  let c : UInt64 := c * 0xBF58476D1CE4E5B9
  let c : UInt64 := c ^^^ (c >>> 27)
  let c : UInt64 := c * 0x94D049BB133111EB
  c ^^^ (c >>> 31)

/-- The inner loop of `positions`: on to the next cell while the position is taken. It needs no
more rounds than there are earlier positions (`nextFree_notMem`). -/
def nextFree (earlier : List Nat) (count : Nat) : Nat → Nat → Nat
  | 0, pos => pos
  | fuel + 1, pos =>
    if pos ∈ earlier then nextFree earlier count fuel (if pos + 1 = count then 0 else pos + 1)
    else pos

def positions (hash : UInt64) (count : Nat) : List Nat := (range kHashCount).foldl (fun result i =>
    result ++ [nextFree result count result.length ((candidate hash i).toNat % count)]) []

def Cell.apply (cell : Cell) (sign : Int) (row : Item) (checksum : UInt64) : Cell where
  count := cell.count + sign
  keyHashXor := cell.keyHashXor ^^^ row.keyHash
  versionXor := cell.versionXor ^^^ row.version
  writerXor := cell.writerXor ^^^ row.writer
  tombstoneXor := cell.tombstoneXor ^^^ tombstoneWord row.tombstone
  checksumXor := cell.checksumXor ^^^ checksum

def Cell.row (cell : Cell) : Item :=
  ⟨cell.keyHashXor, cell.versionXor, cell.writerXor, cell.tombstoneXor != 0⟩

def pure (cell : Cell) : Bool :=
  if cell.count ≠ 1 ∧ cell.count ≠ -1 then false
  else if cell.tombstoneXor ≠ 0 ∧ cell.tombstoneXor ≠ 1 then false
  else cell.checksumXor == itemChecksum xxh3 cell.row

def insert (sketch : Sketch) (row : Item) : Sketch :=
  (positions (itemChecksum xxh3 row) sketch.length).foldl
    (fun cells pos => cells.modify pos (·.apply 1 row (itemChecksum xxh3 row))) sketch

def build (rows : List Item) (cellCount : Nat) : Option Sketch :=
  if cellCount < kHashCount ∨ cellCount > kMaxCells then none
  else some (rows.foldl (insert xxh3) (replicate cellCount {}))

/-! ## 2. Peeling -/

/-- The variables of the peeling loop. The queue is what the cursor has not reached yet. -/
structure Peel where
  cells : Sketch
  queue : List Nat
  queued : Nat → Bool
  decoded : Diff := {}

/-- Cells that are not pure, or not any more, come off the queue. -/
def skipImpure (cells : Sketch) : List Nat → (Nat → Bool) → List Nat × (Nat → Bool)
  | [], queued => ([], queued)
  | pos :: rest, queued =>
    if pure xxh3 (cells.getD pos {}) then (pos :: rest, queued)
    else skipImpure cells rest (update queued pos false)

/-- The inner loop: the item leaves one of its cells, and the cell is queued if that makes it
pure. -/
def Peel.visit (sign : Int) (row : Item) (checksum : UInt64) (s : Peel) (target : Nat) : Peel :=
  let cells := s.cells.modify target (·.apply sign row checksum)
  if !s.queued target && pure xxh3 (cells.getD target {}) then
    { s with cells, queue := s.queue ++ [target], queued := update s.queued target true }
  else { s with cells }

/-- `(is_remote ? decoded.remote_only : decoded.local_only).push_back(row)`. -/
def Diff.report (decoded : Diff) (isRemote : Bool) (row : Item) : Diff :=
  if isRemote then { decoded with remoteOnly := decoded.remoteOnly ++ [row] }
  else { decoded with localOnly := decoded.localOnly ++ [row] }

def Peel.takeOut (s : Peel) (isRemote : Bool) (row : Item) : Peel :=
  (positions (itemChecksum xxh3 row) s.cells.length).foldl
    (Peel.visit xxh3 (if isRemote then -1 else 1) row (itemChecksum xxh3 row)) s

/-- A pure cell: its item is reported and taken out. -/
def Peel.peelCell (s : Peel) (pos : Nat) : Peel :=
  let cell := s.cells.getD pos {}
  Peel.takeOut xxh3
    { s with
      queued := update s.queued pos false
      decoded := s.decoded.report (cell.count == 1) cell.row }
    (cell.count == 1) cell.row

/-- The loop of `difference`; `none` when a cell is pure and the budget of peels is used up. -/
def peel : Nat → Peel → Option Peel
  | budget, s =>
    match skipImpure xxh3 s.cells s.queue s.queued with
    | ([], queued) => some { s with queue := [], queued }
    | (pos :: rest, queued) =>
      match budget with
      | 0 => none
      | budget + 1 => peel budget (Peel.peelCell xxh3 { s with queue := rest, queued } pos)

def Cell.minus (a b : Cell) : Cell where
  count := a.count - b.count
  keyHashXor := a.keyHashXor ^^^ b.keyHashXor
  versionXor := a.versionXor ^^^ b.versionXor
  writerXor := a.writerXor ^^^ b.writerXor
  tombstoneXor := a.tombstoneXor ^^^ b.tombstoneXor
  checksumXor := a.checksumXor ^^^ b.checksumXor

/-- Where peeling starts: all pure cells are queued. -/
def Peel.start (cells : Sketch) : Peel :=
  let queue := (range cells.length).filter fun i => pure xxh3 (cells.getD i {})
  { cells, queue, queued := fun i => decide (i ∈ queue) }

def difference (remote «local» : Sketch) : Option Diff :=
  if remote.length ≠ «local».length ∨ remote.length < kHashCount ∨ remote.length > kMaxCells then
    none
  else
    let delta := zipWith Cell.minus remote «local»
    match peel xxh3 (delta.length * kHashCount) (Peel.start xxh3 delta) with
    | none => none
    | some s => if s.cells.all (· = {}) then some s.decoded else none

end Hash

/-! ## 3. The positions of an item -/

variable {count : Nat}

theorem nextFree_notMem_of {earlier : List Nat} {fuel pos : Nat} (hpos : pos < count)
    (h : ∃ k ≤ fuel, (pos + k) % count ∉ earlier) :
    nextFree earlier count fuel pos ∉ earlier ∧ nextFree earlier count fuel pos < count := by
  induction fuel generalizing pos with
  | zero =>
    obtain ⟨k, hk, hfree⟩ := h
    obtain rfl : k = 0 := by omega
    rw [add_zero, Nat.mod_eq_of_lt hpos] at hfree
    exact ⟨hfree, hpos⟩
  | succ fuel ih =>
    unfold nextFree
    split
    · rename_i htaken
      have hnext : (if pos + 1 = count then 0 else pos + 1) = (pos + 1) % count := by
        split
        · rename_i hwrap
          rw [hwrap, Nat.mod_self]
        · rw [Nat.mod_eq_of_lt (by omega)]
      rw [hnext]
      obtain ⟨k, hk, hfree⟩ := h
      -- the free cell is not the first one of the walk
      have hk0 : k ≠ 0 := by
        rintro rfl
        rw [add_zero, Nat.mod_eq_of_lt hpos] at hfree
        exact hfree htaken
      refine ih (Nat.mod_lt _ (by omega)) ⟨k - 1, by omega, ?_⟩
      rw [Nat.mod_add_mod, show pos + 1 + (k - 1) = pos + k by omega]
      exact hfree
    · rename_i hfree
      exact ⟨hfree, hpos⟩

theorem nextFree_notMem {earlier : List Nat} {pos : Nat} (hpos : pos < count)
    (hlen : earlier.length < count) :
    nextFree earlier count earlier.length pos ∉ earlier ∧
      nextFree earlier count earlier.length pos < count := by
  refine nextFree_notMem_of hpos ?_
  by_contra hno
  push Not at hno
  -- otherwise all cells of the walk, which are different, would be taken
  have hinj : Set.InjOn (fun k => (pos + k) % count) (Finset.range (earlier.length + 1)) := by
    intro k hk k' hk' heq
    have hk : k < earlier.length + 1 := Finset.mem_range.mp hk
    have hk' : k' < earlier.length + 1 := Finset.mem_range.mp hk'
    have hmod : k ≡ k' [MOD count] := Nat.ModEq.add_left_cancel' pos heq
    rwa [Nat.ModEq, Nat.mod_eq_of_lt (by omega), Nat.mod_eq_of_lt (by omega)] at hmod
  have hcard := Finset.card_le_card_of_injOn (t := earlier.toFinset) _ (fun k hk => by
    have hk : k < earlier.length + 1 := Finset.mem_range.mp hk
    exact mem_toFinset.mpr (hno k (by omega))) hinj
  have hle := toFinset_card_le earlier
  rw [Finset.card_range] at hcard
  omega

theorem positions_spec (hash : UInt64) (hcount : kHashCount ≤ count) :
    (positions hash count).Nodup ∧ (∀ p ∈ positions hash count, p < count) ∧
      (positions hash count).length = kHashCount := by
  have hcount : 3 ≤ count := hcount
  have hstep : ∀ (result : List Nat) (i : Nat), result.length < count →
      result.Nodup ∧ (∀ p ∈ result, p < count) →
      let next := result ++ [nextFree result count result.length ((candidate hash i).toNat % count)]
      next.Nodup ∧ ∀ p ∈ next, p < count := by
    intro result i hlen ⟨hnodup, hlt⟩
    have hpos : (candidate hash i).toNat % count < count := Nat.mod_lt _ (by omega)
    obtain ⟨hfree, hnew⟩ := nextFree_notMem hpos hlen
    refine ⟨nodup_append.mpr ⟨hnodup, nodup_singleton _, ?_⟩, ?_⟩
    · intro p hp q hq heq
      exact hfree (mem_singleton.mp hq ▸ heq ▸ hp)
    · intro p hp
      rcases mem_append.mp hp with hp | hp
      · exact hlt p hp
      · rw [mem_singleton.mp hp]
        exact hnew
  have h0 := hstep [] 0 (by simp only [length_nil]; omega)
    ⟨nodup_nil, nofun⟩
  have h1 := hstep _ 1 (by simp only [length_append, length_cons, length_nil]; omega) h0
  have h2 := hstep _ 2 (by simp only [length_append, length_cons, length_nil]; omega) h1
  exact ⟨h2.1, h2.2, rfl⟩

/-! ## 4. Cells as sums -/

instance : Zero Cell := ⟨{}⟩

instance : Add Cell where
  add a b :=
    { count := a.count + b.count
      keyHashXor := a.keyHashXor ^^^ b.keyHashXor
      versionXor := a.versionXor ^^^ b.versionXor
      writerXor := a.writerXor ^^^ b.writerXor
      tombstoneXor := a.tombstoneXor ^^^ b.tombstoneXor
      checksumXor := a.checksumXor ^^^ b.checksumXor }

instance : Neg Cell := ⟨fun a => { a with count := -a.count }⟩

instance : Sub Cell := ⟨Cell.minus⟩

/-- Cells form a group: counts add up, words are XORed. -/
instance : AddCommGroup Cell where
  add_assoc a b c := Cell.ext (Int.add_assoc ..) (UInt64.xor_assoc ..) (UInt64.xor_assoc ..)
    (UInt64.xor_assoc ..) (UInt64.xor_assoc ..) (UInt64.xor_assoc ..)
  zero_add a := Cell.ext (Int.zero_add _) UInt64.zero_xor UInt64.zero_xor UInt64.zero_xor
    UInt64.zero_xor UInt64.zero_xor
  add_zero a := Cell.ext (Int.add_zero _) UInt64.xor_zero UInt64.xor_zero UInt64.xor_zero
    UInt64.xor_zero UInt64.xor_zero
  add_comm a b := Cell.ext (Int.add_comm ..) (UInt64.xor_comm ..) (UInt64.xor_comm ..)
    (UInt64.xor_comm ..) (UInt64.xor_comm ..) (UInt64.xor_comm ..)
  neg_add_cancel a := Cell.ext (Int.add_left_neg _) UInt64.xor_self UInt64.xor_self
    UInt64.xor_self UInt64.xor_self UInt64.xor_self
  sub_eq_add_neg a b := Cell.ext Int.sub_eq_add_neg rfl rfl rfl rfl rfl
  nsmul := nsmulRec
  zsmul := zsmulRec

section Sums

variable (xxh3 : Bytes → UInt64)

def contribution (row : Item) : Cell :=
  ⟨1, row.keyHash, row.version, row.writer, tombstoneWord row.tombstone, itemChecksum xxh3 row⟩

/-- An item only the remote side has, or only the local side: the latter counts negatively. -/
def signed : Item ⊕ Item → Cell
  | .inl row => contribution xxh3 row
  | .inr row => -contribution xxh3 row

def unsigned : Item ⊕ Item → Item := Sum.elim id id

def cellsOf (count : Nat) (s : Item ⊕ Item) : Finset Nat :=
  (positions (itemChecksum xxh3 (unsigned s)) count).toFinset

/-- A sketch shows a set of signed items: every cell is the sum of those it holds. -/
def Shows (count : Nat) (cells : Sketch) (D : Finset (Item ⊕ Item)) : Prop :=
  cells = (range count).map (Peeling.cell (cellsOf xxh3 count) (signed xxh3) D)

/-- No cell with several of the items passes the purity check. -/
def NoFalsePure (count : Nat) (D : Finset (Item ⊕ Item)) : Prop :=
  Peeling.Unambiguous (cellsOf xxh3 count) (signed xxh3) (fun cell => pure xxh3 cell = true) D

variable {xxh3}

variable (cell : Cell)

theorem apply_one (row : Item) :
    cell.apply 1 row (itemChecksum xxh3 row) = cell + contribution xxh3 row := rfl

theorem tombstoneWord_ne_zero (b : Bool) : (tombstoneWord b != 0) = b := by
  cases b <;> rfl

@[simp] theorem row_contribution (row : Item) : (contribution xxh3 row).row = row := by
  simp only [Cell.row, contribution, tombstoneWord_ne_zero]

@[simp] theorem row_neg : (-cell).row = cell.row := rfl

variable (s : Item ⊕ Item)

theorem row_signed : (signed xxh3 s).row = unsigned s := by
  cases s with
  | inl row => exact row_contribution row
  | inr row => exact (row_neg _).trans (row_contribution row)

theorem count_signed : ((signed xxh3 s).count == 1) = s.isLeft := by
  cases s <;> rfl

theorem pure_zero : pure xxh3 0 = false := rfl

theorem pure_neg : pure xxh3 (-cell) = pure xxh3 cell := by
  have hcount : (-cell).count = -cell.count := rfl
  have hiff : ((-cell).count ≠ 1 ∧ (-cell).count ≠ -1) ↔ (cell.count ≠ 1 ∧ cell.count ≠ -1) := by
    rw [hcount]
    omega
  unfold pure
  simp only [hiff, row_neg]
  rfl

theorem pure_contribution (row : Item) : pure xxh3 (contribution xxh3 row) = true := by
  unfold pure
  rw [row_contribution, if_neg (by simp [contribution]), if_neg]
  · exact beq_self_eq_true _
  · cases htomb : row.tombstone <;> simp [contribution, htomb, tombstoneWord]

theorem pure_signed : pure xxh3 (signed xxh3 s) = true := by
  cases s with
  | inl row => exact pure_contribution row
  | inr row => exact (pure_neg _).trans (pure_contribution row)

theorem Shows.length_eq {count : Nat} {cells : Sketch} {D : Finset (Item ⊕ Item)}
    (h : Shows xxh3 count cells D) : cells.length = count := by
  rw [h, length_map, length_range]

theorem Shows.getElem? {count : Nat} {cells : Sketch} {D : Finset (Item ⊕ Item)}
    (h : Shows xxh3 count cells D) (p : Nat) :
    cells[p]? = if p < count then some (Peeling.cell (cellsOf xxh3 count) (signed xxh3) D p)
      else none := by
  rw [h, getElem?_map]
  split <;> rename_i hp <;> simp [hp]

end Sums

/-! ## 5. Building -/

section Building

variable {xxh3 : Bytes → UInt64} {count : Nat} {cells : Sketch} {D : Finset (Item ⊕ Item)}

theorem getElem?_foldl_modify {ps : List Nat} (hps : ps.Nodup) (f : Cell → Cell) (cells : Sketch)
    (p : Nat) : (ps.foldl (fun cells pos => cells.modify pos f) cells)[p]? =
      if p ∈ ps then cells[p]?.map f else cells[p]? := by
  induction ps generalizing cells with
  | nil => simp
  | cons q ps ih =>
    obtain ⟨hq, hps⟩ := nodup_cons.mp hps
    rw [foldl_cons, ih hps, getElem?_modify]
    by_cases hpq : q = p
    · subst hpq
      simp [hq]
    · simp [hpq, Ne.symm hpq]

theorem Shows.foldl_modify (h : Shows xxh3 count cells D) {ps : List Nat} (hps : ps.Nodup)
    {f : Cell → Cell} {D' : Finset (Item ⊕ Item)}
    (hcell : ∀ p, Peeling.cell (cellsOf xxh3 count) (signed xxh3) D' p =
      if p ∈ ps then f (Peeling.cell (cellsOf xxh3 count) (signed xxh3) D p)
      else Peeling.cell (cellsOf xxh3 count) (signed xxh3) D p) :
    Shows xxh3 count (ps.foldl (fun cells pos => cells.modify pos f) cells) D' := by
  refine ext_getElem? fun p => ?_
  rw [getElem?_foldl_modify hps, h.getElem?, getElem?_map]
  by_cases hp : p < count
  · rw [getElem?_range hp, if_pos hp, Option.map_some, Option.map_some, hcell p]
    split <;> rfl
  · simp [hp]

theorem shows_empty (count : Nat) : Shows xxh3 count (replicate count {}) ∅ := by
  refine ext_getElem? fun p => ?_
  rw [getElem?_replicate, getElem?_map]
  by_cases hp : p < count
  · rw [getElem?_range hp, if_pos hp]
    rfl
  · simp [hp]

theorem Shows.insert (hcount : kHashCount ≤ count) (h : Shows xxh3 count cells D) {row : Item}
    (hnew : .inl row ∉ D) :
    Shows xxh3 count (Iblt.insert xxh3 cells row) (Insert.insert (.inl row) D) := by
  unfold Iblt.insert
  rw [h.length_eq]
  refine h.foldl_modify (positions_spec _ hcount).1 fun p => ?_
  rw [Peeling.cell_insert hnew, apply_one]
  simp only [cellsOf, mem_toFinset]
  rfl

theorem Shows.foldl_insert (hcount : kHashCount ≤ count) {rows : List Item} {S : Finset Item}
    (h : Shows xxh3 count cells (S.disjSum ∅)) (hrows : rows.Nodup) (hnew : ∀ row ∈ rows, row ∉ S) :
    Shows xxh3 count (rows.foldl (Iblt.insert xxh3) cells) ((S ∪ rows.toFinset).disjSum ∅) := by
  induction rows generalizing cells S with
  | nil => simpa using h
  | cons row rows ih =>
    obtain ⟨hrow, hrows⟩ := nodup_cons.mp hrows
    have hins : Shows xxh3 count (Iblt.insert xxh3 cells row)
        ((Insert.insert row S).disjSum ∅) := by
      have heq : (Insert.insert row S).disjSum (∅ : Finset Item) =
          Insert.insert (.inl row) (S.disjSum ∅) := by
        ext (r | r) <;> simp
      rw [heq]
      exact h.insert hcount (by simpa using hnew row mem_cons_self)
    have hrest := ih hins hrows fun r hr hmem => by
      rcases Finset.mem_insert.mp hmem with rfl | hmem
      · exact hrow hr
      · exact hnew r (mem_cons_of_mem _ hr) hmem
    rwa [show S ∪ (row :: rows).toFinset = Insert.insert row S ∪ rows.toFinset by
      ext r
      simp only [toFinset_cons, Finset.mem_union, Finset.mem_insert]
      tauto]

theorem build_shows {rows : List Item} (hrows : rows.Nodup)
    (h : build xxh3 rows count = some cells) :
    kHashCount ≤ count ∧ Shows xxh3 count cells (rows.toFinset.disjSum ∅) := by
  unfold build at h
  split at h
  · cases h
  · rename_i hrange
    have hcount : kHashCount ≤ count := Nat.le_of_not_lt fun hlt => hrange (.inl hlt)
    cases h
    have hempty : Shows xxh3 count (replicate count {})
        ((∅ : Finset Item).disjSum (∅ : Finset Item)) := shows_empty count
    exact ⟨hcount, by simpa using hempty.foldl_insert hcount hrows (by simp)⟩

theorem cell_disjSum (A B : Finset Item) (p : Nat) :
    Peeling.cell (cellsOf xxh3 count) (signed xxh3) (A.disjSum B) p =
      ∑ row ∈ A with p ∈ positions (itemChecksum xxh3 row) count, contribution xxh3 row -
        ∑ row ∈ B with p ∈ positions (itemChecksum xxh3 row) count, contribution xxh3 row := by
  rw [Peeling.cell, Peeling.held, Finset.sum_filter, Finset.sum_disjSum, Finset.sum_filter,
    Finset.sum_filter, sub_eq_add_neg, ← Finset.sum_neg_distrib]
  refine congrArg₂ (· + ·) ?_ ?_
  · refine Finset.sum_congr rfl fun row _ => ?_
    simp only [cellsOf, unsigned, Sum.elim_inl, id, mem_toFinset, signed]
  · refine Finset.sum_congr rfl fun row _ => ?_
    simp only [cellsOf, unsigned, Sum.elim_inr, id, mem_toFinset, signed]
    split
    · rfl
    · exact neg_zero.symm

theorem cell_sub (R L : Finset Item) (p : Nat) :
    Peeling.cell (cellsOf xxh3 count) (signed xxh3) (R.disjSum ∅) p -
        Peeling.cell (cellsOf xxh3 count) (signed xxh3) (L.disjSum ∅) p =
      Peeling.cell (cellsOf xxh3 count) (signed xxh3) ((R \ L).disjSum (L \ R)) p := by
  rw [cell_disjSum, cell_disjSum, cell_disjSum, Finset.filter_empty, Finset.sum_empty, sub_zero,
    sub_zero]
  simp only [Finset.sum_filter]
  exact Finset.sum_sdiff_sub_sum_sdiff.symm

theorem Shows.minus {remote «local» : Sketch} {R L : Finset Item}
    (hr : Shows xxh3 count remote (R.disjSum ∅)) (hl : Shows xxh3 count «local» (L.disjSum ∅)) :
    Shows xxh3 count (zipWith Cell.minus remote «local») ((R \ L).disjSum (L \ R)) := by
  rw [hr, hl, zipWith_map, zipWith_self]
  exact map_congr_left fun p _ => cell_sub R L p

end Building

/-! ## 6. Peeling -/

section Peels

variable {xxh3 : Bytes → UInt64} {count : Nat} {D₀ D : Finset (Item ⊕ Item)}

/-- The items of `D₀` are those still in the sketch and those reported. -/
structure Reports (D₀ D : Finset (Item ⊕ Item)) (decoded : Diff) : Prop where
  sub : D ⊆ D₀
  remote : ∀ row, .inl row ∈ D₀ ↔ .inl row ∈ D ∨ row ∈ decoded.remoteOnly
  «local» : ∀ row, .inr row ∈ D₀ ↔ .inr row ∈ D ∨ row ∈ decoded.localOnly

variable {pos : Nat} {s : Peel} {i : Item ⊕ Item}

theorem pure_of_skipImpure {cells : Sketch} {queue rest : List Nat} {queued queued' : Nat → Bool}
    (h : skipImpure xxh3 cells queue queued = (pos :: rest, queued')) :
    pure xxh3 (cells.getD pos {}) = true := by
  induction queue generalizing queued with
  | nil => cases h
  | cons q queue ih =>
    unfold skipImpure at h
    split at h
    · rename_i hpure
      obtain ⟨⟨rfl, -⟩, -⟩ : (q = pos ∧ queue = rest) ∧ queued = queued' := by simpa using h
      exact hpure
    · exact ih h

theorem visit_eq (sign : Int) (row : Item) (checksum : UInt64) (s : Peel) (target : Nat) :
    (s.visit xxh3 sign row checksum target).cells =
        s.cells.modify target (·.apply sign row checksum) ∧
      (s.visit xxh3 sign row checksum target).decoded = s.decoded := by
  unfold Peel.visit
  dsimp only
  split <;> exact ⟨rfl, rfl⟩

theorem foldl_visit (sign : Int) (row : Item) (checksum : UInt64) (ps : List Nat) (s : Peel) :
    (ps.foldl (Peel.visit xxh3 sign row checksum) s).cells =
        ps.foldl (fun cells pos => cells.modify pos (·.apply sign row checksum)) s.cells ∧
      (ps.foldl (Peel.visit xxh3 sign row checksum) s).decoded = s.decoded := by
  induction ps generalizing s with
  | nil => exact ⟨rfl, rfl⟩
  | cons p ps ih =>
    obtain ⟨hcells, hdecoded⟩ := ih (s.visit xxh3 sign row checksum p)
    rw [(visit_eq ..).1] at hcells
    rw [(visit_eq ..).2] at hdecoded
    exact ⟨hcells, hdecoded⟩

theorem apply_signed (i : Item ⊕ Item) :
    (fun cell : Cell => cell.apply (if i.isLeft then -1 else 1) (unsigned i)
      (itemChecksum xxh3 (unsigned i))) = fun cell => cell - signed xxh3 i := by
  funext cell
  cases i with
  | inl row => rfl
  | inr row => exact (apply_one cell row).trans (sub_neg_eq_add cell _).symm

theorem takeOut_eq (s : Peel) (i : Item ⊕ Item) :
    (s.takeOut xxh3 i.isLeft (unsigned i)).cells =
        (positions (itemChecksum xxh3 (unsigned i)) s.cells.length).foldl
          (fun cells p => cells.modify p (· - signed xxh3 i)) s.cells ∧
      (s.takeOut xxh3 i.isLeft (unsigned i)).decoded = s.decoded := by
  obtain ⟨hcells, hdecoded⟩ := @foldl_visit xxh3 (if i.isLeft then -1 else 1) (unsigned i)
    (itemChecksum xxh3 (unsigned i)) (positions (itemChecksum xxh3 (unsigned i)) s.cells.length) s
  rw [apply_signed] at hcells
  exact ⟨hcells, hdecoded⟩

theorem peelCell_eq (hcell : s.cells.getD pos {} = signed xxh3 i) :
    s.peelCell xxh3 pos = Peel.takeOut xxh3
      { s with
        queued := update s.queued pos false
        decoded := s.decoded.report i.isLeft (unsigned i) } i.isLeft (unsigned i) := by
  rw [← count_signed, ← row_signed, ← hcell]
  rfl

theorem Reports.erase {decoded : Diff} (h : Reports D₀ D decoded) (hi : i ∈ D) :
    Reports D₀ (D.erase i) (decoded.report i.isLeft (unsigned i)) := by
  refine ⟨(Finset.erase_subset i D).trans h.sub, fun r => ?_, fun r => ?_⟩
  · rw [h.remote r, Finset.mem_erase]
    cases i with
    | inl row =>
      by_cases hr : r = row
      · simp [hr, hi, Diff.report, unsigned]
      · simp [hr, Diff.report, unsigned]
    | inr row => simp [Diff.report]
  · rw [h.local r, Finset.mem_erase]
    cases i with
    | inl row => simp [Diff.report]
    | inr row =>
      by_cases hr : r = row
      · simp [hr, hi, Diff.report, unsigned]
      · simp [hr, Diff.report, unsigned]

theorem peelCell_reports (hcount : kHashCount ≤ count) (hpure : NoFalsePure xxh3 count D)
    (hshows : Shows xxh3 count s.cells D) (hrep : Reports D₀ D s.decoded)
    (hpos : pure xxh3 (s.cells.getD pos {}) = true) :
    ∃ i ∈ D, Shows xxh3 count (s.peelCell xxh3 pos).cells (D.erase i) ∧
      Reports D₀ (D.erase i) (s.peelCell xxh3 pos).decoded := by
  have hcell : s.cells.getD pos {} = Peeling.cell (cellsOf xxh3 count) (signed xxh3) D pos := by
    rw [getD_eq_getElem?_getD, hshows.getElem?] at hpos ⊢
    split
    · rfl
    · rename_i hout
      rw [if_neg hout] at hpos
      cases hpos
  rw [hcell] at hpos
  obtain ⟨i, hi, -, hval⟩ := Peeling.cell_eq_value hpure (by simp [pure_zero]) hpos
  rw [peelCell_eq (hcell.trans hval)]
  refine ⟨i, hi, ?_, ?_⟩
  · rw [(takeOut_eq _ i).1, hshows.length_eq]
    refine hshows.foldl_modify (positions_spec _ hcount).1 fun p => ?_
    rw [Peeling.cell_erase hi]
    simp only [cellsOf, mem_toFinset]
  · rw [(takeOut_eq _ i).2]
    exact hrep.erase hi

theorem peel_reports (hcount : kHashCount ≤ count) {budget : Nat} {s' : Peel}
    (hpure : NoFalsePure xxh3 count D) (hshows : Shows xxh3 count s.cells D)
    (hrep : Reports D₀ D s.decoded) (h : peel xxh3 budget s = some s') :
    ∃ D' ⊆ D, Shows xxh3 count s'.cells D' ∧ Reports D₀ D' s'.decoded := by
  induction budget generalizing s D with
  | zero =>
    unfold peel at h
    split at h
    · cases h
      exact ⟨D, Finset.Subset.refl D, hshows, hrep⟩
    · cases h
  | succ budget ih =>
    unfold peel at h
    split at h
    · cases h
      exact ⟨D, Finset.Subset.refl D, hshows, hrep⟩
    · rename_i pos rest queued hskip
      obtain ⟨i, -, hshows', hrep'⟩ := peelCell_reports hcount hpure
        (s := { s with queue := rest, queued }) hshows hrep (pure_of_skipImpure hskip)
      obtain ⟨D', hsub, hD'⟩ := ih (hpure.mono (Finset.erase_subset i D)) hshows' hrep' h
      exact ⟨D', hsub.trans (Finset.erase_subset i D), hD'⟩

theorem signed_add_ne_zero {R L : Finset Item} {j : Item ⊕ Item} (hi : i ∈ (R \ L).disjSum (L \ R))
    (hj : j ∈ (R \ L).disjSum (L \ R)) : signed xxh3 i + signed xxh3 j ≠ 0 := by
  intro h
  have hcount : (signed xxh3 i).count + (signed xxh3 j).count = 0 := congrArg Cell.count h
  have hrow : unsigned i = unsigned j := by
    rw [← @row_signed xxh3 i, eq_neg_of_add_eq_zero_left h, row_neg, row_signed]
  cases i with
  | inl r =>
    cases j with
    | inl r' => cases hcount
    | inr l =>
      obtain rfl : r = l := hrow
      simp only [Finset.inl_mem_disjSum, Finset.inr_mem_disjSum, Finset.mem_sdiff] at hi hj
      exact hj.2 hi.1
  | inr l =>
    cases j with
    | inl r =>
      obtain rfl : l = r := hrow
      simp only [Finset.inl_mem_disjSum, Finset.inr_mem_disjSum, Finset.mem_sdiff] at hi hj
      exact hi.2 hj.1
    | inr l' => cases hcount

theorem difference_reports {remoteRows localRows : List Item} {remote «local» : Sketch}
    (hremote : build xxh3 remoteRows count = some remote)
    (hlocal : build xxh3 localRows count = some «local»)
    (hremoteNodup : remoteRows.Nodup) (hlocalNodup : localRows.Nodup)
    (hpure : NoFalsePure xxh3 count ((remoteRows.toFinset \ localRows.toFinset).disjSum
      (localRows.toFinset \ remoteRows.toFinset)))
    {decoded : Diff} (h : difference xxh3 remote «local» = some decoded) :
    (∀ row, row ∈ decoded.remoteOnly ↔ row ∈ remoteRows ∧ row ∉ localRows) ∧
      ∀ row, row ∈ decoded.localOnly ↔ row ∈ localRows ∧ row ∉ remoteRows := by
  obtain ⟨hcount, hr⟩ := build_shows hremoteNodup hremote
  obtain ⟨-, hl⟩ := build_shows hlocalNodup hlocal
  have hstart := hr.minus hl
  unfold difference at h
  split at h
  · cases h
  dsimp only at h
  split at h
  · cases h
  rename_i s hs
  split at h
  on_goal 2 => cases h
  rename_i hzero
  cases h
  obtain ⟨D', hsub, hshows, hrep⟩ := peel_reports hcount hpure
    (s := Peel.start xxh3 _) hstart
    ⟨Finset.Subset.refl _, by simp [Peel.start], by simp [Peel.start]⟩ hs
  -- the zero check leaves no item behind
  have hempty : D' = ∅ := by
    refine Peeling.eq_empty (hpure.mono hsub) (by simp [pure_zero])
      (fun i => (pure_neg _).trans (pure_signed i)) (fun i => ?_)
      (fun i hi j hj => signed_add_ne_zero (hsub hi) (hsub hj)) fun i _ p hp => ?_
    · have hlen := (positions_spec (itemChecksum xxh3 (unsigned i)) hcount).2.2
      exact toFinset_nonempty_iff _ |>.mpr (ne_nil_of_length_pos (hlen ▸ by decide))
    · have hlt : p < count := (positions_spec _ hcount).2.1 p (mem_toFinset.mp hp)
      have hget := hshows.getElem? p
      rw [if_pos hlt] at hget
      have hcell := all_eq_true.mp hzero _ (mem_of_getElem? hget)
      exact of_decide_eq_true hcell
  subst hempty
  refine ⟨fun row => ?_, fun row => ?_⟩
  · have hmem := hrep.remote row
    simp only [Finset.inl_mem_disjSum, Finset.mem_sdiff, mem_toFinset, Finset.notMem_empty,
      false_or] at hmem
    exact hmem.symm
  · have hmem := hrep.local row
    simp only [Finset.inr_mem_disjSum, Finset.mem_sdiff, mem_toFinset, Finset.notMem_empty,
      false_or] at hmem
    exact hmem.symm

end Peels

end Iblt

end Cinder
