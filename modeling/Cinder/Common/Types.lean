/-
The versioned entry every layer passes around, and the last-writer-wins order on its
stamps (`include/cinder/common/types.hpp`).

`VersionedEntry` keeps the packed word of the source: bit 0 is the TTL flag, bit 1 the tombstone
flag, bits 2 to 63 the version. `LwwStamp` carries the linear order `compareLww` decides.
-/
import Mathlib.Data.Prod.Lex
import Mathlib.Data.UInt
import Mathlib.Data.Nat.Bitwise
import Mathlib.Tactic.Ring

namespace Cinder

/-- A byte string (`std::string` of the source). -/
abbrev Bytes := List UInt8

/-- Byte strings are compared in every module, by the one instance. -/
instance instLawfulBEqBytes : LawfulBEq Bytes := inferInstance

abbrev Key := Bytes

/-- Nanoseconds of a clock (`steady_clock::time_point` or `system_clock`). -/
abbrev Nanos := Int

/-! ## 1. The packed entry -/

/-- Flags and version share one word. -/
structure VersionedEntry where
  versionAndTtl : UInt64 := 0
  expiresAt : Nanos := 0
  writerNodeHash : UInt64 := 0
  value : Bytes := []
  deriving DecidableEq, Repr

namespace VersionedEntry

variable (e : VersionedEntry)

def version : UInt64 := e.versionAndTtl >>> 2

def hasTtl : Bool := e.versionAndTtl &&& 1 != 0

def isTombstone : Bool := e.versionAndTtl &&& 2 != 0

def setVersion (v : UInt64) : VersionedEntry :=
  { e with versionAndTtl := (v <<< 2) ||| (e.versionAndTtl &&& 3) }

def setHasTtl (ttl : Bool) : VersionedEntry :=
  { e with versionAndTtl := (e.versionAndTtl &&& ~~~1) ||| (if ttl then 1 else 0) }

def setTombstone (tombstone : Bool) : VersionedEntry :=
  { e with versionAndTtl := (e.versionAndTtl &&& ~~~2) ||| (if tombstone then 2 else 0) }

end VersionedEntry

/-! ### Bits of a packed word

    Every accessor reads bits of the word, every setter writes some and keeps the
    others; the lemmas below say which. -/

section Bits

theorem and_two_pow_bne_zero (w m : UInt64) (i : Nat) (hm : m.toNat = 2 ^ i) :
    (w &&& m != 0) = w.toNat.testBit i := by
  rw [Bool.eq_iff_iff, bne_iff_ne, ne_eq, ← UInt64.toNat_inj, UInt64.toNat_and, hm, Nat.and_two_pow]
  cases w.toNat.testBit i <;> simp

theorem testBit_shiftLeft_two (v : UInt64) (i : Nat) :
    (v <<< 2).toNat.testBit i =
      (decide (i < 64) && (decide (2 ≤ i) && v.toNat.testBit (i - 2))) := by
  rw [UInt64.toNat_shiftLeft, Nat.testBit_mod_two_pow]
  simp [Nat.testBit_shiftLeft]

theorem testBit_shiftRight_two (v : UInt64) (i : Nat) :
    (v >>> 2).toNat.testBit i = v.toNat.testBit (2 + i) := by
  rw [UInt64.toNat_shiftRight]
  simp [Nat.testBit_shiftRight]

theorem testBit_eq_false_of_lt {n j i : Nat} (h : n < 2 ^ j) (hji : j ≤ i) : n.testBit i = false :=
  Nat.testBit_lt_two_pow (lt_of_lt_of_le h (Nat.pow_le_pow_right (by decide) hji))

theorem shiftLeft_or_shiftRight {v m : UInt64} (hv : v.toNat < 2 ^ 62) (hm : m.toNat < 2 ^ 2) :
    ((v <<< 2) ||| m) >>> 2 = v := by
  apply UInt64.toNat_inj.mp
  apply Nat.eq_of_testBit_eq
  intro i
  rw [testBit_shiftRight_two, UInt64.toNat_or, Nat.testBit_or, testBit_shiftLeft_two,
    testBit_eq_false_of_lt hm (Nat.le_add_right 2 i), Bool.or_false, Nat.add_sub_cancel_left]
  by_cases hi : i < 62
  · simp [show 2 + i < 64 by omega]
  · rw [testBit_eq_false_of_lt hv (by omega)]
    simp

theorem and_not_or_shiftRight (w : UInt64) {m b : UInt64} (hm : m.toNat < 2 ^ 2)
    (hb : b.toNat < 2 ^ 2) : ((w &&& ~~~m) ||| b) >>> 2 = w >>> 2 := by
  apply UInt64.toNat_inj.mp
  apply Nat.eq_of_testBit_eq
  intro i
  have hnot : (~~~m).toNat = 2 ^ 64 - (m.toNat + 1) := by
    rw [UInt64.toNat_not, UInt64.size]
    omega
  rw [testBit_shiftRight_two, testBit_shiftRight_two, UInt64.toNat_or, Nat.testBit_or,
    testBit_eq_false_of_lt hb (Nat.le_add_right 2 i), UInt64.toNat_and, Nat.testBit_and, hnot,
    Nat.testBit_two_pow_sub_succ m.toNat_lt, testBit_eq_false_of_lt hm (Nat.le_add_right 2 i)]
  by_cases hi : 2 + i < 64
  · simp [hi]
  · rw [testBit_eq_false_of_lt w.toNat_lt (by omega)]
    simp

end Bits

namespace VersionedEntry

variable (e : VersionedEntry)

theorem isTombstone_eq : e.isTombstone = e.versionAndTtl.toNat.testBit 1 :=
  and_two_pow_bne_zero _ 2 1 rfl

theorem hasTtl_eq : e.hasTtl = e.versionAndTtl.toNat.testBit 0 := and_two_pow_bne_zero _ 1 0 rfl

@[simp] theorem hasTtl_setVersion (v : UInt64) : (e.setVersion v).hasTtl = e.hasTtl := by
  rw [hasTtl_eq, hasTtl_eq]
  simp only [setVersion, UInt64.toNat_or, UInt64.toNat_and, Nat.testBit_or, Nat.testBit_and,
    testBit_shiftLeft_two]
  simp +decide

variable (b : Bool)

@[simp] theorem hasTtl_setHasTtl : (e.setHasTtl b).hasTtl = b := by
  rw [hasTtl_eq]
  simp only [setHasTtl, UInt64.toNat_or, UInt64.toNat_and, Nat.testBit_or, Nat.testBit_and]
  cases b <;> simp +decide

theorem version_lt : e.version.toNat < 2 ^ 62 := by
  have := e.versionAndTtl.toNat_lt
  simp only [version, UInt64.toNat_shiftRight, Nat.shiftRight_eq_div_pow, UInt64.reduceToNat,
    Nat.reduceMod]
  omega

theorem version_setVersion {v : UInt64} (hv : v.toNat < 2 ^ 62) : (e.setVersion v).version = v := by
  refine shiftLeft_or_shiftRight hv ?_
  rw [UInt64.toNat_and]
  exact lt_of_le_of_lt Nat.and_le_right (by decide)

theorem version_setVersion_eq (v : UInt64) : (e.setVersion v).version = (v <<< 2) >>> 2 := by
  have hflags : (e.versionAndTtl &&& 3).toNat < 2 ^ 2 := by
    rw [UInt64.toNat_and]
    exact lt_of_le_of_lt Nat.and_le_right (by decide)
  apply UInt64.toNat_inj.mp
  apply Nat.eq_of_testBit_eq
  intro i
  show (((v <<< 2) ||| (e.versionAndTtl &&& 3)) >>> 2).toNat.testBit i = _
  rw [testBit_shiftRight_two, testBit_shiftRight_two, UInt64.toNat_or, Nat.testBit_or,
    testBit_eq_false_of_lt hflags (Nat.le_add_right 2 i), Bool.or_false]

@[simp] theorem isTombstone_setVersion (v : UInt64) :
    (e.setVersion v).isTombstone = e.isTombstone := by
  rw [isTombstone_eq, isTombstone_eq]
  simp only [setVersion, UInt64.toNat_or, UInt64.toNat_and, Nat.testBit_or, Nat.testBit_and,
    testBit_shiftLeft_two]
  simp +decide

@[simp] theorem isTombstone_setHasTtl : (e.setHasTtl b).isTombstone = e.isTombstone := by
  have hmask : Nat.testBit 18446744073709551614 1 = true := by decide
  have hflag : Nat.testBit 1 1 = false := by decide
  rw [isTombstone_eq, isTombstone_eq]
  simp only [setHasTtl, UInt64.toNat_or, UInt64.toNat_and, Nat.testBit_or, Nat.testBit_and]
  cases b <;> simp [hmask, hflag]

@[simp] theorem isTombstone_setTombstone : (e.setTombstone b).isTombstone = b := by
  rw [isTombstone_eq]
  simp only [setTombstone, UInt64.toNat_or, UInt64.toNat_and, Nat.testBit_or, Nat.testBit_and]
  cases b <;> simp +decide

@[simp] theorem hasTtl_setTombstone : (e.setTombstone b).hasTtl = e.hasTtl := by
  have hmask : Nat.testBit 18446744073709551613 0 = true := by decide
  have hflag : Nat.testBit 2 0 = false := by decide
  rw [hasTtl_eq, hasTtl_eq]
  simp only [setTombstone, UInt64.toNat_or, UInt64.toNat_and, Nat.testBit_or, Nat.testBit_and]
  cases b <;> simp [hmask, hflag]

@[simp] theorem version_setTombstone : (e.setTombstone b).version = e.version := by
  cases b <;> exact and_not_or_shiftRight _ (by decide) (by decide)

@[simp] theorem version_setHasTtl : (e.setHasTtl b).version = e.version := by
  cases b <;> exact and_not_or_shiftRight _ (by decide) (by decide)

theorem versionAndTtl_ext {e e' : VersionedEntry} (hversion : e.version = e'.version)
    (httl : e.hasTtl = e'.hasTtl) (htomb : e.isTombstone = e'.isTombstone) :
    e.versionAndTtl = e'.versionAndTtl := by
  rw [hasTtl_eq, hasTtl_eq] at httl
  rw [isTombstone_eq, isTombstone_eq] at htomb
  apply UInt64.toNat_inj.mp
  apply Nat.eq_of_testBit_eq
  intro i
  match i with
  | 0 => exact httl
  | 1 => exact htomb
  | i + 2 =>
    have hbit := congrArg (fun v => v.toNat.testBit i) hversion
    simp only [version, testBit_shiftRight_two] at hbit
    rw [add_comm i 2]
    exact hbit

end VersionedEntry

/-! ## 2. The last-writer-wins order -/

structure LwwStamp where
  version : UInt64 := 0
  writer : UInt64 := 0
  tombstone : Bool := false
  deriving DecidableEq, Repr

inductive LwwOrder where
  | less | equal | greater
  deriving DecidableEq, Repr

/-- Version, then writer hash, then tombstone wins. -/
def compareLww (a b : LwwStamp) : LwwOrder :=
  if a.version ≠ b.version then
    if a.version < b.version then .less else .greater
  else if a.writer ≠ b.writer then
    if a.writer < b.writer then .less else .greater
  else if a.tombstone ≠ b.tombstone then
    if a.tombstone then .greater else .less
  else .equal

/-- The incoming stamp is strictly greater. -/
def lwwWinsOver (incoming resident : LwwStamp) : Bool := compareLww incoming resident = .greater

/-- The incoming stamp is greater or equal. -/
def lwwCovers (incoming resident : LwwStamp) : Bool := compareLww incoming resident ≠ .less

variable (e : VersionedEntry)

def stampOf : LwwStamp := ⟨e.version, e.writerNodeHash, e.isTombstone⟩

@[simp] theorem stampOf_setHasTtl (b : Bool) : stampOf (e.setHasTtl b) = stampOf e := by
  simp only [stampOf, VersionedEntry.version_setHasTtl, VersionedEntry.isTombstone_setHasTtl]
  rfl

@[simp] theorem stampOf_setTombstone (b : Bool) :
    stampOf (e.setTombstone b) = { stampOf e with tombstone := b } := by
  simp only [stampOf, VersionedEntry.version_setTombstone, VersionedEntry.isTombstone_setTombstone]
  rfl

@[simp] theorem stampOf_expiresAt (t : Nanos) : stampOf { e with expiresAt := t } = stampOf e := rfl

namespace LwwStamp

/-- The stamp as a point of the lexicographic order of its three fields. -/
def toLexTriple (s : LwwStamp) : Nat ×ₗ (Nat ×ₗ Bool) :=
  toLex (s.version.toNat, toLex (s.writer.toNat, s.tombstone))

theorem toLexTriple_injective : Function.Injective toLexTriple := by
  rintro ⟨v, w, t⟩ ⟨v', w', t'⟩ h
  simp only [toLexTriple, toLex_inj, Prod.mk.injEq, UInt64.toNat_inj] at h
  obtain ⟨rfl, rfl, rfl⟩ := h
  rfl

instance : LinearOrder LwwStamp := LinearOrder.lift' toLexTriple toLexTriple_injective

theorem lt_iff {a b : LwwStamp} :
    a < b ↔ a.version < b.version ∨ a.version = b.version ∧
      (a.writer < b.writer ∨ a.writer = b.writer ∧ a.tombstone < b.tombstone) := by
  change a.toLexTriple < b.toLexTriple ↔ _
  simp only [toLexTriple, Prod.Lex.toLex_lt_toLex, UInt64.lt_iff_toNat_lt, UInt64.toNat_inj]

theorem version_le {a b : LwwStamp} (h : a ≤ b) : a.version ≤ b.version := by
  rcases h.lt_or_eq with hlt | rfl
  · rcases lt_iff.mp hlt with hver | ⟨hver, -⟩
    · exact UInt64.le_of_lt hver
    · exact UInt64.le_of_eq hver
  · exact UInt64.le_refl _

end LwwStamp

theorem compareLww_cases (a b : LwwStamp) :
    (compareLww a b = .less ∧ a < b) ∨ (compareLww a b = .equal ∧ a = b) ∨
      (compareLww a b = .greater ∧ b < a) := by
  obtain ⟨v, w, t⟩ := a
  obtain ⟨v', w', t'⟩ := b
  simp only [compareLww, LwwStamp.lt_iff]
  by_cases hv : v = v'
  · subst hv
    by_cases hw : w = w'
    · subst hw
      cases t <;> cases t' <;> simp
    · rcases UInt64.lt_or_lt_of_ne hw with h | h
      · simp [hw, h]
      · simp [hw, h, UInt64.not_lt.mpr (UInt64.le_of_lt h)]
  · rcases UInt64.lt_or_lt_of_ne hv with h | h
    · simp [hv, h]
    · simp [hv, h, UInt64.not_lt.mpr (UInt64.le_of_lt h)]

variable {a b : LwwStamp}

@[simp] theorem compareLww_eq_less : compareLww a b = .less ↔ a < b := by
  rcases compareLww_cases a b with ⟨h, hab⟩ | ⟨h, rfl⟩ | ⟨h, hba⟩
  · simp [h, hab]
  · simp [h]
  · simp [h, hba.le]

@[simp] theorem compareLww_eq_greater : compareLww a b = .greater ↔ b < a := by
  rcases compareLww_cases a b with ⟨h, hab⟩ | ⟨h, rfl⟩ | ⟨h, hba⟩
  · simp [h, hab.le]
  · simp [h]
  · simp [h, hba]

@[simp] theorem compareLww_eq_equal : compareLww a b = .equal ↔ a = b := by
  rcases compareLww_cases a b with ⟨h, hab⟩ | ⟨h, rfl⟩ | ⟨h, hba⟩
  · simp [h, hab.ne]
  · simp [h]
  · simp [h, hba.ne']

@[simp] theorem lwwWinsOver_iff : lwwWinsOver a b = true ↔ b < a := by
  simp [lwwWinsOver]

@[simp] theorem lwwCovers_iff : lwwCovers a b = true ↔ b ≤ a := by
  simp [lwwCovers]

/-! ## 3. Status codes (`include/cinder/common/status.hpp`) -/

inductive Errc where
  | ok | notFound | capacityExceeded | invalidArgument | ttlExpired | notSupported
  | internalError | timeout | notReady | permissionDenied | corruptData
  deriving DecidableEq, Repr

end Cinder
