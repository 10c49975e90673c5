/-
Texts as byte strings: literals, decimal numbers, and fields that a separator holds
apart.
-/
import Cinder.Common.Types

namespace Cinder

open List

def text (s : String) : Bytes := s.toList.map Char.toUInt8

/-- `std::to_string` of an unsigned number. -/
def decimal (n : Nat) : Bytes := (Nat.toDigits 10 n).map Char.toUInt8

def colon : UInt8 := 58

def dash : UInt8 := 45

theorem ofNat_toUInt8 {c : Char} (h : c.isDigit = true) : Char.ofNat c.toUInt8.toNat = c := by
  have hlt : c.toNat < 256 := by
    simp only [Char.isDigit, Bool.and_eq_true, decide_eq_true_eq, UInt32.le_iff_toNat_le] at h
    have : c.toNat ≤ 57 := h.2
    omega
  have hbyte : c.toUInt8.toNat = c.toNat := by
    show c.val.toUInt8.toNat = c.toNat
    rw [UInt32.toNat_toUInt8]
    exact Nat.mod_eq_of_lt hlt
  rw [hbyte, Char.ofNat_toNat]

theorem isDigit_of_mem_decimal {n : Nat} {b : UInt8} (h : b ∈ decimal n) :
    ∃ c : Char, c.isDigit = true ∧ c.toUInt8 = b := by
  obtain ⟨c, hc, rfl⟩ := mem_map.mp h
  exact ⟨c, Nat.isDigit_of_mem_toDigits (by decide) (by decide) hc, rfl⟩

theorem notMem_decimal {c : Char} (hc : c.isDigit = false)
    (hback : Char.ofNat c.toUInt8.toNat = c) (n : Nat) : c.toUInt8 ∉ decimal n := by
  intro h
  obtain ⟨d, hd, hbyte⟩ := isDigit_of_mem_decimal h
  -- The byte determines the digit.
  have hsame : d = c := by rw [← ofNat_toUInt8 hd, hbyte, hback]
  rw [hsame, hc] at hd
  cases hd

theorem colon_notMem_decimal (n : Nat) : colon ∉ decimal n :=
  notMem_decimal (show ':'.isDigit = false by decide) rfl n

theorem dash_notMem_decimal (n : Nat) : dash ∉ decimal n :=
  notMem_decimal (show '-'.isDigit = false by decide) rfl n

theorem decimal_inj {m n : Nat} (h : decimal m = decimal n) : m = n := by
  have hback : ∀ k, (decimal k).map (fun b => Char.ofNat b.toNat) = Nat.toDigits 10 k := by
    intro k
    rw [decimal, map_map]
    refine (map_congr_left ?_).trans (map_id _)
    intro c hc
    exact ofNat_toUInt8 (Nat.isDigit_of_mem_toDigits (by decide) (by decide) hc)
  have hdigits : Nat.toDigits 10 m = Nat.toDigits 10 n := by rw [← hback m, ← hback n, h]
  rw [← Nat.ofDigitChars_ten_toDigits (n := m), hdigits, Nat.ofDigitChars_ten_toDigits]

theorem append_cons_inj_of_notMem_right {α : Type} {x₁ x₂ z₁ z₂ : List α} {a : α}
    (h₁ : a ∉ z₁) (h₂ : a ∉ z₂) (h : x₁ ++ a :: z₁ = x₂ ++ a :: z₂) : x₁ = x₂ ∧ z₁ = z₂ := by
  rcases append_eq_append_iff.mp h with ⟨t, hx, hz⟩ | ⟨t, hx, hz⟩
  · cases t with
    | nil => simp_all
    | cons b t =>
      have hz' : z₁ = t ++ a :: z₂ := by simpa using congrArg tail hz
      exact absurd (by simp [hz']) h₁
  · cases t with
    | nil => simp_all
    | cons b t =>
      have hz' : z₂ = t ++ a :: z₁ := by simpa using congrArg tail hz
      exact absurd (by simp [hz']) h₂

end Cinder
