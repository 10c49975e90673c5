/-
Lists that are spelled by links: cells that name the next one, and a value `nil` behind
the last.

A doubly linked list is two chains over one list, the second one over the list backwards; a free
list is a chain by itself. So every operation on links is an operation on one chain.
-/
import Mathlib.Data.List.Nodup

namespace LinkedChain

open List Function

variable {ι : Type} {nil : ι} {next next' : ι → ι} {head i : ι} {l l₁ l₂ : List ι}

/-- Following `next` from `head` passes the cells of the list and ends at `nil`. -/
def Chain (nil : ι) (next : ι → ι) : ι → List ι → Prop
  | head, [] => head = nil
  | head, i :: l => head = i ∧ i ≠ nil ∧ Chain nil next (next i) l

theorem Chain.congr (h : Chain nil next head l) (hsame : ∀ i ∈ l, next' i = next i) :
    Chain nil next' head l := by
  induction l generalizing head with
  | nil => exact h
  | cons i l ih =>
    obtain ⟨hhead, hne, hrest⟩ := h
    refine ⟨hhead, hne, ?_⟩
    rw [hsame i mem_cons_self]
    exact ih hrest fun j hj => hsame j (mem_cons_of_mem i hj)

theorem Chain.ne_nil (h : Chain nil next head l) (hi : i ∈ l) : i ≠ nil := by
  induction l generalizing head with
  | nil => cases hi
  | cons j l ih =>
    rcases mem_cons.mp hi with rfl | hi
    · exact h.2.1
    · exact ih h.2.2 hi

theorem Chain.rest (h : Chain nil next head (l₁ ++ i :: l₂)) : Chain nil next (next i) l₂ := by
  induction l₁ generalizing head with
  | nil => exact h.2.2
  | cons j l₁ ih => exact ih h.2.2

theorem Chain.head_eq (h : Chain nil next head l) : head = l.head?.getD nil := by
  cases l with
  | nil => exact h
  | cons i l => exact h.1

variable [DecidableEq ι]

theorem Chain.update_off (h : Chain nil next head l) (hi : i ∉ l) (m : ι) :
    Chain nil (update next i m) head l := by
  refine h.congr fun j hj => update_of_ne ?_ _ _
  rintro rfl
  exact hi hj

theorem Chain.cons (h : Chain nil next head l) (hne : i ≠ nil) (hi : i ∉ l) :
    Chain nil (update next i head) i (i :: l) := by
  refine ⟨rfl, hne, ?_⟩
  rw [update_self]
  exact h.update_off hi head

theorem Chain.update {p m : ι} (h : Chain nil next head (l₁ ++ p :: l)) (hm : Chain nil next m l₂)
    (hnodup : (l₁ ++ p :: l₂).Nodup) : Chain nil (update next p m) head (l₁ ++ p :: l₂) := by
  induction l₁ generalizing head with
  | nil =>
    refine ⟨h.1, h.2.1, ?_⟩
    rw [update_self]
    exact hm.update_off (nodup_cons.mp hnodup).1 m
  | cons j l₁ ih =>
    rw [cons_append, nodup_cons] at hnodup
    have hne : j ≠ p := fun e => hnodup.1 (e ▸ mem_append_right l₁ mem_cons_self)
    refine ⟨h.1, h.2.1, ?_⟩
    rw [update_of_ne hne]
    exact ih h.2.2 hnodup.2

/-- The link into a cell is changed to `m`: in the cell before, or in the head when no cell is
before. -/
def relink (nil : ι) (before m : ι) (head : ι) (next : ι → ι) : ι × (ι → ι) :=
  if before ≠ nil then (head, update next before m) else (m, next)

theorem Chain.relink {m : ι} (h : Chain nil next head (l₁ ++ l)) (hm : Chain nil next m l₂)
    (hnodup : (l₁ ++ l₂).Nodup) :
    Chain nil (relink nil (l₁.getLast?.getD nil) m head next).2
      (relink nil (l₁.getLast?.getD nil) m head next).1 (l₁ ++ l₂) := by
  rcases eq_nil_or_concat' l₁ with rfl | ⟨l₀, p, rfl⟩
  · rw [LinkedChain.relink, if_neg (by simp)]
    exact hm
  · have hp : p ≠ nil := h.ne_nil (by simp)
    rw [append_assoc, singleton_append] at h hnodup ⊢
    rw [LinkedChain.relink, getLast?_concat, Option.getD_some, if_pos hp]
    exact h.update hm hnodup

theorem Chain.without (h : Chain nil next head (l₁ ++ i :: l₂)) (hnodup : (l₁ ++ i :: l₂).Nodup)
    (m : ι) :
    Chain nil
      (Function.update (LinkedChain.relink nil (l₁.getLast?.getD nil) (next i) head next).2 i m)
      (LinkedChain.relink nil (l₁.getLast?.getD nil) (next i) head next).1 (l₁ ++ l₂) := by
  obtain ⟨hout, hrest⟩ := nodup_cons.mp (nodup_middle.mp hnodup)
  exact (h.relink h.rest hrest).update_off hout m

end LinkedChain
