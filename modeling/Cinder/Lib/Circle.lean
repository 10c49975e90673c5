/-
Points with owners on a circle, kept as a list sorted by position, and the walk that
collects owners from a position on.
-/
import Mathlib.Data.List.Sort

namespace Circle

open List

variable {α β : Type}

section Sorted

variable [LE α] [Std.IsLinearOrder α]

def Sorted (points : List (α × β)) : Prop := points.Pairwise fun p q => p.1 ≤ q.1

theorem eq_of_perm {l l' : List (α × β)}
    (hpos : ∀ p ∈ l, ∀ q ∈ l, p.1 = q.1 → p = q) (h : Sorted l) (h' : Sorted l')
    (hperm : l.Perm l') : l = l' := by
  refine List.Perm.eq_of_pairwise (fun p q hp hq hpq hqp => ?_) h h' hperm
  exact hpos p hp q (hperm.mem_iff.mpr hq) (Std.le_antisymm hpq hqp)

variable [DecidableLE α]

/-- Put a point in front of the rest of one run, behind the earlier points of the other. -/
def emit (p : α × β) (rest : List (α × β) → List (α × β)) : List (α × β) → List (α × β)
  | [] => p :: rest []
  | q :: run => if p.1 ≤ q.1 then p :: rest (q :: run) else q :: emit p rest run

omit [Std.IsLinearOrder α] in
theorem emit_eq_merge {p : α × β} {rest : List (α × β) → List (α × β)} {l : List (α × β)}
    (h : ∀ run, rest run = l.merge run fun a b => decide (a.1 ≤ b.1)) (run : List (α × β)) :
    emit p rest run = (p :: l).merge run fun a b => decide (a.1 ≤ b.1) := by
  induction run with
  | nil => rw [emit, h, merge_right, merge_right]
  | cons q run ih =>
    rw [emit, cons_merge_cons, ih, h]
    simp only [decide_eq_true_eq]

theorem sorted_merge {l l' : List (α × β)} (h : Sorted l) (h' : Sorted l') :
    Sorted (l.merge l' fun a b => decide (a.1 ≤ b.1)) := by
  have htrans : ∀ a b c : α × β, decide (a.1 ≤ b.1) = true → decide (b.1 ≤ c.1) = true →
      decide (a.1 ≤ c.1) = true := fun a b c hab hbc =>
    decide_eq_true (Std.le_trans (of_decide_eq_true hab) (of_decide_eq_true hbc))
  have htotal : ∀ a b : α × β, (decide (a.1 ≤ b.1) || decide (b.1 ≤ a.1)) = true := by
    intro a b
    rw [Bool.or_eq_true, decide_eq_true_eq, decide_eq_true_eq]
    exact Std.le_total
  exact (pairwise_merge htrans htotal l l' (h.imp decide_eq_true)
    (h'.imp decide_eq_true)).imp of_decide_eq_true

theorem sorted_insertionSort (l : List (α × β)) :
    Sorted (l.insertionSort fun p q => p.1 ≤ q.1) := by
  have htotal : Std.Total fun p q : α × β => p.1 ≤ q.1 := ⟨fun _ _ => Std.le_total⟩
  have htrans : IsTrans (α × β) fun p q => p.1 ≤ q.1 := ⟨fun _ _ _ => Std.le_trans⟩
  exact pairwise_insertionSort _ l

end Sorted

/-! ## The walk -/

section Walk

variable [LE α] [DecidableLE α] [DecidableEq β]

/-- The first point at or behind `h`; behind the last one the first. -/
def start (points : List (α × β)) (h : α) : Nat :=
  let idx := points.findIdx fun p => decide (h ≤ p.1)
  if idx = points.length then 0 else idx

def owner (points : List (α × β)) (h : α) : Option β := points[start points h]?.map Prod.snd

def walk (points : List (α × β)) (start : Nat) : List (α × β) :=
  points.drop start ++ points.take start

/-- Append the owners that come up and are not there yet, up to `n`. -/
def collect (n : Nat) : List β → List β → List β
  | [], seen => seen
  | b :: rest, seen =>
    if seen.length < n then
      if b ∈ seen then collect n rest seen else collect n rest (seen ++ [b])
    else seen

def owners (n : Nat) (points : List (α × β)) (h : α) : List β :=
  collect n ((walk points (start points h)).map Prod.snd) []

variable {n : Nat} {l seen seen' : List β} {b x : β} {p : β → Bool}

/-- What comes up for the first time, in its order. -/
def fresh : List β → List β → List β
  | [], _ => []
  | b :: rest, seen => if b ∈ seen then fresh rest seen else b :: fresh rest (seen ++ [b])

theorem collect_eq (h : seen.length ≤ n) : collect n l seen = (seen ++ fresh l seen).take n := by
  induction l generalizing seen with
  | nil => rw [collect, fresh, append_nil, take_of_length_le h]
  | cons b rest ih => grind [collect, fresh]

theorem mem_fresh : b ∈ fresh l seen ↔ b ∈ l ∧ b ∉ seen := by
  induction l generalizing seen with
  | nil => simp [fresh]
  | cons a rest ih => grind [fresh]

theorem nodup_fresh : (fresh l seen).Nodup := by
  induction l generalizing seen with
  | nil => exact nodup_nil
  | cons a rest ih => grind [fresh, mem_fresh]

theorem fresh_filter (h : ∀ x, p x = true → (x ∈ seen' ↔ x ∈ seen)) :
    fresh (l.filter p) seen' = (fresh l seen).filter p := by
  induction l generalizing seen seen' with
  | nil => rfl
  | cons a rest ih => grind [fresh]

theorem filter_ne_of_notMem (h : x ∉ l) : (l.filter fun b => b ≠ x) = l :=
  filter_eq_self.mpr fun _ hb => decide_eq_true fun heq => h (heq ▸ hb)

theorem take_filter_ne (h : l.Nodup) (x : β) (n : Nat) :
    ((l.take (n + 1)).filter fun b => b ≠ x).take n = (l.filter fun b => b ≠ x).take n := by
  induction l generalizing n with
  | nil => simp
  | cons a rest ih =>
    obtain ⟨ha, hrest⟩ := nodup_cons.mp h
    rw [take_succ_cons]
    by_cases hax : a = x
    · subst hax
      rw [filter_cons_of_neg (by simp), filter_cons_of_neg (by simp), filter_ne_of_notMem ha,
        filter_ne_of_notMem fun hmem => ha (mem_of_mem_take hmem), take_take, Nat.min_self]
    · rw [filter_cons_of_pos (by simpa using hax), filter_cons_of_pos (by simpa using hax)]
      cases n with
      | zero => rfl
      | succ n => rw [take_succ_cons, take_succ_cons, ih hrest]

theorem take_insert (h : l.Nodup) (x : β) (n : Nat) :
    l.take n = (l.filter fun b => b ≠ x).take n ∨
      ∃ before behind, (l.filter fun b => b ≠ x).take n = before ++ behind ∧
        l.take n = (before ++ x :: behind).take n := by
  by_cases hx : x ∈ l
  · obtain ⟨before, behind, rfl⟩ := append_of_mem hx
    obtain ⟨hout, -⟩ := nodup_cons.mp (nodup_middle.mp h)
    have hrest : ((before ++ x :: behind).filter fun b => b ≠ x) = before ++ behind := by
      rw [filter_append, filter_cons_of_neg (by simp), ← filter_append, filter_ne_of_notMem hout]
    rw [hrest]
    refine .inr ⟨before.take n, behind.take (n - before.length), take_append, ?_⟩
    rw [take_append, take_append, take_take, Nat.min_self, length_take]
    rcases le_total before.length n with hle | hle
    · rw [Nat.min_eq_right hle]
      cases n - before.length with
      | zero => rfl
      | succ m => rw [take_succ_cons, take_succ_cons, take_take, Nat.min_eq_left (by omega)]
    · rw [Nat.min_eq_left hle, Nat.sub_eq_zero_of_le hle, Nat.sub_self]
      rfl
  · exact .inl (by rw [filter_ne_of_notMem hx])

theorem head?_filter_ne (l : List β) (x : β) :
    l.head? = some x ∨ (l.filter fun b => b ≠ x).head? = l.head? := by
  cases l with
  | nil => exact .inr rfl
  | cons a l => grind

end Walk

section Turn

variable [LE α] [Std.IsLinearOrder α] [DecidableLE α] {points : List (α × β)}

def turn (points : List (α × β)) (h : α) : List β :=
  ((points.filter fun p => h ≤ p.1) ++ points.filter fun p => ¬ h ≤ p.1).map Prod.snd

omit [Std.IsLinearOrder α] in
theorem mem_turn {h : α} {b : β} : b ∈ turn points h ↔ ∃ p ∈ points, p.2 = b := by
  unfold turn
  rw [mem_map]
  refine exists_congr fun p => and_congr_left fun _ => ?_
  rw [mem_append, mem_filter, mem_filter, ← and_or_left, decide_eq_true_eq, decide_eq_true_eq]
  exact and_iff_left (em _)

omit [Std.IsLinearOrder α] in
theorem turn_filter (keep : β → Bool) (h : α) :
    turn (points.filter fun p => keep p.2) h = (turn points h).filter keep := by
  unfold turn
  rw [filter_map, filter_append, filter_filter, filter_filter, filter_filter, filter_filter]
  simp only [Function.comp_def, Bool.and_comm]

theorem drop_findIdx (hsorted : Sorted points) (h : α) :
    points.drop (points.findIdx fun p => decide (h ≤ p.1)) = points.filter (fun p => h ≤ p.1) ∧
      points.take (points.findIdx fun p => decide (h ≤ p.1)) =
        points.filter fun p => ¬ h ≤ p.1 := by
  induction points with
  | nil => exact ⟨rfl, rfl⟩
  | cons p points ih =>
    obtain ⟨hp, hrest⟩ := pairwise_cons.mp hsorted
    rw [findIdx_cons]
    by_cases hle : h ≤ p.1
    · have hall : ∀ q ∈ points, h ≤ q.1 := fun q hq => Std.le_trans hle (hp q hq)
      rw [decide_eq_true hle, cond_true, filter_eq_self.mpr (by simpa [hle] using hall),
        filter_eq_nil_iff.mpr (by simpa [hle] using hall)]
      exact ⟨rfl, rfl⟩
    · obtain ⟨hdrop, htake⟩ := ih hrest
      simp [hle, hdrop, htake]

theorem walk_eq_turn (hsorted : Sorted points) (h : α) :
    (walk points (start points h)).map Prod.snd = turn points h := by
  obtain ⟨hdrop, htake⟩ := drop_findIdx hsorted h
  unfold walk turn start
  rw [← hdrop, ← htake]
  dsimp only
  split
  · rename_i hlast
    rw [hlast, drop_length, take_length, drop_zero, take_zero, append_nil, nil_append]
  · rfl

variable [DecidableEq β]

theorem owners_eq (hsorted : Sorted points) (n : Nat) (h : α) :
    owners n points h = (fresh (turn points h) []).take n := by
  rw [owners, walk_eq_turn hsorted, collect_eq (Nat.zero_le n), nil_append]

theorem owner_eq (hsorted : Sorted points) (h : α) :
    owner points h = (fresh (turn points h) []).head? := by
  have hhead : (fresh (turn points h) []).head? = (turn points h).head? := by
    cases turn points h with
    | _ => rfl
  rw [hhead, ← walk_eq_turn hsorted, head?_map, walk, head?_append, head?_drop, owner]
  cases hat : points[start points h]? with
  | some p => rfl
  | none =>
    have hempty : points = [] := by
      have hle := getElem?_eq_none_iff.mp hat
      unfold start at hle
      dsimp only at hle
      split at hle
      · exact eq_nil_of_length_eq_zero (Nat.le_zero.mp hle)
      · have hbound : points.findIdx (fun p => decide (h ≤ p.1)) ≤ points.length :=
          findIdx_le_length
        omega
    rw [hempty]
    rfl

end Turn

end Circle
