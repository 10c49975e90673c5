/-
A queue with one element per place, a bound on the number of elements and a bound on
their total cost.

A newcomer takes the place of the element that has its place already, unless that one is newer;
then the oldest elements make room for it, and it goes to the end. `Rules` says what a queue
observes of its elements, and nothing else of them matters (`push_map`).
-/
import Mathlib.Algebra.Order.BigOperators.Group.List
import Mathlib.Algebra.Order.Ring.Nat
import Mathlib.Data.List.Induction
import Mathlib.Data.List.Nodup

namespace BoundedFifo

open List Function

/-- What a queue observes of its elements, and its two bounds. -/
structure Rules (α κ : Type) where
  place : α → κ
  /-- The first may take the place of the second. -/
  newer : α → α → Bool
  cost : α → Nat
  capacity : Nat
  budget : Nat

variable {α β κ : Type} (R : Rules α κ)

def load (l : List α) : Nat := (l.map R.cost).sum

/-- Drop the oldest until an element of this cost fits. -/
def room (incoming : Nat) : List α → List α
  | [] => []
  | a :: l =>
    if (a :: l).length = R.capacity ∨ R.budget < load R (a :: l) + incoming then room incoming l
    else a :: l

def push [DecidableEq κ] (l : List α) (a : α) : List α :=
  if R.budget < R.cost a then l
  else
    match l.find? fun b => R.place b = R.place a with
    | some b =>
      if R.newer a b then room R (R.cost a) (l.eraseP fun b => R.place b = R.place a) ++ [a] else l
    | none => room R (R.cost a) l ++ [a]

/-! ## 1. What the rules do not observe -/

section Map

variable {R} {R' : Rules β κ} {f : α → β}

/-- `f` keeps what the rules observe. -/
structure Respects (R : Rules α κ) (R' : Rules β κ) (f : α → β) : Prop where
  place : ∀ a, R'.place (f a) = R.place a
  newer : ∀ a b, R'.newer (f a) (f b) = R.newer a b
  cost : ∀ a, R'.cost (f a) = R.cost a
  capacity : R'.capacity = R.capacity
  budget : R'.budget = R.budget

section

variable (h : Respects R R' f)

include h

theorem load_map (l : List α) : load R' (l.map f) = load R l := by
  rw [load, load, map_map]
  exact congrArg List.sum (map_congr_left fun a _ => h.cost a)

theorem room_map (incoming : Nat) (l : List α) :
    (room R incoming l).map f = room R' incoming (l.map f) := by
  induction l with
  | nil => rfl
  | cons a l ih =>
    have hload := load_map h (a :: l)
    rw [map_cons] at hload
    simp only [map_cons, room, length_cons, length_map, h.capacity, h.budget, hload]
    split
    · exact ih
    · rfl

theorem push_map [DecidableEq κ] (l : List α) (a : α) :
    (push R l a).map f = push R' (l.map f) (f a) := by
  have hplace : (fun b => decide (R'.place b = R'.place (f a))) ∘ f =
      fun b => decide (R.place b = R.place a) := by
    funext b
    simp only [comp_apply, h.place]
  simp only [push, h.budget, h.cost, List.find?_map, eraseP_map, hplace]
  split
  · rfl
  · cases l.find? fun b => decide (R.place b = R.place a) with
    | none => simp only [Option.map_none, map_append, map_singleton, room_map h]
    | some b =>
      simp only [Option.map_some, h.newer]
      split
      · simp only [map_append, map_singleton, room_map h]
      · rfl

theorem foldl_push_map [DecidableEq κ] (l acc : List α) :
    (l.foldl (push R) acc).map f = (l.map f).foldl (push R') (acc.map f) := by
  induction l generalizing acc with
  | nil => rfl
  | cons a l ih => rw [foldl_cons, ih, push_map h, map_cons, foldl_cons]

end

end Map

/-! ## 2. The bounds -/

/-- **One element per place, within both bounds.** -/
structure Bounded (l : List α) : Prop where
  places : (l.map R.place).Nodup
  length : l.length ≤ R.capacity
  load : load R l ≤ R.budget

variable {R}

theorem load_append (l l' : List α) : load R (l ++ l') = load R l + load R l' := by
  simp [load]

theorem load_singleton (a : α) : load R [a] = R.cost a := by
  simp [load]

variable {l : List α}

theorem Bounded.sublist {l' : List α} (h : Bounded R l') (hsub : l.Sublist l') : Bounded R l where
  places := h.places.sublist (hsub.map R.place)
  length := hsub.length_le.trans h.length
  load := ((hsub.map R.cost).sum_le_sum fun _ _ => Nat.zero_le _).trans h.load

theorem room_sublist (incoming : Nat) (l : List α) : (room R incoming l).Sublist l := by
  induction l with
  | nil => exact List.Sublist.refl _
  | cons a l ih =>
    rw [room]
    split
    · exact ih.cons a
    · exact List.Sublist.refl _

theorem exists_room_eq_drop (incoming : Nat) (l : List α) : ∃ k, room R incoming l = l.drop k := by
  induction l with
  | nil => exact ⟨0, rfl⟩
  | cons a l ih =>
    rw [room]
    split
    · obtain ⟨k, hk⟩ := ih
      exact ⟨k + 1, hk⟩
    · exact ⟨0, rfl⟩

theorem room_fits {incoming : Nat} (hcap : 0 < R.capacity) (hcost : incoming ≤ R.budget)
    (hlen : l.length ≤ R.capacity) :
    (room R incoming l).length < R.capacity ∧ load R (room R incoming l) + incoming ≤ R.budget := by
  induction l with
  | nil => exact ⟨hcap, by simpa [room, load] using hcost⟩
  | cons a l ih =>
    rw [room]
    split
    · exact ih ((Nat.le_succ _).trans hlen)
    · rename_i hfits
      rw [not_or] at hfits
      exact ⟨lt_of_le_of_ne hlen hfits.1, not_lt.mp hfits.2⟩

theorem room_of_fits {incoming : Nat} (hlen : l.length < R.capacity)
    (hload : load R l + incoming ≤ R.budget) : room R incoming l = l := by
  cases l with
  | nil => rfl
  | cons a l => rw [room, if_neg (not_or.mpr ⟨hlen.ne, not_lt.mpr hload⟩)]

theorem bounded_nil : Bounded R ([] : List α) := ⟨nodup_nil, Nat.zero_le _, Nat.zero_le _⟩

theorem Bounded.append_room (hcap : 0 < R.capacity) (h : Bounded R l) {a : α}
    (hcost : R.cost a ≤ R.budget) (hfree : ∀ b ∈ l, R.place b ≠ R.place a) :
    Bounded R (room R (R.cost a) l ++ [a]) := by
  obtain ⟨hlen, hload⟩ := room_fits hcap hcost h.length
  have hsub := room_sublist (R := R) (R.cost a) l
  refine ⟨?_, ?_, ?_⟩
  · rw [map_append, map_singleton, nodup_append]
    refine ⟨(h.sublist hsub).places, nodup_singleton _, ?_⟩
    intro x hx y hy
    obtain ⟨b, hb, rfl⟩ := mem_map.mp hx
    rw [mem_singleton.mp hy]
    exact hfree b (hsub.subset hb)
  · rw [length_append, length_singleton]
    exact hlen
  · rw [load_append, load_singleton]
    exact hload

section Push

variable [DecidableEq κ]

variable {l : List α} {a : α}

theorem place_ne_of_mem_eraseP (h : (l.map R.place).Nodup) {k : κ} {b : α}
    (hb : b ∈ l.eraseP fun b => R.place b = k) : R.place b ≠ k := by
  induction l with
  | nil => cases hb
  | cons c l ih =>
    rw [map_cons, nodup_cons] at h
    by_cases hc : R.place c = k
    · rw [eraseP_cons_of_pos (by simpa using hc)] at hb
      rintro rfl
      exact h.1 (hc ▸ mem_map_of_mem hb)
    · rw [eraseP_cons_of_neg (by simpa using hc)] at hb
      rcases mem_cons.mp hb with rfl | hb
      · exact hc
      · exact ih h.2 hb

theorem Bounded.push (hcap : 0 < R.capacity) (h : Bounded R l) (a : α) :
    Bounded R (push R l a) := by
  unfold BoundedFifo.push
  split
  · exact h
  · rename_i hcost
    rw [not_lt] at hcost
    split
    · split
      · refine (h.sublist eraseP_sublist).append_room hcap hcost fun b hb => ?_
        exact place_ne_of_mem_eraseP h.places hb
      · exact h
    · rename_i hnone
      refine h.append_room hcap hcost fun b hb => ?_
      simpa using List.find?_eq_none.mp hnone b hb

theorem find?_push (h : (l.map R.place).Nodup) (hcost : R.cost a ≤ R.budget) :
    ((push R l a).find? fun b => R.place b = R.place a) =
      match l.find? fun b => R.place b = R.place a with
      | some b => if R.newer a b then some a else some b
      | none => some a := by
  have hlast : ∀ l' : List α, (∀ b ∈ l', R.place b ≠ R.place a) →
      ((room R (R.cost a) l' ++ [a]).find? fun b => R.place b = R.place a) = some a := by
    intro l' hfree
    have hnone : ((room R (R.cost a) l').find? fun b => R.place b = R.place a) = none :=
      List.find?_eq_none.mpr fun b hb => by
        simpa using hfree b ((room_sublist (R.cost a) l').subset hb)
    rw [List.find?_append, hnone, Option.none_or]
    exact List.find?_cons_of_pos (by simp)
  unfold push
  rw [if_neg (not_lt.mpr hcost)]
  cases hfind : l.find? fun b => decide (R.place b = R.place a) with
  | none =>
    refine hlast l fun b hb => ?_
    simpa using List.find?_eq_none.mp hfind b hb
  | some b =>
    dsimp only
    split
    · exact hlast _ fun c hc => place_ne_of_mem_eraseP h hc
    · exact hfind

theorem mem_of_mem_push {b : α} (h : b ∈ push R l a) : b ∈ l ∨ b = a := by
  have happend : ∀ l' : List α, l'.Sublist l → b ∈ room R (R.cost a) l' ++ [a] → b ∈ l ∨ b = a := by
    intro l' hsub hb
    rcases mem_append.mp hb with hb | hb
    · exact .inl (hsub.subset ((room_sublist _ l').subset hb))
    · exact .inr (mem_singleton.mp hb)
  unfold push at h
  split at h
  · exact .inl h
  · split at h
    · split at h
      · exact happend _ eraseP_sublist h
      · exact .inl h
    · exact happend _ (List.Sublist.refl l) h

/-- The queue turns a newcomer away: it is too large, or its place has a newer element. -/
def TurnsAway (R : Rules α κ) (l : List α) (a : α) : Prop :=
  R.budget < R.cost a ∨ ∃ b ∈ l, R.place b = R.place a ∧ R.newer a b = false

theorem push_of_turnsAway (h : (l.map R.place).Nodup) (ha : TurnsAway R l a) : push R l a = l := by
  unfold push
  split
  · rfl
  · rename_i hcost
    obtain ⟨b, hb, hplace, hnewer⟩ := ha.resolve_left hcost
    cases hfind : l.find? fun c => decide (R.place c = R.place a) with
    | none =>
      have hne := List.find?_eq_none.mp hfind b hb
      exact absurd (decide_eq_true hplace) hne
    | some c =>
      have hc : R.place c = R.place a := by simpa using List.find?_some hfind
      have hcb : c = b := inj_on_of_nodup_map h (mem_of_find?_eq_some hfind) hb
        (hc.trans hplace.symm)
      dsimp only
      rw [hcb, hnewer]
      rfl

omit [DecidableEq κ] in
theorem of_bounded_concat (h : Bounded R (l ++ [a])) : (∀ b ∈ l, R.place b ≠ R.place a) ∧
    l.length < R.capacity ∧ load R l + R.cost a ≤ R.budget := by
  obtain ⟨hplaces, hlen, hload⟩ := h
  rw [map_append, map_singleton, nodup_append] at hplaces
  rw [length_append, length_singleton] at hlen
  rw [load_append, load_singleton] at hload
  exact ⟨fun b hb => hplaces.2.2 _ (mem_map_of_mem hb) _ mem_cons_self, hlen, hload⟩

theorem push_last (h : Bounded R (l ++ [a])) (hnewer : R.newer a a = true) :
    push R (l ++ [a]) a = l ++ [a] := by
  obtain ⟨hplaces, hlen, hload⟩ := of_bounded_concat h
  have hfree : ∀ b ∈ l, ¬ decide (R.place b = R.place a) = true := by simpa using hplaces
  have hfind : ((l ++ [a]).find? fun b => decide (R.place b = R.place a)) = some a := by
    rw [List.find?_append, List.find?_eq_none.mpr hfree, Option.none_or]
    exact List.find?_cons_of_pos (by simp)
  have herase : ((l ++ [a]).eraseP fun b => decide (R.place b = R.place a)) = l := by
    rw [eraseP_append_right _ hfree, eraseP_cons_of_pos (by simp), append_nil]
  unfold push
  rw [if_neg (by omega), hfind]
  dsimp only
  rw [hnewer, if_pos rfl, herase, room_of_fits hlen hload]

/-! ## 3. A queue is its own log -/

theorem push_of_free (hfree : ∀ b ∈ l, R.place b ≠ R.place a) (hlen : l.length < R.capacity)
    (hload : load R l + R.cost a ≤ R.budget) : push R l a = l ++ [a] := by
  have hcost : ¬ R.budget < R.cost a := not_lt.mpr ((Nat.le_add_left _ _).trans hload)
  have hnone : (l.find? fun b => R.place b = R.place a) = none :=
    List.find?_eq_none.mpr fun b hb => by simpa using hfree b hb
  rw [push, if_neg hcost, hnone]
  rw [room_of_fits hlen hload]

theorem foldl_push_of_bounded (h : Bounded R l) : l.foldl (push R) [] = l := by
  induction l using reverseRecOn with
  | nil => rfl
  | append_singleton l a ih =>
    obtain ⟨hfree, hlen, hload⟩ := of_bounded_concat h
    rw [foldl_append, ih (h.sublist (sublist_append_left l [a])), foldl_cons, foldl_nil]
    exact push_of_free hfree hlen hload

/-! ## 4. What a push decides, and what it keeps -/

/-- A newcomer is taken in: it fits the budget, and its place has nobody newer. -/
def accepts (R : Rules α κ) (l : List α) (a : α) : Bool :=
  decide (R.cost a ≤ R.budget) &&
    (l.find? fun b => R.place b = R.place a).all fun b => R.newer a b

def kept (R : Rules α κ) (l : List α) (a : α) : List α :=
  room R (R.cost a) (l.eraseP fun b => R.place b = R.place a)

theorem push_eq (l : List α) (a : α) :
    push R l a = if accepts R l a = true then kept R l a ++ [a] else l := by
  unfold push accepts kept
  by_cases hcost : R.budget < R.cost a
  · rw [if_pos hcost, decide_eq_false (not_le.mpr hcost), Bool.false_and, if_neg (by decide)]
  · rw [if_neg hcost, decide_eq_true (not_lt.mp hcost), Bool.true_and]
    cases hfind : l.find? fun b => decide (R.place b = R.place a) with
    | none => rw [Option.all_none, if_pos rfl, eraseP_of_forall_not (List.find?_eq_none.mp hfind)]
    | some b => rfl

theorem accepts_iff (h : (l.map R.place).Nodup) :
    accepts R l a = true ↔
      R.cost a ≤ R.budget ∧ ∀ b ∈ l, R.place b = R.place a → R.newer a b = true := by
  rw [accepts, Bool.and_eq_true, decide_eq_true_eq]
  refine and_congr_right fun _ => ?_
  cases hfind : l.find? fun b => decide (R.place b = R.place a) with
  | none =>
    refine ⟨fun _ b hb hplace => ?_, fun _ => rfl⟩
    exact absurd (decide_eq_true hplace) (List.find?_eq_none.mp hfind b hb)
  | some c =>
    have hc : R.place c = R.place a := by simpa using List.find?_some hfind
    have hmem := mem_of_find?_eq_some hfind
    rw [Option.all_some]
    refine ⟨fun hnewer b hb hplace => ?_, fun hall => hall c hmem hc⟩
    rw [inj_on_of_nodup_map h hb hmem (hplace.trans hc.symm)]
    exact hnewer

theorem eraseP_place_eq_filter (h : (l.map R.place).Nodup) (k : κ) :
    (l.eraseP fun b => R.place b = k) = l.filter fun b => R.place b ≠ k := by
  induction l with
  | nil => rfl
  | cons b l ih =>
    rw [map_cons, nodup_cons] at h
    by_cases hb : R.place b = k
    · have hall : ∀ c ∈ l, decide (R.place c ≠ k) = true := by
        intro c hc
        exact decide_eq_true fun hck => h.1 ((hb.trans hck.symm) ▸ mem_map_of_mem hc)
      rw [eraseP_cons_of_pos (by simpa using hb), filter_cons_of_neg (by simpa using hb),
        filter_eq_self.mpr hall]
    · rw [eraseP_cons_of_neg (by simpa using hb), filter_cons_of_pos (by simpa using hb), ih h.2]

theorem exists_kept_eq (h : (l.map R.place).Nodup) (a : α) :
    ∃ k, kept R l a = (l.filter fun b => R.place b ≠ R.place a).drop k := by
  rw [← eraseP_place_eq_filter h]
  exact exists_room_eq_drop _ _

theorem kept_sublist (l : List α) (a : α) : (kept R l a).Sublist l :=
  (room_sublist _ _).trans eraseP_sublist

theorem kept_fits (hcap : 0 < R.capacity) (hlen : l.length ≤ R.capacity)
    (hcost : R.cost a ≤ R.budget) :
    (kept R l a ++ [a]).length ≤ R.capacity ∧ load R (kept R l a ++ [a]) ≤ R.budget := by
  have hshort : (l.eraseP fun b => R.place b = R.place a).length ≤ R.capacity :=
    eraseP_sublist.length_le.trans hlen
  obtain ⟨hfew, hload⟩ := room_fits hcap hcost hshort
  refine ⟨?_, ?_⟩
  · rw [length_append, length_singleton]
    exact hfew
  · rw [load_append, load_singleton]
    exact hload

theorem places_kept (h : (l.map R.place).Nodup) (a : α) :
    ((kept R l a ++ [a]).map R.place).Nodup := by
  have hfree : ∀ b ∈ kept R l a, R.place b ≠ R.place a := fun b hb =>
    place_ne_of_mem_eraseP h ((room_sublist _ _).subset hb)
  rw [map_append, map_singleton, nodup_append]
  refine ⟨h.sublist ((kept_sublist l a).map R.place), nodup_singleton _, ?_⟩
  intro x hx y hy
  obtain ⟨b, hb, rfl⟩ := mem_map.mp hx
  rw [mem_singleton.mp hy]
  exact hfree b hb

section Map

variable {R' : Rules β κ} {f : α → β}

theorem find?_place_map (h : Respects R R' f) (l : List α) (a : α) :
    ((l.map f).find? fun b => R'.place b = R'.place (f a)) =
      (l.find? fun b => R.place b = R.place a).map f := by
  rw [List.find?_map]
  refine congrArg (Option.map f) (congrArg (List.find? · l) (funext fun b => ?_))
  simp only [comp_apply, h.place]

theorem accepts_map (h : Respects R R' f) (l : List α) (a : α) :
    accepts R' (l.map f) (f a) = accepts R l a := by
  rw [accepts, accepts, find?_place_map h, Option.all_map, h.cost, h.budget]
  simp only [h.newer]

theorem kept_map (h : Respects R R' f) (l : List α) (a : α) :
    (kept R l a).map f = kept R' (l.map f) (f a) := by
  rw [kept, kept, room_map h, h.cost, eraseP_map]
  simp only [comp_def, h.place]

end Map

end Push

/-! ## 5. Passing over the queue -/

/-- From the front on, until so many are collected: what is `gone` is taken out, the rest is
collected. What was collected, and what is left in the queue. -/
def sweep (gone : α → Bool) : Nat → List α → List α × List α
  | _, [] => ([], [])
  | 0, a :: l => ([], a :: l)
  | n + 1, a :: l =>
    if gone a then sweep gone (n + 1) l
    else (a :: (sweep gone n l).1, a :: (sweep gone n l).2)

variable (gone : α → Bool)

theorem sweep_fst (n : Nat) (l : List α) :
    (sweep gone n l).1 = (l.filter fun a => !gone a).take n := by
  induction l generalizing n with
  | nil => rw [sweep, filter_nil, take_nil]
  | cons a l ih =>
    cases n with
    | zero => rfl
    | succ n =>
      rw [sweep]
      cases hgone : gone a with
      | true => rw [if_pos rfl, ih, filter_cons_of_neg (by simp [hgone])]
      | false => rw [if_neg (by decide), ih, filter_cons_of_pos (by simp [hgone]), take_succ_cons]

theorem sweep_snd (n : Nat) (l : List α) :
    ∃ passed rest, l = passed ++ rest ∧ (sweep gone n l).1 = (passed.filter fun a => !gone a) ∧
      (sweep gone n l).2 = (passed.filter fun a => !gone a) ++ rest := by
  induction l generalizing n with
  | nil => exact ⟨[], [], rfl, rfl, rfl⟩
  | cons a l ih =>
    cases n with
    | zero => exact ⟨[], a :: l, rfl, rfl, rfl⟩
    | succ n =>
      rw [sweep]
      cases hgone : gone a with
      | true =>
        obtain ⟨passed, rest, hl, hfst, hsnd⟩ := ih (n + 1)
        refine ⟨a :: passed, rest, by rw [hl, cons_append], ?_⟩
        rw [if_pos rfl, filter_cons_of_neg (by simp [hgone])]
        exact ⟨hfst, hsnd⟩
      | false =>
        obtain ⟨passed, rest, hl, hfst, hsnd⟩ := ih n
        refine ⟨a :: passed, rest, by rw [hl, cons_append], ?_⟩
        rw [if_neg (by decide), filter_cons_of_pos (by simp [hgone]), hfst, hsnd]
        exact ⟨rfl, rfl⟩

theorem sweep_sublist (n : Nat) (l : List α) :
    (sweep gone n l).1.Sublist (sweep gone n l).2 ∧ (sweep gone n l).2.Sublist l := by
  obtain ⟨passed, rest, hl, hfst, hsnd⟩ := sweep_snd gone n l
  rw [hfst, hsnd]
  refine ⟨sublist_append_left _ _, ?_⟩
  conv_rhs => rw [hl]
  exact filter_sublist.append_right rest

theorem sweep_map {gone : β → Bool} (f : α → β) (n : Nat) (l : List α) :
    sweep gone n (l.map f) =
      ((sweep (gone ∘ f) n l).1.map f, (sweep (gone ∘ f) n l).2.map f) := by
  induction l generalizing n with
  | nil => rfl
  | cons a l ih =>
    cases n with
    | zero => rfl
    | succ n =>
      rw [map_cons, sweep, sweep, ih, ih]
      cases hgone : gone (f a) with
      | true => simp only [comp_apply, hgone, if_pos]
      | false => simp [comp_apply, hgone]


end BoundedFifo
