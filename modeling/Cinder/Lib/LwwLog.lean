/-
Replaying a log of last-writer-wins writes and unconditional removes onto a map.

A register holds at most one element. A write `some e` replaces what the register holds unless
that is strictly newer; a remove `none` empties it. Two elements may share a stamp.

What does a log do that is replayed onto a map which already contains some of its effects? If the
operations were ACCEPTED one after the other when they were issued (no write was stale then),
replaying them onto ANY register leaves it alone or brings it to where the operations brought the
original (`fold_eq_or`). Everything else here is a consequence.
-/
import Mathlib.Order.Lattice
import Mathlib.Tactic.Common

namespace LwwLog

open List

variable {κ ε S : Type} [DecidableEq κ] [LinearOrder S] (stamp : ε → S)

/-! ## 1. One register -/

/-- One operation on a register: a write that loses against a strictly newer element, or an
unconditional remove. -/
def write (cur : Option ε) : Option ε → Option ε
  | none => none
  | some e =>
    match cur with
    | none => some e
    | some c => if stamp e < stamp c then some c else some e

def fold (cur : Option ε) (ops : List (Option ε)) : Option ε := ops.foldl (write stamp) cur

/-- The operations were accepted in this order, starting from `cur`: no write was strictly
older than what it met. -/
def Accepted : Option ε → List (Option ε) → Prop
  | _, [] => True
  | _, none :: ops => Accepted none ops
  | cur, some e :: ops => (∀ c, cur = some c → stamp c ≤ stamp e) ∧ Accepted (some e) ops

@[simp] theorem write_none (cur : Option ε) : write stamp cur none = none := rfl

@[simp] theorem write_none_left (op : Option ε) : write stamp none op = op := by
  cases op <;> rfl

variable {cur x : Option ε} {ops before : List (Option ε)} {k : κ}

theorem write_of_le {e : ε} (h : ∀ c, cur = some c → stamp c ≤ stamp e) :
    write stamp cur (some e) = some e := by
  cases cur with
  | none => rfl
  | some c => simp [write, not_lt.mpr (h c rfl)]

theorem write_some_cases (cur : Option ε) (e : ε) :
    (∀ c, cur = some c → stamp c ≤ stamp e) ∨
      ∃ c, cur = some c ∧ stamp e < stamp c ∧ write stamp cur (some e) = cur := by
  cases cur with
  | none => exact .inl nofun
  | some c =>
    rcases le_or_gt (stamp c) (stamp e) with h | h
    · refine .inl fun c' hc' => ?_
      cases hc'
      exact h
    · exact .inr ⟨c, rfl, h, by simp [write, h]⟩

@[simp] theorem fold_nil (cur : Option ε) : fold stamp cur [] = cur := rfl

@[simp] theorem fold_cons (cur op : Option ε) (ops : List (Option ε)) :
    fold stamp cur (op :: ops) = fold stamp (write stamp cur op) ops := rfl

theorem fold_append (cur : Option ε) (ops ops' : List (Option ε)) :
    fold stamp cur (ops ++ ops') = fold stamp (fold stamp cur ops) ops' := foldl_append

theorem accepted_append {ops' : List (Option ε)} :
    Accepted stamp cur (ops ++ ops') ↔
      Accepted stamp cur ops ∧ Accepted stamp (fold stamp cur ops) ops' := by
  induction ops generalizing cur with
  | nil => simp [Accepted]
  | cons op ops ih =>
    cases op with
    | none => simp [Accepted, ih]
    | some e =>
      simp only [cons_append, Accepted, ih, fold_cons]
      constructor
      · rintro ⟨h, h1, h2⟩
        exact ⟨⟨h, h1⟩, by rwa [write_of_le stamp h]⟩
      · rintro ⟨⟨h, h1⟩, h2⟩
        exact ⟨h, h1, by rwa [write_of_le stamp h] at h2⟩

theorem fold_eq_or (h : Accepted stamp x ops) (y : Option ε) :
    fold stamp y ops = y ∨ fold stamp y ops = fold stamp x ops := by
  induction ops generalizing x with
  | nil => exact .inl rfl
  | cons op ops ih =>
    cases op with
    | none => exact .inr rfl
    | some e =>
      obtain ⟨hle, hrest⟩ := h
      rw [fold_cons, fold_cons, write_of_le stamp hle]
      rcases write_some_cases stamp y e with hy | ⟨c, -, -, hy⟩
      · exact .inr (by rw [write_of_le stamp hy])
      · rw [hy]
        exact ih hrest

theorem fold_again (h : Accepted stamp cur (before ++ ops)) :
    fold stamp (fold stamp cur (before ++ ops)) ops = fold stamp cur (before ++ ops) := by
  have hops := ((accepted_append stamp).mp h).2
  rw [fold_append] at *
  rcases fold_eq_or stamp hops (fold stamp (fold stamp cur before) ops) with h' | h' <;> exact h'

theorem fold_catchUp {rest : List (Option ε)} (h : Accepted stamp cur (before ++ ops ++ rest)) :
    fold stamp (fold stamp cur (before ++ ops)) (ops ++ rest) =
      fold stamp cur (before ++ ops ++ rest) := by
  rw [fold_append, fold_again stamp ((accepted_append stamp).mp h).1, ← fold_append]

theorem fold_ahead {rest : List (Option ε)} (h : Accepted stamp cur (before ++ ops ++ rest)) :
    fold stamp (fold stamp cur (before ++ ops ++ rest)) ops =
        fold stamp cur (before ++ ops ++ rest) ∨
      fold stamp (fold stamp cur (before ++ ops ++ rest)) ops = fold stamp cur (before ++ ops) := by
  have hops := ((accepted_append stamp).mp ((accepted_append stamp).mp h).1).2
  rw [fold_append stamp cur before ops]
  exact fold_eq_or stamp hops _

theorem fold_of_none_mem (h : none ∈ ops) (x y : Option ε) :
    fold stamp x ops = fold stamp y ops := by
  induction ops generalizing x y with
  | nil => cases h
  | cons op ops ih =>
    cases op with
    | none => rfl
    | some e =>
      rw [fold_cons, fold_cons]
      exact ih ((mem_cons.mp h).resolve_left nofun) _ _

/-- `y` holds something at least as new, or `x` holds nothing. -/
def Below (x y : Option ε) : Prop := ∀ a, x = some a → ∃ b, y = some b ∧ stamp a ≤ stamp b

theorem below_fold (x : Option ε) (hnone : none ∉ ops) : Below stamp x (fold stamp x ops) := by
  induction ops generalizing x with
  | nil => exact fun a ha => ⟨a, ha, le_refl _⟩
  | cons op ops ih =>
    rw [mem_cons, not_or] at hnone
    cases op with
    | none => exact absurd rfl hnone.1
    | some e =>
      intro a ha
      rw [fold_cons]
      rcases write_some_cases stamp x e with htaken | ⟨c, hc, -, hkept⟩
      · obtain ⟨b, hb, heb⟩ := ih (some e) hnone.2 e rfl
        rw [write_of_le stamp htaken]
        exact ⟨b, hb, le_trans (htaken a ha) heb⟩
      · rw [hkept]
        exact ih x hnone.2 a ha

theorem fold_of_below {y : Option ε} (h : Below stamp x y) (hnone : none ∉ ops) :
    fold stamp y ops = y ∨ fold stamp y ops = fold stamp x ops := by
  induction ops generalizing x with
  | nil => exact .inl rfl
  | cons op ops ih =>
    rw [mem_cons, not_or] at hnone
    cases op with
    | none => exact absurd rfl hnone.1
    | some e =>
      rw [fold_cons, fold_cons]
      rcases write_some_cases stamp y e with hy | ⟨c, hc, hlt, hy⟩
      · -- taken by `y`, hence by `x`
        refine .inr ?_
        rw [write_of_le stamp hy, write_of_le stamp]
        intro a ha
        obtain ⟨b, hb, hab⟩ := h a ha
        exact le_trans hab (hy b hb)
      · rw [hy]
        refine ih ?_ hnone.2
        intro a ha
        rcases write_some_cases stamp x e with hx | ⟨c', -, -, hx⟩
        · rw [write_of_le stamp hx] at ha
          cases ha
          exact ⟨c, hc, le_of_lt hlt⟩
        · rw [hx] at ha
          exact h a ha

theorem fold_twice (x : Option ε) (ops : List (Option ε)) :
    fold stamp (fold stamp x ops) ops = fold stamp x ops := by
  by_cases hnone : none ∈ ops
  · exact fold_of_none_mem stamp hnone _ _
  · rcases fold_of_below stamp (below_fold stamp x hnone) hnone with h | h <;> exact h

theorem fold_newest (hnone : none ∉ ops) {r : ε} (h : fold stamp cur ops = some r) :
    (cur = some r ∨ some r ∈ ops) ∧ (∀ c, cur = some c → stamp c ≤ stamp r) ∧
      ∀ e, some e ∈ ops → stamp e ≤ stamp r := by
  induction ops generalizing cur with
  | nil =>
    refine ⟨.inl h, fun c hc => ?_, nofun⟩
    rw [fold_nil, hc] at h
    cases h
    exact le_refl _
  | cons op ops ih =>
    rw [mem_cons, not_or] at hnone
    cases op with
    | none => exact absurd rfl hnone.1
    | some e =>
      rw [fold_cons] at h
      obtain ⟨hmem, hcur, hops⟩ := ih hnone.2 h
      rcases write_some_cases stamp cur e with htaken | ⟨c, hc, hlt, hkept⟩
      · rw [write_of_le stamp htaken] at hmem hcur
        have he := hcur e rfl
        refine ⟨.inr ?_, fun c hc => le_trans (htaken c hc) he, fun e' he' => ?_⟩
        · rcases hmem with hr | hr
          · exact hr ▸ mem_cons_self
          · exact mem_cons_of_mem _ hr
        · rcases mem_cons.mp he' with heq | he'
          · cases heq
            exact he
          · exact hops e' he'
      · rw [hkept] at hmem hcur
        refine ⟨hmem.imp id (mem_cons_of_mem _), hcur, fun e' he' => ?_⟩
        rcases mem_cons.mp he' with heq | he'
        · cases heq
          exact le_trans (le_of_lt hlt) (hcur c hc)
        · exact hops e' he'

theorem fold_over_stale {p q r stale : List (Option ε)} (h : Accepted stamp x (p ++ q ++ r))
    (habs : fold stamp (fold stamp x p) stale = fold stamp x p) :
    fold stamp (fold stamp (fold stamp x (p ++ q)) stale) (p ++ q ++ r) =
      fold stamp x (p ++ q ++ r) := by
  by_cases hq : none ∈ q
  · exact fold_of_none_mem stamp (mem_append_left _ (mem_append_right _ hq)) _ _
  have hback : fold stamp (fold stamp x (p ++ q)) stale = fold stamp x (p ++ q) ∨
      fold stamp (fold stamp x (p ++ q)) stale = fold stamp x p := by
    by_cases hs : none ∈ stale
    · exact .inr ((fold_of_none_mem stamp hs _ _).trans habs)
    · rw [fold_append stamp x p q]
      rcases fold_of_below stamp (below_fold stamp _ hq) hs with heq | heq
      · exact .inl heq
      · exact .inr (heq.trans habs)
  rcases hback with heq | heq
  · rw [heq]
    show fold stamp (fold stamp x ([] ++ (p ++ q))) (p ++ q ++ r) =
      fold stamp x ([] ++ (p ++ q) ++ r)
    exact fold_catchUp stamp h
  · rw [heq, append_assoc]
    rw [append_assoc] at h
    show fold stamp (fold stamp x ([] ++ p)) (p ++ (q ++ r)) = fold stamp x ([] ++ p ++ (q ++ r))
    exact fold_catchUp stamp h

/-! ## 2. Maps -/

abbrev Rec (κ ε : Type) := κ × Option ε

variable (m : κ → Option ε)

def applyRec (r : Rec κ ε) : κ → Option ε := Function.update m r.1 (write stamp (m r.1) r.2)

def replay (rs : List (Rec κ ε)) : κ → Option ε := rs.foldl (applyRec stamp) m

def opsOf (k : κ) (rs : List (Rec κ ε)) : List (Option ε) :=
  (rs.filter fun r => r.1 = k).map Prod.snd

@[simp] theorem opsOf_nil (k : κ) : opsOf k ([] : List (Rec κ ε)) = [] := rfl

@[simp] theorem opsOf_append (k : κ) (rs rs' : List (Rec κ ε)) :
    opsOf k (rs ++ rs') = opsOf k rs ++ opsOf k rs' := by
  simp [opsOf]

theorem opsOf_cons_self (k : κ) (op : Option ε) (rs : List (Rec κ ε)) :
    opsOf k ((k, op) :: rs) = op :: opsOf k rs := by
  simp [opsOf]

theorem opsOf_cons_of_ne {r : Rec κ ε} (h : r.1 ≠ k) (rs : List (Rec κ ε)) :
    opsOf k (r :: rs) = opsOf k rs := by
  simp [opsOf, h]

theorem mem_opsOf {op : Option ε} {rs : List (Rec κ ε)} : op ∈ opsOf k rs ↔ (k, op) ∈ rs := by
  constructor
  · intro h
    obtain ⟨⟨k', op'⟩, hr, rfl⟩ := mem_map.mp h
    obtain ⟨hr, hk⟩ := mem_filter.mp hr
    exact of_decide_eq_true hk ▸ hr
  · intro h
    exact mem_map.mpr ⟨(k, op), mem_filter.mpr ⟨h, decide_eq_true rfl⟩, rfl⟩

theorem opsOf_eq_nil {rs : List (Rec κ ε)} (h : k ∉ rs.map Prod.fst) : opsOf k rs = [] := by
  rw [opsOf, filter_eq_nil_iff.mpr, map_nil]
  intro r hr hk
  exact h (of_decide_eq_true hk ▸ mem_map_of_mem hr)

theorem replay_append (rs rs' : List (Rec κ ε)) :
    replay stamp m (rs ++ rs') = replay stamp (replay stamp m rs) rs' := foldl_append

theorem replay_apply (rs : List (Rec κ ε)) (k : κ) :
    replay stamp m rs k = fold stamp (m k) (opsOf k rs) := by
  induction rs generalizing m with
  | nil => rfl
  | cons r rs ih =>
    obtain ⟨k', op⟩ := r
    rw [replay, foldl_cons, ← replay, ih]
    by_cases hk : k' = k
    · subst hk
      simp [applyRec, opsOf_cons_self]
    · rw [opsOf_cons_of_ne hk, applyRec, Function.update_of_ne (Ne.symm hk)]

theorem replay_retry (rs rest : List (Rec κ ε)) :
    replay stamp (replay stamp m rs) (rs ++ rest) = replay stamp m (rs ++ rest) := by
  funext k
  simp only [replay_apply, opsOf_append, fold_append, fold_twice]

theorem replay_onto_copy {m : κ → Option ε} {before log after : List (Rec κ ε)}
    (h : Accepted stamp (m k) (opsOf k (before ++ log ++ after))) {c : Nat}
    (hc : before.length ≤ c) :
    fold stamp (replay stamp m ((before ++ log ++ after).take c) k) (opsOf k log) =
        replay stamp m (before ++ log) k ∨
      (before ++ log).length ≤ c ∧
        fold stamp (replay stamp m ((before ++ log ++ after).take c) k) (opsOf k log) =
          replay stamp m ((before ++ log ++ after).take c) k := by
  simp only [replay_apply]
  rcases le_total c (before ++ log).length with hle | hle
  · -- the copy lies inside the log
    obtain ⟨seen, later, hlog, hcopy⟩ : ∃ seen later, log = seen ++ later ∧
        (before ++ log ++ after).take c = before ++ seen := by
      refine ⟨log.take (c - before.length), log.drop (c - before.length), by simp, ?_⟩
      rw [take_append_of_le_length hle, take_append, take_of_length_le hc]
    rw [opsOf_append, accepted_append] at h
    rw [hcopy]
    subst hlog
    have hacc := h.1
    simp only [opsOf_append, ← append_assoc] at hacc ⊢
    exact .inl (fold_catchUp stamp hacc)
  · -- the copy is ahead of the log
    have hcopy : (before ++ log ++ after).take c =
        before ++ log ++ after.take (c - (before ++ log).length) := by
      rw [take_append, take_of_length_le hle]
    rw [← take_append_drop (c - (before ++ log).length) after, ← append_assoc,
      opsOf_append, accepted_append, opsOf_append, opsOf_append] at h
    rw [hcopy, opsOf_append, opsOf_append]
    rcases fold_ahead stamp h.1 with heq | heq
    · exact .inr ⟨hle, heq⟩
    · exact .inl heq

theorem replay_over_stale {m : κ → Option ε} {before log stale : List (Rec κ ε)}
    (h : Accepted stamp (m k) (opsOf k (before ++ log))) {c₀ c : Nat} (hc₀ : before.length ≤ c₀)
    (hc : c₀ ≤ c)
    (habs : fold stamp (replay stamp m ((before ++ log).take c₀) k) (opsOf k stale) =
      replay stamp m ((before ++ log).take c₀) k) :
    fold stamp (fold stamp (replay stamp m ((before ++ log).take c) k) (opsOf k stale))
      (opsOf k log) = replay stamp m (before ++ log) k := by
  obtain ⟨p, q, r, hlog, hp, hq⟩ : ∃ p q r, log = p ++ q ++ r ∧
      (before ++ log).take c₀ = before ++ p ∧ (before ++ log).take c = before ++ p ++ q := by
    refine ⟨log.take (c₀ - before.length), (log.drop (c₀ - before.length)).take (c - c₀),
      (log.drop (c₀ - before.length)).drop (c - c₀), ?_, ?_, ?_⟩
    · rw [append_assoc, take_append_drop, take_append_drop]
    · rw [take_append, take_of_length_le hc₀]
    · rw [take_append, take_of_length_le (le_trans hc₀ hc), append_assoc, ← take_add]
      congr 2
      omega
  rw [hp] at habs
  rw [hq]
  subst hlog
  rw [opsOf_append, accepted_append] at h
  simp only [replay_apply, opsOf_append, fold_append] at h habs ⊢
  have := fold_over_stale stamp h.2 habs
  simpa only [fold_append] using this

end LwwLog
