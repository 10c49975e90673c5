/-
The timing wheel over whole runs, with a callback that reacts to every node it is given
(`include/cinder/store/ttl_wheel.hpp`: `insert`, `remove`, `tick`).

A run keeps a LOG: what was inserted and removed, the ticks, and the nodes handed to the
callback. A callback decides by the log, so it may do anything to its node, and something else
each time.
-/
import Cinder.Lib.Transition
import Cinder.Store.WheelSchedule
import Mathlib.Data.List.Induction

namespace Cinder

open Transition List Function Option

namespace TtlWheel

/-! ## 1. Runs -/

/-- What a callback may do with its node. -/
inductive Act where
  | insert (ttlTicks : Nat)
  | remove
  deriving DecidableEq, Repr

inductive Event (α : Type) where
  | inserted (node : α) (ttlTicks : Nat)
  | removed (node : α)
  | ticked
  | handed (node : α)
  deriving DecidableEq, Repr

abbrev Callback (α : Type) := List (Event α) → α → List Act

structure Clocked (α : Type) where
  wheel : TtlWheel α := {}
  log : List (Event α) := []

inductive WheelOp (α : Type) where
  | insert (node : α) (ttlTicks : Nat)
  | remove (node : α)
  | tick (onExpired : Callback α) (fuel : Nat)

namespace Clocked

variable {α : Type} [DecidableEq α]

def insert (s : Clocked α) (node : α) (ttlTicks : Nat) : Clocked α :=
  ⟨s.wheel.insert node ttlTicks, s.log ++ [.inserted node ttlTicks]⟩

def remove (s : Clocked α) (node : α) : Clocked α := ⟨s.wheel.remove node, s.log ++ [.removed node]⟩

def act (node : α) (s : Clocked α) : Act → Clocked α
  | .insert ttlTicks => s.insert node ttlTicks
  | .remove => s.remove node

/-- A node, out of the wheel by now, is handed to the callback. -/
def fire (onExpired : Callback α) (s : Clocked α) (node : α) : Clocked α :=
  (onExpired s.log node).foldl (act node) { s with log := s.log ++ [.handed node] }

/-- No result if the rounds do not suffice. -/
def expireHeap (onExpired : Callback α) : (fuel : Nat) → Clocked α → Option (Clocked α)
  | 0, _ => none
  | fuel + 1, s =>
    match s.wheel.popDue with
    | none => some s
    | some (node, wheel) =>
      expireHeap onExpired fuel (fire onExpired { s with wheel := wheel } node)

def tick (s : Clocked α) (onExpired : Callback α) (fuel : Nat) : Option (Clocked α) :=
  let (batch, wheel) := s.wheel.advance.drainSlot
  expireHeap onExpired fuel (batch.foldl (fire onExpired) ⟨wheel, s.log ++ [.ticked]⟩)

def step (s : Clocked α) : WheelOp α → Option (Clocked α)
  | .insert node ttlTicks => some (s.insert node ttlTicks)
  | .remove node => some (s.remove node)
  | .tick onExpired fuel => s.tick onExpired fuel

end Clocked

/-- An insertion is for one tick or more, and its absolute tick does not overflow. -/
def Act.Admissible (tickCount : Nat) : Act → Prop
  | .insert ttlTicks => 1 ≤ ttlTicks ∧ (ttlTicks ≤ kSlotCount ∨ tickCount + ttlTicks < UInt64.size)
  | .remove => True

/-- The same for a step; a callback runs behind the advance of the counter. -/
def Clocked.Admissible {α : Type} (s : Clocked α) : WheelOp α → Prop
  | .insert _ ttlTicks => Act.Admissible s.wheel.tickCount (.insert ttlTicks)
  | .remove _ => True
  | .tick onExpired _ =>
    ∀ log node, ∀ act ∈ onExpired log node, Act.Admissible s.wheel.advance.tickCount act

/-! ## 2. What a log says -/

section Log

variable {α : Type} [DecidableEq α] {log pre post : List (Event α)} {a b : α} {t k : Nat}

def ticks (log : List (Event α)) : Nat := log.count .ticked

/-- The node is neither removed nor inserted again. -/
def Untouched (a : α) (log : List (Event α)) : Prop := .removed a ∉ log ∧ ∀ t, .inserted a t ∉ log

/-- **On time**: what was inserted with `t` and left alone since is handed over exactly once, at
the `t`-th tick after that; and whatever is handed over was inserted so. -/
structure OnTime (log : List (Event α)) : Prop where
  once : ∀ pre a t post, log = pre ++ .inserted a t :: post → Untouched a post →
    post.count (.handed a) = (if t ≤ ticks post then 1 else 0) ∧
      ∀ mid rest, post = mid ++ .handed a :: rest → ticks mid = t
  only : ∀ pre a post, log = pre ++ .handed a :: post → ∃ before t mid,
    pre = before ++ .inserted a t :: mid ∧ Untouched a mid ∧ .handed a ∉ mid ∧ ticks mid = t

/-- Ticks asked for and ticks passed, of the nodes that are waiting. -/
def note (waiting : α → Option (Nat × Nat)) : Event α → α → Option (Nat × Nat)
  | .inserted a t => update waiting a (some (t, 0))
  | .removed a => update waiting a none
  | .ticked => fun b => (waiting b).map fun c => (c.1, c.2 + 1)
  | .handed a => update waiting a none

def waiting (log : List (Event α)) : α → Option (Nat × Nat) := log.foldl note fun _ => none

@[simp] theorem waiting_nil : waiting ([] : List (Event α)) = fun _ => none := rfl

@[simp] theorem waiting_concat (log : List (Event α)) (e : Event α) :
    waiting (log ++ [e]) = note (waiting log) e := by
  unfold waiting
  rw [foldl_append]
  rfl

@[simp] theorem ticks_concat (log : List (Event α)) (e : Event α) :
    ticks (log ++ [e]) = ticks log + if e = .ticked then 1 else 0 := by
  unfold ticks
  rw [count_append, count_singleton]
  simp only [beq_iff_eq]

omit [DecidableEq α] in
theorem untouched_concat {e : Event α} :
    Untouched a (log ++ [e]) ↔ Untouched a log ∧ e ≠ .removed a ∧ ∀ t, e ≠ .inserted a t := by
  unfold Untouched
  simp only [mem_append, mem_singleton, not_or, ne_eq]
  constructor
  · intro ⟨hr, hi⟩
    exact ⟨⟨hr.1, fun t => (hi t).1⟩, fun h => hr.2 h.symm, fun t h => (hi t).2 h.symm⟩
  · intro ⟨⟨hr, hi⟩, hr', hi'⟩
    exact ⟨⟨hr, fun h => hr' h.symm⟩, fun t => ⟨hi t, fun h => hi' t h.symm⟩⟩

theorem note_of_ne {f : α → Option (Nat × Nat)} {e : Event α} (hr : e ≠ .removed a)
    (hi : ∀ t, e ≠ .inserted a t) (hh : e ≠ .handed a) :
    note f e a = (f a).map fun c => (c.1, c.2 + if e = .ticked then 1 else 0) := by
  cases e with
  | inserted b t =>
    have hne : a ≠ b := fun h => hi t (h ▸ rfl)
    simp [note, update_of_ne hne]
  | removed b =>
    have hne : a ≠ b := fun h => hr (h ▸ rfl)
    simp [note, update_of_ne hne]
  | ticked => rfl
  | handed b =>
    have hne : a ≠ b := fun h => hh (h ▸ rfl)
    simp [note, update_of_ne hne]

theorem waiting_of_inserted (pre : List (Event α)) (t : Nat) (h : Untouched a post)
    (hnot : .handed a ∉ post) :
    waiting (pre ++ .inserted a t :: post) a = some (t, ticks post) := by
  induction post using reverseRecOn with
  | nil =>
    rw [waiting_concat]
    exact update_self ..
  | append_singleton post e ih =>
    obtain ⟨hu, hr, hi⟩ := untouched_concat.mp h
    rw [mem_append, mem_singleton, not_or] at hnot
    rw [← cons_append, ← append_assoc, waiting_concat, note_of_ne hr hi (Ne.symm hnot.2),
      ih hu hnot.1, ticks_concat]
    rfl

theorem waiting_of_handed (pre : List (Event α)) (h : Untouched a post) :
    waiting (pre ++ .handed a :: post) a = none := by
  induction post using reverseRecOn with
  | nil =>
    rw [waiting_concat]
    exact update_self ..
  | append_singleton post e ih =>
    obtain ⟨hu, hr, hi⟩ := untouched_concat.mp h
    rw [← cons_append, ← append_assoc, waiting_concat]
    by_cases hh : e = .handed a
    · rw [hh]
      exact update_self ..
    · rw [note_of_ne hr hi hh, ih hu]
      rfl

theorem inserted_of_waiting (h : waiting log a = some (t, k)) : ∃ before mid,
    log = before ++ .inserted a t :: mid ∧ Untouched a mid ∧ .handed a ∉ mid ∧ ticks mid = k := by
  induction log using reverseRecOn generalizing k with
  | nil => cases h
  | append_singleton log e ih =>
    rw [waiting_concat] at h
    by_cases hr : e = .removed a
    · subst hr
      rw [note, update_self] at h
      cases h
    by_cases hh : e = .handed a
    · subst hh
      rw [note, update_self] at h
      cases h
    by_cases hi : ∃ t', e = .inserted a t'
    · obtain ⟨t', rfl⟩ := hi
      rw [note, update_self] at h
      cases h
      exact ⟨log, [], rfl, ⟨not_mem_nil, fun _ => not_mem_nil⟩, not_mem_nil, rfl⟩
    have hi : ∀ t', e ≠ .inserted a t' := fun t' heq => hi ⟨t', heq⟩
    rw [note_of_ne hr hi hh] at h
    obtain ⟨c, hc, heq⟩ := map_eq_some_iff.mp h
    obtain ⟨rfl, rfl⟩ := Prod.mk.inj heq
    obtain ⟨before, mid, rfl, hu, hnot, hk⟩ := ih (k := c.2) hc
    refine ⟨before, mid ++ [e], by simp, untouched_concat.mpr ⟨hu, hr, hi⟩, ?_, ?_⟩
    · rw [mem_append, mem_singleton]
      exact not_or.mpr ⟨hnot, fun heq => hh heq.symm⟩
    · rw [ticks_concat, hk]

/-- Every node was handed over when its ticks had passed. -/
def HandedInTime (log : List (Event α)) : Prop :=
  ∀ pre a post, log = pre ++ .handed a :: post → ∃ t, waiting pre a = some (t, t)

theorem HandedInTime.concat {e : Event α} (h : HandedInTime log)
    (he : ∀ a, e = .handed a → ∃ t, waiting log a = some (t, t)) : HandedInTime (log ++ [e]) := by
  intro pre a post heq
  rcases eq_nil_or_concat' post with rfl | ⟨post', last, rfl⟩
  · obtain ⟨rfl, hlast⟩ := append_inj' heq rfl
    exact he a (singleton_inj.mp hlast)
  · rw [← cons_append, ← append_assoc] at heq
    obtain ⟨rfl, -⟩ := append_inj' heq rfl
    exact h pre a post' rfl

theorem onTime_of_handedInTime (h : HandedInTime log)
    (hend : ∀ a t k, waiting log a = some (t, k) → k < t) : OnTime log := by
  refine ⟨fun pre a t post heq hu => ?_, fun pre a post heq => ?_⟩
  · have hwhen : ∀ mid rest, post = mid ++ .handed a :: rest → .handed a ∉ mid → ticks mid = t := by
      intro mid rest hpost hnot
      have humid : Untouched a mid := by
        rw [hpost] at hu
        exact ⟨fun hm => hu.1 (mem_append_left _ hm), fun t hm => hu.2 t (mem_append_left _ hm)⟩
      have hsplit : log = (pre ++ .inserted a t :: mid) ++ .handed a :: rest := by
        rw [heq, hpost]
        simp
      obtain ⟨t', ht'⟩ := h _ a rest hsplit
      rw [waiting_of_inserted pre t humid hnot] at ht'
      obtain ⟨rfl, hticks⟩ := Prod.mk.inj (some.inj ht')
      exact hticks
    have hsecond : ∀ mid rest, post = mid ++ .handed a :: rest → .handed a ∉ mid := by
      intro mid rest hpost hmem
      obtain ⟨mid₁, mid₂, rfl⟩ := append_of_mem hmem
      have hu₂ : Untouched a mid₂ := by
        rw [hpost] at hu
        exact ⟨fun hm => hu.1 (by simp [hm]), fun t hm => hu.2 t (by simp [hm])⟩
      have hsplit : log = ((pre ++ .inserted a t :: mid₁) ++ .handed a :: mid₂) ++
          .handed a :: rest := by
        rw [heq, hpost]
        simp
      obtain ⟨t', ht'⟩ := h _ a rest hsplit
      rw [waiting_of_handed _ hu₂] at ht'
      cases ht'
    refine ⟨?_, fun mid rest hpost => hwhen mid rest hpost (hsecond mid rest hpost)⟩
    by_cases hmem : .handed a ∈ post
    · obtain ⟨mid, rest, rfl⟩ := append_of_mem hmem
      have hnot := hsecond mid rest rfl
      have hrest : .handed a ∉ rest := by
        intro hm
        obtain ⟨rest₁, rest₂, rfl⟩ := append_of_mem hm
        exact hsecond (mid ++ .handed a :: rest₁) rest₂ (by simp) (by simp)
      have hticks := hwhen mid rest rfl hnot
      have hle : t ≤ ticks (mid ++ .handed a :: rest) := by
        rw [← hticks, ticks, ticks, count_append]
        exact Nat.le_add_right _ _
      rw [if_pos hle, count_append, count_cons_self, count_eq_zero_of_not_mem hnot,
        count_eq_zero_of_not_mem hrest]
    · have hlate := hend a t (ticks post) (heq ▸ waiting_of_inserted pre t hu hmem)
      rw [count_eq_zero_of_not_mem hmem, if_neg (not_le.mpr hlate)]
  · obtain ⟨t, ht⟩ := h pre a post heq
    obtain ⟨before, mid, hpre, hu, hnot, hticks⟩ := inserted_of_waiting ht
    exact ⟨before, t, mid, hpre, hu, hnot, hticks⟩

end Log

/-! ## 3. The wheel tracks its log -/

namespace Clocked

variable {α : Type} [DecidableEq α] {s s' : Clocked α} {a : α} {t : Nat} {batch : List α}

/-- **The invariant**, with a batch of nodes that are about to be handed over. -/
structure Tracks (s : Clocked α) (batch : List α) : Prop where
  wf : s.wheel.Wf
  apart : (batch ++ s.wheel.scheduled).Nodup
  now : ∀ a ∈ batch, ∃ t, waiting s.log a = some (t, t)
  due : ∀ a r, s.wheel.DueIn a r → ∃ t k, waiting s.log a = some (t, k) ∧ t = k + r
  all : ∀ a c, waiting s.log a = some c → a ∈ batch ∨ a ∈ s.wheel.scheduled
  handed : HandedInTime s.log

theorem Tracks.insert (h : s.Tracks batch) (ha : a ∉ batch)
    (hok : Act.Admissible s.wheel.tickCount (.insert t)) : (s.insert a t).Tracks batch := by
  have hmem : ∀ {b}, b ∈ (s.wheel.insert a t).scheduled ↔ b = a ∨ b ∈ s.wheel.scheduled :=
    mem_insert h.wf.nodup
  have hlog : waiting (s.insert a t).log = update (waiting s.log) a (some (t, 0)) :=
    waiting_concat s.log (.inserted a t)
  refine ⟨h.wf.insert a hok.2, ?_, fun b hb => ?_, fun b r hdue => ?_, fun b c hc => ?_, ?_⟩
  · obtain ⟨hbatch, -, hdisj⟩ := nodup_append'.mp h.apart
    refine nodup_append'.mpr ⟨hbatch, nodup_insert h.wf.nodup a t, fun b hb hin => ?_⟩
    rcases hmem.mp hin with rfl | hin
    · exact ha hb
    · exact hdisj hb hin
  · have hne : b ≠ a := fun heq => ha (heq ▸ hb)
    rw [hlog, update_of_ne hne]
    exact h.now b hb
  · rw [hlog]
    rcases (dueIn_insert h.wf.nodup hok.1 hok.2).mp hdue with ⟨rfl, rfl⟩ | ⟨hne, hdue⟩
    · exact ⟨r, 0, update_self .., (Nat.zero_add r).symm⟩
    · rw [update_of_ne hne]
      exact h.due b r hdue
  · rw [hlog] at hc
    by_cases hb : b = a
    · exact .inr (hmem.mpr (.inl hb))
    · rw [update_of_ne hb] at hc
      exact (h.all b c hc).imp_right fun hin => hmem.mpr (.inr hin)
  · exact h.handed.concat fun b heq => by cases heq

theorem Tracks.remove (h : s.Tracks batch) (ha : a ∉ batch) : (s.remove a).Tracks batch := by
  have hmem : ∀ {b}, b ∈ (s.wheel.remove a).scheduled ↔ b ∈ s.wheel.scheduled ∧ b ≠ a :=
    mem_remove h.wf.nodup
  have hlog : waiting (s.remove a).log = update (waiting s.log) a none :=
    waiting_concat s.log (.removed a)
  refine ⟨h.wf.remove a, ?_, fun b hb => ?_, fun b r hdue => ?_, fun b c hc => ?_, ?_⟩
  · obtain ⟨hbatch, -, hdisj⟩ := nodup_append'.mp h.apart
    exact nodup_append'.mpr ⟨hbatch, nodup_remove h.wf.nodup a,
      fun b hb hin => hdisj hb (hmem.mp hin).1⟩
  · have hne : b ≠ a := fun heq => ha (heq ▸ hb)
    rw [hlog, update_of_ne hne]
    exact h.now b hb
  · obtain ⟨hdue, hne⟩ := (dueIn_remove h.wf.nodup).mp hdue
    rw [hlog, update_of_ne hne]
    exact h.due b r hdue
  · rw [hlog] at hc
    by_cases hb : b = a
    · rw [hb, update_self] at hc
      cases hc
    · rw [update_of_ne hb] at hc
      exact (h.all b c hc).imp_right fun hin => hmem.mpr ⟨hin, hb⟩
  · exact h.handed.concat fun b heq => by cases heq

theorem tickCount_act (s : Clocked α) (a : α) (x : Act) :
    (act a s x).wheel.tickCount = s.wheel.tickCount := by
  cases x with
  | insert t => exact tickCount_insert s.wheel a t
  | remove => exact tickCount_remove s.wheel a

theorem Tracks.act (h : s.Tracks batch) (ha : a ∉ batch) {x : Act}
    (hok : x.Admissible s.wheel.tickCount) : (act a s x).Tracks batch := by
  cases x with
  | insert t => exact h.insert ha hok
  | remove => exact h.remove ha

theorem acts_spec {T : Nat} {acts : List Act} (hok : ∀ x ∈ acts, x.Admissible T)
    (hT : s.wheel.tickCount = T) (h : s.Tracks batch) (ha : a ∉ batch) :
    (acts.foldl (act a) s).Tracks batch ∧ (acts.foldl (act a) s).wheel.tickCount = T ∧
      dueCount (acts.foldl (act a) s).wheel ≤ dueCount s.wheel := by
  induction acts generalizing s with
  | nil => exact ⟨h, hT, le_rfl⟩
  | cons x acts ih =>
    have hx : x.Admissible s.wheel.tickCount := hT ▸ hok x mem_cons_self
    have hle : dueCount (act a s x).wheel ≤ dueCount s.wheel := by
      cases x with
      | insert t => exact dueCount_insert_le h.wf.nodup a hx.2
      | remove => exact dueCount_remove_le h.wf.nodup a
    obtain ⟨htracks, htick, hrest⟩ := ih (fun y hy => hok y (mem_cons_of_mem _ hy))
      ((tickCount_act s a x).trans hT) (h.act ha hx)
    exact ⟨htracks, htick, hrest.trans hle⟩

def Reacts (T : Nat) (onExpired : Callback α) : Prop :=
  ∀ log node, ∀ x ∈ onExpired log node, Act.Admissible T x

variable {T : Nat} {onExpired : Callback α}

theorem Tracks.hand {w : TtlWheel α} (h : s.Tracks batch) {rest : List α} (hwf : w.Wf)
    (hdue : ∀ b r, w.DueIn b r → s.wheel.DueIn b r) (hnow : ∃ t, waiting s.log a = some (t, t))
    (hsplit : (a :: rest ++ w.scheduled).Perm (batch ++ s.wheel.scheduled))
    (hrest : ∀ b ∈ rest, b ∈ batch) : Tracks ⟨w, s.log ++ [.handed a]⟩ rest := by
  have hlog : waiting (s.log ++ [.handed a]) = update (waiting s.log) a none :=
    waiting_concat s.log (.handed a)
  have hnodup := hsplit.nodup_iff.mpr h.apart
  rw [cons_append, nodup_cons] at hnodup
  have hne : ∀ {b}, b ∈ rest ++ w.scheduled → b ≠ a := fun hb heq => hnodup.1 (heq ▸ hb)
  refine ⟨hwf, hnodup.2, fun b hb => ?_, fun b r hb => ?_, fun b c hc => ?_, ?_⟩
  · dsimp only
    rw [hlog, update_of_ne (hne (mem_append_left _ hb))]
    exact h.now b (hrest b hb)
  · dsimp only
    rw [hlog, update_of_ne (hne (mem_append_right _ hb.mem_scheduled))]
    exact h.due b r (hdue b r hb)
  · dsimp only at hc
    rw [hlog] at hc
    by_cases hb : b = a
    · rw [hb, update_self] at hc
      cases hc
    · rw [update_of_ne hb] at hc
      have hin := hsplit.mem_iff.mpr (mem_append.mpr (h.all b c hc))
      rw [cons_append, mem_cons, mem_append] at hin
      exact hin.resolve_left hb
  · refine h.handed.concat fun b heq => ?_
    cases heq
    exact hnow

theorem Tracks.fire (h : s.Tracks (a :: batch)) (hT : s.wheel.tickCount = T)
    (hok : Reacts T onExpired) :
    (fire onExpired s a).Tracks batch ∧ (fire onExpired s a).wheel.tickCount = T ∧
      dueCount (fire onExpired s a).wheel ≤ dueCount s.wheel := by
  have hhand : Tracks ⟨s.wheel, s.log ++ [.handed a]⟩ batch :=
    h.hand h.wf (fun _ _ hdue => hdue) (h.now a mem_cons_self) (.refl _)
      fun b hb => mem_cons_of_mem _ hb
  have ha : a ∉ batch := fun hmem =>
    (nodup_cons.mp (nodup_append'.mp h.apart).1).1 hmem
  exact acts_spec (hok s.log a) hT hhand ha

theorem Tracks.foldl_fire (h : s.Tracks batch) (hT : s.wheel.tickCount = T)
    (hok : Reacts T onExpired) :
    (batch.foldl (Clocked.fire onExpired) s).Tracks [] ∧
      (batch.foldl (Clocked.fire onExpired) s).wheel.tickCount = T ∧
      dueCount (batch.foldl (Clocked.fire onExpired) s).wheel ≤ dueCount s.wheel := by
  induction batch generalizing s with
  | nil => exact ⟨h, hT, le_rfl⟩
  | cons a batch ih =>
    obtain ⟨htracks, htick, hle⟩ := h.fire hT hok
    obtain ⟨htracks', htick', hle'⟩ := ih htracks htick
    exact ⟨htracks', htick', hle'.trans hle⟩

theorem Tracks.pop (h : s.Tracks []) (hT : s.wheel.tickCount = T) (hok : Reacts T onExpired)
    {w : TtlWheel α} (hpop : s.wheel.popDue = some (a, w)) :
    (Clocked.fire onExpired { s with wheel := w } a).Tracks [] ∧
      (Clocked.fire onExpired { s with wheel := w } a).wheel.tickCount = T ∧
      dueCount (Clocked.fire onExpired { s with wheel := w } a).wheel < dueCount s.wheel := by
  obtain ⟨hdue, hwf, htick, hcount, hrest⟩ := popDue_some h.wf hpop
  obtain ⟨t, k, hwait, htk⟩ := h.due a 0 hdue
  obtain rfl : t = k := htk
  have hhand : Tracks ⟨w, s.log ++ [.handed a]⟩ [] :=
    h.hand hwf (fun b r hb => ((hrest b r).mp hb).1) ⟨t, hwait⟩ (perm_popDue hpop)
      fun b hb => absurd hb not_mem_nil
  obtain ⟨htracks, htick', hle⟩ := acts_spec (hok s.log a) (htick.trans hT) hhand not_mem_nil
  have hlt : dueCount w < dueCount s.wheel := by omega
  exact ⟨htracks, htick', lt_of_le_of_lt hle hlt⟩

theorem expireHeap_spec (fuel : Nat) (h : s.Tracks []) (hT : s.wheel.tickCount = T)
    (hok : Reacts T onExpired) (he : expireHeap onExpired fuel s = some s') :
    s'.Tracks [] ∧ s'.wheel.Quiet := by
  induction fuel generalizing s with
  | zero => cases he
  | succ fuel ih =>
    unfold expireHeap at he
    split at he
    · rename_i hpop
      cases he
      exact ⟨h, popDue_none h.wf hpop⟩
    · rename_i node w hpop
      obtain ⟨htracks, htick, -⟩ := h.pop hT hok hpop
      exact ih htracks htick he

theorem expireHeap_returns (fuel : Nat) (h : s.Tracks []) (hT : s.wheel.tickCount = T)
    (hok : Reacts T onExpired) (hfuel : dueCount s.wheel < fuel) :
    (expireHeap onExpired fuel s).isSome := by
  induction fuel generalizing s with
  | zero => cases hfuel
  | succ fuel ih =>
    unfold expireHeap
    split
    · rfl
    · rename_i node w hpop
      obtain ⟨htracks, htick, hlt⟩ := h.pop hT hok hpop
      exact ih htracks htick (by omega)

theorem Tracks.advance (h : s.Tracks []) (hq : s.wheel.Quiet) :
    Tracks ⟨s.wheel.advance.drainSlot.2, s.log ++ [.ticked]⟩ s.wheel.advance.drainSlot.1 := by
  have hperm := perm_drainSlot s.wheel.advance
  have hlog : ∀ b, waiting (s.log ++ [.ticked]) b =
      (waiting s.log b).map fun c => (c.1, c.2 + 1) := by
    intro b
    rw [waiting_concat]
    rfl
  refine ⟨hq.drainSlot, hperm.nodup_iff.mpr h.wf.nodup, fun b hb => ?_, fun b r hdue => ?_,
    fun b c hc => ?_, ?_⟩
  · obtain ⟨t, k, hwait, rfl⟩ := h.due b 1 (.slot le_rfl (by decide)
      (mem_drainSlot_advance.mp hb))
    rw [hlog, hwait]
    exact ⟨k + 1, rfl⟩
  · obtain ⟨t, k, hwait, rfl⟩ := h.due b (r + 1) ((dueIn_drainSlot hq).mp hdue).1
    rw [hlog, hwait]
    exact ⟨_, k + 1, rfl, by omega⟩
  · dsimp only at hc
    rw [hlog] at hc
    obtain ⟨c', hc', -⟩ := map_eq_some_iff.mp hc
    have hin := (h.all b c' hc').resolve_left not_mem_nil
    exact mem_append.mp (hperm.mem_iff.mpr hin)
  · exact h.handed.concat fun b heq => by cases heq

theorem tick_spec (h : s.Tracks []) (hq : s.wheel.Quiet)
    (hok : Reacts s.wheel.advance.tickCount onExpired) (fuel : Nat) :
    (∀ s', s.tick onExpired fuel = some s' → s'.Tracks [] ∧ s'.wheel.Quiet) ∧
      (s.wheel.heap.length < fuel → (s.tick onExpired fuel).isSome) := by
  obtain ⟨htracks, htick, hle⟩ := (h.advance hq).foldl_fire rfl hok
  refine ⟨fun s' hs => expireHeap_spec fuel htracks htick hok hs, fun hfuel => ?_⟩
  have hcount : dueCount s.wheel.advance.drainSlot.2 ≤ s.wheel.heap.length := countP_le_length
  exact expireHeap_returns fuel htracks htick hok (lt_of_le_of_lt (hle.trans hcount) hfuel)

/-! ## 4. Every run -/

def Inv (s : Clocked α) : Prop := s.Tracks [] ∧ s.wheel.Quiet

theorem inv_start : Inv ({} : Clocked α) := by
  have hempty := scheduled_empty (α := α)
  have hnone : ∀ a r, ¬ ({} : TtlWheel α).DueIn a r := by
    intro a r hdue
    have hmem := hdue.mem_scheduled
    rw [hempty] at hmem
    cases hmem
  have hnodup : ({} : TtlWheel α).scheduled.Nodup := by
    rw [hempty]
    exact nodup_nil
  have hwf : ({} : TtlWheel α).Wf :=
    ⟨hnodup, fun j hj0 hj => absurd hj (Nat.not_lt_zero _), fun e he => absurd he not_mem_nil⟩
  refine ⟨⟨hwf, ?_, fun a ha => absurd ha not_mem_nil,
    fun a r hdue => absurd hdue (hnone a r), fun a c hc => ?_, fun pre a post heq => ?_⟩,
    hwf, fun a => hnone a 0⟩
  · rw [nil_append]
    exact hnodup
  · cases hc
  · simp at heq

theorem quiet_act {x : Act} (hok : x.Admissible s.wheel.tickCount) (h : s.wheel.Quiet) (a : α) :
    (Clocked.act a s x).wheel.Quiet := by
  cases x with
  | insert t =>
    refine ⟨h.toWf.insert a hok.2, fun b hdue => ?_⟩
    rcases (dueIn_insert h.nodup hok.1 hok.2).mp hdue with ⟨-, hzero⟩ | ⟨-, hdue⟩
    · have := hok.1
      omega
    · exact h.later b hdue
  | remove => exact ⟨h.toWf.remove a, fun b hdue => h.later b ((dueIn_remove h.nodup).mp hdue).1⟩

theorem Inv.step {op : WheelOp α} (h : s.Inv) (hok : s.Admissible op) (hs : s.step op = some s') :
    s'.Inv := by
  cases op with
  | insert node t =>
    cases hs
    exact ⟨h.1.insert not_mem_nil hok, quiet_act (x := .insert t) hok h.2 node⟩
  | remove node =>
    cases hs
    exact ⟨h.1.remove not_mem_nil, quiet_act (x := .remove) trivial h.2 node⟩
  | tick onExpired fuel => exact (tick_spec h.1 h.2 hok fuel).1 s' hs

theorem Inv.onTime (h : s.Inv) : OnTime s.log := by
  refine onTime_of_handedInTime h.1.handed fun a t k hwait => ?_
  have hin := (h.1.all a _ hwait).resolve_left not_mem_nil
  obtain ⟨r, hdue⟩ := h.2.toWf.mem_scheduled_iff.mp hin
  obtain ⟨t', k', hwait', hr⟩ := h.1.due a r hdue
  obtain ⟨rfl, rfl⟩ := Prod.mk.inj (some.inj (hwait'.symm.trans hwait))
  have hpos : r ≠ 0 := fun hzero => h.2.later a (hzero ▸ hdue)
  omega

/-- **The wheel fires on time**: in every run with any callbacks in which no absolute tick
overflows, every node is handed over exactly once, at the tick it was inserted for, and no other
ever; and every further tick returns. -/
theorem fires_on_time (s : Clocked α) (h : Reaches step Admissible ({} : Clocked α) s) :
    OnTime s.log ∧ ∀ onExpired fuel, s.Admissible (.tick onExpired fuel) →
      s.wheel.heap.length < fuel → (s.tick onExpired fuel).isSome := by
  have hinv : s.Inv := h.invariant inv_start fun _ _ _ hi hok hs => hi.step hok hs
  exact ⟨hinv.onTime, fun onExpired fuel hok hfuel => (tick_spec hinv.1 hinv.2 hok fuel).2 hfuel⟩

def again : Callback Nat := fun log _ => if log.length < 4 then [.insert 1] else []

/-- Inserted for two ticks, then by the callback for another: handed over at the second and at
the third tick. -/
theorem fires_on_time_again : ∃ s : Clocked Nat, Reaches step Admissible {} s ∧
    s.log = [.inserted 7 2, .ticked, .ticked, .handed 7, .inserted 7 1, .ticked, .handed 7] ∧
    OnTime s.log := by
  have hagain : ∀ T, Reacts T again := by
    intro T log node x hx
    unfold again at hx
    split at hx
    · rw [mem_singleton.mp hx]
      exact ⟨le_rfl, .inl (by decide)⟩
    · cases hx
  have hinsert : Reaches step Admissible {} (({} : Clocked Nat).insert 7 2) :=
    Reaches.refl.tail (e := .insert 7 2) ⟨by decide, .inl (by decide)⟩ rfl
  have htick : ∀ s s' : Clocked Nat, Reaches step Admissible {} s → s.tick again 1 = some s' →
      Reaches step Admissible {} s' := fun s s' h hs => h.tail (e := .tick again 1) (hagain _) hs
  have hreach := htick _ _ (htick _ _ (htick _ _ hinsert rfl) rfl) rfl
  exact ⟨_, hreach, rfl, (fires_on_time _ hreach).1⟩

/-- Insertions for one tick or more, as many as a `size_t` holds. -/
def Positive (_ : Clocked α) : WheelOp α → Prop
  | .insert _ ttlTicks => 1 ≤ ttlTicks ∧ ttlTicks < UInt64.size
  | .remove _ => True
  | .tick onExpired _ =>
    ∀ log node, ∀ t, Act.insert t ∈ onExpired log node → 1 ≤ t ∧ t < UInt64.size

/-- **An absolute tick that overflows**: after one tick a node is inserted for the largest
`size_t`, and handed over at the next tick. -/
theorem overflow_fires_early : ∃ s : Clocked Nat, Reaches step Positive {} s ∧
    s.log = [.ticked, .inserted 7 (UInt64.size - 1), .ticked, .handed 7] ∧ ¬ OnTime s.log := by
  have hnone : ∀ s s' : Clocked Nat, Reaches step Positive {} s →
      s.tick (fun _ _ => []) 2 = some s' → Reaches step Positive {} s' :=
    fun s s' h hs => h.tail (e := .tick (fun _ _ => []) 2)
      (fun _ _ _ hx => absurd hx not_mem_nil) hs
  have hinsert : ∀ s : Clocked Nat, Reaches step Positive {} s →
      Reaches step Positive {} (s.insert 7 (UInt64.size - 1)) :=
    fun s h => h.tail (e := .insert 7 (UInt64.size - 1)) ⟨by decide, by decide⟩ rfl
  have hreach := hnone _ _ (hinsert _ (hnone {} _ .refl rfl)) rfl
  refine ⟨_, hreach, rfl, fun hon => ?_⟩
  have honce := hon.once [.ticked] 7 (UInt64.size - 1) [.ticked, .handed 7] rfl
    ⟨by decide, fun t => by simp⟩
  exact absurd honce.1 (by decide)

end Clocked

end TtlWheel

end Cinder
