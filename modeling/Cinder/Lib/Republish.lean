/-
A value that is published again after every change of its source, where reading the
source and publishing are two atomic steps and the callbacks of different changes interleave.

A change that fires starts a callback; the callback first reads a view of the source, then
publishes it. The views are numbered in the order in which they are read.
-/
import Cinder.Lib.Transition
import Mathlib.Data.List.Basic

namespace Republish

open Transition List

variable {σ ε ν : Type}

/-- A callback that has still to read, or holds what it has read. -/
inductive Callback (ν : Type) where
  | waiting
  | holding (number : Nat) (view : ν)
  deriving DecidableEq, Repr

/-- The view read is not older than number `n`. -/
def Callback.NotBefore (n : Nat) : Callback ν → Prop
  | .waiting => True
  | .holding number _ => n ≤ number

instance (n : Nat) : ∀ c : Callback ν, Decidable (c.NotBefore n)
  | .waiting => isTrue trivial
  | .holding number _ => inferInstanceAs (Decidable (n ≤ number))

/-- `taken`: the number of views read; `shown`: the number of the one published. -/
structure Board (σ ν : Type) where
  source : σ
  published : ν
  callbacks : List (Callback ν) := []
  taken : Nat := 0
  shown : Nat := 0

inductive Event (ε : Type) where
  | change (e : ε)
  | read (i : Nat)
  | publish (i : Nat)

namespace Board

/-- The source changes; `apply` says whether the change fires. -/
def changed (apply : σ → ε → σ × Bool) (b : Board σ ν) (e : ε) : Board σ ν :=
  { b with
    source := (apply b.source e).1
    callbacks := if (apply b.source e).2 then b.callbacks ++ [.waiting] else b.callbacks }

def afterRead (view : σ → ν) (b : Board σ ν) (i : Nat) : Board σ ν :=
  { b with
    callbacks := b.callbacks.set i (.holding (b.taken + 1) (view b.source))
    taken := b.taken + 1 }

def afterPublish (b : Board σ ν) (i number : Nat) (v : ν) : Board σ ν :=
  { b with published := v, shown := number, callbacks := b.callbacks.eraseIdx i }

def step (apply : σ → ε → σ × Bool) (view : σ → ν) (b : Board σ ν) : Event ε → Option (Board σ ν)
  | .change e => some (b.changed apply e)
  | .read i =>
    match b.callbacks[i]? with
    | some .waiting => some (b.afterRead view i)
    | _ => none
  | .publish i =>
    match b.callbacks[i]? with
    | some (.holding number v) => some (b.afterPublish i number v)
    | _ => none

/-- No older view over a newer one. -/
def InOrder (b : Board σ ν) : Event ε → Prop
  | .publish i => ∀ c ∈ b.callbacks[i]?, c.NotBefore b.shown
  | _ => True

variable {apply : σ → ε → σ × Bool} {view : σ → ν} {b b' : Board σ ν}

theorem step_cases {e : Event ε} (h : b.step apply view e = some b') :
    (∃ a, e = .change a ∧ b' = b.changed apply a) ∨
    (∃ i, e = .read i ∧ b.callbacks[i]? = some .waiting ∧ b' = b.afterRead view i) ∨
    ∃ i number v, e = .publish i ∧ b.callbacks[i]? = some (.holding number v) ∧
      b' = b.afterPublish i number v := by
  cases e with
  | change a =>
    cases h
    exact .inl ⟨a, rfl, rfl⟩
  | read i =>
    unfold step at h
    dsimp only at h
    split at h
    · rename_i hi
      cases h
      exact .inr (.inl ⟨i, rfl, hi, rfl⟩)
    · cases h
  | publish i =>
    unfold step at h
    dsimp only at h
    split at h
    · rename_i number v hi
      cases h
      exact .inr (.inr ⟨i, number, v, rfl, hi, rfl⟩)
    · cases h

/-- The newest view is the source's, and it is published or in some callback, unless a callback
has still to read. -/
structure Current (view : σ → ν) (b : Board σ ν) : Prop where
  numbers : ∀ number v, .holding number v ∈ b.callbacks → number ≤ b.taken
  shown_le : b.shown ≤ b.taken
  newest : .waiting ∉ b.callbacks → (b.shown = b.taken → b.published = view b.source) ∧
    (∀ v, .holding b.taken v ∈ b.callbacks → v = view b.source) ∧
    (b.shown = b.taken ∨ ∃ v, .holding b.taken v ∈ b.callbacks)

/-- A change that does not fire leaves the view. -/
def Faithful (apply : σ → ε → σ × Bool) (view : σ → ν) : Prop :=
  ∀ s e, (apply s e).2 = false → view (apply s e).1 = view s

section

variable (h : b.Current view)

include h

theorem Current.change (hf : Faithful apply view) (a : ε) : (b.changed apply a).Current view := by
  unfold changed
  by_cases hfires : (apply b.source a).2 = true
  · simp only [if_pos hfires]
    refine ⟨fun number v hmem => ?_, h.shown_le, fun hno => ?_⟩
    · rcases mem_append.mp hmem with hmem | hmem
      · exact h.numbers number v hmem
      · cases mem_singleton.mp hmem
    · exact absurd (mem_append_right _ (mem_singleton_self _)) hno
  · have hview := hf b.source a (Bool.eq_false_iff.mpr hfires)
    simp only [if_neg hfires]
    refine ⟨h.numbers, h.shown_le, fun hno => ?_⟩
    rw [hview]
    exact h.newest hno

theorem Current.read {i : Nat} (hi : b.callbacks[i]? = some .waiting) :
    (b.afterRead view i).Current view := by
  have hset : ∀ c ∈ b.callbacks.set i (.holding (b.taken + 1) (view b.source)),
      c ∈ b.callbacks ∨ c = .holding (b.taken + 1) (view b.source) :=
    fun c hc => mem_or_eq_of_mem_set hc
  have hlt : i < b.callbacks.length := (List.getElem?_eq_some_iff.mp hi).1
  refine ⟨fun number v hmem => ?_, Nat.le_succ_of_le h.shown_le, fun _ => ⟨?_, ?_, ?_⟩⟩
  · rcases hset _ hmem with hold | hnew
    · exact Nat.le_succ_of_le (h.numbers number v hold)
    · cases hnew
      exact Nat.le_refl _
  · intro hshown
    have hshown : b.shown = b.taken + 1 := hshown
    have hle := h.shown_le
    omega
  · intro v hmem
    rcases hset _ hmem with hold | hnew
    · exact absurd (h.numbers _ v hold) (Nat.not_succ_le_self _)
    · cases hnew
      rfl
  · exact .inr ⟨_, mem_set hlt _⟩

theorem Current.publish {i number : Nat} {v : ν}
    (hi : b.callbacks[i]? = some (.holding number v)) (horder : b.shown ≤ number) :
    (b.afterPublish i number v).Current view := by
  have hin := mem_of_getElem? hi
  have hwaiting : .waiting ∉ b.callbacks.eraseIdx i → .waiting ∉ b.callbacks := by
    intro hno hmem
    obtain ⟨j, hj⟩ := mem_iff_getElem?.mp hmem
    refine hno (mem_eraseIdx_iff_getElem?.mpr ⟨j, fun heq => ?_, hj⟩)
    rw [heq, hi] at hj
    cases hj
  refine ⟨fun n w hmem => h.numbers n w (mem_of_mem_eraseIdx hmem), h.numbers number v hin,
    fun hno => ?_⟩
  obtain ⟨-, hheld, hthere⟩ := h.newest (hwaiting hno)
  refine ⟨fun hnewest => ?_, fun w hmem => hheld w (mem_of_mem_eraseIdx hmem), ?_⟩
  · have hnewest : number = b.taken := hnewest
    exact hheld v (hnewest ▸ hin)
  · by_cases hnewest : number = b.taken
    · exact .inl hnewest
    · -- a newer view has been read and is not published, so its callback is another one
      have hle := h.numbers number v hin
      obtain ⟨w, hw⟩ := hthere.resolve_left (by omega)
      obtain ⟨j, hj⟩ := mem_iff_getElem?.mp hw
      refine .inr ⟨w, mem_eraseIdx_iff_getElem?.mpr ⟨j, fun heq => ?_, hj⟩⟩
      rw [heq, hi] at hj
      cases hj
      exact hnewest rfl

theorem Current.step {e : Event ε} (hf : Faithful apply view)
    (horder : b.InOrder e) (hstep : b.step apply view e = some b') : b'.Current view := by
  obtain ⟨a, rfl, rfl⟩ | ⟨i, rfl, hi, rfl⟩ | ⟨i, number, v, rfl, hi, rfl⟩ := step_cases hstep
  · exact h.change hf a
  · exact h.read hi
  · exact h.publish hi (horder _ hi)

end

theorem Current.of_start {s : σ} {p : ν} (h : p = view s) :
    Current view { source := s, published := p } :=
  ⟨fun _ _ hmem => absurd hmem not_mem_nil, Nat.le_refl _,
    fun _ => ⟨fun _ => h, fun _ hmem => absurd hmem not_mem_nil, .inl rfl⟩⟩

theorem Current.published_of_done (h : b.Current view) (hdone : b.callbacks = []) :
    b.published = view b.source := by
  obtain ⟨hshown, -, hthere⟩ := h.newest (hdone ▸ not_mem_nil)
  refine hshown (hthere.resolve_right fun hheld => ?_)
  obtain ⟨v, hv⟩ := hheld
  exact not_mem_nil (hdone ▸ hv)

end Board

end Republish
