/-
Labelled transition systems given by a partial step function, their runs, and the rule
that carries an invariant along a run.

A system is a function `step : σ → ε → Option σ`; `none` means that the label is not enabled.
`Reaches step ok s₀ s`: some run leads from `s₀` to `s` each of whose steps meets the side
condition `ok` in the state BEFORE it. A property of all runs is the case `ok = fun _ _ =>
True`; a property of the runs a component is specified for restricts `ok`.
-/
import Mathlib.Order.Basic

namespace Transition

variable {σ ε : Type}

/-- Every state a run with admissible steps leads to. -/
inductive Reaches (step : σ → ε → Option σ) (ok : σ → ε → Prop) (s₀ : σ) : σ → Prop where
  | refl : Reaches step ok s₀ s₀
  | tail {s s' : σ} {e : ε} : Reaches step ok s₀ s → ok s e → step s e = some s' →
      Reaches step ok s₀ s'

/-- Running a list of labels; a label that is not admissible or not enabled stops the run. -/
def exec (step : σ → ε → Option σ) (ok : σ → ε → Prop) [∀ s e, Decidable (ok s e)] :
    σ → List ε → Option σ
  | s, [] => some s
  | s, e :: es => if ok s e then (step s e).bind fun s' => exec step ok s' es else none

variable {step : σ → ε → Option σ} {ok : σ → ε → Prop} {s₀ s t : σ}

theorem Reaches.invariant {inv : σ → Prop} (h : Reaches step ok s₀ s) (h0 : inv s₀)
    (hstep : ∀ s e s', inv s → ok s e → step s e = some s' → inv s') : inv s := by
  induction h with
  | refl => exact h0
  | tail _ hok hs ih => exact hstep _ _ _ ih hok hs

theorem Reaches.of_exec [∀ s e, Decidable (ok s e)] {es : List ε} (h : Reaches step ok s₀ s)
    (he : exec step ok s es = some t) : Reaches step ok s₀ t := by
  induction es generalizing s with
  | nil =>
    obtain rfl : s = t := by simpa [exec] using he
    exact h
  | cons e es ih =>
    unfold exec at he
    split at he
    · rename_i hok
      obtain ⟨s', hs, hrest⟩ := Option.bind_eq_some_iff.mp he
      exact ih (h.tail hok hs) hrest
    · cases he

theorem reaches_of_exec [∀ s e, Decidable (ok s e)] {es : List ε}
    (he : exec step ok s₀ es = some t) : Reaches step ok s₀ t := Reaches.refl.of_exec he

theorem exists_reaches_of_exec (step : σ → ε → Option σ) (ok : σ → ε → Prop)
    [∀ s e, Decidable (ok s e)] (s₀ : σ) (es : List ε) (p : σ → Bool)
    (h : (exec step ok s₀ es).any p = true) : ∃ t, Reaches step ok s₀ t ∧ p t = true := by
  cases he : exec step ok s₀ es with
  | none => simp [he] at h
  | some t => exact ⟨t, reaches_of_exec he, by simpa [he] using h⟩

end Transition
