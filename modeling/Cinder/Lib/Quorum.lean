/-
Values held by a quorum of nodes.

`holds i s` says that node `i` holds the value `s` or something that replaces it. A value is
committed once `w` of the nodes hold it; that stays so as long as no node loses what it holds
(`Committed.mono`), and whoever hears from enough of the nodes hears from one that holds it
(`Committed.heard`).
-/
import Mathlib.Data.Finset.Card

namespace Quorum

variable {ι S : Type} [DecidableEq ι] {nodes : Finset ι} {w : Nat} {holds holds' : ι → S → Prop}
  {s : S}

/-- At least `w` of the nodes hold `s`. -/
def Committed (nodes : Finset ι) (w : Nat) (holds : ι → S → Prop) (s : S) : Prop :=
  ∃ H ⊆ nodes, w ≤ H.card ∧ ∀ i ∈ H, holds i s

omit [DecidableEq ι] in
theorem Committed.mono (h : Committed nodes w holds s) (hmono : ∀ i, holds i s → holds' i s) :
    Committed nodes w holds' s := by
  obtain ⟨H, hsub, hcard, hholds⟩ := h
  exact ⟨H, hsub, hcard, fun i hi => hmono i (hholds i hi)⟩

theorem Committed.heard (h : Committed nodes w holds s) {heard : Finset ι}
    (hsub : heard ⊆ nodes) (hcard : nodes.card < heard.card + w) : ∃ i ∈ heard, holds i s := by
  obtain ⟨H, hH, hw, hholds⟩ := h
  have hlt : nodes.card < heard.card + H.card := by omega
  obtain ⟨i, hi⟩ := Finset.inter_nonempty_of_card_lt_card_add_card hsub hH hlt
  rw [Finset.mem_inter] at hi
  exact ⟨i, hi.1, hholds i hi.2⟩

end Quorum
