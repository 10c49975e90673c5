/-
Coalesced reads (`ReadFlightRegistry` of `include/cinder/node/read_quorum.hpp`): every
callback is invoked once, with the result of the flight it joined.

`attach` and the first half of `finish` run under the registry's mutex and are one step each.
The callbacks are invoked after it is released, one step each, so that whatever a callback does
(attaching a read for the same key included) and whatever other threads do comes in between.
-/
import Cinder.Common.Types
import Cinder.Lib.Transition

namespace Cinder

open List Function Option

namespace ReadFlights

open Transition

/-! ## 1. The registry -/

structure ReadFlightKey where
  key : Key
  r : Nat
  deriving DecidableEq, Repr

/-- Flights and callbacks are numbered in the order they come to exist. -/
structure Registry (ρ : Type) where
  flights : ReadFlightKey → Option Nat := fun _ => none
  waiters : Nat → List Nat := fun _ => []
  taken : Nat → List Nat := fun _ => []
  invoked : List (Nat × ρ) := []
  nextFlight : Nat := 0
  nextCallback : Nat := 0
  /-- What was observed: the flight each callback joined, the key and the result of each flight. -/
  joined : Nat → Nat := fun _ => 0
  keyOf : Nat → ReadFlightKey := fun _ => ⟨[], 0⟩
  result : Nat → Option ρ := fun _ => none

inductive Event (ρ : Type) where
  | attach (id : ReadFlightKey)
  /-- `finish` up to the release of the mutex. -/
  | finish (id : ReadFlightKey) (flight : Nat) (result : ρ)
  | invoke (flight : Nat)

variable {ρ : Type}

variable (s : Registry ρ)

/-- `attach` with a new callback. Whoever creates the flight leads it. -/
def Registry.attach (id : ReadFlightKey) : Registry ρ :=
  match s.flights id with
  | none =>
    { s with
      flights := update s.flights id (some s.nextFlight)
      waiters := update s.waiters s.nextFlight [s.nextCallback]
      joined := update s.joined s.nextCallback s.nextFlight
      keyOf := update s.keyOf s.nextFlight id
      nextFlight := s.nextFlight + 1
      nextCallback := s.nextCallback + 1 }
  | some flight =>
    { s with
      waiters := update s.waiters flight (s.waiters flight ++ [s.nextCallback])
      joined := update s.joined s.nextCallback flight
      nextCallback := s.nextCallback + 1 }

/-- First half: the entry is erased if it is this flight's, the waiters are moved out. -/
def Registry.finish (id : ReadFlightKey) (flight : Nat) (result : ρ) :
    Registry ρ :=
  { s with
    flights := if s.flights id = some flight then update s.flights id none else s.flights
    waiters := update s.waiters flight []
    taken := update s.taken flight (s.waiters flight)
    result := update s.result flight (some result) }

/-- A leader finishes the flight it created, under that flight's key, once. -/
def step : Event ρ → Option (Registry ρ)
  | .attach id => some (s.attach id)
  | .finish id flight result =>
    if flight < s.nextFlight ∧ s.keyOf flight = id ∧ (s.result flight).isNone then
      some (s.finish id flight result)
    else none
  | .invoke flight =>
    match s.taken flight, s.result flight with
    | cb :: rest, some result =>
      some { s with
        taken := update s.taken flight rest
        invoked := s.invoked ++ [(cb, result)] }
    | _, _ => none

/-! ## 2. The invariant -/

/-- How often a callback is waiting, taken or invoked. -/
def Registry.places (cb flight : Nat) : Nat :=
  (s.waiters flight).count cb + (s.taken flight).count cb + (s.invoked.map Prod.fst).count cb

structure Inv : Prop where
  /-- The registered flights are those that have not been finished. -/
  registered : ∀ id flight, s.flights id = some flight ↔
    flight < s.nextFlight ∧ s.keyOf flight = id ∧ s.result flight = none
  /-- A flight that does not exist yet has nothing. -/
  unborn : ∀ flight, s.nextFlight ≤ flight →
    s.waiters flight = [] ∧ s.taken flight = [] ∧ s.result flight = none
  open_ : ∀ flight, s.result flight = none → s.taken flight = []
  finished : ∀ flight, s.result flight ≠ none → s.waiters flight = []
  mine : ∀ cb flight, cb ∈ s.waiters flight ∨ cb ∈ s.taken flight →
    cb < s.nextCallback ∧ s.joined cb = flight
  joined : ∀ cb, cb < s.nextCallback → s.joined cb < s.nextFlight
  once : ∀ cb, cb < s.nextCallback → s.places cb (s.joined cb) = 1
  got : ∀ cb result, (cb, result) ∈ s.invoked →
    cb < s.nextCallback ∧ s.result (s.joined cb) = some result

variable {s s' : Registry ρ}

theorem inv_start : Inv ({} : Registry ρ) where
  registered := fun _ _ => ⟨nofun, fun h => absurd h.1 (Nat.not_lt_zero _)⟩
  unborn := fun _ _ => ⟨rfl, rfl, rfl⟩
  open_ := fun _ _ => rfl
  finished := fun _ _ => rfl
  mine := fun _ _ h => by rcases h with h | h <;> cases h
  joined := fun _ h => absurd h (Nat.not_lt_zero _)
  once := fun _ h => absurd h (Nat.not_lt_zero _)
  got := nofun

theorem Inv.places_new (h : Inv s) (flight : Nat) : s.places s.nextCallback flight = 0 := by
  have hwaiters : s.nextCallback ∉ s.waiters flight := fun hmem =>
    lt_irrefl _ (h.mine _ _ (.inl hmem)).1
  have htaken : s.nextCallback ∉ s.taken flight := fun hmem =>
    lt_irrefl _ (h.mine _ _ (.inr hmem)).1
  have hinvoked : s.nextCallback ∉ s.invoked.map Prod.fst := by
    intro hmem
    obtain ⟨⟨cb, result⟩, hgot, hcb⟩ := mem_map.mp hmem
    exact lt_irrefl _ (hcb ▸ (h.got cb result hgot).1)
  rw [Registry.places, count_eq_zero_of_not_mem hwaiters,
    count_eq_zero_of_not_mem htaken, count_eq_zero_of_not_mem hinvoked]

/-! ## 3. Attaching -/

def Registry.join (s : Registry ρ) (flight : Nat) : Registry ρ :=
  { s with
    waiters := update s.waiters flight (s.waiters flight ++ [s.nextCallback])
    joined := update s.joined s.nextCallback flight
    nextCallback := s.nextCallback + 1 }

theorem Inv.join (h : Inv s) {flight : Nat} (hborn : flight < s.nextFlight)
    (hopen : s.result flight = none) : Inv (s.join flight) := by
  unfold Registry.join
  refine ⟨h.registered, ?_, h.open_, ?_, ?_, ?_, ?_, ?_⟩ <;> dsimp only
  · intro f hf
    have hne : f ≠ flight := fun e => absurd hborn (by omega)
    simpa [update_of_ne hne] using h.unborn f hf
  · intro f hf
    have hne : f ≠ flight := fun e => hf (e ▸ hopen)
    simpa [update_of_ne hne] using h.finished f hf
  · intro cb f hmem
    by_cases hcb : cb = s.nextCallback
    · subst hcb
      refine ⟨Nat.lt_succ_self _, ?_⟩
      rw [update_self]
      by_contra hne
      have hne' : f ≠ flight := fun e => hne e.symm
      have hold := h.mine s.nextCallback f (by simpa [update_of_ne hne'] using hmem)
      exact lt_irrefl _ hold.1
    · have hold := h.mine cb f (by
        by_cases hf : f = flight
        · subst hf
          simpa [hcb] using hmem
        · simpa [update_of_ne hf] using hmem)
      exact ⟨Nat.lt_succ_of_lt hold.1, by rw [update_of_ne hcb]; exact hold.2⟩
  · intro cb hcb
    by_cases hnew : cb = s.nextCallback
    · rw [hnew, update_self]
      exact hborn
    · rw [update_of_ne hnew]
      exact h.joined cb (by omega)
  · intro cb hcb
    by_cases hnew : cb = s.nextCallback
    · have hplaces := h.places_new flight
      subst hnew
      simp only [Registry.places, update_self, count_append, count_singleton_self] at hplaces ⊢
      omega
    · have hold := h.once cb (by omega)
      rw [update_of_ne hnew]
      simp only [Registry.places] at hold ⊢
      by_cases hf : s.joined cb = flight
      · have hnew' : s.nextCallback ≠ cb := fun e => hnew e.symm
        rw [hf] at hold ⊢
        rw [update_self, count_append, count_singleton, if_neg (by simpa using hnew'), add_zero]
        exact hold
      · rw [update_of_ne hf]
        exact hold
  · intro cb result hgot
    obtain ⟨hcb, hresult⟩ := h.got cb result hgot
    refine ⟨Nat.lt_succ_of_lt hcb, ?_⟩
    rw [update_of_ne (Nat.ne_of_lt hcb)]
    exact hresult

/-- A flight is registered, without a callback so far. -/
def Registry.opened (s : Registry ρ) (id : ReadFlightKey) : Registry ρ :=
  { s with
    flights := update s.flights id (some s.nextFlight)
    keyOf := update s.keyOf s.nextFlight id
    nextFlight := s.nextFlight + 1 }

theorem Inv.opened (h : Inv s) {id : ReadFlightKey} (hid : s.flights id = none) :
    Inv (s.opened id) := by
  obtain ⟨-, -, hnoresult⟩ := h.unborn s.nextFlight le_rfl
  refine ⟨?_, fun f hf => h.unborn f (Nat.le_of_succ_le hf), h.open_, h.finished, h.mine,
    fun cb hcb => Nat.lt_succ_of_lt (h.joined cb hcb), h.once, h.got⟩
  intro id' f
  dsimp only [Registry.opened]
  by_cases hf : f = s.nextFlight
  · subst hf
    have hnot : s.flights id' ≠ some s.nextFlight := fun e =>
      lt_irrefl _ ((h.registered id' s.nextFlight).mp e).1
    by_cases hid' : id' = id
    · subst hid'
      simp [hnoresult]
    · have hid'' : ¬ id = id' := fun e => hid' e.symm
      simp [update_of_ne hid', hnot, hid'']
  · have hlt : f < s.nextFlight + 1 ↔ f < s.nextFlight := by omega
    by_cases hid' : id' = id
    · subst hid'
      have hnot : ¬ (f < s.nextFlight ∧ s.keyOf f = id' ∧ s.result f = none) := fun e => by
        rw [(h.registered id' f).mpr e] at hid
        cases hid
      have hf' : ¬ s.nextFlight = f := fun e => hf e.symm
      simp only [update_self, some.injEq, hf', update_of_ne hf, hlt, hnot]
    · rw [update_of_ne hid', update_of_ne hf, hlt]
      exact h.registered id' f

theorem Inv.attach (h : Inv s) (id : ReadFlightKey) : Inv (s.attach id) := by
  cases hid : s.flights id with
  | none =>
    obtain ⟨hnowaiters, -, hnoresult⟩ := h.unborn s.nextFlight le_rfl
    have hattach : s.attach id = (s.opened id).join s.nextFlight := by
      simp only [Registry.attach, hid, Registry.join, Registry.opened, hnowaiters, nil_append]
    rw [hattach]
    exact (h.opened hid).join (Nat.lt_succ_self _) hnoresult
  | some flight =>
    have hattach : s.attach id = s.join flight := by
      simp only [Registry.attach, hid, Registry.join]
    obtain ⟨hborn, -, hopen⟩ := (h.registered id flight).mp hid
    rw [hattach]
    exact h.join hborn hopen

/-! ## 4. Finishing -/

theorem Inv.finish (h : Inv s) {flight : Nat} (hborn : flight < s.nextFlight)
    (hopen : s.result flight = none) (result : ρ) :
    Inv (s.finish (s.keyOf flight) flight result) := by
  have hreg : s.flights (s.keyOf flight) = some flight := (h.registered _ _).mpr ⟨hborn, rfl, hopen⟩
  have hnotaken := h.open_ flight hopen
  unfold Registry.finish
  rw [if_pos hreg]
  refine ⟨?_, ?_, ?_, ?_, ?_, h.joined, ?_, ?_⟩ <;> dsimp only
  · intro id f
    by_cases hf : f = flight
    · subst hf
      by_cases hid : id = s.keyOf f
      · subst hid
        simp
      · have hne : ¬ s.keyOf f = id := fun e => hid e.symm
        simp only [update_of_ne hid, update_self]
        refine ⟨fun e => absurd ((h.registered id f).mp e).2.1 hne, fun e => absurd e.2.1 hne⟩
    · rw [update_of_ne hf]
      by_cases hid : id = s.keyOf flight
      · subst hid
        rw [update_self]
        refine ⟨nofun, fun e => ?_⟩
        have heq := hreg.symm.trans ((h.registered _ f).mpr e)
        exact absurd (some.inj heq).symm hf
      · rw [update_of_ne hid]
        exact h.registered id f
  · intro f hf
    have hne : f ≠ flight := fun e => absurd hborn (by omega)
    simpa [update_of_ne hne] using h.unborn f hf
  · intro f hf
    have hne : f ≠ flight := by
      rintro rfl
      simp at hf
    simpa [update_of_ne hne] using h.open_ f (by simpa [update_of_ne hne] using hf)
  · intro f hf
    by_cases hne : f = flight
    · rw [hne, update_self]
    · rw [update_of_ne hne]
      exact h.finished f (by simpa [update_of_ne hne] using hf)
  · intro cb f hmem
    by_cases hf : f = flight
    · subst hf
      exact h.mine cb f (.inl (by simpa using hmem))
    · exact h.mine cb f (by simpa [update_of_ne hf] using hmem)
  · intro cb hcb
    have hold := h.once cb hcb
    simp only [Registry.places] at hold ⊢
    by_cases hf : s.joined cb = flight
    · -- the waiters have moved to the taken callbacks
      rw [hf, hnotaken] at hold
      rw [hf, update_self, update_self]
      simpa using hold
    · rw [update_of_ne hf, update_of_ne hf]
      exact hold
  · intro cb r hgot
    obtain ⟨hcb, hresult⟩ := h.got cb r hgot
    refine ⟨hcb, ?_⟩
    have hf : s.joined cb ≠ flight := by
      intro e
      rw [e, hopen] at hresult
      cases hresult
    rw [update_of_ne hf]
    exact hresult

theorem Inv.invoke (h : Inv s) {flight cb : Nat} {rest : List Nat} {result : ρ}
    (htaken : s.taken flight = cb :: rest) (hresult : s.result flight = some result) : Inv { s with
      taken := update s.taken flight rest
      invoked := s.invoked ++ [(cb, result)] } := by
  have hmine := h.mine cb flight (.inr (htaken ▸ mem_cons_self))
  refine ⟨h.registered, ?_, ?_, h.finished, ?_, h.joined, ?_, ?_⟩ <;> dsimp only
  · intro f hf
    have hne : f ≠ flight := by
      rintro rfl
      rw [(h.unborn f hf).2.1] at htaken
      cases htaken
    simpa [update_of_ne hne] using h.unborn f hf
  · intro f hf
    have hne : f ≠ flight := by
      rintro rfl
      rw [hresult] at hf
      cases hf
    rw [update_of_ne hne]
    exact h.open_ f hf
  · intro cb' f hmem
    by_cases hf : f = flight
    · subst hf
      rw [update_self] at hmem
      refine h.mine cb' f (hmem.imp_right fun hrest => ?_)
      exact htaken ▸ mem_cons_of_mem cb hrest
    · exact h.mine cb' f (by simpa [update_of_ne hf] using hmem)
  · intro cb' hcb'
    have hold := h.once cb' hcb'
    simp only [Registry.places, map_append, map_cons, map_nil, count_append] at hold ⊢
    by_cases hf : s.joined cb' = flight
    · -- one place fewer among the taken callbacks, one more among the invoked ones
      rw [hf, htaken, count_cons] at hold
      rw [hf, update_self, count_singleton]
      omega
    · have hne : cb ≠ cb' := fun e => hf (e ▸ hmine.2)
      rw [update_of_ne hf, count_singleton, if_neg (by simpa using hne), add_zero]
      exact hold
  · intro cb' r hgot
    rcases mem_append.mp hgot with hgot | hgot
    · exact h.got cb' r hgot
    · obtain ⟨rfl, rfl⟩ := Prod.mk.inj (mem_singleton.mp hgot)
      exact ⟨hmine.1, by rw [hmine.2, hresult]⟩

/-! ## 5. Every run -/

theorem Inv.step (h : Inv s) {e : Event ρ} (hs : step s e = some s') : Inv s' := by
  cases e with
  | attach id =>
    cases hs
    exact h.attach id
  | finish id flight result =>
    simp only [ReadFlights.step, ite_none_right_eq_some, some.injEq] at hs
    obtain ⟨⟨hborn, rfl, hopen⟩, rfl⟩ := hs
    exact h.finish hborn (isNone_iff_eq_none.mp hopen) result
  | invoke flight =>
    simp only [ReadFlights.step] at hs
    split at hs
    · rename_i htaken hresult
      cases hs
      exact h.invoke htaken hresult
    · cases hs

theorem inv_reaches (h : Reaches step (fun _ _ => True) ({} : Registry ρ) s) : Inv s :=
  h.invariant inv_start fun _ _ _ h _ hs => h.step hs

def Registry.invocations (s : Registry ρ) (cb : Nat) : Nat := (s.invoked.map Prod.fst).count cb

def Registry.Accepts (s : Registry ρ) (flight : Nat) : Prop := ∃ id, s.flights id = some flight

theorem Inv.invocations_le (h : Inv s) (cb : Nat) : s.invocations cb ≤ 1 := by
  by_cases hcb : cb < s.nextCallback
  · have honce := h.once cb hcb
    simp only [Registry.places] at honce
    rw [Registry.invocations]
    omega
  · have hnot : cb ∉ s.invoked.map Prod.fst := by
      intro hmem
      obtain ⟨⟨cb', result⟩, hgot, rfl⟩ := mem_map.mp hmem
      exact hcb (h.got cb' result hgot).1
    rw [Registry.invocations, count_eq_zero_of_not_mem hnot]
    exact Nat.zero_le 1

theorem Inv.accepts_unique (h : Inv s) {flight flight' : Nat} (hf : s.Accepts flight)
    (hf' : s.Accepts flight') (hkey : s.keyOf flight = s.keyOf flight') : flight = flight' := by
  obtain ⟨id, hid⟩ := hf
  obtain ⟨id', hid'⟩ := hf'
  have e := ((h.registered id flight).mp hid).2.1
  have e' := ((h.registered id' flight').mp hid').2.1
  have heq : id = id' := by rw [← e, ← e', hkey]
  rw [heq, hid'] at hid
  exact (some.inj hid).symm

theorem Inv.attach_open (h : Inv s) (id : ReadFlightKey) :
    s.result ((s.attach id).joined s.nextCallback) = none := by
  cases hid : s.flights id with
  | none =>
    have hjoined : (s.attach id).joined s.nextCallback = s.nextFlight := by
      simp only [Registry.attach, hid, update_self]
    rw [hjoined]
    exact (h.unborn s.nextFlight le_rfl).2.2
  | some flight =>
    have hjoined : (s.attach id).joined s.nextCallback = flight := by
      simp only [Registry.attach, hid, update_self]
    rw [hjoined]
    exact ((h.registered id flight).mp hid).2.2

theorem Inv.invoked_or_taken (h : Inv s) {cb : Nat} (hcb : cb < s.nextCallback)
    (hdone : s.result (s.joined cb) ≠ none) :
    s.invocations cb = 1 ∨
      cb ∈ s.taken (s.joined cb) ∧ (ReadFlights.step s (.invoke (s.joined cb))).isSome = true := by
  have honce := h.once cb hcb
  simp only [Registry.places, h.finished _ hdone, count_nil, zero_add] at honce
  by_cases hmem : cb ∈ s.taken (s.joined cb)
  · refine .inr ⟨hmem, ?_⟩
    obtain ⟨head, rest, htaken⟩ := exists_cons_of_ne_nil (ne_nil_of_mem hmem)
    obtain ⟨result, hresult⟩ := ne_none_iff_exists'.mp hdone
    simp only [ReadFlights.step, htaken, hresult, isSome_some]
  · rw [count_eq_zero_of_not_mem hmem, zero_add] at honce
    exact .inl honce

/-- **No coalesced read is lost or answered twice.** In every run a callback is invoked at most
once, with the result of its flight; at most one flight of a key accepts callbacks; a new callback
joins a flight whose waiters have not been taken; and once no invocation is left every callback of a
finished flight has been invoked exactly once. -/
theorem coalesced_reads_exact (s : Registry ρ)
    (hrun : Reaches step (fun _ _ => True) ({} : Registry ρ) s) :
    (∀ cb, s.invocations cb ≤ 1) ∧
      (∀ cb result, (cb, result) ∈ s.invoked → s.result (s.joined cb) = some result) ∧
      (∀ flight flight', s.Accepts flight → s.Accepts flight' →
        s.keyOf flight = s.keyOf flight' → flight = flight') ∧
      (∀ id, s.result ((s.attach id).joined s.nextCallback) = none) ∧
      (∀ cb, cb < s.nextCallback → s.result (s.joined cb) ≠ none →
        s.invocations cb = 1 ∨
          cb ∈ s.taken (s.joined cb) ∧ (step s (.invoke (s.joined cb))).isSome = true) ∧
      ((∀ flight, step s (.invoke flight) = none) →
        ∀ cb, cb < s.nextCallback → s.result (s.joined cb) ≠ none → s.invocations cb = 1) := by
  have h := inv_reaches hrun
  refine ⟨h.invocations_le, fun cb result hgot => (h.got cb result hgot).2,
    fun _ _ => h.accepts_unique, h.attach_open, fun cb => h.invoked_or_taken, ?_⟩
  intro hquiet cb hcb hdone
  refine (h.invoked_or_taken hcb hdone).resolve_right fun hnext => ?_
  rw [hquiet] at hnext
  exact absurd hnext.2 (by simp)

/-- Two readers of one key share a flight; its first callback starts a new read of the key before
the second one is invoked. -/
def sharedRead : List (Event Nat) :=
  [.attach ⟨[1], 2⟩, .attach ⟨[1], 2⟩, .finish ⟨[1], 2⟩ 0 7, .invoke 0, .attach ⟨[1], 2⟩, .invoke 0]

def sharedReadEnd : Registry Nat := (exec step (fun _ _ => True) {} sharedRead).getD {}

theorem coalesced_reads_shared :
    (∀ cb, sharedReadEnd.invocations cb ≤ 1) ∧ sharedReadEnd.invoked = [(0, 7), (1, 7)] ∧
      sharedReadEnd.joined 2 = 1 :=
  ⟨(coalesced_reads_exact sharedReadEnd
    (@reaches_of_exec _ _ _ _ _ _ _ sharedRead rfl)).1, by decide, by decide⟩

end ReadFlights

end Cinder
