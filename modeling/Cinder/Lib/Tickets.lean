/-
A bounded queue whose elements are handed out and later taken back by ticket.

Every element taken in gets a number of its own, its ticket. Handing out notes the tickets; a
ticket that comes back takes out the element with that ticket, if it is still there, and never
another one.
-/
import Cinder.Lib.BoundedFifo

namespace Tickets

open BoundedFifo List

variable {α κ : Type}

/-- What was handed out: the ticket, and how many elements had been taken in before. -/
structure Issue where
  ticket : Nat
  pushes : Nat
  deriving DecidableEq, Repr

structure Queue (α : Type) where
  entries : List (Nat × α) := []
  pushes : Nat := 0
  issued : List Issue := []
  deriving DecidableEq, Repr

/-- The rules of a queue, over elements with tickets. -/
def ticketed (R : Rules α κ) : Rules (Nat × α) κ where
  place e := R.place e.2
  newer e f := R.newer e.2 f.2
  cost e := R.cost e.2
  capacity := R.capacity
  budget := R.budget

/-! ## 1. The operations -/

namespace Queue

def push [DecidableEq κ] (R : Rules α κ) (q : Queue α) (a : α) : Bool × Queue α :=
  if accepts (ticketed R) q.entries (q.pushes, a) then
    (true, { q with
      entries := kept (ticketed R) q.entries (q.pushes, a) ++ [(q.pushes, a)]
      pushes := q.pushes + 1 })
  else (false, q)

/-- Hand out from the front what is not gone, up to a number, and take out what is gone. -/
def handOut (gone : α → Bool) (n : Nat) (q : Queue α) : List α × Queue α :=
  let r := sweep (fun e : Nat × α => gone e.2) n q.entries
  (r.1.map Prod.snd, { q with
    entries := r.2
    issued := q.issued ++ r.1.map fun e => ⟨e.1, q.pushes⟩ })

/-- The ticket that was handed out in this place comes back. -/
def redeem (n : Nat) (q : Queue α) : Queue α :=
  match q.issued[n]? with
  | some issue => { q with entries := q.entries.filter fun e => e.1 ≠ issue.ticket }
  | none => q

def removeFirst (p : α → Bool) (q : Queue α) : Queue α :=
  { q with entries := q.entries.eraseP fun e => p e.2 }

/-! ## 2. Well-formed queues -/

/-- One element per place and per ticket, and no more than the capacity. -/
structure Wf (R : Rules α κ) (q : Queue α) : Prop where
  places : (q.entries.map fun e => R.place e.2).Nodup
  tickets : (q.entries.map Prod.fst).Nodup
  old : ∀ e ∈ q.entries, e.1 < q.pushes
  length : q.entries.length ≤ R.capacity

variable {R : Rules α κ} {q : Queue α}

theorem wf_empty : ({} : Queue α).Wf R :=
  ⟨nodup_nil, nodup_nil, fun _ he => absurd he not_mem_nil, Nat.zero_le _⟩

theorem Wf.of_sublist (h : q.Wf R) {q' : Queue α} (hsub : q'.entries.Sublist q.entries)
    (hpushes : q'.pushes = q.pushes) : q'.Wf R where
  places := h.places.sublist (hsub.map _)
  tickets := h.tickets.sublist (hsub.map _)
  old e he := hpushes ▸ h.old e (hsub.subset he)
  length := hsub.length_le.trans h.length

theorem Wf.handOut (h : q.Wf R) (gone : α → Bool) (n : Nat) : (q.handOut gone n).2.Wf R :=
  h.of_sublist (sweep_sublist _ _ _).2 rfl

theorem Wf.redeem (h : q.Wf R) (n : Nat) : (q.redeem n).Wf R := by
  unfold Queue.redeem
  split
  · exact h.of_sublist filter_sublist rfl
  · exact h

theorem Wf.removeFirst (h : q.Wf R) (p : α → Bool) : (q.removeFirst p).Wf R :=
  h.of_sublist eraseP_sublist rfl

/-! ## 3. What the operations do -/

/-- **What a handing out does**: it returns the first elements that are not gone, notes their
tickets, and takes out nothing but gone elements it passed. -/
structure HandOutLaw (gone : α → Bool) (n : Nat) (q : Queue α) : Prop where
  returned : (q.handOut gone n).1 = ((q.entries.map Prod.snd).filter fun a => !gone a).take n
  noted : (q.handOut gone n).2.issued =
    q.issued ++ ((q.entries.filter fun e => !gone e.2).take n).map fun e => ⟨e.1, q.pushes⟩
  removed : ∃ passed rest, q.entries = passed ++ rest ∧
    (q.handOut gone n).2.entries = (passed.filter fun e => !gone e.2) ++ rest ∧
    (q.handOut gone n).1 = (passed.filter fun e => !gone e.2).map Prod.snd

theorem handOutLaw (gone : α → Bool) (n : Nat) (q : Queue α) : HandOutLaw gone n q where
  returned := by
    show (sweep _ n q.entries).1.map Prod.snd = _
    rw [sweep_fst, filter_map, ← map_take]
    rfl
  noted := by
    show q.issued ++ (sweep _ n q.entries).1.map _ = _
    rw [sweep_fst]
  removed := by
    obtain ⟨passed, rest, hentries, hfst, hsnd⟩ :=
      sweep_snd (fun e : Nat × α => gone e.2) n q.entries
    exact ⟨passed, rest, hentries, hsnd, congrArg (List.map Prod.snd) hfst⟩

variable [DecidableEq κ]

/-- **What a push does**: it turns away what is larger than the budget or older than what has the
place; else the element goes to the end, and only the oldest elements make room for it. -/
structure PushLaw (R : Rules α κ) (q : Queue α) (a : α) : Prop where
  tooLarge : R.budget < R.cost a → q.push R a = (false, q)
  older : (∃ e ∈ q.entries, R.place e.2 = R.place a ∧ R.newer a e.2 = false) →
    q.push R a = (false, q)
  taken : R.cost a ≤ R.budget →
    (∀ e ∈ q.entries, R.place e.2 = R.place a → R.newer a e.2 = true) →
    (q.push R a).1 = true ∧ (q.push R a).2.pushes = q.pushes + 1 ∧
      (q.push R a).2.issued = q.issued ∧
      (∃ k, (q.push R a).2.entries =
        (q.entries.filter fun e => R.place e.2 ≠ R.place a).drop k ++ [(q.pushes, a)]) ∧
      (q.push R a).2.entries.length ≤ R.capacity ∧
      ((q.push R a).2.entries.map fun e => R.cost e.2).sum ≤ R.budget

theorem accepts_ticketed (h : q.Wf R) (a : α) :
    accepts (ticketed R) q.entries (q.pushes, a) = true ↔
      R.cost a ≤ R.budget ∧ ∀ e ∈ q.entries, R.place e.2 = R.place a → R.newer a e.2 = true :=
  accepts_iff (R := ticketed R) h.places

theorem push_of_not_accepts {a : α}
    (h : ¬ accepts (ticketed R) q.entries (q.pushes, a) = true) : q.push R a = (false, q) :=
  if_neg h

theorem Wf.pushLaw (hcap : 0 < R.capacity) (h : q.Wf R) (a : α) : PushLaw R q a where
  tooLarge hcost := by
    refine push_of_not_accepts fun haccepts => ?_
    exact absurd ((accepts_ticketed h a).mp haccepts).1 (not_le.mpr hcost)
  older hold := by
    obtain ⟨e, he, hplace, hnewer⟩ := hold
    refine push_of_not_accepts fun haccepts => ?_
    have htrue := ((accepts_ticketed h a).mp haccepts).2 e he hplace
    rw [hnewer] at htrue
    cases htrue
  taken hcost hall := by
    have haccepts := (accepts_ticketed h a).mpr ⟨hcost, hall⟩
    obtain ⟨k, hk⟩ := exists_kept_eq (R := ticketed R) h.places (q.pushes, a)
    obtain ⟨hlen, hload⟩ := kept_fits (R := ticketed R) hcap h.length (a := (q.pushes, a)) hcost
    rw [Queue.push, if_pos haccepts]
    exact ⟨rfl, rfl, rfl, ⟨k, congrArg (· ++ [(q.pushes, a)]) hk⟩, hlen, hload⟩

theorem Wf.push (hcap : 0 < R.capacity) (h : q.Wf R) (a : α) : (q.push R a).2.Wf R := by
  by_cases haccepts : accepts (ticketed R) q.entries (q.pushes, a) = true
  · have hcost := ((accepts_ticketed h a).mp haccepts).1
    have hsub := kept_sublist (R := ticketed R) q.entries (q.pushes, a)
    rw [Queue.push, if_pos haccepts]
    refine ⟨places_kept (R := ticketed R) h.places _, ?_, ?_,
      (kept_fits (R := ticketed R) hcap h.length (a := (q.pushes, a)) hcost).1⟩
    · rw [map_append, map_singleton, nodup_append]
      refine ⟨h.tickets.sublist (hsub.map _), nodup_singleton _, ?_⟩
      intro t ht u hu
      obtain ⟨e, he, rfl⟩ := mem_map.mp ht
      rw [mem_singleton.mp hu]
      exact (h.old e (hsub.subset he)).ne
    · intro e he
      rcases mem_append.mp he with he | he
      · exact (h.old e (hsub.subset he)).trans (Nat.lt_succ_self _)
      · rw [mem_singleton.mp he]
        exact Nat.lt_succ_self _
  · rw [push_of_not_accepts haccepts]
    exact h

end Queue

end Tickets
