/-
A recency list: items ordered by their last access, and a budget that makes the least
recently accessed items leave; pinned items stay.
-/
import Mathlib.Data.List.Count
import Mathlib.Data.List.Induction
import Mathlib.Data.List.Nodup
import Mathlib.Algebra.Order.BigOperators.Group.List
import Mathlib.Algebra.Order.Ring.Nat

namespace Recency

open List

/-! ## 1. The machine -/

structure Item (K : Type) where
  key : K
  bytes : Nat
  pinned : Bool
  deriving DecidableEq, Repr

structure State (K : Type) where
  items : List (Item K)
  slice : Nat
  deriving DecidableEq, Repr

inductive Event (K : Type) where
  | write (item : Item K)
  | touch (key : K)
  | drop (key : K)
  | resize (slice : Nat)
  deriving DecidableEq, Repr

variable {K : Type} [DecidableEq K] {items : List (Item K)} {log keys : List K} {k : K}

def Event.accessed : Event K → Option K
  | .write item => some item.key
  | .touch key => some key
  | .drop _ => none
  | .resize _ => none

def accesses (events : List (Event K)) : List K := (events.filterMap Event.accessed).reverse

def total (items : List (Item K)) : Nat := (items.map fun x => x.bytes).sum

def without (key : K) (items : List (Item K)) : List (Item K) := items.filter fun x => x.key ≠ key

def leastRecent (items : List (Item K)) : Option (Item K) := items.reverse.find? fun x => !x.pinned

/-- Who leaves, in order, and who stays. -/
def spill (slice : Nat) : (fuel : Nat) → List (Item K) → List (Item K) × List (Item K)
  | 0, items => ([], items)
  | fuel + 1, items =>
    if slice < total items then
      match leastRecent items with
      | none => ([], items)
      | some x =>
        let (out, left) := spill slice fuel (without x.key items)
        (x :: out, left)
    else ([], items)

/-- The state in which items may have to leave. -/
def arrange (st : State K) : Event K → State K
  | .write item => { st with items := item :: without item.key st.items }
  | .touch key =>
    { st with items := st.items.filter (fun x => x.key = key) ++ without key st.items }
  | .drop key => { st with items := without key st.items }
  | .resize slice => { st with slice := slice }

/-- Only a write and a new budget make items leave. -/
def Event.spills : Event K → Bool
  | .write _ => true
  | .touch _ => false
  | .drop _ => false
  | .resize _ => true

def step (st : State K) (e : Event K) : List (Item K) × State K :=
  let st := arrange st e
  if e.spills then
    let (out, left) := spill st.slice st.items.length st.items
    (out, { st with items := left })
  else ([], st)

def run (st : State K) : List (Event K) → List (Item K) × State K
  | [] => ([], st)
  | e :: events =>
    let (out, st) := step st e
    let (outs, st) := run st events
    (out ++ outs, st)

theorem run_append (st : State K) (events events' : List (Event K)) :
    run st (events ++ events') =
      ((run st events).1 ++ (run (run st events).2 events').1,
        (run (run st events).2 events').2) := by
  induction events generalizing st with
  | nil => rfl
  | cons e events ih =>
    simp only [cons_append, run]
    rw [ih, append_assoc]

theorem run_singleton (st : State K) (e : Event K) : run st [e] = step st e := by
  simp [run]

theorem run_drops (keys : List K) (st : State K) :
    run st (keys.map .drop) =
      ([], { st with items := st.items.filter fun x => x.key ∉ keys }) := by
  induction keys generalizing st with
  | nil => simp [run]
  | cons k keys ih =>
    have hfirst : run st ((k :: keys).map .drop) =
        run { st with items := without k st.items } (keys.map .drop) := rfl
    rw [hfirst, ih]
    dsimp only [without]
    rw [filter_filter]
    refine congrArg (fun items => (([] : List (Item K)), State.mk items st.slice)) ?_
    refine filter_congr fun x _ => ?_
    simp only [mem_cons, not_or, ne_eq, Bool.decide_and, Bool.and_comm]

/-! ## 2. Order of accesses -/

/-- The last access of `k` is later than that of `k'`. -/
def Later (log : List K) (k k' : K) : Prop := log.idxOf k < log.idxOf k'

theorem Later.ne {k' : K} (h : Later log k k') : k ≠ k' := fun heq => by
  subst heq
  exact lt_irrefl _ h

theorem later_cons {k' k'' : K} (h' : k ≠ k') (h'' : k ≠ k'') :
    Later (k :: log) k' k'' ↔ Later log k' k'' := by
  unfold Later
  rw [idxOf_cons_ne _ h', idxOf_cons_ne _ h'']
  exact Nat.succ_lt_succ_iff

/-- The keys are in the order of their last accesses. -/
structure Recent (log keys : List K) : Prop where
  ordered : keys.Pairwise (Later log)
  known : ∀ k ∈ keys, k ∈ log

theorem Recent.sublist {keys' : List K} (h : Recent log keys) (hsub : keys'.Sublist keys) :
    Recent log keys' := ⟨h.ordered.sublist hsub, fun k hk => h.known k (hsub.subset hk)⟩

theorem Recent.access (h : Recent log keys) (k : K) :
    Recent (k :: log) (k :: keys.filter fun k' => k' ≠ k) := by
  have hne : ∀ k' ∈ keys.filter (fun k' => k' ≠ k), k ≠ k' := by
    intro k' hk'
    simpa using fun heq : k = k' => of_decide_eq_true (mem_filter.mp hk').2 heq.symm
  refine ⟨pairwise_cons.mpr ⟨fun k' hk' => ?_, ?_⟩, fun k' hk' => ?_⟩
  · unfold Later
    rw [idxOf_cons_self, idxOf_cons_ne _ (hne k' hk')]
    exact Nat.succ_pos _
  · exact (h.ordered.sublist filter_sublist).imp_of_mem fun ha hb hlater =>
      (later_cons (hne _ ha) (hne _ hb)).mpr hlater
  · rcases mem_cons.mp hk' with heq | hk'
    · exact heq ▸ mem_cons_self
    · exact mem_cons_of_mem _ (h.known k' (mem_filter.mp hk').1)

theorem Recent.touch (h : Recent log keys) (k : K) :
    Recent (k :: log) (keys.filter (fun k' => k' = k) ++ keys.filter fun k' => k' ≠ k) := by
  have hnodup : keys.Nodup := h.ordered.imp Later.ne
  have hsub : (keys.filter fun k' => k' = k).Sublist [k] := by
    rw [filter_eq]
    exact (replicate_sublist_replicate k).mpr (nodup_iff_count_le_one.mp hnodup k)
  exact (h.access k).sublist (hsub.append_right _)

def InOrder (log : List K) (items : List (Item K)) : Prop := Recent log (items.map fun x => x.key)

theorem map_key_without (key : K) (items : List (Item K)) :
    ((without key items).map fun x => x.key) =
      (items.map fun x => x.key).filter fun k => k ≠ key := by
  rw [filter_map]
  rfl

theorem InOrder.sublist {items' : List (Item K)} (h : InOrder log items)
    (hsub : items'.Sublist items) : InOrder log items' := Recent.sublist h (hsub.map _)

theorem spill_sublist (slice fuel : Nat) (items : List (Item K)) :
    (spill slice fuel items).2.Sublist items := by
  induction fuel generalizing items with
  | zero => exact List.Sublist.refl _
  | succ fuel ih =>
    unfold spill
    split
    · split
      · exact List.Sublist.refl _
      · exact (ih _).trans filter_sublist
    · exact List.Sublist.refl _

theorem step_write (st : State K) (item : Item K) : (step st (.write item)).2 = { st with
      items := (spill st.slice (without item.key st.items).length.succ
        (item :: without item.key st.items)).2 } := rfl

theorem mem_step_write {st : State K} {item x : Item K} (hx : x ∈ (step st (.write item)).2.items) :
    x = item ∨ x ∈ st.items := by
  rw [step_write] at hx
  have harranged := (spill_sublist _ _ _).subset hx
  exact (mem_cons.mp harranged).imp_right fun h => (mem_filter.mp h).1

theorem step_write_of_fits {st : State K} {item : Item K}
    (hnew : item.key ∉ st.items.map fun x => x.key) (hfit : total (item :: st.items) ≤ st.slice) :
    (step st (.write item)).2 = { st with items := item :: st.items } := by
  have hall : without item.key st.items = st.items :=
    filter_eq_self.mpr fun x hx => decide_eq_true fun heq => hnew (heq ▸ mem_map_of_mem hx)
  rw [step_write, hall, spill, if_neg (not_lt.mpr hfit)]

def logged (e : Event K) (log : List K) : List K := e.accessed.toList ++ log

omit [DecidableEq K] in
theorem accesses_append (events : List (Event K)) (e : Event K) :
    accesses (events ++ [e]) = logged e (accesses events) := by
  unfold accesses logged
  rw [filterMap_append, reverse_append]
  cases e <;> rfl

theorem inOrder_arrange {st : State K} (h : InOrder log st.items) (e : Event K) :
    InOrder (logged e log) (arrange st e).items := by
  cases e with
  | write item =>
    have haccess := Recent.access h item.key
    rw [← map_key_without] at haccess
    exact haccess
  | touch key =>
    have htouch := Recent.touch h key
    rw [← map_key_without, filter_map, ← map_append] at htouch
    exact htouch
  | drop key => exact h.sublist filter_sublist
  | resize slice => exact h

theorem inOrder_step {st : State K} (h : InOrder log st.items) (e : Event K) :
    InOrder (logged e log) (step st e).2.items := by
  have harrange := inOrder_arrange h e
  unfold step
  split
  · exact harrange.sublist (spill_sublist _ _ _)
  · exact harrange

theorem inOrder_run (slice : Nat) (events : List (Event K)) :
    InOrder (accesses events) (run ⟨[], slice⟩ events).2.items := by
  induction events using reverseRecOn with
  | nil => exact ⟨List.Pairwise.nil, forall_mem_nil _⟩
  | append_singleton events e ih =>
    rw [run_append, run_singleton, accesses_append]
    exact inOrder_step ih e

/-! ## 3. Who leaves -/

omit [DecidableEq K] in
theorem leastRecent_spec {x : Item K} (h : leastRecent items = some x) :
    x ∈ items ∧ x.pinned = false ∧
      ∀ y ∈ items, y.pinned = false → y ≠ x → List.Sublist [y, x] items := by
  obtain ⟨hx, later, earlier, hsplit, hlater⟩ := List.find?_eq_some_iff_append.mp h
  have hitems : items = earlier.reverse ++ x :: later.reverse := by
    rw [← reverse_reverse items, hsplit]
    simp
  refine ⟨by simp [hitems], by simpa using hx, fun y hy hpin hne => ?_⟩
  rw [hitems, mem_append, mem_cons, mem_reverse, mem_reverse] at hy
  rcases hy with hy | hy | hy
  · rw [hitems]
    exact (singleton_sublist.mpr (mem_reverse.mpr hy)).append (singleton_sublist.mpr mem_cons_self)
  · exact absurd hy hne
  · have hpinned := hlater y hy
    rw [hpin] at hpinned
    cases hpinned

theorem spill_spec {slice fuel : Nat} {out out' : List (Item K)} {x : Item K}
    (h : (spill slice fuel items).1 = out ++ x :: out') :
    x ∈ items ∧ x.pinned = false ∧
      ∀ y ∈ items, y.pinned = false → y.key ∉ out.map (fun z => z.key) → y ≠ x →
        List.Sublist [y, x] items := by
  induction fuel generalizing items out with
  | zero => simp [spill] at h
  | succ fuel ih =>
    unfold spill at h
    split at h
    · split at h
      · simp at h
      · rename_i first hfirst
        have hspec := leastRecent_spec hfirst
        cases out with
        | nil =>
          cases h
          exact ⟨hspec.1, hspec.2.1, fun y hy hpin _ hne => hspec.2.2 y hy hpin hne⟩
        | cons z out =>
          obtain ⟨rfl, hrest⟩ := List.cons.inj h
          obtain ⟨hx, hpinx, hbehind⟩ := ih hrest
          refine ⟨(mem_filter.mp hx).1, hpinx, fun y hy hpin hout hne => ?_⟩
          rw [map_cons, mem_cons, not_or] at hout
          have hstays : y ∈ without first.key items := mem_filter.mpr ⟨hy, decide_eq_true hout.1⟩
          exact (hbehind y hstays hpin hout.2 hne).trans filter_sublist
    · simp at h

theorem step_leastRecent {st : State K} (h : InOrder log st.items) {e : Event K}
    {out out' : List (Item K)} {x : Item K} (hout : (step st e).1 = out ++ x :: out') :
    x ∈ (arrange st e).items ∧ x.pinned = false ∧
      ∀ y ∈ (arrange st e).items, y.pinned = false → y.key ∉ out.map (fun z => z.key) → y ≠ x →
        Later (logged e log) y.key x.key := by
  unfold step at hout
  split at hout
  · obtain ⟨hx, hpin, hbehind⟩ := spill_spec hout
    exact ⟨hx, hpin, fun y hy hpiny hny hne =>
      rel_of_pairwise_cons ((inOrder_arrange h e).sublist (hbehind y hy hpiny hny hne)).ordered
        (mem_singleton_self _)⟩
  · simp at hout

end Recency
