/-
The graceful leave (`GossipManager::leave` of `src/cluster/gossip.cpp`): which rumors
undo it.

`leave` marks the node Dead in its own table and sends that view. `markDead` keeps the
incarnation, so the Dead record competes with the Alive rumors of the same incarnation that are
still under way: the last one delivered stays.
-/
import Cinder.Cluster.Rumors

namespace Cinder

namespace MembershipTable

open Latest List

variable (t : MembershipTable)

/-- `GossipManager::leave`: the table whose view is sent to every peer. -/
def leave : MembershipTable := t.markDead t.self

def HasAlive (id : NodeId) : Prop := ∃ r, t.recordOf id = some r ∧ r.state = .alive

def NeverAlive (id : NodeId) (ds : List Delivery) : Prop :=
  ∀ pre, pre <+: ds → ¬ (t.deliver pre).HasAlive id

variable {t : MembershipTable} {id : NodeId}

variable {r own : NodeRecord} {rs : List NodeRecord}

theorem neverAlive_nil : t.NeverAlive id [] ↔ ¬ t.HasAlive id := by
  constructor
  · exact fun h => h [] prefix_rfl
  · intro h pre hpre
    rw [prefix_nil.mp hpre]
    exact h

theorem neverAlive_cons {d : Delivery} {ds : List Delivery} :
    t.NeverAlive id (d :: ds) ↔
      ¬ t.HasAlive id ∧ (t.applyRumor d.1 d.2).NeverAlive id ds := by
  constructor
  · refine fun h => ⟨h [] nil_prefix, fun pre hpre => ?_⟩
    exact h (d :: pre) (cons_prefix_cons.mpr ⟨rfl, hpre⟩)
  · rintro ⟨hnow, hlater⟩ pre hpre
    cases pre with
    | nil => exact hnow
    | cons d' pre =>
      obtain ⟨rfl, hrest⟩ := cons_prefix_cons.mp hpre
      exact hlater pre hrest

theorem offersFor_cons (id : NodeId) (d : Delivery) (ds : List Delivery) :
    offersFor id (d :: ds) =
      if id = d.2.id then d.2.record :: offersFor id ds else offersFor id ds := by
  rw [← singleton_append, offersFor_append]
  split
  · rename_i h
    simp [offersFor, h]
  · rename_i h
    have h' : ¬ d.2.id = id := fun e => h e.symm
    simp [offersFor, h']

def Up (r : Option NodeRecord) : Prop := ∃ q, r = some q ∧ q.state = .alive

/-- The record is not Alive at any time while the offers are heard. -/
def Down (isSelf : Bool) : Option NodeRecord → List NodeRecord → Prop
  | r, [] => ¬ Up r
  | r, offer :: rs => ¬ Up r ∧ Down isSelf (heard isSelf offer r) rs

theorem up_some : Up (some r) ↔ r.state = .alive := by simp [Up]

theorem not_up_none : ¬ Up none := by simp [Up]

theorem Down.start {isSelf : Bool} {before : Option NodeRecord} (h : Down isSelf before rs) :
    ¬ Up before := by
  cases rs with
  | nil => exact h
  | cons offer rs => exact h.1

theorem neverAlive_iff (ds : List Delivery) :
    t.NeverAlive id ds ↔ Down (decide (id = t.self)) (t.recordOf id) (offersFor id ds) := by
  induction ds generalizing t with
  | nil => exact neverAlive_nil
  | cons d ds ih =>
    rw [neverAlive_cons, ih, recordOf_applyRumor, self_applyRumor, offersFor_cons]
    split
    · rename_i hid
      rw [← hid]
      exact Iff.rfl
    · exact and_iff_right_of_imp Down.start

/-! ## 1. The leaving node -/

theorem heard_true_dead {i : UInt64} :
    heard true r (some ⟨.dead, i⟩) =
      if r.incarnation < i ∨ r = ⟨.dead, i⟩ then some ⟨.dead, i⟩
      else if r.state = .alive then some r else some (refuted ⟨.dead, i⟩ r.incarnation) := by
  rw [heard_some]
  by_cases hstale : r.incarnation < i
  · rw [if_pos hstale, if_pos (.inl hstale)]
  by_cases hsame : r = ⟨.dead, i⟩
  · rw [if_neg hstale, if_pos hsame, if_pos (.inr hsame)]
  · rw [if_neg hstale, if_neg hsame, if_neg (not_or.mpr ⟨hstale, hsame⟩)]
    by_cases hstate : r.state = .alive
    · rw [if_neg (by simp [hstate]), if_pos hstate]
    · rw [if_pos ⟨rfl, hstate⟩, if_neg hstate]

theorem down_dead_iff {i : UInt64} :
    Down true (some ⟨.dead, i⟩) rs ↔ ∀ r ∈ rs, r.incarnation < i ∨ r = ⟨.dead, i⟩ := by
  have hdown : ¬ Up (some ⟨.dead, i⟩) := by simp [up_some]
  induction rs with
  | nil => exact iff_of_true hdown (forall_mem_nil _)
  | cons r rs ih =>
    rw [Down, heard_true_dead, forall_mem_cons, and_iff_right hdown]
    by_cases hold : r.incarnation < i ∨ r = ⟨.dead, i⟩
    · rw [if_pos hold, and_iff_right hold]
      exact ih
    · refine iff_of_false (fun hs => absurd ?_ hs.start) fun hs => hold hs.1
      rw [if_neg hold]
      split
      · rename_i hstate
        exact up_some.mpr hstate
      · exact up_some.mpr rfl

/-! ## 2. The peer -/

/-- Every Alive rumor comes below something recorded or delivered before it. -/
def Outbid (known : List NodeRecord) (rs : List NodeRecord) : Prop :=
  ∀ pre r post, rs = pre ++ r :: post → r.state = .alive → ∃ q ∈ known ++ pre, rank r < rank q

theorem outbid_cons {known : List NodeRecord} :
    Outbid known (r :: rs) ↔
      (r.state = .alive → ∃ q ∈ known, rank r < rank q) ∧ Outbid (known ++ [r]) rs := by
  constructor
  · intro h
    refine ⟨fun hstate => by simpa using h [] r rs rfl hstate, ?_⟩
    rintro pre s post rfl hstate
    simpa using h (r :: pre) s post rfl hstate
  · rintro ⟨hhead, htail⟩ pre s post heq hstate
    cases pre with
    | nil =>
      obtain ⟨rfl, rfl⟩ := List.cons.inj heq
      simpa using hhead hstate
    | cons r' pre =>
      obtain ⟨rfl, hrest⟩ := List.cons.inj heq
      simpa using htail pre s post hrest hstate

theorem Outbid.congr {known known' : List NodeRecord}
    (h : ∀ n : Nat, (∃ q ∈ known, n < rank q) ↔ ∃ q ∈ known', n < rank q) :
    Outbid known rs ↔ Outbid known' rs := by
  have hmem : ∀ (known pre : List NodeRecord) (n : Nat),
      (∃ q ∈ known ++ pre, n < rank q) ↔ (∃ q ∈ known, n < rank q) ∨ ∃ q ∈ pre, n < rank q := by
    intro known pre n
    simp only [mem_append, or_and_right, exists_or]
  unfold Outbid
  simp only [hmem, h]

theorem outbid_keep : Outbid [keep rank own r] rs ↔ Outbid [own, r] rs := by
  refine Outbid.congr fun n => ?_
  have hle := @le_keep NodeRecord Nat _ rank own r
  have hmem : keep rank own r = own ∨ keep rank own r = r := by
    unfold keep
    split
    · exact .inl rfl
    · exact .inr rfl
  simp only [exists_eq_left, mem_cons, not_mem_nil, or_false, exists_eq_or_imp]
  constructor
  · rcases hmem with e | e
    · exact fun hlt => .inl (e ▸ hlt)
    · exact fun hlt => .inr (e ▸ hlt)
  · rintro (hlt | hlt)
    · exact hlt.trans_le hle.1
    · exact hlt.trans_le hle.2

theorem down_some_iff (hown : own.state ≠ .alive) : Down false (some own) rs ↔ Outbid [own] rs := by
  induction rs generalizing own with
  | nil =>
    refine iff_of_true (mt up_some.mp hown) fun pre r post heq => ?_
    exact absurd heq (by simp)
  | cons r rs ih =>
    rw [Down, heard_false_some, outbid_cons, and_iff_right (mt up_some.mp hown)]
    by_cases halive : (keep rank own r).state = .alive
    · -- the rumor was taken: it is Alive and nothing outbids it
      have htaken : ¬ rank r < rank own := by
        intro hlt
        rw [keep, if_pos hlt] at halive
        exact hown halive
      refine iff_of_false (fun hs => hs.start (up_some.mpr halive)) fun hs => ?_
      rw [keep, if_neg htaken] at halive
      exact absurd (hs.1 halive) (by simpa using htaken)
    · rw [ih halive, outbid_keep]
      refine (and_iff_right fun hstate => ?_).symm
      by_contra hnone
      have htaken : ¬ rank r < rank own := by simpa using hnone
      rw [keep, if_neg htaken] at halive
      exact halive hstate

theorem down_none_iff : Down false none rs ↔ ∀ r ∈ rs, r.state ≠ .alive := by
  induction rs with
  | nil => exact iff_of_true not_up_none (forall_mem_nil _)
  | cons r rs ih =>
    rw [Down, heard, forall_mem_cons, and_iff_right not_up_none]
    by_cases hstate : r.state = .alive
    · rw [if_neg (not_not.mpr hstate)]
      exact iff_of_false (fun hs => hs.start (up_some.mpr hstate)) fun hs => hs.1 hstate
    · rw [if_pos hstate, ih, and_iff_right hstate]

/-! ## 3. The leave -/

/-- The rumors do not bring back a node that left with incarnation `i`, at a peer that had the
record `before` when it handled the node's last view. -/
def PeerKeeps (before : Option NodeRecord) (i : UInt64) (rs : List NodeRecord) : Prop :=
  match before with
  | none => ∀ r ∈ rs, r.state ≠ .alive
  | some own => (own.incarnation ≤ i ∨ own.state ≠ .alive) ∧ Outbid [own, ⟨.dead, i⟩] rs

theorem neverAlive_handleMessage_iff {x p : MembershipTable} (hx : x.Wf)
    (hself : x.recordOf x.self = some own) (hne : x.self ≠ p.self) (now : Nanos)
    (ds : List Delivery) :
    (p.handleMessage now x.leave.snapshot).NeverAlive x.self ds ↔
      PeerKeeps (p.recordOf x.self) own.incarnation (offersFor x.self ds) := by
  have hleft : x.leave.recordOf x.self = some ⟨.dead, own.incarnation⟩ := by
    rw [leave, recordOf_markDead, if_pos rfl, hself]
    rfl
  have hview := recordOf_handleMessage (b := p) (show x.leave.Wf from hx.markDead) now x.self
  rw [hleft] at hview
  have hne' : x.self ≠ (p.handleMessage now x.leave.snapshot).self := by
    rwa [handleMessage, self_deliver]
  rw [neverAlive_iff, decide_eq_false hne']
  cases hbefore : p.recordOf x.self with
  | none =>
    rw [hbefore] at hview
    rw [hview]
    exact down_none_iff
  | some before =>
    rw [hbefore] at hview
    replace hview : (p.handleMessage now x.leave.snapshot).recordOf x.self =
        some (keep rank before ⟨.dead, own.incarnation⟩) := by
      rw [hview, decide_eq_false hne]
      exact heard_false_some _ _
    rw [hview]
    by_cases hdown : before.incarnation ≤ own.incarnation ∨ before.state ≠ .alive
    · have hstate : (keep rank before ⟨.dead, own.incarnation⟩).state ≠ .alive := by
        unfold keep
        split
        · rename_i hlt
          exact hdown.resolve_left (UInt64.not_le.mpr (rank_lt.mp hlt))
        · simp
      rw [down_some_iff hstate, outbid_keep]
      exact ⟨fun hs => ⟨hdown, hs⟩, fun hs => hs.2⟩
    · refine ⟨fun hs => absurd ?_ hs.start, fun hs => absurd hs.1 hdown⟩
      rw [not_or, not_not] at hdown
      have hlt : rank ⟨.dead, own.incarnation⟩ < rank before :=
        rank_lt.mpr (UInt64.not_le.mp hdown.1)
      rw [up_some, keep, if_pos hlt]
      exact hdown.2

/-- **A leave sticks exactly under these rumors.** At the node itself: older ones, and the Dead
record of its own incarnation. At a peer that handled the last view: Alive rumors that something
recorded or delivered before outbids; if it did not know the node, no Alive ones. -/
theorem leave_sticks_iff (x p : MembershipTable) (hx : x.Wf) (own : NodeRecord)
    (hself : x.recordOf x.self = some own) (hne : x.self ≠ p.self) (now : Nanos)
    (toX toP : List Delivery) :
    (x.leave.NeverAlive x.self toX ∧
        (p.handleMessage now x.leave.snapshot).NeverAlive x.self toP) ↔
      (∀ r ∈ offersFor x.self toX,
          r.incarnation < own.incarnation ∨ r = ⟨.dead, own.incarnation⟩) ∧
        PeerKeeps (p.recordOf x.self) own.incarnation (offersFor x.self toP) := by
  have hleft : x.leave.recordOf x.leave.self = some ⟨.dead, own.incarnation⟩ := by
    rw [leave, markDead, self_mark, ← markDead, recordOf_markDead, if_pos rfl, hself]
    rfl
  have hx' := @neverAlive_iff x.leave x.leave.self toX
  rw [hleft, decide_eq_true rfl, down_dead_iff, leave, markDead, self_mark, ← markDead] at hx'
  exact and_congr hx' (neverAlive_handleMessage_iff hx hself hne now toP)

/-- `A` after it has refuted a suspicion, at incarnation 1. -/
def refutedA : MembershipTable := knowsB.applyRumor 0 { id := [65], state := .suspect }

/-- The record `A` had of itself before the refutation is delivered after the leave, to `A` and to
the peer, and changes nothing. -/
theorem leave_sticks_under_old_rumor :
    { id := [65] } ∈ knowsB.snapshot ∧ refutedA.recordOf refutedA.self = some ⟨.alive, 1⟩ ∧
      refutedA.leave.NeverAlive refutedA.self [(0, { id := [65] })] ∧
      (knowsA.handleMessage 0 refutedA.leave.snapshot).NeverAlive refutedA.self
        [(0, { id := [65] })] := by
  have hpeer : PeerKeeps (knowsA.recordOf refutedA.self) 1
      (offersFor refutedA.self [(0, { id := [65] })]) := by
    refine ⟨.inl (by decide), outbid_cons.mpr ⟨fun _ => ⟨⟨.dead, 1⟩, by decide, by decide⟩, ?_⟩⟩
    intro pre r post h
    simp at h
  exact ⟨by decide, by decide, (leave_sticks_iff refutedA knowsA (wf_knowsB.applyRumor _ _)
    ⟨.alive, 1⟩ (by decide) (by decide) 0 _ _).mpr ⟨by decide, hpeer⟩⟩

/-- The record `A` had of itself before it left, delivered again: the peer has `A` Alive, and so has
`A`. -/
theorem leave_undone_by_own_rumor :
    { id := [65] } ∈ knowsB.snapshot ∧
      (knowsA.handleMessage 0 knowsB.leave.snapshot).recordOf [65] = some ⟨.dead, 0⟩ ∧
      ((knowsA.handleMessage 0 knowsB.leave.snapshot).deliver
        [(0, { id := [65] })]).recordOf [65] = some ⟨.alive, 0⟩ ∧
      (knowsB.leave.deliver [(0, { id := [65] })]).recordOf [65] = some ⟨.alive, 0⟩ := by
  decide

end MembershipTable

end Cinder
