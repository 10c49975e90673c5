/-
Rumors in any order (`src/cluster/membership.cpp`, `src/cluster/gossip.cpp`): when a
set of rumors has one outcome, and what tables have in common once an exchange of views
changes nothing.

A rumor with the recorded incarnation overwrites the record, so a record is the LAST of the rumors
with the greatest incarnation; an unknown node is first recorded by an Alive rumor.
-/
import Cinder.Cluster.Membership
import Cinder.Lib.Latest

namespace Cinder

open List UInt64

namespace MembershipTable

open Latest

/-! ## 1. Deliveries -/

abbrev Delivery := Nanos × NodeInfo

variable (t : MembershipTable)

def deliver (ds : List Delivery) : MembershipTable := ds.foldl (fun t d => t.applyRumor d.1 d.2) t

/-- `GossipManager::handleMessage`, with the decoded view. -/
def handleMessage (now : Nanos) (view : List NodeInfo) : MembershipTable :=
  t.deliver (view.map fun rumor => (now, rumor))

/-- The records the deliveries offer for a node, in order. -/
def offersFor (id : NodeId) (ds : List Delivery) : List NodeRecord :=
  (ds.filter fun d => d.2.id = id).map fun d => d.2.record

@[simp] theorem self_deliver (ds : List Delivery) : (t.deliver ds).self = t.self := by
  induction ds generalizing t with
  | nil => rfl
  | cons d ds ih => exact (ih _).trans (self_applyRumor _ _)

theorem offersFor_append (id : NodeId) (ds ds' : List Delivery) :
    offersFor id (ds ++ ds') = offersFor id ds ++ offersFor id ds' := by
  rw [offersFor, filter_append, map_append]
  rfl

variable {id : NodeId} {r r' own : NodeRecord} {rs rs' : List NodeRecord}
  {rumors : Multiset NodeInfo} {t a b : MembershipTable}

theorem mem_offersFor {ds : List Delivery} :
    r ∈ offersFor id ds ↔ ∃ d ∈ ds, d.2.id = id ∧ d.2.record = r := by
  simp only [offersFor, mem_map, mem_filter, decide_eq_true_eq, and_assoc]

theorem recordOf_deliver (t : MembershipTable) (ds : List Delivery) (id : NodeId) :
    (t.deliver ds).recordOf id =
      (offersFor id ds).foldl (fun own r => heard (id = t.self) r own) (t.recordOf id) := by
  induction ds generalizing t with
  | nil => rfl
  | cons d ds ih =>
    refine (ih (t.applyRumor d.1 d.2)).trans ?_
    rw [recordOf_applyRumor, self_applyRumor]
    by_cases hid : id = d.2.id
    · have hcons : offersFor id (d :: ds) = d.2.record :: offersFor id ds := by
        rw [offersFor, filter_cons_of_pos (by simp [hid]), map_cons, offersFor]
      rw [if_pos hid, hcons, foldl_cons, ← hid]
    · have hcons : offersFor id (d :: ds) = offersFor id ds := by
        rw [offersFor, filter_cons_of_neg (by simpa using fun h => hid h.symm), offersFor]
      rw [if_neg hid, hcons]

/-! ## 2. Nodes other than self -/

def rank (r : NodeRecord) : Nat := r.incarnation.toNat

theorem rank_lt : rank r < rank r' ↔ r.incarnation < r'.incarnation := lt_iff_toNat_lt.symm

theorem heard_false_some (own r : NodeRecord) :
    heard false r (some own) = some (keep rank own r) := by
  rw [heard_some, keep]
  simp only [rank_lt]
  split
  · rfl
  split
  · rename_i h
    rw [h]
  · rw [if_neg (by simp)]

theorem foldl_heard_some (own : NodeRecord) (rs : List NodeRecord) :
    rs.foldl (fun own r => heard false r own) (some own) =
      some (rs.foldl (keep rank) own) := by
  induction rs generalizing own with
  | nil => rfl
  | cons r rs ih => rw [foldl_cons, foldl_cons, heard_false_some, ih]

theorem foldl_heard_none (h : ∀ r ∈ rs, r.state ≠ .alive) :
    rs.foldl (fun own r => heard false r own) none = none := by
  induction rs with
  | nil => rfl
  | cons r rs ih =>
    rw [foldl_cons, heard, if_pos (h r mem_cons_self)]
    exact ih fun r hr => h r (mem_cons_of_mem _ hr)

theorem foldl_heard_none_cons {pre post : List NodeRecord} (h : ∀ r ∈ pre, r.state ≠ .alive)
    (hr : r.state = .alive) :
    (pre ++ r :: post).foldl (fun own r => heard false r own) none =
      some (post.foldl (keep rank) r) := by
  rw [foldl_append, foldl_heard_none h, foldl_cons, heard, if_neg (not_not.mpr hr),
    foldl_heard_some]

theorem exists_first_alive (h : ∃ r ∈ rs, r.state = .alive) :
    ∃ pre r post, rs = pre ++ r :: post ∧ (∀ q ∈ pre, q.state ≠ .alive) ∧ r.state = .alive := by
  induction rs with
  | nil => simp at h
  | cons q rs ih =>
    by_cases hq : q.state = .alive
    · exact ⟨[], q, rs, rfl, by simp, hq⟩
    · obtain ⟨r, hr, hstate⟩ := h
      have hmem : r ∈ rs := (mem_cons.mp hr).resolve_left fun e => hq (e ▸ hstate)
      obtain ⟨pre, r', post, rfl, hpre, hr'⟩ := ih ⟨r, hmem, hstate⟩
      refine ⟨q :: pre, r', post, rfl, ?_, hr'⟩
      rintro p (_ | ⟨_, hp⟩)
      · exact hq
      · exact hpre p hp

/-! ## 3. When the order does not matter -/

/-- A rumor with the greatest incarnation among `rs`. -/
def Newest (rs : List NodeRecord) (r : NodeRecord) : Prop := r ∈ rs ∧ ∀ q ∈ rs, rank q ≤ rank r

/-- The newest rumors about a node leave no choice: those that reach a recorded node have one
state, and those about a node that some rumor introduces are Alive. -/
def Settled (own : Option NodeRecord) (rs : List NodeRecord) : Prop :=
  match own with
  | some own =>
    ∀ r r', Newest rs r → Newest rs r' → rank own ≤ rank r → r.state = r'.state
  | none => (∃ r ∈ rs, r.state = .alive) → ∀ r, Newest rs r → r.state = .alive

theorem Newest.congr (h : ∀ r, r ∈ rs ↔ r ∈ rs') (hr : Newest rs r) : Newest rs' r :=
  ⟨(h r).mp hr.1, fun q hq => hr.2 q ((h q).mpr hq)⟩

theorem Newest.incarnation_eq (hr : Newest rs r) (hr' : Newest rs r') :
    r.incarnation = r'.incarnation := toNat.inj (le_antisymm (hr'.2 r hr.1) (hr.2 r' hr'.1))

theorem Settled.congr {own : Option NodeRecord} (h : ∀ r, r ∈ rs ↔ r ∈ rs') (hs : Settled own rs) :
    Settled own rs' := by
  have hnewest : ∀ {r}, Newest rs' r → Newest rs r := Newest.congr fun r => (h r).symm
  cases own with
  | some own => exact fun r r' hr hr' => hs r r' (hnewest hr) (hnewest hr')
  | none =>
    rintro ⟨q, hq, hstate⟩ r hr
    exact hs ⟨q, (h q).mpr hq, hstate⟩ r (hnewest hr)

theorem foldl_keep_newest (hr : Newest rs r) (hle : rank own ≤ rank r) :
    Newest rs (rs.foldl (keep rank) own) :=
  ⟨foldl_keep_mem_offers hr.1 hle,
    fun q hq => le_foldl_keep own rs q (mem_cons_of_mem _ hq)⟩

theorem foldl_heard_none_newest (hr : Newest rs r)
    (hr_state : ∀ r, Newest rs r → r.state = .alive) :
    ∃ r', Newest rs r' ∧ rs.foldl (fun own r => heard false r own) none = some r' := by
  obtain ⟨pre, a, post, rfl, hpre, ha⟩ := exists_first_alive ⟨r, hr.1, hr_state r hr⟩
  refine ⟨_, ?_, foldl_heard_none_cons hpre ha⟩
  -- a newest rumor is Alive, so it is not among those lost before the first Alive one
  have hmem : r ∈ a :: post := (mem_append.mp hr.1).resolve_left fun h =>
    hpre r h (hr_state r hr)
  have hge : rank r ≤ rank (post.foldl (keep rank) a) := le_foldl_keep a post r hmem
  exact ⟨mem_append_right _ (foldl_keep_mem a post), fun q hq => (hr.2 q hq).trans hge⟩

theorem exists_newest (h : rs ≠ []) : ∃ r, Newest rs r := by
  obtain ⟨own, rs, rfl⟩ := exists_cons_of_ne_nil h
  exact ⟨_, foldl_keep_mem own rs, le_foldl_keep own rs⟩

theorem Settled.foldl_heard_eq {own : Option NodeRecord} (hs : Settled own rs)
    (h : ∀ r, r ∈ rs ↔ r ∈ rs') :
    rs.foldl (fun own r => heard false r own) own =
      rs'.foldl (fun own r => heard false r own) own := by
  cases own with
  | some own =>
    rw [foldl_heard_some, foldl_heard_some]
    by_cases hreach : ∃ r, Newest rs r ∧ rank own ≤ rank r
    · obtain ⟨r, hr, hle⟩ := hreach
      have h₁ := foldl_keep_newest hr hle
      have h₂ := (foldl_keep_newest (hr.congr h) hle).congr fun r => (h r).symm
      have hinc := h₁.incarnation_eq h₂
      have hstate := hs _ _ h₁ h₂ ((congrArg toNat (hr.incarnation_eq h₁)).le.trans' hle)
      exact congrArg some (NodeRecord.ext hstate hinc)
    · have hlt : ∀ q ∈ rs, rank q < rank own := by
        intro q hq
        obtain ⟨r, hr⟩ := exists_newest (ne_nil_of_mem hq)
        have hnot : ¬ rank own ≤ rank r := fun hle => hreach ⟨r, hr, hle⟩
        exact (hr.2 q hq).trans_lt (not_le.mp hnot)
      rw [foldl_keep_of_lt hlt, foldl_keep_of_lt fun q hq => hlt q ((h q).mpr hq)]
  | none =>
    by_cases halive : ∃ r ∈ rs, r.state = .alive
    · have hnewest := hs halive
      obtain ⟨q, hq, -⟩ := halive
      obtain ⟨r, hr⟩ := exists_newest (ne_nil_of_mem hq)
      obtain ⟨r₁, h₁, e₁⟩ := foldl_heard_none_newest hr hnewest
      obtain ⟨r₂, h₂, e₂⟩ := foldl_heard_none_newest (hr.congr h) fun r hr =>
        hnewest r (hr.congr fun r => (h r).symm)
      have h₂' := h₂.congr fun r => (h r).symm
      rw [e₁, e₂]
      exact congrArg some (NodeRecord.ext ((hnewest _ h₁).trans (hnewest _ h₂').symm)
        (h₁.incarnation_eq h₂'))
    · push Not at halive
      rw [foldl_heard_none halive, foldl_heard_none fun q hq => halive q ((h q).mpr hq)]

/-- The deliveries of a multiset of rumors: each is delivered at least as often as it occurs, in
any order, and nothing else is. -/
structure Delivers (rumors : Multiset NodeInfo) (ds : List Delivery) : Prop where
  all : rumors ≤ ((ds.map Prod.snd : List NodeInfo) : Multiset NodeInfo)
  only : ∀ d ∈ ds, d.2 ∈ rumors

/-- Whatever the order and the duplications, the table ends with the same records. -/
def Confluent (t : MembershipTable) (rumors : Multiset NodeInfo) : Prop :=
  ∀ ds ds', Delivers rumors ds → Delivers rumors ds' →
    ∀ id, (t.deliver ds).recordOf id = (t.deliver ds').recordOf id

def atZero (rumors : List NodeInfo) : List Delivery := rumors.map fun r => (0, r)

theorem offersFor_atZero_append (id : NodeId) (l l' : List NodeInfo) :
    offersFor id (atZero (l ++ l')) = offersFor id (atZero l) ++ offersFor id (atZero l') := by
  rw [atZero, map_append, offersFor_append]
  rfl

theorem mem_offersFor_atZero {l : List NodeInfo} :
    r ∈ offersFor id (atZero l) ↔ ∃ rumor ∈ l, rumor.id = id ∧ rumor.record = r := by
  rw [mem_offersFor]
  constructor
  · rintro ⟨d, hd, hid, hr⟩
    obtain ⟨rumor, hrumor, rfl⟩ := mem_map.mp hd
    exact ⟨rumor, hrumor, hid, hr⟩
  · rintro ⟨rumor, hrumor, hid, hr⟩
    exact ⟨(0, rumor), mem_map.mpr ⟨rumor, hrumor, rfl⟩, hid, hr⟩

theorem offersFor_atZero_singleton (rumor : NodeInfo) :
    offersFor rumor.id (atZero [rumor]) = [rumor.record] := by
  simp [offersFor, atZero]

noncomputable def rumorsFor (id : NodeId) (rumors : Multiset NodeInfo) : List NodeRecord :=
  offersFor id (atZero rumors.toList)

theorem mem_rumorsFor :
    r ∈ rumorsFor id rumors ↔ ∃ rumor ∈ rumors, rumor.id = id ∧ rumor.record = r := by
  simp only [rumorsFor, mem_offersFor_atZero, Multiset.mem_toList]

theorem Delivers.mem_iff {ds : List Delivery} (h : Delivers rumors ds) (id : NodeId)
    (r : NodeRecord) : r ∈ rumorsFor id rumors ↔ r ∈ offersFor id ds := by
  rw [mem_rumorsFor, mem_offersFor]
  constructor
  · rintro ⟨rumor, hrumor, hid, hr⟩
    obtain ⟨d, hd, rfl⟩ := mem_map.mp (Multiset.mem_coe.mp (Multiset.mem_of_le h.all hrumor))
    exact ⟨d, hd, hid, hr⟩
  · rintro ⟨d, hd, hid, hr⟩
    exact ⟨d.2, h.only d hd, hid, hr⟩

theorem delivers_atZero {l : List NodeInfo} (hall : rumors ≤ (l : Multiset NodeInfo))
    (honly : ∀ r ∈ l, r ∈ rumors) : Delivers rumors (atZero l) where
  all := by
    have hsnd : (atZero l).map Prod.snd = l := by
      rw [atZero, map_map]
      exact map_id l
    rwa [hsnd]
  only := by
    intro d hd
    obtain ⟨r, hr, rfl⟩ := mem_map.mp hd
    exact honly r hr

theorem delivers_around (first last : List NodeInfo) (hfirst : ∀ r ∈ first, r ∈ rumors)
    (hlast : ∀ r ∈ last, r ∈ rumors) :
    Delivers rumors (atZero (first ++ (rumors.toList ++ last))) := by
  refine delivers_atZero ?_ ?_
  · rw [← Multiset.coe_add, ← Multiset.coe_add, Multiset.coe_toList]
    exact (Multiset.le_add_right _ _).trans (Multiset.le_add_left _ _)
  · intro r hr
    simp only [mem_append, Multiset.mem_toList] at hr
    rcases hr with hr | hr | hr
    · exact hfirst r hr
    · exact hr
    · exact hlast r hr

theorem delivers_alive_last (rumors : Multiset NodeInfo) :
    Delivers rumors (atZero (rumors.toList.filter (fun r => r.state ≠ .alive) ++
      rumors.toList.filter (fun r => !decide (r.state ≠ .alive)))) := by
  have hperm := filter_append_perm (fun r : NodeInfo => decide (r.state ≠ .alive)) rumors.toList
  refine delivers_atZero ?_ fun r hr => Multiset.mem_toList.mp (hperm.mem_iff.mp hr)
  rw [Multiset.coe_eq_coe.mpr hperm, Multiset.coe_toList]

theorem recordOf_deliver_of_ne (hid : id ≠ t.self) (ds : List Delivery) :
    (t.deliver ds).recordOf id =
      (offersFor id ds).foldl (fun own r => heard false r own) (t.recordOf id) := by
  rw [recordOf_deliver, decide_eq_false hid]

theorem Confluent.settled (h : Confluent t rumors) (hid : id ≠ t.self) :
    Settled (t.recordOf id) (rumorsFor id rumors) := by
  cases hown : t.recordOf id with
  | some own =>
    -- any newest rumor can be the last one
    have hlast : ∀ r, Newest (rumorsFor id rumors) r → rank own ≤ rank r →
        ∃ rumor ∈ rumors, (t.deliver (atZero ([] ++ (rumors.toList ++ [rumor])))).recordOf id =
          some r := by
      intro r hr hle
      obtain ⟨rumor, hrumor, rfl, rfl⟩ := mem_rumorsFor.mp hr.1
      refine ⟨rumor, hrumor, ?_⟩
      rw [recordOf_deliver_of_ne hid, hown, foldl_heard_some, nil_append,
        offersFor_atZero_append, offersFor_atZero_singleton]
      refine congrArg some (foldl_keep_concat ?_)
      rintro q (_ | ⟨_, hq⟩)
      · exact hle
      · exact hr.2 q hq
    intro r r' hr hr' hle
    obtain ⟨rumor, hrumor, e⟩ := hlast r hr hle
    have hle' : rank own ≤ rank r' := hle.trans (hr'.2 r hr.1)
    obtain ⟨rumor', hrumor', e'⟩ := hlast r' hr' hle'
    have heq := h _ _ (delivers_around [] [rumor] (by simp) (by simpa using hrumor))
      (delivers_around [] [rumor'] (by simp) (by simpa using hrumor')) id
    rw [e, e', Option.some.injEq] at heq
    rw [heq]
  | none =>
    rintro ⟨q, hq, hqstate⟩ r hr
    by_contra hstate
    obtain ⟨rumor, hrumor, rfl, rfl⟩ := mem_rumorsFor.mp hr.1
    obtain ⟨first, hfirst, hfid, rfl⟩ := mem_rumorsFor.mp hq
    -- introduced first, the node ends as the newest rumor says
    have hnewest : (t.deliver (atZero ([first] ++ (rumors.toList ++ [rumor])))).recordOf rumor.id =
        some rumor.record := by
      rw [recordOf_deliver_of_ne hid, hown, offersFor_atZero_append, offersFor_atZero_append,
        offersFor_atZero_singleton, ← hfid, offersFor_atZero_singleton, singleton_append]
      rw [← nil_append (first.record :: _), foldl_heard_none_cons (by simp) hqstate, hfid]
      refine congrArg some (foldl_keep_concat ?_)
      rintro q (_ | ⟨_, hq'⟩)
      · exact hr.2 _ hq
      · exact hr.2 q hq'
    -- introduced last, it ends as an Alive rumor says
    obtain ⟨r', hr', hr'state⟩ : ∃ r', (t.deliver (atZero
        (rumors.toList.filter (fun r => r.state ≠ .alive) ++
          rumors.toList.filter (fun r => !decide (r.state ≠ .alive))))).recordOf rumor.id =
        some r' ∧ r'.state = .alive := by
      rw [recordOf_deliver_of_ne hid, hown, offersFor_atZero_append]
      have hdead : ∀ r ∈ offersFor rumor.id (atZero
          (rumors.toList.filter fun r => r.state ≠ .alive)), r.state ≠ .alive := by
        intro r hr
        obtain ⟨rumor', hrumor', -, rfl⟩ := mem_offersFor_atZero.mp hr
        simpa using (mem_filter.mp hrumor').2
      have halive : ∀ r ∈ offersFor rumor.id (atZero
          (rumors.toList.filter fun r => !decide (r.state ≠ .alive))), r.state = .alive := by
        intro r hr
        obtain ⟨rumor', hrumor', -, rfl⟩ := mem_offersFor_atZero.mp hr
        simpa using (mem_filter.mp hrumor').2
      have hmem : first.record ∈ offersFor rumor.id (atZero
          (rumors.toList.filter fun r => !decide (r.state ≠ .alive))) := by
        refine mem_offersFor_atZero.mpr ⟨first, mem_filter.mpr ⟨?_, ?_⟩, hfid, rfl⟩
        · exact Multiset.mem_toList.mpr hfirst
        · simpa using hqstate
      obtain ⟨a, post, hpost⟩ := exists_cons_of_ne_nil (ne_nil_of_mem hmem)
      rw [hpost] at halive ⊢
      refine ⟨_, foldl_heard_none_cons hdead (halive a mem_cons_self), ?_⟩
      exact halive _ (foldl_keep_mem a post)
    have heq := h _ _ (delivers_around [first] [rumor] (by simpa using hfirst)
      (by simpa using hrumor))
      (delivers_alive_last rumors) rumor.id
    rw [hnewest, hr', Option.some.injEq] at heq
    exact hstate (heq ▸ hr'state)

theorem confluent_iff (t : MembershipTable) (rumors : Multiset NodeInfo)
    (hothers : ∀ r ∈ rumors, r.id ≠ t.self) :
    Confluent t rumors ↔ ∀ id, Settled (t.recordOf id) (rumorsFor id rumors) := by
  have hself : rumorsFor t.self rumors = [] := by
    refine eq_nil_iff_forall_not_mem.mpr fun r hr => ?_
    obtain ⟨rumor, hrumor, hid, -⟩ := mem_rumorsFor.mp hr
    exact hothers rumor hrumor hid
  constructor
  · intro h id
    by_cases hid : id = t.self
    · rw [hid, hself]
      cases t.recordOf t.self with
      | some own => exact fun r _ hr => absurd hr.1 not_mem_nil
      | none => exact fun _ r hr => absurd hr.1 not_mem_nil
    · exact h.settled hid
  · intro h ds ds' hds hds' id
    by_cases hid : id = t.self
    · have hnil : ∀ {ds}, Delivers rumors ds → offersFor id ds = [] := fun hds =>
        eq_nil_iff_forall_not_mem.mpr fun r hr => by
          have hmem := (hds.mem_iff id r).mpr hr
          rw [hid, hself] at hmem
          cases hmem
      rw [recordOf_deliver, recordOf_deliver, hnil hds, hnil hds']
    · rw [recordOf_deliver_of_ne hid, recordOf_deliver_of_ne hid]
      refine ((h id).congr (hds.mem_iff id)).foldl_heard_eq fun r => ?_
      rw [← hds.mem_iff id r, hds'.mem_iff id r]

/-! ## 4. Exchanging views -/

theorem offersFor_view (h : t.Wf) (now : Nanos) (id : NodeId) :
    offersFor id (t.snapshot.map fun rumor => (now, rumor)) = (t.recordOf id).toList := by
  have hfilter : (t.snapshot.map fun rumor => (now, rumor)).filter (fun d => d.2.id = id) =
      (t.snapshot.filter fun info => info.id = id).map fun rumor => (now, rumor) := by
    rw [filter_map]
    rfl
  rw [offersFor, hfilter, filter_snapshot h, recordOf, map_map]
  cases t.get id <;> rfl

theorem recordOf_handleMessage (ha : a.Wf) (now : Nanos) (id : NodeId) :
    (b.handleMessage now a.snapshot).recordOf id =
      match a.recordOf id with
      | none => b.recordOf id
      | some r => heard (id = b.self) r (b.recordOf id) := by
  rw [handleMessage, recordOf_deliver, offersFor_view ha]
  cases a.recordOf id <;> rfl

/-- An exchange of views in both directions changes no record. -/
def Quiet (now : Nanos) (a b : MembershipTable) : Prop :=
  ∀ id, (b.handleMessage now a.snapshot).recordOf id = b.recordOf id ∧
    (a.handleMessage now b.snapshot).recordOf id = a.recordOf id

/-- A table that records itself Alive at incarnation 0 while the other one holds it for Suspect or
Dead at the greatest incarnation: the refutation wraps. -/
def RefutesInVain (a b : MembershipTable) : Prop :=
  a.recordOf a.self = some ⟨.alive, 0⟩ ∧
    ∃ r, b.recordOf a.self = some r ∧ r.state ≠ .alive ∧ r.incarnation = 0xFFFFFFFFFFFFFFFF

theorem refuted_eq_self {i : UInt64} (hle : ¬ i < own.incarnation) (h : refuted own i = own) :
    own = ⟨.alive, 0⟩ ∧ i = 0xFFFFFFFFFFFFFFFF := by
  have hle' : own.incarnation ≤ i := UInt64.not_lt.mp hle
  have hmax : max own.incarnation i = i := by
    show (if own.incarnation ≤ i then i else own.incarnation) = i
    rw [if_pos hle']
  have hstate : own.state = .alive := (congrArg NodeRecord.state h).symm
  have hinc : i + 1 = own.incarnation := by
    have := congrArg NodeRecord.incarnation h
    rwa [refuted, if_pos hle', hmax] at this
  -- the successor is not above only when it wraps
  have hwrap : i.toNat = 2 ^ 64 - 1 := by
    have hsum := congrArg toNat hinc
    rw [UInt64.toNat_add] at hsum
    have hone : (1 : UInt64).toNat = 1 := rfl
    have hlt := i.toNat_lt
    have hle'' := le_iff_toNat_le.mp hle'
    omega
  have hi : i = 0xFFFFFFFFFFFFFFFF := toNat.inj hwrap
  refine ⟨NodeRecord.ext hstate ?_, hi⟩
  rw [← hinc, hi]
  rfl

theorem heard_some_eq_self {isSelf : Bool} (h : heard isSelf r (some own) = some own) :
    r.incarnation < own.incarnation ∨ r = own ∨
      (isSelf ∧ r.state ≠ .alive ∧ own = ⟨.alive, 0⟩ ∧ r.incarnation = 0xFFFFFFFFFFFFFFFF) := by
  rw [heard_some] at h
  split_ifs at h with hstale hsame hself
  · exact .inl hstale
  · exact .inr (.inl hsame)
  · exact .inr (.inr ⟨hself.1, hself.2, refuted_eq_self hstale (Option.some.inj h)⟩)
  · exact .inr (.inl (Option.some.inj h))

theorem eq_or_refutesInVain {now : Nanos} (ha : a.Wf) (hb : b.Wf) (hquiet : Quiet now a b)
    (hr : a.recordOf id = some r) (hr' : b.recordOf id = some r') :
    r = r' ∨ RefutesInVain a b ∨ RefutesInVain b a := by
  obtain ⟨hab, hba⟩ := hquiet id
  rw [recordOf_handleMessage ha, hr, hr'] at hab
  rw [recordOf_handleMessage hb, hr, hr'] at hba
  rcases heard_some_eq_self hab with h₁ | h₁ | ⟨hid, hstate, hown, hinc⟩
  · rcases heard_some_eq_self hba with h₂ | h₂ | ⟨hid, hstate, hown, hinc⟩
    · exact absurd h₁ (UInt64.lt_asymm h₂)
    · exact .inl h₂.symm
    · obtain rfl := of_decide_eq_true hid
      exact .inr (.inl ⟨hown ▸ hr, r', hr', hstate, hinc⟩)
  · exact .inl h₁
  · obtain rfl := of_decide_eq_true hid
    exact .inr (.inr ⟨hown ▸ hr', r, hr, hstate, hinc⟩)

def Agree (a b : MembershipTable) : Prop := ∀ id, a.recordOf id = b.recordOf id

def SameNodes (a b : MembershipTable) : Prop :=
  ∀ id, (a.recordOf id).isSome = (b.recordOf id).isSome

theorem agree_iff_of_quiet {now : Nanos} (ha : a.Wf) (hb : b.Wf) (hquiet : Quiet now a b) :
    Agree a b ↔ SameNodes a b ∧ ¬ RefutesInVain a b ∧ ¬ RefutesInVain b a := by
  constructor
  · intro h
    refine ⟨fun id => by rw [h id], ?_, ?_⟩
    · rintro ⟨hown, r, hr, hstate, -⟩
      rw [h, hr, Option.some.injEq] at hown
      exact hstate (hown ▸ rfl)
    · rintro ⟨hown, r, hr, hstate, -⟩
      rw [← h, hr, Option.some.injEq] at hown
      exact hstate (hown ▸ rfl)
  · rintro ⟨hsame, hva, hvb⟩ id
    have hknown := hsame id
    cases hr : a.recordOf id with
    | none =>
      rw [hr] at hknown
      exact (Option.isSome_eq_false_iff.mp hknown.symm |> Option.isNone_iff_eq_none.mp).symm
    | some r =>
      rw [hr] at hknown
      obtain ⟨r', hr'⟩ := Option.isSome_iff_exists.mp hknown.symm
      rcases eq_or_refutesInVain ha hb hquiet hr hr' with h | h | h
      · rw [hr', h]
      · exact absurd h hva
      · exact absurd h hvb

/-- **Gossip converges exactly when the rumors leave no choice and no silent node is unknown**:
every order of the rumors gives the same records iff the newest ones about each node are settled,
and tables a quiet exchange leaves alone agree iff they know the same nodes and no refutation wraps.
-/
theorem gossip_converges_iff (t : MembershipTable) (rumors : Multiset NodeInfo)
    (hothers : ∀ r ∈ rumors, r.id ≠ t.self) (now : Nanos) (a b : MembershipTable) (ha : a.Wf)
    (hb : b.Wf) (hquiet : Quiet now a b) :
    (Confluent t rumors ↔ ∀ id, Settled (t.recordOf id) (rumorsFor id rumors)) ∧
      (Agree a b ↔ SameNodes a b ∧ ¬ RefutesInVain a b ∧ ¬ RefutesInVain b a) :=
  ⟨confluent_iff t rumors hothers, agree_iff_of_quiet ha hb hquiet⟩

/-- What holds of the nodes the tables list and of those neither knows, holds of all. -/
theorem forall_id_of_known {P : NodeId → Prop} (ha : a.Wf) (hb : b.Wf)
    (hnone : ∀ id, a.recordOf id = none → b.recordOf id = none → P id)
    (h : ∀ info ∈ a.snapshot ++ b.snapshot, P info.id) (id : NodeId) : P id := by
  by_cases hid : ∃ info ∈ a.snapshot ++ b.snapshot, info.id = id
  · obtain ⟨info, hmem, rfl⟩ := hid
    exact h info hmem
  · have hlisted : ∀ {t : MembershipTable}, t.Wf → t.snapshot ⊆ a.snapshot ++ b.snapshot →
        t.recordOf id = none := by
      intro t ht hsub
      refine recordOf_of_none (Option.toList_eq_nil_iff.mp ?_)
      rw [← filter_snapshot ht, filter_eq_nil_iff]
      exact fun info hinfo heq => hid ⟨info, hsub hinfo, of_decide_eq_true heq⟩
    exact hnone id (hlisted ha (subset_append_left ..)) (hlisted hb (subset_append_right ..))

theorem quiet_of_known {now : Nanos} (ha : a.Wf) (hb : b.Wf) (h : ∀ info ∈ a.snapshot ++ b.snapshot,
      (b.handleMessage now a.snapshot).recordOf info.id = b.recordOf info.id ∧
        (a.handleMessage now b.snapshot).recordOf info.id = a.recordOf info.id) :
          Quiet now a b := by
  refine forall_id_of_known ha hb (fun id hna hnb => ?_) h
  rw [recordOf_handleMessage ha, recordOf_handleMessage hb, hna, hnb]
  exact ⟨rfl, rfl⟩

def knowsB : MembershipTable := (start [65]).seed [(0, { id := [66] })]

def knowsA : MembershipTable := (start [66]).seed [(0, { id := [65] })]

def aliveB : NodeInfo := { id := [66], incarnation := 1 }

def deadB : NodeInfo := { id := [66], state := .dead, incarnation := 1 }

def suspectB : NodeInfo := { id := [66], state := .suspect }

theorem wf_knowsB : knowsB.Wf := (wf_start [65]).seed _

theorem wf_knowsA : knowsA.Wf := (wf_start [66]).seed _

theorem settled_dead (own : Option NodeRecord) (id : NodeId) :
    Settled own (rumorsFor id {suspectB, deadB}) := by
  have hmem : ∀ r ∈ rumorsFor id {suspectB, deadB},
      id = [66] ∧ (r = suspectB.record ∨ r = deadB.record) := by
    intro r hr
    obtain ⟨rumor, hrumor, rfl, rfl⟩ := mem_rumorsFor.mp hr
    rcases Multiset.mem_cons.mp hrumor with rfl | hrumor
    · exact ⟨rfl, .inl rfl⟩
    · obtain rfl := Multiset.mem_singleton.mp hrumor
      exact ⟨rfl, .inr rfl⟩
  have hnewest : ∀ r, Newest (rumorsFor id {suspectB, deadB}) r → r = deadB.record := by
    intro r hr
    obtain ⟨rfl, rfl | rfl⟩ := hmem r hr.1
    · exact absurd (hr.2 deadB.record (mem_rumorsFor.mpr ⟨deadB, by simp, rfl, rfl⟩)) (by decide)
    · rfl
  cases own with
  | some own => exact fun r r' hr hr' _ => by rw [hnewest r hr, hnewest r' hr']
  | none =>
    rintro ⟨r, hr, halive⟩
    obtain ⟨-, rfl | rfl⟩ := hmem r hr <;> cases halive

/-- `B` Suspect at 0 and Dead at 1, in two orders and one of them twice; and the tables of `A` and
of `B`, which an exchange leaves alone. -/
theorem gossip_converges_two_rumors :
    (knowsB.deliver [(0, suspectB), (0, deadB), (0, suspectB)]).recordOf [66] =
        (knowsB.deliver [(0, deadB), (0, suspectB)]).recordOf [66] ∧
      knowsB.self ≠ knowsA.self ∧ Quiet 0 knowsB knowsA ∧ Agree knowsB knowsA := by
  have hquiet : Quiet 0 knowsB knowsA := quiet_of_known wf_knowsB wf_knowsA (by decide)
  have hsame : SameNodes knowsB knowsA :=
    forall_id_of_known wf_knowsB wf_knowsA (fun id hb ha => by rw [hb, ha]) (by decide)
  have hothers : ∀ r ∈ ({suspectB, deadB} : Multiset NodeInfo), r.id ≠ knowsB.self := by
    decide
  obtain ⟨horder, hagree⟩ := gossip_converges_iff knowsB {suspectB, deadB} hothers 0 knowsB knowsA
    wf_knowsB wf_knowsA hquiet
  have hconfluent := horder.mpr fun id => settled_dead _ id
  have hswap : ({suspectB, deadB} : Multiset NodeInfo) = {deadB, suspectB} := Multiset.pair_comm _ _
  have htwice : ({suspectB, deadB} : Multiset NodeInfo) ≤ ↑[suspectB, deadB, suspectB] :=
    Multiset.coe_le.mpr (sublist_append_left [suspectB, deadB] [suspectB]).subperm
  refine ⟨hconfluent [(0, suspectB), (0, deadB), (0, suspectB)] [(0, deadB), (0, suspectB)]
    ⟨htwice, by simp⟩ ⟨hswap.le, by simp⟩ [66], by decide, hquiet, hagree.mpr ⟨hsame, ?_, ?_⟩⟩ <;>
  · rintro ⟨-, r, hr, hstate, -⟩
    cases hr
    exact hstate rfl

/-- `A` has `B` Dead; `C` has never heard of `B`. -/
def deadAtA : MembershipTable :=
  ((start [65]).seed [(0, { id := [67] }), (0, { id := [66] })]).markDead [66]

def knowsNoB : MembershipTable := (start [67]).seed [(0, { id := [65] })]

/-- `B` Alive and `B` Dead at one incarnation: the later one stays. And a node that is Dead in one
table and unknown in the other keeps them apart for good. -/
theorem gossip_does_not_converge :
    (knowsB.deliver [(0, aliveB), (0, deadB)]).recordOf [66] = some ⟨.dead, 1⟩ ∧
      (knowsB.deliver [(0, deadB), (0, aliveB)]).recordOf [66] = some ⟨.alive, 1⟩ ∧
      ¬ Confluent knowsB {aliveB, deadB} ∧
      Quiet 0 deadAtA knowsNoB ∧ ¬ Agree deadAtA knowsNoB := by
  have h₁ : (knowsB.deliver [(0, aliveB), (0, deadB)]).recordOf [66] = some ⟨.dead, 1⟩ := by
    decide
  have h₂ : (knowsB.deliver [(0, deadB), (0, aliveB)]).recordOf [66] = some ⟨.alive, 1⟩ := by
    decide
  refine ⟨h₁, h₂, fun h => ?_, quiet_of_known ?_ ?_ (by decide), fun h => ?_⟩
  · have hswap : ({aliveB, deadB} : Multiset NodeInfo) = {deadB, aliveB} := Multiset.pair_comm _ _
    have heq := h [(0, aliveB), (0, deadB)] [(0, deadB), (0, aliveB)]
      ⟨le_rfl, by simp⟩ ⟨hswap.le, by simp⟩ [66]
    rw [h₁, h₂] at heq
    cases heq
  · exact ((wf_start _).seed _).markDead
  · exact (wf_start _).seed _
  · exact absurd (h [66]) (by decide)

end MembershipTable

end Cinder
