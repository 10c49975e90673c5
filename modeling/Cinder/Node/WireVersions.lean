/-
Versions on the wire have 64 bits, versions in an entry have 62 (`VersionedEntry` in
`include/cinder/common/types.hpp`, `handleReplicate` in `src/net/tcp/connection.cpp`): where
the two orders part.

A message is compared by its raw stamp in the hint queue, in the read reducer and as a row of the
anti-entropy diff; the store compares stamps whose version has lost its top two bits.
-/
import Cinder.Node.HintQueue
import Cinder.Node.Reconcile
import Cinder.Node.Replication
import Cinder.Store.Convergence

namespace Cinder

open EvictionStore

/-! ## 1. Raw stamps and kept stamps -/

theorem toNat_keptVersion (v : UInt64) : ((v <<< 2) >>> 2).toNat = v.toNat % 2 ^ 62 := by
  simp only [UInt64.toNat_shiftRight, UInt64.toNat_shiftLeft, Nat.shiftRight_eq_div_pow,
    Nat.shiftLeft_eq, UInt64.reduceToNat, Nat.reduceMod]
  omega

theorem Request.stamp_le_wireStamp (req : Request) : req.stamp ≤ req.wireStamp := by
  refine not_lt.mp fun h => ?_
  have hle : ((req.version <<< 2) >>> 2).toNat ≤ req.version.toNat := by
    rw [toNat_keptVersion]
    exact Nat.mod_le _ _
  rcases LwwStamp.lt_iff.mp h with hver | ⟨-, hwriter | ⟨-, htomb⟩⟩
  · exact absurd (UInt64.lt_iff_toNat_lt.mp hver) (not_lt.mpr hle)
  · exact UInt64.lt_irrefl _ hwriter
  · exact lt_irrefl _ htomb

theorem Request.stamp_of_fits {req : Request} (h : req.version.toNat < 2 ^ 62) :
    req.stamp = req.wireStamp := by
  have hver : (req.version <<< 2) >>> 2 = req.version := by
    rw [← UInt64.toNat_inj, toNat_keptVersion, Nat.mod_eq_of_lt h]
  exact congrArg (LwwStamp.mk · req.writerNodeHash req.tombstone) hver

/-! ## 2. The store -/

abbrev Message := ClockReading × Request

namespace EvictionStore

variable {cfg : StoreConfig} {s : EvictionStore cfg} {key : Key}

variable (s)

variable (m : Message)

/-- A tombstone without a deadline goes through `removeVersioned`. -/
def handleReplicate : Except Errc Unit × EvictionStore cfg :=
  let req := m.2
  if req.tombstone ∧ req.expiresAt = none then
    s.removeVersioned req.key req.version req.writerNodeHash m.1
  else s.putVersioned req.key (replicatedEntry m.1 s.tombstoneGc req) m.1

def applied : EvictionStore cfg := (s.handleReplicate m).2

def written : VersionedEntry := replicatedEntry m.1 s.tombstoneGc m.2

theorem stampOf_written : stampOf (s.written m) = m.2.stamp := stampOf_replicatedEntry ..

theorem applied_eq : ∃ now, s.applied m = (s.putVersionedAt m.2.key (s.written m) now m.1).2 := by
  unfold applied handleReplicate written
  dsimp only
  split
  · rename_i h
    refine ⟨m.1.now, ?_⟩
    rw [removeVersioned, replicatedEntry, if_pos h.1, h.2]
    rfl
  · exact ⟨_, rfl⟩

variable {s}

theorem applied_inv (hs : s.Inv) (m : Message) : (s.applied m).Inv := by
  obtain ⟨now, h⟩ := s.applied_eq m
  rw [h]
  exact putVersionedAt_inv hs _ _ now _

theorem entryAt_applied (hs : s.Inv) {m : Message} (hroom : s.Roomy m.2.key (s.written m)) :
    (s.applied m).entryAt m.2.key =
      LwwLog.write stampOf (s.entryAt m.2.key) (some (s.written m)) := by
  obtain ⟨now, h⟩ := s.applied_eq m
  rw [h, entryAt_putVersionedAt hs hroom, if_pos rfl]

theorem rejects_iff {e e₀ : VersionedEntry} (h : s.entryAt key = some e₀) :
    s.rejects key e = true ↔ stampOf e < stampOf e₀ := by
  obtain ⟨n, hn, rfl⟩ := Option.map_eq_some_iff.mp h
  simp only [rejects, hn, decide_eq_true_eq, compareLww_eq_less]

/-- **The store keeps `y`** of two messages, whichever it applies first. -/
structure StoreKeeps (s : EvictionStore cfg) (x y : Message) : Prop where
  second : (s.applied x).rejects y.2.key ((s.applied x).written y) = false
  first : (s.applied y).rejects x.2.key ((s.applied y).written x) = true
  resident_second : ((s.applied x).applied y).entryAt y.2.key = some ((s.applied x).written y)
  resident_first : ((s.applied y).applied x).entryAt y.2.key = some (s.written y)

/-- Two messages about one key the store does not hold, and room for them in either order. -/
structure Fresh (s : EvictionStore cfg) (x y : Message) : Prop where
  inv : s.Inv
  sameKey : x.2.key = y.2.key
  absent : s.entryAt x.2.key = none
  room : s.Roomy x.2.key (s.written x)
  room' : s.Roomy y.2.key (s.written y)
  roomThen : (s.applied x).Roomy y.2.key ((s.applied x).written y)
  roomThen' : (s.applied y).Roomy x.2.key ((s.applied y).written x)

variable {x y : Message}

theorem Fresh.symm (h : s.Fresh x y) : s.Fresh y x :=
  ⟨h.inv, h.sameKey.symm, h.sameKey ▸ h.absent, h.room', h.room, h.roomThen', h.roomThen⟩

theorem Fresh.entryAt (h : s.Fresh x y) : (s.applied x).entryAt x.2.key = some (s.written x) := by
  rw [entryAt_applied h.inv h.room, h.absent]
  rfl

theorem storeKeeps_iff (h : s.Fresh x y) : s.StoreKeeps x y ↔ x.2.stamp < y.2.stamp := by
  have hx := h.entryAt
  have hy := h.symm.entryAt
  have hfirst := @rejects_iff cfg _ _ ((s.applied y).written x) _ (h.sameKey ▸ hy)
  rw [stampOf_written, stampOf_written] at hfirst
  constructor
  · exact fun hk => hfirst.mp hk.first
  · intro hlt
    have hsecond := @rejects_iff cfg _ _ ((s.applied x).written y) _ (h.sameKey ▸ hx)
    rw [stampOf_written, stampOf_written] at hsecond
    refine ⟨?_, hfirst.mpr hlt, ?_, ?_⟩
    · exact Bool.eq_false_iff.mpr fun hr => lt_asymm hlt (hsecond.mp hr)
    · rw [entryAt_applied (applied_inv h.inv x) h.roomThen, ← h.sameKey, hx, LwwLog.write, if_neg]
      rw [stampOf_written, stampOf_written]
      exact lt_asymm hlt
    · have hwrite := entryAt_applied (applied_inv h.inv y) h.roomThen'
      rw [h.sameKey, hy, LwwLog.write, if_pos] at hwrite
      · exact hwrite
      · rw [stampOf_written, stampOf_written]
        exact hlt

/-! ## 3. The next version of the store -/

theorem nextVersion_applied (haccept : s.rejects x.2.key (s.written x) = false) :
    (s.applied x).nextVersion.toNat =
      max s.nextVersion.toNat (x.2.version.toNat % 2 ^ 62 + 1) := by
  obtain ⟨now, h⟩ := s.applied_eq x
  have hversion : (s.written x).version = (x.2.version <<< 2) >>> 2 :=
    congrArg LwwStamp.version (s.stampOf_written x)
  have hlt := Nat.mod_lt x.2.version.toNat (Nat.two_pow_pos 62)
  have hsucc : ((s.written x).version + 1).toNat = x.2.version.toNat % 2 ^ 62 + 1 := by
    rw [UInt64.toNat_add, hversion, toNat_keptVersion]
    exact Nat.mod_eq_of_lt (lt_trans (Nat.succ_lt_succ hlt) (by decide))
  rw [h, (putVersionedAt_fields haccept _ _).2, observeVersion]
  split
  · rename_i hraise
    rw [UInt64.lt_iff_toNat_lt, hsucc] at hraise
    rw [hsucc, Nat.max_eq_right hraise.le]
  · rename_i hkeep
    rw [UInt64.lt_iff_toNat_lt, hsucc, not_lt] at hkeep
    rw [Nat.max_eq_left hkeep]

variable (s)

/-- **The next version of the store wins over the message it accepted**: stored with any writer
and flags, it has the greater stamp, it is applied, and the message does not come back. -/
structure MintedWins (x : Message) : Prop where
  greater : ∀ e : VersionedEntry, x.2.wireStamp < stampOf (e.setVersion (s.applied x).mintVersion.1)
  stored : ∀ (e : VersionedEntry) (now : Nanos) (clk : ClockReading) (t : EvictionStore cfg),
    t = (s.applied x).mintVersion.2 →
    t.Roomy x.2.key (e.setVersion (s.applied x).mintVersion.1) →
    ∃ t', t' = (t.putVersionedAt x.2.key (e.setVersion (s.applied x).mintVersion.1) now clk).2 ∧
      t'.entryAt x.2.key = some (e.setVersion (s.applied x).mintVersion.1) ∧
      t'.rejects x.2.key (t'.written x) = true

/-- The version the store will mint, reduced to what an entry keeps, is above the message's. -/
def MintFits (x : Message) : Prop :=
  x.2.version.toNat < max s.nextVersion.toNat (x.2.version.toNat + 1) % 2 ^ 62

variable {s}

theorem mintFits_iff (haccept : s.rejects x.2.key (s.written x) = false) :
    s.MintFits x ↔ x.2.version.toNat < (s.applied x).nextVersion.toNat % 2 ^ 62 := by
  rw [nextVersion_applied haccept, MintFits]
  by_cases hfits : x.2.version.toNat < 2 ^ 62
  · rw [Nat.mod_eq_of_lt hfits]
  · have hle := fun n => lt_of_lt_of_le (Nat.mod_lt n (Nat.two_pow_pos 62)) (not_lt.mp hfits)
    exact iff_of_false (lt_asymm (hle _)) (lt_asymm (hle _))

theorem entryAt_applied_of_accepted (hs : s.Inv) (haccept : s.rejects x.2.key (s.written x) = false)
    (hroom : s.Roomy x.2.key (s.written x)) :
    (s.applied x).entryAt x.2.key = some (s.written x) := by
  rw [entryAt_applied hs hroom]
  refine LwwLog.write_of_le stampOf fun e he => not_lt.mp fun hlt => ?_
  rw [(rejects_iff he).mpr hlt] at haccept
  cases haccept

theorem mintedWins_iff (hs : s.Inv) (haccept : s.rejects x.2.key (s.written x) = false)
    (hroom : s.Roomy x.2.key (s.written x)) : s.MintedWins x ↔ s.MintFits x := by
  have hversion : ∀ e : VersionedEntry,
      (stampOf (e.setVersion (s.applied x).mintVersion.1)).version.toNat
      = (s.applied x).nextVersion.toNat % 2 ^ 62 := by
    intro e
    show (e.setVersion _).version.toNat = _
    rw [VersionedEntry.version_setVersion_eq, toNat_keptVersion]
    rfl
  rw [mintFits_iff haccept]
  constructor
  · intro h
    -- against the least writer without a tombstone, only the version can win
    have hleast := LwwStamp.lt_iff.mp (h.greater {})
    rcases hleast with hver | ⟨-, hwriter | ⟨-, htomb⟩⟩
    · rw [UInt64.lt_iff_toNat_lt, hversion] at hver
      exact hver
    · exact absurd hwriter UInt64.not_lt_zero
    · have hflag : (stampOf (VersionedEntry.setVersion {} (s.applied x).mintVersion.1)).tombstone =
          false := VersionedEntry.isTombstone_setVersion {} _
      rw [hflag] at htomb
      exact absurd htomb (not_lt_bot (a := x.2.wireStamp.tombstone))
  · intro h
    have hgreater : ∀ e : VersionedEntry,
        x.2.wireStamp < stampOf (e.setVersion (s.applied x).mintVersion.1) := by
      intro e
      refine LwwStamp.lt_iff.mpr (.inl ?_)
      rw [UInt64.lt_iff_toNat_lt, hversion]
      exact h
    refine ⟨hgreater, ?_⟩
    rintro e now clk t rfl hroomy
    refine ⟨_, rfl, ?_⟩
    have hinv : (s.applied x).mintVersion.2.Inv := (applied_inv hs x).of_shards rfl le_rfl
    have hbelow : x.2.stamp < stampOf (e.setVersion (s.applied x).mintVersion.1) :=
      lt_of_le_of_lt x.2.stamp_le_wireStamp (hgreater e)
    have hbefore : (s.applied x).mintVersion.2.entryAt x.2.key = some (s.written x) :=
      entryAt_applied_of_accepted hs haccept hroom
    have hafter : ((s.applied x).mintVersion.2.putVersionedAt x.2.key
        (e.setVersion (s.applied x).mintVersion.1) now clk).2.entryAt x.2.key =
          some (e.setVersion (s.applied x).mintVersion.1) := by
      rw [entryAt_putVersionedAt hinv hroomy, if_pos rfl, hbefore, LwwLog.write, if_neg]
      rw [stampOf_written]
      exact lt_asymm hbelow
    refine ⟨hafter, ?_⟩
    rw [rejects_iff hafter, stampOf_written]
    exact hbelow

end EvictionStore

theorem default_le (s : LwwStamp) : ({} : LwwStamp) ≤ s := by
  refine not_lt.mp fun h => ?_
  rcases LwwStamp.lt_iff.mp h with hver | ⟨-, hwriter | ⟨-, htomb⟩⟩
  · exact UInt64.not_lt_zero hver
  · exact UInt64.not_lt_zero hwriter
  · exact absurd htomb (not_lt_bot (a := s.tombstone))

/-! ## 4. The hint queue, the read reducer and the row diff -/

namespace HintQueue

/-- **The queue keeps `y`** of two hints, whichever is pushed first. -/
structure HintKeeps (q : HintQueue) (x y : Hint) : Prop where
  second : (((q.push x).2.push y).2.hints.find? fun h =>
    (h.target, h.req.key) = (y.target, y.req.key)) = some y
  first : (((q.push y).2.push x).2.hints.find? fun h =>
    (h.target, h.req.key) = (y.target, y.req.key)) = some y

theorem hintKeeps {q : HintQueue} (hq : q.Wf) (hb : q.Bounded) {x y : Hint}
    (hplace : (x.target, x.req.key) = (y.target, y.req.key))
    (hfree : ∀ h ∈ q.hints, (h.target, h.req.key) ≠ (y.target, y.req.key))
    (hx : q.bounds.estimatedBytes x ≤ q.bounds.maxBytes)
    (hy : q.bounds.estimatedBytes y ≤ q.bounds.maxBytes)
    (hlt : x.req.wireStamp < y.req.wireStamp) : q.HintKeeps x y := by
  have hpush : ∀ a b : Hint, (a.target, a.req.key) = (b.target, b.req.key) →
      (∀ h ∈ q.hints, (h.target, h.req.key) ≠ (b.target, b.req.key)) →
      q.bounds.estimatedBytes a ≤ q.bounds.maxBytes →
      q.bounds.estimatedBytes b ≤ q.bounds.maxBytes →
      (((q.push a).2.push b).2.hints.find? fun h => (h.target, h.req.key) = (b.target, b.req.key)) =
        if isNewerThan b.req a.req then some b else some a := by
    intro a b hab hfree ha hb'
    have hnone : (q.hints.find? fun h =>
        q.bounds.rules.place h = q.bounds.rules.place a) = none := by
      refine List.find?_eq_none.mpr fun h hh => ?_
      have hne : q.bounds.rules.place h ≠ q.bounds.rules.place a :=
        fun e => hfree h hh (e.trans hab)
      simpa using hne
    have hfirst := BoundedFifo.find?_push (R := q.bounds.rules) hb.places ha
    rw [hnone, ← hints_push hq] at hfirst
    have hbounded := Bounded.push hq hb a
    rw [Bounded, push_bounds] at hbounded
    have hsecond := BoundedFifo.find?_push (R := q.bounds.rules) hbounded.places hb'
    have hplaces : q.bounds.rules.place b = q.bounds.rules.place a := hab.symm
    rw [hplaces, hfirst] at hsecond
    rw [hints_push (hq.push a), push_bounds, ← hab]
    exact hsecond
  refine ⟨?_, ?_⟩
  · rw [hpush x y hplace hfree hx hy, if_pos]
    simpa [isNewerThan] using hlt.le
  · rw [← hplace, hpush y x hplace.symm (hplace ▸ hfree) hy hx, if_neg]
    simpa [isNewerThan] using hlt

end HintQueue

namespace ReadReducer

/-- The vote of a replica that answers with what the message carries. -/
def voteFor (req : Request) : Response where
  value := some req.value
  version := req.version
  writerNodeHash := req.writerNodeHash
  expiresAt := req.expiresAt
  tombstone := req.tombstone

/-- The vote is folded while the decision is open. -/
def vote (q : ReadReducer) (m : Message) : ReadReducer := q.noteRemote m.1 (some (voteFor m.2)) true

/-- **The reducer picks `y`** of two votes, whichever arrives first. -/
structure ReducerPicks (q : ReadReducer) (x y : Message) : Prop where
  second : ((q.vote x).vote y).bestEntry = some (votedEntry y.1 (voteFor y.2))
  first : ((q.vote y).vote x).bestEntry = some (votedEntry y.1 (voteFor y.2))

variable {q : ReadReducer} {m : Message}

theorem vote_of_wins (hcounts : m.2.version ≠ 0) (hwins : q.best < m.2.wireStamp) :
    (q.vote m).best = m.2.wireStamp ∧
      (q.vote m).bestEntry = some (votedEntry m.1 (voteFor m.2)) := by
  have hok : (voteFor m.2).status = .ok ∧ (voteFor m.2).version ≠ 0 := ⟨rfl, hcounts⟩
  have hvote : lwwWinsOver (voteFor m.2).vote q.best = true := lwwWinsOver_iff.mpr hwins
  simp only [vote, noteRemote, Bool.true_eq_false, if_false, if_pos hok, hvote, if_true]
  exact ⟨rfl, trivial⟩

theorem vote_of_not_wins (h : m.2.version = 0 ∨ ¬ q.best < m.2.wireStamp) :
    (q.vote m).best = q.best ∧ (q.vote m).bestEntry = q.bestEntry := by
  by_cases hcounts : m.2.version = 0
  · have hok : ¬ ((voteFor m.2).status = .ok ∧ (voteFor m.2).version ≠ 0) := fun h => h.2 hcounts
    have hstatus : (voteFor m.2).status ≠ .notFound := by simp [voteFor]
    simp only [vote, noteRemote, Bool.true_eq_false, if_false, if_neg hok, if_neg hstatus]
    exact ⟨trivial, trivial⟩
  · have hok : (voteFor m.2).status = .ok ∧ (voteFor m.2).version ≠ 0 := ⟨rfl, hcounts⟩
    have hvote : ¬ lwwWinsOver (voteFor m.2).vote q.best = true := fun hw =>
      h.resolve_left hcounts (lwwWinsOver_iff.mp hw)
    simp only [vote, noteRemote, Bool.true_eq_false, if_false, if_pos hok, if_neg hvote]
    split <;> exact ⟨rfl, rfl⟩

theorem reducerPicks_iff (r total : Nat) {x y : Message} (hlt : x.2.wireStamp < y.2.wireStamp) :
    (ReadReducer.start r total none).ReducerPicks x y ↔ y.2.version ≠ 0 := by
  let q := ReadReducer.start r total none
  constructor
  · intro h hzero
    have hxzero : x.2.version = 0 := by
      have hle : x.2.version ≤ y.2.version := LwwStamp.version_le hlt.le
      rw [hzero] at hle
      exact UInt64.le_zero_iff.mp hle
    have hnone : ((q.vote x).vote y).bestEntry = none :=
      (vote_of_not_wins (.inl hzero)).2.trans (vote_of_not_wins (.inl hxzero)).2
    rw [h.second] at hnone
    cases hnone
  · intro hcounts
    have hbottom : q.best < y.2.wireStamp := lt_of_le_of_lt (default_le _) hlt
    have hbelow : (q.vote x).best < y.2.wireStamp := by
      by_cases hx : x.2.version = 0 ∨ ¬ q.best < x.2.wireStamp
      · rw [(vote_of_not_wins hx).1]
        exact hbottom
      · rw [not_or, not_not] at hx
        rw [(vote_of_wins hx.1 hx.2).1]
        exact hlt
    obtain ⟨hbest, hentry⟩ := vote_of_wins hcounts hbottom
    have hkeep : ¬ (q.vote y).best < x.2.wireStamp := by
      rw [hbest]
      exact lt_asymm hlt
    exact ⟨(vote_of_wins hcounts hbelow).2, (vote_of_not_wins (.inr hkeep)).2.trans hentry⟩

end ReadReducer

/-- **The row diff picks `y`**: as a remote row it is fetched, as a resident entry it is pushed. -/
structure RowPicks (gc : Nanos) (x y : Message) : Prop where
  remote : ∀ (row : MetaRow) (covered : Bool), row.stamp = y.2.wireStamp →
    verdict (some row) covered (replicatedEntry x.1 gc x.2) = .fetch
  resident : ∀ (row : MetaRow) (covered : Bool), row.stamp = x.2.wireStamp →
    verdict (some row) covered (replicatedEntry y.1 gc y.2) = .push

theorem verdict_row (row : MetaRow) (covered : Bool) (entry : VersionedEntry) :
    (verdict (some row) covered entry = .fetch ↔ stampOf entry < row.stamp) ∧
      (verdict (some row) covered entry = .push ↔ row.stamp < stampOf entry) := by
  rcases lt_trichotomy row.stamp (stampOf entry) with h | h | h
  · simp [verdict, h, h.le]
  · simp [verdict, h]
  · simp [verdict, h, h.le]

theorem rowPicks_iff (gc : Nanos) {x y : Message} (hlt : x.2.wireStamp < y.2.wireStamp) :
    RowPicks gc x y ↔ y.2.version.toNat < 2 ^ 62 ∨ x.2.wireStamp < y.2.stamp := by
  have hresident : (∀ (row : MetaRow) (covered : Bool), row.stamp = x.2.wireStamp →
      verdict (some row) covered (replicatedEntry y.1 gc y.2) = .push) ↔
        x.2.wireStamp < y.2.stamp := by
    constructor
    · intro h
      have hrow := (verdict_row ⟨0, x.2.tombstone, 0, x.2.version, x.2.writerNodeHash⟩ true
        (replicatedEntry y.1 gc y.2)).2.mp (h _ true rfl)
      rw [stampOf_replicatedEntry] at hrow
      exact hrow
    · intro h row covered hrow
      rw [(verdict_row _ _ _).2, hrow, stampOf_replicatedEntry]
      exact h
  constructor
  · exact fun h => .inr (hresident.mp h.resident)
  · intro h
    refine ⟨fun row covered hrow => ?_, hresident.mpr ?_⟩
    · rw [(verdict_row _ _ _).1, hrow, stampOf_replicatedEntry]
      exact lt_of_le_of_lt x.2.stamp_le_wireStamp hlt
    · rcases h with hfits | h
      · rw [Request.stamp_of_fits hfits]
        exact hlt
      · exact h

/-! ## 5. All paths -/

/-- The hint `enqueueHint` makes of a message; it lives for 30 seconds. -/
def hintOf (target : NodeId) (m : Message) : Hint := ⟨target, m.2, m.1.now + 30000000000⟩

/-- **Every path picks `y`.** -/
structure AllPick {cfg : StoreConfig} (s : EvictionStore cfg) (q : HintQueue) (target : NodeId)
    (r total : Nat) (x y : Message) : Prop where
  store : s.StoreKeeps x y
  hints : q.HintKeeps (hintOf target x) (hintOf target y)
  reducer : (ReadReducer.start r total none).ReducerPicks x y
  rows : RowPicks s.tombstoneGc x y

/-- **One order**: every path picks the message whose raw stamp is the greater one. -/
def OneOrder {cfg : StoreConfig} (s : EvictionStore cfg) (q : HintQueue) (target : NodeId)
    (r total : Nat) (x y : Message) : Prop :=
  (x.2.wireStamp < y.2.wireStamp → AllPick s q target r total x y) ∧
    (y.2.wireStamp < x.2.wireStamp → AllPick s q target r total y x)

/-- If `y` is the greater one, its version counts as a vote, and it is below `2 ^ 62` or still the
greater one with what an entry keeps of it. -/
def Survives (x y : Request) : Prop :=
  x.wireStamp < y.wireStamp →
    y.version ≠ 0 ∧ (y.version.toNat < 2 ^ 62 ∨ x.wireStamp < y.stamp)

section Paths

variable {cfg : StoreConfig} {s : EvictionStore cfg} {q : HintQueue} {target : NodeId}
  {x y : Message}

/-- The two hints fit a queue that holds none for their node and key. -/
structure HintsFit (q : HintQueue) (target : NodeId) (x y : Message) : Prop where
  wf : q.Wf
  bounded : q.Bounded
  absent : ∀ h ∈ q.hints, (h.target, h.req.key) ≠ (target, y.2.key)
  fits : q.bounds.estimatedBytes (hintOf target x) ≤ q.bounds.maxBytes
  fits' : q.bounds.estimatedBytes (hintOf target y) ≤ q.bounds.maxBytes

theorem allPick_iff (h : s.Fresh x y) (hq : HintsFit q target x y) (r total : Nat)
    (hlt : x.2.wireStamp < y.2.wireStamp) :
    AllPick s q target r total x y ↔
      y.2.version ≠ 0 ∧ (y.2.version.toNat < 2 ^ 62 ∨ x.2.wireStamp < y.2.stamp) := by
  constructor
  · intro hall
    exact ⟨(ReadReducer.reducerPicks_iff r total hlt).mp hall.reducer,
      (rowPicks_iff _ hlt).mp hall.rows⟩
  · rintro ⟨hcounts, hkept⟩
    refine ⟨(storeKeeps_iff h).mpr ?_, ?_,
      (ReadReducer.reducerPicks_iff r total hlt).mpr hcounts, (rowPicks_iff _ hlt).mpr hkept⟩
    · have hbelow : x.2.wireStamp < y.2.stamp := by
        rcases hkept with hfits | hbelow
        · rw [Request.stamp_of_fits hfits]
          exact hlt
        · exact hbelow
      exact lt_of_le_of_lt x.2.stamp_le_wireStamp hbelow
    · have hplace : (target, x.2.key) = (target, y.2.key) := by rw [h.sameKey]
      exact HintQueue.hintKeeps hq.wf hq.bounded hplace hq.absent hq.fits hq.fits' hlt

/-- **Where the orders part.** For two messages about a key, the store, the hint queue, the read
reducer and the row diff all pick the one with the greater raw stamp if and only if its version is
not zero and is below `2 ^ 62` or loses nothing that matters; and the next version wins over an
accepted message if and only if it does so with 62 bits. -/
theorem wire_order_iff (s : EvictionStore cfg) (q : HintQueue) (target : NodeId) (x y : Message)
    (r total : Nat) :
    (s.Fresh x y → HintsFit q target x y →
      (OneOrder s q target r total x y ↔ Survives x.2 y.2 ∧ Survives y.2 x.2)) ∧
    (s.Inv → s.rejects x.2.key (s.written x) = false → s.Roomy x.2.key (s.written x) →
      (s.MintedWins x ↔ s.MintFits x)) := by
  refine ⟨fun h hq => ?_, mintedWins_iff⟩
  have hq' : HintsFit q target y x := ⟨hq.wf, hq.bounded, h.sameKey ▸ hq.absent, hq.fits', hq.fits⟩
  exact and_congr (forall_congr' fun hlt => allPick_iff h hq r total hlt)
    (forall_congr' fun hlt => allPick_iff h.symm hq' r total hlt)

end Paths

def wireMessage (version : UInt64) : Message :=
  ({}, { opcode := .replicate, key := [1], value := [7], version := version })

theorem wire_order_small_versions :
    (OneOrder (EvictionStore.start (oneShardStore .lru) 1000 0) { bounds := ⟨100, 1000⟩ } [2] 2 2
        (wireMessage 1) (wireMessage 2) ↔
      Survives (wireMessage 1).2 (wireMessage 2).2 ∧ Survives (wireMessage 2).2 (wireMessage 1).2) ∧
    ((start (oneShardStore .lru) 1000 0).MintedWins (wireMessage 1) ↔
      (start (oneShardStore .lru) 1000 0).MintFits (wireMessage 1)) := by
  have hfresh : (start (oneShardStore .lru) 1000 0).Fresh (wireMessage 1) (wireMessage 2) := by
    refine ⟨inv_start _ _ _, rfl, ?_, ?_, ?_, ?_, ?_⟩
    all_goals decide +kernel
  have hfit : HintsFit { bounds := ⟨100, 1000⟩ } [2] (wireMessage 1) (wireMessage 2) := by
    refine ⟨HintQueue.wf_empty _, BoundedFifo.bounded_nil, ?_, ?_, ?_⟩
    all_goals decide +kernel
  obtain ⟨horder, hminted⟩ := wire_order_iff (start (oneShardStore .lru) 1000 0)
    { bounds := ⟨100, 1000⟩ } [2] (wireMessage 1) (wireMessage 2) 2 2
  exact ⟨horder hfresh hfit, hminted hfresh.inv (by decide +kernel) hfresh.room⟩

/-- Version `2 ^ 62` is kept as `0`: the store keeps the older message, in either order, and the
version that follows `2 ^ 62 - 1` loses against it. -/
theorem top_bits_change_the_winner :
    (wireMessage 1).2.wireStamp < (wireMessage 4611686018427387904).2.wireStamp ∧
      ¬ OneOrder (EvictionStore.start (oneShardStore .lru) 1000 0) { bounds := ⟨100, 1000⟩ } [2] 2 2
        (wireMessage 1) (wireMessage 4611686018427387904) ∧
      ¬ (start (oneShardStore .lru) 1000 0).MintedWins
        (wireMessage 4611686018427387903) := by
  have hlt : (wireMessage 1).2.wireStamp <
    (wireMessage 4611686018427387904).2.wireStamp := by decide
  refine ⟨hlt, fun h => ?_, fun h => ?_⟩
  · have hkeeps := (h.1 hlt).store.first
    exact absurd hkeeps (by decide +kernel)
  · exact absurd (h.greater {}) (by decide +kernel)

end Cinder
