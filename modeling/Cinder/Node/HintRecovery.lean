/-
Hints across a crash (`enqueueHint`, `replayHints` and `recoverHints` in
`src/node/replication_manager.cpp`): does replaying the journal bring back the queue?

The journal is the list of its records. What is compared is the content of the hints, in queue
order: target, key, stamp, value and expiry of the write. The deadline of the hint itself is not
among them: a recovered hint gets 30 seconds from the recovery on.
-/
import Cinder.Node.HintJournal

namespace Cinder

open List HintQueue BoundedFifo Transition

/-! ## 1. Contents -/

structure HintContent where
  target : NodeId
  key : Key
  stamp : LwwStamp
  value : Bytes
  expiry : Option Nanos
  deriving DecidableEq, Repr

def Hint.content (hint : Hint) : HintContent :=
  ⟨hint.target, hint.req.key, hint.req.wireStamp, hint.req.value, hint.req.expiresAt⟩

/-- The rules of the queue see no more than contents. -/
def HintBounds.contentRules (b : HintBounds) : BoundedFifo.Rules HintContent (NodeId × Key) where
  place c := (c.target, c.key)
  newer c d := lwwCovers c.stamp d.stamp
  cost c := b.sizeofHint + c.target.length + c.key.length + c.value.length
  capacity := kHintCapacity
  budget := b.maxBytes

theorem respects_content (b : HintBounds) :
    BoundedFifo.Respects b.rules b.contentRules Hint.content :=
  ⟨fun _ => rfl, fun _ _ => rfl, fun _ => rfl, rfl, rfl⟩

def HintQueue.contents (q : HintQueue) : List HintContent := q.hints.map Hint.content

/-! ## 2. Recovery -/

def kHintTtl : Nanos := 30000000000

namespace AddRecord

def expiry (r : AddRecord) : Option Nanos :=
  if r.entryExpiryMs ≠ 0 then some (timeOfMillis r.entryExpiryMs) else none

/-- The hint `parseRecord` builds, at the time it does. -/
def hint (r : AddRecord) (now : Nanos) : Hint where
  target := r.target
  req := { opcode := .replicate, key := r.key, value := r.value, version := r.version,
           writerNodeHash := r.writerNodeHash, expiresAt := r.expiry, tombstone := r.tombstone }
  expiresAt := now + kHintTtl

def content (r : AddRecord) : HintContent :=
  ⟨r.target, r.key, ⟨r.version, r.writerNodeHash, r.tombstone⟩, r.value, r.expiry⟩

end AddRecord

/-- One round of the replay in `HintJournal::open`. -/
def HintQueue.replayRecord (q : HintQueue) (nowMs : UInt64) (now : Nanos) :
    JournalRecord → HintQueue
  | .add r => if nowMs < r.sysExpiryMs then (q.push (r.hint now)).2 else q
  | .del target key version => q.removeMatching target key version

def replayRecords (nowMs : UInt64) (reads : Nat → Nanos) (q : HintQueue)
    (records : List (JournalRecord × Nat)) : HintQueue :=
  records.foldl (fun q p => q.replayRecord nowMs (reads p.2) p.1) q

/-- `recoverHints` into the empty queue of a new process; the steady clock is read for each
record. -/
def recoverHints (bounds : HintBounds) (records : List JournalRecord) (nowMs : UInt64)
    (reads : Nat → Nanos) : HintQueue :=
  replayRecords nowMs reads { bounds := bounds } records.zipIdx

def Unexpired (nowMs : UInt64) (records : List JournalRecord) : Prop :=
  ∀ r, .add r ∈ records → nowMs < r.sysExpiryMs

/-- What `remove(target, req)` compares, on contents. -/
def HintContent.IsFor (target : NodeId) (key : Key) (version : UInt64) (c : HintContent) : Bool :=
  decide (c.target = target ∧ c.key = key ∧ c.stamp.version = version)

/-- **A record as an operation on contents.** -/
def applyRecord (b : HintBounds) (l : List HintContent) : JournalRecord → List HintContent
  | .add r => BoundedFifo.push b.contentRules l r.content
  | .del target key version => l.eraseP (HintContent.IsFor target key version)

def journalContents (b : HintBounds) (records : List JournalRecord) : List HintContent :=
  records.foldl (applyRecord b) []

theorem journalContents_concat (b : HintBounds) (records : List JournalRecord) (r : JournalRecord) :
    journalContents b (records ++ [r]) = applyRecord b (journalContents b records) r := by
  rw [journalContents, foldl_append]
  rfl

namespace HintQueue

variable {q : HintQueue}

theorem contents_push (h : q.Wf) (hint : Hint) :
    (q.push hint).2.contents = BoundedFifo.push q.bounds.contentRules q.contents hint.content := by
  rw [contents, hints_push h, push_map (respects_content q.bounds)]
  rfl

theorem contents_removeMatching (h : q.Wf) (target : NodeId) (key : Key) (version : UInt64) :
    (q.removeMatching target key version).contents =
      q.contents.eraseP (HintContent.IsFor target key version) := by
  rw [contents, hints_removeMatching h, contents, eraseP_map]
  rfl

theorem replayRecord_spec (h : q.Wf) (hb : q.Bounded) {nowMs : UInt64} {r : JournalRecord}
    (hlive : Unexpired nowMs [r]) (now : Nanos) :
    (q.replayRecord nowMs now r).Wf ∧ (q.replayRecord nowMs now r).Bounded ∧
      (q.replayRecord nowMs now r).bounds = q.bounds ∧
      (q.replayRecord nowMs now r).contents = applyRecord q.bounds q.contents r := by
  cases r with
  | add r =>
    rw [replayRecord, if_pos (hlive r mem_cons_self)]
    exact ⟨h.push _, hb.push h _, push_bounds .., contents_push h _⟩
  | del target key version =>
    refine ⟨h.removeMatching .., ?_, removeMatching_bounds .., contents_removeMatching h ..⟩
    show BoundedFifo.Bounded (q.removeMatching target key version).bounds.rules
      (q.removeMatching target key version).hints
    rw [removeMatching_bounds, hints_removeMatching h]
    exact BoundedFifo.Bounded.sublist hb eraseP_sublist

end HintQueue

theorem replayRecords_spec {nowMs : UInt64} (reads : Nat → Nanos) {records : List JournalRecord}
    (hlive : Unexpired nowMs records) (k : Nat) {q : HintQueue} (h : q.Wf) (hb : q.Bounded) :
    (replayRecords nowMs reads q (records.zipIdx k)).Wf ∧
      (replayRecords nowMs reads q (records.zipIdx k)).Bounded ∧
      (replayRecords nowMs reads q (records.zipIdx k)).bounds = q.bounds ∧
      (replayRecords nowMs reads q (records.zipIdx k)).contents =
        records.foldl (applyRecord q.bounds) q.contents := by
  induction records generalizing q k with
  | nil => exact ⟨h, hb, rfl, rfl⟩
  | cons r records ih =>
    have hfirst : Unexpired nowMs [r] := fun r' hr' =>
      hlive r' (mem_singleton.mp hr' ▸ mem_cons_self)
    have hrest : Unexpired nowMs records := fun r' hr' => hlive r' (mem_cons_of_mem _ hr')
    obtain ⟨hwf, hbounded, hbounds, hcontents⟩ := replayRecord_spec h hb hfirst (reads k)
    obtain ⟨hwf', hbounded', hbounds', hcontents'⟩ := ih hrest (k + 1) hwf hbounded
    rw [hbounds, hcontents] at hcontents'
    exact ⟨hwf', hbounded', hbounds'.trans hbounds, hcontents'⟩

/-! ## 3. Expiries in milliseconds -/

/-- A deadline that a record can say: whole milliseconds, not the zero that means none. -/
def WholeMillis (t : Nanos) : Prop := ∃ n : Int, t = n * 1000000 ∧ n ≠ 0 ∧ -2 ^ 63 ≤ n ∧ n < 2 ^ 63

def Request.Recordable (req : Request) : Prop := ∀ t, req.expiresAt = some t → WholeMillis t

theorem timeOfMillis_millisOf {t : Nanos} (h : WholeMillis t) : timeOfMillis (millisOf t) = t := by
  obtain ⟨n, rfl, -, hlow, hhigh⟩ := h
  have hdiv : (n * 1000000).tdiv 1000000 = n := Int.mul_tdiv_cancel n (by decide)
  have hcount : (millisOf (n * 1000000)).toNat = (n % 2 ^ 64).toNat := by
    rw [millisOf, hdiv, UInt64.toNat_ofNat']
    omega
  rw [timeOfMillis, hcount]
  congr 1
  split <;> omega

theorem content_addRecord {hint : Hint} (h : hint.req.Recordable) (sysExpiryMs : UInt64) :
    (addRecord hint sysExpiryMs).content = hint.content := by
  have hexpiry : (addRecord hint sysExpiryMs).expiry = hint.req.expiresAt := by
    unfold AddRecord.expiry addRecord
    cases he : hint.req.expiresAt with
    | none => rfl
    | some t =>
      have hback := timeOfMillis_millisOf (h t he)
      have hne : millisOf t ≠ 0 := by
        intro hzero
        obtain ⟨n, ht, hn, -, -⟩ := h t he
        rw [hzero] at hback
        have hnil : timeOfMillis 0 = 0 := by decide
        have hprod : (0 : Int) = n * 1000000 := (hnil.symm.trans hback).trans ht
        omega
      rw [if_pos hne, hback]
  exact congrArg (HintContent.mk hint.target hint.req.key hint.req.wireStamp hint.req.value) hexpiry

theorem recordable_hint (r : AddRecord) (now : Nanos) : (r.hint now).req.Recordable := by
  intro t ht
  change r.expiry = some t at ht
  unfold AddRecord.expiry at ht
  split at ht
  · rename_i hne
    cases ht
    have hrange := r.entryExpiryMs.toNat_lt
    have hpos : r.entryExpiryMs.toNat ≠ 0 := fun hzero => hne (UInt64.toNat_inj.mp hzero)
    refine ⟨_, rfl, ?_, ?_, ?_⟩
    all_goals split <;> omega
  · cases ht

/-! ## 4. Enqueues, replays and completions -/

def kReplayBatch : Nat := 256

def kCompactRecords : Nat := 4096

/-- The queue, the journal, and what the replay in flight has not heard of yet. -/
structure Handoff where
  queue : HintQueue
  journal : List JournalRecord
  inFlight : List (Hint × HintHandle) := []

/-- The clock readings of one `enqueueHint`: for the record, for a compaction, for the push. -/
structure EnqueueClocks where
  appended : Nanos := 0
  sysExpiryMs : UInt64
  compacting : Nanos := 0
  compactingMs : UInt64 := 0
  reads : Nat → Nanos := fun _ => 0
  pushed : Nanos := 0

inductive HandoffEvent where
  | enqueueHint (target : NodeId) (req : Request) (clk : EnqueueClocks)
  | replayHints (now : Nanos)
  | completed (i : Nat) (ok : Bool)

/-- `HintJournal::compact` from the queue: what the snapshot leaves of the queue, and the records
written. -/
def compactJournal (q : HintQueue) (clk : EnqueueClocks) : HintQueue × List JournalRecord :=
  let r := q.snapshot clk.compacting kHintCapacity
  (r.2, (keptHints (r.1.map Prod.fst) clk.compactingMs clk.reads).map fun p =>
    .add (addRecord p.1 p.2))

namespace Handoff

variable (s : Handoff)

/-- The record comes first, then the compaction if there are too many, then the push. -/
def enqueueHint (target : NodeId) (req : Request) (clk : EnqueueClocks) : Handoff :=
  let journal := s.journal ++
    [.add (addRecord ⟨target, req, clk.appended + kHintTtl⟩ clk.sysExpiryMs)]
  let r := if kCompactRecords < journal.length then compactJournal s.queue clk
    else (s.queue, journal)
  { s with
    queue := (r.1.push ⟨target, req, clk.pushed + kHintTtl⟩).2
    journal := r.2 }

def completed (p : Hint × HintHandle) (ok : Bool) : Handoff :=
  if ok then
    { s with
      queue := s.queue.removeHandle p.2
      journal := s.journal ++ [.del p.1.target p.1.req.key p.1.req.version] }
  else s

def step : HandoffEvent → Option Handoff
  | .enqueueHint target req clk => some (s.enqueueHint target req clk)
  | .replayHints now =>
    -- `replaying_`: one replay at a time
    if s.inFlight = [] then
      let r := s.queue.snapshot now kReplayBatch
      some { s with queue := r.2, inFlight := r.1 }
    else some s
  | .completed i ok =>
    match s.inFlight[i]? with
    | some p => some { s.completed p ok with inFlight := s.inFlight.eraseIdx i }
    | none => none

/-- **No hint expires**: the snapshots of the step find every hint alive, and a compaction finds
at least a millisecond left of each. -/
def NoneExpires : HandoffEvent → Prop
  | .enqueueHint _ _ clk =>
    kCompactRecords ≤ s.journal.length →
      (∀ hint ∈ s.queue.hints, clk.compacting < hint.expiresAt) ∧
      ∀ p ∈ s.queue.hints.zipIdx, 0 < (p.1.expiresAt - clk.reads p.2).tdiv 1000000
  | .replayHints now => ∀ hint ∈ s.queue.hints, now < hint.expiresAt
  | .completed _ _ => True

/-- **When a step keeps journal and queue in agreement.** A hint that is not turned away has an
expiry that a record can say, and does not meet a full journal, unless it repeats the newest hint. A
completion finds its own hint under its handle, or no hint of its target, key and version. -/
def Keeps : HandoffEvent → Prop
  | .enqueueHint target req clk =>
    BoundedFifo.TurnsAway s.queue.bounds.rules s.queue.hints ⟨target, req, clk.pushed + kHintTtl⟩ ∨
      req.Recordable ∧ (s.journal.length < kCompactRecords ∨
        (s.queue.hints.getLast?.map Hint.content) =
          some (Hint.content ⟨target, req, clk.pushed + kHintTtl⟩))
  | .replayHints _ => True
  | .completed i ok =>
    ok = true → ∀ p, s.inFlight[i]? = some p →
      match s.queue.slotOf p.2 with
      | some slot => HintQueue.IsFor p.1.target p.1.req.key p.1.req.version slot.hint = true
      | none => ∀ hint ∈ s.queue.hints,
          HintQueue.IsFor p.1.target p.1.req.key p.1.req.version hint = false

/-- **Journal and queue agree.** -/
structure Inv : Prop where
  wf : s.queue.Wf
  bounded : s.queue.Bounded
  recordable : ∀ hint ∈ s.queue.hints, hint.req.Recordable
  mirrors : journalContents s.queue.bounds s.journal = s.queue.contents

variable {s : Handoff}

/-! ## 5. What an enqueue does -/

theorem map_fst_keptHints (l : List Hint) (nowMs : UInt64) (reads : Nat → Nanos)
    (h : ∀ p ∈ l.zipIdx, 0 < (p.1.expiresAt - reads p.2).tdiv 1000000) :
    (keptHints l nowMs reads).map Prod.fst = l := by
  have hkept : keptHints l nowMs reads = l.zipIdx.map fun p =>
      (p.1, nowMs + UInt64.ofNat ((p.1.expiresAt - reads p.2).tdiv 1000000).toNat) := by
    rw [keptHints, ← filterMap_eq_map]
    refine filterMap_congr fun p hp => ?_
    exact if_neg (not_le.mpr (h p hp))
  rw [hkept, map_map]
  exact zipIdx_map_fst 0 l

theorem journalContents_adds (b : HintBounds) (l : List (Hint × UInt64))
    (h : ∀ p ∈ l, p.1.req.Recordable) :
    journalContents b (l.map fun p => .add (addRecord p.1 p.2)) =
      (l.map fun p => p.1.content).foldl (BoundedFifo.push b.contentRules) [] := by
  rw [journalContents, foldl_map, foldl_map]
  refine foldl_ext _ _ _ fun c p hp => ?_
  rw [applyRecord, content_addRecord (h p hp)]

theorem compactJournal_spec (h : s.Inv) {clk : EnqueueClocks}
    (hlive : ∀ hint ∈ s.queue.hints, clk.compacting < hint.expiresAt)
    (hleft : ∀ p ∈ s.queue.hints.zipIdx, 0 < (p.1.expiresAt - clk.reads p.2).tdiv 1000000) :
    (compactJournal s.queue clk).1 = s.queue ∧
      journalContents s.queue.bounds (compactJournal s.queue clk).2 = s.queue.contents := by
  have hlen : s.queue.live.length ≤ kHintCapacity := h.wf.length_le.trans h.wf.inArray
  have hcopied : ((s.queue.snapshot clk.compacting kHintCapacity).1.map Prod.fst) =
    s.queue.hints := by
    rw [snapshot_of_unexpired hlive, map_map, take_of_length_le hlen]
    rfl
  refine ⟨congrArg Prod.snd (snapshot_of_unexpired hlive kHintCapacity), ?_⟩
  have hkept := map_fst_keptHints s.queue.hints clk.compactingMs clk.reads hleft
  have hall : ∀ p ∈ keptHints s.queue.hints clk.compactingMs clk.reads, p.1.req.Recordable := by
    intro p hp
    exact h.recordable p.1 (hkept ▸ mem_map_of_mem hp)
  have hcontents : ((keptHints s.queue.hints clk.compactingMs clk.reads).map fun p => p.1.content) =
      s.queue.contents := by
    rw [contents, ← hkept, map_map, hkept]
    rfl
  show journalContents _ ((keptHints _ _ _).map _) = _
  rw [hcopied, journalContents_adds _ _ hall, hcontents, contents, ← map_nil (f := Hint.content),
    ← foldl_push_map (respects_content s.queue.bounds), foldl_push_of_bounded h.bounded]

variable {q : HintQueue}

theorem turnsAway_content {hint : Hint} (h : BoundedFifo.TurnsAway q.bounds.rules q.hints hint)
    {c : HintContent} (htarget : c.target = hint.target) (hkey : c.key = hint.req.key)
    (hstamp : c.stamp = hint.req.wireStamp) (hvalue : c.value = hint.req.value) :
    BoundedFifo.TurnsAway q.bounds.contentRules q.contents c := by
  obtain ⟨ctarget, ckey, cstamp, cvalue, cexpiry⟩ := c
  obtain rfl : ctarget = hint.target := htarget
  obtain rfl : ckey = hint.req.key := hkey
  obtain rfl : cstamp = hint.req.wireStamp := hstamp
  obtain rfl : cvalue = hint.req.value := hvalue
  cases h with
  | inl hlarge => exact .inl hlarge
  | inr hnewer =>
    obtain ⟨b, hb, hplace, holder⟩ := hnewer
    exact .inr ⟨b.content, mem_map_of_mem hb, hplace, holder⟩

theorem nodup_contents (h : q.Bounded) : (q.contents.map q.bounds.contentRules.place).Nodup := by
  rw [contents, map_map]
  exact h.places

theorem push_repeated (h : q.Bounded) {c : HintContent}
    (hlast : q.hints.getLast?.map Hint.content = some c) :
    BoundedFifo.push q.bounds.contentRules q.contents c = q.contents := by
  obtain ⟨hint, hhint, rfl⟩ := Option.map_eq_some_iff.mp hlast
  obtain ⟨l, hl⟩ := getLast?_eq_some_iff.mp hhint
  have hpush : push q.bounds.rules q.hints hint = q.hints := by
    rw [HintQueue.Bounded, hl] at h
    rw [hl]
    exact push_last h (lwwCovers_iff.mpr (le_refl _))
  rw [contents, ← push_map (respects_content q.bounds), hpush]

variable {target : NodeId} {req : Request} {clk : EnqueueClocks}

theorem journalContents_enqueueHint (h : s.Inv)
    (hlive : s.NoneExpires (.enqueueHint target req clk))
    (hkeeps : s.Keeps (.enqueueHint target req clk)) :
    (s.enqueueHint target req clk).queue =
        (s.queue.push ⟨target, req, clk.pushed + kHintTtl⟩).2 ∧
      journalContents s.queue.bounds (s.enqueueHint target req clk).journal =
        (s.queue.push ⟨target, req, clk.pushed + kHintTtl⟩).2.contents := by
  have hpush := contents_push h.wf ⟨target, req, clk.pushed + kHintTtl⟩
  unfold enqueueHint
  dsimp only
  rw [length_append, length_singleton]
  by_cases hfull : kCompactRecords < s.journal.length + 1
  · rw [if_pos hfull]
    obtain ⟨halive, hleft⟩ := hlive (Nat.le_of_lt_succ hfull)
    obtain ⟨hqueue, hwritten⟩ := compactJournal_spec h halive hleft
    rw [hqueue, hwritten, hpush]
    refine ⟨rfl, ?_⟩
    cases hkeeps with
    | inl haway =>
      exact (push_of_turnsAway (nodup_contents h.bounded)
        (turnsAway_content haway rfl rfl rfl rfl)).symm
    | inr hkept =>
      have hroom : ¬ s.journal.length < kCompactRecords := by omega
      exact (push_repeated h.bounded (hkept.2.resolve_left hroom)).symm
  · rw [if_neg hfull]
    refine ⟨rfl, ?_⟩
    rw [journalContents_concat, h.mirrors, hpush, applyRecord]
    cases hkeeps with
    | inl haway =>
      rw [push_of_turnsAway (nodup_contents h.bounded) (turnsAway_content haway rfl rfl rfl rfl),
        push_of_turnsAway (nodup_contents h.bounded) (turnsAway_content haway rfl rfl rfl rfl)]
    | inr hkept => rw [content_addRecord hkept.1]; rfl

theorem Inv.enqueueHint (h : s.Inv) (hlive : s.NoneExpires (.enqueueHint target req clk))
    (hkeeps : s.Keeps (.enqueueHint target req clk)) : (s.enqueueHint target req clk).Inv := by
  obtain ⟨hqueue, hjournal⟩ := journalContents_enqueueHint h hlive hkeeps
  refine ⟨?_, ?_, ?_, ?_⟩
  · rw [hqueue]
    exact h.wf.push _
  · rw [hqueue]
    exact h.bounded.push h.wf _
  · rw [hqueue, hints_push h.wf]
    intro hint hmem
    cases hkeeps with
    | inl haway =>
      rw [push_of_turnsAway h.bounded.places haway] at hmem
      exact h.recordable hint hmem
    | inr hkept =>
      rcases mem_of_mem_push hmem with hold | rfl
      · exact h.recordable hint hold
      · exact hkept.1
  · rw [hqueue, push_bounds, hjournal]

/-! ## 6. What a completion does -/

theorem find?_of_slotOf (hb : q.Bounded) {handle : HintHandle} {slot : HintSlot}
    (hslot : q.slotOf handle = some slot) {target : NodeId} {key : Key} {version : UInt64}
    (hfor : HintQueue.IsFor target key version slot.hint = true) :
    (q.live.find? fun s => HintQueue.IsFor target key version s.hint) = some slot := by
  have hmem := mem_of_slotOf hslot
  have hplaces : (q.live.map fun s => (s.hint.target, s.hint.req.key)).Nodup := by
    have hnodup := hb.places
    rw [hints, map_map] at hnodup
    exact hnodup
  cases hfind : q.live.find? fun s => HintQueue.IsFor target key version s.hint with
  | none => exact absurd hfor (List.find?_eq_none.mp hfind slot hmem)
  | some other =>
    have hother := List.find?_some hfind
    simp only [HintQueue.IsFor, decide_eq_true_eq] at hfor hother
    have hsame : (other.hint.target, other.hint.req.key) =
      (slot.hint.target, slot.hint.req.key) := by
      rw [hother.1, hother.2.1, hfor.1, hfor.2.1]
    rw [inj_on_of_nodup_map hplaces (mem_of_find?_eq_some hfind) hmem hsame]

theorem Inv.completed (h : s.Inv) {p : Hint × HintHandle}
    (hkeeps : match s.queue.slotOf p.2 with
      | some slot => HintQueue.IsFor p.1.target p.1.req.key p.1.req.version slot.hint = true
      | none => ∀ hint ∈ s.queue.hints,
          HintQueue.IsFor p.1.target p.1.req.key p.1.req.version hint = false) :
    (s.completed p true).Inv := by
  have hremoved : (s.queue.removeHandle p.2).hints =
      s.queue.hints.eraseP (HintQueue.IsFor p.1.target p.1.req.key p.1.req.version) := by
    rw [HintQueue.removeHandle_eq]
    cases hslot : s.queue.slotOf p.2 with
    | some slot =>
      rw [hslot] at hkeeps
      exact HintQueue.hints_unlinkAndRelease h.wf (find?_of_slotOf h.bounded hslot hkeeps)
    | none =>
      rw [hslot] at hkeeps
      refine (eraseP_of_forall_not fun hint hmem => ?_).symm
      rw [hkeeps hint hmem]
      exact Bool.false_ne_true
  have hqueue : (s.completed p true).queue = s.queue.removeHandle p.2 := rfl
  have hbounds := s.queue.removeHandle_bounds p.2
  refine ⟨?_, ?_, ?_, ?_⟩
  · exact h.wf.removeHandle p.2
  · rw [hqueue, HintQueue.Bounded, hremoved, hbounds]
    exact BoundedFifo.Bounded.sublist h.bounded eraseP_sublist
  · rw [hqueue, hremoved]
    exact fun hint hmem => h.recordable hint (eraseP_sublist.subset hmem)
  · show journalContents (s.queue.removeHandle p.2).bounds (s.journal ++ [_]) =
      (s.queue.removeHandle p.2).contents
    rw [hbounds, journalContents_concat, h.mirrors, HintQueue.contents, HintQueue.contents,
      hremoved, applyRecord, eraseP_map]
    rfl

/-! ## 7. Runs -/

theorem Inv.step {e : HandoffEvent} {s' : Handoff} (h : s.Inv) (hlive : s.NoneExpires e)
    (hkeeps : s.Keeps e) (hs : s.step e = some s') : s'.Inv := by
  cases e with
  | enqueueHint target req clk =>
    cases hs
    exact h.enqueueHint hlive hkeeps
  | replayHints now =>
    simp only [Handoff.step] at hs
    split at hs
    · cases hs
      rw [snapshot_of_unexpired hlive]
      exact ⟨h.wf, h.bounded, h.recordable, h.mirrors⟩
    · cases hs
      exact h
  | completed i ok =>
    simp only [Handoff.step] at hs
    split at hs
    · rename_i p hp
      cases hs
      cases ok with
      | false => exact ⟨h.wf, h.bounded, h.recordable, h.mirrors⟩
      | true =>
        have hdone := h.completed (hkeeps rfl p hp)
        exact ⟨hdone.wf, hdone.bounded, hdone.recordable, hdone.mirrors⟩
    · cases hs

def start (bounds : HintBounds) (records : List JournalRecord) (nowMs : UInt64)
    (reads : Nat → Nanos) : Handoff :=
  { queue := recoverHints bounds records nowMs reads, journal := records }

theorem forall_replayRecords {P : Hint → Prop} {reads : Nat → Nanos}
    (hnew : ∀ (r : AddRecord) (i : Nat), P (r.hint (reads i))) (nowMs : UInt64)
    (records : List (JournalRecord × Nat)) (hq : q.Wf) (h : ∀ hint ∈ q.hints, P hint) :
    ∀ hint ∈ (replayRecords nowMs reads q records).hints, P hint := by
  induction records generalizing q with
  | nil => exact h
  | cons p records ih =>
    obtain ⟨r, i⟩ := p
    show ∀ hint ∈ (replayRecords nowMs reads (q.replayRecord nowMs (reads i) r) records).hints, _
    cases r with
    | add r =>
      simp only [HintQueue.replayRecord]
      split
      · refine ih (hq.push _) fun hint hmem => ?_
        rw [hints_push hq] at hmem
        rcases mem_of_mem_push hmem with hold | rfl
        · exact h hint hold
        · exact hnew r i
      · exact ih hq h
    | del target key version =>
      simp only [HintQueue.replayRecord]
      refine ih (hq.removeMatching ..) fun hint hmem => h hint ?_
      rw [hints_removeMatching hq] at hmem
      exact eraseP_sublist.subset hmem

theorem inv_start (bounds : HintBounds) {records : List JournalRecord} {nowMs : UInt64}
    (hlive : Unexpired nowMs records) (reads : Nat → Nanos) :
    (start bounds records nowMs reads).Inv := by
  obtain ⟨hwf, hbounded, hbounds, hcontents⟩ :=
    replayRecords_spec reads hlive 0 (wf_empty bounds) bounded_nil
  refine ⟨hwf, hbounded, ?_, ?_⟩
  · exact forall_replayRecords (fun r i => recordable_hint r (reads i)) nowMs _
      (wf_empty bounds) fun _ hmem => nomatch hmem
  · show journalContents (recoverHints bounds records nowMs reads).bounds records = _
    rw [recoverHints, hbounds]
    exact hcontents.symm

/-- **Hints survive a crash** along every run whose steps meet the condition: recovery yields the
contents of the queue, in its order. -/
theorem hints_survive_crash (bounds : HintBounds) {records : List JournalRecord} {nowMs : UInt64}
    (hstart : Unexpired nowMs records) (reads : Nat → Nanos) {s : Handoff}
    (h : Reaches step (fun s e => s.NoneExpires e ∧ s.Keeps e)
      (start bounds records nowMs reads) s)
    {laterMs : UInt64} (hlive : Unexpired laterMs s.journal) (laterReads : Nat → Nanos) :
    (recoverHints s.queue.bounds s.journal laterMs laterReads).contents = s.queue.contents := by
  have hinv : s.Inv := h.invariant (inv_start bounds hstart reads)
    fun _ _ _ hinv hok hs => hinv.step hok.1 hok.2 hs
  exact (replayRecords_spec laterReads hlive 0 (wf_empty _) bounded_nil).2.2.2.trans hinv.mirrors

def missedWrite (version : UInt64) : Request :=
  { opcode := .replicate, key := [2], value := [7], version := version }

def smallBounds : HintBounds := ⟨100, 1000⟩

/-- Two hints, handed out for a replay. -/
def twoHinted : Handoff :=
  let s := ((start smallBounds [] 0 fun _ => 0).enqueueHint [1] (missedWrite 3)
    { sysExpiryMs := 30 }).enqueueHint [3] (missedWrite 4) { sysExpiryMs := 30 }
  { s with
    queue := (s.queue.snapshot 0 kReplayBatch).2
    inFlight := (s.queue.snapshot 0 kReplayBatch).1 }

/-- The first of them is delivered, and the second one survives. -/
def oneDelivered : Handoff := twoHinted.completed (⟨[1], missedWrite 3, kHintTtl⟩, ⟨0, 1⟩) true

theorem hints_survive_delivery :
    (recoverHints smallBounds oneDelivered.journal 5 fun _ => 9).contents =
      [⟨[3], [2], ⟨4, 0, false⟩, [7], none⟩] := by
  have henqueue : ∀ {s : Handoff} target version, s.journal.length < kCompactRecords →
      Reaches step (fun s e => s.NoneExpires e ∧ s.Keeps e) (start smallBounds [] 0 fun _ => 0) s →
      Reaches step (fun s e => s.NoneExpires e ∧ s.Keeps e) (start smallBounds [] 0 fun _ => 0)
        (s.enqueueHint target (missedWrite version) { sysExpiryMs := 30 }) := by
    intro s target version hshort h
    refine h.tail (e := HandoffEvent.enqueueHint ..) ⟨?_, .inr ⟨?_, .inl hshort⟩⟩ rfl
    · exact fun hfull => absurd hfull (not_le.mpr hshort)
    · exact fun t ht => nomatch (show none = some t from ht)
  have htwo := henqueue [3] 4 (by decide) (henqueue [1] 3 (by decide) .refl)
  have hreplay : Reaches _ _ _ twoHinted := htwo.tail (e := HandoffEvent.replayHints 0)
    ⟨by unfold NoneExpires; decide +kernel, trivial⟩ rfl
  have hreach := hreplay.tail (e := HandoffEvent.completed 0 true)
    ⟨trivial, fun _ p hp => by cases hp; rfl⟩ rfl
  have hall : oneDelivered.journal.all
      (fun | .add r => decide (5 < r.sysExpiryMs) | .del .. => true) = true := by decide +kernel
  have hunexpired : Unexpired 5 oneDelivered.journal := fun r hr =>
    of_decide_eq_true (all_eq_true.mp hall _ hr)
  have hempty : Unexpired 0 [] := fun _ hr => absurd hr not_mem_nil
  exact (hints_survive_crash smallBounds hempty _ hreach hunexpired _).trans (by decide +kernel)

/-- A hint is being replayed when the same write is hinted again. The refreshed hint stays in the
queue; the DEL of the completion takes it out of the journal. -/
theorem refreshed_hint_is_lost :
    ((exec step (fun _ _ => True) (start smallBounds [] 0 fun _ => 0)
        [.enqueueHint [1] (missedWrite 3) { sysExpiryMs := 30 }, .replayHints 0,
          .enqueueHint [1] (missedWrite 3) { sysExpiryMs := 30 }, .completed 0 true]).any fun s =>
      s.queue.contents = [⟨[1], [2], ⟨3, 0, false⟩, [7], none⟩] ∧
        (recoverHints smallBounds s.journal 5 fun _ => 9).contents = []) = true := by
  decide +kernel

end Handoff

end Cinder
