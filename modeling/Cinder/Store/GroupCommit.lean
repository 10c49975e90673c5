/-
Group commit and its retry: the queue in front of the log, one physical write for a
whole batch, and a write that fails after some of its bytes have landed (`onWrite`,
`drainQueueLocked`, `WalWriter::appendBatch`, `writeAll`).

A failed append leaves a PREFIX of the batch in the file; the whole batch goes back into the queue
and a later drain writes it again, behind that prefix.
-/
import Cinder.Lib.Transition
import Cinder.Store.Records

namespace Cinder

open Transition List

/-! ## 1. The map of a log -/

/-- The map a log stands for: its records applied to an empty store. -/
def logMap (clk : ClockReading) (es : List WalEntry) : Key → Option VersionedEntry :=
  fun k => (es.foldl (replayRecord clk) ∅).lookup k

theorem logMap_append (clk : ClockReading) (es more : List WalEntry) :
    logMap clk (es ++ more) =
      LwwLog.replay stampOf (logMap clk es) (more.filterMap (WalEntry.effect clk)) := by
  unfold logMap
  rw [foldl_append]
  exact lookup_replay clk _ more

/-! ## 2. The queue and the file -/

section Commit

variable (xxh3 : Bytes → UInt64)

/-- The active log file as bytes, `pending_wal_`, and everything queued so far. -/
structure GroupCommit where
  file : Bytes := walHeader
  pending : List WalEntry := []
  queued : List WalEntry := []

inductive CommitEvent where
  | onWrite (entry : WalEntry)
  /-- a drain whose write lands (`none`) or fails after that many bytes -/
  | drain (failsAfter : Option Nat)

namespace GroupCommit

variable (s : GroupCommit)

def onWrite (entry : WalEntry) : GroupCommit :=
  { s with pending := s.pending ++ [entry], queued := s.queued ++ [entry] }

/-- An entry that is too large fails the batch before anything is written;
a failed write leaves what has landed and puts the batch back. -/
def drainQueueLocked (failsAfter : Option Nat) : GroupCommit :=
  match appendBatch xxh3 s.file s.pending, failsAfter with
  | some file, none => { s with file := file, pending := [] }
  | some _, some n =>
    { s with file := s.file ++ ((s.pending.map (encodeWalRecord xxh3)).flatten).take n }
  | none, _ => s

def step : CommitEvent → Option GroupCommit
  | .onWrite entry => some (s.onWrite entry)
  | .drain failsAfter => some (s.drainQueueLocked xxh3 failsAfter)

end GroupCommit

/-- `n` bytes of the batch end between two records (before the first and behind the last
included). -/
def AtBoundary (batch : List WalEntry) (n : Nat) : Prop :=
  recordsSize (completeRecords batch n) = min n (recordsSize batch)

instance (batch : List WalEntry) (n : Nat) : Decidable (AtBoundary batch n) :=
  inferInstanceAs (Decidable (_ = _))

variable (s : GroupCommit)

/-- The condition on a step: an append that fails stops between two records. -/
def StopsAtBoundary : CommitEvent → Prop
  | .drain (some n) => AtBoundary s.pending n
  | .drain none | .onWrite _ => True

instance (ev : CommitEvent) : Decidable (StopsAtBoundary s ev) :=
  match ev with
  | .drain (some n) => inferInstanceAs (Decidable (AtBoundary s.pending n))
  | .drain none | .onWrite _ => isTrue trivial

/-! ## 3. What a retried batch leaves -/

theorem take_of_atBoundary {batch : List WalEntry} {n : Nat} (h : AtBoundary batch n) :
    ((batch.map (encodeWalRecord xxh3)).flatten).take n =
      ((completeRecords batch n).map (encodeWalRecord xxh3)).flatten := by
  have hsize : ∀ es : List WalEntry,
      ((es.map (encodeWalRecord xxh3)).flatten).length = recordsSize es := by
    intro es
    simp [recordsSize, length_flatten, Function.comp_def]
  obtain ⟨rest, hrest, -⟩ := exists_completeRecords_append batch n
  unfold AtBoundary at h
  generalize completeRecords batch n = done at h hrest ⊢
  subst hrest
  rw [map_append, flatten_append]
  have hlen := hsize done
  rcases le_total n (recordsSize (done ++ rest)) with hle | hle
  · rw [Nat.min_eq_left hle] at h
    rw [take_append_of_le_length (by omega), take_of_length_le (by omega)]
  · -- nothing is cut: the rest is empty
    rw [Nat.min_eq_right hle] at h
    have hnil : recordsSize rest = 0 := by
      simp only [recordsSize, map_append, sum_append] at h ⊢
      omega
    have hrest : (rest.map (encodeWalRecord xxh3)).flatten = [] :=
      eq_nil_of_length_eq_zero (by rw [hsize, hnil])
    rw [hrest, append_nil, take_of_length_le (by
      rw [hlen, h]
      exact hle)]

/-- **The invariant**: the file is the image of some records, and these followed by the queue
stand for the same map as everything queued. -/
structure CommitInv : Prop where
  image : ∃ log : List WalEntry, s.file = walImage xxh3 log ∧ (∀ e ∈ log, e.Fits) ∧
    ∀ clk, logMap clk (log ++ s.pending) = logMap clk s.queued

theorem commitInv_onWrite {s : GroupCommit} (h : CommitInv xxh3 s) (entry : WalEntry) :
    CommitInv xxh3 (s.onWrite entry) := by
  obtain ⟨log, hfile, hfits, hmap⟩ := h.image
  refine ⟨log, hfile, hfits, fun clk => ?_⟩
  simp only [GroupCommit.onWrite]
  rw [← append_assoc, logMap_append, hmap, ← logMap_append]

theorem commitInv_drain {s : GroupCommit} (h : CommitInv xxh3 s) {failsAfter : Option Nat}
    (hok : StopsAtBoundary s (.drain failsAfter)) :
    CommitInv xxh3 (s.drainQueueLocked xxh3 failsAfter) := by
  obtain ⟨log, hfile, hfits, hmap⟩ := h.image
  by_cases hpending : ∀ e ∈ s.pending, e.Fits
  · cases failsAfter with
    | none =>
      simp only [GroupCommit.drainQueueLocked, appendBatch, if_pos hpending]
      refine ⟨log ++ s.pending, by rw [walImage_append, hfile], ?_, fun clk => ?_⟩
      · intro e he
        exact (mem_append.mp he).elim (hfits e) (hpending e)
      · rw [append_nil]
        exact hmap clk
    | some n =>
      -- the records that landed are read once more when the batch is written again
      obtain ⟨rest, hrest, -⟩ := exists_completeRecords_append s.pending n
      simp only [GroupCommit.drainQueueLocked, appendBatch, if_pos hpending]
      rw [take_of_atBoundary xxh3 hok]
      refine ⟨log ++ completeRecords s.pending n, by rw [walImage_append, hfile], ?_, fun clk => ?_⟩
      · intro e he
        exact (mem_append.mp he).elim (hfits e) (fits_completeRecords hpending n e)
      · dsimp only
        rw [← hmap clk]
        generalize completeRecords s.pending n = done at hrest
        rw [hrest]
        rw [logMap_append, logMap_append, logMap_append, filterMap_append, LwwLog.replay_retry]
  · simpa only [GroupCommit.drainQueueLocked, appendBatch, if_neg hpending] using h

theorem commitInv_step {s s' : GroupCommit} {ev : CommitEvent} (h : CommitInv xxh3 s)
    (hok : StopsAtBoundary s ev) (hstep : s.step xxh3 ev = some s') : CommitInv xxh3 s' := by
  cases ev with
  | onWrite entry =>
    cases hstep
    exact commitInv_onWrite xxh3 h entry
  | drain failsAfter =>
    cases hstep
    exact commitInv_drain xxh3 h hok

/-- **A retried group commit keeps the log replayable.** In every run whose failed appends all stop
between two records, a log whose queue has been drained replays without corruption, to the map that
everything queued stands for. -/
theorem retried_log_replays
    (h : Reaches (GroupCommit.step xxh3) StopsAtBoundary {} s) (hdrained : s.pending = []) :
    (replayImage xxh3 s.file).2.corrupted = false ∧
      ∀ clk, logMap clk (replayImage xxh3 s.file).1 = logMap clk s.queued := by
  have hinv : CommitInv xxh3 s := h.invariant
    ⟨[], by simp [walImage], by simp, fun _ => rfl⟩
    fun _ _ _ hi hok hs => commitInv_step xxh3 hi hok hs
  obtain ⟨log, hfile, hfits, hmap⟩ := hinv.image
  obtain ⟨pos, hreplay⟩ := replay_image xxh3 hfits
  rw [hfile, hreplay]
  refine ⟨rfl, fun clk => ?_⟩
  have hmap := hmap clk
  rwa [hdrained, append_nil] at hmap

end Commit

/-- Two writes and a hard delete; the first drain fails behind its first record (44 bytes), the
second one lands. -/
theorem retried_log_replays_two_writes :
    ∃ s, Reaches (GroupCommit.step fun _ => 0) StopsAtBoundary {} s ∧ s.queued.length = 3 ∧
      s.file.length = 8 + 44 + 44 + 44 + 43 ∧
      (replayImage (fun _ => 0) s.file).2.corrupted = false ∧
      ∀ clk, logMap clk (replayImage (fun _ => 0) s.file).1 = logMap clk s.queued := by
  obtain ⟨s, hreach, hp⟩ := exists_reaches_of_exec (GroupCommit.step fun _ => 0) StopsAtBoundary {}
    [.onWrite { key := [1], version := 1 }, .onWrite { key := [2], version := 2 },
      .drain (some 44), .onWrite { op := .del, key := [] }, .drain none]
    (fun s => s.queued.length = 3 ∧ s.file.length = 8 + 44 + 44 + 44 + 43 ∧ s.pending = [])
    (by decide +kernel)
  simp only [Bool.decide_and, Bool.and_eq_true, decide_eq_true_eq] at hp
  exact ⟨s, hreach, hp.1, hp.2.1, retried_log_replays (fun _ => 0) s hreach hp.2.2⟩

/-- A drain that fails after one byte of its record, and the drain that writes it again: the
byte is read as the start of a record, and the write is lost. -/
theorem torn_retry_loses_write :
    ∃ s, Reaches (GroupCommit.step fun _ => 0) (fun _ _ => True) {} s ∧ s.pending = [] ∧
      ¬ ((replayImage (fun _ => 0) s.file).2.corrupted = false ∧
        ∀ clk, logMap clk (replayImage (fun _ => 0) s.file).1 = logMap clk s.queued) := by
  obtain ⟨s, hreach, hp⟩ := exists_reaches_of_exec (GroupCommit.step fun _ => 0) (fun _ _ => True)
    {} [.onWrite { key := [1], version := 1 }, .drain (some 1), .drain none]
    (fun s => s.pending = [] ∧ (replayImage (fun _ => 0) s.file).1 = [] ∧
      (logMap {} s.queued [1]).isSome = true) (by decide)
  simp only [Bool.decide_and, Bool.and_eq_true, decide_eq_true_eq] at hp
  obtain ⟨hpending, hread, hqueued⟩ := hp
  refine ⟨s, hreach, hpending, fun ⟨_, hmap⟩ => ?_⟩
  have hlost : logMap {} s.queued [1] = none := by
    rw [← hmap {}, hread]
    rfl
  rw [hlost] at hqueued
  cases hqueued

end Cinder
