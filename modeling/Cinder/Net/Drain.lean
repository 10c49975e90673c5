/-
Draining a connection (`src/net/tcp/connection.cpp`: `drain`, `maybeRead`, the end of
`sendResponse`, the write completion of `doWrite`).

The header promises to stop reading requests and to let the one in flight complete. But
`maybeRead` starts a read WHENEVER the connection is draining, `onPayload` does not look at the
flag, and the write completion that empties the queue closes a draining connection without
looking at the pending request.
-/
import Cinder.Net.Connection

namespace Cinder

open Transition Option Conn List Bool

/-! ## 1. What a drain promises -/

/-- What can happen to a connection without socket errors and timeouts: a frame is read, an
operation or a write completes, a drain is requested. `more`: the peer completes request
frames. -/
def ConnEvent.undisturbed (more : Bool) : ConnEvent → Bool
  | .frame (some _) _ => more
  | .frame none _ | .operation _ _ _ | .writeDone | .drain => true
  | .writeError | .readError _ | .close => false

namespace Conn

variable (cfg : ConnConfig) (more : Bool)

/-- `closeConnection("drained")` has been called on the open connection. `sendResponse` calls it,
too, but never gets there (`sendResponse_eq`). -/
def ClosesDrained (c : Conn) (ev : ConnEvent) (c' : Conn) : Prop :=
  (ev = .drain ∨ ev = .writeDone) ∧ c.isOpen = true ∧ c'.isOpen = false

/-- Every request handed to a handler has its response written. -/
def OwesNothing (c : Conn) : Prop := c.opsInFlight = [] ∧ c.writeQueue = []

def AfterDrain (c c' : Conn) : Prop :=
  Reaches (Conn.step cfg) (fun _ ev => ev.undisturbed more = true) c.drain c'

/-- **What a drain of `c` promises**, whatever happens next. -/
structure DrainSafe (c : Conn) : Prop where
  oneRead : ∀ c', AfterDrain cfg more c c' → c'.readsInFlight ≤ 1
  noRequest : ∀ c', AfterDrain cfg more c c' → ∀ req look,
    (ConnEvent.frame (some req) look).undisturbed more = true →
      c'.step cfg (.frame (some req) look) = none
  closedAtOnce : ClosesDrained c .drain c.drain → c.drain.OwesNothing
  closedLater : ∀ c' ev c'', AfterDrain cfg more c c' → ev.undisturbed more = true →
    c'.step cfg ev = some c'' → ClosesDrained c' ev c'' → c''.OwesNothing

end Conn

/-! ## 2. What one event does to the flags -/

namespace Conn

variable (cfg : ConnConfig) (c : Conn) (tag : Nat) (res : Response)

theorem sendResponse_eq :
    (c.sendResponse cfg tag res).isOpen = false ∨
      ∃ size, c.sendResponse cfg tag res =
        { (c.recordLatency cfg).push (tag, res) size with writing := true } := by
  unfold sendResponse
  generalize c.recordLatency cfg = d
  cases res.frameSize with
  | none => exact .inl rfl
  | some size =>
    simp only
    split
    · exact .inl rfl
    · refine .inr ⟨size, ?_⟩
      have hwrite : (if (d.push (tag, res) size).writing then d.push (tag, res) size
          else (d.push (tag, res) size).doWrite) =
            { d.push (tag, res) size with writing := true } := by
        split
        · rename_i hw
          rw [← hw]
        · simp [doWrite, push]
      rw [hwrite, closeIfDrained, if_neg (by simp)]

@[simp] theorem maybeRead_isOpen : c.maybeRead.isOpen = c.isOpen := by
  unfold maybeRead
  split <;> rfl

@[simp] theorem maybeRead_writeQueue : c.maybeRead.writeQueue = c.writeQueue := by
  unfold maybeRead
  split <;> rfl

@[simp] theorem maybeRead_opsInFlight : c.maybeRead.opsInFlight = c.opsInFlight := by
  unfold maybeRead
  split <;> rfl

@[simp] theorem maybeRead_draining : c.maybeRead.draining = c.draining := by
  unfold maybeRead
  split <;> rfl

theorem onOperation_of_draining (req : Request) (r : OpResult) (h : c.draining = true) :
    (c.onOperation cfg tag req r).draining = true ∧
      (c.onOperation cfg tag req r).readsInFlight = c.readsInFlight + 1 ∧
      (c.onOperation cfg tag req r).opsInFlight = c.opsInFlight.erase (tag, req) := by
  unfold onOperation
  obtain ⟨hside, -⟩ := sendResponse_cases cfg
    { c with opsInFlight := c.opsInFlight.erase (tag, req) } tag (opResponse cfg req r)
  have hdrain := hside.draining.trans h
  refine ⟨?_, ?_, ?_⟩
  · rw [maybeRead_draining, hdrain]
  · rw [maybeRead, if_pos (.inl hdrain), hside.readsInFlight]
  · rw [maybeRead_opsInFlight, hside.opsInFlight]

theorem onWriteDone_of_draining (h : c.draining = true) :
    SameReadSide c c.onWriteDone ∧ c.onWriteDone.writeQueue = c.writeQueue.tail ∧
      (c.writeQueue.tail ≠ [] ∧ c.onWriteDone.isOpen = c.isOpen ∧ c.onWriteDone.writing = true ∨
        c.writeQueue.tail = [] ∧ c.onWriteDone.isOpen = false) := by
  unfold onWriteDone
  by_cases htail : c.writeQueue.tail = []
  · simp only [htail, ne_eq, not_true_eq_false, if_false, h, if_true]
    exact ⟨⟨rfl, h.symm, rfl, rfl, rfl⟩, rfl, .inr ⟨trivial, rfl⟩⟩
  · simp only [ne_eq, htail, not_false_eq_true, if_true]
    refine ⟨⟨rfl, rfl, rfl, rfl, rfl⟩, rfl, .inl ⟨trivial, rfl, ?_⟩⟩
    simp [doWrite, htail]

theorem drain_same :
    c.drain.draining = true ∧ c.drain.readsInFlight = c.readsInFlight ∧
      c.drain.opsInFlight = c.opsInFlight ∧ c.drain.writeQueue = c.writeQueue ∧
      c.drain.writing = c.writing ∧ c.drain.pendingOpcode = c.pendingOpcode := by
  unfold drain
  simp only
  split <;> exact ⟨rfl, rfl, rfl, rfl, rfl, rfl⟩

theorem drain_isOpen : c.drain.isOpen = true ↔
    c.isOpen = true ∧ ¬ (c.pendingOpcode = none ∧ c.writeQueue = [] ∧ c.writing = false) := by
  unfold drain
  simp only
  split
  · rename_i hidle
    simp [closeConnection, hidle]
  · rename_i hbusy
    exact ⟨fun hopen => ⟨hopen, hbusy⟩, fun h => h.1⟩

end Conn

/-! ## 3. Before the drain -/

/-- The flags of a connection that is not draining say what is going on. -/
structure Undrained (c : Conn) : Prop where
  draining : c.draining = false
  reads : c.readsInFlight = c.reading.toNat
  writing : c.writing = !c.writeQueue.isEmpty
  bytes : c.writeQueueBytes = (c.writeQueue.map Prod.snd).sum

/-- Something will make the connection read again. -/
def Conn.Busy (c : Conn) : Prop := c.reading = true ∨ c.writeQueue ≠ [] ∨ c.pendingOpcode ≠ none

namespace Undrained

variable {c : Conn} (cfg : ConnConfig)

section

variable (h : Undrained c)

include h

theorem maybeRead : Undrained c.maybeRead := by
  rcases c.maybeRead_cases h.draining with heq | ⟨hr, heq⟩
  · rwa [heq]
  · rw [heq]
    exact ⟨h.draining, by simp [h.reads, hr], h.writing, h.bytes⟩

theorem sendResponse (tag : Nat) (res : Response)
    (hopen : (c.sendResponse cfg tag res).isOpen = true) :
    Undrained (c.sendResponse cfg tag res) ∧ (c.sendResponse cfg tag res).writeQueue ≠ [] := by
  rcases c.sendResponse_eq cfg tag res with hclosed | ⟨size, heq⟩
  · rw [hclosed] at hopen
    cases hopen
  · have hsame : (c.recordLatency cfg).writeQueue = c.writeQueue ∧
        (c.recordLatency cfg).writeQueueBytes = c.writeQueueBytes := by
      unfold recordLatency
      split <;> exact ⟨rfl, rfl⟩
    have hside := (c.recordLatency_same cfg).1
    rw [heq]
    refine ⟨⟨hside.draining.trans h.draining, ?_, ?_, ?_⟩, ?_⟩
    · simp only [push]
      rw [hside.readsInFlight, hside.reading, h.reads]
    · simp [push]
    · simp [push, hsame, h.bytes]
    · simp [push]

theorem reply (tag : Nat) (res : Response)
    (hopen : (c.sendResponse cfg tag res).maybeRead.isOpen = true) :
    Undrained (c.sendResponse cfg tag res).maybeRead ∧
      (c.sendResponse cfg tag res).maybeRead.Busy := by
  rw [maybeRead_isOpen] at hopen
  obtain ⟨hinv, hqueue⟩ := h.sendResponse cfg tag res hopen
  exact ⟨hinv.maybeRead, .inr (.inl (by rwa [maybeRead_writeQueue]))⟩

theorem onPayload (hread : 0 < c.readsInFlight) (frame : Option Request)
    (look : Lookups) (hopen : (c.onPayload cfg frame look).isOpen = true) :
    Undrained (c.onPayload cfg frame look) ∧ (c.onPayload cfg frame look).Busy := by
  have hreads : c.readsInFlight - 1 = 0 := by
    have hle := h.reads ▸ c.reading.toNat_le
    omega
  have hnext : Undrained { c with
      reading := false, readsInFlight := c.readsInFlight - 1, framesRead := c.framesRead + 1 } :=
    ⟨h.draining, hreads, h.writing, h.bytes⟩
  cases frame with
  | none =>
    obtain ⟨hinv, hqueue⟩ := hnext.sendResponse cfg _ _ hopen
    exact ⟨hinv, .inr (.inl hqueue)⟩
  | some req =>
    have hpending : Undrained { c with
        reading := false, readsInFlight := c.readsInFlight - 1, framesRead := c.framesRead + 1
        pendingOpcode := some req.opcode } :=
      ⟨hnext.draining, hnext.reads, hnext.writing, hnext.bytes⟩
    simp only [Conn.onPayload, Conn.handleRequest] at hopen ⊢
    cases hnow : answerNow cfg req look with
    | some res =>
      rw [hnow] at hopen
      exact hpending.reply cfg _ _ hopen
    | none =>
      exact ⟨⟨h.draining, hreads, h.writing, h.bytes⟩, .inr (.inr (some_ne_none _))⟩

theorem onWriteDone (hw : c.writing = true) : Undrained c.onWriteDone ∧ c.onWriteDone.Busy := by
  cases hq : c.writeQueue with
  | nil =>
    rw [h.writing, hq] at hw
    cases hw
  | cons x rest =>
    have hbytes : c.writeQueueBytes - x.2 = (rest.map Prod.snd).sum := by
      rw [h.bytes, hq, map_cons, sum_cons, Nat.add_sub_cancel_left]
    unfold Conn.onWriteDone
    simp only [hq, head?_cons, elim_some, tail_cons]
    split
    · rename_i hrest
      exact ⟨⟨h.draining, h.reads, rfl, hbytes⟩, .inr (.inl hrest)⟩
    · rename_i hrest
      obtain rfl : rest = [] := not_not.mp hrest
      rw [if_neg (by simp [h.draining])]
      refine ⟨maybeRead ⟨h.draining, h.reads, rfl, hbytes⟩, .inl ?_⟩
      -- the queue is empty: a read is in flight, or one is started
      unfold Conn.maybeRead
      split
      · rfl
      · rename_i hpaused
        by_contra hidle
        refine hpaused (.inr ⟨by simpa using hidle, Nat.zero_lt_succ _, ?_⟩)
        exact hbytes.trans_lt (by decide)

end

end Undrained

def Conn.Sound (c : Conn) : Prop := c.isOpen = true → Undrained c ∧ c.Busy

theorem undrained_of_reaches {cfg : ConnConfig} {c : Conn}
    (h : Reaches (Conn.step cfg) OrdinaryStep Conn.start c) (hopen : c.isOpen = true) :
    Undrained c ∧ c.Busy := by
  have hinv : c.Sound := h.invariant ?_ ?_
  · exact hinv hopen
  · exact fun _ => ⟨⟨rfl, rfl, rfl, rfl⟩, .inl rfl⟩
  · intro c ev c' ih hok hstep hopen'
    obtain ⟨hopen, hord⟩ := hok
    have hin := (ih hopen).1
    cases ev with
    | frame f look =>
      simp only [step, ite_none_right_eq_some, some.injEq] at hstep
      obtain ⟨hread, rfl⟩ := hstep
      exact hin.onPayload cfg hread f look hopen'
    | operation tag req r =>
      simp only [step, ite_none_right_eq_some, some.injEq] at hstep
      obtain ⟨-, rfl⟩ := hstep
      have hnext : Undrained { c with opsInFlight := c.opsInFlight.erase (tag, req) } :=
        ⟨hin.draining, hin.reads, hin.writing, hin.bytes⟩
      exact hnext.reply cfg _ _ hopen'
    | writeDone =>
      simp only [step, ite_none_right_eq_some, some.injEq] at hstep
      obtain ⟨hw, rfl⟩ := hstep
      exact hin.onWriteDone hw
    | writeError | readError | drain | close => cases hord

/-! ## 4. After the drain -/

/-- **What the events after a drain at a good moment keep**: nothing is outstanding but at most one
read, or one operation is, with nothing else. -/
structure Drained (more : Bool) (c : Conn) : Prop where
  draining : c.draining = true
  rest : c.opsInFlight = [] ∧ c.readsInFlight ≤ 1 ∧ (more = true → c.readsInFlight = 0) ∨
    c.opsInFlight.length = 1 ∧ more = false ∧ c.readsInFlight = 0 ∧ c.writeQueue = [] ∧
      c.writing = false ∧ c.pendingOpcode ≠ none

namespace Drained

variable {cfg : ConnConfig} {more : Bool} {c c' : Conn} {ev : ConnEvent}

theorem step_request (h : Drained more c) (req : Request) (look : Lookups)
    (hok : (ConnEvent.frame (some req) look).undisturbed more = true) :
    c.step cfg (.frame (some req) look) = none := by
  have hmore : more = true := hok
  refine if_neg ?_
  rcases h.rest with ⟨-, -, hreads⟩ | ⟨-, hno, -⟩
  · rw [hreads hmore]
    exact lt_irrefl 0
  · rw [hmore] at hno
    cases hno

theorem drain (h : Drained more c) :
    Drained more c.drain ∧ (c.drain.isOpen = c.isOpen ∨ c.drain.OwesNothing) := by
  obtain ⟨hdrain, hreads, hops, hqueue, hwriting, hpending⟩ := c.drain_same
  refine ⟨⟨hdrain, ?_⟩, ?_⟩
  · rw [hreads, hops, hqueue, hwriting, hpending]
    exact h.rest
  · unfold Conn.OwesNothing
    rw [hops, hqueue]
    unfold Conn.drain
    simp only
    split
    · rename_i hidle
      rcases h.rest with ⟨hnone, -⟩ | ⟨-, -, -, -, -, hsome⟩
      · exact .inr ⟨hnone, hidle.2.1⟩
      · exact absurd hidle.1 hsome
    · exact .inl rfl

theorem step (h : Drained more c) (hok : ev.undisturbed more = true)
    (hstep : c.step cfg ev = some c') :
    Drained more c' ∧ (c.ClosesDrained ev c' → c'.OwesNothing) := by
  cases ev with
  | frame f look =>
    refine ⟨?_, fun hcloses => by rcases hcloses.1 with h | h <;> cases h⟩
    cases f with
    | some req =>
      rw [h.step_request req look hok] at hstep
      cases hstep
    | none =>
      simp only [step, ite_none_right_eq_some, some.injEq] at hstep
      obtain ⟨hread, rfl⟩ := hstep
      rcases h.rest with ⟨hops, hle, hmore⟩ | ⟨-, -, hzero, -⟩
      · obtain ⟨hside, -⟩ := sendResponse_cases cfg
          { c with
            reading := false
            readsInFlight := c.readsInFlight - 1
            framesRead := c.framesRead + 1 } c.framesRead { status := .invalidArgument }
        refine ⟨hside.draining.trans h.draining, .inl ⟨hside.opsInFlight.trans hops, ?_, ?_⟩⟩
        · exact hside.readsInFlight.trans_le (by simp only; omega)
        · exact fun hm => hside.readsInFlight.trans (by simp only; have := hmore hm; omega)
      · omega
  | operation tag req r =>
    refine ⟨?_, fun hcloses => by rcases hcloses.1 with h | h <;> cases h⟩
    simp only [step, ite_none_right_eq_some, some.injEq] at hstep
    obtain ⟨hmem, rfl⟩ := hstep
    rcases h.rest with ⟨hops, -⟩ | ⟨hone, hno, hzero, -⟩
    · rw [hops] at hmem
      cases hmem
    · obtain ⟨hdrain, hreads, hops⟩ := c.onOperation_of_draining cfg tag req r h.draining
      refine ⟨hdrain, .inl ⟨?_, by omega, fun hm => ?_⟩⟩
      · rw [hops, ← length_eq_zero_iff, length_erase_of_mem hmem, hone]
      · rw [hno] at hm
        cases hm
  | writeDone =>
    simp only [step, ite_none_right_eq_some, some.injEq] at hstep
    obtain ⟨hw, rfl⟩ := hstep
    obtain ⟨hside, hqueue, hend⟩ := c.onWriteDone_of_draining h.draining
    rcases h.rest with ⟨hops, hle, hmore⟩ | ⟨-, -, -, -, hidle, -⟩
    · refine ⟨⟨hside.draining.trans h.draining, .inl ⟨hside.opsInFlight.trans hops, ?_, ?_⟩⟩, ?_⟩
      · rwa [hside.readsInFlight]
      · rwa [hside.readsInFlight]
      · intro hcloses
        refine ⟨hside.opsInFlight.trans hops, ?_⟩
        rcases hend with ⟨-, hopen, -⟩ | ⟨htail, -⟩
        · rw [hcloses.2.2, hcloses.2.1] at hopen
          cases hopen
        · rw [hqueue, htail]
    · rw [hw] at hidle
      cases hidle
  | drain =>
    simp only [step, some.injEq] at hstep
    subst hstep
    refine ⟨h.drain.1, fun hcloses => h.drain.2.resolve_left fun hopen => ?_⟩
    rw [hcloses.2.2, hcloses.2.1] at hopen
    cases hopen
  | writeError | readError | close => cases hok

theorem of_afterDrain (h : Drained more c.drain) (hafter : c.AfterDrain cfg more c') :
    Drained more c' := hafter.invariant h fun _ _ _ hinv hok hstep => (hinv.step hok hstep).1

end Drained

/-! ## 5. When a drain is safe -/

/-- A good moment to drain: nothing is read and no operation is outstanding; or the peer sends no
further request and there is no operation, or one with no read and nothing to write. -/
def Conn.DrainsWell (more : Bool) (c : Conn) : Prop :=
  c.reading = false ∧ c.opsInFlight = [] ∨
    more = false ∧ (c.opsInFlight = [] ∨
      c.opsInFlight.length = 1 ∧ c.reading = false ∧ c.writeQueue = [])

variable {cfg : ConnConfig} {more : Bool} {c : Conn}

theorem Undrained.reads_le (h : Undrained c) : c.readsInFlight ≤ 1 := h.reads ▸ c.reading.toNat_le

theorem Conn.DrainsWell.drained (h : c.DrainsWell more) (hinv : Undrained c) (hbusy : c.Busy) :
    Drained more c.drain := by
  obtain ⟨hdrain, hreads, hops, hqueue, hwriting, hpending⟩ := c.drain_same
  refine ⟨hdrain, ?_⟩
  rw [hreads, hops, hqueue, hwriting, hpending]
  rcases h with ⟨hread, hnone⟩ | ⟨hno, hnone | ⟨hone, hread, hempty⟩⟩
  · have hzero : c.readsInFlight = 0 := by rw [hinv.reads, hread]; rfl
    exact .inl ⟨hnone, by omega, fun _ => hzero⟩
  · exact .inl ⟨hnone, hinv.reads_le, fun hm => by rw [hno] at hm; cases hm⟩
  · have hzero : c.readsInFlight = 0 := by rw [hinv.reads, hread]; rfl
    have hidle : c.writing = false := by rw [hinv.writing, hempty]; rfl
    refine .inr ⟨hone, hno, hzero, hempty, hidle, ?_⟩
    rcases hbusy with hr | hq | hp
    · rw [hread] at hr
      cases hr
    · exact absurd hempty hq
    · exact hp

theorem Conn.DrainsWell.drainSafe (h : c.DrainsWell more) (hinv : Undrained c) (hbusy : c.Busy) :
    c.DrainSafe cfg more := by
  have hdrained := h.drained hinv hbusy
  refine ⟨fun c' hafter => ?_, fun c' hafter req look hok => ?_, fun hcloses => ?_,
    fun c' ev c'' hafter hok hstep hcloses => ?_⟩
  · rcases (hdrained.of_afterDrain hafter).rest with ⟨-, hle, -⟩ | ⟨-, -, hzero, -⟩
    · exact hle
    · omega
  · exact (hdrained.of_afterDrain hafter).step_request req look hok
  · -- closed by the request itself: the flags say that nothing is queued
    obtain ⟨-, hopen, hclosed⟩ := hcloses
    have hidle : c.pendingOpcode = none ∧ c.writeQueue = [] ∧ c.writing = false := by
      by_contra hbusy
      rw [c.drain_isOpen.mpr ⟨hopen, hbusy⟩] at hclosed
      cases hclosed
    obtain ⟨-, -, -, hqueue, -, hpending⟩ := c.drain_same
    rcases hdrained.rest with ⟨hops, -⟩ | ⟨-, -, -, -, -, hsome⟩
    · exact ⟨hops, hqueue.trans hidle.2.1⟩
    · exact absurd (hpending.trans hidle.1) hsome
  · exact ((hdrained.of_afterDrain hafter).step hok hstep).2 hcloses

namespace Conn.DrainSafe

theorem writeQueue_eq_nil (h : c.DrainSafe cfg more) {d : Conn} (hafter : c.AfterDrain cfg more d)
    (hdrain : d.draining = true) (hopen : d.isOpen = true) (hops : d.opsInFlight ≠ [])
    (hwriting : d.writing = !d.writeQueue.isEmpty) : d.writeQueue = [] := by
  -- by induction on the queue: a write completion leads to the next one
  generalize hq : d.writeQueue = queue at hwriting
  induction queue generalizing d with
  | nil => rfl
  | cons x rest ih =>
    obtain ⟨hside, hqueue, hend⟩ := d.onWriteDone_of_draining hdrain
    have hstep : d.step cfg .writeDone = some d.onWriteDone := if_pos hwriting
    rw [hq, tail_cons] at hqueue hend
    rcases hend with ⟨hrest, hopen', hw'⟩ | ⟨-, hclosed⟩
    · refine absurd (ih (hafter.tail rfl hstep) (hside.draining.trans hdrain) (hopen'.trans hopen)
        (hside.opsInFlight ▸ hops) hqueue ?_) hrest
      rw [hw']
      cases rest with
      | nil => exact absurd rfl hrest
      | cons y ys => rfl
    · have hpaid := h.closedLater d .writeDone _ hafter rfl hstep ⟨.inr rfl, hopen, hclosed⟩
      exact absurd (hside.opsInFlight.symm.trans hpaid.1) hops

theorem operation_completes {d : Conn} (hafter : c.AfterDrain cfg more d)
    (hdrain : d.draining = true) (op : Nat × Request) (hmem : op ∈ d.opsInFlight) :
    ∃ d', c.AfterDrain cfg more d' ∧ d'.draining = true ∧
      d'.readsInFlight = d.readsInFlight + 1 ∧ d'.opsInFlight = d.opsInFlight.erase op := by
  have hstep : d.step cfg (.operation op.1 op.2 { outcome := .error .notFound }) =
      some (d.onOperation cfg op.1 op.2 { outcome := .error .notFound }) := if_pos hmem
  exact ⟨_, hafter.tail rfl hstep, d.onOperation_of_draining cfg _ _ _ hdrain⟩

theorem drainsWell (h : c.DrainSafe cfg more) (hinv : Undrained c) (hopen : c.isOpen = true) :
    c.DrainsWell more := by
  obtain ⟨hdrain, hreads, hops, hqueue, hwriting, -⟩ := c.drain_same
  have hstart : c.AfterDrain cfg more c.drain := Reaches.refl
  -- a read in flight is one too many for a peer that goes on sending
  have hsilent : ∀ d, c.AfterDrain cfg more d → 0 < d.readsInFlight → more = false := by
    intro d hafter hread
    by_contra hmore
    have hmore : more = true := by simpa using hmore
    have hnone := h.noRequest d hafter { opcode := .ping } {} hmore
    rw [step, if_pos hread] at hnone
    cases hnone
  cases hlist : c.opsInFlight with
  | nil =>
    cases hr : c.reading with
    | false => exact .inl ⟨hr, hlist⟩
    | true => exact .inr ⟨hsilent _ hstart (by rw [hreads, hinv.reads, hr]; decide), .inl hlist⟩
  | cons op rest =>
    have hsome : c.opsInFlight ≠ [] := hlist ▸ cons_ne_nil _ _
    have hopen' : c.drain.isOpen = true := by
      by_contra hclosed
      have hpaid := h.closedAtOnce ⟨.inl rfl, hopen, by simpa using hclosed⟩
      exact hsome (hops.symm.trans hpaid.1)
    have hempty : c.writeQueue = [] := by
      rw [← hqueue]
      refine h.writeQueue_eq_nil hstart hdrain hopen' (hops ▸ hsome) ?_
      rw [hwriting, hqueue, hinv.writing]
    -- the first operation to complete starts a read
    obtain ⟨d, hafter, hdrain', hreads', hops'⟩ :=
      operation_completes hstart hdrain op (by rw [hops, hlist]; exact mem_cons_self)
    rw [hops, hlist, erase_cons_head] at hops'
    have hone := h.oneRead d hafter
    refine .inr ⟨hsilent d hafter (by omega), .inr ⟨?_, ?_, hempty⟩⟩
    · cases rest with
      | nil => rw [hlist]; rfl
      | cons op' rest' =>
        obtain ⟨d', hafter', -, hreads'', -⟩ :=
          operation_completes hafter hdrain' op' (by rw [hops']; exact mem_cons_self)
        have htwo := h.oneRead d' hafter'
        omega
    · cases hr : c.reading with
      | false => rfl
      | true =>
        have hread : c.readsInFlight = 1 := by rw [hinv.reads, hr]; rfl
        omega

end Conn.DrainSafe

/-- **Draining is safe at a good moment only**: from the drain on there is at most one read, no
request is handed to a handler and the connection is not closed in debt, whatever happens next, if
and only if nothing is read and no operation is outstanding, or the peer sends no further request
and at most one operation is outstanding, alone. -/
theorem drain_safe_iff (cfg : ConnConfig) (more : Bool) {c : Conn}
    (h : Reaches (Conn.step cfg) OrdinaryStep Conn.start c) (hopen : c.isOpen = true) :
    c.readsInFlight ≤ 1 ∧ (c.DrainSafe cfg more ↔ c.DrainsWell more) := by
  obtain ⟨hinv, hbusy⟩ := undrained_of_reaches h hopen
  exact ⟨hinv.reads_le, fun hsafe => hsafe.drainsWell hinv hopen,
    fun hwell => hwell.drainSafe hinv hbusy⟩

theorem drain_safe_single_get :
    ∃ c, Reaches (Conn.step {}) OrdinaryStep Conn.start c ∧ c.opsInFlight.length = 1 ∧
      c.DrainSafe {} false := by
  obtain ⟨c, hc, hp⟩ := exists_reaches_of_exec (step {}) OrdinaryStep start
    [.frame (some { opcode := .get, key := [107] }) {}] (fun c : Conn =>
      c.isOpen && c.opsInFlight.length == 1 && !c.reading && c.writeQueue.isEmpty) rfl
  simp only [and_eq_true, beq_iff_eq, not_eq_true', List.isEmpty_iff] at hp
  obtain ⟨⟨⟨hopen, hone⟩, hread⟩, hempty⟩ := hp
  have hwell : c.DrainsWell false := .inr ⟨rfl, .inr ⟨hone, hread, hempty⟩⟩
  exact ⟨c, hc, hone, (drain_safe_iff {} false hc hopen).2.mpr hwell⟩

/-- **Three drains that go wrong**, each after a `Ping`: two reads are in flight; a request read
after the drain is answered; the connection is closed as drained while a `Get` is outstanding. -/
theorem drain_unsafe :
    (∃ c, Reaches (Conn.step {}) (fun _ ev => ev.undisturbed true = true) Conn.start c ∧
      c.draining = true ∧ c.isOpen = true ∧ c.readsInFlight = 2) ∧
    (∃ c c', Reaches (Conn.step {}) (fun _ ev => ev.undisturbed true = true) Conn.start c ∧
      c.draining = true ∧ c.isOpen = true ∧
      c.step {} (.frame (some { opcode := .ping }) {}) = some c' ∧ c'.pushed.length = 2) ∧
    ∃ c c', Reaches (step {}) (fun _ ev => ev.undisturbed true = true) start c ∧
      c.step {} .writeDone = some c' ∧ c.ClosesDrained .writeDone c' ∧
      c'.opsInFlight.length = 1 := by
  refine ⟨?_, ?_, ?_⟩
  · obtain ⟨c, hc, hp⟩ := exists_reaches_of_exec (step {})
      (fun _ ev => ev.undisturbed true = true) start
      [.frame (some { opcode := .ping }) {}, .frame (some { opcode := .get, key := [107] }) {},
        .writeDone, .drain, .operation 1 { opcode := .get, key := [107] } { outcome := .ok [118] }]
      (fun c : Conn => c.draining && c.isOpen && c.readsInFlight == 2) rfl
    simp only [and_eq_true, beq_iff_eq] at hp
    exact ⟨c, hc, hp.1.1, hp.1.2, hp.2⟩
  · obtain ⟨c, hc, hp⟩ := exists_reaches_of_exec (step {})
      (fun _ ev => ev.undisturbed true = true) start [.frame (some { opcode := .ping }) {}, .drain]
      (fun c : Conn => c.draining && c.isOpen &&
        (c.step {} (.frame (some { opcode := .ping }) {})).any
          (fun c' => c'.pushed.length == 2)) rfl
    simp only [and_eq_true] at hp
    obtain ⟨c', hstep, hlen⟩ := (any_eq_true _ _).mp hp.2
    exact ⟨c, c', hc, hp.1.1, hp.1.2, hstep, beq_iff_eq.mp hlen⟩
  · obtain ⟨c, hc, hp⟩ := exists_reaches_of_exec (step {})
      (fun _ ev => ev.undisturbed true = true) start
      [.frame (some { opcode := .ping }) {}, .frame (some { opcode := .get, key := [107] }) {},
        .drain] (fun c : Conn => c.isOpen &&
        (c.step {} .writeDone).any (fun c' => !c'.isOpen && c'.opsInFlight.length == 1)) rfl
    rw [and_eq_true] at hp
    obtain ⟨c', hstep, hlen⟩ := (any_eq_true _ _).mp hp.2
    simp only [and_eq_true, not_eq_true', beq_iff_eq] at hlen
    exact ⟨c, c', hc, hstep, ⟨.inr rfl, hp.1, hlen.1⟩, hlen.2⟩

end Cinder
