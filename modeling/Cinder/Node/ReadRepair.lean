/-
Read repair of one quorum read: what the replicas answer, what the reducer makes of it,
and what the decision repairs (`TcpConnection::handleGetVersioned`, `ReadReducer`,
`ReplicationManager::readAsync`).

Every node answers from its own copy with its own clock; the coordinator folds the answers in
the order they arrive. A replica that misses the key says so only if the ring makes it the owner
of the key; every other one redirects, which the reducer reads as no answer at all.
-/
import Cinder.Node.QuorumReads

namespace Cinder

open List ReadReducer

/-! ## 1. The read -/

/-- An expired entry is erased on the way. -/
def Table.getVersioned (t : Table) (now : Nanos) (key : Key) : Table × Option VersionedEntry :=
  match t.lookup key with
  | some e => if e.expiredAt now then (t.erase key, none) else (t, some e)
  | none => (t, none)

/-- What the coordinator's store makes of the winner: it is kept, refused as larger than a shard's
slice, or evicted in the same call. -/
inductive SelfHeal where
  | kept
  | refused
  | evicted

/-- The copy of a store that is given an entry. -/
def SelfHeal.apply (t : Table) (key : Key) (e : VersionedEntry) : SelfHeal → Table
  | .kept => t.putVersioned key e
  | .refused => t
  | .evicted => t.erase key

/-- A quorum read in one state of the cluster. `clk i` is what node `i` reads on its clocks
when it looks the key up, `arrival i` what the coordinator reads when it folds the answer
of `i`. -/
structure QuorumRead where
  ring : RingSnapshot
  hash64 : Bytes → UInt64
  key : Key
  replicaFactor : Int
  nodes : List NodeId
  placed : ring.getNodes hash64 key replicaFactor = .ok nodes
  coordinator : NodeId
  /-- Without a second node to ask, or with `R ≤ 1`, the local store answers alone. -/
  quorum : 1 < replicaFactor ∧ ∃ i ∈ nodes, i ≠ coordinator
  copies : NodeId → Table
  clk : NodeId → ClockReading
  arrival : NodeId → ClockReading
  addr : NodeId → Option (Bytes × Nat)
  selfHeal : SelfHeal
  /-- The size of an entry is checked for new keys only. -/
  refusal : selfHeal = .refused →
    ((copies coordinator).getVersioned (clk coordinator).now key).2 = none

namespace QuorumRead

variable (rd : QuorumRead)

def owner : NodeId := rd.ring.getNode rd.hash64 rd.key

def config : ClusterConfig where
  key := rd.key
  nodes := rd.nodes
  nodup := RingSnapshot.getNodes_nodup rd.placed
  r := rd.replicaFactor.toNat
  redirect := fun i =>
    if rd.owner = i then none else some (redirectValue rd.owner (rd.addr rd.owner))

def replicas : List NodeId := rd.config.replicas rd.coordinator

def resident (i : NodeId) : Option VersionedEntry :=
  ((rd.copies i).getVersioned (rd.clk i).now rd.key).2

def answer (i : NodeId) : Response :=
  getVersionedResponse (rd.clk i) (rd.config.redirect i) (rd.resident i)

def flight (order : List NodeId) : Flight :=
  order.foldl (fun f i => (f.report i (rd.arrival i) (some (rd.answer i))).1)
    (.lead rd.config
      { coordinator := rd.coordinator
        localEntry := rd.resident rd.coordinator
        before := []
        startCopies := rd.copies })

/-- The coordinator's copy and the messages sent, once the answers of `order` are in: the
decision heals the copy and sends the repair to every replica. -/
def decision (clk : ClockReading) (order : List NodeId) : Table × List (NodeId × Request) :=
  let t := ((rd.copies rd.coordinator).getVersioned (rd.clk rd.coordinator).now rd.key).1
  let f := rd.flight order
  if f.fan.fired then
    let (f, heal) := f.decide rd.config clk
    (match heal with
      | some e => rd.selfHeal.apply t rd.key e
      | none => t,
     match f.repair with
      | some req => rd.replicas.map (·, req)
      | none => [])
  else (t, [])

/-- Node `i` has no entry, or one older than the winner. -/
def Stale (winner : VersionedEntry) (i : NodeId) : Prop :=
  ∀ e, rd.resident i = some e → stampOf e < stampOf winner

/-- The coordinator ends up with the winner, and every stale replica is sent it. -/
def Repaired (clk : ClockReading) (order : List NodeId) (winner : VersionedEntry) : Prop :=
  ((rd.decision clk order).1.lookup rd.key).map stampOf = some (stampOf winner) ∧
    ∀ i ∈ rd.replicas, rd.Stale winner i →
      ∃ req, (i, req) ∈ (rd.decision clk order).2 ∧ req.stamp = stampOf winner

/-- Some replica's vote differs from the coordinator's entry, or the ring owner is a replica
that misses the key. An entry of version 0 is no vote. -/
def ShowsStaleness : Prop :=
  (∃ i ∈ rd.replicas, ∃ e, rd.resident i = some e ∧ e.version ≠ 0 ∧
    (rd.resident rd.coordinator).map stampOf ≠ some (stampOf e)) ∨
  (rd.owner ∈ rd.replicas ∧ rd.resident rd.owner = none)

end QuorumRead

/-! ## 2. When the reducer asks for a repair -/

namespace ReadReducer

/-- A vote that differs from `s`, or a miss that is reported as one. -/
def Disagrees (s : LwwStamp) (res : Response) : Prop :=
  (res.status = .ok ∧ res.version ≠ 0 ∧ res.vote ≠ s) ∨ res.status = .notFound

variable (q : ReadReducer)

theorem noteRemote_repair (clk : ClockReading) (res : Response) :
    ((q.noteRemote clk (some res) true).needsRepair = true ↔
      q.needsRepair = true ∨ Disagrees q.best res) ∧
    (¬ Disagrees q.best res →
      (q.noteRemote clk (some res) true).best = q.best ∧
      (q.noteRemote clk (some res) true).bestEntry = q.bestEntry) := by
  simp only [noteRemote, Bool.true_eq_false, if_false, Disagrees]
  split
  · rename_i hok
    split
    · rename_i hwins
      have hne : res.vote ≠ q.best := (lwwWinsOver_iff.mp hwins).ne'
      simp [hok.1, hok.2, hne]
    · split
      · rename_i hne
        have hne : res.vote ≠ q.best := fun h => hne (compareLww_eq_equal.mpr h)
        simp [hok.1, hok.2, hne]
      · rename_i heq
        have heq : res.vote = q.best := compareLww_eq_equal.mp (not_not.mp heq)
        simp [hok.1, hok.2, heq]
  · rename_i hvote
    split
    · rename_i hmiss
      simp [hmiss]
    · rename_i hmiss
      simp only [hmiss, or_false, and_self, implies_true, and_true]
      exact ⟨.inl, fun h => h.elim id fun h => absurd ⟨h.1, h.2.1⟩ hvote⟩

def responses (results : List (ClockReading × Option Response)) : List (ClockReading × Response) :=
  results.filterMap fun a => a.2.map (Prod.mk a.1)

def IsVote (res : Response) : Prop := res.status = .ok ∧ res.version ≠ 0

instance (res : Response) : Decidable (IsVote res) := inferInstanceAs (Decidable (_ ∧ _))

def voted (answers : List (ClockReading × Response)) : List VersionedEntry :=
  (answers.filter fun a => IsVote a.2).map fun a => votedEntry a.1 a.2

def foldResults (q : ReadReducer) (results : List (ClockReading × Option Response)) : ReadReducer :=
  results.foldl (fun q a => q.noteRemote a.1 a.2 true) q

/-- The fold of a whole list of answers, all of them before the decision. -/
def foldAnswers (q : ReadReducer) (answers : List (ClockReading × Response)) : ReadReducer :=
  answers.foldl (fun q a => q.noteRemote a.1 (some a.2) true) q

theorem needsRepair_foldResults (results : List (ClockReading × Option Response)) :
    (q.foldResults results).needsRepair = true ↔
      q.needsRepair = true ∨ ∃ a ∈ responses results, Disagrees q.best a.2 := by
  unfold foldResults
  induction results generalizing q with
  | nil => simp [responses]
  | cons a rest ih =>
    obtain ⟨clk, answer⟩ := a
    cases answer with
    | none => exact ih { q with pending := q.pending - 1 }
    | some res =>
      obtain ⟨hflag, hkeep⟩ := noteRemote_repair q clk res
      have hcons : responses ((clk, some res) :: rest) = (clk, res) :: responses rest := rfl
      rw [foldl_cons, ih, hflag, hcons, exists_mem_cons_iff]
      by_cases hdis : Disagrees q.best res
      · simp [hdis]
      · simp [hdis, (hkeep hdis).1]

variable (answers : List (ClockReading × Response))

theorem foldAnswers_eq : q.foldAnswers answers =
    q.foldResults (answers.map fun a => (a.1, some a.2)) := by
  rw [foldResults, foldl_map]
  rfl

theorem responses_map : responses (answers.map fun a => (a.1, some a.2)) = answers := by
  simp [responses, filterMap_map]

theorem needsRepair_fold :
    (q.foldAnswers answers).needsRepair = true ↔
      q.needsRepair = true ∨ ∃ a ∈ answers, Disagrees q.best a.2 := by
  rw [foldAnswers_eq, needsRepair_foldResults, responses_map]

theorem bestEntry_fold
    (h : ∀ a ∈ answers, ¬ Disagrees q.best a.2) :
    (q.foldAnswers answers).bestEntry = q.bestEntry := by
  unfold foldAnswers
  induction answers generalizing q with
  | nil => rfl
  | cons a rest ih =>
    obtain ⟨hbest, hentry⟩ := (noteRemote_repair q a.1 a.2).2 (h a mem_cons_self)
    rw [foldl_cons, ih _ fun b hb => hbest ▸ h b (mem_cons_of_mem _ hb), hentry]

theorem pending_fold : (q.foldAnswers answers).pending = q.pending - answers.length := by
  unfold foldAnswers
  induction answers generalizing q with
  | nil => rfl
  | cons a rest ih =>
    rw [foldl_cons, ih, (noteRemote_counts q a.1 (some a.2)).2.1, length_cons]
    omega

theorem voted_cons (a : ClockReading × Response) (answers : List (ClockReading × Response)) :
    voted (a :: answers) =
      if IsVote a.2 then votedEntry a.1 a.2 :: voted answers else voted answers := by
  unfold voted
  rw [filter_cons]
  split <;> simp_all

theorem acks_noteRemote (q : ReadReducer) (clk : ClockReading) (res : Response) :
    (q.noteRemote clk (some res) true).acks = q.acks + if IsVote res then 1 else 0 := by
  unfold noteRemote IsVote
  grind

/-- What folding some results does to a reducer. -/
structure Folded (q q' : ReadReducer) (answers : List (ClockReading × Response)) : Prop where
  wf : q'.Wf
  acks : q'.acks = q.acks + (voted answers).length
  among : ∀ e, q'.bestEntry = some e → q.bestEntry = some e ∨ e ∈ voted answers
  keeps : ∀ s, q.Covers s → q'.Covers s
  covers : ∀ e ∈ voted answers, q'.Covers (stampOf e)

theorem Folded.cons {q q' : ReadReducer} (h : q.Wf) {clk : ClockReading} {res : Response}
    (hv : res.status = .ok → res.version.toNat < 2 ^ 62) {answers : List (ClockReading × Response)}
    (hf : Folded (q.noteRemote clk (some res) true) q' answers) :
    Folded q q' ((clk, res) :: answers) where
  wf := hf.wf
  acks := by
    rw [hf.acks, acks_noteRemote, voted_cons]
    split <;> simp [add_assoc, add_comm 1]
  among e he := by
    rw [voted_cons]
    rcases noteRemote_cases q clk (some res) with ⟨-, hkeep, -⟩ |
      ⟨res', hres, hok, hne, -, -, hvote⟩
    · rw [← hkeep]
      refine (hf.among e he).imp_right fun hmem => ?_
      split
      · exact mem_cons_of_mem _ hmem
      · exact hmem
    · cases hres
      rw [if_pos ⟨hok, hne⟩]
      refine .inr ((hf.among e he).elim (fun hnew => ?_) (mem_cons_of_mem _))
      rw [hvote] at hnew
      exact Option.some.inj hnew ▸ mem_cons_self
  keeps s hs := hf.keeps s (hs.noteRemote h fun _ hres => Option.some.inj hres ▸ hv)
  covers e he := by
    rw [voted_cons] at he
    split at he
    · rename_i hvote
      rcases mem_cons.mp he with rfl | he
      · rw [stampOf_votedEntry clk (hv hvote.1)]
        exact hf.keeps _ (covers_vote h (hv hvote.1) hvote.1 hvote.2)
      · exact hf.covers e he
    · exact hf.covers e he

theorem foldResults_folded {q : ReadReducer} (h : q.Wf)
    {results : List (ClockReading × Option Response)}
    (hv : ∀ a ∈ responses results, a.2.status = .ok → a.2.version.toNat < 2 ^ 62) :
    Folded q (q.foldResults results) (responses results) := by
  induction results generalizing q with
  | nil =>
    exact ⟨h, rfl, fun _ => .inl, fun _ hs => hs, fun _ he => absurd he not_mem_nil⟩
  | cons a results ih =>
    obtain ⟨clk, answer⟩ := a
    cases answer with
    | none =>
      -- a transport error is counted and does nothing else
      exact { ih (q := { q with pending := q.pending - 1 }) ⟨h.winner, h.noWinner⟩ hv with }
    | some res =>
      have hres : res.status = .ok → res.version.toNat < 2 ^ 62 := hv (clk, res) mem_cons_self
      exact .cons h hres (ih (h.noteRemote fun _ hsome => Option.some.inj hsome ▸ hres)
        fun b hb => hv b (mem_cons_of_mem _ hb))

theorem wf_fold {q : ReadReducer} (h : q.Wf) {answers : List (ClockReading × Response)}
    (hv : ∀ a ∈ answers, a.2.version.toNat < 2 ^ 62) :
    (q.foldAnswers answers).Wf ∧ ∀ s, q.Covers s → (q.foldAnswers answers).Covers s := by
  rw [foldAnswers_eq]
  have hf := @foldResults_folded q h (answers.map fun a => (a.1, some a.2)) fun a ha _ =>
    hv a (responses_map answers ▸ ha)
  exact ⟨hf.wf, hf.keeps⟩

/-! ## 3. The greatest vote -/

/-- The reducer when it is first ready to fire, and the results it has seen by then. -/
def firstReady (q : ReadReducer) :
    List (ClockReading × Option Response) → ReadReducer × List (ClockReading × Option Response)
  | [] => (q, [])
  | a :: rest =>
    if q.shouldFire then (q, [])
    else
      let r := (q.noteRemote a.1 a.2 true).firstReady rest
      (r.1, a :: r.2)

theorem firstReady_eq (q : ReadReducer) (results : List (ClockReading × Option Response)) :
    (q.firstReady results).2 <+: results ∧
      (q.firstReady results).1 = q.foldResults (q.firstReady results).2 := by
  induction results generalizing q with
  | nil => exact ⟨prefix_rfl, rfl⟩
  | cons a rest ih =>
    unfold firstReady
    split
    · exact ⟨ nil_prefix, rfl⟩
    · exact ⟨(prefix_cons_inj a).mpr (ih _).1, (ih _).2⟩

/-- The local entry and the entries of the votes. -/
def candidates (localEntry : Option VersionedEntry) (seen : List (ClockReading × Option Response)) :
    List VersionedEntry :=
  localEntry.toList ++ voted (responses seen)

/-- What is answered with OK is a vote, with a version an entry can hold. -/
def Votes (results : List (ClockReading × Option Response)) : Prop :=
  ∀ a ∈ responses results, a.2.status = .ok → a.2.version ≠ 0 ∧ a.2.version.toNat < 2 ^ 62

variable {r total : Nat} {localEntry : Option VersionedEntry}
  {seen : List (ClockReading × Option Response)}

theorem mem_voted {answers : List (ClockReading × Response)} {e : VersionedEntry} :
    e ∈ voted answers ↔ ∃ a ∈ answers, IsVote a.2 ∧ votedEntry a.1 a.2 = e := by
  simp [voted, and_assoc]

theorem exists_disagrees_iff (hv : Votes seen) (s : LwwStamp) :
    (∃ a ∈ responses seen, Disagrees s a.2) ↔
      (∃ c ∈ voted (responses seen), stampOf c ≠ s) ∨
        ∃ a ∈ responses seen, a.2.status = .notFound := by
  have hstamp : ∀ a ∈ responses seen, IsVote a.2 → stampOf (votedEntry a.1 a.2) = a.2.vote :=
    fun a ha hvote => stampOf_votedEntry a.1 (hv a ha hvote.1).2
  simp only [mem_voted]
  unfold IsVote at *
  unfold Disagrees
  grind

theorem foldResults_start (hv : Votes seen) :
    let q := (start r total localEntry).foldResults seen
    q.acks = (candidates localEntry seen).length ∧
      (∀ c ∈ candidates localEntry seen, q.Covers (stampOf c)) ∧
      ∀ e, q.bestEntry = some e → e ∈ candidates localEntry seen ∧
        (q.needsRepair = true ↔ (∃ c ∈ candidates localEntry seen, stampOf c ≠ stampOf e) ∨
          localEntry = none ∨ ∃ a ∈ responses seen, a.2.status = .notFound) := by
  have hf := foldResults_folded (wf_start r total localEntry) fun a ha hok => (hv a ha hok).2
  have hrepair := (needsRepair_foldResults (start r total localEntry) seen).trans
    (or_congr_right (exists_disagrees_iff hv _))
  cases localEntry with
  | none =>
    refine ⟨hf.acks.trans (zero_add _), hf.covers, fun e he => ?_⟩
    have hmem : e ∈ voted (responses seen) := (hf.among e he).resolve_left nofun
    refine ⟨hmem,
      iff_of_true (hrepair.mpr (.inr (.inl ⟨e, hmem, fun hzero => ?_⟩))) (.inr (.inl rfl))⟩
    -- the stamp of a vote is not the zero stamp a reducer without an entry starts with
    obtain ⟨a, ha, hvote, rfl⟩ := mem_voted.mp hmem
    rw [stampOf_votedEntry a.1 (hv a ha hvote.1).2] at hzero
    exact hvote.2 (congrArg LwwStamp.version hzero)
  | some l =>
    have hcovers : ∀ c ∈ candidates (some l) seen,
        ((start r total (some l)).foldResults seen).Covers (stampOf c) :=
      forall_mem_cons.mpr ⟨hf.keeps _ ⟨l, rfl, le_rfl⟩, hf.covers⟩
    refine ⟨hf.acks.trans (add_comm _ _), hcovers, fun e he => ?_⟩
    have hmem : e ∈ candidates (some l) seen :=
      mem_cons.mpr ((hf.among e he).imp_left fun h => (Option.some.inj h).symm)
    refine ⟨hmem, hrepair.trans ?_⟩
    have hstart : (start r total (some l)).needsRepair = false := rfl
    have hbest : (start r total (some l)).best = stampOf l := rfl
    have hall : candidates (some l) seen = l :: voted (responses seen) := rfl
    rw [hall] at hmem ⊢
    grind

/-- **The reducer computes the last-writer-wins maximum.** When it is first ready, the winner is the
greatest of the local entry and the votes seen, each of them is counted, and a repair is asked for
exactly if one differs from the winner, the local entry is missing, or a replica misses the key. In
another order the same results give the same stamp and flag, and the same entry where stamps tell
entries apart. -/
theorem reducer_computes_maximum (r total : Nat) (localEntry : Option VersionedEntry)
    (results : List (ClockReading × Option Response)) (hv : Votes results) :
    let ready := (start r total localEntry).firstReady results
    let seen := candidates localEntry ready.2
    ready.2 <+: results ∧ ready.1.acks = seen.length ∧ (ready.1.bestEntry = none ↔ seen = []) ∧
    ∀ e, ready.1.bestEntry = some e →
      e ∈ seen ∧ (∀ c ∈ seen, stampOf c ≤ stampOf e) ∧
      (ready.1.needsRepair = true ↔ (∃ c ∈ seen, stampOf c ≠ stampOf e) ∨ localEntry = none ∨
        ∃ a ∈ responses ready.2, a.2.status = .notFound) ∧
      ∀ again, again.Perm ready.2 → ∃ e',
        ((start r total localEntry).foldResults again).bestEntry = some e' ∧
        stampOf e' = stampOf e ∧
        ((∀ c ∈ seen, stampOf c = stampOf e → c = e) → e' = e) ∧
        ((start r total localEntry).foldResults again).needsRepair = ready.1.needsRepair := by
  intro ready seen
  obtain ⟨hseen, hready⟩ := firstReady_eq (start r total localEntry) results
  have hsub : ∀ a ∈ responses ready.2, a ∈ responses results :=
    fun a ha => (hseen.sublist.filterMap _).subset ha
  obtain ⟨hacks, hcovers, hbest⟩ :=
    @foldResults_start r total localEntry ready.2 fun a ha => hv a (hsub a ha)
  rw [← hready] at hacks hcovers hbest
  have hgreatest : ∀ e, ready.1.bestEntry = some e → ∀ c ∈ seen, stampOf c ≤ stampOf e := by
    intro e he c hc
    obtain ⟨e', he', hle⟩ := hcovers c hc
    rwa [Option.some.inj (he.symm.trans he')]
  refine ⟨hseen, hacks, ⟨fun hnone => ?_, fun hnil => ?_⟩, fun e he => ?_⟩
  · refine eq_nil_iff_forall_not_mem.mpr fun c hc => ?_
    obtain ⟨e, he, -⟩ := hcovers c hc
    cases hnone.symm.trans he
  · exact Option.eq_none_iff_forall_not_mem.mpr fun e he =>
      absurd (hnil ▸ (hbest e he).1 : e ∈ []) not_mem_nil
  obtain ⟨hmem, hrepair⟩ := hbest e he
  refine ⟨hmem, hgreatest e he, hrepair, fun again hperm => ?_⟩
  have hresponses : (responses again).Perm (responses ready.2) := hperm.filterMap _
  have hcandidates : (candidates localEntry again).Perm seen :=
    (((hresponses.filter _).map _)).append_left _
  obtain ⟨-, hcovers', hbest'⟩ :=
    @foldResults_start r total localEntry again fun a ha => hv a (hsub a (hresponses.subset ha))
  obtain ⟨e', he', hle⟩ := hcovers' e (hcandidates.symm.subset hmem)
  obtain ⟨hmem', hrepair'⟩ := hbest' e' he'
  have hseen' := hcandidates.subset hmem'
  have hstamp : stampOf e' = stampOf e := (hgreatest e he e' hseen').antisymm hle
  refine ⟨e', he', hstamp, fun hone => hone e' hseen' hstamp, ?_⟩
  rw [Bool.eq_iff_iff, hrepair', hrepair, hstamp]
  simp only [hcandidates.mem_iff, hresponses.mem_iff]
  exact Iff.rfl

/-- Of the versions 3 (local), 5 and none, 5 wins with two acknowledgements, and is to be sent. -/
theorem reducer_computes_maximum_two :
    let ready := (start 2 2 (some (VersionedEntry.setVersion {} 3))).firstReady
      [({}, some { status := .notFound }), ({}, some { status := .ok, version := 5 })]
    ready.1.acks = 2 ∧ ready.1.needsRepair = true ∧
      ∃ e, ready.1.bestEntry = some e ∧ e.version = 5 ∧
        ∀ c ∈ candidates (some (VersionedEntry.setVersion {} 3)) ready.2,
          stampOf c ≤ stampOf e := by
  have hv :
      Votes [({}, some { status := .notFound }), ({}, some { status := .ok, version := 5 })] := by
    unfold Votes
    decide
  obtain ⟨-, hacks, -, hbest⟩ :=
    reducer_computes_maximum 2 2 (some (VersionedEntry.setVersion {} 3)) _ hv
  obtain ⟨-, hgreatest, hrepair, -⟩ := hbest _ rfl
  exact ⟨hacks, hrepair.mpr (.inr (.inr ⟨_, mem_cons_self, rfl⟩)), _, rfl, rfl, hgreatest⟩

end ReadReducer

/-! ## 4. The fan-out of the read -/

namespace QuorumRead

variable (rd : QuorumRead)

def reducer : ReadReducer :=
  .start rd.replicaFactor.toNat rd.replicas.length (rd.resident rd.coordinator)

def answers (order : List NodeId) : List (ClockReading × Response) :=
  order.map fun i => (rd.arrival i, rd.answer i)

theorem flight_append (l : List NodeId) (i : NodeId) :
    rd.flight (l ++ [i]) = ((rd.flight l).report i (rd.arrival i) (some (rd.answer i))).1 := by
  simp [flight, foldl_append]

variable {order : List NodeId}

theorem flight_state (hopen : ∀ l, l <+: order → l ≠ order → (rd.flight l).fan.fired = false) :
    (rd.flight order).fan.state = rd.reducer.foldAnswers (rd.answers order) := by
  induction order using reverseRecOn with
  | nil => rfl
  | append_singleton l i ih =>
    have hl : (rd.flight l).fan.fired = false := hopen l (prefix_append l [i]) (by simp)
    have ih := ih fun l' hl' hne => by
      refine hopen l' (hl'.trans (prefix_append l [i])) fun h => ?_
      have := hl'.length_le
      rw [h, length_append, length_singleton] at this
      omega
    rw [flight_append]
    show (rd.flight l).fan.state.noteRemote (rd.arrival i) (some (rd.answer i))
      (!(rd.flight l).fan.fired) = _
    rw [hl, ih]
    simp [foldAnswers, answers, foldl_append]

theorem flight_fired (horder : order.Perm rd.replicas)
    (hopen : ∀ l, l <+: order → l ≠ order → (rd.flight l).fan.fired = false) :
    (rd.flight order).fan.fired = true := by
  have hstate := rd.flight_state hopen
  obtain ⟨i, hi, hne⟩ := rd.quorum.2
  have hmem : i ∈ order := horder.mem_iff.mpr (mem_filter.mpr ⟨hi, by simpa using hne⟩)
  obtain ⟨l, j, rfl⟩ : ∃ l j, order = l ++ [j] :=
    ⟨_, _, (dropLast_append_getLast (ne_nil_of_mem hmem)).symm⟩
  have hfire : (rd.flight (l ++ [j])).fan.state.shouldFire = true := by
    have hpending : (rd.flight (l ++ [j])).fan.state.pending = 0 := by
      rw [hstate, pending_fold]
      have hstart : rd.reducer.pending = rd.replicas.length := by
        unfold reducer start
        split <;> rfl
      rw [hstart, answers, length_map, horder.length_eq, Nat.sub_self]
    simp [shouldFire, hpending]
  have hl : (rd.flight l).fan.fired = false := hopen l (prefix_append l [j]) (by simp)
  rw [flight_append] at hfire ⊢
  change ((rd.flight l).fan.state.noteRemote (rd.arrival j) (some (rd.answer j))
    (!(rd.flight l).fan.fired)).shouldFire = true at hfire
  show ((rd.flight l).fan.fired || (!(rd.flight l).fan.fired &&
    ((rd.flight l).fan.state.noteRemote (rd.arrival j) (some (rd.answer j))
      (!(rd.flight l).fan.fired)).shouldFire)) = true
  rw [hfire, hl]
  rfl

/-! ## 5. Staleness and repair -/

theorem lookup_getVersioned (t : Table) (now : Nanos) (key : Key) :
    (t.getVersioned now key).1.lookup key = (t.getVersioned now key).2 := by
  unfold Table.getVersioned
  split
  · split
    · exact AList.lookup_erase key t
    · assumption
  · assumption

theorem best_reducer : rd.reducer.best = ((rd.resident rd.coordinator).map stampOf).getD {} := by
  unfold reducer start
  split <;> rename_i h <;> rw [h] <;> rfl

theorem disagrees_answer (i : NodeId) :
    ReadReducer.Disagrees rd.reducer.best (rd.answer i) ↔
      (∃ e, rd.resident i = some e ∧ e.version ≠ 0 ∧
        (rd.resident rd.coordinator).map stampOf ≠ some (stampOf e)) ∨
      (rd.owner = i ∧ rd.resident i = none) := by
  unfold ReadReducer.Disagrees answer
  cases hres : rd.resident i with
  | some e =>
    have hvote : (getVersionedResponse (rd.clk i) (rd.config.redirect i) (some e)).vote =
        stampOf e := rfl
    have hversion : (getVersionedResponse (rd.clk i) (rd.config.redirect i) (some e)).version =
        e.version := rfl
    have hok : (getVersionedResponse (rd.clk i) (rd.config.redirect i) (some e)).status = .ok := rfl
    have hstart : e.version ≠ 0 → (stampOf e ≠ rd.reducer.best ↔
        (rd.resident rd.coordinator).map stampOf ≠ some (stampOf e)) := by
      intro hne
      rw [best_reducer]
      cases rd.resident rd.coordinator with
      | some e0 => simp [eq_comm]
      | none =>
        have hzero : stampOf e ≠ {} := fun h => hne (congrArg LwwStamp.version h)
        simp [hzero]
    simp only [hok, hversion, hvote, true_and, reduceCtorEq, or_false, Option.some.injEq,
      exists_eq_left', and_false]
    exact and_congr_right hstart
  | none =>
    simp only [config, reduceCtorEq, false_and, exists_false, false_or, and_true]
    by_cases how : rd.owner = i
    · simp [how, getVersionedResponse]
    · simp [how, getVersionedResponse]

theorem needsRepair_iff (horder : order.Perm rd.replicas)
    (hopen : ∀ l, l <+: order → l ≠ order → (rd.flight l).fan.fired = false) :
    (rd.flight order).fan.state.needsRepair = true ↔ rd.ShowsStaleness := by
  have hstart : rd.reducer.needsRepair = false := by
    unfold reducer start
    split <;> rfl
  rw [rd.flight_state hopen, needsRepair_fold, hstart]
  simp only [Bool.false_eq_true, false_or, answers, mem_map, exists_exists_and_eq_and,
    disagrees_answer, ShowsStaleness, horder.mem_iff]
  constructor
  · rintro ⟨i, hi, hvote | ⟨rfl, hmiss⟩⟩
    · exact .inl ⟨i, hi, hvote⟩
    · exact .inr ⟨hi, hmiss⟩
  · rintro (⟨i, hi, hvote⟩ | ⟨hi, hmiss⟩)
    · exact ⟨i, hi, .inl hvote⟩
    · exact ⟨_, hi, .inr ⟨rfl, hmiss⟩⟩

/-- The coordinator ends up with the winner exactly if its store keeps it. -/
theorem lookup_heal {winner : VersionedEntry}
    (hopen : ∀ l, l <+: order → l ≠ order → (rd.flight l).fan.fired = false)
    (hw : (rd.flight order).fan.state.bestEntry = some winner) :
    ((rd.selfHeal.apply ((rd.copies rd.coordinator).getVersioned (rd.clk rd.coordinator).now
      rd.key).1 rd.key winner).lookup rd.key).map stampOf = some (stampOf winner) ↔
      rd.selfHeal = .kept := by
  have hold := lookup_getVersioned (rd.copies rd.coordinator) (rd.clk rd.coordinator).now rd.key
  cases hheal : rd.selfHeal with
  | refused => simp [SelfHeal.apply, hold, rd.refusal hheal]
  | evicted => simp [SelfHeal.apply]
  | kept =>
  refine iff_of_true ?_ rfl
  rw [rd.flight_state hopen] at hw
  unfold SelfHeal.apply Table.putVersioned
  rw [hold]
  cases hres : ((rd.copies rd.coordinator).getVersioned (rd.clk rd.coordinator).now rd.key).2 with
  | none => simp
  | some e0 =>
    have hcovers : rd.reducer.Covers (stampOf e0) :=
      ⟨e0, (bestEntry_start _ _ _).trans hres, le_rfl⟩
    have hv : ∀ a ∈ rd.answers order, a.2.version.toNat < 2 ^ 62 := by
      intro a ha
      obtain ⟨i, -, rfl⟩ := mem_map.mp ha
      exact getVersionedResponse_version_lt _ _ _
    obtain ⟨e, he, hle⟩ := (wf_fold (wf_start _ _ _) hv).2 _ hcovers
    obtain rfl : e = winner := Option.some.inj (he.symm.trans hw)
    dsimp only
    rw [if_neg (by rw [compareLww_eq_less]; exact not_lt.mpr hle)]
    simp

theorem repair_flight (order : List NodeId) : (rd.flight order).repair = none := by
  induction order using reverseRecOn with
  | nil => rfl
  | append_singleton l i ih =>
    rw [flight_append]
    exact ih

theorem decision_eq {winner : VersionedEntry} (clk : ClockReading)
    (hfired : (rd.flight order).fan.fired = true)
    (hw : (rd.flight order).fan.state.bestEntry = some winner) : rd.decision clk order =
      let t := ((rd.copies rd.coordinator).getVersioned (rd.clk rd.coordinator).now rd.key).1
      if (rd.flight order).fan.state.needsRepair then
        (rd.selfHeal.apply t rd.key winner, rd.replicas.map (·, repairRequest clk rd.key winner))
      else (t, []) := by
  have hrep := rd.repair_flight order
  unfold decision Flight.decide
  simp only [hfired, if_true, hw]
  cases hneeds : (rd.flight order).fan.state.needsRepair with
  | true =>
    simp only [if_true]
    rfl
  | false => simp only [hrep, Bool.false_eq_true, if_false]

/-- **Which stale nodes a read repairs.** For every quorum read all of whose answers come in before
the decision, in any order: if it has a winner and the coordinator or a replica is stale, the winner
is healed locally and sent to every stale replica exactly if some vote differs from the
coordinator's entry or the key's ring owner is a replica that misses it, and the coordinator's store
keeps the winner. -/
theorem read_repair_iff {order : List NodeId} (horder : order.Perm rd.replicas)
    (hopen : ∀ l, l <+: order → l ≠ order → (rd.flight l).fan.fired = false)
    {winner : VersionedEntry} (hw : (rd.flight order).fan.state.bestEntry = some winner)
    (hstale : ∃ i ∈ rd.coordinator :: rd.replicas, rd.Stale winner i) (clk : ClockReading) :
    rd.Repaired clk order winner ↔ rd.ShowsStaleness ∧ rd.selfHeal = .kept := by
  have hdecision := rd.decision_eq clk (rd.flight_fired horder hopen) hw
  have hneeds := rd.needsRepair_iff horder hopen
  by_cases hshow : rd.ShowsStaleness
  · have hflag := hneeds.mpr hshow
    simp only [hflag, if_true] at hdecision
    rw [Repaired, hdecision, rd.lookup_heal hopen hw, and_iff_right hshow]
    refine and_iff_left fun i hi _ => ?_
    exact ⟨_, mem_map.mpr ⟨i, hi, rfl⟩, stamp_entryRequest clk rd.key winner⟩
  · refine iff_of_false ?_ fun h => hshow h.1
    rintro ⟨-, hsent⟩
    have hflag : (rd.flight order).fan.state.needsRepair = false := by
      rw [Bool.eq_false_iff, ne_eq, hneeds]
      exact hshow
    obtain ⟨i, hi, hold⟩ := hstale
    rcases mem_cons.mp hi with rfl | hi
    · -- nobody disagrees with the coordinator, so its entry is the winner
      have hlocal : rd.resident rd.coordinator = some winner := by
        rw [rd.flight_state hopen] at hw hflag
        rw [bestEntry_fold, reducer, bestEntry_start] at hw
        · exact hw
        · intro a ha hdis
          have := (needsRepair_fold _ _).mpr (.inr ⟨a, ha, hdis⟩)
          rw [hflag] at this
          cases this
      exact lt_irrefl _ (hold winner hlocal)
    · obtain ⟨req, hreq, -⟩ := hsent i hi hold
      rw [hdecision, hflag] at hreq
      cases hreq

/-- Two nodes on a ring; node 1 owns every key. -/
def pairRing : RingSnapshot where
  physicalNodes := [[1], [2]]
  vnodes := [(10, ⟨0, by decide⟩), (20, ⟨1, by decide⟩)]
  sorted := by simp
  nodup := by decide

/-- Node 1 reads key 7, of which it holds `own` and node 2 holds `other`. -/
def pairRead (own other : Option VersionedEntry) (selfHeal : SelfHeal)
    (h : selfHeal = .refused → own = none) : QuorumRead where
  ring := pairRing
  hash64 := fun _ => 0
  key := [7]
  replicaFactor := 2
  nodes := [[1], [2]]
  placed := rfl
  coordinator := [1]
  quorum := by decide
  copies := fun i => ((if i = [1] then own else other).map fun e => AList.insert [7] e ∅).getD ∅
  clk := fun _ => {}
  arrival := fun _ => {}
  addr := fun _ => none
  selfHeal := selfHeal
  refusal := fun hr => by
    rw [h hr]
    rfl

def firstVersion : VersionedEntry := { versionAndTtl := 4, value := [5] }

def secondVersion : VersionedEntry := { versionAndTtl := 8, value := [6] }

/-- Node 2 holds version 2: it wins, node 1 is healed, and the repair goes out. -/
theorem read_repair_newer_replica :
    (pairRead (some firstVersion) (some secondVersion) .kept nofun).Repaired {} [[2]]
      secondVersion := by
  have hopen : ∀ l, l <+: [[2]] → l ≠ [[2]] → ((pairRead (some firstVersion) (some secondVersion)
      .kept nofun).flight l).fan.fired = false := by
    intro l hl hne
    have hlen : l.length ≠ 1 := fun h => hne (hl.eq_of_length h)
    have hle : l.length ≤ 1 := hl.length_le
    obtain rfl : l = [] := length_eq_zero_iff.mp (by omega)
    rfl
  refine (read_repair_iff (pairRead (some firstVersion) (some secondVersion) .kept nofun)
    (show List.Perm [[2]] _ from .refl _) hopen rfl ⟨[1], mem_cons_self, ?_⟩ {}).mpr ⟨.inl ?_, rfl⟩
  · rintro e ⟨⟩
    decide
  · exact ⟨[2], by decide, _, rfl, by decide, by decide⟩

/-- Node 2 misses the key and redirects to node 1: the read has a winner and a stale replica,
and nothing is sent. Node 1 misses it and its store refuses the winner: it still misses it. -/
theorem missing_replica_not_repaired :
    (let rd := pairRead (some firstVersion) none .kept nofun;
      (rd.flight [[2]]).fan.fired = true ∧
        (rd.flight [[2]]).fan.state.bestEntry = some firstVersion ∧
        [2] ∈ rd.replicas ∧ rd.Stale firstVersion [2] ∧ ¬ rd.Repaired {} [[2]] firstVersion) ∧
    let rd := pairRead none (some secondVersion) .refused fun _ => rfl
    (rd.flight [[2]]).fan.fired = true ∧
      (rd.flight [[2]]).fan.state.bestEntry = some secondVersion ∧
      rd.Stale secondVersion [1] ∧ ¬ rd.Repaired {} [[2]] secondVersion := by
  refine ⟨?_, ?_⟩
  · intro rd
    have hstale : rd.Stale firstVersion [2] := nofun
    refine ⟨by decide +kernel, by decide +kernel, by decide, hstale, fun hrep => ?_⟩
    obtain ⟨req, hreq, -⟩ := hrep.2 [2] (by decide) hstale
    have hsent : (rd.decision {} [[2]]).2 = [] := by decide +kernel
    rw [hsent] at hreq
    cases hreq
  · intro rd
    refine ⟨by decide +kernel, by decide +kernel, nofun, fun hrep => ?_⟩
    have hmissing : (rd.decision {} [[2]]).1.lookup [7] = none := by decide +kernel
    have hheld := hrep.1
    rw [show rd.key = [7] from rfl, hmissing] at hheld
    cases hheld

end QuorumRead

end Cinder
