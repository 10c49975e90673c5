/-
Which keys a rebalance leaves behind, and whether another one is scheduled for them
(`src/node/cache_node_server.cpp`, `src/node/shard_manager.cpp`).

A run defers keys whose owners are in quarantine and migrates the others. Deferred keys arm the
quarantine timer, with the interval of the SERVER; the shard manager keeps the interval it was
built with. A failed send to a primary arms the retry timer. A migration whose primary has
acknowledged before its replicas arms nothing.
-/
import Cinder.Node.Migration

namespace Cinder

open Transition List ShardNode Migration

/-! ## 1. Timers -/

structure RebalanceTimers where
  rebalancePending : Bool := false
  /-- The quarantine timer has no flag of its own in the source; arming it again moves it. -/
  quarantineArmed : Bool := false
  migrationRetryPending : Bool := false
  deriving DecidableEq, Repr

inductive RunTimer where
  | debounce | quarantine
  deriving DecidableEq, Repr

namespace RebalanceTimers

variable (t : RebalanceTimers)

def armed : Bool := t.rebalancePending || t.quarantineArmed || t.migrationRetryPending

def scheduleRebalanceDebounced : RebalanceTimers :=
  if t.rebalancePending then t else { t with rebalancePending := true }

def scheduleRebalance (quarantineInterval : Int) : RebalanceTimers :=
  if quarantineInterval ≤ 0 then t else { t with quarantineArmed := true }

def scheduleMigrationRetry : RebalanceTimers :=
  if t.migrationRetryPending || t.rebalancePending then t
  else { t with migrationRetryPending := true }

/-- The timer as its handler leaves it; a timer that is not armed does not fire. -/
def fired : RunTimer → Option RebalanceTimers
  | .debounce => if t.rebalancePending then some { t with rebalancePending := false } else none
  | .quarantine => if t.quarantineArmed then some { t with quarantineArmed := false } else none

theorem armed_scheduleRebalance (interval : Int) :
    (t.scheduleRebalance interval).armed = true ↔ t.armed = true ∨ 0 < interval := by
  unfold scheduleRebalance
  split
  · rename_i hoff
    exact ⟨.inl, fun h => h.resolve_right (not_lt.mpr hoff)⟩
  · rename_i hon
    simp [armed, not_le.mp hon]

theorem armed_scheduleMigrationRetry : t.scheduleMigrationRetry.armed = true := by
  unfold scheduleMigrationRetry
  split
  · rename_i h
    rw [Bool.or_eq_true] at h
    unfold armed
    rcases h with h | h <;> simp [h]
  · simp [armed]

end RebalanceTimers

/-! ## 2. The server -/

structure RebalanceServer where
  node : ShardNode
  timers : RebalanceTimers := {}
  /-- `quarantine_interval_` of the server, in milliseconds. -/
  quarantineInterval : Int

inductive ServerEvent where
  /-- the end of `rebuildRing` -/
  | rebuilt
  | fires (timer : RunTimer) (clk : ClockReading) (snapTime : Nanos)
  | retryFires
  /-- the callback of one send of the `i`-th migration -/
  | result (i : Nat) (send : Send) (ok : Bool)
  /-- `applyHotField("quarantine_interval_ms")` -/
  | hotReload (quarantineInterval : Int)

namespace RebalanceServer

variable (hash64 : Bytes → UInt64) (cfg : ShardConfig)

def runRebalance (s : RebalanceServer) (clk : ClockReading) (snapTime : Nanos) :
    Option RebalanceServer :=
  match s.node.rebalance hash64 cfg clk snapTime with
  | .error _ => none
  | .ok (deferred, node) =>
    some { s with
      node
      timers := if deferred then s.timers.scheduleRebalance s.quarantineInterval else s.timers }

def step (s : RebalanceServer) : ServerEvent → Option RebalanceServer
  | .rebuilt => some { s with timers := s.timers.scheduleRebalanceDebounced }
  | .fires timer clk snapTime =>
    (s.timers.fired timer).bind fun timers =>
      runRebalance hash64 cfg { s with timers } clk snapTime
  | .retryFires =>
    if s.timers.migrationRetryPending then
      some { s with timers :=
        { s.timers with migrationRetryPending := false }.scheduleRebalanceDebounced }
    else none
  | .result i send ok =>
    match s.node.migrations[i]? with
    | some m =>
      if send ∈ m.waiting then
        some { s with
          node := s.node.onResult i m send ok
          timers := if (m.onResult send ok).2 = .failed then s.timers.scheduleMigrationRetry
            else s.timers }
      else none
    | none => none
  | .hotReload quarantineInterval => some { s with quarantineInterval }

end RebalanceServer

def ServerEvent.isResult : ServerEvent → Bool
  | .result _ _ _ => true
  | _ => false

/-! ## 3. What a run defers and migrates -/

section Collected

variable {hash64 : Bytes → UInt64} {cfg : ShardConfig} {me : NodeId} {quarantined : NodeId → Bool}
  {replicas : Key → Except String (List NodeId)}

theorem deferred_collect (p : Pushes) (key : Key) (entry : VersionedEntry) (desired : List NodeId) :
    0 < (p.collect me quarantined key entry desired).deferredCount ↔
      0 < p.deferredCount ∨ ∃ o ∈ desired, o ≠ me ∧ quarantined o = true := by
  have hcount : ∀ (n : Nat) (l : List NodeId), 0 < n + (l.filter quarantined).length ↔
      0 < n ∨ ∃ o ∈ l, quarantined o = true := by
    intro n l
    rw [Nat.add_pos_iff_pos_or_pos, length_pos_iff_exists_mem]
    simp only [mem_filter]
  unfold Pushes.collect
  cases desired with
  | nil => simp
  | cons primary others =>
    dsimp only
    split
    · rw [hcount]
      simp [and_assoc]
    · rename_i hout
      have hne : ∀ o ∈ primary :: others, o ≠ me := fun o ho heq => hout (heq ▸ ho)
      have hall : (∃ o ∈ primary :: others, o ≠ me ∧ quarantined o = true) ↔
          ∃ o ∈ primary :: others, quarantined o = true :=
        ⟨fun ⟨o, ho, _, hq⟩ => ⟨o, ho, hq⟩, fun ⟨o, ho, hq⟩ => ⟨o, ho, hne o ho, hq⟩⟩
      rw [hall]
      split
      · rename_i hq
        exact ⟨fun _ => .inr ⟨primary, mem_cons_self, hq⟩, fun _ => Nat.succ_pos _⟩
      · rename_i hq
        rw [hcount]
        simp [hq]

theorem deferred_collectPushes {live : List (Key × VersionedEntry)} {p p' : Pushes}
    (h : collectPushes me quarantined replicas live p = .ok p') :
    0 < p'.deferredCount ↔ 0 < p.deferredCount ∨ ∃ kv ∈ live, ∃ desired,
      replicas kv.1 = .ok desired ∧ ∃ o ∈ desired, o ≠ me ∧ quarantined o = true := by
  induction live generalizing p with
  | nil =>
    cases h
    simp
  | cons kv rest ih =>
    obtain ⟨key, entry⟩ := kv
    rw [collectPushes] at h
    split at h
    · cases h
    · rename_i desired hdes
      rw [ih h, deferred_collect, exists_mem_cons_iff]
      simp only [hdes, Except.ok.injEq, exists_eq_left', or_assoc]

theorem migrates_complete {live : List (Key × VersionedEntry)} {p p' : Pushes}
    (h : collectPushes me quarantined replicas live p = .ok p') {key : Key}
    {entry : VersionedEntry} (hlive : (key, entry) ∈ live) {primary : NodeId}
    {others : List NodeId} (hdes : replicas key = .ok (primary :: others))
    (hout : me ∉ primary :: others) (hq : quarantined primary = false) :
    ∃ m ∈ p'.migrates, m.key = key ∧ m.primary = primary := by
  induction live generalizing p with
  | nil => exact absurd hlive not_mem_nil
  | cons kv rest ih =>
    rw [collectPushes] at h
    split at h
    · cases h
    · rename_i desired hdes'
      rcases mem_cons.mp hlive with heq | hlive
      · obtain ⟨ms, hms, -, -⟩ := migrates_collectPushes h
        obtain rfl := heq
        obtain rfl : primary :: others = desired := Except.ok.inj (hdes.symm.trans hdes')
        refine ⟨⟨key, entry, primary, others.filter fun o => !quarantined o⟩, ?_, rfl, rfl⟩
        rw [hms]
        refine mem_append_left _ ?_
        simp [Pushes.collect, hout, hq]
      · exact ih h hlive

end Collected

/-! ## 4. The callbacks of a run -/

/-- The send to the primary came back with an error. -/
def Migration.PrimaryFailed (m : Migration) : Prop := .primary ∉ m.waiting ∧ .primary ∉ m.acked

section Callbacks

variable {m : Migration} {send : Send}

theorem Migration.onResult_failed {ok : Bool} :
    (m.onResult send ok).2 = .failed ↔ send = .primary ∧ ok = false := by
  unfold onResult
  cases send <;> cases ok <;> simp
  split <;> simp

theorem Migration.Counted.primaryFailed_onResult (h : m.Counted) (hs : send ∈ m.waiting)
    (ok : Bool) :
    (m.onResult send ok).1.PrimaryFailed ↔ m.PrimaryFailed ∨ (m.onResult send ok).2 = .failed := by
  have hnodup : m.waiting.Nodup := (sublist_append_right _ _).nodup h.tracked.nodup
  rw [onResult_failed, onResult_fst, Migration.PrimaryFailed, Migration.PrimaryFailed]
  cases send with
  | primary =>
    have hnot := h.tracked.not_settled hs
    cases ok <;> simp [hs, hnot, hnodup.not_mem_erase]
  | replica i =>
    have hother : Send.primary ∈ m.waiting.erase (.replica i) ↔ Send.primary ∈ m.waiting :=
      mem_erase_of_ne (by simp)
    cases ok <;> simp [hother]

/-- What the callbacks of a run keep; `armed₀` says whether a timer was armed when the run had
sent everything. -/
structure RunInv (before : ShardNode) (pushes : List MigratePush) (armed₀ : Bool)
    (s : RebalanceServer) : Prop where
  drop : DropInv before.store pushes s.node
  ring : s.node.ring = before.ring
  timers : s.timers.armed = true ↔ armed₀ = true ∨ ∃ m ∈ s.node.migrations, m.PrimaryFailed

variable {hash64 : Bytes → UInt64} {cfg : ShardConfig} {s s' : RebalanceServer}
  {before : ShardNode} {pushes : List MigratePush} {armed₀ : Bool}

theorem RebalanceServer.step_result {i : Nat} {ok : Bool}
    (h : s.step hash64 cfg (.result i send ok) = some s') :
    ∃ m, s.node.migrations[i]? = some m ∧ send ∈ m.waiting ∧
      s' = { s with
        node := s.node.onResult i m send ok
        timers := if (m.onResult send ok).2 = .failed then s.timers.scheduleMigrationRetry
          else s.timers } := by
  simp only [RebalanceServer.step] at h
  split at h
  · rename_i m hm
    split at h
    · rename_i hs
      exact ⟨m, hm, hs, (Option.some.inj h).symm⟩
    · cases h
  · cases h

theorem ShardNode.ring_onResult (s : ShardNode) (i : Nat) (m : Migration) (send : Send)
    (ok : Bool) : (s.onResult i m send ok).ring = s.ring := by
  unfold onResult
  split <;> rfl

theorem exists_mem_set_iff {α : Type} {p : α → Prop} {l : List α} {i : Nat} {a a' : α}
    (hi : l[i]? = some a) (hp : p a → p a') : (∃ x ∈ l.set i a', p x) ↔ p a' ∨ ∃ x ∈ l, p x := by
  have hlt : i < l.length := (List.getElem?_eq_some_iff.mp hi).1
  constructor
  · rintro ⟨x, hx, hpx⟩
    rcases mem_or_eq_of_mem_set hx with hold | rfl
    · exact .inr ⟨x, hold, hpx⟩
    · exact .inl hpx
  · rintro (hpa | ⟨x, hx, hpx⟩)
    · exact ⟨a', mem_set hlt _, hpa⟩
    · obtain ⟨j, hj⟩ := getElem?_of_mem hx
      by_cases hij : i = j
      · obtain rfl : a = x := Option.some.inj (hi.symm.trans (hij ▸ hj))
        exact ⟨a', mem_set hlt _, hp hpx⟩
      · refine ⟨x, mem_of_getElem? (i := j) ?_, hpx⟩
        rw [getElem?_set_ne hij, hj]

theorem RunInv.result (h : RunInv before pushes armed₀ s) {i : Nat} {m : Migration}
    (hm : s.node.migrations[i]? = some m) (hs : send ∈ m.waiting) (ok : Bool) :
    RunInv before pushes armed₀ { s with
      node := s.node.onResult i m send ok
      timers := if (m.onResult send ok).2 = .failed then s.timers.scheduleMigrationRetry
        else s.timers } := by
  have hfailed := (h.drop.counted m (mem_of_getElem? hm)).primaryFailed_onResult hs ok
  refine ⟨dropInv_onResult h.drop hm hs, (ring_onResult ..).trans h.ring, ?_⟩
  rw [migrations_onResult, exists_mem_set_iff hm fun hp => hfailed.mpr (.inl hp), hfailed]
  by_cases hnow : (m.onResult send ok).2 = .failed
  · simp [hnow, RebalanceTimers.armed_scheduleMigrationRetry]
  · have hmem : m.PrimaryFailed → ∃ x ∈ s.node.migrations, x.PrimaryFailed :=
      fun hp => ⟨m, mem_of_getElem? hm, hp⟩
    simp only [hnow, if_false, or_false]
    rw [h.timers, or_iff_right_of_imp hmem]

theorem runInv_reaches {s₁ s₂ : RebalanceServer}
    (h : Reaches (RebalanceServer.step hash64 cfg) (fun _ e => e.isResult = true) s₁ s₂)
    (h0 : RunInv before pushes armed₀ s₁) : RunInv before pushes armed₀ s₂ := by
  refine h.invariant h0 ?_
  intro s e s' hinv hres hstep
  cases e with
  | result i send ok =>
    obtain ⟨m, hm, hs, rfl⟩ := RebalanceServer.step_result hstep
    exact hinv.result hm hs ok
  | _ => cases hres

end Callbacks

/-! ## 5. One run -/

theorem mem_liveEntries_iff {t : Table} {now : Nanos} {key : Key} {entry : VersionedEntry} :
    (key, entry) ∈ t.liveEntries now ↔ t.lookup key = some entry ∧ entry.expiredAt now = false := by
  constructor
  · intro h
    obtain ⟨p, hp, heq⟩ := mem_map.mp h
    cases heq
    obtain ⟨hp, hlive⟩ := mem_filter.mp hp
    exact ⟨AList.mem_lookup_iff.mpr hp, by simpa using hlive⟩
  · rintro ⟨hlookup, hlive⟩
    refine mem_map.mpr ⟨⟨key, entry⟩, mem_filter.mpr ⟨?_, by simpa using hlive⟩, rfl⟩
    exact AList.mem_lookup_iff.mp hlookup

section Run

variable (hash64 : Bytes → UInt64) (cfg : ShardConfig)

/-- Another node of some live key's replica set is in quarantine. -/
def ShardNode.Defers (s : ShardNode) (now snapTime : Nanos) : Prop :=
  ∃ kv ∈ s.store.liveEntries snapTime, ∃ desired, s.replicas hash64 cfg kv.1 = .ok desired ∧
    ∃ o ∈ desired, o ≠ cfg.self ∧ s.quarantined cfg now o = true

/-- The key can be sent away: it has a primary that is not in quarantine nor known to be down. -/
def ShardNode.Departs (s : ShardNode) (now : Nanos) (desired : List NodeId) : Prop :=
  ∃ primary others, desired = primary :: others ∧ s.quarantined cfg now primary = false ∧
    s.members.reachable primary = true

/-- A further rebalance is scheduled for every live key that is stored here although this node is
not in its replica set. -/
def RebalanceServer.Rescheduled (s : RebalanceServer) (snapTime : Nanos) : Prop :=
  ∀ kv ∈ s.node.store.liveEntries snapTime, ∀ desired,
    s.node.replicas hash64 cfg kv.1 = .ok desired → cfg.self ∉ desired → s.timers.armed = true

/-- Every live key this node has left can be sent away, and every send for it is acknowledged, the
primary's last. -/
def ShardNode.MovesAll (s : ShardNode) (now snapTime : Nanos) (migrations : List Migration) :
    Prop :=
  ∀ kv ∈ s.store.liveEntries snapTime, ∀ desired, s.replicas hash64 cfg kv.1 = .ok desired →
    cfg.self ∉ desired → s.Departs cfg now desired ∧
      ∀ m ∈ migrations, m.push.key = kv.1 → m.AllAcked ∧ m.PrimaryLast

variable {hash64 cfg} {s s' : ShardNode} {clk : ClockReading} {snapTime : Nanos} {deferred : Bool}

theorem rebalance_deferred (h : s.rebalance hash64 cfg clk snapTime = .ok (deferred, s')) :
    deferred = true ↔ s.Defers hash64 cfg clk.now snapTime := by
  unfold rebalance at h
  split at h
  · cases h
  · rename_i p hp
    cases h
    rw [decide_eq_true_eq, deferred_collectPushes hp]
    exact or_iff_right (lt_irrefl 0)

theorem rebalance_complete (hidle : s.migrations = [])
    (h : s.rebalance hash64 cfg clk snapTime = .ok (deferred, s')) {key : Key}
    {entry : VersionedEntry} (hlive : (key, entry) ∈ s.store.liveEntries snapTime)
    {desired : List NodeId} (hdes : s.replicas hash64 cfg key = .ok desired)
    (hout : cfg.self ∉ desired) :
    (∃ m ∈ s'.migrations, m.push.key = key) ↔ s.Departs cfg clk.now desired := by
  unfold rebalance at h
  split at h
  · cases h
  · rename_i p hp
    cases h
    rw [hidle, nil_append]
    have hstart : ∀ push m, migrateKey s.members push = some m →
        s.members.reachable push.primary = true ∧ m.push = push := by
      intro push m hm
      unfold migrateKey at hm
      split at hm
      · rename_i hreach
        cases hm
        exact ⟨hreach, rfl⟩
      · cases hm
    constructor
    · rintro ⟨m, hm, hkey⟩
      obtain ⟨push, hpush, hmig⟩ := mem_filterMap.mp hm
      obtain ⟨hreach, rfl⟩ := hstart push m hmig
      obtain ⟨ms, hms, hfor, -⟩ := migrates_collectPushes hp
      rw [hms, nil_append] at hpush
      obtain ⟨others, hdes', -, -⟩ := (hfor _ hpush).desired
      rw [hkey, hdes] at hdes'
      exact ⟨m.push.primary, others, Except.ok.inj hdes', (hfor _ hpush).primary, hreach⟩
    · rintro ⟨primary, others, rfl, hq, hreach⟩
      obtain ⟨push, hpush, hkey, hprimary⟩ := migrates_complete hp hlive hdes hout hq
      refine ⟨{ push, waiting := push.sends }, mem_filterMap.mpr ⟨push, hpush, ?_⟩, hkey⟩
      rw [migrateKey, hprimary, if_pos hreach]

theorem rebalance_ring (h : s.rebalance hash64 cfg clk snapTime = .ok (deferred, s')) :
    s'.ring = s.ring := by
  unfold rebalance at h
  split at h <;> cases h
  rfl

end Run

namespace RebalanceServer

variable {hash64 : Bytes → UInt64} {cfg : ShardConfig} {s s₁ s₂ : RebalanceServer}
  {timer : RunTimer} {clk : ClockReading} {snapTime : Nanos}

theorem step_fires (h : s.step hash64 cfg (.fires timer clk snapTime) = some s₁) :
    ∃ timers deferred, s.timers.fired timer = some timers ∧
      s.node.rebalance hash64 cfg clk snapTime = .ok (deferred, s₁.node) ∧
      s₁.timers = if deferred then timers.scheduleRebalance s.quarantineInterval else timers := by
  obtain ⟨timers, htimers, hrun⟩ := Option.bind_eq_some_iff.mp h
  unfold runRebalance at hrun
  split at hrun
  · cases hrun
  · rename_i deferred node hreb
    cases hrun
    exact ⟨timers, deferred, htimers, hreb, rfl⟩

theorem runInv_fires (hidle : s.node.migrations = [])
    (h : s.step hash64 cfg (.fires timer clk snapTime) = some s₁) :
    ∃ pushes, (pushes.map MigratePush.key).Nodup ∧
      s₁.node.migrations.map Migration.push = pushes ∧
      RunInv s.node pushes s₁.timers.armed s₁ := by
  obtain ⟨timers, deferred, -, hreb, -⟩ := step_fires h
  obtain ⟨pushes, -, hnodup, hdrop⟩ := dropInv_rebalanced hidle hreb .refl
  refine ⟨pushes, hnodup, hdrop.pushes, hdrop, rebalance_ring hreb, ?_⟩
  refine ⟨.inl, fun harmed => harmed.elim (fun h => h) fun hfailed => ?_⟩
  obtain ⟨m, hm, hprimary, -⟩ := hfailed
  obtain ⟨ms, -, -, hmig, -⟩ := rebalance_spec hreb
  rw [hidle, nil_append] at hmig
  rw [hmig] at hm
  obtain ⟨push, -, rfl⟩ := mem_map.mp hm
  exact absurd (mem_append_right _ (mem_singleton_self _)) hprimary

theorem timers_armed_iff (hidle : s.node.migrations = [])
    (hfire : s.step hash64 cfg (.fires timer clk snapTime) = some s₁)
    (hrun : Reaches (step hash64 cfg) (fun _ e => e.isResult = true) s₁ s₂)
    (hdone : ∀ m ∈ s₂.node.migrations, m.waiting = []) :
    s₂.timers.armed = true ↔
      (∃ timers, s.timers.fired timer = some timers ∧ timers.armed = true) ∨
      (s.node.Defers hash64 cfg clk.now snapTime ∧ 0 < s.quarantineInterval) ∨
      ∃ m ∈ s₂.node.migrations, .primary ∉ m.acked := by
  obtain ⟨pushes, -, -, hinv⟩ := runInv_fires hidle hfire
  obtain ⟨timers, deferred, hfired, hreb, htimers⟩ := step_fires hfire
  have hstart : s₁.timers.armed = true ↔
      timers.armed = true ∨ (deferred = true ∧ 0 < s.quarantineInterval) := by
    rw [htimers]
    cases deferred with
    | true => simpa using timers.armed_scheduleRebalance s.quarantineInterval
    | false => simp
  have hfailed : (∃ m ∈ s₂.node.migrations, m.PrimaryFailed) ↔
      ∃ m ∈ s₂.node.migrations, .primary ∉ m.acked := by
    refine exists_congr fun m => and_congr_right fun hm => ?_
    rw [Migration.PrimaryFailed, hdone m hm]
    exact and_iff_right not_mem_nil
  rw [(runInv_reaches hrun hinv).timers, hfailed, hstart, rebalance_deferred hreb, hfired, or_assoc]
  simp

/-- **No key is stranded**: after a run and all callbacks of its sends, a rebalance is scheduled for
every live key left behind, if and only if another timer was armed already, or some owner is in
quarantine and the server's interval is positive, or the send to some primary failed, or there is
none. -/
theorem none_stranded_iff (s s₁ s₂ : RebalanceServer) (timer : RunTimer) (clk : ClockReading)
    (snapTime : Nanos) (hidle : s.node.migrations = [])
    (hfire : s.step hash64 cfg (.fires timer clk snapTime) = some s₁)
    (hrun : Reaches (step hash64 cfg) (fun _ e => e.isResult = true) s₁ s₂)
    (hdone : ∀ m ∈ s₂.node.migrations, m.waiting = []) :
    s₂.Rescheduled hash64 cfg snapTime ↔
      (∃ timers, s.timers.fired timer = some timers ∧ timers.armed = true) ∨
      (s.node.Defers hash64 cfg clk.now snapTime ∧ 0 < s.quarantineInterval) ∨
      (∃ m ∈ s₂.node.migrations, .primary ∉ m.acked) ∨
      s.node.MovesAll hash64 cfg clk.now snapTime s₂.node.migrations := by
  have harmed := timers_armed_iff hidle hfire hrun hdone
  obtain ⟨pushes, hnodup, hpushes, hinv₁⟩ := runInv_fires hidle hfire
  obtain ⟨timers, deferred, -, hreb, -⟩ := step_fires hfire
  have hinv := runInv_reaches hrun hinv₁
  have hreplicas : ∀ key, s₂.node.replicas hash64 cfg key = s.node.replicas hash64 cfg key := by
    intro key
    rw [replicas, replicas, hinv.ring]
  -- a key has a migration at the end exactly if the run started one
  have hsame : ∀ key, (∃ m ∈ s₂.node.migrations, m.push.key = key) ↔
      ∃ m ∈ s₁.node.migrations, m.push.key = key := by
    have hkeys : ∀ (l : List Migration) key, (∃ m ∈ l, m.push.key = key) ↔
        key ∈ (l.map push).map MigratePush.key := by
      intro l key
      simp
    intro key
    rw [hkeys, hkeys, hpushes, ← hinv.drop.pushes]
  -- an undecided key keeps its entry
  have hkept : ∀ key, (¬ ∃ m ∈ s₂.node.migrations, m.push.key = key ∧ m.AllAcked ∧ m.PrimaryLast) →
      s₂.node.store.lookup key = s.node.store.lookup key := by
    intro key hno
    exact hinv.drop.kept key fun m hm hkey hdec => hno ⟨m, hm, hkey, hdec⟩
  refine Iff.trans ?_ (or_assoc.trans (or_congr_right or_assoc))
  rw [← harmed]
  by_cases hset : s₂.timers.armed = true
  · exact ⟨fun _ => .inl hset, fun _ kv _ desired _ _ => hset⟩
  rw [or_iff_right hset]
  constructor
  · intro h kv hlive desired hdes hout
    obtain ⟨key, entry⟩ := kv
    obtain ⟨hlookup, hfresh⟩ := mem_liveEntries_iff.mp hlive
    by_cases hdec : ∃ m ∈ s₂.node.migrations, m.push.key = key ∧ m.AllAcked ∧ m.PrimaryLast
    · obtain ⟨m, hm, rfl, hdec⟩ := hdec
      have hdeparts := rebalance_complete hidle hreb hlive hdes hout
      refine ⟨hdeparts.mp ((hsame _).mp ⟨m, hm, rfl⟩), fun m' hm' hkey => ?_⟩
      rw [hinv.drop.unique hnodup hm hm' hkey]
      exact hdec
    · have hthere : (key, entry) ∈ s₂.node.store.liveEntries snapTime :=
        mem_liveEntries_iff.mpr ⟨(hkept key hdec).trans hlookup, hfresh⟩
      exact absurd (h _ hthere desired ((hreplicas key).trans hdes) hout) hset
  · intro h kv hlive desired hdes hout
    obtain ⟨key, entry⟩ := kv
    obtain ⟨hlookup, hfresh⟩ := mem_liveEntries_iff.mp hlive
    have hdec : ¬ ∃ m ∈ s₂.node.migrations, m.push.key = key ∧ m.AllAcked ∧ m.PrimaryLast := by
      rintro ⟨m, hm, rfl, hall, hlast⟩
      have hnone := hinv.drop.dropped m hm hall hlast
      rw [hnone] at hlookup
      cases hlookup
    have hbefore : (key, entry) ∈ s.node.store.liveEntries snapTime :=
      mem_liveEntries_iff.mpr ⟨(hkept key hdec).symm.trans hlookup, hfresh⟩
    have hdes : s.node.replicas hash64 cfg key = .ok desired := (hreplicas key).symm.trans hdes
    obtain ⟨hdeparts, hacked⟩ := h _ hbefore desired hdes hout
    obtain ⟨m, hm, hkey⟩ := (hsame key).mpr
      ((rebalance_complete hidle hreb hbefore hdes hout).mpr hdeparts)
    exact absurd ⟨m, hm, hkey, hacked m hm hkey⟩ hdec

/-- This node and two others; a key with hash 7 belongs to the others. -/
def ringWithOthers : RingSnapshot where
  physicalNodes := [[0], [1], [2]]
  vnodes := [(5, ⟨0, by decide⟩), (10, ⟨1, by decide⟩), (20, ⟨2, by decide⟩)]
  sorted := by decide
  nodup := by decide

/-- One key to move, the debounced run pending, and `newcomer` having joined just now. -/
def leaving (newcomer : NodeId) : RebalanceServer where
  node := { leftNode newcomer with ring := ringWithOthers }
  timers := { rebalancePending := true }
  quarantineInterval := 1000

theorem exists_run (newcomer : NodeId) (es : List ServerEvent) (p : RebalanceServer → Bool)
    (h : ((leaving newcomer).step (fun _ => 7) leftConfig (.fires .debounce {} 0)).any (fun s₁ =>
      (exec (step (fun _ => 7) leftConfig) (fun _ e => e.isResult = true) s₁ es).any p) = true) :
    ∃ s₁ s₂, (leaving newcomer).step (fun _ => 7) leftConfig (.fires .debounce {} 0) = some s₁ ∧
      Reaches (step (fun _ => 7) leftConfig) (fun _ e => e.isResult = true) s₁ s₂ ∧
        p s₂ = true := by
  obtain ⟨s₁, hfire, hexec⟩ := (Option.any_eq_true _ _).mp h
  obtain ⟨s₂, hreach, hp⟩ := exists_reaches_of_exec _ _ _ _ _ hexec
  exact ⟨s₁, s₂, hfire, hreach, hp⟩

/-- The replica takes the key and the primary is unreachable. -/
theorem none_stranded_after_failure :
    ∃ s₁ s₂, (leaving [3]).step (fun _ => 7) leftConfig (.fires .debounce {} 0) = some s₁ ∧
      Reaches (step (fun _ => 7) leftConfig) (fun _ e => e.isResult = true) s₁ s₂ ∧
      s₂.node.migrations.map Migration.acked = [[.replica 0]] ∧
      s₂.Rescheduled (fun _ => 7) leftConfig 0 := by
  obtain ⟨s₁, s₂, hfire, hrun, hp⟩ := exists_run [3]
    [.result 0 (.replica 0) true, .result 0 .primary false]
    (fun s => decide (s.node.migrations.map acked = [[.replica 0]]) &&
      s.node.migrations.all fun m => m.waiting.isEmpty) (by decide +kernel)
  rw [Bool.and_eq_true, decide_eq_true_eq, all_eq_true] at hp
  refine ⟨s₁, s₂, hfire, hrun, hp.1, ?_⟩
  refine (none_stranded_iff _ s₁ s₂ .debounce {} 0 rfl hfire hrun fun m hm =>
    isEmpty_iff.mp (hp.2 m hm)).mpr (.inr (.inr (.inl ?_)))
  have hmem : [Send.replica 0] ∈ s₂.node.migrations.map acked := hp.1 ▸ mem_singleton_self _
  obtain ⟨m, hm, hacked⟩ := mem_map.mp hmem
  exact ⟨m, hm, hacked ▸ by decide⟩

/-- The key of `leaving` is live, owned by the others, and no timer is armed. -/
def keyLeft (s : RebalanceServer) : Bool :=
  decide (([7], ({ versionAndTtl := 4, value := [1] } : VersionedEntry)) ∈
    s.node.store.liveEntries 0) &&
  decide (s.node.replicas (fun _ => 7) leftConfig [7] = .ok [[1], [2]]) && !s.timers.armed

theorem not_rescheduled_of_keyLeft (h : s.keyLeft = true) :
    ¬ s.Rescheduled (fun _ => 7) leftConfig 0 := by
  intro hres
  simp only [keyLeft, Bool.and_eq_true, decide_eq_true_eq, Bool.not_eq_true'] at h
  obtain ⟨⟨hlive, hdes⟩, hoff⟩ := h
  have harmed := hres _ hlive _ hdes (by decide)
  rw [hoff] at harmed
  cases harmed

/-- Two keys left behind for good: every owner acknowledged, the primary first; and the primary is
in quarantine while the reloaded interval of the server is zero. -/
theorem key_stranded :
    (∃ s₁ s₂, (leaving [3]).step (fun _ => 7) leftConfig (.fires .debounce {} 0) = some s₁ ∧
      Reaches (step (fun _ => 7) leftConfig) (fun _ e => e.isResult = true) s₁ s₂ ∧
      s₂.node.migrations.map (fun m => (m.waiting, m.acked)) = [([], [.primary, .replica 0])] ∧
      ¬ s₂.Rescheduled (fun _ => 7) leftConfig 0) ∧
    ∃ s₀ s₁, (leaving [1]).step (fun _ => 7) leftConfig (.hotReload 0) = some s₀ ∧
      s₀.step (fun _ => 7) leftConfig (.fires .debounce {} 0) = some s₁ ∧ s₁.node.migrations = [] ∧
      ¬ s₁.Rescheduled (fun _ => 7) leftConfig 0 := by
  constructor
  · obtain ⟨s₁, s₂, hfire, hrun, hp⟩ := exists_run [3]
      [.result 0 .primary true, .result 0 (.replica 0) true]
      (fun s => decide (s.node.migrations.map (fun m => (m.waiting, m.acked)) =
        [([], [.primary, .replica 0])]) && s.keyLeft) (by decide +kernel)
    rw [Bool.and_eq_true, decide_eq_true_eq] at hp
    exact ⟨s₁, s₂, hfire, hrun, hp.1, not_rescheduled_of_keyLeft hp.2⟩
  · have hrun : (({ leaving [1] with quarantineInterval := 0 } : RebalanceServer).step (fun _ => 7)
        leftConfig (.fires .debounce {} 0)).any (fun s => s.node.migrations.isEmpty && s.keyLeft) =
          true := by decide +kernel
    obtain ⟨s₁, hfire, hp⟩ := (Option.any_eq_true _ _).mp hrun
    rw [Bool.and_eq_true, List.isEmpty_iff] at hp
    exact ⟨_, s₁, rfl, hfire, hp.1, not_rescheduled_of_keyLeft hp.2⟩

end RebalanceServer

end Cinder
