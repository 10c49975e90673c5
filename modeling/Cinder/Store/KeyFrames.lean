/-
What an operation on one key leaves alone
(`include/cinder/store/detail/eviction_store_base.hpp`, `src/store/lru_store.cpp`,
`src/store/lfu_store.cpp`, `include/cinder/store/ttl_wheel.hpp`).

The other keys of a shard are taken as the list of their nodes: entries, frequencies and order.
-/
import Cinder.Store.Edits

namespace Cinder

open List

/-! ## 1. Schedules -/

namespace TtlWheel

variable {α : Type} [DecidableEq α] {w w' w'' : TtlWheel α} {a b : α}

/-- **The same schedule for a node**, on a wheel that has not turned. -/
structure SameSchedule (w w' : TtlWheel α) (a : α) : Prop where
  slots : ∀ slot, a ∈ w'.slots slot ↔ a ∈ w.slots slot
  heap : ∀ tick, (tick, a) ∈ w'.heap ↔ (tick, a) ∈ w.heap
  cursor : w'.cursor = w.cursor
  tickCount : w'.tickCount = w.tickCount

omit [DecidableEq α] in
theorem SameSchedule.refl (w : TtlWheel α) (a : α) : SameSchedule w w a :=
  ⟨fun _ => Iff.rfl, fun _ => Iff.rfl, rfl, rfl⟩

omit [DecidableEq α] in
theorem SameSchedule.trans (h : SameSchedule w w' a) (h' : SameSchedule w' w'' a) :
    SameSchedule w w'' a :=
  ⟨fun slot => (h'.slots slot).trans (h.slots slot), fun tick => (h'.heap tick).trans (h.heap tick),
    h'.cursor.trans h.cursor, h'.tickCount.trans h.tickCount⟩

theorem sameSchedule_remove (h : w.scheduled.Nodup) (hne : b ≠ a) :
    SameSchedule w (w.remove a) b where
  slots := fun _ => (mem_slots_remove h).trans (and_iff_left hne)
  heap := fun _ => (mem_heap_remove h).trans (and_iff_left hne)
  cursor := cursor_remove w a
  tickCount := tickCount_remove w a

theorem sameSchedule_insert (h : w.scheduled.Nodup) (hne : b ≠ a) (ticks : Nat) :
    SameSchedule w (w.insert a ticks) b := by
  have hremove := sameSchedule_remove h hne
  refine ⟨fun slot => ?_, fun tick => ?_, cursor_insert w a ticks, tickCount_insert w a ticks⟩
  · rw [mem_slots_insert, hremove.slots]
    exact or_iff_left fun hb => hne hb.1
  · rw [mem_heap_insert, hremove.heap]
    exact or_iff_left fun hb => hne (congrArg Prod.snd hb.1)

end TtlWheel

/-! ## 2. Edits at one key -/

def othersOf (key : Key) (nodes : List Node) : List Node := nodes.filter fun n => n.key ≠ key

def Edit.At (a : Addr) : Edit → Prop
  | .access b | .overwrite b _ | .drop b | .restore b _ => b = a
  | .insert _ _ _ => False

variable {key : Key} {nodes : List Node} {a : Addr}

theorem othersOf_filter (key : Key) (q : Node → Bool) (nodes : List Node) :
    othersOf key (nodes.filter q) = (othersOf key nodes).filter q := by
  unfold othersOf
  rw [filter_filter, filter_filter]
  exact filter_congr fun n _ => Bool.and_comm _ _

theorem othersOf_filter_self {q : Node → Bool} (h : ∀ n ∈ nodes, q n = false → n.key = key) :
    othersOf key (nodes.filter q) = othersOf key nodes := by
  rw [othersOf_filter]
  refine filter_eq_self.mpr fun n hn => ?_
  obtain ⟨hn, hne⟩ := mem_filter.mp hn
  cases hq : q n with
  | true => rfl
  | false => exact absurd (h n hn hq) (of_decide_eq_true hne)

theorem othersOf_editAt {f : Node → Node} (hf : ∀ n, (f n).key = n.key)
    (h : ∀ n ∈ nodes, n.addr = a → n.key = key) :
    othersOf key (editAt a f nodes) = othersOf key nodes := by
  unfold othersOf editAt
  induction nodes with
  | nil => rfl
  | cons n nodes ih =>
    obtain ⟨hn, hrest⟩ := forall_mem_cons.mp h
    rw [map_cons]
    by_cases haddr : n.addr = a
    · have hkey := hn haddr
      rw [if_pos haddr, filter_cons_of_neg (by simpa [hf] using hkey),
        filter_cons_of_neg (by simpa using hkey), ih hrest]
    · rw [if_neg haddr, filter_cons, filter_cons, ih hrest]

theorem othersOf_toFront (h : ∀ n ∈ nodes, n.addr = a → n.key = key) :
    othersOf key (toFront a nodes) = othersOf key nodes := by
  have hfront : othersOf key (nodes.filter fun n => n.addr = a) = [] := by
    refine filter_eq_nil_iff.mpr fun n hn => ?_
    obtain ⟨hn, haddr⟩ := mem_filter.mp hn
    simpa using h n hn (of_decide_eq_true haddr)
  have hrest : othersOf key (nodes.filter fun n => n.addr ≠ a) = othersOf key nodes :=
    othersOf_filter_self fun n hn hq => h n hn (by simpa using hq)
  unfold toFront
  rw [othersOf, filter_append]
  exact (congrArg₂ (· ++ ·) hfront hrest).trans (nil_append _)

theorem others_edit (p : Policy) {e : Edit} (he : e.At a)
    (h : ∀ n ∈ nodes, n.addr = a → n.key = key) :
    othersOf key (Edit.apply p nodes e) = othersOf key nodes := by
  cases e with
  | access b =>
    obtain rfl : b = a := he
    cases p with
    | lru => exact othersOf_toFront h
    | lfu => exact othersOf_editAt (fun _ => rfl) h
  | overwrite b entry =>
    obtain rfl : b = a := he
    cases p with
    | lru =>
      refine (othersOf_toFront fun n hn haddr => ?_).trans (othersOf_editAt (fun _ => rfl) h)
      obtain ⟨m, hm, rfl⟩ := mem_map.mp hn
      split at haddr
      · rename_i hma
        rw [if_pos hma]
        exact h m hm hma
      · rename_i hma
        exact absurd haddr hma
    | lfu => exact othersOf_editAt (fun _ => rfl) h
  | insert b key' entry => exact absurd he id
  | drop b =>
    obtain rfl : b = a := he
    exact othersOf_filter_self fun n hn hq => h n hn (by simpa using hq)
  | restore b freq =>
    obtain rfl : b = a := he
    exact othersOf_editAt (fun _ => rfl) h

/-! ## 3. Operations on one key -/

def StoreOp.key? : StoreOp → Option Key
  | .put key _ _ _ | .putVersioned key _ _ | .removeVersioned key _ _ _ | .remove key | .get key _
  | .getVersioned key _ | .restoreFreq key _ => some key
  | .evictExpired _ | .setCapacity _ | .setTombstoneGcInterval _ | .mintVersion => none

namespace EvictionStore

variable {cfg : StoreConfig} {s t : EvictionStore cfg} {i : Fin cfg.numShards}

theorem key_of_addr (hs : s.Inv) {n : Node} (hf : (s.shards (cfg.shardFor key)).find key = some n) :
    ∀ m ∈ (s.shards (cfg.shardFor key)).nodes, m.addr = n.addr → m.key = key := by
  intro m hm haddr
  obtain ⟨m', hm', rfl⟩ := Shard.mem_nodes.mp hm
  obtain ⟨hn, rfl⟩ := (hs.shard _).find_eq.mp hf
  have heq : m' = n := (hs.shard _).addressed.eq_of_addr hm' hn haddr
  rw [heq]
  rfl

theorem others_atKey (hs : s.Inv) {edits : Node → List Edit}
    (h : ∀ n, edits n = [] ∨ ∃ e, edits n = [e] ∧ e.At n.addr) (i : Fin cfg.numShards) :
    othersOf key (Edit.applyAll cfg.policy (s.atKey i key edits) (s.shards i).nodes) =
      othersOf key (s.shards i).nodes := by
  by_cases hi : i = cfg.shardFor key
  · subst hi
    cases hf : (s.shards (cfg.shardFor key)).find key with
    | none =>
      rw [atKey_none edits hf]
      rfl
    | some n =>
      rw [atKey_some edits hf]
      rcases h n with hnone | ⟨e, hone, he⟩
      · rw [hnone]
        rfl
      · rw [hone]
        exact others_edit cfg.policy he (key_of_addr hs hf)
  · rw [atKey_of_ne edits hi]
    rfl

theorem others_write (hs : s.Inv) (key : Key) (entry : VersionedEntry) (now : Nanos)
    (clk : ClockReading) (i : Fin cfg.numShards) :
    othersOf key ((s.putVersionedAt key entry now clk).2.shards i).nodes =
      (othersOf key (s.shards i).nodes).filter
        fun n => n.addr ∉ (s.writeVictims key entry i).map fun v => v.addr := by
  rw [nodes_putVersionedAt hs]
  unfold writeEdits
  by_cases hcond : s.rejects key entry = false ∧ i = cfg.shardFor key
  · obtain ⟨-, rfl⟩ := id hcond
    rw [if_pos hcond]
    rw [Edit.applyAll, foldl_cons, ← Edit.applyAll, Edit.applyAll_victims, othersOf_filter]
    refine congrArg _ ?_
    unfold writeEdit
    cases hf : (s.shards (cfg.shardFor key)).find key with
    | some n => exact others_edit (e := .overwrite n.addr entry) cfg.policy rfl (key_of_addr hs hf)
    | none => exact filter_cons_of_neg (by simp)
  · rw [if_neg hcond, writeVictims, if_neg hcond]
    simp [Edit.applyAll]

theorem others_apply (hs : s.Inv) {op : StoreOp} (hop : op.key? = some key)
    (i : Fin cfg.numShards) :
    othersOf key ((s.apply op).shards i).nodes =
      (othersOf key (s.shards i).nodes).filter
        fun n => n.addr ∉ (s.evictedBy i op).map fun v => v.addr := by
  have hnone : ∀ edits : Node → List Edit, (∀ n, edits n = [] ∨ ∃ e, edits n = [e] ∧ e.At n.addr) →
      s.editsOf i op = s.atKey i key edits → s.evictedBy i op = [] →
      othersOf key ((s.apply op).shards i).nodes = (othersOf key (s.shards i).nodes).filter
          fun n => n.addr ∉ (s.evictedBy i op).map fun v => v.addr := by
    intro edits hedits heq hvictims
    rw [apply_nodes hs op i, heq, others_atKey hs hedits, hvictims]
    simp
  cases op with
  | put key' value ttl clk =>
    cases hop
    have hmint : s.mintVersion.2.Inv := hs.of_shards rfl le_rfl
    exact others_write hmint _ _ _ _ i
  | putVersioned | removeVersioned =>
    cases hop
    exact others_write hs _ _ _ _ i
  | remove key' =>
    cases hop
    exact hnone (fun n => [.drop n.addr]) (fun n => .inr ⟨_, rfl, rfl⟩) rfl rfl
  | get key' now =>
    cases hop
    refine hnone _ (fun n => ?_) rfl rfl
    split
    · exact .inr ⟨_, rfl, rfl⟩
    · split
      · exact .inl rfl
      · exact .inr ⟨_, rfl, rfl⟩
  | getVersioned | restoreFreq =>
    cases hop
    refine hnone _ (fun n => ?_) rfl rfl
    split
    · exact .inr ⟨_, rfl, rfl⟩
    · exact .inl rfl
  | _ => cases hop

/-! ## 4. Their schedules -/

/-- The others that are left are scheduled as before. -/
def KeepsSchedules (key : Key) (s t : EvictionStore cfg) : Prop :=
  ∀ i, ∀ n ∈ othersOf key (t.shards i).nodes,
    (s.shards i).wheel.SameSchedule (t.shards i).wheel n.addr

/-- **Drifts do not reschedule** the nodes they leave. -/
theorem Drifts.sameSchedule (h : Drifts s t) (hs : s.Inv) (i : Fin cfg.numShards)
    (hnodup : (s.shards i).wheel.scheduled.Nodup) :
    (t.shards i).wheel.scheduled.Nodup ∧ ∀ n ∈ (t.shards i).nodes,
      (s.shards i).wheel.SameSchedule (t.shards i).wheel n.addr := by
  have hcells : (t.shards i).wheel.scheduled.Nodup ∧ ∀ c ∈ (t.shards i).cells,
      (s.shards i).wheel.SameSchedule (t.shards i).wheel c.addr := by
    induction h with
    | refl => exact ⟨hnodup, fun _ _ => .refl _ _⟩
    | tail hrun hstep ih =>
      obtain ⟨hnodup, hsame⟩ := ih
      cases hstep.shard i with
      | reorder cells wheel _ =>
        rw [wheel]
        exact ⟨hnodup, fun c hc => hsame c (cells.mem_iff.mp hc)⟩
      | erase n _ cells wheel _ =>
        rw [wheel]
        refine ⟨TtlWheel.nodup_remove hnodup n.addr, fun c hc => ?_⟩
        have hwf := (Drifts.moves hrun).inv hs |>.shard i
        have haddrs := (cells.map Cell.addr).nodup_iff.mp hwf.base.addrs
        have hne : c.addr ≠ n.addr := fun e => (nodup_cons.mp haddrs).1 (e ▸ mem_map_of_mem hc)
        exact (hsame c (cells.mem_iff.mpr (mem_cons_of_mem _ hc))).trans
          (TtlWheel.sameSchedule_remove hnodup hne)
  refine ⟨hcells.1, fun n hn => ?_⟩
  obtain ⟨m, hm, rfl⟩ := Shard.mem_nodes.mp hn
  exact hcells.2 m.toCell (mem_map_of_mem hm)

theorem Drifts.keepsSchedules (h : Drifts s t) (hs : s.Inv) (htimed : s.AllTimed) :
    KeepsSchedules key s t :=
  fun i n hn => (h.sameSchedule hs i (htimed i).nodup).2 n (mem_filter.mp hn).1

theorem addr_ne_of_other (hs : s.Inv) {n m : Node} (hm : m ∈ (s.shards i).list)
    (hn : n ∈ othersOf m.key (s.shards i).nodes) : n.addr ≠ m.addr := by
  intro haddr
  obtain ⟨hn, hne⟩ := mem_filter.mp hn
  obtain ⟨n', hn', rfl⟩ := Shard.mem_nodes.mp hn
  have heq : n' = m := (hs.shard i).addressed.eq_of_addr hn' hm haddr
  have hkey : n'.key = m.key := congrArg (fun n : Node => n.key) heq
  exact of_decide_eq_true hne hkey

theorem write_schedule (hs : s.Inv) (h : s.AllTimed) {key : Key} {entry : VersionedEntry}
    {t : EvictionStore cfg} (ht : t = (s.write key entry).2.evictIfNeeded (cfg.shardFor key)) :
    (t.shards (cfg.shardFor key)).wheel.scheduled.Nodup ∧
      ∀ n ∈ (t.shards (cfg.shardFor key)).nodes,
        (s.shards (cfg.shardFor key)).wheel.SameSchedule
          (t.shards (cfg.shardFor key)).wheel n.addr := by
  obtain ⟨hw, -⟩ := write_spec hs key entry
  obtain ⟨hwheel, -⟩ := write_stamped hs key entry
  have hdrifts : Drifts (s.write key entry).2 t := ht ▸ evictLoop_drifts _ _ hw
  rw [← hwheel]
  exact hdrifts.sameSchedule hw _ (hwheel ▸ (h (cfg.shardFor key)).nodup)

theorem putVersionedAt_keepsSchedules (hs : s.Inv) (h : s.AllTimed) (key : Key)
    (entry : VersionedEntry) (now : Nanos) (clk : ClockReading) :
    KeepsSchedules key s (s.putVersionedAt key entry now clk).2 := by
  intro i n hn
  by_cases hi : i = cfg.shardFor key
  · subst hi
    rcases putVersionedAt_cases s key entry now clk with
      ⟨-, heq⟩ | ⟨t, ht, haccept, ⟨-, heq⟩ | ⟨m, hf, heq⟩⟩
    · rw [heq]
      exact .refl _ _
    · rw [heq, shards_noteReplaced] at hn ⊢
      exact (write_schedule hs h ht).2 n (mem_filter.mp hn).1
    · -- the node written is another one
      obtain ⟨hnodup, hsame⟩ := write_schedule hs h ht
      obtain ⟨hw, -⟩ := write_spec hs key entry
      have htinv : t.Inv := ht ▸ (evictIfNeeded_moves hw _).inv hw
      rw [othersOf, putVersionedAt_shard (f := Shard.nodes) (fun _ _ => rfl) haccept, ← ht] at hn
      obtain ⟨hm, rfl⟩ := (htinv.shard _).find_eq.mp hf
      have hne := addr_ne_of_other htinv hm hn
      refine (hsame n (mem_filter.mp hn).1).trans ?_
      rw [heq, shards_writeWal, updateWheelAt, setShard_self]
      have hshards : ((s.noteReplaced t m.key).noteAdded (identityOf m.key m.entry)).shards =
          t.shards := shards_noteReplaced s t m.key
      rw [hshards]
      split
      · exact TtlWheel.sameSchedule_insert hnodup hne _
      · exact TtlWheel.sameSchedule_remove hnodup hne
  · rw [putVersionedAt_shards_ne hi]
    exact .refl _ _

theorem apply_keepsSchedules (hs : s.Inv) (h : s.AllTimed) {op : StoreOp}
    (hop : op.key? = some key) : KeepsSchedules key s (s.apply op) := by
  cases op with
  | put key' value ttl clk =>
    cases hop
    have hmint : s.mintVersion.2.Inv := hs.of_shards rfl le_rfl
    exact putVersionedAt_keepsSchedules (s := s.mintVersion.2) hmint (h.of_shards rfl) _ _ _ _
  | putVersioned | removeVersioned =>
    cases hop
    exact putVersionedAt_keepsSchedules hs h _ _ _ _
  | remove key' => exact (remove_drifts hs key').keepsSchedules hs h
  | get key' now => exact (get_drifts hs key' now).keepsSchedules hs h
  | getVersioned key' now => exact (getVersioned_drifts hs key' now).keepsSchedules hs h
  | restoreFreq key' freq => exact (restoreFreq_drifts hs key' freq).keepsSchedules hs h
  | _ => cases hop

/-! ## 5. The frame of an operation -/

/-- A write that is rejected or loses. -/
def refuses (s : EvictionStore cfg) : StoreOp → Bool
  | .put key value ttl clk => s.mintVersion.2.rejects key (putEntry s.nextVersion value ttl clk.now)
  | .putVersioned key entry _ => s.rejects key entry
  | .removeVersioned key version writer clk =>
    s.rejects key (tombstone version writer (clk.now + s.tombstoneGc))
  | _ => false

theorem shards_of_refuses {op : StoreOp} (h : s.refuses op = true) :
    (s.apply op).shards = s.shards := by
  cases op with
  | put key value ttl clk =>
    have hsame : s.apply (.put key value ttl clk) = s.mintVersion.2 :=
      putVersionedAt_of_rejects (s := s.mintVersion.2) h _ clk
    rw [hsame]
    rfl
  | putVersioned key entry clk =>
    exact congrArg EvictionStore.shards (putVersionedAt_of_rejects h _ clk)
  | removeVersioned key version writer clk =>
    exact congrArg EvictionStore.shards (putVersionedAt_of_rejects h _ clk)
  | _ => cases h

theorem getVersioned_of_live {now : Nanos}
    (h : ∀ n, (s.shards (cfg.shardFor key)).find key = some n → n.entry.expiredAt now = false) :
    (s.getVersioned key now).2 = s := by
  unfold getVersioned
  dsimp only
  cases hf : (s.shards (cfg.shardFor key)).find key with
  | none => rfl
  | some n =>
    dsimp only
    rw [h n hf]
    rfl

theorem evictsAt_shardFor {op : StoreOp} (hop : op.key? = some key) (h : s.evictsAt i op = true) :
    i = cfg.shardFor key := by
  cases op with
  | put | putVersioned | removeVersioned =>
    cases hop
    exact of_decide_eq_true (Bool.and_eq_true_iff.mp h).2
  | remove | get | getVersioned | restoreFreq => cases h
  | _ => cases hop

/-- **What an operation on a key does to the other keys of a shard**: it may evict live ones of
its own shard, while that exceeds its slice. All others keep entry, frequency, order and
schedule. -/
structure OthersAlone (s : EvictionStore cfg) (key : Key) (op : StoreOp) (i : Fin cfg.numShards) :
    Prop where
  kept : othersOf key ((s.apply op).shards i).nodes = (othersOf key (s.shards i).nodes).filter
    fun n => n.addr ∉ (s.evictedBy i op).map fun v => v.addr
  scheduled : ∀ n ∈ othersOf key ((s.apply op).shards i).nodes,
    (s.shards i).wheel.SameSchedule ((s.apply op).shards i).wheel n.addr
  elsewhere : i ≠ cfg.shardFor key → s.evictedBy i op = []
  victims : ((s.beforeEviction op).shards i).EvictedTo cfg.policy s.shardCapacity
    (s.evictedBy i op) ((s.apply op).shards i)

/-- **Operations on one key leave other keys alone**, after every history, under either policy;
writes that are rejected or lose leave all shards as they are, and `getVersioned` the whole store
unless the entry has expired. -/
theorem leaves_others_alone (cfg : StoreConfig) (capacityBytes : Nat) (now : Nanos)
    (ops : List StoreOp) (op : StoreOp) (key : Key) (hop : op.key? = some key) :
    (∀ i, OthersAlone (after cfg capacityBytes now ops) key op i) ∧
      ((after cfg capacityBytes now ops).refuses op = true →
        ((after cfg capacityBytes now ops).apply op).shards =
          (after cfg capacityBytes now ops).shards) ∧
      ∀ later, op = .getVersioned key later →
        (∀ n, ((after cfg capacityBytes now ops).shards (cfg.shardFor key)).find key = some n →
          n.entry.expiredAt later = false) →
        (after cfg capacityBytes now ops).apply op = after cfg capacityBytes now ops := by
  obtain ⟨hs, -, htimed⟩ := @after_keeps cfg capacityBytes now ops
  refine ⟨fun i => ⟨others_apply hs hop i, apply_keepsSchedules hs htimed hop i, fun hi => ?_, ?_⟩,
    shards_of_refuses, ?_⟩
  · rw [evictedBy_eq]
    exact if_neg fun hevicts => hi (evictsAt_shardFor hop hevicts)
  · have hcap : ((after cfg capacityBytes now ops).apply op).shardCapacity =
        (after cfg capacityBytes now ops).shardCapacity := by
      refine congrArg (· / cfg.numShards) ((apply_capacityBytes hs op).trans ?_)
      cases op <;> first | rfl | cases hop
    rw [← hcap]
    exact apply_evicts hs op i
  · intro later heq hlive
    subst heq
    exact getVersioned_of_live hlive

theorem leaves_others_alone_third :
    ((after (oneShardStore .lru) 250 0 twoSmall).evictedBy ⟨0, Nat.one_pos⟩
        (.put [3] [9] none {})).map (fun v => v.key) = [[1]] ∧
      ∀ i, OthersAlone (after (oneShardStore .lru) 250 0 twoSmall) [3]
        (.put [3] [9] none {}) i := by
  obtain ⟨halone, -⟩ := leaves_others_alone (oneShardStore .lru) 250 0 twoSmall
    (.put [3] [9] none {}) [3] rfl
  exact ⟨by decide +kernel, halone⟩

end EvictionStore

end Cinder
