/-
The LRU store as a recency list (`src/store/lru_store.cpp`,
`include/cinder/store/detail/eviction_store_base.hpp`: `putVersionedAt`, `get`,
`evictIfNeeded`).

A shard is a recency list of its keys: accepted writes and live reads access a key; hard
removals, expired entries and sweeps drop one; tombstones are pinned.
-/
import Cinder.Lib.Recency
import Cinder.Store.Edits

namespace Cinder

open List Recency Edit

open Recency (Item Event)

/-- What the recency list knows of an entry. -/
def Cell.item (p : Policy) (c : Cell) : Item Key := ⟨c.key, p.nodeSize c, c.entry.isTombstone⟩

namespace Shard

variable {sh sh' : Shard} {n m : Node} {slice : Nat} {p : Policy}

/-! ## 1. A shard as a recency list -/

def items (p : Policy) (sh : Shard) : List (Item Key) := sh.list.map fun n => n.toCell.item p

theorem items_eq (p : Policy) (sh : Shard) :
    sh.items p = sh.nodes.map fun n => n.toCell.item p := by
  unfold items nodes
  rw [map_map]
  rfl

theorem map_key_items (p : Policy) (sh : Shard) :
    ((sh.items p).map fun x => x.key) = sh.list.map fun n => n.key := by
  unfold items
  rw [map_map]
  rfl

theorem total_items (h : sh.Wf p) : Recency.total (sh.items p) = sh.currentBytes := by
  have hbytes := h.base.bytes_eq
  unfold cells at hbytes
  rw [hbytes, total, items, map_map, map_map]
  rfl

theorem items_drop (h : sh.Wf p) (hn : n ∈ sh.list) :
    ((sh.nodes.filter fun m => m.addr ≠ n.addr).map fun m => m.toCell.item p) =
      Recency.without n.key (sh.items p) := by
  rw [items_eq, without, filter_map]
  refine congrArg _ (filter_congr fun m hm => ?_)
  obtain ⟨m', hm', rfl⟩ := mem_nodes.mp hm
  have hiff := h.addr_eq_iff hn hm'
  exact decide_eq_decide.mpr (not_congr hiff)

theorem items_toFront (h : sh.Wf p) (hn : n ∈ sh.list) :
    ((toFront n.addr sh.nodes).map fun m => m.toCell.item p) =
      (sh.items p).filter (fun x => x.key = n.key) ++ Recency.without n.key (sh.items p) := by
  unfold toFront
  rw [map_append, items_drop h hn, items_eq, filter_map]
  refine congrArg (fun front => List.map _ front ++ _) (filter_congr fun m hm => ?_)
  obtain ⟨m', hm', rfl⟩ := mem_nodes.mp hm
  have hiff := h.addr_eq_iff hn hm'
  exact decide_eq_decide.mpr hiff

theorem leastRecent_items (sh : Shard) :
    Recency.leastRecent (sh.items p) =
      (sh.list.reverse.find? fun n => !n.entry.isTombstone).map fun n => n.toCell.item p := by
  unfold leastRecent items
  rw [← map_reverse, List.find?_map]
  rfl

theorem spill_items (hlru : p = .lru) (fuel : Nat) (h : sh.Wf p) :
    Recency.spill slice fuel (sh.items p) =
      ((evictDown p slice fuel sh).1.map fun v => v.toCell.item p,
        (evictDown p slice fuel sh).2.items p) := by
  subst hlru
  induction fuel generalizing sh with
  | zero => rfl
  | succ fuel ih =>
    unfold spill
    rw [total_items h, leastRecent_items]
    by_cases hover : slice < sh.currentBytes
    · rw [if_pos hover]
      cases hv : sh.list.reverse.find? fun n => !n.entry.isTombstone with
      | none =>
        have he : sh.evictOne .lru = none := Option.map_eq_none_iff.mpr hv
        rw [evictDown_stop fuel (.inr he)]
        rfl
      | some v =>
        have he : sh.evictOne .lru = some (v, sh.detach v.key v.addr) :=
          Option.map_eq_some_iff.mpr ⟨v, hv, rfl⟩
        have hmem : v ∈ sh.list := mem_reverse.mp (mem_of_find?_eq_some hv)
        have hleft : ∀ bytes, items .lru { sh.detach v.key v.addr with currentBytes := bytes } =
            without v.key (sh.items .lru) := by
          intro bytes
          rw [← items_drop h hmem, ← nodes_detach sh v.key v.addr, ← items_eq]
          rfl
        rw [evictDown_succ fuel hover he]
        dsimp only [Option.map_some]
        rw [show (v.toCell.item .lru).key = v.key from rfl, ← hleft, ih (h.evictOne he).1]
        rfl
    · rw [if_neg hover, evictDown_stop fuel (.inl (not_lt.mp hover))]
      rfl

end Shard

/-! ## 2. Operations as events -/

namespace EvictionStore

variable {cfg : StoreConfig} {s : EvictionStore cfg} {i : Fin cfg.numShards}

variable (s)

def recency (i : Fin cfg.numShards) : Recency.State Key :=
  ⟨(s.shards i).items cfg.policy, s.shardCapacity⟩

def writtenItem (cfg : StoreConfig) (key : Key) (entry : VersionedEntry) : Item Key :=
  Cell.item cfg.policy { addr := 0, key := key, entry := entry }

def writeEvents (i : Fin cfg.numShards) (key : Key) (entry : VersionedEntry) : List (Event Key) :=
  if s.rejects key entry = false ∧ i = cfg.shardFor key then [.write (writtenItem cfg key entry)]
  else []

def sweptKeys (i : Fin cfg.numShards) (now : Nanos) : List Key :=
  ((s.shards i).nodes.filter fun n => n ∉ ((s.evictExpired now).2.shards i).nodes).map
    fun n => n.key

/-- **An operation as events of a shard's recency list**: `getVersioned`, reads of tombstones and
rejected writes are none. -/
def eventsOf (i : Fin cfg.numShards) : StoreOp → List (Event Key)
  | .put key value ttl clk =>
    s.mintVersion.2.writeEvents i key (putEntry s.nextVersion value ttl clk.now)
  | .putVersioned key entry _ => s.writeEvents i key entry
  | .removeVersioned key version writer clk =>
    s.writeEvents i key (tombstone version writer (clk.now + s.tombstoneGc))
  | .remove key => s.atKey i key fun n => [.drop n.key]
  | .get key now => s.atKey i key fun n =>
    if n.entry.expiredAt now then [.drop n.key]
    else if n.entry.isTombstone then [] else [.touch n.key]
  | .getVersioned key now => s.atKey i key fun n =>
    if n.entry.expiredAt now then [.drop n.key] else []
  | .evictExpired now => (s.sweptKeys i now).map .drop
  | .setCapacity capacityBytes => [.resize (capacityBytes / cfg.numShards)]
  | .setTombstoneGcInterval _ | .restoreFreq _ _ | .mintVersion => []

variable {s}

theorem recency_eq {t : EvictionStore cfg} {items : List (Item Key)}
    (hcap : t.capacityBytes = s.capacityBytes)
    (hitems : ((t.shards i).nodes.map fun n => n.toCell.item cfg.policy) = items) :
    t.recency i = { s.recency i with items := items } := by
  unfold recency shardCapacity
  rw [hcap, Shard.items_eq, hitems]

theorem recency_congr {t : EvictionStore cfg} (hcap : t.capacityBytes = s.capacityBytes)
    (hnodes : (t.shards i).nodes = (s.shards i).nodes) : t.recency i = s.recency i := by
  refine (recency_eq hcap (congrArg _ hnodes)).trans ?_
  rw [← Shard.items_eq]
  rfl

theorem arrange_write (hlru : cfg.policy = .lru) (hs : s.Inv) (key : Key) (entry : VersionedEntry) :
    Recency.arrange (s.recency (cfg.shardFor key)) (.write (writtenItem cfg key entry)) =
      (s.write key entry).2.recency (cfg.shardFor key) := by
  have happly : Edit.apply cfg.policy = Edit.apply .lru := congrArg _ hlru
  refine Eq.symm (recency_eq (write_fields s key entry).1 ?_)
  rw [nodes_write hs, happly]
  unfold writeEdit
  cases hf : (s.shards (cfg.shardFor key)).find key with
  | some n =>
    obtain ⟨hn, rfl⟩ := (hs.shard _).find_eq.mp hf
    have hself := Shard.filter_nodes_self (hs.shard _).addressed hn
    show List.map _ (toFront n.addr (editAt n.addr _ _)) = _
    rw [toFront, filter_editAt_self (f := fun m => { m with entry := entry }) fun _ => rfl,
      filter_editAt_others (f := fun m => { m with entry := entry }) fun _ => rfl, hself,
      map_append, Shard.items_drop (hs.shard _) hn]
    rfl
  | none =>
    have habsent : without key ((s.shards (cfg.shardFor key)).items cfg.policy) =
        (s.shards (cfg.shardFor key)).items cfg.policy := by
      refine filter_eq_self.mpr fun x hx => decide_eq_true fun hkey => ?_
      obtain ⟨n, hn, rfl⟩ := mem_map.mp hx
      rw [(hs.shard _).find_eq.mpr ⟨hn, hkey⟩] at hf
      cases hf
    refine congrArg₂ List.cons rfl ?_
    rw [← Shard.items_eq]
    exact habsent.symm

theorem step_evictIfNeeded (hlru : cfg.policy = .lru) {t : EvictionStore cfg} (ht : t.Inv)
    {st : Recency.State Key} {e : Event Key} (harrange : Recency.arrange st e = t.recency i)
    (hspills : e.spills = true) :
    Recency.step st e =
      ((t.victims i).map fun v => v.toCell.item cfg.policy, (t.evictIfNeeded i).recency i) := by
  have hlength : (t.recency i).items.length = (t.shards i).list.length := length_map _
  have hspill : spill (t.recency i).slice (t.shards i).list.length (t.recency i).items = _ :=
    Shard.spill_items hlru (t.shards i).list.length (ht.shard i)
  have hleft : (t.evictIfNeeded i).recency i = { t.recency i with
      items := ((t.shards i).evictDown cfg.policy t.shardCapacity
        (t.shards i).list.length).2.items cfg.policy } := by
    refine recency_eq (evictIfNeeded_capacityBytes t i) ?_
    rw [← Shard.items_eq, evictIfNeeded, evictLoop_shards, Function.update_self]
  unfold Recency.step
  rw [if_pos hspills, harrange, hlength, hleft, hspill]
  rfl

theorem run_writeEvents (hlru : cfg.policy = .lru) (hs : s.Inv) (key : Key)
    (entry : VersionedEntry) (now : Nanos) (clk : ClockReading) (i : Fin cfg.numShards) :
    Recency.run (s.recency i) (s.writeEvents i key entry) =
      ((s.writeVictims key entry i).map fun v => v.toCell.item cfg.policy,
        (s.putVersionedAt key entry now clk).2.recency i) := by
  unfold writeEvents writeVictims
  cases hrej : s.rejects key entry with
  | true =>
    rw [putVersionedAt_of_rejects hrej]
    rfl
  | false =>
    by_cases hi : i = cfg.shardFor key
    · subst hi
      have hcap : (s.putVersionedAt key entry now clk).2.capacityBytes =
          ((s.write key entry).2.evictIfNeeded (cfg.shardFor key)).capacityBytes := by
        rw [putVersionedAt_capacityBytes, evictIfNeeded_capacityBytes, (write_fields s key entry).1]
      rw [if_pos ⟨rfl, rfl⟩, if_pos ⟨rfl, rfl⟩, run_singleton,
        recency_congr hcap (putVersionedAt_shard (fun _ _ => rfl) hrej now clk _)]
      exact step_evictIfNeeded hlru (write_spec hs key entry).1
        (arrange_write hlru hs key entry) rfl
    · rw [if_neg fun h => hi h.2, if_neg fun h => hi h.2,
        recency_congr (putVersionedAt_capacityBytes s key entry now clk)
          (congrArg Shard.nodes (putVersionedAt_shards_ne hi ..))]
      rfl

theorem run_drop (hs : s.Inv) {n : Node} (hn : n ∈ (s.shards i).list) :
    Recency.run (s.recency i) [.drop n.key] = ([], { s.recency i with
      items := (applyAll cfg.policy [.drop n.addr] (s.shards i).nodes).map
        fun m => m.toCell.item cfg.policy }) := by
  show _ = (([] : List (Item Key)), Recency.State.mk (List.map _ (List.filter _ _)) _)
  rw [Shard.items_drop (hs.shard i) hn]
  rfl

theorem run_touch (hlru : cfg.policy = .lru) (hs : s.Inv) {n : Node} (hn : n ∈ (s.shards i).list) :
    Recency.run (s.recency i) [.touch n.key] = ([], { s.recency i with
      items := (applyAll cfg.policy [.access n.addr] (s.shards i).nodes).map
        fun m => m.toCell.item cfg.policy }) := by
  have happly : applyAll cfg.policy [.access n.addr] (s.shards i).nodes =
      toFront n.addr (s.shards i).nodes := by
    rw [hlru]
    rfl
  rw [happly, Shard.items_toFront (hs.shard i) hn]
  rfl

theorem run_nothing (s : EvictionStore cfg) (i : Fin cfg.numShards) :
    Recency.run (s.recency i) [] = ([], { s.recency i with
      items := (applyAll cfg.policy [] (s.shards i).nodes).map
        fun m => m.toCell.item cfg.policy }) := by
  show _ = (([] : List (Item Key)), Recency.State.mk (List.map _ (s.shards i).nodes) _)
  rw [← Shard.items_eq]
  rfl

theorem run_atKey (hs : s.Inv) {key : Key} {edits : Node → List Edit}
    {events : Node → List (Event Key)}
    (h : ∀ n ∈ (s.shards (cfg.shardFor key)).list,
      Recency.run (s.recency (cfg.shardFor key)) (events n) =
        ([], { s.recency (cfg.shardFor key) with
        items := (applyAll cfg.policy (edits n) (s.shards (cfg.shardFor key)).nodes).map
          fun m => m.toCell.item cfg.policy })) (i : Fin cfg.numShards) :
    Recency.run (s.recency i) (s.atKey i key events) = ([], { s.recency i with
      items := (applyAll cfg.policy (s.atKey i key edits) (s.shards i).nodes).map
        fun m => m.toCell.item cfg.policy }) := by
  by_cases hi : i = cfg.shardFor key
  · subst hi
    cases hf : (s.shards (cfg.shardFor key)).find key with
    | some n =>
      rw [atKey_some events hf, atKey_some edits hf]
      exact h n ((hs.shard _).find_eq.mp hf).1
    | none =>
      rw [atKey_none events hf, atKey_none edits hf]
      exact run_nothing s _
  · rw [atKey_of_ne events hi, atKey_of_ne edits hi]
    exact run_nothing s i

theorem run_sweep (hs : s.Inv) (now : Nanos) (i : Fin cfg.numShards) :
    Recency.run (s.recency i) ((s.sweptKeys i now).map .drop) =
      ([], (s.evictExpired now).2.recency i) := by
  have hnodup : ((s.shards i).nodes.map fun n => n.key).Nodup := by
    have hkeys := (hs.shard i).base.keys
    rw [Shard.cells, map_map] at hkeys
    rwa [Shard.nodes, map_map]
  obtain ⟨gone, hgone⟩ := (evictExpired_sweeps hs now).thins i
  have hkept := filter_not_taken hnodup hgone
  have hafter : (s.evictExpired now).2.recency i = _ :=
    recency_eq (congrArg Prod.fst (evictExpired_sweeps hs now).counters_eq) rfl
  rw [run_drops, hafter]
  refine congrArg (fun items => (([] : List (Item Key)), Recency.State.mk items _)) ?_
  show List.filter _ ((s.shards i).items cfg.policy) =
    List.map _ ((s.evictExpired now).2.shards i).nodes
  rw [← hkept, Shard.items_eq, filter_map]
  rfl

theorem run_eventsOf (hlru : cfg.policy = .lru) (hs : s.Inv) (op : StoreOp)
    (i : Fin cfg.numShards) :
    Recency.run (s.recency i) (s.eventsOf i op) =
      ((s.evictedBy i op).map fun v => v.toCell.item cfg.policy, (s.apply op).recency i) := by
  -- the operations without capacity eviction: `apply_nodes` gives the items
  have hquiet : (s.apply op).capacityBytes = s.capacityBytes →
      (s.apply op).recency i = { s.recency i with
        items := (applyAll cfg.policy (s.editsOf i op) (s.shards i).nodes).map
          fun m => m.toCell.item cfg.policy } :=
    fun hcap => recency_eq hcap (congrArg _ (apply_nodes hs op i))
  have hcap := apply_capacityBytes hs op
  cases op with
  | put key value ttl clk => exact run_writeEvents hlru hs.mint key _ _ clk i
  | putVersioned key entry clk => exact run_writeEvents hlru hs key entry _ clk i
  | removeVersioned key version writer clk => exact run_writeEvents hlru hs key _ _ clk i
  | remove key =>
    rw [hquiet hcap]
    exact run_atKey hs (fun n hn => run_drop hs hn) i
  | get key now =>
    rw [hquiet hcap]
    refine run_atKey hs (fun n hn => ?_) i
    split
    · exact run_drop hs hn
    · split
      · exact run_nothing s _
      · exact run_touch hlru hs hn
  | getVersioned key now =>
    rw [hquiet hcap]
    refine run_atKey hs (fun n hn => ?_) i
    split
    · exact run_drop hs hn
    · exact run_nothing s _
  | evictExpired now => exact run_sweep hs now i
  | setCapacity capacityBytes =>
    have hresized : Inv { s with capacityBytes := capacityBytes } := hs.of_shards rfl le_rfl
    have hcap' : (s.apply (.setCapacity capacityBytes)).capacityBytes =
        (({ s with capacityBytes := capacityBytes } : EvictionStore cfg).evictIfNeeded
          i).capacityBytes := by
      rw [evictIfNeeded_capacityBytes]
      exact hcap
    rw [eventsOf, run_singleton, recency_congr hcap'
      (congrArg Shard.nodes ((setCapacity_spec s capacityBytes).2 i))]
    exact step_evictIfNeeded hlru hresized rfl rfl
  | setTombstoneGcInterval interval =>
    rw [hquiet hcap]
    exact run_nothing s i
  | restoreFreq key freq =>
    have hsame : s.apply (.restoreFreq key freq) = s := by
      unfold apply restoreFreq
      rw [hlru]
    rw [hsame]
    rfl
  | mintVersion =>
    rw [hquiet hcap]
    exact run_nothing s i

/-! ## 3. Histories -/

def eventsAlong (i : Fin cfg.numShards) : EvictionStore cfg → List StoreOp → List (Event Key)
  | _, [] => []
  | s, op :: ops => s.eventsOf i op ++ eventsAlong i (s.apply op) ops

def evictedAlong (i : Fin cfg.numShards) : EvictionStore cfg → List StoreOp → List Key
  | _, [] => []
  | s, op :: ops => ((s.evictedBy i op).map fun v => v.key) ++ evictedAlong i (s.apply op) ops

theorem eventsAlong_append (i : Fin cfg.numShards) (s : EvictionStore cfg) (ops : List StoreOp)
    (op : StoreOp) :
    eventsAlong i s (ops ++ [op]) = eventsAlong i s ops ++ (ops.foldl apply s).eventsOf i op := by
  induction ops generalizing s with
  | nil => simp [eventsAlong]
  | cons first ops ih =>
    rw [cons_append, eventsAlong, ih, eventsAlong, foldl_cons, append_assoc]

theorem run_eventsAlong (hlru : cfg.policy = .lru) (ops : List StoreOp) (hs : s.Inv) :
    (Recency.run (s.recency i) (eventsAlong i s ops)).2 = (ops.foldl apply s).recency i ∧
      ((Recency.run (s.recency i) (eventsAlong i s ops)).1.map fun x => x.key) =
        evictedAlong i s ops := by
  induction ops generalizing s with
  | nil => exact ⟨rfl, rfl⟩
  | cons op ops ih =>
    obtain ⟨hafter, hout⟩ := ih (apply_inv hs op)
    rw [eventsAlong, run_append, run_eventsOf hlru hs op i]
    refine ⟨hafter, ?_⟩
    rw [map_append, hout, map_map]
    rfl

theorem event_of_eviction (hlru : cfg.policy = .lru) (hs : s.Inv) {op : StoreOp}
    (h : s.evictedBy i op ≠ []) :
    ∃ e, s.eventsOf i op = [e] ∧
      (Recency.arrange (s.recency i) e).items =
        ((s.beforeEviction op).shards i).items cfg.policy := by
  have hwrite : ∀ (t : EvictionStore cfg), t.Inv → ∀ key entry, t.writeVictims key entry i ≠ [] →
      ∃ e, t.writeEvents i key entry = [e] ∧ (arrange (t.recency i) e).items =
        ((t.acceptWrite key entry).shards i).items cfg.policy := by
    intro t ht key entry hvictims
    unfold writeVictims at hvictims
    split at hvictims
    · rename_i hcond
      obtain ⟨haccept, rfl⟩ := hcond
      refine ⟨_, if_pos ⟨haccept, rfl⟩, ?_⟩
      rw [arrange_write hlru ht, acceptWrite, if_neg (haccept ▸ Bool.false_ne_true)]
      rfl
    · exact absurd rfl hvictims
  cases op with
  | put key value ttl clk => exact hwrite _ hs.mint _ _ h
  | putVersioned | removeVersioned => exact hwrite s hs _ _ h
  | setCapacity capacityBytes => exact ⟨_, rfl, rfl⟩
  | _ => exact absurd rfl h

/-- A victim, given those that left before it: no other live node was accessed earlier. -/
structure LeastRecent (log : List Key) (nodes before : List Node) (v : Node) : Prop where
  live : v.entry.isTombstone = false
  resident : v.key ∈ nodes.map fun n => n.key
  oldest : ∀ n ∈ nodes, n.entry.isTombstone = false → n.key ∉ before.map (fun b => b.key) →
    n.key ≠ v.key → Recency.Later log n.key v.key

/-- The successful accesses of a history in a shard, the latest first. -/
def accessLog (cfg : StoreConfig) (capacityBytes : Nat) (now : Nanos) (ops : List StoreOp)
    (i : Fin cfg.numShards) : List Key :=
  Recency.accesses (eventsAlong i (start cfg capacityBytes now) ops)

theorem recency_start (cfg : StoreConfig) (capacityBytes : Nat) (now : Nanos)
    (i : Fin cfg.numShards) :
    (start cfg capacityBytes now).recency i = ⟨[], capacityBytes / cfg.numShards⟩ := rfl

theorem inOrder_after (hlru : cfg.policy = .lru) (capacityBytes : Nat) (now : Nanos)
    (ops : List StoreOp) (i : Fin cfg.numShards) :
    Recency.InOrder (accessLog cfg capacityBytes now ops i)
      ((after cfg capacityBytes now ops).recency i).items := by
  have hrun := (run_eventsAlong (i := i) hlru ops (inv_start cfg capacityBytes now)).1
  rw [recency_start] at hrun
  have horder := inOrder_run (capacityBytes / cfg.numShards)
    (eventsAlong i (start cfg capacityBytes now) ops)
  rw [hrun] at horder
  exact horder

theorem leastRecent_victim (hlru : cfg.policy = .lru) (capacityBytes : Nat) (now : Nanos)
    (ops : List StoreOp) (i : Fin cfg.numShards) {op : StoreOp} {before rest : List Node} {v : Node}
    (h : (after cfg capacityBytes now ops).evictedBy i op = before ++ v :: rest) :
    LeastRecent (accessLog cfg capacityBytes now (ops ++ [op]) i)
      (((after cfg capacityBytes now ops).beforeEviction op).shards i).list before v := by
  have hs : (after cfg capacityBytes now ops).Inv := (after_keeps capacityBytes now ops).1
  have hsome : (after cfg capacityBytes now ops).evictedBy i op ≠ [] := by
    rw [h]
    exact append_ne_nil_of_right_ne_nil _ (cons_ne_nil _ _)
  obtain ⟨e, he, hitems⟩ := event_of_eviction hlru hs hsome
  have hlog : accessLog cfg capacityBytes now (ops ++ [op]) i =
      logged e (accessLog cfg capacityBytes now ops i) := by
    have hevents : ((ops.foldl apply (start cfg capacityBytes now)).eventsOf i op) = [e] := he
    unfold accessLog
    rw [eventsAlong_append, hevents, Recency.accesses_append]
  have hstep := run_eventsOf hlru hs op i
  rw [he, Recency.run_singleton] at hstep
  have hout : (Recency.step ((after cfg capacityBytes now ops).recency i) e).1 =
      (before.map fun b => b.toCell.item cfg.policy) ++ v.toCell.item cfg.policy ::
        rest.map fun b => b.toCell.item cfg.policy := by
    rw [hstep, h, map_append, map_cons]
  obtain ⟨hmem, hlive, holdest⟩ := Recency.step_leastRecent
    (inOrder_after hlru capacityBytes now ops i) hout
  rw [hitems] at hmem holdest
  rw [hlog]
  refine ⟨hlive, ?_, fun n hn hnlive hbefore hne => ?_⟩
  · rw [← Shard.map_key_items cfg.policy]
    exact mem_map_of_mem hmem
  · refine holdest _ (mem_map_of_mem hn) hnlive ?_ fun heq => hne (congrArg Item.key heq)
    rw [map_map]
    exact hbefore

/-- **The LRU store refines a recency list.** After every history a shard's nodes are in the order
of their last accesses, every victim of the next operation is the least recently accessed live node
at its time, and two histories with the same events and slice evict the same keys. -/
theorem lru_refines_recency_list (cfg : StoreConfig) (hlru : cfg.policy = .lru)
    (capacityBytes : Nat) (now : Nanos) (ops : List StoreOp) (i : Fin cfg.numShards) :
    (Recency.run ⟨[], capacityBytes / cfg.numShards⟩
        (eventsAlong i (start cfg capacityBytes now) ops)).2 =
          (after cfg capacityBytes now ops).recency i ∧
      ((Recency.run ⟨[], capacityBytes / cfg.numShards⟩
        (eventsAlong i (start cfg capacityBytes now) ops)).1.map fun x => x.key) =
          evictedAlong i (start cfg capacityBytes now) ops ∧
      Recency.Recent (accessLog cfg capacityBytes now ops i)
        (((after cfg capacityBytes now ops).shards i).list.map fun n => n.key) ∧
      (∀ op before v rest, (after cfg capacityBytes now ops).evictedBy i op = before ++ v :: rest →
        LeastRecent (accessLog cfg capacityBytes now (ops ++ [op]) i)
          (((after cfg capacityBytes now ops).beforeEviction op).shards i).list before v) ∧
      ∀ (cfg' : StoreConfig) (capacityBytes' : Nat) (now' : Nanos) (ops' : List StoreOp)
        (i' : Fin cfg'.numShards), cfg'.policy = .lru →
        capacityBytes' / cfg'.numShards = capacityBytes / cfg.numShards →
        eventsAlong i' (start cfg' capacityBytes' now') ops' =
          eventsAlong i (start cfg capacityBytes now) ops →
        evictedAlong i' (start cfg' capacityBytes' now') ops' =
          evictedAlong i (start cfg capacityBytes now) ops := by
  obtain ⟨hafter, hout⟩ := run_eventsAlong (i := i) hlru ops (inv_start cfg capacityBytes now)
  rw [recency_start] at hafter hout
  refine ⟨hafter, hout, ?_, ?_, ?_⟩
  · rw [← Shard.map_key_items cfg.policy]
    exact inOrder_after hlru capacityBytes now ops i
  · intro op before v rest h
    exact leastRecent_victim hlru capacityBytes now ops i h
  · intro cfg' capacityBytes' now' ops' i' hlru' hslice hevents
    obtain ⟨-, hout'⟩ := run_eventsAlong (i := i') hlru' ops' (inv_start cfg' capacityBytes' now')
    rw [recency_start, hslice, hevents, hout] at hout'
    exact hout'.symm

/-- Two small entries fill the store, the first is read and a third written. -/
def readThenWrite : List StoreOp := twoSmall ++ [.get [1] 0, .put [3] [9] none {}]

theorem lru_refines_recency_list_read :
    accessLog (oneShardStore .lru) 250 0 readThenWrite ⟨0, Nat.one_pos⟩ = [[3], [1], [2], [1]] ∧
      evictedAlong ⟨0, Nat.one_pos⟩ (start (oneShardStore .lru) 250 0) readThenWrite = [[2]] ∧
      Recency.Recent (accessLog (oneShardStore .lru) 250 0 readThenWrite ⟨0, Nat.one_pos⟩)
        (((after (oneShardStore .lru) 250 0 readThenWrite).shards ⟨0, Nat.one_pos⟩).list.map
          fun n => n.key) := by
  obtain ⟨-, -, horder, -⟩ :=
    lru_refines_recency_list (oneShardStore .lru) rfl 250 0 readThenWrite ⟨0, Nat.one_pos⟩
  exact ⟨by decide +kernel, by decide +kernel, horder⟩

/-- A third entry; the same behind a removal; a larger third entry. -/
def thirdWrite : List StoreOp := twoSmall ++ [.put [3] [9] none {}]

def removeThenWrite : List StoreOp := twoSmall ++ [.remove [1], .put [3] [9] none {}]

def largerWrite : List StoreOp := twoSmall ++ [.put [3] (List.replicate 8 9) none {}]

/-- The order of accesses alone does not decide who is evicted: a removal in between makes room,
and a larger value takes it. -/
theorem same_accesses_evict_differently :
    (accessLog (oneShardStore .lru) 250 0 thirdWrite ⟨0, Nat.one_pos⟩ = [[3], [2], [1]] ∧
        accessLog (oneShardStore .lru) 250 0 removeThenWrite ⟨0, Nat.one_pos⟩ = [[3], [2], [1]] ∧
        accessLog (oneShardStore .lru) 250 0 largerWrite ⟨0, Nat.one_pos⟩ = [[3], [2], [1]]) ∧
      evictedAlong ⟨0, Nat.one_pos⟩ (start (oneShardStore .lru) 250 0) thirdWrite = [[1]] ∧
      evictedAlong ⟨0, Nat.one_pos⟩ (start (oneShardStore .lru) 250 0) removeThenWrite = [] ∧
      evictedAlong ⟨0, Nat.one_pos⟩ (start (oneShardStore .lru) 250 0) largerWrite =
        [[1], [2]] := by
  decide +kernel

end EvictionStore

end Cinder
