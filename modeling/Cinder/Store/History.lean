/-
What the directory says about the history of the store: recovery in terms of registers,
and copies of the store taken shard by shard.
-/
import Cinder.Store.LogReplay

namespace Cinder

open Transition List LwwLog

variable {n : Nat}

/-! ## 1. Recovery in registers -/

def noRegs : Key → Option Reg := fun _ => none

/-- The map a list of operations leads to from nothing. -/
def mapOf (rs : List (LwwLog.Rec Key Reg)) : Key → Option Reg := LwwLog.replay Prod.fst noRegs rs

/-- The map the first `m` records of a history lead to. -/
def mapAt (hist : List WalEntry) (m : Nat) : Key → Option Reg :=
  mapOf ((hist.take m).map WalEntry.toRec)

def snapshotMap (es : List SnapshotEntry) : Key → Option Reg := mapOf (es.map SnapshotEntry.toRec)

/-- Versions fit the packed word of an entry. -/
def WalEntry.Versioned (we : WalEntry) : Prop := we.version.toNat < 2 ^ 62

def SnapshotEntry.Versioned (se : SnapshotEntry) : Prop := se.version.toNat < 2 ^ 62

variable (clk : ClockReading)

theorem versioned_walRecord (key : Key) (e : VersionedEntry) : (walRecord clk key e).Versioned :=
  e.version_lt

theorem regs_foldl_replayRecord {ws : List WalEntry} (h : ∀ we ∈ ws, we.Versioned) (t : Table) :
    (ws.foldl (replayRecord clk) t).regs =
      LwwLog.replay Prod.fst t.regs ((ws.filter fun we => !we.expired clk).map WalEntry.toRec) := by
  induction ws generalizing t with
  | nil => rfl
  | cons we ws ih =>
    obtain ⟨hwe, hws⟩ := forall_mem_cons.mp h
    rw [foldl_cons, ih hws, regs_replayRecord clk t hwe]
    cases hx : we.expired clk with
    | true => simp [hx]
    | false => simp [hx, replay]

theorem regs_foldl_loadEntry {es : List SnapshotEntry} (h : ∀ se ∈ es, se.Versioned) (t : Table) :
    (es.foldl (loadEntry clk) t).regs =
      LwwLog.replay Prod.fst t.regs
        ((es.filter fun se => !se.expired clk).map SnapshotEntry.toRec) := by
  induction es generalizing t with
  | nil => rfl
  | cons se es ih =>
    obtain ⟨hse, hes⟩ := forall_mem_cons.mp h
    rw [foldl_cons, ih hes, regs_loadEntry clk t hse]
    cases hx : se.expired clk with
    | true => simp [hx]
    | false => simp [hx, replay]

/-- The entries recovery loads before it replays the log. -/
def Disk.snapshotEntries (d : Disk) : List SnapshotEntry := d.findLatestSnapshot.getD []

structure Disk.Versioned (d : Disk) : Prop where
  log : ∀ we ∈ d.logRecords, we.Versioned
  snapshot : ∀ se ∈ d.snapshotEntries, se.Versioned

theorem regs_recover {d : Disk} (h : d.Versioned) (clk : ClockReading) :
    (d.recover clk).regs =
      LwwLog.replay Prod.fst
        (snapshotMap (d.snapshotEntries.filter fun se => !se.expired clk))
        ((d.logRecords.filter fun we => !we.expired clk).map WalEntry.toRec) := by
  rw [Disk.recover, regs_foldl_replayRecord clk h.log, ← Disk.snapshotEntries,
    regs_foldl_loadEntry clk h.snapshot, regs_empty]
  rfl

/-- No record a restart reads has expired. -/
structure Disk.Unexpired (d : Disk) (clk : ClockReading) : Prop where
  log : ∀ we ∈ d.logRecords, we.expired clk = false
  snapshot : ∀ se ∈ d.snapshotEntries, se.expired clk = false

theorem regs_recover_of_unexpired {d : Disk} (h : d.Versioned) {clk : ClockReading}
    (hx : d.Unexpired clk) :
    (d.recover clk).regs = LwwLog.replay Prod.fst (snapshotMap d.snapshotEntries)
      (d.logRecords.map WalEntry.toRec) := by
  have hlog : d.logRecords.filter (fun we => !we.expired clk) = d.logRecords :=
    filter_eq_self.mpr fun we hwe => by simp [hx.log we hwe]
  have hsnap : d.snapshotEntries.filter (fun se => !se.expired clk) = d.snapshotEntries :=
    filter_eq_self.mpr fun se hse => by simp [hx.snapshot se hse]
  rw [regs_recover h, hlog, hsnap]

/-! ## 2. Copies of the store -/

/-- The registers `liveEntries` would copy. -/
def Table.liveRegs (t : Table) (now : Nanos) : Key → Option Reg := fun k =>
  ((t.lookup k).filter fun e => !e.expiredAt now).map regOf

theorem liveRegs_of_unexpired {t : Table} {now : Nanos}
    (h : ∀ k e, t.lookup k = some e → e.expiredAt now = false) : t.liveRegs now = t.regs := by
  funext k
  unfold Table.liveRegs Table.regs
  cases hl : t.lookup k with
  | none => rfl
  | some e => simp [h k e hl]

def copyRecs (acc : List (Key × VersionedEntry)) : List (LwwLog.Rec Key Reg) :=
  acc.map fun p => (p.1, some (regOf p.2))

theorem copyRecs_append (acc acc' : List (Key × VersionedEntry)) :
    copyRecs (acc ++ acc') = copyRecs acc ++ copyRecs acc' := map_append

/-- What `liveEntries` keeps of one shard. -/
def keepLive (cfg : PersistConfig) (i : Fin cfg.numShards) (now : Nanos)
    (f : Sigma fun _ : Key => VersionedEntry) : Option (Key × VersionedEntry) :=
  if cfg.shardFor f.1 = i ∧ f.2.expiredAt now = false then some (f.1, f.2) else none

variable {cfg : PersistConfig}

theorem opsOf_keepLive_cons {i : Fin cfg.numShards} {now : Nanos}
    (f : Sigma fun _ : Key => VersionedEntry) (l : List (Sigma fun _ : Key => VersionedEntry))
    (k : Key) :
    LwwLog.opsOf k (copyRecs ((f :: l).filterMap (keepLive cfg i now))) =
      (if f.1 = k ∧ cfg.shardFor k = i ∧ f.2.expiredAt now = false then [some (regOf f.2)]
        else []) ++ LwwLog.opsOf k (copyRecs (l.filterMap (keepLive cfg i now))) := by
  by_cases hkeep : cfg.shardFor f.1 = i ∧ f.2.expiredAt now = false
  · have hf : keepLive cfg i now f = some (f.1, f.2) := if_pos hkeep
    rw [filterMap_cons_some hf]
    by_cases hk : f.1 = k
    · subst hk
      rw [if_pos ⟨rfl, hkeep⟩]
      exact opsOf_cons_self f.1 _ _
    · rw [if_neg (fun h => hk h.1)]
      exact opsOf_cons_of_ne hk _
  · have hf : keepLive cfg i now f = none := if_neg hkeep
    rw [filterMap_cons_none hf, if_neg, nil_append]
    rintro ⟨rfl, h⟩
    exact hkeep h

theorem opsOf_liveEntries {l : List (Sigma fun _ : Key => VersionedEntry)} (h : l.NodupKeys)
    (i : Fin cfg.numShards) (now : Nanos) (k : Key) :
    LwwLog.opsOf k (copyRecs (l.filterMap (keepLive cfg i now))) =
      if cfg.shardFor k = i then
        (((l.dlookup k).filter fun e => !e.expiredAt now).map fun e => some (regOf e)).toList
      else [] := by
  induction l with
  | nil => simp [copyRecs]
  | cons f l ih =>
    obtain ⟨k', e⟩ := f
    obtain ⟨hnot, hl⟩ := nodupKeys_cons.mp h
    rw [opsOf_keepLive_cons, ih hl]
    by_cases hk : k' = k
    · -- no later entry has this key
      subst hk
      rw [dlookup_eq_none.mpr hnot, dlookup_cons_eq]
      by_cases hi : cfg.shardFor k' = i <;> cases hx : e.expiredAt now <;>
        simp [hi, hx, Option.filter]
    · rw [if_neg (fun h => hk h.1), nil_append, dlookup_cons_ne _ _ (fun h => hk h.symm)]

theorem opsOf_liveShard (s : PersistState cfg.numShards) (i : Fin cfg.numShards) (now : Nanos)
    (k : Key) :
    LwwLog.opsOf k (copyRecs (s.liveShard cfg i now)) =
      if cfg.shardFor k = i then ((s.mem.liveRegs now k).map some).toList else [] := by
  rw [Table.liveRegs, Option.map_map]
  exact opsOf_liveEntries s.mem.nodupKeys i now k

theorem fold_toList (v : Option Reg) : LwwLog.fold Prod.fst none ((v.map some).toList) = v := by
  cases v <;> rfl

theorem mapOf_apply (rs : List (LwwLog.Rec Key Reg)) (k : Key) :
    mapOf rs k = LwwLog.fold Prod.fst none (LwwLog.opsOf k rs) := replay_apply Prod.fst noRegs rs k

/-- What a store may hold for a key after a history. -/
abbrev View := List WalEntry → Key → Option Reg → Prop

section Copies

variable {cfg : PersistConfig} {view : View} {hist : List WalEntry} {ms : List Nat}

/-- Records that show, for each key, what the store held at the mark of the key's shard: one
record if the key was there, none if it was not. -/
def CopyOf (cfg : PersistConfig) (view : View) (hist : List WalEntry) (ms : List Nat)
    (recs : List (LwwLog.Rec Key Reg)) : Prop :=
  ∀ k, ∃ m v, ms[(cfg.shardFor k).val]? = some m ∧ m ≤ hist.length ∧
    LwwLog.opsOf k recs = (v.map some).toList ∧ view (hist.take m) k v

/-- A copy in progress: the shards with a mark have been copied, `rest` have not. -/
structure Copying (cfg : PersistConfig) (view : View) (hist : List WalEntry) (ms : List Nat)
    (rest : List (Fin cfg.numShards)) (acc : List (Key × VersionedEntry)) : Prop where
  order : rest = (finRange cfg.numShards).drop ms.length
  done : ∀ k m, ms[(cfg.shardFor k).val]? = some m → ∃ v, m ≤ hist.length ∧
    LwwLog.opsOf k (copyRecs acc) = (v.map some).toList ∧ view (hist.take m) k v
  todo : ∀ k, ms[(cfg.shardFor k).val]? = none → LwwLog.opsOf k (copyRecs acc) = []

variable {rest : List (Fin cfg.numShards)} {acc : List (Key × VersionedEntry)}

theorem Copying.next {i : Fin cfg.numShards} (h : Copying cfg view hist ms (i :: rest) acc) :
    i.val = ms.length ∧ rest = (finRange cfg.numShards).drop (ms.length + 1) := by
  have hlt : ms.length < (finRange cfg.numShards).length := by
    by_contra hge
    have := h.order
    rw [drop_eq_nil_of_le (Nat.le_of_not_lt hge)] at this
    cases this
  have hcons := h.order
  rw [drop_eq_getElem_cons hlt] at hcons
  injection hcons with hi hrest
  exact ⟨by rw [hi]; simp, hrest⟩

theorem Copying.shard {s : PersistState cfg.numShards} {i : Fin cfg.numShards}
    (h : Copying cfg view s.hist ms (i :: rest) acc) {now : Nanos}
    (hlive : ∀ k, view s.hist k (s.mem.liveRegs now k)) :
    Copying cfg view s.hist (ms ++ [s.hist.length]) rest (acc ++ s.liveShard cfg i now) := by
  obtain ⟨hi, hrest⟩ := h.next
  have hops : ∀ k, opsOf k (copyRecs (acc ++ s.liveShard cfg i now)) = opsOf k (copyRecs acc) ++
        if cfg.shardFor k = i then ((s.mem.liveRegs now k).map some).toList else [] := by
    intro k
    rw [copyRecs_append, opsOf_append, opsOf_liveShard]
  -- the new mark is the mark of this shard only
  have hother : ∀ k, cfg.shardFor k ≠ i →
      (ms ++ [s.hist.length])[(cfg.shardFor k).val]? = ms[(cfg.shardFor k).val]? := by
    intro k hk
    rw [getElem?_append]
    split
    · rfl
    · rename_i hge
      rw [getElem?_eq_none (by simp; omega), getElem?_eq_none (by omega)]
  have hself : (ms ++ [s.hist.length])[ms.length]? = some s.hist.length := by
    rw [getElem?_append_right le_rfl, Nat.sub_self]
    rfl
  refine ⟨by rw [hrest, length_append]; rfl, ?_, ?_⟩
  · intro k m hm
    by_cases hk : cfg.shardFor k = i
    · rw [hk, hi, hself] at hm
      cases hm
      have hnone : ms[(cfg.shardFor k).val]? = none := by
        rw [hk, hi]
        exact getElem?_eq_none le_rfl
      refine ⟨s.mem.liveRegs now k, le_rfl, ?_, ?_⟩
      · rw [hops, if_pos hk, h.todo k hnone, nil_append]
      · rw [take_length]
        exact hlive k
    · rw [hother k hk] at hm
      rw [hops, if_neg hk, append_nil]
      exact h.done k m hm
  · intro k hm
    have hk : cfg.shardFor k ≠ i := by
      intro hk
      rw [hk, hi, hself] at hm
      cases hm
    rw [hother k hk] at hm
    rw [hops, if_neg hk, append_nil]
    exact h.todo k hm

theorem Copying.copyOf (h : Copying cfg view hist ms [] acc) :
    CopyOf cfg view hist ms (copyRecs acc) := by
  intro k
  have hlen : cfg.numShards ≤ ms.length := by
    have := drop_eq_nil_iff.mp h.order.symm
    simpa using this
  obtain ⟨m, hm⟩ : ∃ m, ms[(cfg.shardFor k).val]? = some m :=
    ⟨_, getElem?_eq_getElem (lt_of_lt_of_le (cfg.shardFor k).isLt hlen)⟩
  obtain ⟨v, hv⟩ := h.done k m hm
  exact ⟨m, v, hm, hv⟩

theorem CopyOf.append {recs : List (LwwLog.Rec Key Reg)} (h : CopyOf cfg view hist ms recs)
    (rs : List WalEntry) : CopyOf cfg view (hist ++ rs) ms recs := by
  intro k
  obtain ⟨m, v, hm, hle, hops, hv⟩ := h k
  refine ⟨m, v, hm, le_trans hle (by simp), hops, ?_⟩
  rw [take_append_of_le_length hle]
  exact hv

theorem CopyOf.mapOf_eq {recs : List (LwwLog.Rec Key Reg)} (h : CopyOf cfg view hist ms recs)
    (k : Key) : ∃ m, ms[(cfg.shardFor k).val]? = some m ∧ m ≤ hist.length ∧
      view (hist.take m) k (mapOf recs k) := by
  obtain ⟨m, v, hm, hle, hops, hv⟩ := h k
  refine ⟨m, hm, hle, ?_⟩
  rw [mapOf_apply, hops, fold_toList]
  exact hv

theorem Copying.append (h : Copying cfg view hist ms rest acc) (rs : List WalEntry) :
    Copying cfg view (hist ++ rs) ms rest acc where
  order := h.order
  done := by
    intro k m hm
    obtain ⟨v, hle, hops, hv⟩ := h.done k m hm
    refine ⟨v, le_trans hle (by simp), hops, ?_⟩
    rw [take_append_of_le_length hle]
    exact hv
  todo := h.todo

end Copies

end Cinder
