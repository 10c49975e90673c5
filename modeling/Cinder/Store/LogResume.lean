/-
Resuming a log across a restart, for EVERY file the reader accepts (`WalReader`,
`WalWriter(path, Append)`, the truncate-and-reopen of `recover`).

The writer knows one record layout, the reader three. All that is used of a file is that the
reader got through it without reporting corruption. What makes this work is that the reader is
LOCAL (`next_local`): the records up to the committed end are read the same way whatever stands
behind that end.
-/
import Cinder.Store.Wal

namespace Cinder

open Decoding Decoding.Decoder WalReader

section Resume

variable (xxh3 : Bytes → UInt64)

/-! ## 1. Fields are read locally -/

theorem local_readU8 : Local 1 readU8 := (local_readLe 1).bind fun _ => local_pure _

theorem local_readU32 : Local 4 readU32 := (local_readLe 4).bind fun _ => local_pure _

theorem local_readU64 : Local 8 readU64 := (local_readLe 8).bind fun _ => local_pure _

theorem local_readOp : Local 1 readOp := by
  refine local_readU8.bind (n := 0) fun opByte => ?_
  split
  · exact local_pure _
  · split
    · exact local_pure _
    · exact local_reject

theorem local_readTombstone (format : WalFormat) : Local 0 (readTombstone format) := by
  unfold readTombstone
  split
  · refine (local_readU8.bind (n := 0) fun tombstoneByte => ?_).mono (Nat.zero_le _)
    split
    · exact local_reject
    · exact local_pure _
  · exact local_pure _

theorem local_string (n : Nat) : Local 0 (take n : Decoder UInt8 Bytes) :=
  (local_take n).mono (Nat.zero_le _)

theorem local_readEntryFields (format : WalFormat) : Local 34 (readEntryFields format) :=
  local_readOp.bind (n := 33) fun _ => local_readU32.bind (n := 29) fun _ =>
  (local_string _).bind (n := 29) fun _ => local_readU32.bind (n := 25) fun _ =>
  (local_string _).bind fun _ => local_readU64.bind fun _ => local_readU64.bind fun _ =>
  local_readU64.bind fun _ => local_readU8.bind fun _ =>
  (local_readTombstone format).bind fun _ => local_pure _

variable {format : WalFormat} {data data' file : Bytes} {pos stop : Nat} {es batch : List WalEntry}

theorem readEntryFields_no_tombstone (h : walHasTombstone format = false) :
    Ensures (readEntryFields format) fun fields => fields.tombstone = 0 := by
  refine ensures_bind fun op => ensures_bind fun keyLen => ensures_bind fun key =>
    ensures_bind fun valLen => ensures_bind fun value => ensures_bind fun version =>
    ensures_bind fun writer => ensures_bind fun expires => ensures_bind fun ttl => ?_
  have hread : readTombstone format = pure 0 := by
    rw [readTombstone, h, if_neg Bool.false_ne_true]
  rw [hread]
  exact ensures_pure rfl

/-! ## 2. Records -/

theorem le_length_of_take_eq {n : Nat} (h : data'.take n = data.take n) (hn : n ≤ data.length) :
    n ≤ data'.length := by
  have := congrArg List.length h
  rw [List.length_take, List.length_take] at this
  omega

theorem WalReader.next_local {commit : Nat} {corrupted : Bool} {e : WalEntry} {r : WalReader}
    (hpos : pos ≤ data.length)
    (h : next xxh3 ⟨data, pos, commit, format, corrupted⟩ = (some e, r)) :
    ∃ stop, r = ⟨data, stop, stop, format, corrupted⟩ ∧ pos + 34 ≤ stop ∧ stop ≤ data.length ∧
      (walHasTombstone format = false → e.isTombstone = false) ∧
      ∀ data' commit' corrupted', data'.take stop = data.take stop →
        next xxh3 ⟨data', pos, commit', format, corrupted'⟩ =
          (some e, ⟨data', stop, stop, format, corrupted'⟩) := by
  simp only [next, Nat.min_eq_left hpos] at h
  cases hf : readEntryFields format ⟨data, pos⟩ with
  | mk res c =>
    cases res with
    | error s =>
      simp only [hf] at h
      cases h
    | ok fields =>
      obtain ⟨mid, rfl, hle, hmid, hagree⟩ := (local_readEntryFields format).read hpos hf
      have htomb : walHasTombstone format = false → (toWalEntry fields).isTombstone = false := by
        intro hno
        have := (readEntryFields_no_tombstone hno).holds hf
        simp [toWalEntry, this]
      simp only [hf] at h
      split at h
      · -- the pre-magic format has no checksum
        rename_i hlegacy
        cases h
        refine ⟨mid, rfl, hle, hmid, htomb, fun data' commit' corrupted' heq => ?_⟩
        have hlen := le_length_of_take_eq heq hmid
        simp only [next, Nat.min_eq_left (show pos ≤ data'.length by omega), hagree data' heq,
          if_pos hlegacy]
      · rename_i hlegacy
        cases hs : readU64 ⟨data, mid⟩ with
        | mk res' c' =>
          cases res' with
          | error s =>
            simp only [hs] at h
            cases h
          | ok stored =>
            obtain ⟨stop, rfl, hle', hstop, hagree'⟩ := local_readU64.read hmid hs
            simp only [hs] at h
            split at h
            · cases h
            · rename_i hsum
              cases h
              refine ⟨stop, rfl, by omega, hstop, htomb, fun data' commit' corrupted' heq => ?_⟩
              have hlen := le_length_of_take_eq heq hstop
              have hmidle : mid ≤ stop := by omega
              simp only [next, Nat.min_eq_left (show pos ≤ data'.length by omega),
                hagree data' (take_eq_of_le heq hmidle), hagree' data' heq, if_neg hlegacy,
                if_neg hsum]

/-- The records `es` stand in `data` between two positions. -/
inductive Reads (format : WalFormat) (data : Bytes) : Nat → List WalEntry → Nat → Prop where
  | nil (pos : Nat) : Reads format data pos [] pos
  | cons {pos mid stop : Nat} {e : WalEntry} {es : List WalEntry}
      (first : ∀ commit corrupted, WalReader.next xxh3 ⟨data, pos, commit, format, corrupted⟩ =
        (some e, ⟨data, mid, mid, format, corrupted⟩))
      (takes : pos + 34 ≤ mid) (inside : mid ≤ data.length)
      (rest : Reads format data mid es stop) : Reads format data pos (e :: es) stop

variable {xxh3}

section

variable (h : Reads xxh3 format data pos es stop)

include h

theorem Reads.le : pos + 34 * es.length ≤ stop := by
  induction h with
  | nil => simp
  | cons _ takes _ _ ih =>
    rw [List.length_cons]
    omega

theorem Reads.of_take_eq
    (heq : data'.take stop = data.take stop) : Reads xxh3 format data' pos es stop := by
  induction h with
  | nil => exact .nil _
  | @cons pos mid stop e es first takes inside rest ih =>
    have hle := rest.le
    have hmid : data'.take mid = data.take mid := take_eq_of_le heq (by omega)
    obtain ⟨mid', hr, -, -, -, hagree⟩ :=
      next_local xxh3 (show pos ≤ data.length by omega) (first 0 false)
    obtain rfl : mid = mid' := congrArg WalReader.pos hr
    exact .cons (fun commit corrupted => hagree data' commit corrupted hmid) takes
      (le_length_of_take_eq hmid inside) (ih heq)

theorem Reads.no_tombstone
    (hno : walHasTombstone format = false) : ∀ e ∈ es, e.isTombstone = false := by
  induction h with
  | nil => simp
  | @cons pos mid stop e es first takes inside rest ih =>
    obtain ⟨-, -, -, -, htomb, -⟩ :=
      next_local xxh3 (show pos ≤ data.length by omega) (first 0 false)
    rw [List.forall_mem_cons]
    exact ⟨htomb hno, ih⟩

theorem Reads.end_eq :
    (if es = [] then pos else stop) = stop := by
  split
  · rename_i hes
    subst hes
    cases h
    rfl
  · rfl

theorem Reads.drain (commit fuel : Nat) (corrupted : Bool) :
    WalReader.drain xxh3 (es.length + fuel) ⟨data, pos, commit, format, corrupted⟩ =
      (es ++ (WalReader.drain xxh3 fuel
          ⟨data, stop, if es = [] then commit else stop, format, corrupted⟩).1,
        (WalReader.drain xxh3 fuel
          ⟨data, stop, if es = [] then commit else stop, format, corrupted⟩).2) := by
  induction h generalizing commit with
  | nil => simp
  | @cons pos mid stop e es first takes inside rest ih =>
    have hmore : (mk data pos commit format corrupted).hasMore = true := by
      simp only [hasMore, decide_eq_true_eq]
      omega
    rw [List.length_cons, Nat.add_right_comm, WalReader.drain, if_pos hmore, first]
    simp only [ih, rest.end_eq, reduceCtorEq, if_false, List.cons_append]

end

theorem WalReader.commitPos_of_none {r r' : WalReader} (h : next xxh3 r = (none, r')) :
    r'.commitPos = r.commitPos := by
  unfold next at h
  split at h
  · cases h
    rfl
  · split at h
    · cases h
    · split at h
      · cases h
        rfl
      · split at h
        · cases h
          rfl
        · cases h

theorem drain_reads (fuel : Nat) {commit : Nat} {corrupted : Bool} (hpos : pos ≤ data.length) :
    ∃ stop, Reads xxh3 format data pos
        (WalReader.drain xxh3 fuel ⟨data, pos, commit, format, corrupted⟩).1 stop ∧
      stop ≤ data.length ∧
      (WalReader.drain xxh3 fuel ⟨data, pos, commit, format, corrupted⟩).2.commitPos =
        if (WalReader.drain xxh3 fuel ⟨data, pos, commit, format, corrupted⟩).1 = [] then commit
        else stop := by
  induction fuel generalizing pos commit with
  | zero => exact ⟨pos, .nil _, hpos, by simp [drain]⟩
  | succ fuel ih =>
    by_cases hmore : (mk data pos commit format corrupted).hasMore = true
    · cases hn : next xxh3 ⟨data, pos, commit, format, corrupted⟩ with
      | mk res r =>
        cases res with
        | none =>
          have hcommit : r.commitPos = commit := commitPos_of_none hn
          refine ⟨pos, ?_, hpos, ?_⟩
          · simp only [drain, if_pos hmore, hn]
            exact .nil _
          · simp [drain, if_pos hmore, hn, hcommit]
        | some e =>
          obtain ⟨mid, rfl, htakes, hmid, -, hagree⟩ := next_local xxh3 hpos hn
          obtain ⟨stop, hreads, hstop, hcommit⟩ := @ih mid mid hmid
          refine ⟨stop, ?_, hstop, ?_⟩
          · simp only [drain, if_pos hmore, hn]
            exact .cons (fun commit' corrupted' => hagree data commit' corrupted' rfl) htakes hmid
              hreads
          · simp only [drain, if_pos hmore, hn, hcommit, hreads.end_eq, reduceCtorEq, if_false]
    · refine ⟨pos, ?_, hpos, ?_⟩
      · simp only [drain, if_neg hmore]
        exact .nil _
      · simp [drain, if_neg hmore]

/-! ## 3. The header -/

theorem WalReader.ofImage_of_lt (h : data.length < 8) : ofImage data = { data } := by
  simp only [ofImage, readLe, take, Bind.bind, zero_add]
  by_cases h4 : 4 ≤ data.length
  · simp only [if_pos h4, pure, if_neg (show ¬ 4 + 4 ≤ data.length by omega), ite_self]
  · simp only [if_neg h4]

theorem WalReader.ofImage_of_le (h : 8 ≤ data.length) :
    ofImage data =
      if leNat (data.take 4) = kWalMagic then
        match parseWalFormat (leNat ((data.drop 4).take 4)) with
        | some format => { data, format, pos := 8 }
        | none => { data }
      else { data } := by
  have hmagic : readLe 4 ⟨data, 0⟩ = (.ok (leNat (data.take 4)), ⟨data, 4⟩) := by
    simp only [readLe, take, Bind.bind, pure, zero_add, List.drop_zero,
      if_pos (show 4 ≤ data.length by omega)]
  have hversion : readLe 4 ⟨data, 4⟩ = (.ok (leNat ((data.drop 4).take 4)), ⟨data, 8⟩) := by
    simp only [readLe, take, Bind.bind, pure, if_pos (show 4 + 4 ≤ data.length by omega)]
  unfold ofImage
  rw [hmagic]
  dsimp only
  exact hversion ▸ rfl

/-- A header of ours: the magic, and a version the reader knows. -/
structure HasHeader (data : Bytes) (format : WalFormat) : Prop where
  long : 8 ≤ data.length
  magic : leNat (data.take 4) = kWalMagic
  version : parseWalFormat (leNat ((data.drop 4).take 4)) = some format

theorem HasHeader.ofImage (h : HasHeader data format) :
    WalReader.ofImage data = { data, format, pos := 8 } := by
  rw [ofImage_of_le h.long, if_pos h.magic, h.version]

theorem HasHeader.openAppend (h : HasHeader data format) : openAppend data = data := by
  rw [Cinder.openAppend, if_neg (not_lt.mpr h.long), if_pos ⟨h.magic, by rw [h.version]; rfl⟩]

theorem HasHeader.of_take_eq (h : HasHeader data format) {n : Nat} (hn : 8 ≤ n)
    (heq : data'.take n = data.take n) : HasHeader data' format := by
  have h8 : data'.take 8 = data.take 8 := take_eq_of_le heq hn
  have h4 : data'.take 4 = data.take 4 := take_eq_of_le h8 (by omega)
  have hv : (data'.drop 4).take 4 = (data.drop 4).take 4 := by
    have := congrArg (List.drop 4) h8
    rwa [List.drop_take, List.drop_take] at this
  exact ⟨le_length_of_take_eq h8 h.long, by rw [h4, h.magic], by rw [hv, h.version]⟩

theorem hasHeader_or_legacy (data : Bytes) :
    (∃ format, format ≠ .legacy ∧ HasHeader data format) ∨
      WalReader.ofImage data = { data } ∧ ∀ format, ¬ HasHeader data format := by
  by_cases h8 : 8 ≤ data.length
  · by_cases hm : leNat (data.take 4) = kWalMagic
    · cases hv : parseWalFormat (leNat ((data.drop 4).take 4)) with
      | some format =>
        refine .inl ⟨format, ?_, h8, hm, hv⟩
        rintro rfl
        unfold parseWalFormat at hv
        split at hv
        · cases hv
        · split at hv <;> cases hv
      | none =>
        refine .inr ⟨by rw [ofImage_of_le h8, if_pos hm, hv], fun format h => ?_⟩
        rw [h.version] at hv
        cases hv
    · exact .inr ⟨by rw [ofImage_of_le h8, if_neg hm], fun format h => hm h.magic⟩
  · exact .inr ⟨ofImage_of_lt (by omega), fun format h => h8 h.long⟩

theorem openAppend_of_not_hasHeader (h8 : 8 ≤ data.length) (h : ∀ format, ¬ HasHeader data format) :
    openAppend data = walHeader := by
  rw [openAppend, if_neg (not_lt.mpr h8), if_neg]
  rintro ⟨hm, hv⟩
  obtain ⟨format, hv⟩ := Option.isSome_iff_exists.mp hv
  exact h format ⟨h8, hm, hv⟩

/-! ## 4. Truncate, reopen, append -/

variable (xxh3)

/-- What `recover` leaves of a log file: the bytes up to the last complete record. -/
def recoveredLog (file : Bytes) : Bytes := file.take (replayImage xxh3 file).2.validSize

/-- The restart: `recover`, `WalWriter(path, Append)` on the same file, one batch. Where the pass
reports corruption `recover` fails, and no writer is opened. -/
def resumeLog (file : Bytes) (batch : List WalEntry) : Option Bytes :=
  if (replayImage xxh3 file).2.corrupted then none
  else appendBatch xxh3 (openAppend (recoveredLog xxh3 file)) batch

/-- **The log is resumed**: what the next restart reads is the old entries followed by exactly
the new ones, and no corruption. -/
def Resumes (file : Bytes) (batch : List WalEntry) : Prop :=
  ∃ file', resumeLog xxh3 file batch = some file' ∧
    (replayImage xxh3 file').1 = (replayImage xxh3 file).1 ++ batch ∧
    (replayImage xxh3 file').2.corrupted = false

theorem resumeLog_of_accepted (haccept : (replayImage xxh3 file).2.corrupted = false)
    (batch : List WalEntry) :
    resumeLog xxh3 file batch = appendBatch xxh3 (openAppend (recoveredLog xxh3 file)) batch := by
  rw [resumeLog, haccept, if_neg Bool.false_ne_true]

theorem replay_reads (file : Bytes) :
    ∃ stop, Reads xxh3 (WalReader.ofImage file).format file (WalReader.ofImage file).pos
        (replayImage xxh3 file).1 stop ∧ stop ≤ file.length ∧
      (replayImage xxh3 file).2.validSize =
        if (replayImage xxh3 file).1 = [] then 0 else stop := by
  rcases hasHeader_or_legacy file with ⟨format, -, hh⟩ | ⟨hlegacy, -⟩
  · rw [replayImage, hh.ofImage]
    exact drain_reads _ hh.long
  · rw [replayImage, hlegacy]
    exact drain_reads _ (Nat.zero_le _)

theorem resumes_of_nil (haccept : (replayImage xxh3 file).2.corrupted = false)
    (hnil : (replayImage xxh3 file).1 = []) (hbatch : ∀ e ∈ batch, e.Fits) :
    Resumes xxh3 file batch := by
  obtain ⟨stop, -, -, hsize⟩ := replay_reads xxh3 file
  rw [if_pos hnil] at hsize
  have hempty : recoveredLog xxh3 file = [] := by rw [recoveredLog, hsize, List.take_zero]
  have hopen : openAppend (recoveredLog xxh3 file) = walImage xxh3 [] := by
    rw [hempty]
    exact openAppend_truncated xxh3 []
  rw [Resumes, resumeLog_of_accepted xxh3 haccept, hnil]
  exact healed_of_openAppend xxh3 (by simp) hopen hbatch

theorem recoveredLog_of_ne_nil (hne : (replayImage xxh3 file).1 ≠ []) :
    ∃ stop, recoveredLog xxh3 file = file.take stop ∧ stop ≤ file.length ∧
      (WalReader.ofImage file).pos + 34 * (replayImage xxh3 file).1.length ≤ stop ∧
      Reads xxh3 (WalReader.ofImage file).format file (WalReader.ofImage file).pos
        (replayImage xxh3 file).1 stop := by
  obtain ⟨stop, hreads, hstop, hsize⟩ := replay_reads xxh3 file
  rw [if_neg hne] at hsize
  exact ⟨stop, by rw [recoveredLog, hsize], hstop, hreads.le, hreads⟩

section

variable (haccept : (replayImage xxh3 file).2.corrupted = false)

include haccept

theorem replay_resumed
    (hh : HasHeader file format) (hne : (replayImage xxh3 file).1 ≠ [])
    (hbatch : ∀ e ∈ batch, e.Fits) :
    ∃ kept : Bytes, HasHeader kept format ∧
      resumeLog xxh3 file batch = some (kept ++ (batch.map (encodeWalRecord xxh3)).flatten) ∧
      ∀ tail, ∃ fuel, tail.length < fuel ∧ replayImage xxh3 (kept ++ tail) =
        ((replayImage xxh3 file).1 ++ (WalReader.drain xxh3 fuel
            ⟨kept ++ tail, kept.length, kept.length, format, false⟩).1,
          (WalReader.drain xxh3 fuel
            ⟨kept ++ tail, kept.length, kept.length, format, false⟩).2) := by
  obtain ⟨stop, hkept, hstop, hle, hreads⟩ := recoveredLog_of_ne_nil xxh3 hne
  rw [hh.ofImage] at hle hreads
  have hlen : (file.take stop).length = stop := by rw [List.length_take, Nat.min_eq_left hstop]
  have hself : (file.take stop).take stop = file.take stop := by simp
  have hhk : HasHeader (file.take stop) format :=
    hh.of_take_eq (show 8 ≤ stop by dsimp only at hle; omega) hself
  refine ⟨file.take stop, hhk, ?_, fun tail => ?_⟩
  · rw [resumeLog_of_accepted xxh3 haccept, hkept, hhk.openAppend, appendBatch, if_pos hbatch]
  have hagree : (file.take stop ++ tail).take stop = file.take stop := by
    rw [List.take_append_of_le_length (by omega), hself]
  have hread := hreads.of_take_eq hagree
  have hht : HasHeader (file.take stop ++ tail) format :=
    hh.of_take_eq (show 8 ≤ stop by dsimp only at hle; omega) hagree
  refine ⟨(file.take stop ++ tail).length + 1 - (replayImage xxh3 file).1.length, ?_, ?_⟩
  · rw [List.length_append, hlen]
    omega
  · have hfuel : (file.take stop ++ tail).length + 1 = (replayImage xxh3 file).1.length +
        ((file.take stop ++ tail).length + 1 - (replayImage xxh3 file).1.length) := by
      rw [List.length_append, hlen]
      omega
    rw [replayImage, hht.ofImage, hfuel, hread.drain]
    simp only [if_neg hne, hlen, ← hfuel]

theorem resumes_v2 (hh : HasHeader file .v2)
    (hne : (replayImage xxh3 file).1 ≠ []) (hbatch : ∀ e ∈ batch, e.Fits) :
    Resumes xxh3 file batch := by
  obtain ⟨kept, -, hresume, hreplay⟩ := replay_resumed xxh3 haccept hh hne hbatch
  obtain ⟨fuel, hfuel, hreplay⟩ := hreplay (batch.map (encodeWalRecord xxh3)).flatten
  have hsize : ((batch.map (encodeWalRecord xxh3)).flatten).length = recordsSize batch := by
    simp [recordsSize, List.length_flatten, Function.comp_def]
  have hall : completeRecords batch (recordsSize batch) = batch := completeRecords_of_le le_rfl
  have hcount := length_completeRecords_le xxh3 batch (recordsSize batch)
  rw [hall, List.take_of_length_le (by omega)] at hcount
  obtain ⟨pos, hdrain⟩ := drain_take xxh3 hbatch kept (recordsSize batch) kept.length fuel
    (by rw [hall]; omega)
  rw [hall, List.take_of_length_le (by omega)] at hdrain
  exact ⟨_, hresume, by rw [hreplay, hdrain], by rw [hreplay, hdrain]⟩

theorem not_resumes_v1
    (hh : HasHeader file .v1) (hne : (replayImage xxh3 file).1 ≠ []) (hbatch : ∀ e ∈ batch, e.Fits)
    (htomb : ∃ e ∈ batch, e.isTombstone = true) : ¬ Resumes xxh3 file batch := by
  rintro ⟨file', hfile', hentries, -⟩
  obtain ⟨kept, hhk, hresume, -⟩ := replay_resumed xxh3 haccept hh hne hbatch
  rw [hresume] at hfile'
  cases hfile'
  obtain ⟨e, he, htomb⟩ := htomb
  have hht : HasHeader (kept ++ (batch.map (encodeWalRecord xxh3)).flatten) .v1 :=
    hhk.of_take_eq hhk.long (by rw [List.take_append_of_le_length le_rfl])
  obtain ⟨stop, hreads, -, -⟩ :=
    replay_reads xxh3 (kept ++ (batch.map (encodeWalRecord xxh3)).flatten)
  rw [hht.ofImage] at hreads
  have hno := hreads.no_tombstone rfl e (by
    rw [hentries]
    exact List.mem_append_right _ he)
  rw [htomb] at hno
  cases hno

theorem not_resumes_legacy
    (hlegacy : WalReader.ofImage file = { data := file })
    (hheader : ∀ format, ¬ HasHeader file format) (hne : (replayImage xxh3 file).1 ≠ []) :
    ¬ Resumes xxh3 file [] := by
  rintro ⟨file', hfile', hentries, -⟩
  obtain ⟨stop, hkept, hstop, hle, -⟩ := recoveredLog_of_ne_nil xxh3 hne
  rw [hlegacy] at hle
  have hpos : 0 < (replayImage xxh3 file).1.length := List.length_pos_of_ne_nil hne
  have hopen : openAppend (recoveredLog xxh3 file) = walHeader := by
    rw [hkept]
    refine openAppend_of_not_hasHeader (by rw [List.length_take]; omega) fun format hh => ?_
    exact hheader format (hh.of_take_eq (show 8 ≤ stop by omega) (by simp))
  have hfresh : file' = walImage xxh3 [] := by
    rw [resumeLog_of_accepted xxh3 haccept, hopen, appendBatch, if_pos (by simp)] at hfile'
    cases hfile'
    simp [walImage]
  obtain ⟨pos, hreplay⟩ := replay_image xxh3 (show ∀ e ∈ ([] : List WalEntry), e.Fits by simp)
  rw [hfresh, hreplay, List.append_nil] at hentries
  exact hne hentries.symm

end

/-- **A file the reader accepts is resumed, whatever is appended, exactly when its header says
version 2 or it holds no complete record.** -/
theorem resumes_iff {file : Bytes} (haccept : (replayImage xxh3 file).2.corrupted = false) :
    (∀ batch, (∀ e ∈ batch, WalEntry.Fits e) → Resumes xxh3 file batch) ↔
      (WalReader.ofImage file).format = .v2 ∨ (replayImage xxh3 file).1 = [] := by
  constructor
  · intro hresumes
    by_contra hcond
    rw [not_or] at hcond
    obtain ⟨hv2, hne⟩ := hcond
    rcases hasHeader_or_legacy file with ⟨format, hformat, hh⟩ | ⟨hlegacy, hheader⟩
    · rw [hh.ofImage] at hv2
      cases format with
      | legacy => exact hformat rfl
      | v1 =>
        have hfits : ∀ e ∈ [({ key := [], isTombstone := true } : WalEntry)], e.Fits := by decide
        exact not_resumes_v1 xxh3 haccept hh hne hfits (by simp) (hresumes _ hfits)
      | v2 => exact hv2 rfl
    · exact not_resumes_legacy xxh3 haccept hlegacy hheader hne (hresumes [] (by simp))
  · rintro (hv2 | hnil) batch hbatch
    · by_cases hnil : (replayImage xxh3 file).1 = []
      · exact resumes_of_nil xxh3 haccept hnil hbatch
      · rcases hasHeader_or_legacy file with ⟨format, -, hh⟩ | ⟨hlegacy, -⟩
        · rw [hh.ofImage] at hv2
          cases hv2
          exact resumes_v2 xxh3 haccept hh hnil hbatch
        · rw [hlegacy] at hv2
          cases hv2
    · exact resumes_of_nil xxh3 haccept hnil hbatch

end Resume

/-- The fields of `put k v` at version 1 as the two older formats store them. -/
def oldRecord : Bytes :=
  [1] ++ leBytes 4 1 ++ [107] ++ leBytes 4 1 ++ [118] ++ leBytes 8 1 ++ leBytes 8 0 ++
    leBytes 8 0 ++ [0]

/-- A version-2 log, resumed with a tombstone; the digest is constant. -/
theorem resumes_v2_tombstone :
    Resumes (fun _ => 0) (walImage (fun _ => 0) [{ key := [107], value := [118], version := 1 }])
      [{ key := [107], version := 2, isTombstone := true }] :=
  (resumes_iff (fun _ => 0) (by decide)).mpr (.inl (by decide)) _ (by decide)

/-- Both older formats are read without corruption and are not resumed: behind a version-1
header the appended record is misread, and a pre-magic file loses its records. -/
theorem old_formats_not_resumed :
    let v1 := leBytes 4 kWalMagic ++ leBytes 4 1 ++ oldRecord ++ leBytes 8 0
    let batch : List WalEntry := [{ key := [107], value := [119], version := 2 }]
    ((replayImage (fun _ => 0) v1).1.length = 1 ∧
      (replayImage (fun _ => 0) v1).2.corrupted = false ∧ ¬ Resumes (fun _ => 0) v1 batch) ∧
    (replayImage (fun _ => 0) oldRecord).1.length = 1 ∧
      (replayImage (fun _ => 0) oldRecord).2.corrupted = false ∧
      ¬ Resumes (fun _ => 0) oldRecord batch := by
  intro v1 batch
  have hv1 : (resumeLog (fun _ => 0) v1 batch).map
      (fun file => (replayImage (fun _ => 0) file).2.corrupted) = some true := by decide
  have hold : (resumeLog (fun _ => 0) oldRecord batch).map
      (fun file => (replayImage (fun _ => 0) file).1.length) = some 1 := by decide
  have hread : (replayImage (fun _ => 0) oldRecord).1.length = 1 := by decide
  refine ⟨⟨by decide, by decide, ?_⟩, hread, by decide, ?_⟩
  · rintro ⟨file', hfile', -, hclean⟩
    rw [hfile', Option.map_some, hclean] at hv1
    cases hv1
  · rintro ⟨file', hfile', hentries, -⟩
    rw [hfile', Option.map_some, hentries, List.length_append, hread] at hold
    cases hold

end Cinder
