import ElyraSql.Replication.Binlog
import Mathlib.Data.List.TakeWhile

/-!
# Point-in-time recovery

`replay` of `elyra-storage/src/binlog.rs`: the segments are read in order, and each record is
committed to a database, until one is beyond the stop point. A segment that ends within a record is
an error, unless less than the length of the record is there.
-/

namespace ElyraSql

open OrderedMap RecordFile Transition List Option OMap Segments Bool EntryLemmas Nat

/-! ## Replay -/

/-- `until_lsn` and `until_ts`. -/
structure StopPoint where
  untilLsn : Option Nat
  untilTs : Option Nat

def StopPoint.beyond (p : StopPoint) (r : BinlogRecord) : Bool :=
  p.untilLsn.any (fun l => decide (l < r.lsn)) || p.untilTs.any (fun t => decide (t < r.tsMs))

variable {r : BinlogRecord}

theorem StopPoint.beyond_eq_false {p : StopPoint} :
    p.beyond r = false ↔ (∀ l ∈ p.untilLsn, r.lsn ≤ l) ∧ ∀ t ∈ p.untilTs, r.tsMs ≤ t := by
  rw [StopPoint.beyond, or_eq_false_iff]
  refine and_congr ?_ ?_
  · cases p.untilLsn with
    | none => simp
    | some l => simp
  · cases p.untilTs with
    | none => simp
    | some t => simp

inductive ReplayError
  | io
  | tooLarge
  | corrupt
  deriving DecidableEq, Repr

/-- The database, and the number of records applied to it. -/
structure Replayed where
  db : Storage
  applied : Nat

/-- `futures_apply`: a plain commit. -/
def Replayed.apply (s : Replayed) (r : BinlogRecord) : Replayed :=
  ⟨(s.db.apply r.puts r.deletes).2, s.applied + 1⟩

section Model

variable (C : Codec BinlogRecord) (maxFrame : Nat) (p : StopPoint)

/-- `replay_segment`, for at most `fuel` records: whether to go on with the next segment. -/
def replaySegment : Nat → List UInt8 → Replayed → Replayed × Except ReplayError Bool
  | 0, _, s => (s, .ok true)
  | fuel + 1, file, s =>
    match readLe 4 file with
    | none => (s, .ok true)
    | some (n, rest) =>
      if maxFrame < n then (s, .error .tooLarge)
      else if rest.length < n then (s, .error .io)
      else
        match C.decode (rest.take n) with
        | none => (s, .error .corrupt)
        | some r =>
          if p.beyond r then (s, .ok false)
          else replaySegment fuel (rest.drop n) (s.apply r)

/-- The loop of `replay` over the segments. -/
def replaySegments : List (Nat × List UInt8) → Replayed → Replayed × Except ReplayError Unit
  | [], s => (s, .ok ())
  | (_, file) :: segments, s =>
    match replaySegment C maxFrame p file.length file s with
    | (s', .error e) => (s', .error e)
    | (s', .ok false) => (s', .ok ())
    | (s', .ok true) => replaySegments segments s'

/-- `replay`, with the database it leaves and the number it returns. -/
def replay (dir : Segments) (base : Storage) : Replayed × Except ReplayError Unit :=
  replaySegments C maxFrame p dir.entries ⟨base, 0⟩

end Model

/-! ## Histories -/

/-- The binlog, and the records that were ever completed, in the order of writing. -/
structure History where
  log : Binlog
  records : List BinlogRecord

def completed (C : Codec BinlogRecord) (b : Binlog) : BinlogStep → List BinlogRecord
  | .publish tsMs puts deletes =>
    match b.writer with
    | none => []
    | some w => if puts.isEmpty ∧ deletes.isEmpty then [] else [⟨w.lsn + 1, tsMs, puts, deletes⟩]
  | .crash tsMs puts deletes k =>
    match b.writer with
    | none => []
    | some w =>
      if k < (frame (C.encode ⟨w.lsn + 1, tsMs, puts, deletes⟩)).length then []
      else [⟨w.lsn + 1, tsMs, puts, deletes⟩]
  | .purge _ | .stop | .start => []

section Runs

variable (C : Codec BinlogRecord) (maxFrame segmentMax : Nat)

def History.empty : History := ⟨Binlog.empty, []⟩

def History.step (h : History) (a : BinlogStep) : Option History :=
  (h.log.step C maxFrame segmentMax a).map fun b => ⟨b, h.records ++ completed C h.log a⟩

/-- Replay up to the stop point succeeds, and leaves the state after the complete records up to it,
each once and in the order of their numbers. -/
def Recovers (h : History) (p : StopPoint) : Prop :=
  ∃ l : List BinlogRecord, l.Pairwise (fun a b => a.lsn < b.lsn) ∧
    (∀ r, r ∈ l ↔ r ∈ h.records ∧ p.beyond r = false) ∧
    ∀ base, replay C maxFrame p h.log.dir base = (l.foldl Replayed.apply ⟨base, 0⟩, .ok ())

/-- A record fits into a frame. -/
def FitsFrame (r : BinlogRecord) : Prop := C.Fits r ∧ (C.encode r).length ≤ maxFrame

/-- No segment is purged, records fit, a crash leaves less than a length or the whole record, and a
start after the first write finds a record at the end of the directory. -/
def SafeStep (h : History) : BinlogStep → Prop
  | .publish tsMs puts deletes =>
    ∀ w ∈ h.log.writer, FitsFrame C maxFrame ⟨w.lsn + 1, tsMs, puts, deletes⟩
  | .crash tsMs puts deletes k => ∀ w ∈ h.log.writer,
    FitsFrame C maxFrame ⟨w.lsn + 1, tsMs, puts, deletes⟩ ∧
      (k < 4 ∨ (frame (C.encode ⟨w.lsn + 1, tsMs, puts, deletes⟩)).length ≤ k)
  | .start => h.log.written = [] ∨ EndsInRecord C maxFrame h.log.dir
  | .stop => True
  | .purge _ => False

end Runs

/-! ## Reading segments -/

variable {rs : List BinlogRecord} {segments : List (Nat × List UInt8)}
variable {e : Nat × List UInt8}

section Read

variable {C : Codec BinlogRecord} {maxFrame : Nat} (p : StopPoint)

theorem replaySegment_frame (hr : FitsFrame C maxFrame r) (fuel : Nat) (rest : List UInt8)
    (s : Replayed) :
    replaySegment C maxFrame p (fuel + 1) (frame (C.encode r) ++ rest) s =
      if p.beyond r then (s, .ok false) else replaySegment C maxFrame p fuel rest (s.apply r) := by
  rw [replaySegment, frame, readLe_writeBytes (C.short r hr.1).lt]
  dsimp only
  rw [if_neg (not_lt.mpr hr.2), if_neg (by simp), take_left, drop_left, C.roundtrip r hr.1]

theorem replaySegment_end (fuel : Nat) {t : List UInt8} (ht : t.length < 4) (s : Replayed) :
    replaySegment C maxFrame p fuel t s = (s, .ok true) := by
  cases fuel with
  | zero => rfl
  | succ fuel =>
    rw [replaySegment, readLe, if_pos ht]

/-- The records of a segment are applied up to the first that is beyond the stop point. -/
theorem replaySegment_write (hrs : ∀ r ∈ rs, FitsFrame C maxFrame r) {t : List UInt8}
    (ht : t.length < 4) {fuel : Nat} (hf : rs.length ≤ fuel) (s : Replayed) :
    replaySegment C maxFrame p fuel (C.write rs ++ t) s =
      ((rs.takeWhile fun r => !p.beyond r).foldl Replayed.apply s,
        .ok (rs.all fun r => !p.beyond r)) := by
  induction rs generalizing fuel s with
  | nil => exact replaySegment_end p fuel ht s
  | cons r rs ih =>
    cases fuel with
    | zero => exact absurd hf (by simp)
    | succ fuel =>
      have hsplit : C.write (r :: rs) ++ t = frame (C.encode r) ++ (C.write rs ++ t) := by
        simp [Codec.write, frames]
      rw [hsplit, replaySegment_frame p (hrs r mem_cons_self)]
      cases hb : p.beyond r with
      | true => simp [hb]
      | false =>
        rw [ih (fun q hq => hrs q (mem_cons_of_mem _ hq))
          (Nat.le_of_succ_le_succ hf)]
        simp [hb]

/-- A segment of these records, and less than a length behind them. -/
def Part (C : Codec BinlogRecord) (e : Nat × List UInt8) (rs : List BinlogRecord) : Prop :=
  ∃ t, e.2 = C.write rs ++ t ∧ t.length < 4

theorem Part.length_le (h : Part C e rs) : rs.length ≤ e.2.length := by
  obtain ⟨t, hfile, -⟩ := h
  have := length_le_frames (rs.map C.encode)
  rw [length_map] at this
  rw [hfile, length_append, Codec.write]
  omega

/-- The segments are replayed like one list of records. -/
theorem replaySegments_parts {parts : List (List BinlogRecord)}
    (h : List.Forall₂ (Part C) segments parts)
    (hfits : ∀ r ∈ parts.flatten, FitsFrame C maxFrame r) (s : Replayed) :
    replaySegments C maxFrame p segments s =
      ((parts.flatten.takeWhile fun r => !p.beyond r).foldl Replayed.apply s, .ok ()) := by
  induction h generalizing s with
  | nil => rfl
  | @cons e rs segments parts hpart _ ih =>
    obtain ⟨t, hfile, ht⟩ := hpart
    have hrs : ∀ r ∈ rs, FitsFrame C maxFrame r := fun r hr =>
      hfits r (mem_append_left _ hr)
    have hlen : rs.length ≤ e.2.length := Part.length_le ⟨t, hfile, ht⟩
    have hone := replaySegment_write p hrs ht hlen s
    rw [← hfile] at hone
    rw [flatten_cons, takeWhile_append]
    simp only [replaySegments, hone]
    cases hall : rs.all fun r => !p.beyond r with
    | true =>
      have hwhole : rs.takeWhile (fun r => !p.beyond r) = rs :=
        takeWhile_eq_self_iff.mpr (all_eq_true.mp hall)
      rw [hwhole, if_pos rfl, foldl_append]
      exact ih (fun r hr => hfits r (mem_append_right _ hr)) _
    | false =>
      have hpart : (rs.takeWhile fun r => !p.beyond r).length ≠ rs.length := fun hlen =>
        Bool.false_ne_true (hall.symm.trans (all_eq_true.mpr (takeWhile_eq_self_iff.mp
          ((List.takeWhile_prefix _).eq_of_length hlen))))
      rw [if_neg hpart]

end Read

/-! ## What the segments hold -/

section Invariant

variable (C : Codec BinlogRecord) (maxFrame : Nat)

/-- Segments that hold these records one after another. -/
def Parts (segments : List (Nat × List UInt8)) (records : List BinlogRecord) : Prop :=
  ∃ parts, List.Forall₂ (Part C) segments parts ∧ parts.flatten = records

/-- The segment in use is the last one and holds whole records only. -/
def Active (dir : Segments) (seq : Nat) (records : List BinlogRecord) : Prop :=
  ∃ segments old rs, dir.entries = segments ++ [(seq, C.write rs)] ∧ Parts C segments old ∧
    old ++ rs = records

/-- The records completed are numbered in their order, and are what the segments hold. -/
structure HistoryOk (h : History) : Prop where
  sorted : h.records.Pairwise fun a b => a.lsn < b.lsn
  numbered : ∀ r ∈ h.records, r.lsn ∈ h.log.written
  fits : ∀ r ∈ h.records, FitsFrame C maxFrame r
  running : ∀ w, h.log.writer = some w → Active C h.log.dir w.seq h.records
  stopped : h.log.writer = none → Parts C h.log.dir.entries h.records

variable {C maxFrame}

theorem parts_nil : Parts C [] [] := ⟨[], .nil, rfl⟩

variable {records : List BinlogRecord}

theorem Parts.concat (h : Parts C segments records) (he : Part C e rs) :
    Parts C (segments ++ [e]) (records ++ rs) := by
  obtain ⟨parts, hparts, rfl⟩ := h
  exact ⟨parts ++ [rs], rel_append hparts (.cons he .nil), by simp⟩

variable {dir : Segments} {seq : Nat}

theorem Active.parts (h : Active C dir seq records) : Parts C dir.entries records := by
  obtain ⟨segments, old, rs, hentries, hold, rfl⟩ := h
  rw [hentries]
  exact hold.concat ⟨[], (append_nil _).symm, by decide⟩

theorem entries_lt_last (h : dir.entries = segments ++ [e]) : ∀ e' ∈ segments, e'.1 < e.1 := by
  have hinc := dir.increasing
  rw [h] at hinc
  exact fun e' he' => (pairwise_append.mp hinc).2.2 e' he' e (mem_singleton_self e)

theorem Segments.entries_append {file : List UInt8} (h : dir.entries = segments ++ [(seq, file)])
    (bytes : List UInt8) :
    (dir.append seq bytes).entries = segments ++ [(seq, file ++ bytes)] := by
  have hget : dir.get seq = some file := get_eq_some.mpr (by rw [h]; simp)
  unfold append
  rw [hget]
  show insertEntry seq (file ++ bytes) dir.entries = _
  rw [h]
  exact insertEntry_end _ (entries_lt_last h) (.inr ⟨file, rfl⟩)

theorem Segments.entries_new (h : ∀ e ∈ dir.entries, e.1 < seq) :
    (dir.insert seq ((dir.get seq).getD [])).entries = dir.entries ++ [(seq, [])] := by
  have hnone : dir.get seq = none := by
    rw [eq_none_iff_forall_ne_some]
    intro file hfile
    exact lt_irrefl _ (h _ (get_eq_some.mp hfile))
  rw [hnone]
  have hend := insertEntry_end (t := []) ([] : List UInt8) h (.inl rfl)
  rwa [append_nil] at hend

theorem active_new (hdir : Parts C dir.entries records) (h : ∀ e ∈ dir.entries, e.1 < seq) :
    Active C (dir.insert seq ((dir.get seq).getD [])) seq records :=
  ⟨dir.entries, records, [], entries_new h, hdir, append_nil _⟩

variable (h : Active C dir seq records)
include h

theorem Active.append (r : BinlogRecord) :
    Active C (dir.append seq (frame (C.encode r))) seq (records ++ [r]) := by
  obtain ⟨segments, old, rs, hentries, hold, rfl⟩ := h
  refine ⟨segments, old, rs ++ [r], ?_, hold, by simp⟩
  rw [entries_append hentries]
  simp [Codec.write, frames]

/-- Less than a length of a record that is cut off. -/
theorem Active.torn {bytes : List UInt8}
    (hbytes : bytes.length < 4) : Parts C (dir.append seq bytes).entries records := by
  obtain ⟨segments, old, rs, hentries, hold, rfl⟩ := h
  rw [entries_append hentries]
  exact hold.concat ⟨bytes, rfl, hbytes⟩

theorem Active.le_last : ∀ e ∈ dir.entries, e.1 < seq + 1 := by
  obtain ⟨segments, -, rs, hentries, -⟩ := h
  intro e he
  rw [hentries] at he
  rcases mem_append.mp he with he | he
  · exact (entries_lt_last hentries e he).trans (lt_succ_self _)
  · rw [mem_singleton.mp he]
    exact lt_succ_self _

omit h

variable {h : History}

theorem HistoryOk.records_concat (hok : HistoryOk C maxFrame h) (hr : FitsFrame C maxFrame r)
    (hlsn : ∀ l ∈ h.log.written, l < r.lsn) :
    ((h.records ++ [r]).Pairwise fun a b => a.lsn < b.lsn) ∧
      (∀ q ∈ h.records ++ [r], q.lsn ∈ r.lsn :: h.log.written) ∧
      ∀ q ∈ h.records ++ [r], FitsFrame C maxFrame q := by
  refine ⟨pairwise_append.mpr ⟨hok.sorted, pairwise_singleton _ _, ?_⟩, ?_, ?_⟩
  · intro a ha b hb
    rw [mem_singleton.mp hb]
    exact hlsn _ (hok.numbered a ha)
  · intro q hq
    rcases mem_append.mp hq with hq | hq
    · exact mem_cons_of_mem _ (hok.numbered q hq)
    · rw [mem_singleton.mp hq]
      exact mem_cons_self
  · intro q hq
    rcases mem_append.mp hq with hq | hq
    · exact hok.fits q hq
    · rw [mem_singleton.mp hq]
      exact hr

theorem SafeStep.sound {a : BinlogStep} (hs : SafeStep C maxFrame h a) :
    SoundStart C maxFrame h.log a := by
  cases a with
  | publish => exact fun w hw => (hs w hw).1
  | crash => exact fun w hw => (hs w hw).1.1
  | start => exact hs
  | stop => trivial
  | purge => trivial

theorem HistoryOk.step {segmentMax : Nat} {h' : History} (hok : HistoryOk C maxFrame h)
    (hlog : BinlogOk C h.log) {a : BinlogStep} (hs : SafeStep C maxFrame h a)
    (hstep : h.step C maxFrame segmentMax a = some h') : HistoryOk C maxFrame h' := by
  obtain ⟨b, hb, rfl⟩ := map_eq_some_iff.mp hstep
  cases a with
  | publish tsMs puts deletes =>
    obtain ⟨w, hw, rfl⟩ := map_eq_some_iff.mp hb
    simp only [completed, hw]
    split_ifs with hempty
    · rw [append_nil]
      exact hok
    · obtain ⟨hsorted, hnumbered, hfits⟩ := hok.records_concat (hs w hw) fun l hl =>
        lt_succ_of_le ((hlog.running w hw).lsn l hl)
      have happend := (hok.running w hw).append ⟨w.lsn + 1, tsMs, puts, deletes⟩
      refine ⟨hsorted, hnumbered, hfits, fun w' hw' => ?_, by rintro ⟨⟩⟩
      obtain rfl := some.inj hw'
      dsimp only [BinlogWriter.append]
      split_ifs
      · exact active_new happend.parts happend.le_last
      · exact happend
  | crash tsMs puts deletes k =>
    obtain ⟨w, hw, rfl⟩ := map_eq_some_iff.mp hb
    obtain ⟨hr, hk⟩ := hs w hw
    simp only [completed, hw]
    split_ifs with hcut
    · rw [append_nil]
      have hfour : k < 4 := hk.resolve_right (not_le.mpr hcut)
      have htake : ((frame (C.encode ⟨w.lsn + 1, tsMs, puts, deletes⟩)).take k).length < 4 :=
        (length_take_le _ _).trans_lt hfour
      exact ⟨hok.sorted, hok.numbered, hok.fits, by rintro _ ⟨⟩, fun _ =>
        (hok.running w hw).torn htake⟩
    · obtain ⟨hsorted, hnumbered, hfits⟩ := hok.records_concat hr fun l hl =>
        lt_succ_of_le ((hlog.running w hw).lsn l hl)
      exact ⟨hsorted, hnumbered, hfits, by rintro _ ⟨⟩, fun _ =>
        ((hok.running w hw).append _).parts⟩
  | purge => cases hs
  | stop =>
    obtain ⟨w, hw, rfl⟩ := map_eq_some_iff.mp hb
    simp only [completed, append_nil]
    exact ⟨hok.sorted, hok.numbered, hok.fits, by rintro _ ⟨⟩, fun _ => (hok.running w hw).parts⟩
  | start =>
    simp only [Binlog.step] at hb
    split at hb
    case h_1 => cases hb
    case h_2 hw =>
      cases hb
      simp only [completed, append_nil]
      refine ⟨hok.sorted, hok.numbered, hok.fits, fun w' hw' => ?_, by rintro ⟨⟩⟩
      obtain rfl := some.inj hw'
      refine active_new (hok.stopped hw) fun e he => lt_succ_of_le ?_
      cases hl : h.log.dir.last? with
      | none =>
        have hnone := last?_eq_none.mp hl e.1
        rw [mem_entries_iff.mp he] at hnone
        cases hnone
      | some e' => exact le_last? hl (mem_entries_iff.mp he)

open History

theorem historyOk_empty : HistoryOk C maxFrame empty :=
  ⟨.nil, nofun, nofun, nofun, fun _ => parts_nil⟩

theorem historyOk_of_reach {segmentMax : Nat}
    (hreach : Reach (step C maxFrame segmentMax) (SafeStep C maxFrame) empty h) :
    BinlogOk C h.log ∧ HistoryOk C maxFrame h := by
  refine Reach.invariant (I := fun h => BinlogOk C h.log ∧ HistoryOk C maxFrame h)
    ⟨binlogOk_empty, historyOk_empty⟩ ?_ hreach
  rintro h h' a ⟨hlog, hok⟩ hs hstep
  obtain ⟨b, hb, rfl⟩ := map_eq_some_iff.mp hstep
  exact ⟨hlog.step hs.sound hb, hok.step hlog hs hstep⟩

/-- In every run whose crashes leave less than a length or the whole of a record, and whose starts
after the first write find a record at the end of the directory, replay is exact in every state
reached, for every stop point, if it is a number, or if the clock did not go back. -/
theorem replay_exact {segmentMax : Nat} {h : History}
    (hreach : Reach (History.step C maxFrame segmentMax) (SafeStep C maxFrame) History.empty h)
    {p : StopPoint}
    (hclock : p.untilTs = none ∨ h.records.Pairwise fun a b => a.tsMs ≤ b.tsMs) :
    Recovers C maxFrame h p := by
  obtain ⟨hlog, hok⟩ := historyOk_of_reach hreach
  have hparts : Parts C h.log.dir.entries h.records := by
    cases hw : h.log.writer with
    | none => exact hok.stopped hw
    | some w => exact (hok.running w hw).parts
  -- numbers and times increase, so no record behind one that is beyond the stop point is up to it
  have hup : h.records.Pairwise fun a b => (!p.beyond b) = true → (!p.beyond a) = true := by
    have hts : h.records.Pairwise fun a b => p.untilTs = none ∨ a.tsMs ≤ b.tsMs := by
      rcases hclock with hnone | hclock
      · exact pairwise_of_forall fun _ _ => .inl hnone
      · exact hclock.imp .inr
    refine (hok.sorted.and hts).imp ?_
    rintro a b ⟨hlsn, hts⟩ hb
    rw [Bool.not_eq_true', StopPoint.beyond_eq_false] at hb ⊢
    refine ⟨fun l hl => hlsn.le.trans (hb.1 l hl), fun t ht => ?_⟩
    rcases hts with hnone | hts
    · rw [hnone] at ht
      cases ht
    · exact hts.trans (hb.2 t ht)
  refine ⟨h.records.filter fun r => !p.beyond r, hok.sorted.filter _, fun r => ?_, fun base => ?_⟩
  · rw [mem_filter, Bool.not_eq_true']
  · obtain ⟨parts, hforall, hflat⟩ := hparts
    rw [replay, replaySegments_parts p hforall (by rw [hflat]; exact hok.fits), hflat,
      EntryLemmas.takeWhile_eq_filter hup]

end Invariant

/-! ## A torn record -/

/-- A record, one of which all bytes but the last have reached the file, and one after the restart.
-/
def tornRun : List BinlogStep :=
  [.start, .publish 0 [([1], [5])] [], .crash 0 [([2], [6])] [] 53, .start,
    .publish 0 [([3], [7])] []]

/-- The history of a run with the default sizes of a frame and of a segment. -/
def historyOf (steps : List BinlogStep) : Option History :=
  run (History.step recordCodec (1024 * 2 ^ 20) (128 * 2 ^ 20)) History.empty steps

/-- Replay of everything fails at the torn record, so that the record after the restart is not
there. It is numbered 1 like the one before. -/
theorem torn_record_ends_replay :
    ∃ h : History, historyOf tornRun = some h ∧
      h.records = [⟨1, 0, [([1], [5])], []⟩, ⟨1, 0, [([3], [7])], []⟩] ∧
      (replay recordCodec (1024 * 2 ^ 20) ⟨none, none⟩ h.log.dir ⟨OMap.empty, 0⟩).2 = .error .io ∧
      (replay recordCodec (1024 * 2 ^ 20) ⟨none, none⟩ h.log.dir
        ⟨OMap.empty, 0⟩).1.db.kv.get [3] = none ∧
      ¬ Recovers recordCodec (1024 * 2 ^ 20) h ⟨none, none⟩ := by
  have hrun : (historyOf tornRun).map (fun h => decide
      (h.records = [⟨1, 0, [([1], [5])], []⟩, ⟨1, 0, [([3], [7])], []⟩] ∧
      (replay recordCodec (1024 * 2 ^ 20) ⟨none, none⟩ h.log.dir ⟨OMap.empty, 0⟩).2 = .error .io ∧
      (replay recordCodec (1024 * 2 ^ 20) ⟨none, none⟩ h.log.dir ⟨OMap.empty, 0⟩).1.db.kv.get
        [3] = none)) =
        some true := by
    decide +kernel
  obtain ⟨h, hh, hdec⟩ := map_eq_some_iff.mp hrun
  obtain ⟨hrecords, herror, hget⟩ := of_decide_eq_true hdec
  refine ⟨h, hh, hrecords, herror, hget, ?_⟩
  rintro ⟨l, -, -, hreplay⟩
  rw [hreplay] at herror
  cases herror

instance (maxFrame : Nat) : DecidablePred (FitsFrame recordCodec maxFrame) := fun r =>
  inferInstanceAs (Decidable (BinlogRecord.Fits r ∧ _))

instance (maxFrame : Nat) (h : History) : (a : BinlogStep) →
    Decidable (SafeStep recordCodec maxFrame h a)
  | .publish tsMs puts deletes => inferInstanceAs
    (Decidable (∀ w ∈ h.log.writer, FitsFrame recordCodec maxFrame
      ⟨w.lsn + 1, tsMs, puts, deletes⟩))
  | .crash tsMs puts deletes _ => inferInstanceAs
    (Decidable (∀ w ∈ h.log.writer, FitsFrame recordCodec maxFrame
      ⟨w.lsn + 1, tsMs, puts, deletes⟩ ∧ _))
  | .start => inferInstanceAs (Decidable (h.log.written = [] ∨ Option.isSome _ = true))
  | .stop => inferInstanceAs (Decidable True)
  | .purge _ => inferInstanceAs (Decidable False)

/-- Two bytes of a torn record do no harm: replay up to the time of the first record. -/
theorem replay_exact_twoBytes :
    ∃ h : History, Reach (History.step recordCodec (1024 * 2 ^ 20) (128 * 2 ^ 20))
        (SafeStep recordCodec (1024 * 2 ^ 20)) History.empty h ∧
      h.records = [⟨1, 3, [([1], [5])], []⟩, ⟨2, 4, [([1], [6])], []⟩] ∧
      Recovers recordCodec (1024 * 2 ^ 20) h ⟨none, some 3⟩ := by
  refine Reach.exists_of_run
    (P := fun h => h.records = [⟨1, 3, [([1], [5])], []⟩, ⟨2, 4, [([1], [6])], []⟩])
    [.start, .publish 3 [([1], [5])] [], .crash 4 [([2], [6])] [] 2, .start,
      .publish 4 [([1], [6])] []] (by decide +kernel) fun h hreach hrecords => ?_
  refine ⟨hrecords, replay_exact hreach (.inr ?_)⟩
  rw [hrecords]
  decide

end ElyraSql
