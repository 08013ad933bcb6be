import ElyraSql.Library.Transition
import ElyraSql.Storage.Store

/-!
# The binlog and its sequence numbers

`elyra-storage/src/binlog.rs` and the LSN counter of `db.rs`: committed write sets are appended to
numbered segment files, with a sequence number each. A start begins a new segment after taking the
last sequence number from the segment that was last so far, and from that one only.
-/

namespace ElyraSql

open OrderedMap RecordFile Transition Option OMap

/-! ## Records -/

structure BinlogRecord where
  lsn : Nat
  tsMs : Nat
  puts : List (Bytes × Bytes)
  deletes : List Bytes
  deriving DecidableEq, Repr

/-! ## Segments -/

/-- The segment files of the binlog directory, by their numbers. -/
abbrev Segments := OMap Nat (List UInt8)

/-- The writer of a running process, and the LSN counter. -/
structure BinlogWriter where
  seq : Nat
  size : Nat
  lsn : Nat
  deriving DecidableEq, Repr

section Model

variable (C : Codec BinlogRecord) (maxFrame segmentMax : Nat)

/-- `read_segment_records`, for at most `fuel` records: less than a length is the end of the file, a
record that is too long, cut off or not readable is an error. -/
def readRecords : Nat → List UInt8 → Option (List BinlogRecord)
  | 0, _ => some []
  | fuel + 1, file =>
    match readLe 4 file with
    | none => some []
    | some (n, rest) =>
      if maxFrame < n ∨ rest.length < n then none
      else do
        let record ← C.decode (rest.take n)
        let records ← readRecords fuel (rest.drop n)
        some (record :: records)

def readSegmentRecords (file : List UInt8) : Option (List BinlogRecord) :=
  readRecords C maxFrame file.length file

def maxLsn (dir : Segments) : Option Nat :=
  match dir.last? with
  | none => some 0
  | some (_, file) => (readSegmentRecords C maxFrame file).map fun records =>
    (records.getLast?.map (·.lsn)).getD 0

/-- `from_storage` on the directory: an error counts as 0, and a new segment is opened. -/
def BinlogWriter.start (dir : Segments) : Segments × BinlogWriter :=
  let seq := (dir.last?.map (·.1)).getD 0 + 1
  (dir.insert seq ((dir.get seq).getD []), ⟨seq, 0, (maxLsn C maxFrame dir).getD 0⟩)

/-- Bytes written to the segment in use. If that file has been purged they go nowhere. -/
def Segments.append (dir : Segments) (seq : Nat) (bytes : List UInt8) : Segments :=
  match dir.get seq with
  | none => dir
  | some file => dir.insert seq (file ++ bytes)

/-- `BinlogWriter::append` of a record, with the rotation at its end. -/
def BinlogWriter.append (dir : Segments) (w : BinlogWriter) (record : BinlogRecord) :
    Segments × BinlogWriter :=
  let bytes := frame (C.encode record)
  let dir := dir.append w.seq bytes
  if segmentMax ≤ w.size + bytes.length then
    (dir.insert (w.seq + 1) ((dir.get (w.seq + 1)).getD []), ⟨w.seq + 1, 0, record.lsn⟩)
  else (dir, ⟨w.seq, w.size + bytes.length, record.lsn⟩)

def Segments.purge (dir : Segments) (boundary : Nat) : Segments :=
  dir.restrict fun seq => !decide (seq < boundary)

end Model

/-! ## Runs -/

/-- The directory, the process if one runs, and the LSNs of the records ever written completely. -/
structure Binlog where
  dir : Segments
  writer : Option BinlogWriter
  written : List Nat

inductive BinlogStep
  /-- `publish`: the next LSN for a write set. -/
  | publish (tsMs : Nat) (puts : List (Bytes × Bytes)) (deletes : List Bytes)
  | purge (boundary : Nat)
  | stop
  /-- A crash in `publish`, when `k` bytes of the record have reached the file. -/
  | crash (tsMs : Nat) (puts : List (Bytes × Bytes)) (deletes : List Bytes) (k : Nat)
  | start

namespace Binlog

def empty : Binlog := ⟨OMap.empty, none, []⟩

variable (C : Codec BinlogRecord) (maxFrame segmentMax : Nat)

def step (b : Binlog) : BinlogStep → Option Binlog
  | .publish tsMs puts deletes => b.writer.map fun w =>
    if puts.isEmpty ∧ deletes.isEmpty then b
    else
      let r := w.append C segmentMax b.dir ⟨w.lsn + 1, tsMs, puts, deletes⟩
      ⟨r.1, some r.2, (w.lsn + 1) :: b.written⟩
  | .purge boundary => b.writer.map fun w => ⟨b.dir.purge boundary, some w, b.written⟩
  | .stop => b.writer.map fun _ => { b with writer := none }
  | .crash tsMs puts deletes k => b.writer.map fun w =>
    let bytes := frame (C.encode ⟨w.lsn + 1, tsMs, puts, deletes⟩)
    if k < bytes.length then ⟨b.dir.append w.seq (bytes.take k), none, b.written⟩
    else ⟨b.dir.append w.seq bytes, none, (w.lsn + 1) :: b.written⟩
  | .start =>
    match b.writer with
    | some _ => none
    | none =>
      let r := BinlogWriter.start C maxFrame b.dir
      some ⟨r.1, some r.2, b.written⟩

end Binlog

/-! ## Reading a segment -/

section Read

variable {C : Codec BinlogRecord} {maxFrame : Nat} {records rs : List BinlogRecord}

/-- If a segment can be read, what is read is what was written, without a record that is cut off. -/
theorem readRecords_write {t : List UInt8} {fuel : Nat} (hfits : ∀ r ∈ records, C.Fits r)
    (ht : next t = none) (hf : records.length ≤ fuel)
    (h : readRecords C maxFrame fuel (C.write records ++ t) = some rs) : rs = records := by
  induction records generalizing fuel rs with
  | nil =>
    cases fuel with
    | zero => exact (some.inj h).symm
    | succ fuel =>
      rw [show C.write [] ++ t = t from rfl, readRecords] at h
      rw [next, readBytes] at ht
      cases hread : readLe 4 t with
      | none =>
        rw [hread] at h
        exact (some.inj h).symm
      | some p =>
        rw [hread, bind_some] at ht
        rw [hread] at h
        dsimp only at ht h
        split_ifs at ht with hlen
        rw [if_pos (.inr hlen)] at h
        cases h
  | cons r records ih =>
    cases fuel with
    | zero => exact absurd hf (by simp)
    | succ fuel =>
      have hsplit : C.write (r :: records) ++ t =
          writeBytes 4 (C.encode r) ++ (C.write records ++ t) := by
        simp [Codec.write, frames, frame]
      have hr := hfits r List.mem_cons_self
      rw [hsplit, readRecords, readLe_writeBytes (C.short r hr).lt] at h
      dsimp only at h
      split_ifs at h
      rw [List.take_left, List.drop_left, C.roundtrip r hr] at h
      obtain ⟨r', hr', h⟩ := bind_eq_some_iff.mp h
      cases hr'
      obtain ⟨rs', hrs', heq⟩ := bind_eq_some_iff.mp h
      have := ih (fun q hq => hfits q (List.mem_cons_of_mem _ hq)) (Nat.le_of_succ_le_succ hf) hrs'
      rw [← this]
      exact (some.inj heq).symm

theorem readSegmentRecords_write {t : List UInt8} (hfits : ∀ r ∈ records, C.Fits r)
    (ht : next t = none) (h : readSegmentRecords C maxFrame (C.write records ++ t) = some rs) :
    rs = records := by
  refine readRecords_write hfits ht ?_ h
  have := length_le_frames (records.map C.encode)
  rw [List.length_append, Codec.write]
  rw [List.length_map] at this
  omega

end Read

/-! ## What the last segment holds -/

variable {e : Nat × List UInt8}

section Invariant

variable (C : Codec BinlogRecord)

/-- Records that fit, and no number exceeds that of the last one. -/
def RecordsOk (written : List Nat) (records : List BinlogRecord) : Prop :=
  (∀ r ∈ records, C.Fits r) ∧ ∀ r, records.getLast? = some r → ∀ l ∈ written, l ≤ r.lsn

/-- A segment of such records and at most one that is cut off. -/
def SegmentOk (written : List Nat) (file : List UInt8) : Prop :=
  ∃ records t, file = C.write records ++ t ∧ next t = none ∧ RecordsOk C written records

/-- In a running process, the counter is at the greatest number, and the segment in use is the last
one, whole, or has been purged with all others. -/
structure WriterOk (dir : Segments) (written : List Nat) (w : BinlogWriter) : Prop where
  lsn : ∀ l ∈ written, l ≤ w.lsn
  last : ∀ seq file, dir.get seq = some file → seq ≤ w.seq
  active : ∀ file, dir.get w.seq = some file →
    ∃ records, file = C.write records ∧ RecordsOk C written records
  purged : dir.get w.seq = none → ∀ seq, dir.get seq = none

/-- A running process is in order; without one, the last segment is. -/
structure BinlogOk (b : Binlog) : Prop where
  running : ∀ w, b.writer = some w → WriterOk C b.dir b.written w
  stopped : b.writer = none → ∀ e, b.dir.last? = some e → SegmentOk C b.written e.2

variable {C} {dir : Segments} {written : List Nat} {w : BinlogWriter}

theorem recordsOk_nil : RecordsOk C written [] := ⟨nofun, nofun⟩

open Segments

theorem Segments.get_append (dir : Segments) (seq : Nat) (bytes : List UInt8) (s : Nat) :
    (dir.append seq bytes).get s =
      if s = seq then (dir.get seq).map (· ++ bytes) else dir.get s := by
  unfold append
  cases hf : dir.get seq with
  | none => by_cases hs : s = seq <;> simp [hs, hf]
  | some file => simp

variable (h : WriterOk C dir written w)
include h

/-- The last segment is the one in use, if it is there. -/
theorem WriterOk.last_eq (he : dir.last? = some e) : dir.get w.seq = some e.2 := by
  have hget := get_of_last? he
  cases hfile : dir.get w.seq with
  | none =>
    rw [h.purged hfile] at hget
    exact nomatch hget
  | some file =>
    have := last?_eq_some hfile h.last
    rw [he] at this
    cases this
    rfl

theorem WriterOk.segmentOk (he : dir.last? = some e) : SegmentOk C written e.2 := by
  obtain ⟨records, hfile, hok⟩ := h.active _ (h.last_eq he)
  exact ⟨records, [], by rw [hfile, List.append_nil], next_nil, hok⟩

theorem WriterOk.append {r : BinlogRecord} (hr : C.Fits r) (hl : r.lsn = w.lsn + 1) (size : Nat) :
    WriterOk C (dir.append w.seq (frame (C.encode r))) (r.lsn :: written) ⟨w.seq, size, r.lsn⟩ where
  lsn l hmem := by
    rcases List.mem_cons.mp hmem with rfl | hmem
    · exact le_rfl
    · exact hl ▸ (h.lsn l hmem).trans (Nat.le_succ _)
  last seq file hget := by
    rw [get_append] at hget
    split_ifs at hget with hs
    · exact hs.le
    · exact h.last seq file hget
  active file hget := by
    rw [get_append, if_pos rfl] at hget
    obtain ⟨old, hold, rfl⟩ := map_eq_some_iff.mp hget
    obtain ⟨records, rfl, hfits, -⟩ := h.active old hold
    refine ⟨records ++ [r], by simp [Codec.write, frames], fun q hq => ?_, fun q hq l hmem => ?_⟩
    · rcases List.mem_append.mp hq with hq | hq
      · exact hfits q hq
      · rw [List.mem_singleton.mp hq]
        exact hr
    · rw [List.getLast?_concat] at hq
      rw [← some.inj hq]
      rcases List.mem_cons.mp hmem with rfl | hmem
      · exact le_rfl
      · have := h.lsn l hmem
        omega
  purged hnone seq := by
    rw [get_append, if_pos rfl, map_eq_none_iff] at hnone
    rw [get_append, hnone]
    split_ifs
    · rfl
    · exact h.purged hnone seq

omit h in
theorem writerOk_newSegment {lsn seq : Nat} (hlsn : ∀ l ∈ written, l ≤ lsn)
    (hlast : ∀ s file, dir.get s = some file → s ≤ seq) :
    WriterOk C (dir.insert (seq + 1) ((dir.get (seq + 1)).getD [])) written ⟨seq + 1, 0, lsn⟩ where
  lsn := hlsn
  last s file hget := by
    rw [get_insert] at hget
    split_ifs at hget with hs
    · exact hs.le
    · exact (hlast s file hget).trans (Nat.le_succ _)
  active file hget := by
    have hnew : dir.get (seq + 1) = none := by
      by_contra hsome
      obtain ⟨file, hfile⟩ := ne_none_iff_exists'.mp hsome
      have := hlast _ _ hfile
      omega
    rw [get_insert, if_pos rfl, hnew] at hget
    cases hget
    exact ⟨[], rfl, recordsOk_nil⟩
  purged hnone := by
    rw [get_insert, if_pos rfl] at hnone
    exact nomatch hnone

theorem WriterOk.purge (boundary : Nat) : WriterOk C (dir.purge boundary) written w where
  lsn := h.lsn
  last seq file hget := by
    rw [Segments.purge, get_restrict] at hget
    split_ifs at hget
    exact h.last seq file hget
  active file hget := by
    rw [Segments.purge, get_restrict] at hget
    split_ifs at hget
    exact h.active file hget
  purged hnone seq := by
    rw [Segments.purge, get_restrict] at hnone ⊢
    split_ifs with hseq
    · cases hfile : dir.get seq with
      | none => rfl
      | some file =>
        -- a segment that is kept is not after the one in use, which is then kept too
        have hle := h.last seq file hfile
        have hkeep : ¬ w.seq < boundary := by
          simp only [Bool.not_eq_true', decide_eq_false_iff_not] at hseq
          omega
        rw [if_pos (by simpa using hkeep)] at hnone
        rw [h.purged hnone] at hfile
        exact nomatch hfile
    · rfl

end Invariant

section Runs

variable (C : Codec BinlogRecord) (maxFrame : Nat)

/-- The last segment can be read and has a record. -/
def EndsInRecord (dir : Segments) : Prop :=
  ((dir.last?.bind fun e => readSegmentRecords C maxFrame e.2).bind List.getLast?).isSome

/-- Records fit, and a start after the first write finds a record at the end of the directory. -/
def SoundStart (b : Binlog) : BinlogStep → Prop
  | .publish tsMs puts deletes | .crash tsMs puts deletes _ =>
    ∀ w ∈ b.writer, C.Fits ⟨w.lsn + 1, tsMs, puts, deletes⟩
  | .start => b.written = [] ∨ EndsInRecord C maxFrame b.dir
  | .purge _ | .stop => True

variable {C maxFrame} {segmentMax : Nat} {b b' : Binlog} {dir : Segments} {written : List Nat}

/-- The number taken from the end of the directory is the greatest. -/
theorem maxLsn_of_endsInRecord (hend : EndsInRecord C maxFrame dir)
    (hok : ∀ e, dir.last? = some e → SegmentOk C written e.2) :
    ∀ l ∈ written, l ≤ (maxLsn C maxFrame dir).getD 0 := by
  obtain ⟨r, hr⟩ := isSome_iff_exists.mp hend
  obtain ⟨rs, hrs, hlast⟩ := bind_eq_some_iff.mp hr
  obtain ⟨e, he, hread⟩ := bind_eq_some_iff.mp hrs
  obtain ⟨records, t, hfile, ht, hfits, hmax⟩ := hok e he
  rw [hfile] at hread
  obtain rfl := readSegmentRecords_write hfits ht hread
  have hlsn : maxLsn C maxFrame dir = some r.lsn := by
    simp only [maxLsn, he]
    rw [hfile, hread]
    simp [hlast]
  rw [hlsn]
  exact hmax r hlast

theorem WriterOk.start (hlsn : ∀ l ∈ written, l ≤ (maxLsn C maxFrame dir).getD 0) :
    WriterOk C (BinlogWriter.start C maxFrame dir).1 written
      (BinlogWriter.start C maxFrame dir).2 := by
  refine writerOk_newSegment hlsn fun s file hget => ?_
  cases hl : dir.last? with
  | none =>
    rw [last?_eq_none.mp hl] at hget
    exact nomatch hget
  | some e => exact le_last? hl hget

theorem BinlogOk.of_running {w : BinlogWriter} (h : WriterOk C dir written w) :
    BinlogOk C ⟨dir, some w, written⟩ where
  running w' hw := by
    cases hw
    exact h
  stopped hw := nomatch hw

theorem BinlogOk.of_stopped (h : ∀ e, dir.last? = some e → SegmentOk C written e.2) :
    BinlogOk C ⟨dir, none, written⟩ where
  running _ hw := nomatch hw
  stopped _ := h

/-- A record that is cut off stays at the end of the segment in use. -/
theorem WriterOk.torn {w : BinlogWriter} (h : WriterOk C dir written w) {p : List UInt8}
    (hp : Short p) {k : Nat} (hk : k < (frame p).length)
    (he : (dir.append w.seq ((frame p).take k)).last? = some e) : SegmentOk C written e.2 := by
  have hget := get_of_last? he
  rw [Segments.get_append] at hget
  cases hfile : dir.get w.seq with
  | none =>
    rw [hfile, h.purged hfile] at hget
    split_ifs at hget
    exact nomatch hget
  | some file =>
    have hlast := last?_eq_some (m := dir.append w.seq ((frame p).take k)) (k := w.seq)
      (v := file ++ (frame p).take k) (by rw [Segments.get_append, if_pos rfl, hfile]; rfl)
      fun s f hs => by
        rw [Segments.get_append] at hs
        split_ifs at hs with heq
        · exact heq.le
        · exact h.last s f hs
    rw [he] at hlast
    cases hlast
    obtain ⟨records, rfl, hok⟩ := h.active file hfile
    exact ⟨records, _, rfl, next_take_frame hp hk, hok⟩

theorem BinlogOk.step (h : BinlogOk C b) {a : BinlogStep} (hs : SoundStart C maxFrame b a)
    (hb : b.step C maxFrame segmentMax a = some b') : BinlogOk C b' := by
  cases a with
  | publish tsMs puts deletes =>
    obtain ⟨w, hw, rfl⟩ := map_eq_some_iff.mp hb
    split_ifs
    · exact h
    · have happ := (h.running w hw).append (hs w hw) rfl
      unfold BinlogWriter.append
      dsimp only
      split_ifs
      · exact .of_running (writerOk_newSegment (happ 0).lsn (happ 0).last)
      · exact .of_running (happ _)
  | purge boundary =>
    obtain ⟨w, hw, rfl⟩ := map_eq_some_iff.mp hb
    exact .of_running ((h.running w hw).purge boundary)
  | stop =>
    obtain ⟨w, hw, rfl⟩ := map_eq_some_iff.mp hb
    exact .of_stopped fun e he => (h.running w hw).segmentOk he
  | crash tsMs puts deletes k =>
    obtain ⟨w, hw, rfl⟩ := map_eq_some_iff.mp hb
    dsimp only
    split_ifs with hk
    · exact .of_stopped fun e he => (h.running w hw).torn (C.short _ (hs w hw)) hk he
    · exact .of_stopped fun e he =>
        WriterOk.segmentOk ((h.running w hw).append (hs w hw) rfl 0) he
  | start =>
    simp only [Binlog.step] at hb
    split at hb
    case h_1 => exact nomatch hb
    case h_2 hw =>
      cases hb
      refine .of_running (.start ?_)
      rcases hs with hnone | hend
      · rw [hnone]
        exact nofun
      · exact maxLsn_of_endsInRecord hend (h.stopped hw)

theorem binlogOk_empty : BinlogOk C Binlog.empty := .of_stopped nofun

/-- In every run whose starts after the first write find a record at the end of the directory, a
write set that is published gets a number greater than that of every record written before. -/
theorem lsn_increases
    (h : Reach (Binlog.step C maxFrame segmentMax) (SoundStart C maxFrame) Binlog.empty b)
    {tsMs : Nat} {puts : List (Bytes × Bytes)} {deletes : List Bytes}
    (hne : ¬ (puts.isEmpty ∧ deletes.isEmpty))
    (hb : b.step C maxFrame segmentMax (.publish tsMs puts deletes) = some b') :
    ∃ lsn, b'.written = lsn :: b.written ∧ ∀ l ∈ b.written, l < lsn := by
  have hok := Reach.invariant (I := BinlogOk C) binlogOk_empty (fun h hs hb => h.step hs hb) h
  obtain ⟨w, hw, rfl⟩ := map_eq_some_iff.mp hb
  rw [if_neg hne]
  exact ⟨w.lsn + 1, rfl, fun l hl => Nat.lt_succ_of_le ((hok.running w hw).lsn l hl)⟩

end Runs

/-! ## The records as written -/

def writeKey (key : Bytes) : List UInt8 := writeBytes 8 (key.map UInt8.ofFin)

def readKey (bs : List UInt8) : Option (Bytes × List UInt8) :=
  (readBytes 8 bs).map fun (key, rest) => (key.map UInt8.toFin, rest)

def writePair (pair : Bytes × Bytes) : List UInt8 := writeKey pair.1 ++ writeKey pair.2

def readPair (bs : List UInt8) : Option ((Bytes × Bytes) × List UInt8) := do
  let (key, bs) ← readKey bs
  let (value, bs) ← readKey bs
  some ((key, value), bs)

theorem reads_key : Reads readKey writeKey fun key => key.length < 256 ^ 8 := by
  intro key t hlen
  rw [readKey, writeKey, readBytes_writeBytes (by rwa [List.length_map])]
  simp [Function.comp_def]

theorem reads_pair :
    Reads readPair writePair fun p => p.1.length < 256 ^ 8 ∧ p.2.length < 256 ^ 8 := by
  rintro ⟨key, value⟩ t ⟨hkey, hvalue⟩
  rw [readPair, writePair, List.append_assoc, reads_key key _ hkey]
  simp [reads_key value t hvalue]

/-- The bincode layout of a record: two numbers of eight bytes and two lists. -/
def BinlogRecord.encode (r : BinlogRecord) : List UInt8 :=
  RecordFile.leBytes 8 r.lsn ++ (RecordFile.leBytes 8 r.tsMs ++
    (writeList writePair r.puts ++ writeList writeKey r.deletes))

def BinlogRecord.decode (bs : List UInt8) : Option BinlogRecord := do
  let (lsn, bs) ← readLe 8 bs
  let (tsMs, bs) ← readLe 8 bs
  let (puts, bs) ← readList readPair bs
  let (deletes, _) ← readList readKey bs
  some ⟨lsn, tsMs, puts, deletes⟩

/-- Numbers and lengths are of eight bytes, the length of the record of four. -/
def BinlogRecord.Fits (r : BinlogRecord) : Prop :=
  r.lsn < 256 ^ 8 ∧ r.tsMs < 256 ^ 8 ∧
  (r.puts.length < 256 ^ 8 ∧ ∀ p ∈ r.puts, p.1.length < 256 ^ 8 ∧ p.2.length < 256 ^ 8) ∧
  (r.deletes.length < 256 ^ 8 ∧ ∀ k ∈ r.deletes, k.length < 256 ^ 8) ∧ r.encode.length < 2 ^ 32

instance : DecidablePred BinlogRecord.Fits := fun _ => instDecidableAnd

theorem BinlogRecord.decode_encode (r : BinlogRecord) (h : r.Fits) :
    decode r.encode = some r := by
  obtain ⟨hlsn, hts, hputs, hdeletes, -⟩ := h
  have hlast := reads_key.list r.deletes [] hdeletes
  rw [List.append_nil] at hlast
  rw [decode, encode, readLe_leBytes hlsn]
  simp [readLe_leBytes hts, reads_pair.list r.puts _ hputs, hlast]

def recordCodec : Codec BinlogRecord where
  encode := BinlogRecord.encode
  decode := BinlogRecord.decode
  Fits := BinlogRecord.Fits
  roundtrip := BinlogRecord.decode_encode
  short _ h := h.2.2.2.2

instance (maxFrame : Nat) (b : Binlog) : (a : BinlogStep) →
    Decidable (SoundStart recordCodec maxFrame b a)
  | .publish tsMs puts deletes | .crash tsMs puts deletes _ => inferInstanceAs
    (Decidable (∀ w ∈ b.writer, BinlogRecord.Fits ⟨w.lsn + 1, tsMs, puts, deletes⟩))
  | .start => inferInstanceAs (Decidable (b.written = [] ∨ Option.isSome _ = true))
  | .purge _ | .stop => inferInstanceAs (Decidable True)

/-- One write, and two restarts after it. -/
def restartTwice : List BinlogStep :=
  [.start, .publish 0 [([1], [5])] [], .stop, .start, .stop, .start]

/-- With the default sizes of a frame and of a segment, the next write has the number 1 again. -/
theorem lsn_repeats :
    ∃ b b' : Binlog,
      Reach (Binlog.step recordCodec (1024 * 2 ^ 20) (128 * 2 ^ 20)) (fun _ _ => True)
        Binlog.empty b ∧
      b.written = [1] ∧
      b.step recordCodec (1024 * 2 ^ 20) (128 * 2 ^ 20) (.publish 0 [([2], [6])] []) = some b' ∧
      b'.written = [1, 1] := by
  have hrun : ((run (guarded (Binlog.step recordCodec (1024 * 2 ^ 20) (128 * 2 ^ 20))
      fun _ _ => True) Binlog.empty restartTwice).bind fun b =>
        (b.step recordCodec (1024 * 2 ^ 20) (128 * 2 ^ 20) (.publish 0 [([2], [6])] [])).map
          fun b' => decide (b.written = [1] ∧ b'.written = [1, 1])) = some true := by
    decide +kernel
  obtain ⟨b, hb, hrest⟩ := bind_eq_some_iff.mp hrun
  obtain ⟨b', hb', hdec⟩ := map_eq_some_iff.mp hrest
  obtain ⟨hw, hw'⟩ := of_decide_eq_true hdec
  exact ⟨b, b', Reach.of_guarded_run hb, hw, hb', hw'⟩

/-- A record of which all bytes but the last have reached the file does the same at one restart. -/
example : ((run (Binlog.step recordCodec (1024 * 2 ^ 20) (128 * 2 ^ 20)) Binlog.empty
    [.start, .publish 0 [([1], [5])] [], .crash 0 [([2], [6])] [] 53, .start,
      .publish 0 [([2], [6])] []]).map (·.written)) = some [1, 1] := by
  decide +kernel

/-- With a write before each restart the numbers go on. -/
theorem lsn_increases_restart :
    ∃ b b' : Binlog,
      Reach (Binlog.step recordCodec (1024 * 2 ^ 20) (128 * 2 ^ 20))
        (SoundStart recordCodec (1024 * 2 ^ 20)) Binlog.empty b ∧
      b.written = [1] ∧
      b.step recordCodec (1024 * 2 ^ 20) (128 * 2 ^ 20) (.publish 0 [([2], [6])] []) = some b' ∧
      ∃ lsn, b'.written = lsn :: b.written ∧ ∀ l ∈ b.written, l < lsn := by
  have hrun : ((run (guarded (Binlog.step recordCodec (1024 * 2 ^ 20) (128 * 2 ^ 20))
      (SoundStart recordCodec (1024 * 2 ^ 20))) Binlog.empty
        [.start, .publish 0 [([1], [5])] [], .stop, .start]).bind fun b =>
        (b.step recordCodec (1024 * 2 ^ 20) (128 * 2 ^ 20) (.publish 0 [([2], [6])] [])).map
          fun _ => decide (b.written = [1])) = some true := by
    decide +kernel
  obtain ⟨b, hb, hrest⟩ := bind_eq_some_iff.mp hrun
  obtain ⟨b', hb', hdec⟩ := map_eq_some_iff.mp hrest
  have hreach := Reach.of_guarded_run hb
  exact ⟨b, b', hreach, of_decide_eq_true hdec, hb', lsn_increases hreach (by decide) hb'⟩

end ElyraSql
