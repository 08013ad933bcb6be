import ElyraSql.Library.OrderedMap
import ElyraSql.Library.RecordFile

/-!
# The storage file and its write transactions

`elyra-storage/src/lib.rs`: one ordered table of byte strings, read through snapshots and written by
four kinds of write transaction. A write transaction works on a private copy of the table and either
commits it together with the next write sequence number, or is dropped, as `redb` gives it. `apply`,
`applyInsert` and `applyValidated` are for one job, `applyJobs` and `applyValidatedBatch` for a
group in one transaction.
-/

namespace ElyraSql

open OrderedMap List OMap Prod

/-! ## Bytes -/

abbrev Byte := Fin 256

instance byte_neZero : NeZero 256 := ⟨by decide⟩

/-- A key or a value of the table (`Vec<u8>`). Keys are ordered bytewise. -/
abbrev Bytes := List Byte

instance bytes_lawful : LawfulBEq Bytes := inferInstance

/-- A byte-string literal (`b"..."`). -/
def ascii (cs : List Char) : Bytes := cs.map fun c => Fin.ofNat 256 c.toNat

/-- `u64::to_le_bytes`. -/
def leBytes (n : UInt64) : Bytes := (RecordFile.leBytes 8 n.toNat).map UInt8.toFin

/-- `u64::from_le_bytes`. -/
def fromLeBytes (bs : Bytes) : UInt64 := UInt64.ofNat (RecordFile.ofLeBytes (bs.map UInt8.ofFin))

theorem leBytes_length (n : UInt64) : (leBytes n).length = 8 := by simp [leBytes]

theorem fromLeBytes_leBytes (n : UInt64) : fromLeBytes (leBytes n) = n := by
  have hid : UInt8.ofFin ∘ UInt8.toFin = id := rfl
  rw [fromLeBytes, leBytes, List.map_map, hid, List.map_id,
    RecordFile.ofLeBytes_leBytes (w := 8) n.toNat_lt, UInt64.ofNat_toNat]

/-- A counter that is eight bytes, or nothing yet. -/
def decodeCounter : Option Bytes → UInt64
  | some b => if b.length = 8 then fromLeBytes b else 0
  | none => 0

@[simp] theorem decodeCounter_leBytes (n : UInt64) : decodeCounter (some (leBytes n)) = n := by
  rw [decodeCounter, if_pos (leBytes_length n), fromLeBytes_leBytes]

/-! ## Errors -/

/-- The errors of `elyra_core::Error` that the modelled functions return, with their texts. -/
inductive Error
  | storage (message : String)
  | query (message : String)
  | conflict (message : String)
  | duplicate (message : String)
  deriving DecidableEq, Repr

/-- What the issuer of a job learns, up to the wording of a message. -/
inductive Outcome
  | success
  | duplicate
  | conflict
  | failed
  deriving DecidableEq, Repr

def outcome : Except Error Unit → Outcome
  | .ok () => .success
  | .error (.duplicate _) => .duplicate
  | .error (.conflict _) => .conflict
  | .error (.storage _) => .failed
  | .error (.query _) => .failed

def rowConflict : Error := .conflict "row modified by another transaction since snapshot"

def rangeConflict : Error :=
  .conflict "a scanned range changed since snapshot (phantom or update)"

def duplicateEntry : Error := .duplicate "Duplicate entry for key 'PRIMARY'"

/-! ## The table -/

/-- The contents of the single key/value table `elyra_kv`. -/
abbrev Table := OMap Bytes Bytes

/-- `start ≤ k < stop`, with no upper bound when `stop` is absent. -/
def inRange (start : Bytes) (stop : Option Bytes) (k : Bytes) : Bool :=
  decide (start ≤ k) && stop.all fun e => decide (k < e)

/-- The scan loop of `Snapshot::scan_range`: every row is pushed before the limit is looked
at, so a limit of 0 still yields the first row. -/
def scanUpTo {α : Type} (limit : Nat) (rows : List α) : List α := rows.take (max limit 1)

/-- `Snapshot::scan_range` and `Storage::scan_range`. -/
def Table.scanRange (t : Table) (start : Bytes) (stop : Option Bytes) (limit : Nat) :
    List (Bytes × Bytes) :=
  scanUpTo limit (t.list (inRange start stop))

/-- The smallest key a batch after `after` can return. -/
def batchStart (pfx : Bytes) : Option Bytes → Bytes
  | some a => a ++ [0]
  | none => pfx

/-- `Storage::scan_batch`: a batch of a prefix ends at the first key outside it. -/
def Table.scanBatch {V : Type} (s : OMap Bytes V) (pfx : Bytes) (after : Option Bytes)
    (limit : Nat) :
    List (Bytes × V) :=
  scanUpTo limit ((s.list (inRange (batchStart pfx after) none)).takeWhile fun e =>
    pfx.isPrefixOf e.1)

/-- Deletes first, then puts, as every write transaction of the source does. -/
def Table.write (t : Table) (puts : List (Bytes × Bytes)) (deletes : List Bytes) : Table :=
  (t.eraseMany deletes).insertMany puts

/-- A scanned range and its content at snapshot time. -/
structure RangeSnapshot where
  start : Bytes
  stop : Option Bytes
  content : List (Bytes × Bytes)
  deriving DecidableEq, Repr

/-- Every key still holds the value expected of it. -/
def Table.keysHold (t : Table) (keys : List (Bytes × Option Bytes)) : Bool :=
  keys.all fun e => t.get e.1 == e.2

/-- Every scanned range still has the content it had. -/
def Table.rangesHold (t : Table) (ranges : List RangeSnapshot) : Bool :=
  ranges.all fun r => t.list (inRange r.start r.stop) == r.content

/-! ## Write transactions -/

/-- An open storage file: the committed table and the last write sequence handed out. -/
structure Storage where
  kv : Table
  wseq : UInt64

/-- The key under which every write transaction stores its sequence number. -/
def wseqKey : Bytes := ascii ['m', 'e', 't', 'a', ':', ':', 'w', 's', 'e', 'q']

/-- The end of a write transaction: the next sequence number goes into the table and the table
becomes the committed one. -/
def Storage.commitTable (s : Storage) (t : Table) : Storage :=
  ⟨t.insert wseqKey (leBytes (s.wseq + 1)), s.wseq + 1⟩

/-- The marker of `flush`. -/
def flushSeqKey : Bytes :=
  ascii ['m', 'e', 't', 'a', ':', ':', 'f', 'l', 'u', 's', 'h', '_', 's', 'e', 'q']

/-- `Storage::flush`, with the next number of its own counter. -/
def Storage.flush (s : Storage) (seq : UInt64) : Storage :=
  ⟨s.kv.insert flushSeqKey (leBytes seq), s.wseq⟩

def Storage.apply (s : Storage) (puts : List (Bytes × Bytes)) (deletes : List Bytes) :
    Except Error Unit × Storage :=
  (.ok (), s.commitTable (s.kv.write puts deletes))

/-- The insert loop of `Storage::apply_insert`: a key that was bound aborts it. -/
def Table.insertNew : Table → List (Bytes × Bytes) → Option Table
  | t, [] => some t
  | t, (k, v) :: new => if (t.get k).isSome then none else Table.insertNew (t.insert k v) new

def Storage.applyInsert (s : Storage) (new aux : List (Bytes × Bytes)) (deletes : List Bytes) :
    Except Error Unit × Storage :=
  match Table.insertNew (s.kv.eraseMany deletes) new with
  | none => (.error duplicateEntry, s)
  | some t => (.ok (), s.commitTable (t.insertMany aux))

/-- `Storage::apply_validated`: the keys are checked before the ranges, and a range reports a
message of its own. -/
def Storage.applyValidated (s : Storage) (keys : List (Bytes × Option Bytes))
    (ranges : List RangeSnapshot) (puts : List (Bytes × Bytes)) (deletes : List Bytes) :
    Except Error Unit × Storage :=
  if s.kv.keysHold keys then
    if s.kv.rangesHold ranges then (.ok (), s.commitTable (s.kv.write puts deletes))
    else (.error rangeConflict, s)
  else (.error rowConflict, s)

/-- One validated commit of a group. -/
structure ValidatedCommit where
  keys : List (Bytes × Option Bytes)
  ranges : List RangeSnapshot
  puts : List (Bytes × Bytes)
  deletes : List Bytes

/-- One turn of the loop in `Storage::apply_validated_batch`. Both kinds of stale read report
the same message here. -/
def Table.validatedTurn (t : Table) (job : ValidatedCommit) : Except Error Unit × Table :=
  if t.keysHold job.keys && t.rangesHold job.ranges then (.ok (), t.write job.puts job.deletes)
  else (.error rowConflict, t)

/-- One plain or `INSERT` write of a group. -/
structure PlainJob where
  new : Option (List (Bytes × Bytes))
  puts : List (Bytes × Bytes)
  deletes : List Bytes

/-- The duplicate search of `Storage::apply_jobs`: a key bound after the job's own deletes, or
one the job inserts twice. -/
def Table.findsDuplicate (t : Table) (deleted : List Bytes) :
    List (Bytes × Bytes) → List Bytes → Bool
  | [], _ => false
  | (k, _) :: new, seen =>
    if (!deleted.contains k && (t.get k).isSome) || seen.contains k then true
    else Table.findsDuplicate t deleted new (k :: seen)

/-- One turn of the loop in `Storage::apply_jobs`. -/
def Table.plainTurn (t : Table) (job : PlainJob) : Except Error Unit × Table :=
  if (job.new.any fun new => t.findsDuplicate job.deletes new []) then (.error duplicateEntry, t)
  else (.ok (), t.write (job.new.getD [] ++ job.puts) job.deletes)

/-- Run a group's turns one after another on the table of one transaction. -/
def Table.turns {J : Type} (turn : Table → J → Except Error Unit × Table) :
    Table → List J → List (Except Error Unit) × Table
  | t, [] => ([], t)
  | t, j :: js =>
    let r := turn t j
    let rest := Table.turns turn r.2 js
    (r.1 :: rest.1, rest.2)

/-- `Storage::apply_validated_batch`: the transaction commits even when every job conflicts. -/
def Storage.applyValidatedBatch (s : Storage) (jobs : List ValidatedCommit) :
    List (Except Error Unit) × Storage :=
  let r := s.kv.turns Table.validatedTurn jobs
  (r.1, s.commitTable r.2)

/-- `Storage::apply_jobs`: the transaction commits even when every job is refused. -/
def Storage.applyJobs (s : Storage) (jobs : List PlainJob) :
    List (Except Error Unit) × Storage :=
  let r := s.kv.turns Table.plainTurn jobs
  (r.1, s.commitTable r.2)

/-! ## Lookups after a write -/

@[simp] theorem Table.get_write (t : Table) (puts : List (Bytes × Bytes)) (deletes : List Bytes)
    (k : Bytes) :
    (t.write puts deletes).get k =
      (lastValue puts k).or (if k ∈ deletes then none else t.get k) := by
  rw [write, get_insertMany, get_eraseMany]

theorem Storage.get_commitTable {s : Storage} {t : Table} {k : Bytes} (h : k ≠ wseqKey) :
    (s.commitTable t).kv.get k = t.get k := by
  simp [Storage.commitTable, h]

theorem inRange_iff {start k : Bytes} {stop : Option Bytes} :
    inRange start stop k = true ↔ start ≤ k ∧ ∀ e, stop = some e → k < e := by
  cases stop <;> simp [inRange]

/-- The insert loop succeeds exactly when its keys are unbound and pairwise distinct, and then
it has inserted them all. -/
theorem Table.insertNew_eq {t : Table} {new : List (Bytes × Bytes)} :
    t.insertNew new =
      if (∀ e ∈ new, t.get e.1 = none) ∧ (new.map fst).Nodup then some (t.insertMany new)
      else none := by
  induction new generalizing t with
  | nil => simp [insertNew, insertMany]
  | cons e new ih =>
    obtain ⟨k, v⟩ := e
    rw [insertNew]
    by_cases hk : t.get k = none
    · rw [if_neg (by simp [hk]), ih]
      have hiff : ((∀ e ∈ new, (t.insert k v).get e.1 = none) ∧ (new.map fst).Nodup) ↔
          ((∀ e ∈ (k, v) :: new, t.get e.1 = none) ∧ (((k, v) :: new).map fst).Nodup) := by
        simp only [get_insert, forall_mem_cons, map_cons, nodup_cons, mem_map, not_exists, not_and]
        constructor
        · rintro ⟨hn, hd⟩
          refine ⟨⟨hk, fun e he => ?_⟩, fun e he hek => ?_, hd⟩
          · have := hn e he
            split_ifs at this with h
            exact this
          · simpa [hek] using hn e he
        · rintro ⟨⟨_, hn⟩, hk', hd⟩
          exact ⟨fun e he => by rw [if_neg (hk' e he)]; exact hn e he, hd⟩
      simp only [hiff]
      rfl
    · rw [if_pos (Option.isSome_iff_ne_none.mpr hk), if_neg]
      rintro ⟨hn, -⟩
      exact hk (hn (k, v) mem_cons_self)

/-- The duplicate search of a group finds what the insert loop would run into. -/
theorem Table.findsDuplicate_eq (t : Table) (deleted : List Bytes) (new : List (Bytes × Bytes))
    (seen : List Bytes) :
    t.findsDuplicate deleted new seen = true ↔
      ¬ ((∀ e ∈ new, (t.eraseMany deleted).get e.1 = none ∧ e.1 ∉ seen) ∧
        (new.map fst).Nodup) := by
  induction new generalizing seen with
  | nil => simp [findsDuplicate]
  | cons e new ih =>
    obtain ⟨k, v⟩ := e
    rw [findsDuplicate]
    have hget : (!deleted.contains k && (t.get k).isSome) = true ↔
        (t.eraseMany deleted).get k ≠ none := by
      by_cases hd : k ∈ deleted <;> simp [Option.isSome_iff_ne_none]
    split_ifs with h
    · rw [Bool.or_eq_true, hget] at h
      simp only [true_iff, forall_mem_cons]
      rintro ⟨⟨⟨hg, hs⟩, -⟩, -⟩
      rcases h with h | h
      · exact h hg
      · exact hs (by simpa using h)
    · rw [Bool.or_eq_true, hget, not_or, not_not] at h
      rw [ih]
      have hs : k ∉ seen := by simpa using h.2
      refine not_congr ?_
      rw [forall_mem_cons]
      simp only [mem_cons, not_or, map_cons, nodup_cons, mem_map, not_exists, not_and]
      constructor
      · rintro ⟨ha, hd⟩
        exact ⟨⟨⟨h.1, hs⟩, fun e he => ⟨(ha e he).1, (ha e he).2.2⟩⟩, fun e he => (ha e he).2.1, hd⟩
      · rintro ⟨⟨-, ha⟩, hk, hd⟩
        exact ⟨fun e he => ⟨(ha e he).1, hk e he, (ha e he).2⟩, hd⟩

end ElyraSql
