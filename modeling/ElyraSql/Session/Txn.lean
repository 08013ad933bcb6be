import ElyraSql.Storage.GroupCommit

/-!
# Transactions of a session

`elyra-engine/src/session.rs`: a transaction reads a snapshot of the table overlaid with its own
buffered writes, and hands the buffer to the writer as one validated commit. That no key is both put
and deleted is a field of `Overlay`, and the undo log carries the same fact entry by entry. `budget`
is `ELYRASQL_TXN_MAX_BYTES` and `cap` is `ELYRASQL_SERIALIZABLE_MAX_RANGE`.
-/

namespace ElyraSql

open OrderedMap

/-- A set of keys (`BTreeSet<Vec<u8>>`). -/
abbrev KeySet := OMap Bytes Unit

def KeySet.keys (s : KeySet) : List Bytes := s.entries.map Prod.fst

/-- `is_meta`: bookkeeping keys are never validated. -/
def isMeta (k : Bytes) : Bool := (ascii ['m', 'e', 't', 'a', ':', ':']).isPrefixOf k

/-! ## The overlay -/

/-- Buffered puts and deletes. No key is in both. -/
structure Overlay where
  puts : OMap Bytes Bytes
  deletes : KeySet
  disjoint : ∀ k, (puts.get k).isSome → deletes.get k = none

namespace Overlay

def empty : Overlay := ⟨OMap.empty, OMap.empty, fun _ _ => rfl⟩

/-- The overlay has an entry for `k`. -/
def touches (o : Overlay) (k : Bytes) : Bool := (o.puts.get k).isSome || (o.deletes.get k).isSome

/-- What the overlay says about `k`: nothing, deleted, or its new value. -/
def lookup (o : Overlay) (k : Bytes) : Option (Option Bytes) :=
  if (o.deletes.get k).isSome then some none else (o.puts.get k).map some

/-- The table a transaction should see: the snapshot with its own writes. -/
def onto (o : Overlay) (t : Table) : Table := t.write o.puts.entries o.deletes.keys

/-- Buffer a delete of `k`. -/
def delete (o : Overlay) (k : Bytes) : Overlay where
  puts := o.puts.erase k
  deletes := o.deletes.insert k ()
  disjoint := by
    intro j hj
    rw [OMap.get_erase] at hj
    rw [OMap.get_insert]
    split_ifs at hj ⊢ with h
    · exact Bool.noConfusion hj
    · exact o.disjoint j hj

/-- Buffer a put of `v` under `k`. -/
def put (o : Overlay) (k v : Bytes) : Overlay where
  puts := o.puts.insert k v
  deletes := o.deletes.erase k
  disjoint := by
    intro j hj
    rw [OMap.get_insert] at hj
    rw [OMap.get_erase]
    split_ifs at hj ⊢ with h
    · rfl
    · exact o.disjoint j hj

end Overlay

/-- The state of one key before a mutation of the buffer. -/
structure UndoEntry where
  key : Bytes
  prevPut : Option Bytes
  prevDeleted : Bool
  exclusive : prevPut.isSome → prevDeleted = false

namespace UndoEntry

/-- `undo_entry_size`. -/
def size (e : UndoEntry) : Nat := e.key.length + (e.prevPut.map List.length).getD 0 + 1

end UndoEntry

namespace Overlay

/-- The undo entry that records the present state of `k`. -/
def undoEntry (o : Overlay) (k : Bytes) : UndoEntry where
  key := k
  prevPut := o.puts.get k
  prevDeleted := (o.deletes.get k).isSome
  exclusive := fun h => by rw [o.disjoint k h]; rfl

/-- Put one key back to the state an undo entry recorded. -/
def restore (o : Overlay) (e : UndoEntry) : Overlay where
  puts := match e.prevPut with
    | some v => o.puts.insert e.key v
    | none => o.puts.erase e.key
  deletes := if e.prevDeleted then o.deletes.insert e.key () else o.deletes.erase e.key
  disjoint := by
    intro j hj
    obtain ⟨key, prev, deleted, hx⟩ := e
    by_cases h : j = key
    · subst h
      cases prev with
      | none => simp at hj
      | some v =>
        obtain rfl : deleted = false := hx rfl
        simp
    · have hj' : (o.puts.get j).isSome := by cases prev <;> simpa [h] using hj
      cases deleted <;> simpa [h] using o.disjoint j hj'

/-- Bytes the buffer holds for `k`. -/
def weight (o : Overlay) (k : Bytes) : Nat :=
  (match o.puts.get k with
    | some v => k.length + v.length
    | none => 0) +
  (if (o.deletes.get k).isSome then k.length else 0)

end Overlay

/-! ## The transaction -/

/-- A named savepoint: positions in the undo log and the range list. -/
structure Savepoint where
  name : String
  undoMark : Nat
  rangesLen : Nat

/-- A marker of the engine, outside the namespace of savepoints. -/
structure TransactionCheckpoint where
  undoMark : Nat
  rangesLen : Nat
  savepointsLen : Nat

/-- `TxnState`. The undo log is newest first. -/
structure TxnState where
  snapshot : Table
  readOnly : Bool
  overlay : Overlay
  serializable : Bool
  reads : KeySet
  ranges : List (Bytes × Option Bytes)
  locked : KeySet
  savepoints : List Savepoint
  checkpoints : Nat
  undo : List UndoEntry
  undoMem : Nat
  mem : Nat

inductive Isolation
  | snapshot
  | serializable
  deriving DecidableEq, Repr

namespace TxnState

/-- `begin_with_access`. -/
def start (snapshot : Table) (readOnly : Bool) (isolation : Isolation) : TxnState where
  snapshot := snapshot
  readOnly := readOnly
  overlay := Overlay.empty
  serializable := isolation == .serializable
  reads := OMap.empty
  ranges := []
  locked := OMap.empty
  savepoints := []
  checkpoints := 0
  undo := []
  undoMem := 0
  mem := 0

def view (tx : TxnState) : Table := tx.overlay.onto tx.snapshot

/-! ### Reads -/

/-- Record a point read (serializable transactions, keys other than bookkeeping). -/
def recordRead (tx : TxnState) (k : Bytes) : TxnState :=
  if tx.serializable && !isMeta k then { tx with reads := tx.reads.insert k () } else tx

/-- `Session::get` inside a transaction. -/
def get (tx : TxnState) (k : Bytes) : Option Bytes × TxnState :=
  let r := match tx.overlay.lookup k with
    | some r => r
    | none => tx.snapshot.get k
  (r, tx.recordRead k)

/-- Put the fetched values of the misses back in their places. -/
def fillMisses : List (Option (Option Bytes)) → List (Option Bytes) → List (Option Bytes)
  | [], _ => []
  | some r :: hits, fetched => r :: fillMisses hits fetched
  | none :: hits, v :: fetched => v :: fillMisses hits fetched
  | none :: hits, [] => none :: fillMisses hits []

/-- `Session::multi_get` inside a transaction: overlay hits first, then the snapshot for the
misses. -/
def multiGet (tx : TxnState) (keys : List Bytes) : List (Option Bytes) × TxnState :=
  let hits := keys.map tx.overlay.lookup
  let misses := keys.filter fun k => (tx.overlay.lookup k).isNone
  (fillMisses hits (misses.map tx.snapshot.get), keys.foldl recordRead tx)

/-- `merge`: puts override and deletes remove, then the first `limit` rows. -/
def merge (committed : List (Bytes × Bytes)) (overlay : List (Bytes × Option Bytes))
    (limit : Nat) : List (Bytes × Bytes) :=
  let map := overlay.foldl
    (fun (m : Table) e => match e.2 with
      | some v => m.insert e.1 v
      | none => m.erase e.1)
    ((OMap.empty : Table).insertMany committed)
  map.entries.take limit

/-- The overlay entries of a range: its puts, then its deletes. -/
def rangeOverlay (o : Overlay) (start : Bytes) (stop : Option Bytes) :
    List (Bytes × Option Bytes) :=
  (o.puts.list (inRange start stop)).map (fun e => (e.1, some e.2)) ++
    (o.deletes.list (inRange start stop)).map fun e => (e.1, none)

/-- Record a scanned range (serializable transactions, ranges that do not start at a
bookkeeping key). -/
def recordRange (tx : TxnState) (start : Bytes) (stop : Option Bytes) : TxnState :=
  if tx.serializable && !isMeta start then { tx with ranges := tx.ranges ++ [(start, stop)] }
  else tx

/-- `Session::scan_range` inside a transaction. The committed rows are cut to `limit` before
the overlay is merged in. -/
def scanRange (tx : TxnState) (start : Bytes) (stop : Option Bytes) (limit : Nat) :
    List (Bytes × Bytes) × TxnState :=
  (merge (tx.snapshot.scanRange start stop limit) (rangeOverlay tx.overlay start stop) limit,
    tx.recordRange start stop)

/-- The loop of `prefix_upper_bound` on the reversed key: drop trailing `0xFF`, bump the last
byte left. -/
def bumpLast : Bytes → Bytes
  | [] => []
  | b :: r => if b < 255 then ((b + 1) :: r).reverse else bumpLast r

/-- `prefix_upper_bound` of the session, empty when every byte is `0xFF`. -/
def prefixUpperBound (pfx : Bytes) : Bytes := bumpLast pfx.reverse

/-- `Session::scan_batch` inside a transaction. -/
def scanBatch (tx : TxnState) (pfx : Bytes) (after : Option Bytes) (limit : Nat) :
    List (Bytes × Bytes) × TxnState :=
  tx.scanRange (batchStart pfx after) (some (prefixUpperBound pfx)) limit

/-- The batched loop the engine reads a table with: continue from the last key, stop at a batch
shorter than the limit. `fuel` bounds the number of batches. -/
def scanAll (pfx : Bytes) (limit : Nat) : Nat → TxnState → Option Bytes → List (Bytes × Bytes)
  | 0, _, _ => []
  | fuel + 1, tx, after =>
    let r := tx.scanBatch pfx after limit
    if r.1.length < limit then r.1
    else r.1 ++ scanAll pfx limit fuel r.2 ((r.1.getLast?.map Prod.fst).or after)

/-! ### Writes -/

def txnOverflow (budget : Nat) : Error :=
  .query s!"transaction write buffer exceeded {budget} bytes; COMMIT or ROLLBACK (raise ELYRASQL_TXN_MAX_BYTES to allow larger transactions)"

/-- Undo entries are recorded while a savepoint or a checkpoint is active. -/
def logging (tx : TxnState) : Bool := !tx.savepoints.isEmpty || 0 < tx.checkpoints

/-- Push the undo entry of `k`, if the log is live. -/
def logUndo (tx : TxnState) (budget : Nat) (k : Bytes) : Except Error TxnState :=
  if tx.logging then
    let e := tx.overlay.undoEntry k
    if tx.mem + tx.undoMem + e.size > budget then .error (txnOverflow budget)
    else .ok { tx with undo := e :: tx.undo, undoMem := tx.undoMem + e.size }
  else .ok tx

/-- Replace the overlay by one that differs at `k`, keeping the byte count. -/
def setOverlay (tx : TxnState) (k : Bytes) (o : Overlay) : TxnState :=
  { tx with overlay := o, mem := tx.mem - tx.overlay.weight k + o.weight k }

/-- One mutation of the buffer: log, change, then check the budget. An overflow found after the
change leaves the change in place. -/
def mutate (budget : Nat) (k : Bytes) (change : Overlay → Overlay) (tx : TxnState) :
    Except Error Unit × TxnState :=
  match tx.logUndo budget k with
  | .error e => (.error e, tx)
  | .ok tx =>
    let tx := tx.setOverlay k (change tx.overlay)
    if tx.mem + tx.undoMem > budget then (.error (txnOverflow budget), tx) else (.ok (), tx)

/-- Run mutations in turn up to the first that fails. -/
def mutateAll (budget : Nat) :
    List (Bytes × (Overlay → Overlay)) → TxnState → Except Error Unit × TxnState
  | [], tx => (.ok (), tx)
  | (k, change) :: rest, tx =>
    let r := tx.mutate budget k change
    match r.1 with
    | .error e => (.error e, r.2)
    | .ok () => mutateAll budget rest r.2

/-- `Session::commit_write` inside a transaction: the deletes, then the puts. -/
def commitWrite (tx : TxnState) (budget : Nat) (puts : List (Bytes × Bytes))
    (deletes : List Bytes) : Except Error Unit × TxnState :=
  tx.mutateAll budget
    (deletes.map (fun k => (k, fun o => o.delete k)) ++
      puts.map fun e => (e.1, fun o => o.put e.1 e.2))

def lockKeys (tx : TxnState) (keys : List Bytes) : TxnState :=
  { tx with locked := tx.locked.insertMany (keys.map fun k => (k, ())) }

/-! ### Savepoints -/

/-- Pop the newest undo entry and put its key back. -/
def popUndo (tx : TxnState) : TxnState :=
  match tx.undo with
  | [] => tx
  | e :: undo =>
    { tx.setOverlay e.key (tx.overlay.restore e) with
      undo := undo, undoMem := tx.undoMem - e.size }

/-- Pop undo entries down to the mark. -/
def unwind (undoMark : Nat) : Nat → TxnState → TxnState
  | 0, tx => tx
  | fuel + 1, tx => if undoMark < tx.undo.length then unwind undoMark fuel tx.popUndo else tx

/-- `rollback_tx_to`: undo the buffer back to the mark and drop the ranges recorded since. -/
def rollbackTxTo (tx : TxnState) (undoMark rangesLen : Nat) : TxnState :=
  let tx := unwind undoMark tx.undo.length tx
  { tx with ranges := tx.ranges.take rangesLen }

/-- `Session::savepoint`: a savepoint of the same name is replaced. -/
def savepoint (tx : TxnState) (name : String) : TxnState :=
  { tx with
    savepoints := tx.savepoints.filter (·.name ≠ name) ++
      [⟨name, tx.undo.length, tx.ranges.length⟩] }

def noSuchSavepoint (name : String) : Error := .query s!"no such savepoint: {name}"

/-- `Session::rollback_to`. The savepoint stays, later ones go. -/
def rollbackTo (tx : TxnState) (name : String) : Except Error Unit × TxnState :=
  match tx.savepoints.findIdx? (·.name = name), tx.savepoints.find? (·.name = name) with
  | some pos, some sp =>
    let tx := tx.rollbackTxTo sp.undoMark sp.rangesLen
    (.ok (), { tx with savepoints := tx.savepoints.take (pos + 1) })
  | _, _ => (.error (noSuchSavepoint name), tx)

/-- With no savepoint and no checkpoint left, the undo log is no longer needed. -/
def dropUndo (tx : TxnState) : TxnState :=
  if tx.savepoints.isEmpty && tx.checkpoints == 0 then { tx with undo := [], undoMem := 0 } else tx

def releaseSavepoint (tx : TxnState) (name : String) : Except Error Unit × TxnState :=
  match tx.savepoints.findIdx? (·.name = name) with
  | some pos => (.ok (), dropUndo { tx with savepoints := tx.savepoints.take pos })
  | none => (.error (noSuchSavepoint name), tx)

def transactionCheckpoint (tx : TxnState) : TransactionCheckpoint × TxnState :=
  (⟨tx.undo.length, tx.ranges.length, tx.savepoints.length⟩,
    { tx with checkpoints := tx.checkpoints + 1 })

def noActiveCheckpoint : Error := .query "no active transaction checkpoint"

def releaseTransactionCheckpoint (tx : TxnState) : Except Error Unit × TxnState :=
  match tx.checkpoints with
  | 0 => (.error noActiveCheckpoint, tx)
  | n + 1 => (.ok (), dropUndo { tx with checkpoints := n })

def rollbackTransactionCheckpoint (tx : TxnState) (c : TransactionCheckpoint) :
    Except Error Unit × TxnState :=
  match tx.checkpoints with
  | 0 => (.error noActiveCheckpoint, tx)
  | n + 1 =>
    let tx := { tx with checkpoints := n }.rollbackTxTo c.undoMark c.rangesLen
    (.ok (), dropUndo { tx with savepoints := tx.savepoints.take c.savepointsLen })

def requireSerializableValidation (tx : TxnState) : TxnState := { tx with serializable := true }

/-! ### Commit -/

/-- One step of `coalesce_ranges`: `merged` has its last range first. -/
def coalesceStep (merged : List (Bytes × Option Bytes)) (r : Bytes × Option Bytes) :
    List (Bytes × Option Bytes) :=
  match merged with
  | [] => [r]
  | (start, none) :: rest => (start, none) :: rest
  | (start, some previous) :: rest =>
    if r.1 ≤ previous then
      match r.2 with
      | none => (start, none) :: rest
      | some candidate =>
        if previous < candidate then (start, some candidate) :: rest
        else (start, some previous) :: rest
    else r :: (start, some previous) :: rest

/-- `sort_unstable_by` leaves the order of ranges with one start open, and `insertionSort` fixes one.
What is proved of the loop (`foldl_coalesceStep`) holds for every order by starts. -/
def coalesceRanges (ranges : List (Bytes × Option Bytes)) : List (Bytes × Option Bytes) :=
  ((ranges.insertionSort fun a b => a.1 ≤ b.1).foldl coalesceStep []).reverse

/-- The ranges validated at commit. -/
def commitRanges (tx : TxnState) : List (Bytes × Option Bytes) :=
  if tx.serializable then coalesceRanges tx.ranges else tx.ranges

/-- Some range validated at commit holds `k`. -/
def rangeCovers (tx : TxnState) (k : Bytes) : Bool :=
  tx.serializable && tx.commitRanges.any fun r => inRange r.1 r.2 k

/-- The keys validated at commit: written keys that no range covers, locked keys, and read keys
of a serializable transaction. -/
def keyset (tx : TxnState) : KeySet :=
  let written := (tx.overlay.puts.entries.map Prod.fst ++ tx.overlay.deletes.keys).filter
    fun k => !isMeta k && !tx.rangeCovers k
  let read := if tx.serializable then tx.reads.keys.filter fun k => !isMeta k else []
  (OMap.empty : KeySet).insertMany ((written ++ tx.locked.keys ++ read).map fun k => (k, ()))

def rangeTooLarge (cap : Nat) : Error :=
  .query s!"SERIALIZABLE commit read a range of over {cap} rows; narrow the predicate, raise ELYRASQL_SERIALIZABLE_MAX_RANGE, or use a lower isolation level"

/-- The snapshot content of the ranges, refused when one holds more than `cap` rows. -/
def rangeSnaps (snapshot : Table) (cap : Nat) :
    List (Bytes × Option Bytes) → Except Error (List RangeSnapshot)
  | [] => .ok []
  | (start, stop) :: rest =>
    let content := snapshot.scanRange start stop (cap + 1)
    if content.length > cap then .error (rangeTooLarge cap)
    else
      match rangeSnaps snapshot cap rest with
      | .error e => .error e
      | .ok snaps => .ok (⟨start, stop, content⟩ :: snaps)

/-- The job `Session::commit` submits, or the error it returns instead. -/
def commitJob (tx : TxnState) (cap : Nat) : Except Error WriteJob :=
  let keys := tx.keyset.keys.map fun k => (k, tx.snapshot.get k)
  match (if tx.serializable then rangeSnaps tx.snapshot cap tx.commitRanges else .ok []) with
  | .error e => .error e
  | .ok ranges =>
    .ok { puts := tx.overlay.puts.entries, deletes := tx.overlay.deletes.keys,
          validation := some { keys := keys, ranges := ranges } }

end TxnState

end ElyraSql
