import ElyraSql.Engine.Catalog
import ElyraSql.Library.ReadProgram
import ElyraSql.Session.Txn

/-!
# Reads outside a transaction

An autocommit statement reads through `Session::get`, `multi_get`, `scan_batch` and `scan_range`,
each of which sees the latest committed state. A statement's reading phase is a program over these
questions (`Read`), and the readers of `catalog.rs`, `index.rs` and `exec.rs` are such programs. A
loop over batches has a bound on their number (`fuel`); a run of the source is the run under every
bound that is large enough.
-/

namespace ElyraSql.Engine

open ReadProgram

/-! ## Questions and answers -/

inductive Query
  | get (key : Bytes)
  | multiGet (keys : List Bytes)
  | scanBatch (pfx : Bytes) (after : Option Bytes) (limit : Nat)
  | scanRange (start : Bytes) (stop : Option Bytes) (limit : Nat)
  deriving DecidableEq, Repr

def Query.Answer : Query → Type
  | .get _ => Option Cell
  | .multiGet _ => List (Option Cell)
  | .scanBatch .. => List (Bytes × Cell)
  | .scanRange .. => List (Bytes × Cell)

instance : ∀ q : Query, DecidableEq q.Answer
  | .get _ => inferInstanceAs (DecidableEq (Option Cell))
  | .multiGet _ => inferInstanceAs (DecidableEq (List (Option Cell)))
  | .scanBatch .. => inferInstanceAs (DecidableEq (List (Bytes × Cell)))
  | .scanRange .. => inferInstanceAs (DecidableEq (List (Bytes × Cell)))

/-- What the committed state answers. -/
def answer (s : Store) : (q : Query) → q.Answer
  | .get k => s.get k
  | .multiGet ks => ks.map s.get
  | .scanBatch pfx after limit => Table.scanBatch s pfx after limit
  | .scanRange start stop limit => scanUpTo limit (s.list (inRange start stop))

/-- A program that reads the store. -/
abbrev Read := Prog Query Query.Answer Error

def Read.get (k : Bytes) : Read (Option Cell) := Prog.query (Query.get k)

def Read.multiGet (ks : List Bytes) : Read (List (Option Cell)) :=
  Prog.query (Query.multiGet ks)

def Read.scanBatch (pfx : Bytes) (after : Option Bytes) (limit : Nat) :
    Read (List (Bytes × Cell)) :=
  Prog.query (Query.scanBatch pfx after limit)

def Read.scanRange (start : Bytes) (stop : Option Bytes) (limit : Nat) :
    Read (List (Bytes × Cell)) :=
  Prog.query (Query.scanRange start stop limit)

/-! ## Stored values of one kind -/

def wrongKind : Error := .storage ['s', 't', 'o', 'r', 'e', 'd', ' ', 'v', 'a', 'l', 'u', 'e']

def decodeRow : Cell → Except Error Row
  | .row r => .ok r
  | _ => .error wrongKind

def decodeEntry : Cell → Except Error Bytes
  | .entry k => .ok k
  | _ => .error wrongKind

/-- The definition from the values under the catalog key and the generation key. -/
def decodeDef (table : Text) : List (Option Cell) → Except Error TableDef
  | [some (.table d), some (.counter n)] => .ok { d with storageGeneration := n }
  | [some (.table d), _] => .ok { d with storageGeneration := 0 }
  | none :: _ => .error (.noSuchTable table)
  | _ => .error wrongKind

/-- `catalog::load`. The storage generation is kept under a key of its own. -/
def load (table : Text) : Read TableDef := do
  let vs ← Read.multiGet [catalogKey table, generationKey table]
  Prog.lift (decodeDef table vs)

theorem eval_load (s : Store) (table : Text) :
    (load table).eval (answer s) =
      decodeDef table [s.get (catalogKey table), s.get (generationKey table)] := by
  exact Prog.eval_lift _

/-- What `TableDef::encode` stores: the generation is not part of it. -/
def TableDef.encode (d : TableDef) : Cell := .table { d with storageGeneration := 0 }

/-! ## Loops over batches -/

/-- The number of rows every loop asks for at a time. -/
def batchSize : Nat := 4096

/-- Work through the rows of a batch; `true` ends the loop. -/
def foldRows {σ : Type} (f : σ → Bytes × Cell → Except Error (Bool × σ)) :
    σ → List (Bytes × Cell) → Except Error (Bool × σ)
  | s, [] => .ok (false, s)
  | s, e :: es => do
    let r ← f s e
    if r.1 then .ok r else foldRows f r.2 es

/-- The loop over `scan_batch`: the cursor is the last key seen, and a short batch is the last. -/
def scanLoop {σ : Type} (pfx : Bytes) (f : σ → Bytes × Cell → Except Error (Bool × σ)) :
    Nat → Option Bytes → σ → Read σ
  | 0, _, _ => .fail .outOfBatches
  | fuel + 1, cursor, s => do
    let chunk ← Read.scanBatch pfx cursor batchSize
    if chunk.isEmpty then pure s
    else
      let r ← Prog.lift (foldRows f s chunk)
      if r.1 || chunk.length < batchSize then pure r.2
      else scanLoop pfx f fuel (chunk.getLast?.map Prod.fst) r.2

/-- The loop over `scan_range`: it goes on just after the last key seen. -/
def rangeLoop {σ : Type} (stop : Bytes) (f : σ → Bytes × Cell → Except Error (Bool × σ)) :
    Nat → Bytes → σ → Read σ
  | 0, _, _ => .fail .outOfBatches
  | fuel + 1, start, s => do
    let batch ← Read.scanRange start (some stop) batchSize
    match batch.getLast? with
    | none => pure s
    | some last =>
      let r ← Prog.lift (foldRows f s batch)
      if r.1 || batch.length < batchSize then pure r.2
      else rangeLoop stop f fuel (last.1 ++ [0]) r.2

def pushEntry (keys : List Bytes) (e : Bytes × Cell) : Except Error (Bool × List Bytes) := do
  let k ← decodeEntry e.2
  .ok (false, keys ++ [k])

def pushRow (rows : List (Bytes × Row)) (e : Bytes × Cell) :
    Except Error (Bool × List (Bytes × Row)) := do
  let r ← decodeRow e.2
  .ok (false, rows ++ [(e.1, r)])

/-- The rows behind some keys that are still stored. -/
def decodeFound : List (Bytes × Option Cell) → Except Error (List (Bytes × Row))
  | [] => .ok []
  | (_, none) :: es => decodeFound es
  | (k, some c) :: es => do
    let r ← decodeRow c
    let rs ← decodeFound es
    .ok ((k, r) :: rs)

/-! ## Index lookups -/

namespace Env

variable (env : Env)

def lookupEq (fuel : Nat) (storage : Text) (idx : IndexDef) (values : List Value) :
    Read (List Bytes) := do
  let encoded ← Prog.lift (env.encodeKeyColl values idx.colCollations)
  scanLoop (indexPrefix storage idx.name ++ encoded ++ [0]) pushEntry fuel none []

def fulltextLookup (fuel : Nat) (storage index term : Text) : Read (List Bytes) :=
  scanLoop (indexPrefix storage index ++ utf8 term ++ [0]) pushEntry fuel none []

/-- A bound of a range: the value and whether it belongs to the range. -/
abbrev Bound := Option (Value × Bool)

/-- One end of `index::lookup_range`: `beyond` says which side of the entries of the value it
lies on. -/
def rangeEnd (pfx : Bytes) (coll : Collation) (bound : Bound) (beyond : Bool → Bool)
    (mark : Bytes) (whole : Bytes) : Except Error Bytes :=
  match bound with
  | none => .ok whole
  | some (v, incl) => do
    let b ← env.encodeColl coll v
    .ok (pfx ++ b ++ if beyond incl then mark else [])

/-- `index::lookup_range`: a single-column index, between two bounds. -/
def lookupRange (fuel : Nat) (storage : Text) (idx : IndexDef) (lo hi : Bound) :
    Read (List Bytes) := do
  let pfx := indexPrefix storage idx.name
  let coll := idx.colCollations.headD .ci
  let start ← Prog.lift (env.rangeEnd pfx coll lo (!·) [1] pfx)
  let stop ← Prog.lift (env.rangeEnd pfx coll hi id [1] (TxnState.prefixUpperBound pfx))
  rangeLoop stop pushEntry fuel start []

def prefixRangeScanBounds (storage : Text) (idx : IndexDef) (values : List Value) (lo hi : Bound) :
    Except Error (Option (Bytes × Bytes)) := do
  let encoded ← env.encodeKeyColl values idx.colCollations
  let equality := indexPrefix storage idx.name ++ encoded
  let coll := idx.colCollations.getD values.length .ci
  let bound := fun v => (env.encodeColl coll v).map (equality ++ ·)
  let start ← match lo with
    | some (v, true) => bound v
    | some (v, false) => (bound v).map TxnState.prefixUpperBound
    | none => .ok equality
  let stop ← match hi with
    | some (v, true) => (bound v).map TxnState.prefixUpperBound
    | some (v, false) => bound v
    | none => .ok (TxnState.prefixUpperBound equality)
  if stop ≤ start then .ok none else .ok (some (start, stop))

def lookupPrefixRange (fuel : Nat) (storage : Text) (idx : IndexDef) (values : List Value)
    (lo hi : Bound) : Read (List Bytes) := do
  let bounds ← Prog.lift (env.prefixRangeScanBounds storage idx values lo hi)
  match bounds with
  | none => pure []
  | some (start, stop) => rangeLoop stop pushEntry fuel start []

/-- `lookup_keys_by_eq`: the keys of the rows whose column has the value. -/
def lookupKeysByEq (fuel : Nat) (d : TableDef) (col : Nat) (v : Value) : Read (List Bytes) :=
  if d.pkCols = [col] then do
    let encoded ← Prog.lift (env.encodeColl (d.collationOf col) v)
    let found ← Read.get (d.dataKey encoded)
    pure (if found.isSome then [d.dataKey encoded] else [])
  else
    match indexOn d col with
    | none => pure []
    | some idx => env.lookupEq fuel d.storageName idx [v]

/-- `clustered_range`: the rows between two bounds of a single-column primary key. -/
def clusteredRange (fuel : Nat) (d : TableDef) (lo hi : Bound) : Read (List (Bytes × Row)) := do
  let coll := d.pkCollations.headD .ci
  let start ← Prog.lift (env.rangeEnd d.dataPrefix coll lo (!·) [0] d.dataPrefix)
  let stop ← Prog.lift
    (env.rangeEnd d.dataPrefix coll hi id [0] (TxnState.prefixUpperBound d.dataPrefix))
  rangeLoop stop pushRow fuel start []

def fetchRows (keys : List Bytes) : Read (List (Bytes × Row)) := do
  let blobs ← Read.multiGet keys
  Prog.lift (decodeFound (keys.zip blobs))

/-- Fetch the rows behind the keys of an index range, unless there are more of them than the
budget allows (`index_range`, `composite_index_range`). -/
def fetchWithin (budget : Option Nat) (keys : List Bytes) : Read (Option (List (Bytes × Row))) :=
  if budget.any fun b => decide (b < keys.length) then pure none
  else do
    let rows ← fetchRows keys
    pure (some rows)

end Env

end ElyraSql.Engine
