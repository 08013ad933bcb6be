import ElyraSql.Engine.Matches

/-!
# UPDATE, DELETE and CREATE INDEX

`update` with `stage_row_updates` and `unique_in_row_order`, `delete`, and `create_index` of
`exec.rs`, each as the program of its reads, which ends in the effect it then commits. What a
statement computes for a row (assigned values, generated columns, triggers, constraints, declared
widths) is a parameter that may read the store itself. The table is in no foreign key.
-/

namespace ElyraSql.Engine

open ReadProgram

/-! ## Effects -/

/-- A row that goes and a row that comes. -/
structure Change where
  old : Option (Bytes × Row)
  new : Option (Bytes × Row)
  deriving DecidableEq

/-- The writes of a statement to the rows of a table, with the counters it stores. -/
structure Writes where
  table : TableDef
  changes : List Change
  rowid : Option UInt64
  autoinc : Option UInt64
  affected : Nat
  deriving DecidableEq

/-- What a statement commits. -/
inductive Effect
  /-- `commit_write`: the batch is written as it is. -/
  | commit (w : Writes)
  /-- `commit_insert`: refused if a row key or a unique entry is bound. -/
  | insertNew (d : TableDef) (rows : List (Bytes × Row)) (autoinc : Option UInt64)
  /-- The new definition, and an entry of every index for every row that was read. -/
  | buildIndex (d : TableDef) (rows : List (Bytes × Row))
  | nothing
  deriving DecidableEq

def oldRows (changes : List Change) : List (Bytes × Row) := changes.filterMap Change.old

def newRows (changes : List Change) : List (Bytes × Row) := changes.filterMap Change.new

/-- The counters of a table that a batch stores. -/
def counterPuts (d : TableDef) (rowid autoinc : Option UInt64) : List (Bytes × Cell) :=
  rowid.toList.map (fun n => (rowidKey d.name, .counter n)) ++
    autoinc.toList.map fun n => (autoincKey d.name, .counter n)

namespace Env

variable (env : Env)

def rowPuts (d : TableDef) (e : Bytes × Row) : List (Bytes × Cell) :=
  (e.1, .row e.2) :: env.entriesForRow d e.2 e.1

/-- The index entries of the row that goes, and its key unless the new row has the same. -/
def changeDeletes (d : TableDef) (c : Change) : List Bytes :=
  c.old.elim [] fun e =>
    env.entryKeysForRow d e.2 e.1 ++ if c.new.map Prod.fst = some e.1 then [] else [e.1]

def writePuts (w : Writes) : List (Bytes × Cell) :=
  (newRows w.changes).flatMap (env.rowPuts w.table) ++ counterPuts w.table w.rowid w.autoinc

def writeDeletes (w : Writes) : List Bytes := w.changes.flatMap (env.changeDeletes w.table)

/-- The keys `commit_insert` wants to be unbound: those of the rows and of their unique
entries. -/
def insertKeys (d : TableDef) (rows : List (Bytes × Row)) : List (Bytes × Cell) :=
  rows.flatMap fun e => (e.1, .row e.2) :: (env.partitionEntriesForRow d e.2 e.1).2

/-- The other puts of `commit_insert`. -/
def insertAux (d : TableDef) (rows : List (Bytes × Row)) (autoinc : Option UInt64) :
    List (Bytes × Cell) :=
  (rows.flatMap fun e => (env.partitionEntriesForRow d e.2 e.1).1) ++ counterPuts d none autoinc

/-- Whether `commit_insert` refuses: a wanted key is bound or wanted twice. -/
def insertRefused (s : Store) (d : TableDef) (rows : List (Bytes × Row)) : Bool :=
  !decide ((∀ e ∈ env.insertKeys d rows, s.get e.1 = none) ∧
    ((env.insertKeys d rows).map Prod.fst).Nodup)

/-- The puts of `create_index`: the definition, then the entries of every row that was read. -/
def indexPuts (d : TableDef) (rows : List (Bytes × Row)) : List (Bytes × Cell) :=
  (catalogKey d.name, d.encode) :: rows.flatMap fun e => env.entriesForRow d e.2 e.1

def applyEffect (s : Store) : Effect → Store
  | .commit w => write s (env.writePuts w) (env.writeDeletes w)
  | .insertNew d rows autoinc =>
    if env.insertRefused s d rows then s
    else write s (env.insertKeys d rows ++ env.insertAux d rows autoinc) []
  | .buildIndex d rows => write s (env.indexPuts d rows) []
  | .nothing => s

/-! ## Matching rows -/

/-- The `WHERE` clause of a mutation: none, one whose subqueries are resolved once, or one that is
resolved and tested for each row. -/
inductive Selection
  | all
  | resolved (filter : Read Expr)
  | perRow (test : Row → Read Bool)

/-- The rows of a list that pass a test, up to a limit. -/
def testRows (test : Row → Read Bool) (limit : Option Nat) :
    List (Bytes × Row) → List (Bytes × Row) → Read (List (Bytes × Row))
  | out, [] => pure out
  | out, e :: es => do
    let keep ← test e.2
    if keep then
      if limit.any fun l => decide (l ≤ out.length + 1) then pure (out ++ [e])
      else testRows test limit (out ++ [e]) es
    else testRows test limit out es

def mutationMatches (ch : Choices) (d : TableDef) (limit : Option Nat) :
    Selection → Read (List (Bytes × Row))
  | .all => env.collectMatches ch d none limit
  | .resolved filter => do
    let f ← filter
    env.collectMatches ch d (some f) limit
  | .perRow test => do
    let rows ← env.collectMatches ch d none none
    testRows test limit [] rows

/-! ## UPDATE -/

structure UpdateStmt where
  table : Text
  choices : Choices
  selection : TableDef → Selection
  /-- `sort_mutation_matches`. -/
  sort : TableDef → List (Bytes × Row) → Except Error (List (Bytes × Row))
  limit : Option Nat
  ignore : Bool
  /-- The row with the assigned values. -/
  assign : TableDef → Row → Read Row
  /-- The row after generated columns, triggers and constraints, from the old row and the new
  one; none if an `IGNORE` statement leaves it out. -/
  rules : TableDef → Row → Row → Read (Option Row)
  /-- `check_widths_batch`. -/
  widths : TableDef → List (Bytes × Row) → Read Unit

/-- One row with its old and new key and contents. -/
structure StagedUpdate where
  oldKey : Bytes
  oldRow : Row
  newKey : Bytes
  newRow : Row

def StagedUpdate.change (u : StagedUpdate) : Change :=
  ⟨some (u.oldKey, u.oldRow), some (u.newKey, u.newRow)⟩

/-- Where a row is stored: under its primary key, or where it was. -/
def rowKey (d : TableDef) (oldKey : Bytes) (row : Row) : Except Error Bytes :=
  if d.hasPk then
    (env.encodeKeyColl (d.pkCols.map fun i => row.getD i .null) d.pkCollations).map d.dataKey
  else .ok oldKey

def stageRows (u : UpdateStmt) (d : TableDef) :
    List (Bytes × Row × Row) → Read (List StagedUpdate)
  | [] => pure []
  | (key, old, new) :: rest => do
    let row ← u.rules d old new
    match row with
    | none => stageRows u d rest
    | some row => do
      let newKey ← Prog.lift (env.rowKey d key row)
      let staged ← stageRows u d rest
      pure (⟨key, old, newKey, row⟩ :: staged)

/-- The keys that must be a row's own: its unique entries, and its row key if the table has a
primary key. -/
def uniqueKeys (d : TableDef) (key : Bytes) (row : Row) : List Bytes :=
  env.uniqueProbeKeys d row ++ if d.hasPk then [key] else []

/-- The keys a row takes that it did not hold, and those it gives up. -/
def takenVacated (d : TableDef) (u : StagedUpdate) : List Bytes × List Bytes :=
  let old := env.uniqueKeys d u.oldKey u.oldRow
  let new := env.uniqueKeys d u.newKey u.newRow
  (new.filter fun p => !old.contains p, old.filter fun p => !new.contains p)

/-- The rows in order, with the keys claimed and released so far. -/
def inRowOrder (skip : Bool) (stored : List Bytes) :
    List Bytes → List Bytes → List (List Bytes × List Bytes) → Except Error (List Bool)
  | _, _, [] => .ok []
  | claimed, released, (taken, vacated) :: rest =>
    if taken.any fun p => claimed.contains p || (stored.contains p && !released.contains p) then
      if skip then (inRowOrder skip stored claimed released rest).map (false :: ·)
      else .error .duplicateUnique
    else
      (inRowOrder skip stored (claimed ++ taken) (released ++ vacated) rest).map (true :: ·)

/-- `unique_in_row_order`: which rows are written. -/
def uniqueInRowOrder (d : TableDef) (rows : List StagedUpdate) (skip : Bool) :
    Read (List Bool) :=
  if !d.hasPk && !hasUnique d then pure (rows.map fun _ => true)
  else do
    let keys := rows.map (env.takenVacated d)
    let wanted := (keys.flatMap Prod.fst).eraseDups
    let stored ← if wanted = [] then pure [] else Read.multiGet wanted
    Prog.lift (inRowOrder skip ((foundCells wanted stored).map Prod.fst) [] [] keys)

def stageRowUpdates (u : UpdateStmt) (d : TableDef) (rows : List (Bytes × Row × Row)) :
    Read Effect := do
  let staged ← env.stageRows u d rows
  let written ← env.uniqueInRowOrder d staged u.ignore
  let kept := ((staged.zip written).filter Prod.snd).map Prod.fst
  u.widths d (kept.map fun s => (s.newKey, s.newRow))
  pure (.commit ⟨d, kept.map StagedUpdate.change, none, none,
    (kept.filter fun s => s.newRow ≠ s.oldRow).length⟩)

def update (u : UpdateStmt) : Read Effect := do
  let d ← load u.table
  let found ← env.mutationMatches u.choices d none (u.selection d)
  let sorted ← Prog.lift (u.sort d found)
  let rows ← Prog.mapList (fun m => do
    let new ← u.assign d m.2
    pure (m.1, m.2, new)) (u.limit.elim sorted sorted.take)
  env.stageRowUpdates u d rows

/-! ## DELETE -/

structure DeleteStmt where
  table : Text
  choices : Choices
  selection : TableDef → Selection
  limit : Option Nat

/-- `delete`. An `ORDER BY` is accepted but does not order the rows the limit cuts. -/
def delete (x : DeleteStmt) : Read Effect := do
  let d ← load x.table
  let found ← env.mutationMatches x.choices d x.limit (x.selection d)
  pure (.commit ⟨d, found.map fun m => ⟨some m, none⟩, none, none, found.length⟩)

/-! ## CREATE INDEX -/

structure CreateIndexStmt where
  table : Text
  name : Option Text
  columns : List Text
  unique : Bool
  ifNotExists : Bool
  fuel : Nat

def eqIgnoreAsciiCase (a b : Text) : Bool := a.map asciiLower == b.map asciiLower

def indexColumns (d : TableDef) : List Text → Except Error (List Nat)
  | [] => .ok []
  | n :: ns => do
    let c ← (env.columnOf d n).elim (.error (.unknownColumn n)) .ok
    let cs ← indexColumns d ns
    .ok (c :: cs)

def defaultIndexName (table : Text) (columns : List Text) : Text :=
  table ++ ['_'] ++ (columns.intersperse ['_']).flatten ++ ['_', 'i', 'd', 'x']

def isVectorColumn (d : TableDef) (col : Nat) : Bool :=
  (d.columns[col]?).any fun c => c.ty matches .vector _

def newIndex (x : CreateIndexStmt) (d : TableDef) (name : Text) (cols : List Nat) : IndexDef :=
  let vector := decide (cols.length = 1) && isVectorColumn d (cols.headD 0)
  { name := name
    cols := cols
    unique := x.unique
    vector := vector
    fulltext := false
    colCollations := cols.map d.collationOf
    indexesNulls := decide (cols.length = 1) && !vector }

def createIndex (x : CreateIndexStmt) : Read Effect := do
  let d ← load x.table
  if x.columns = [] then .fail .noIndexColumn
  else
    let cols ← Prog.lift (env.indexColumns d x.columns)
    let name := x.name.getD (defaultIndexName x.table x.columns)
    if d.indexes.any fun i => eqIgnoreAsciiCase i.name name then
      if x.ifNotExists then pure .nothing else .fail (.indexExists name)
    else
      let d' := { d with indexes := d.indexes ++ [newIndex x d name cols] }
      let rows ← scanLoop d'.dataPrefix pushRow x.fuel none []
      pure (.buildIndex d' rows)

end Env

end ElyraSql.Engine
