import ElyraSql.Engine.Planner

/-!
# The rows a filter matches

`collect_matches`: candidates from the first access path that applies (full text, primary key,
index equality, `IN` list, composite range, range), each rechecked against the whole filter, or
else a scan of the table. An `IN` list or a range over a secondary index gives up when it finds
more keys than the budget allows.
-/

namespace ElyraSql.Engine

open ReadProgram

/-- What a run of the function depends on besides the data: the budget for index ranges (from
statistics and a process-wide cache), the order in which a hash map yields the columns with
bounds, and the number of batches a loop may take. -/
structure Choices where
  budget : Option Nat
  order : List Nat
  fuel : Nat

/-- The keys of a list, each once, in the order of their first occurrence. -/
def pushNew (keys : List Bytes) (more : List Bytes) : List Bytes :=
  more.foldl (fun ks k => if ks.contains k then ks else ks ++ [k]) keys

/-- The keys whose values were found, with the values. -/
def foundCells (keys : List Bytes) (cells : List (Option Cell)) : List (Bytes × Cell) :=
  (keys.zip cells).filterMap fun e => e.2.map fun c => (e.1, c)

namespace Env

variable (env : Env)

/-- One candidate: keep it if the filter accepts it, and stop at the limit. -/
def keepRow (schema : List Column) (filter : Option Expr) (limit : Option Nat)
    (out : List (Bytes × Row)) (e : Bytes × Cell) :
    Except Error (Bool × List (Bytes × Row)) := do
  let r ← decodeRow e.2
  let keep ← env.recheck schema filter r
  if keep then
    let out' := out ++ [(e.1, r)]
    .ok (limit.any fun l => decide (l ≤ out'.length), out')
  else .ok (false, out)

def selectRows (schema : List Column) (filter : Option Expr) (limit : Option Nat)
    (candidates : List (Bytes × Cell)) : Except Error (List (Bytes × Row)) :=
  (foldRows (env.keepRow schema filter limit) [] candidates).map Prod.snd

def selectKeys (schema : List Column) (filter : Option Expr) (limit : Option Nat)
    (keys : List Bytes) : Read (List (Bytes × Row)) := do
  let cells ← Read.multiGet keys
  Prog.lift (env.selectRows schema filter limit (foundCells keys cells))

/-- The union of the postings of some stems. -/
def postings (fuel : Nat) (d : TableDef) (idx : IndexDef) :
    List Bytes → List Text → Read (List Bytes)
  | keys, [] => pure keys
  | keys, stem :: stems => do
    let found ← fulltextLookup fuel d.storageName idx.name stem
    postings fuel d idx (pushNew keys found) stems

/-- The keys of the rows that have one of the values; none if they exceed the budget. -/
def listKeys (ch : Choices) (d : TableDef) (col : Nat) :
    List Bytes → List Value → Read (Option (List Bytes))
  | keys, [] => pure (some keys)
  | keys, v :: vs => do
    let found ← env.lookupKeysByEq ch.fuel d col v
    if ch.budget.any fun b => decide (b < (pushNew keys found).length) then pure none
    else listKeys ch d col (pushNew keys found) vs

/-- Candidates of a range path, filtered. -/
def selectFetched (schema : List Column) (filter : Option Expr) (limit : Option Nat)
    (rows : List (Bytes × Row)) : Read (List (Bytes × Row)) :=
  Prog.lift (env.selectRows schema filter limit (rows.map fun e => (e.1, .row e.2)))

def scanMatches (ch : Choices) (d : TableDef) (filter : Option Expr) (limit : Option Nat) :
    Read (List (Bytes × Row)) :=
  scanLoop d.dataPrefix (env.keepRow d.columns filter limit) ch.fuel none []

/-- The range path, with the scan to fall back on. -/
def rangeMatches (ch : Choices) (d : TableDef) (filter : Option Expr) (limit : Option Nat) :
    Read (List (Bytes × Row)) := do
  let rq ← Prog.lift (env.rangeBounds d ch.order filter)
  match rq with
  | none => env.scanMatches ch d filter limit
  | some (col, lo, hi) =>
    if d.pkCols = [col] then
      let rows ← env.clusteredRange ch.fuel d lo hi
      env.selectFetched d.columns filter limit rows
    else
      match indexOn d col with
      | none => env.scanMatches ch d filter limit
      | some idx => do
        let keys ← env.lookupRange ch.fuel d.storageName idx lo hi
        let rows ← fetchWithin ch.budget keys
        match rows with
        | some rows => env.selectFetched d.columns filter limit rows
        | none => env.scanMatches ch d filter limit

/-- The composite-range path, then the range path. -/
def compositeMatches (ch : Choices) (d : TableDef) (filter : Option Expr) (limit : Option Nat) :
    Read (List (Bytes × Row)) := do
  let query ← Prog.lift (env.compositeRangeBounds d filter)
  match query with
  | none => env.rangeMatches ch d filter limit
  | some q => do
    let keys ← env.lookupPrefixRange ch.fuel d.storageName q.index q.values q.lo q.hi
    let rows ← fetchWithin ch.budget keys
    match rows with
    | some rows => env.selectFetched d.columns filter limit rows
    | none => env.rangeMatches ch d filter limit

/-- The `IN` path, then the ranges. -/
def inListMatches (ch : Choices) (d : TableDef) (filter : Option Expr) (limit : Option Nat) :
    Read (List (Bytes × Row)) :=
  match env.inListLookup d filter with
  | none => env.compositeMatches ch d filter limit
  | some (col, vals) => do
    let keys ← env.listKeys ch d col [] vals
    match keys with
    | some keys => env.selectKeys d.columns filter limit keys
    | none => env.compositeMatches ch d filter limit

/-- The first index whose columns all have an equality. -/
def equalityIndex (d : TableDef) (filter : Option Expr) :
    List IndexDef → Except Error (Option (IndexDef × List Value))
  | [] => .ok none
  | idx :: rest =>
    if idx.vector then equalityIndex d filter rest
    else do
      let vals ← env.keyEqValues d filter idx.cols
      match vals with
      | some vs => .ok (some (idx, vs))
      | none => equalityIndex d filter rest

/-- The paths by equality, then the others. -/
def equalityMatches (ch : Choices) (d : TableDef) (filter : Option Expr) (limit : Option Nat) :
    Read (List (Bytes × Row)) := do
  let pk ← Prog.lift (if d.hasPk then env.keyEqValues d filter d.pkCols else .ok none)
  match pk with
  | some vals => do
    let encoded ← Prog.lift (env.encodeKeyColl vals d.pkCollations)
    let found ← Read.get (d.dataKey encoded)
    -- One row at most, so the limit does not matter here.
    Prog.lift
      (env.selectRows d.columns filter none (found.toList.map fun c => (d.dataKey encoded, c)))
  | none => do
    let hit ← Prog.lift (env.equalityIndex d filter d.indexes)
    match hit with
    | some (idx, vals) => do
      let keys ← env.lookupEq ch.fuel d.storageName idx vals
      env.selectKeys d.columns filter limit keys
    | none => env.inListMatches ch d filter limit

def collectMatches (ch : Choices) (d : TableDef) (filter : Option Expr) (limit : Option Nat) :
    Read (List (Bytes × Row)) :=
  if limit = some 0 then pure []
  else
    match matchConjunct filter with
    | none => env.equalityMatches ch d filter limit
    | some (cols, query, boolean) =>
      match env.fulltextIndex d cols with
      | none => env.equalityMatches ch d filter limit
      | some idx => do
        let keys ← postings ch.fuel d idx [] (env.searchStems query boolean)
        env.selectKeys d.columns filter limit keys

end Env

end ElyraSql.Engine
