import ElyraSql.Engine.Statements

/-!
# INSERT

`insert` of `exec.rs` with its four modes: plain, `IGNORE`, `REPLACE` and `ON DUPLICATE KEY UPDATE`.
A plain insert into a table with a primary key leaves the search for duplicates to the write
transaction (`commit_insert`); every other insert reads what it collides with and commits an
unconditional batch. How the values of a row are computed is a parameter.
-/

namespace ElyraSql.Engine

open ReadProgram

structure InsertStmt where
  table : Text
  replace : Bool
  ignore : Bool
  /-- Whether the table has a trigger on delete. -/
  deleteTriggers : Bool
  /-- The row that `ON DUPLICATE KEY UPDATE` makes of the stored row and the inserted one. -/
  merge : Option (TableDef → Row → Row → Except Error Row)
  /-- The rows to insert, and the auto-increment counter to store. -/
  rows : TableDef → Read (List Row × Option UInt64)
  /-- `check_widths_batch`. -/
  widths : TableDef → List (Bytes × Row) → Read Unit

def readRowid (table : Text) : Read UInt64 := do
  let c ← Read.get (rowidKey table)
  match c with
  | some (.counter n) => pure n
  | _ => pure 0

/-- Affected rows of an upsert that landed on a row. -/
def updatedRowCount (old new : Row) : Nat := if old = new then 0 else 2

/-- The owners of the probes that are bound. -/
def probeOwners (probes : List Bytes) (cells : List (Option Cell)) : List (Bytes × Bytes) :=
  (foundCells probes cells).filterMap fun e =>
    match e.2 with
    | .entry owner => some (e.1, owner)
    | _ => none

/-- A row to insert with its unique probes and what is stored under its key. -/
structure Candidate where
  key : Bytes
  row : Row
  probes : List Bytes
  stored : Option Cell

/-- The probes whose owner is not yet known get one. -/
def addOwners (owners : List (Bytes × Bytes)) (probes : List Bytes) (key : Bytes) :
    List (Bytes × Bytes) :=
  owners ++ (probes.filter fun p => (owners.lookup p).isNone).map fun p => (p, key)

/-- The row an upsert collides with: the stored row of its key, or the owner of a probe; two
different ones are an error. -/
def conflictOf (owners : List (Bytes × Bytes)) :
    Option Bytes → List Bytes → Except Error (Option Bytes)
  | conflict, [] => .ok conflict
  | conflict, p :: ps =>
    match owners.lookup p, conflict with
    | none, _ => conflictOf owners conflict ps
    | some owner, none => conflictOf owners (some owner) ps
    | some owner, some k => if k = owner then conflictOf owners conflict ps
      else .error .duplicateUnique

/-- The loop of `remap_unique_upsert_conflicts`. -/
def remapRows : List (Bytes × Bytes) → List Candidate → Except Error (List (Bytes × Row))
  | _, [] => .ok []
  | owners, c :: cs => do
    let conflict ← conflictOf owners (c.stored.map fun _ => c.key) c.probes
    let key := conflict.getD c.key
    let rest ← remapRows (addOwners owners c.probes key) cs
    .ok ((key, c.row) :: rest)

/-- The loop of `skip_unique_conflicts`: the rows that collide with nothing, with the keys and
probes taken so far. -/
def skipRows (hasPk : Bool) (taken : List Bytes) :
    List Bytes → List Bytes → List Candidate → List (Bytes × Row)
  | _, _, [] => []
  | keys, claimed, c :: cs =>
    if c.stored.isSome || (hasPk && keys.contains c.key) ||
        c.probes.any fun p => taken.contains p || claimed.contains p then
      skipRows hasPk taken keys claimed cs
    else
      (c.key, c.row) :: skipRows hasPk taken (if hasPk then c.key :: keys else keys)
        (claimed ++ c.probes) cs

/-- The state of `replace_conflicts`: the rows written so far, the stored rows not yet removed, the
rows removed, the owners of the probes claimed, and the affected rows. -/
structure ReplaceState where
  out : List (Bytes × Row)
  stored : List (Bytes × Row)
  removed : List (Bytes × Row)
  claims : List (Bytes × Bytes)
  affected : Nat

namespace Env

variable (env : Env)

/-- One victim of a replacing row: an earlier row of the statement, or a stored one. -/
def removeVictim (d : TableDef) (st : ReplaceState) (victim : Bytes) : ReplaceState × Option Row :=
  let release := fun (old : Row) => st.claims.filter fun e =>
    !((env.uniqueProbeKeys d old).contains e.1 && e.2 == victim)
  match st.out.lookup victim with
  | some old =>
    ({ st with out := st.out.filter fun e => e.1 ≠ victim, claims := release old }, some old)
  | none =>
    match st.stored.lookup victim with
    | some old =>
      ({ st with
          stored := st.stored.filter fun e => e.1 ≠ victim
          removed := st.removed ++ [(victim, old)]
          claims := release old }, some old)
    | none => (st, none)

/-- The rows one row collides with, each once, its own key first. -/
def replaceColliding (st : ReplaceState) (owners : List (Bytes × Bytes)) (c : Candidate) :
    List Bytes :=
  let own := if (st.out.lookup c.key).isSome || (st.stored.lookup c.key).isSome then [c.key] else []
  pushNew own (c.probes.filterMap fun p =>
    (st.claims.lookup p).or ((owners.lookup p).filter fun o =>
      (st.stored.lookup o).isSome && (st.out.lookup o).isNone))

/-- One row of a `REPLACE`. -/
def replaceRow (d : TableDef) (inPlace : Bool) (owners : List (Bytes × Bytes)) (st : ReplaceState)
    (c : Candidate) : ReplaceState :=
  let victims := replaceColliding st owners c
  let r := victims.foldl (fun (acc : ReplaceState × Bool) v =>
    let x := env.removeVictim d acc.1 v
    (x.1, inPlace && x.2 == some c.row)) (st, false)
  { r.1 with
    out := r.1.out ++ [(c.key, c.row)]
    claims := c.probes.map (fun p => (p, c.key)) ++
      r.1.claims.filter fun e => !c.probes.contains e.1
    affected := r.1.affected + if r.2 then 1 else victims.length + 1 }

/-- The candidates of some built rows: their unique probes, and what is stored under their keys if
the table has a primary key. -/
def candidates (d : TableDef) (built : List (Bytes × Row)) :
    Read (List (Bytes × Bytes) × List Candidate) := do
  let flat := built.flatMap fun e => env.uniqueProbeKeys d e.2
  let cells ← Read.multiGet flat
  let stored ← if d.hasPk then Read.multiGet (built.map Prod.fst)
    else pure (built.map fun _ => none)
  pure (probeOwners flat cells, (built.zip stored).map fun e =>
    ⟨e.1.1, e.1.2, env.uniqueProbeKeys d e.1.2, e.2⟩)

def decodeStored : List (Bytes × Cell) → Except Error (List (Bytes × Row))
  | [] => .ok []
  | e :: es => do
    let r ← decodeRow e.2
    let rs ← decodeStored es
    .ok ((e.1, r) :: rs)

/-- `replace_conflicts`: the rows that may be collided with are read once, then the rows are taken
in order. -/
def replaceConflicts (x : InsertStmt) (d : TableDef) (built : List (Bytes × Row)) :
    Read ReplaceState := do
  let flat := built.flatMap fun e => env.uniqueProbeKeys d e.2
  let cells ← Read.multiGet flat
  let owners := probeOwners flat cells
  let wanted := ((if d.hasPk then built.map Prod.fst else []) ++ owners.map Prod.snd).eraseDups
  let found ← Read.multiGet wanted
  let stored ← Prog.lift (decodeStored (foundCells wanted found))
  let uniqueKeyCount := (d.indexes.filter fun i => i.unique && !i.vector).length +
    if d.hasPk then 1 else 0
  let inPlace := !x.deleteTriggers && uniqueKeyCount == 1
  pure (built.foldl (fun st e => env.replaceRow d inPlace owners st
    ⟨e.1, e.2, env.uniqueProbeKeys d e.2, none⟩) ⟨[], stored, [], [], 0⟩)

def checkUniqueBatch (d : TableDef) (batch : List (Bytes × Row)) : Read Unit := do
  let probes := batch.flatMap fun e => (env.uniqueProbeKeys d e.2).map fun p => (p, e.1)
  if probes = [] then pure ()
  else if ¬ (probes.map Prod.fst).Nodup then .fail .duplicateUnique
  else
    let cells ← Read.multiGet (probes.map Prod.fst)
    if (probes.zip cells).all fun e => e.2.all fun c => c == .entry e.1.2 then pure ()
    else .fail .duplicateUnique

/-- The clustered keys of the rows: the encoded primary key, or the next row number. -/
def buildKeys (d : TableDef) : UInt64 → List Row → Except Error (List (Bytes × Row) × UInt64)
  | next, [] => .ok ([], next)
  | next, row :: rows =>
    if d.hasPk then do
      let encoded ← env.encodeColumnsColl row d.pkCols d.pkCollations
      let rest ← buildKeys d next rows
      .ok ((d.dataKey encoded, row) :: rest.1, rest.2)
    else do
      let rest ← buildKeys d (next + 1) rows
      .ok ((d.dataKey (encodeRowid (next + 1)), row) :: rest.1, rest.2)

/-- Pass 2 of `insert`: each row against the earlier rows of the statement and against what is
stored under its key. -/
def upsertRows (x : InsertStmt) (d : TableDef) (clustered : Bool) :
    List Change × Nat → List ((Bytes × Row) × Option Cell) → Except Error (List Change × Nat)
  | acc, [] => .ok acc
  | (batch, n), ((key, row), existing) :: rest =>
    if !clustered then upsertRows x d clustered (batch ++ [⟨none, some (key, row)⟩], n + 1) rest
    else
      match batch.findSome? fun c => c.new.filter fun e => e.1 == key, x.merge with
      | some e, some merge => do
        let merged ← merge d e.2 row
        upsertRows x d clustered
          (batch.map fun c =>
            if c.new.map Prod.fst = some key then { c with new := some (key, merged) } else c,
            n + updatedRowCount e.2 merged) rest
      | some _, none =>
        if x.ignore then upsertRows x d clustered (batch, n) rest else .error .duplicatePrimary
      | none, merge =>
        match existing, merge with
        | none, _ => upsertRows x d clustered (batch ++ [⟨none, some (key, row)⟩], n + 1) rest
        | some _, none =>
          if x.ignore then upsertRows x d clustered (batch, n) rest else .error .duplicatePrimary
        | some c, some merge => do
          let old ← decodeRow c
          let new ← merge d old row
          upsertRows x d clustered
            (batch ++ [⟨some (key, old), some (key, new)⟩], n + updatedRowCount old new) rest

/-- The slow path of `insert`: read what the rows collide with, then commit the batch. -/
def insertSlow (x : InsertStmt) (d : TableDef) (built : List (Bytes × Row))
    (rowid autoinc : Option UInt64) : Read Effect := do
  if x.replace then do
    let plan ← env.replaceConflicts x d built
    let changes : List Change :=
      plan.removed.map (fun e => ⟨some e, none⟩) ++ plan.out.map fun e => ⟨none, some e⟩
    x.widths d plan.out
    pure (.commit ⟨d, changes, rowid, autoinc, plan.affected⟩)
  else do
    let clustered := d.hasPk || (x.merge.isSome && hasUnique d)
    let existing ← if clustered then Read.multiGet (built.map Prod.fst)
      else pure (built.map fun _ => none)
    let r ← Prog.lift (upsertRows x d clustered ([], 0) (built.zip existing))
    if x.merge.isNone && !x.ignore && hasUnique d then
      env.checkUniqueBatch d (newRows r.1)
    x.widths d (newRows r.1)
    pure (.commit ⟨d, r.1, rowid, autoinc, r.2⟩)

def insert (x : InsertStmt) : Read Effect := do
  let d ← load x.table
  let rows ← x.rows d
  let rowid ← if d.hasPk then pure 0 else readRowid x.table
  let built ← Prog.lift (env.buildKeys d rowid rows.1)
  let remapped ←
    if x.merge.isSome && hasUnique d then do
      let c ← env.candidates d built.1
      Prog.lift (remapRows c.1 c.2)
    else if x.ignore && hasUnique d then do
      let c ← env.candidates d built.1
      pure (skipRows d.hasPk (c.1.map Prod.fst) [] [] c.2)
    else pure built.1
  if !x.replace && x.merge.isNone && !x.ignore && d.hasPk then do
    x.widths d remapped
    pure (.insertNew d remapped rows.2)
  else env.insertSlow x d remapped (if d.hasPk then none else some built.2) rows.2

end Env

end ElyraSql.Engine
