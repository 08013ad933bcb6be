import ElyraSql.Engine.Statements

/-!
# DROP TABLE, DROP INDEX and TRUNCATE

`drop_table` with `table_delete_keys`, `drop_index` with `collect_index_entry_keys`, and `truncate`
of `exec.rs`. Each scans a prefix made from the physical name of the table and deletes whatever it
found there. The triggers of a dropped table (`table_trigger_keys`) are a parameter.
-/

namespace ElyraSql.Engine

open ReadProgram

/-! ## Keys of a table besides its rows and entries -/

def wcountKey (table : Text) : Bytes :=
  ascii ['m', 'e', 't', 'a', ':', ':', 'w', 'c', 'o', 'u', 'n', 't', ':', ':'] ++ utf8 table

def tempOwnerKey (table : Text) : Bytes :=
  ascii ['s', 'y', 's', ':', ':', 'c', 't', 'e', '-', 'o', 'w', 'n', 'e', 'r', ':', ':'] ++
    utf8 table

def colwidthKey (table : Text) : Bytes :=
  ascii ['c', 'o', 'l', 'w', 'i', 'd', 't', 'h', ':', ':'] ++ utf8 table

def coldeclKey (table : Text) : Bytes :=
  ascii ['c', 'o', 'l', 'd', 'e', 'c', 'l', ':', ':'] ++ utf8 table

def readWcount (table : Text) : Read UInt64 := do
  let c ← Read.get (wcountKey table)
  match c with
  | some (.counter n) => pure n
  | _ => pure 0

def bumpWcount (table : Text) : Read (Bytes × Cell) := do
  let n ← readWcount table
  pure (wcountKey table, .counter (n + 1))

/-! ## Keys under a prefix -/

structure Batch where
  puts : List (Bytes × Cell)
  deletes : List Bytes

def pushKey (keys : List Bytes) (e : Bytes × Cell) : Except Error (Bool × List Bytes) :=
  .ok (false, keys ++ [e.1])

/-- Every key under one of the prefixes. -/
def keysUnder (fuel : Nat) (prefixes : List Bytes) : Read (List Bytes) := do
  let keys ← Prog.mapList (fun pfx => scanLoop pfx pushKey fuel none []) prefixes
  pure keys.flatten

/-- The prefixes of everything stored for the contents of a table. -/
def TableDef.keyspaces (d : TableDef) : List Bytes :=
  [d.dataPrefix, indexTablePrefix d.storageName, indexnullTablePrefix d.storageName]

/-! ## Statements -/

structure DropTableStmt where
  table : Text
  ifExists : Bool
  /-- `table_trigger_keys`. -/
  triggerKeys : Read (List Bytes)
  fuel : Nat

/-- `table_delete_keys`. The generation of the physical name outlives the table. -/
def tableDeleteKeys (x : DropTableStmt) : Read (List Bytes) := do
  let d ← load x.table
  let triggers ← x.triggerKeys
  let keys ← keysUnder x.fuel d.keyspaces
  pure ([catalogKey x.table, rowidKey x.table, autoincKey x.table, tempOwnerKey x.table,
    colwidthKey x.table, coldeclKey x.table] ++ triggers ++ keys)

def dropTable (x : DropTableStmt) : Read Batch := do
  let found ← Read.get (catalogKey x.table)
  if found.isNone then
    if x.ifExists then pure ⟨[], []⟩ else .fail (.noSuchTable x.table)
  else
    let deletes ← tableDeleteKeys x
    pure ⟨[], deletes⟩

structure TruncateStmt where
  table : Text
  fuel : Nat

def truncate (x : TruncateStmt) : Read Batch := do
  let d ← load x.table
  let keys ← keysUnder x.fuel d.keyspaces
  let wcount ← bumpWcount x.table
  pure ⟨[wcount], [rowidKey x.table, autoincKey x.table] ++ keys⟩

structure DropIndexStmt where
  table : Text
  name : Text
  fuel : Nat

/-- `collect_index_entry_keys`, which loads the definition once more. -/
def collectIndexEntryKeys (fuel : Nat) (table : Text) (indexNames : List Text) :
    Read (List Bytes) := do
  let d ← load table
  keysUnder fuel
    (indexNames.flatMap fun n => [indexPrefix d.storageName n, indexnullPrefix d.storageName n])

def dropIndex (x : DropIndexStmt) : Read Batch := do
  let d ← load x.table
  match d.indexes.findIdx? fun i => Env.eqIgnoreAsciiCase i.name x.name with
  | none => .fail (.unknownIndex x.name)
  | some position =>
    let removed := (d.indexes[position]?).elim x.name IndexDef.name
    let d' := { d with indexes := d.indexes.eraseIdx position }
    let deletes ← collectIndexEntryKeys x.fuel x.table [removed]
    pure ⟨[(catalogKey x.table, d'.encode)], deletes⟩

end ElyraSql.Engine
