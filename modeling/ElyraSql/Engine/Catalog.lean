import ElyraSql.Engine.Value
import ElyraSql.Library.KeyOrder

/-!
# Tables, keys and index entries

`catalog.rs`, `keyenc.rs`, `ft.rs` and `index.rs` of the engine: the definition of a table, the keys
under which its definition, its rows and its index entries are stored, the encoding of key columns,
and `entries_for_row`. The stored values are kept typed (`Cell`).
-/

namespace ElyraSql.Engine

open OrderedMap KeyOrder

/-! ## Definitions of tables -/

/-- `ColumnDef`. -/
structure Column where
  name : Text
  ty : ColumnType
  nullable : Bool
  collation : Collation
  deriving DecidableEq, Repr

structure IndexDef where
  name : Text
  cols : List Nat
  unique : Bool
  vector : Bool
  fulltext : Bool
  colCollations : List Collation
  indexesNulls : Bool
  deriving DecidableEq, Repr

structure TableDef where
  name : Text
  columns : List Column
  pkCols : List Nat
  indexes : List IndexDef
  storageGeneration : UInt64
  deriving DecidableEq, Repr

def TableDef.hasPk (d : TableDef) : Bool := !d.pkCols.isEmpty

def TableDef.collationOf (d : TableDef) (i : Nat) : Collation :=
  (d.columns[i]?).elim .ci Column.collation

def TableDef.pkCollations (d : TableDef) : List Collation := d.pkCols.map d.collationOf

def IndexDef.singleCol (i : IndexDef) : Option Nat :=
  match i.cols with
  | [c] => some c
  | _ => none

/-! ## Stored values -/

/-- A stored value, by what it is. -/
inductive Cell
  | row (r : Row)
  | entry (dataKey : Bytes)
  | table (d : TableDef)
  | counter (n : UInt64)
  deriving DecidableEq, Repr

/-- The key/value table, with typed values. -/
abbrev Store := OMap Bytes Cell

/-- A write batch: deletes first, then puts. -/
def write (s : Store) (puts : List (Bytes × Cell)) (deletes : List Bytes) : Store :=
  (s.eraseMany deletes).insertMany puts

theorem get_write (s : Store) (puts : List (Bytes × Cell)) (deletes : List Bytes) (k : Bytes) :
    (write s puts deletes).get k =
      (OMap.lastValue puts k).or (if k ∈ deletes then none else s.get k) := by
  rw [write, OMap.get_insertMany, OMap.get_eraseMany]

/-! ## Keys -/

/-- The physical name of a table: a later generation has a name no identifier can have. -/
def TableDef.storageName (d : TableDef) : Text :=
  if d.storageGeneration = 0 then d.name
  else
    let hex := Nat.toDigits 16 d.storageGeneration.toNat
    Char.ofNat 0 :: ['g', 'e', 'n', 'e', 'r', 'a', 't', 'i', 'o', 'n', '_'] ++
      List.replicate (16 - hex.length) '0' ++ hex ++ [':', ':'] ++ d.name

def dataPrefixOf (storage : Text) : Bytes :=
  ascii ['d', 'a', 't', 'a', ':', ':'] ++ utf8 storage ++ ascii [':', ':']

def TableDef.dataPrefix (d : TableDef) : Bytes := dataPrefixOf d.storageName

def TableDef.dataKey (d : TableDef) (encoded : Bytes) : Bytes := d.dataPrefix ++ encoded

def catalogKey (table : Text) : Bytes :=
  ascii ['c', 'a', 't', 'a', 'l', 'o', 'g', ':', ':'] ++ utf8 table

def generationKey (table : Text) : Bytes :=
  ascii ['m', 'e', 't', 'a', ':', ':'] ++
    ascii ['g', 'e', 'n', 'e', 'r', 'a', 't', 'i', 'o', 'n', ':', ':'] ++ utf8 table

def rowidKey (table : Text) : Bytes :=
  ascii ['m', 'e', 't', 'a', ':', ':', 'r', 'o', 'w', 'i', 'd', ':', ':'] ++ utf8 table

def autoincKey (table : Text) : Bytes :=
  ascii ['m', 'e', 't', 'a', ':', ':', 'a', 'u', 't', 'o', 'i', 'n', 'c', ':', ':'] ++ utf8 table

/-- Every entry of a table's indexes has a key under one of these two. -/
def indexTablePrefix (storage : Text) : Bytes :=
  ascii ['i', 'n', 'd', 'e', 'x', ':', ':'] ++ utf8 storage ++ ascii [':', ':']

def indexnullTablePrefix (storage : Text) : Bytes :=
  ascii ['i', 'n', 'd', 'e', 'x', 'n', 'u', 'l', 'l', ':', ':'] ++ utf8 storage ++ ascii [':', ':']

def indexPrefix (storage index : Text) : Bytes :=
  indexTablePrefix storage ++ utf8 index ++ ascii [':', ':']

def indexnullPrefix (storage index : Text) : Bytes :=
  indexnullTablePrefix storage ++ utf8 index ++ ascii [':', ':']

/-! ## Encoded key columns -/

/-- The bias that makes a signed number of `w` bits an unsigned one of the same order. -/
def flipSign (w : Nat) (i : Int) : Nat := (i + 2 ^ (w - 1)).toNat

def encodeRowid (rowid : UInt64) : Bytes := bigEndian 256 8 rowid.toNat

namespace Env

variable (env : Env)

/-- `encode_component`. Of a decimal only the unscaled number is encoded. -/
def encodeColl (coll : Collation) : Value → Except Error Bytes
  | .int i => .ok (bigEndian 256 8 (flipSign 64 i.toInt))
  | .uint u => .ok (bigEndian 256 8 u.toNat)
  | .date d => .ok (bigEndian 256 4 (flipSign 32 d.toInt))
  | .dateTime t => .ok (bigEndian 256 8 (flipSign 64 t.toInt))
  | .decimal u _ => .ok (bigEndian 256 16 (flipSign 128 u.toInt))
  | .time t => .ok (bigEndian 256 8 (flipSign 64 t.toInt))
  | .bool b => .ok [if b then 1 else 0]
  | .text s | .json s => .ok (terminated 0 1 (env.collated coll s))
  | v => .error (.notKeyType v)

def encodeKeyColl : List Value → List Collation → Except Error Bytes
  | [], _ => .ok []
  | v :: vs, colls => do
    let b ← env.encodeColl (colls.headD .ci) v
    let bs ← encodeKeyColl vs colls.tail
    .ok (b ++ bs)

def encodeColumnsColl (row : Row) : List Nat → List Collation → Except Error Bytes
  | [], _ => .ok []
  | c :: cs, colls => do
    let v ← (row[c]?).elim (.error .columnOutsideRow) .ok
    let b ← env.encodeColl (colls.headD .ci) v
    let bs ← encodeColumnsColl row cs colls.tail
    .ok (b ++ bs)

/-! ## Terms of a text -/

def tokenize (text : Text) : List Text :=
  ((text.splitOnP fun c => !env.isAlphanumeric c).filter (· ≠ [])).map env.stem

def uniqueTerms (text : Text) : List Text := (env.tokenize text).eraseDups

/-- The text of some columns, each preceded by a blank. -/
def searchText (row : Row) (cols : List Nat) : Text :=
  cols.flatMap fun c => ((row[c]?).bind env.toWireString).elim [] (' ' :: ·)

/-! ## Index entries -/

/-- The stored key without the table's prefix. -/
def clusteredKey (d : TableDef) (dataKey : Bytes) : Bytes := dataKey.drop d.dataPrefix.length

def fulltextEntryKeys (d : TableDef) (idx : IndexDef) (row : Row) (dataKey : Bytes) : List Bytes :=
  (env.uniqueTerms (env.searchText row idx.cols)).map fun term =>
    indexPrefix d.storageName idx.name ++ utf8 term ++ [0] ++ clusteredKey d dataKey

/-- The encoded columns of an index, unless one is NULL or cannot be a key. -/
def encodedOf (idx : IndexDef) (row : Row) : Option Bytes :=
  if idx.cols.any fun c => (row.getD c .null).isNull then none
  else (env.encodeColumnsColl row idx.cols idx.colCollations).toOption

/-- `entry_key_encoded_storage`. -/
def entryKeyEncoded (d : TableDef) (idx : IndexDef) (encoded dataKey : Bytes) : Bytes :=
  indexPrefix d.storageName idx.name ++ encoded ++ [0] ++
    if idx.unique then [] else clusteredKey d dataKey

/-- The keys of one index's entries for a row. -/
def indexEntryKeys (d : TableDef) (row : Row) (dataKey : Bytes) (idx : IndexDef) : List Bytes :=
  if idx.vector then []
  else if idx.fulltext then env.fulltextEntryKeys d idx row dataKey
  else
    match env.encodedOf idx row with
    | some encoded => [entryKeyEncoded d idx encoded dataKey]
    | none =>
      -- A NULL in a single-column index is kept in a keyspace of its own.
      if idx.indexesNulls && idx.cols.length == 1 && (row.getD (idx.cols.headD 0) .null).isNull then
        [indexnullPrefix d.storageName idx.name ++ clusteredKey d dataKey]
      else []

def entryKeysForRow (d : TableDef) (row : Row) (dataKey : Bytes) : List Bytes :=
  d.indexes.flatMap (env.indexEntryKeys d row dataKey)

/-- `entries_for_row`: every entry holds the key of its row. -/
def entriesForRow (d : TableDef) (row : Row) (dataKey : Bytes) : List (Bytes × Cell) :=
  (env.entryKeysForRow d row dataKey).map fun k => (k, .entry dataKey)

/-- Whether an entry is one of the colliding entries of a unique index. -/
def isUniqueEntry (row : Row) (idx : IndexDef) : Bool :=
  idx.unique && !idx.fulltext && (env.encodedOf idx row).isSome

/-- `partition_entries_for_row`: the non-unique entries and the unique ones. -/
def partitionEntriesForRow (d : TableDef) (row : Row) (dataKey : Bytes) :
    List (Bytes × Cell) × List (Bytes × Cell) :=
  let keys := fun p => (d.indexes.filter p).flatMap (env.indexEntryKeys d row dataKey)
  ((keys fun i => !env.isUniqueEntry row i).map fun k => (k, .entry dataKey),
    (keys fun i => env.isUniqueEntry row i).map fun k => (k, .entry dataKey))

def uniqueProbeKeys (d : TableDef) (row : Row) : List Bytes :=
  (d.indexes.filter fun i => !i.vector && i.unique).filterMap fun idx =>
    (env.encodedOf idx row).map fun encoded =>
      indexPrefix d.storageName idx.name ++ encoded ++ [0]

end Env

def hasUnique (d : TableDef) : Bool := d.indexes.any fun i => i.unique && !i.vector

/-- `index_on`: the first index over just this column that is not a vector index. A full-text
index is not left out. -/
def indexOn (d : TableDef) (col : Nat) : Option IndexDef :=
  d.indexes.find? fun i => !i.vector && i.singleCol == some col

end ElyraSql.Engine
