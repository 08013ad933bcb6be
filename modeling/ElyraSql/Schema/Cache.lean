import ElyraSql.Library.VersionTags
import ElyraSql.Session.Batches
import ElyraSql.Session.System
import ElyraSql.Storage.WriteSequence

/-!
# Cached schema lookups

`elyra-engine/src/schemacache.rs` and `catalog.rs`: outside a transaction, lookups of schema keys
are served from two caches of the process. An entry carries the schema generation (`SCHEMA_GEN` of
`elyra-storage/src/lib.rs`) loaded before its value was read, and is served while the generation is
the same. A write that touches a schema key raises the generation after its commit, so a commit and
its bump are two steps; table definitions carry a catalog epoch besides. Inside a transaction a
lookup reads the snapshot and the buffered writes. `Versioned` keeps the past states of the store.
-/

namespace ElyraSql.Schema

open VersionTags

/-! ## Schema keys -/

def catalogPfx : Bytes := ascii ['c', 'a', 't', 'a', 'l', 'o', 'g', ':', ':']

def coldeclPfx : Bytes := ascii ['c', 'o', 'l', 'd', 'e', 'c', 'l', ':', ':']

def generationPfx : Bytes :=
  ascii ['m', 'e', 't', 'a', ':', ':', 'g', 'e', 'n', 'e', 'r', 'a', 't', 'i', 'o', 'n', ':', ':']

def schemaPrefixes : List Bytes :=
  [ascii ['s', 'y', 's', ':', ':'],
   catalogPfx,
   ascii ['v', 'i', 'e', 'w', ':', ':'],
   ascii ['v', 'i', 'e', 'w', 's', 'e', 'c', ':', ':'],
   ascii ['m', 'a', 't', 'v', 'i', 'e', 'w', ':', ':'],
   coldeclPfx,
   ascii ['c', 'o', 'l', 'w', 'i', 'd', 't', 'h', ':', ':'],
   generationPfx]

def isSchemaKey (k : Bytes) : Bool := schemaPrefixes.any fun p => p.isPrefixOf k

def touchesSchema (keys : List Bytes) : Bool := keys.any isSchemaKey

def catalogKey (table : Bytes) : Bytes := catalogPfx ++ table

def generationKey (table : Bytes) : Bytes := generationPfx ++ table

def coldeclKey (table : Bytes) : Bytes := coldeclPfx ++ table

/-! ## Table definitions -/

inductive LoadError
  | noSuchTable (table : Bytes)
  | corrupt (message : String)

/-- What the catalog does with stored bytes: `TableDef::decode`, the field `storage_generation`, and
the declared lengths, which leave the definition alone when their record cannot be read. -/
structure DefCodec (D : Type) where
  decode : Bytes → Except String D
  setGeneration : D → UInt64 → D
  setDeclarations : D → Bytes → D

variable {D : Type} (codec : DefCodec D)

/-- The part of `load` up to the declarations. -/
def DefCodec.parse (table : Bytes) (definition generation : Option Bytes) : Except LoadError D :=
  match definition with
  | none => .error (.noSuchTable table)
  | some bytes =>
    match codec.decode bytes with
    | .error e => .error (.corrupt e)
    | .ok d => .ok (codec.setGeneration d (decodeWseq generation))

/-- The part of `load` that merges the declarations in. -/
def DefCodec.declare (d : D) (declarations : Option Bytes) : D :=
  match declarations with
  | some bytes => codec.setDeclarations d bytes
  | none => d

/-! ## Lookups and what they should answer -/

/-- `schemacache::get`, `schemacache::keys` and `catalog::load`. -/
inductive Lookup
  | get (k : Bytes)
  | keys (pfx : Bytes)
  | load (table : Bytes)

/-- `assert_schema_key`: what the callers pass. -/
def Lookup.isSchema : Lookup → Bool
  | .get k => isSchemaKey k
  | .keys pfx => isSchemaKey pfx
  | .load _ => true

inductive Answer (D : Type)
  | value (v : Option Bytes)
  | keys (ks : List Bytes)
  | table (r : Except LoadError D)

def keysUnder (t : Table) (pfx : Bytes) : List Bytes := (rowsUnder t pfx none).map Prod.fst

def DefCodec.definition (t : Table) (table : Bytes) : Except LoadError D :=
  (codec.parse table (t.get (catalogKey table)) (t.get (generationKey table))).map fun d =>
    codec.declare d (t.get (coldeclKey table))

def stored (t : Table) : Lookup → Answer D
  | .get k => .value (t.get k)
  | .keys pfx => .keys (keysUnder t pfx)
  | .load table => .table (codec.definition t table)

/-! ## The caches -/

inductive CacheKey
  | get (k : Bytes)
  | keys (pfx : Bytes)
  deriving DecidableEq

/-- `Read`. -/
inductive Cached
  | value (v : Option Bytes)
  | keys (ks : List Bytes)

/-- Reads with the generation they were made at, each key once. -/
abbrev Cache := List (CacheKey × Nat × Cached)

def maxEntries : Nat := 16384

def Cache.cached (c : Cache) (key : CacheKey) (generation : Nat) : Option Cached :=
  match c.find? fun e => e.1 = key with
  | some e => if e.2.1 = generation then some e.2.2 else none
  | none => none

/-- `store`: a full cache is cleared first. -/
def Cache.store (c : Cache) (key : CacheKey) (generation : Nat) (read : Cached) : Cache :=
  let c := if maxEntries ≤ c.length then [] else c
  (key, generation, read) :: c.filter fun e => e.1 ≠ key

/-- `catalog_cache`: definitions with the epoch and the generation they were read at. -/
abbrev Defs (D : Type) := List (Bytes × (Nat × Nat) × D)

def Defs.cached (c : Defs D) (table : Bytes) (tag : Nat × Nat) : Option D :=
  match c.find? fun e => e.1 = table with
  | some e => if e.2.1 = tag then some e.2.2 else none
  | none => none

def Defs.store (c : Defs D) (table : Bytes) (tag : Nat × Nat) (d : D) : Defs D :=
  (table, tag, d) :: c.filter fun e => e.1 ≠ table

/-! ## A point lookup -/

/-- Where `get` stands: the generation is loaded; the cache had no entry for it; the value is read;
the value is returned. -/
inductive GetPhase
  | tagged
  | missed
  | read (v : Option Bytes)
  | done (v : Option Bytes)

/-- A call of `get`. `began` is the moment at which it began. -/
structure GetRun where
  key : Bytes
  generation : Nat
  began : Nat
  phase : GetPhase

def GetRun.start (store : Versioned Storage) (k : Bytes) : GetRun :=
  ⟨k, store.version, store.today, .tagged⟩

def GetRun.advance (kv : Table) (cache : Cache) (r : GetRun) : GetRun × Cache :=
  match r.phase with
  | .tagged =>
    match cache.cached (.get r.key) r.generation with
    | some (.value v) => ({ r with phase := .done v }, cache)
    | _ => ({ r with phase := .missed }, cache)
  | .missed => ({ r with phase := .read (kv.get r.key) }, cache)
  | .read v => ({ r with phase := .done v }, cache.store (.get r.key) r.generation (.value v))
  | .done _ => (r, cache)

/-! ## A listing -/

/-- `BATCH`. -/
def listBatch : Nat := 4096

/-- Where `keys` stands: as for `get`, with the keys of the batches read so far. -/
inductive KeysPhase
  | tagged
  | scanning (ks : List Bytes)
  | read (ks : List Bytes)
  | done (ks : List Bytes)

structure KeysRun where
  pfx : Bytes
  generation : Nat
  began : Nat
  phase : KeysPhase

def KeysRun.start (store : Versioned Storage) (pfx : Bytes) : KeysRun :=
  ⟨pfx, store.version, store.today, .tagged⟩

/-- Every batch is a read of its own; one shorter than the limit is the last. -/
def KeysRun.scan (kv : Table) (pfx : Bytes) (ks : List Bytes) : KeysPhase :=
  let batch := Table.scanBatch kv pfx ks.getLast? listBatch
  let ks := ks ++ batch.map Prod.fst
  if batch.length = listBatch then .scanning ks else .read ks

def KeysRun.advance (kv : Table) (cache : Cache) (r : KeysRun) : KeysRun × Cache :=
  match r.phase with
  | .tagged =>
    match cache.cached (.keys r.pfx) r.generation with
    | some (.keys ks) => ({ r with phase := .done ks }, cache)
    | _ => ({ r with phase := .scanning [] }, cache)
  | .scanning ks => ({ r with phase := KeysRun.scan kv r.pfx ks }, cache)
  | .read ks => ({ r with phase := .done ks }, cache.store (.keys r.pfx) r.generation (.keys ks))
  | .done _ => (r, cache)

/-! ## A table definition -/

/-- Where `load` stands: the tag is loaded; the cache had no entry for it; the definition is read;
the declarations are being looked up; the definition or an error is returned. -/
inductive LoadPhase (D : Type)
  | tagged
  | missed
  | parsed (d : D)
  | declaring (d : D) (run : GetRun)
  | done (r : Except LoadError D)

structure LoadRun (D : Type) where
  table : Bytes
  tag : Nat × Nat
  began : Nat
  phase : LoadPhase D

/-- The tag is `cache_tag`: the epoch and the generation. -/
def LoadRun.start (store : Versioned Storage) (epoch : Nat) (table : Bytes) : LoadRun D :=
  ⟨table, (epoch, store.version), store.today, .tagged⟩

def LoadRun.advance (store : Versioned Storage) (cache : Cache) (defs : Defs D) (r : LoadRun D) :
    LoadRun D × Cache × Defs D :=
  match r.phase with
  | .tagged =>
    match defs.cached r.table r.tag with
    | some d => ({ r with phase := .done (.ok d) }, cache, defs)
    | none => ({ r with phase := .missed }, cache, defs)
  | .missed =>
    match codec.parse r.table (store.now.kv.get (catalogKey r.table))
        (store.now.kv.get (generationKey r.table)) with
    | .error e => ({ r with phase := .done (.error e) }, cache, defs)
    | .ok d => ({ r with phase := .parsed d }, cache, defs)
  | .parsed d =>
    ({ r with phase := .declaring d (GetRun.start store (coldeclKey r.table)) }, cache, defs)
  | .declaring d run =>
    match run.phase with
    | .done v =>
      ({ r with phase := .done (.ok (codec.declare d v)) }, cache,
        defs.store r.table r.tag (codec.declare d v))
    | _ =>
      ({ r with phase := .declaring d (run.advance store.now.kv cache).1 },
        (run.advance store.now.kv cache).2, defs)
  | .done _ => (r, cache, defs)

/-! ## Lookups inside a transaction -/

/-- The batches that list what a transaction sees under a prefix. -/
def ownKeys (tx : TxnState) (pfx : Bytes) : List Bytes :=
  (tx.scanAll pfx listBatch
    ((TxnState.batchVisible tx.snapshot tx.overlay pfx none).length + 1) none).map Prod.fst

def ownLookup (tx : TxnState) : Lookup → Answer D
  | .get k => .value (tx.get k).1
  | .keys pfx => .keys (ownKeys tx pfx)
  | .load table =>
    let values := (tx.multiGet [catalogKey table, generationKey table]).1
    .table ((codec.parse table values[0]?.join values[1]?.join).map fun d =>
      codec.declare d (tx.get (coldeclKey table)).1)

/-! ## The system -/

/-- A lookup in progress or just finished. Those of a transaction read nothing that others change,
and are one step. -/
inductive Task (D : Type)
  | get (r : GetRun)
  | keys (r : KeysRun)
  | load (r : LoadRun D)
  | own (q : Lookup) (a : Answer D)

namespace Task

def lookup : Task D → Lookup
  | .get r => .get r.key
  | .keys r => .keys r.pfx
  | .load r => .load r.table
  | .own q _ => q

def began : Task D → Nat
  | .get r => r.began
  | .keys r => r.began
  | .load r => r.began
  | .own _ _ => 0

def answer : Task D → Option (Answer D)
  | .get ⟨_, _, _, .done v⟩ => some (.value v)
  | .keys ⟨_, _, _, .done ks⟩ => some (.keys ks)
  | .load ⟨_, _, _, .done r⟩ => some (.table r)
  | .own _ a => some a
  | _ => none

/-- Some of its reads are made and others are not. -/
def betweenReads : Task D → Bool
  | .keys ⟨_, _, _, .scanning (_ :: _)⟩ => true
  | .load ⟨_, _, _, .parsed _⟩ => true
  | .load ⟨_, _, _, .declaring _ _⟩ => true
  | _ => false

def loadsGeneration : Task D → Bool
  | .load ⟨_, _, _, .parsed _⟩ => true
  | _ => false

end Task

structure Session (D : Type) where
  txn : Option TxnState
  task : Option (Task D)

/-- The store with its generation, the catalog epoch, the caches and the sessions. -/
structure State (D : Type) where
  store : Versioned Storage
  epoch : Nat
  cache : Cache
  defs : Defs D
  sessions : List (Session D)

/-- A process that has opened a database, with sessions that have done nothing yet. -/
def State.start (store : Storage) (generation epoch sessions : Nat) : State D :=
  ⟨Versioned.start store generation, epoch, [], [], List.replicate sessions ⟨none, none⟩⟩

inductive Act
  /-- A write transaction of any session, or of the stream a replica applies. -/
  | write (w : WriteTxn)
  /-- `bump_schema_generation` after a commit. -/
  | bump
  /-- A bump for another database of the process. -/
  | bumpElsewhere
  /-- `bump_epoch`. -/
  | bumpEpoch
  | begin (i : Nat) (readOnly : Bool) (isolation : Isolation)
  | call (i : Nat) (budget : Nat) (op : TxnOp)
  /-- The transaction is taken out of the session, by `COMMIT` or `ROLLBACK`. -/
  | endTxn (i : Nat)
  | start (i : Nat) (q : Lookup)
  | advance (i : Nat)
  | finish (i : Nat)

namespace State

def setSession (s : State D) (i : Nat) (sess : Session D) : State D :=
  { s with sessions := s.sessions.set i sess }

/-- The first step of a lookup. -/
def begun (s : State D) (txn : Option TxnState) (q : Lookup) : Task D :=
  match txn, q with
  | some tx, q => .own q (ownLookup codec tx q)
  | none, .get k => .get (GetRun.start s.store k)
  | none, .keys pfx => .keys (KeysRun.start s.store pfx)
  | none, .load table => .load (LoadRun.start s.store s.epoch table)

/-- The next step of a lookup, with the caches after it. -/
def advanced (s : State D) : Task D → Task D × Cache × Defs D
  | .get r => (.get (r.advance s.store.now.kv s.cache).1,
      (r.advance s.store.now.kv s.cache).2, s.defs)
  | .keys r =>
    (.keys (r.advance s.store.now.kv s.cache).1, (r.advance s.store.now.kv s.cache).2, s.defs)
  | .load r =>
    let next := r.advance codec s.store s.cache s.defs
    (.load next.1, next.2)
  | .own q a => (.own q a, s.cache, s.defs)

/-- A session runs its lookups and its other calls one at a time. -/
def step (s : State D) : Act → Option (State D)
  | .write w =>
    match w.run s.store.now with
    | some store => some { s with store := s.store.change store (touchesSchema w.keys) }
    | none => some s
  | .bump =>
    if 0 < s.store.due then some { s with store := s.store.raise (s.store.due - 1) } else none
  | .bumpElsewhere => some { s with store := s.store.raise s.store.due }
  | .bumpEpoch => some { s with epoch := s.epoch + 1 }
  | .begin i readOnly isolation =>
    match s.sessions[i]? with
    | some ⟨_, none⟩ =>
      some (s.setSession i ⟨some (TxnState.start s.store.now.kv readOnly isolation), none⟩)
    | _ => none
  | .call i budget op =>
    match s.sessions[i]? with
    | some ⟨some tx, none⟩ => some (s.setSession i ⟨some (tx.exec budget op).2, none⟩)
    | _ => none
  | .endTxn i =>
    match s.sessions[i]? with
    | some ⟨_, none⟩ => some (s.setSession i ⟨none, none⟩)
    | _ => none
  | .start i q =>
    match s.sessions[i]? with
    | some ⟨txn, none⟩ =>
      if q.isSchema then some (s.setSession i ⟨txn, some (s.begun codec txn q)⟩) else none
    | _ => none
  | .advance i =>
    match s.sessions[i]? with
    | some ⟨txn, some task⟩ =>
      let next := s.advanced codec task
      some { s with
        cache := next.2.1, defs := next.2.2, sessions := s.sessions.set i ⟨txn, some next.1⟩ }
    | _ => none
  | .finish i =>
    match s.sessions[i]? with
    | some ⟨txn, some task⟩ =>
      if task.answer.isSome then some (s.setSession i ⟨txn, none⟩) else none
    | _ => none

/-- Every answer given outside a transaction was stored while the lookup ran, and every answer given
inside one is what the snapshot says with the buffered writes laid over it. -/
def Fresh (s : State D) : Prop :=
  ∀ sess ∈ s.sessions, ∀ task, sess.task = some task → ∀ a, task.answer = some a →
    match sess.txn with
    | none => s.store.Sometime task.began fun store => stored codec store.kv task.lookup = a
    | some tx => stored codec tx.view task.lookup = a

end State

end ElyraSql.Schema
