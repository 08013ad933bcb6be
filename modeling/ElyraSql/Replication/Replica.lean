import ElyraSql.Replication.Primary

/-!
# A primary and a replica

`run_replica` of `elyra-server/src/repl.rs` next to the primary. The replica keeps the LSN that it
has reached under a key of its own table, and tells it to the primary when it connects again; when
its process ends, the next one starts with an empty file (`elyra-cli/src/main.rs`). Other replicas
are there as other connections of the primary.
-/

namespace ElyraSql.Replication

open OrderedMap

def replLsnKey : Bytes :=
  ascii ['m', 'e', 't', 'a', ':', ':', 'r', 'e', 'p', 'l', ':', ':', 'l', 's', 'n']

def lsnBytes (lsn : Nat) : Bytes × Bytes := (replLsnKey, leBytes (UInt64.ofNat lsn))

def readAppliedLsn (t : Table) : Nat := (decodeCounter (t.get replLsnKey)).toNat

/-- The connection of the replica, and the last LSN it has reported on it. -/
structure Link where
  id : Nat
  reported : Option Nat := none
  deriving DecidableEq, Repr

structure System where
  primary : Primary
  replica : Storage
  link : Option Link := none

inductive SystemStep
  | primary (a : PrimaryStep)
  | connect
  /-- The replica takes the next message of its connection. -/
  | receive
  /-- The replica finds its connection closed. -/
  | disconnect
  /-- The process of the replica ends and a new one is started. -/
  | restartReplica

def emptyStorage : Storage := ⟨OMap.empty, 0⟩

/-- What `run_replica` commits for a message. -/
def commitMsg (r : Storage) : ReplMsg → Storage
  | .resync => r
  | .snap pairs => (r.apply pairs []).2
  | .snapEnd lsn => (r.apply [lsnBytes lsn] []).2
  | .write e => (r.apply (e.puts ++ [lsnBytes e.lsn]) e.deletes).2

namespace System

variable (policy : SyncPolicy) (chunk : Nat)

/-- The loop of `run_replica`. -/
def handle (s : System) (l : Link) : ReplMsg → System
  | .resync => { s with replica := emptyStorage, link := none }
  | m =>
    { s with
      replica := commitMsg s.replica m
      link := some { l with reported := m.lsn?.or l.reported } }

def step (s : System) : SystemStep → Option System
  | .primary a => (s.primary.step policy chunk a).map fun p => { s with primary := p }
  | .connect => some { s with
      primary := s.primary.register (readAppliedLsn s.replica.kv)
      link := some { id := s.primary.nextReplica } }
  | .receive => s.link.bind fun l =>
    match s.primary.wires.get l.id with
    | some (m :: wire) =>
      some (handle { s with
        primary := { s.primary with wires := s.primary.wires.insert l.id wire } } l m)
    | _ => none
  | .disconnect => some { s with link := none }
  | .restartReplica => some { s with replica := emptyStorage, link := none }

/-- A primary on this file, with a new binlog or without one, and an empty replica. -/
def start (storage : Storage) (binlog : Bool) : System :=
  { primary := Primary.restart { storage := storage, binlog := if binlog then some {} else none }
    replica := emptyStorage }

end System

/-! ## Conditions -/

/-- The keys that primary and replica keep for themselves. -/
def Bookkeeping (k : Bytes) : Prop := k = wseqKey ∨ k = replLsnKey ∨ k = flushSeqKey

instance : DecidablePred Bookkeeping := fun _ => instDecidableOr

def committed (jobs : List (WriteJob × Except Error Unit)) : List WriteJob :=
  (jobs.filter (·.2.isOk)).map (·.1)

/-- The jobs whose transaction is committed and which are not in the binlog yet. -/
def Primary.pending (p : Primary) : List WriteJob :=
  match p.stage with
  | .logged _ | .done _ => committed p.jobs.tail
  | .applied | .publishing | .numbered _ => committed p.jobs

/-- The LSN counter is ahead of the binlog. -/
def Stage.isNumbered : Stage → Bool
  | .numbered _ => true
  | .applied | .publishing | .logged _ | .done _ => false

/-- The conditions under which a step cannot make the replica diverge. -/
def SafeStep (s : System) : SystemStep → Prop
  | .primary (.submit job) => ∀ e ∈ GroupCommitLemmas.published job, e.1 ≠ replLsnKey
  | .primary (.writer .number) => s.primary.lsn + 1 < 2 ^ 64
  | .primary (.handler id .readLsn) =>
    (∃ l ∈ s.link, l.id = id) → ∀ h ∈ s.primary.handlers.get id,
      -- a replica that gets all rows has none, and an LSN to catch up to is in the binlog
      if 0 < h.lastLsn ∧ h.lastLsn ≤ s.primary.lsn then
        s.primary.binlog.isSome → s.primary.stage.isNumbered = false
      else ∀ e ∈ s.replica.kv.entries, Bookkeeping e.1
  | .primary (.handler id .readSince) =>
    (∃ l ∈ s.link, l.id = id) → ∀ h ∈ s.primary.handlers.get id,
      -- nothing has been purged since the handler looked
      ((s.primary.binlog.bind (·.earliestLsn)).any fun e => decide (e ≤ h.lastLsn + 1)) = true
  | .primary .restart =>
    ∀ f ∈ s.primary.binlog, s.primary.pending = [] ∧ f.maxLsn = s.primary.lsn
  | _ => True

end ElyraSql.Replication
