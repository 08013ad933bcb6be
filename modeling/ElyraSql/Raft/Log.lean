import Mathlib.Data.List.Sort
import Mathlib.Tactic

/-!
# The replicated log of a node

`elyra-server/src/raftlog.rs`: entries with terms and indexes, the commit and apply cursors, and
the two files behind them, the log file and the sidecar that holds the snapshot boundary. Writes
to the files succeed. The payload of an entry is any type of operations.
-/

namespace ElyraSql.Raft

variable {Op : Type}

structure LogEntry (Op : Type) where
  term : Nat
  index : Nat
  data : Op
  deriving DecidableEq, Repr

/-- `RaftLog`. `file` are the records written to the log file, `boundary` is the content of its
snapshot sidecar. `torn` is set if a record is cut off in the file, to the number of records before
it. -/
structure RaftLog (Op : Type) where
  entries : List (LogEntry Op)
  commitIndex : Nat
  lastApplied : Nat
  persisted : Nat
  snapshotIndex : Nat
  snapshotTerm : Nat
  file : List (LogEntry Op)
  boundary : Nat × Nat
  torn : Option Nat
  deriving DecidableEq, Repr

/-- What a crash leaves in the log file. -/
structure Cut (Op : Type) where
  /-- how many records of the append in progress have reached the file -/
  whole : Nat
  /-- whether one more has in part -/
  part : Bool
  /-- what `open` reads from the bytes behind a record cut off earlier, and whether they end in one
  that is cut off -/
  behind : List (LogEntry Op) × Bool
  deriving DecidableEq, Repr

/-- Nothing is being appended. -/
def Cut.clean : Cut Op := ⟨0, false, [], false⟩

namespace RaftLog

/-- `open`: commit and apply start again at the snapshot boundary. -/
def openFiles (file : List (LogEntry Op)) (boundary : Nat × Nat) : RaftLog Op where
  entries := file
  commitIndex := boundary.1
  lastApplied := boundary.1
  persisted := file.length
  snapshotIndex := boundary.1
  snapshotTerm := boundary.2
  file := file
  boundary := boundary
  torn := none

def empty : RaftLog Op := openFiles [] (0, 0)

def lastIndex (r : RaftLog Op) : Nat := (r.entries.getLast?.map (·.index)).getD r.snapshotIndex

def lastTerm (r : RaftLog Op) : Nat := (r.entries.getLast?.map (·.term)).getD r.snapshotTerm

/-- `term_at`: the boundary answers with its own term, compacted indexes with nothing. -/
def termAt (r : RaftLog Op) (index : Nat) : Option Nat :=
  if index = r.snapshotIndex then some r.snapshotTerm
  else if index < r.snapshotIndex then none
  else (r.entries.find? (·.index = index)).map (·.term)

/-- `persist_appended`: append the entries not yet on disk, behind whatever the file ends in. -/
def persistAppended (r : RaftLog Op) : RaftLog Op :=
  if r.entries.length ≤ r.persisted then r
  else { r with file := r.file ++ r.entries.drop r.persisted, persisted := r.entries.length }

def persistRewrite (r : RaftLog Op) : RaftLog Op :=
  { r with file := r.entries, persisted := r.entries.length, torn := none }

/-- The first half of `compact`: drop the entries and write the boundary, the log file not yet
rewritten. -/
def compactBoundary (r : RaftLog Op) (upTo term : Nat) : RaftLog Op :=
  { r with
    entries := r.entries.filter (upTo < ·.index)
    snapshotIndex := upTo
    snapshotTerm := term
    boundary := (upTo, term) }

def compact (r : RaftLog Op) (upTo : Nat) : RaftLog Op :=
  if upTo ≤ r.snapshotIndex ∨ r.lastApplied < upTo then r
  else
    match r.termAt upTo with
    | none => r
    | some term => (r.compactBoundary upTo term).persistRewrite

/-- `leader_append`: in memory only. -/
def leaderAppend (r : RaftLog Op) (term : Nat) (data : Op) : RaftLog Op :=
  { r with entries := r.entries ++ [⟨term, r.lastIndex + 1, data⟩] }

def sync (r : RaftLog Op) : RaftLog Op :=
  if r.entries.length < r.persisted then r.persistRewrite else r.persistAppended

/-- One turn of the loop of `append_entries`: the entries so far, and whether a suffix was
dropped. -/
def appendStep (acc : List (LogEntry Op) × Bool) (ne : LogEntry Op) :
    List (LogEntry Op) × Bool :=
  match acc.1.findIdx? (·.index = ne.index) with
  | some pos =>
    if (acc.1[pos]?.map (·.term)) = some ne.term then acc
    else (acc.1.take pos ++ [ne], true)
  | none => (acc.1 ++ [ne], acc.2)

/-- `append_entries`: the consistency check, then conflicting suffixes go and new entries are
appended and persisted. -/
def appendEntries (r : RaftLog Op) (prevIndex prevTerm : Nat) (new : List (LogEntry Op)) :
    Option (RaftLog Op) :=
  if r.termAt prevIndex = some prevTerm then
    let acc := new.foldl appendStep (r.entries, false)
    let r := { r with entries := acc.1 }
    some (if acc.2 || decide (r.entries.length < r.persisted) then r.persistRewrite
      else r.persistAppended)
  else none

/-- The log when `append_entries` comes to append to the file. A rewrite goes to another file. -/
def appending (r : RaftLog Op) (prevIndex prevTerm : Nat) (new : List (LogEntry Op)) : RaftLog Op :=
  let acc := new.foldl appendStep (r.entries, false)
  if r.termAt prevIndex = some prevTerm ∧ acc.2 = false ∧ r.persisted ≤ acc.1.length then
    { r with entries := acc.1 }
  else r

def advanceCommit (r : RaftLog Op) (leaderCommit : Nat) : RaftLog Op :=
  let target := min leaderCommit r.lastIndex
  if r.commitIndex < target then { r with commitIndex := target } else r

/-- `maybe_commit`: the median of the match indexes, if it is of the current term. -/
def maybeCommit (r : RaftLog Op) (matchIndexes : List Nat) (currentTerm : Nat) : RaftLog Op :=
  match (matchIndexes.insertionSort (· ≤ ·))[(matchIndexes.length - 1) / 2]? with
  | none => r
  | some majority =>
    if r.commitIndex < majority ∧ r.termAt majority = some currentTerm then
      { r with commitIndex := majority }
    else r

/-- The loop of `take_applicable`, for at most `fuel` entries. -/
def takeFrom (entries : List (LogEntry Op)) : Nat → Nat → List (LogEntry Op)
  | 0, _ => []
  | fuel + 1, next =>
    match entries.find? (·.index = next) with
    | some e => e :: takeFrom entries fuel (next + 1)
    | none => []

/-- `take_applicable`: the committed entries not yet applied, in order. -/
def takeApplicable (r : RaftLog Op) : List (LogEntry Op) × RaftLog Op :=
  let out := takeFrom r.entries (r.commitIndex - r.lastApplied) (r.lastApplied + 1)
  (out, { r with lastApplied := r.lastApplied + out.length })

/-- `is_up_to_date`: the candidate's last entry is not behind ours. -/
def isUpToDate (r : RaftLog Op) (candLastTerm candLastIndex : Nat) : Bool :=
  decide (r.lastTerm < candLastTerm) ||
    (candLastTerm == r.lastTerm && decide (r.lastIndex ≤ candLastIndex))

def entriesAfter (r : RaftLog Op) (index : Nat) : List (LogEntry Op) :=
  r.entries.filter (index < ·.index)

/-- The records in the file after a crash, those behind a record that is cut off included. -/
def written (r : RaftLog Op) (w : Cut Op) : List (LogEntry Op) :=
  r.file ++ (r.entries.drop r.persisted).take w.whole

def cutOff (r : RaftLog Op) (w : Cut Op) : Bool :=
  w.part && decide (w.whole < (r.entries.drop r.persisted).length)

/-- Something stands behind a record that was cut off earlier. -/
def Overrun (r : RaftLog Op) (w : Cut Op) : Prop :=
  ∃ k ∈ r.torn, k < (r.written w).length ∨ r.cutOff w

instance (r : RaftLog Op) (w : Cut Op) : Decidable (r.Overrun w) :=
  inferInstanceAs (Decidable (∃ k ∈ r.torn, _))

/-- Restart after a crash. `open` leaves a record that is cut off in the file. If something stands
behind it, the file gives the records before it and whatever the other bytes are taken for. -/
def reopen (r : RaftLog Op) (w : Cut Op) : RaftLog Op :=
  let opened (file : List (LogEntry Op)) (cut : Bool) :=
    { openFiles file r.boundary with torn := if cut then some file.length else none }
  match r.torn with
  | none => opened (r.written w) (r.cutOff w)
  | some k =>
    if k < (r.written w).length ∨ r.cutOff w then opened (r.file.take k ++ w.behind.1) w.behind.2
    else opened (r.written w) true

/-- Restart after a crash between the two halves of `compact`. -/
def reopenCompacting (r : RaftLog Op) (upTo : Nat) (behind : List (LogEntry Op) × Bool) :
    RaftLog Op :=
  if upTo ≤ r.snapshotIndex ∨ r.lastApplied < upTo then r.reopen ⟨0, false, behind⟩
  else
    match r.termAt upTo with
    | none => r.reopen ⟨0, false, behind⟩
    | some term => (r.compactBoundary upTo term).reopen ⟨0, false, behind⟩

end RaftLog

end ElyraSql.Raft
