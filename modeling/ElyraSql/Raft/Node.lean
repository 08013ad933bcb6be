import ElyraSql.Raft.Log

/-!
# The nodes of a cluster

`elyra-server/src/cluster.rs` with a fixed membership of `N` nodes. A node guards its election
state, its log, its waiters and its progress table by separate locks, so a step is one lock section:
what a function knows from an earlier one is kept in the program counter of the main loop, in a
handler or in a checked proposal.

Messages stay in the network: they are delivered late, never or more than once. A crash loses
everything but the files. No step reads the history of applied, counted and answered entries.
-/

namespace ElyraSql.Raft

variable {N : Nat} {Op : Type}

-- Shortcuts for nodes: the search would go through the order of `Fin N`, and through successors.
scoped instance lawfulFin : LawfulBEq (Fin N) := inferInstance

scoped instance neZeroTwo : NeZero 2 := ⟨by decide⟩

scoped instance neZeroThree : NeZero 3 := ⟨by decide⟩

inductive Role
  | follower
  | candidate
  | leader
  deriving DecidableEq, Repr

/-- Replication progress of a follower (`next`, `match_`). -/
structure Progress where
  next : Nat
  matched : Nat
  deriving DecidableEq, Repr

/-! ## Messages -/

structure RequestVote (N : Nat) where
  term : Nat
  candidate : Fin N
  lastLogIndex : Nat
  lastLogTerm : Nat
  deriving DecidableEq, Repr

/-- `Msg::Vote`, with the call it answers. -/
structure VoteReply (N : Nat) where
  voter : Fin N
  candidate : Fin N
  requestTerm : Nat
  term : Nat
  granted : Bool
  deriving DecidableEq, Repr

structure AppendEntries (N : Nat) (Op : Type) where
  term : Nat
  leader : Fin N
  dest : Fin N
  prevIndex : Nat
  prevTerm : Nat
  entries : List (LogEntry Op)
  leaderCommit : Nat
  compactIndex : Nat
  deriving DecidableEq, Repr

/-- `Msg::AppendAck`, with the call it answers. -/
structure AppendAck (N : Nat) where
  follower : Fin N
  leader : Fin N
  requestTerm : Nat
  term : Nat
  success : Bool
  matchIndex : Nat
  deriving DecidableEq, Repr

inductive Msg (N : Nat) (Op : Type)
  | requestVote (m : RequestVote N)
  | vote (m : VoteReply N)
  | appendEntries (m : AppendEntries N Op)
  | appendAck (m : AppendAck N)
  deriving DecidableEq, Repr

/-! ## Nodes -/

/-- Where the main loop stands between two lock sections. -/
inductive MainLoop (N : Nat) (Op : Type)
  | idle
  /-- `start_election`, votes coming in from these peers -/
  | electing (term : Nat) (votes : List (Fin N))
  /-- elected, progress not yet initialised -/
  | won (term : Nat)
  /-- progress initialised, no-op not yet appended -/
  | progressSet (term : Nat)
  /-- `replicate_round`, leadership checked -/
  | syncing (term : Nat)
  /-- log synced, compaction point not yet chosen -/
  | choosing (term leaderCommit : Nat)
  /-- peers still to be sent to -/
  | sending (term leaderCommit compactIndex : Nat) (todo : List (Fin N))
  | collecting (term compactIndex : Nat)
  /-- entries applied, waiters not yet answered -/
  | resolving (term compactIndex : Nat) (applied : List (LogEntry Op))
  | compacting (compactIndex : Nat)
  /-- stepped down, waiters not yet failed -/
  | draining
  deriving DecidableEq, Repr

/-- An `on_append_entries` call after its first lock section. -/
inductive Handler (N : Nat) (Op : Type)
  | drain (req : AppendEntries N Op)
  | append (req : AppendEntries N Op)
  | compact (req : AppendEntries N Op) (matchIndex : Nat)
  | reply (req : AppendEntries N Op) (success : Bool) (matchIndex : Nat)
  deriving DecidableEq, Repr

/-- The term in which a handler is about to append. -/
def Handler.appendTerm : Handler N Op → Option Nat
  | .append req => some req.term
  | _ => none

/-- A client waiting in `pending`, with the operation it proposed and the term it was checked
in. -/
structure Waiter (Op : Type) where
  term : Nat
  op : Op
  deriving DecidableEq, Repr

/-- `Node`. `saved` is the file with the election state, `proposals` are the calls of `propose`
past the leadership check. -/
structure Node (N : Nat) (Op : Type) where
  term : Nat
  votedFor : Option (Fin N)
  role : Role
  saved : Nat × Option (Fin N)
  log : RaftLog Op
  pending : List (Nat × Waiter Op)
  progress : Fin N → Option Progress
  main : MainLoop N Op
  handlers : List (Handler N Op)
  proposals : List (Nat × Op)

def peers (n : Fin N) : List (Fin N) := (List.finRange N).filter (· ≠ n)

def majority (N : Nat) : Nat := N / 2 + 1

namespace Node

/-- `Node::new` on the state file and a log. -/
def start (saved : Nat × Option (Fin N)) (log : RaftLog Op) : Node N Op where
  term := saved.1
  votedFor := saved.2
  role := .follower
  saved := saved
  log := log
  pending := []
  progress := fun _ => none
  main := .idle
  handlers := []
  proposals := []

def persistState (x : Node N Op) : Node N Op := { x with saved := (x.term, x.votedFor) }

/-- Adopt a later term as a follower. -/
def adoptTerm (x : Node N Op) (term : Nat) : Node N Op :=
  { x with term := term, votedFor := none, role := .follower }

/-- The candidate gets the vote: it asks for this term, no one else has the vote, and its log is
up to date. -/
def grants (x : Node N Op) (m : RequestVote N) : Bool :=
  m.term == x.term && (x.votedFor.isNone || x.votedFor == some m.candidate) &&
    x.log.isUpToDate m.lastLogTerm m.lastLogIndex

/-- `on_request_vote`. A leader is demoted here without failing its waiters. -/
def onRequestVote (x : Node N Op) (m : RequestVote N) : Bool × Node N Op :=
  let x₁ := if x.term < m.term then x.adoptTerm m.term else x
  let granted := x₁.grants m
  let x₂ := if granted then { x₁ with votedFor := some m.candidate } else x₁
  (granted, if decide (x.term < m.term) || granted then x₂.persistState else x₂)

/-- The first lock section of `on_append_entries`, for a term that is not stale. -/
def onAppendEntries (x : Node N Op) (req : AppendEntries N Op) : Node N Op :=
  let h := if x.role = .leader then .drain req else .append req
  { (if x.term < req.term then x.adoptTerm req.term else { x with role := .follower }).persistState
    with handlers := x.handlers ++ [h] }

/-- The first lock section of `start_election`. -/
def standForElection (x : Node N Op) (self : Fin N) : Node N Op :=
  { x with term := x.term + 1, role := .candidate, votedFor := some self,
           main := .electing (x.term + 1) [] }.persistState

/-- A reply with a later term, in an election or a round. -/
def stepDownTo (x : Node N Op) (term : Nat) (main : MainLoop N Op) : Node N Op :=
  { (x.adoptTerm term).persistState with main := main }

def initProgress (x : Node N Op) (self : Fin N) : Fin N → Option Progress :=
  fun p => if p ∈ peers self then some ⟨x.log.lastIndex + 1, 0⟩ else none

/-- The compaction point: what every follower has, or what is applied if there is none. -/
def compactPoint (x : Node N Op) (self : Fin N) : Nat :=
  if (peers self).isEmpty then x.log.lastApplied
  else (((peers self).map fun p => ((x.progress p).map (·.matched)).getD 0).min?).getD 0

/-- The `AppendEntries` for a peer. -/
def appendRequest (x : Node N Op) (self p : Fin N) (term leaderCommit compactIndex : Nat) :
    AppendEntries N Op :=
  let prevIndex := ((x.progress p).map (·.next)).getD 1 - 1
  { term := term, leader := self, dest := p, prevIndex := prevIndex
    prevTerm := (x.log.termAt prevIndex).getD 0
    entries := x.log.entriesAfter prevIndex
    leaderCommit := leaderCommit, compactIndex := compactIndex }

/-- Progress after an acknowledgement (`take_reply`). -/
def takeAck (x : Node N Op) (m : AppendAck N) : Fin N → Option Progress :=
  let p := (x.progress m.follower).getD ⟨1, 0⟩
  Function.update x.progress m.follower
    (some (if m.success then ⟨m.matchIndex + 1, m.matchIndex⟩
      else if 1 < p.next then { p with next := p.next - 1 } else p))

/-- The match indexes counted for commit: the leader's own last index first. -/
def matchIndexes (x : Node N Op) (self : Fin N) : List Nat :=
  x.log.lastIndex :: (peers self).filterMap fun p => (x.progress p).map (·.matched)

/-- The log in memory when a crash falls into an append to its file, by the `k`-th handler or by the
main loop. -/
def writing (x : Node N Op) : Option Nat → RaftLog Op
  | none => x.log
  | some k =>
    match x.handlers[k]? with
    | some (.append req) => x.log.appending req.prevIndex req.prevTerm req.entries
    | _ => x.log

def lookupWaiter (x : Node N Op) (index : Nat) : Option (Waiter Op) :=
  (x.pending.find? (·.1 = index)).map (·.2)

end Node

/-! ## The cluster -/

/-- A waiter answered after the local apply of the entry at its index. -/
structure Answer (N : Nat) (Op : Type) where
  node : Fin N
  index : Nat
  waiter : Waiter Op
  entry : LogEntry Op
  ok : Bool

/-- `applied` lists the entries nodes took for application, `counted` the entries a leader
counted as committed, with its term. -/
structure Cluster (N : Nat) (Op : Type) where
  nodes : Fin N → Node N Op
  net : List (Msg N Op)
  applied : List (Fin N × LogEntry Op)
  counted : List (Nat × LogEntry Op)
  answered : List (Answer N Op)

inductive Step (N : Nat) (Op : Type)
  | propose (n : Fin N) (op : Op)
  | proposeAppend (n : Fin N) (k : Nat)
  | startElection (n : Fin N)
  | requestVote (n : Fin N) (m : RequestVote N)
  | voteReply (n : Fin N) (m : VoteReply N)
  | closeElection (n : Fin N)
  | initProgress (n : Fin N)
  | appendNoop (n : Fin N)
  | appendEntries (n : Fin N) (req : AppendEntries N Op)
  | handlerDrain (n : Fin N) (k : Nat)
  | handlerAppend (n : Fin N) (k : Nat)
  | handlerCompact (n : Fin N) (k : Nat)
  | handlerReply (n : Fin N) (k : Nat)
  | beginRound (n : Fin N)
  | syncLog (n : Fin N)
  | choosePoint (n : Fin N)
  | send (n : Fin N) (ship : Bool)
  | takeReply (n : Fin N) (m : AppendAck N)
  | advance (n : Fin N)
  | resolve (n : Fin N) (failed : List Nat)
  | compactLog (n : Fin N)
  | stepDown (n : Fin N)
  | drain (n : Fin N)
  | crash (n : Fin N) (k : Option Nat) (w : Cut Op)
  | crashCompacting (n : Fin N) (upTo : Nat) (behind : List (LogEntry Op) × Bool)

namespace Cluster

def init : Cluster N Op where
  nodes := fun _ => Node.start (0, none) RaftLog.empty
  net := []
  applied := []
  counted := []
  answered := []

def set (c : Cluster N Op) (n : Fin N) (x : Node N Op) : Cluster N Op :=
  { c with nodes := Function.update c.nodes n x }

def post (c : Cluster N Op) (n : Fin N) (x : Node N Op) (ms : List (Msg N Op)) : Cluster N Op :=
  { c.set n x with net := ms ++ c.net }

variable [DecidableEq Op] (noop : Op)

/-- Steps of the clients: `propose` checks leadership in one section and appends in another. -/
def stepPropose (c : Cluster N Op) (n : Fin N) (k : Nat) : Option (Cluster N Op) :=
  let x := c.nodes n
  match x.proposals[k]? with
  | none => none
  | some (term, op) =>
    some (c.set n { x with
      log := x.log.leaderAppend term op
      pending := (x.log.lastIndex + 1, ⟨term, op⟩) ::
        x.pending.filter (·.1 ≠ x.log.lastIndex + 1)
      proposals := x.proposals.eraseIdx k })

/-- The log section of `on_append_entries`. -/
def stepHandlerAppend (c : Cluster N Op) (n : Fin N) (k : Nat) (req : AppendEntries N Op) :
    Cluster N Op :=
  let x := c.nodes n
  match x.log.appendEntries req.prevIndex req.prevTerm req.entries with
  | none => c.set n { x with handlers := x.handlers.set k (.reply req false 0) }
  | some log =>
    let log := log.advanceCommit req.leaderCommit
    let r := log.takeApplicable
    { c.set n { x with log := r.2, handlers := x.handlers.set k (.compact req log.lastIndex) } with
      applied := r.1.map (n, ·) ++ c.applied }

/-- Steps of the `AppendEntries` handlers. -/
def stepHandler (c : Cluster N Op) (n : Fin N) (k : Nat) : Handler N Op → Cluster N Op
  | .drain req =>
    c.set n { c.nodes n with
      pending := [], handlers := (c.nodes n).handlers.set k (.append req) }
  | .append req => c.stepHandlerAppend n k req
  | .compact req matchIndex =>
    c.set n { c.nodes n with
      log := (c.nodes n).log.compact req.compactIndex
      handlers := (c.nodes n).handlers.set k (.reply req true matchIndex) }
  | .reply req success matchIndex =>
    c.post n { c.nodes n with handlers := (c.nodes n).handlers.eraseIdx k }
      [.appendAck ⟨n, req.leader, req.term, (c.nodes n).term, success, matchIndex⟩]

/-- `advance_commit_and_apply` up to the end of its log section. -/
def stepAdvance (c : Cluster N Op) (n : Fin N) (term compactIndex : Nat) : Cluster N Op :=
  let x := c.nodes n
  let log := x.log.maybeCommit (x.matchIndexes n) term
  let r := log.takeApplicable
  let main := if r.1.isEmpty then .compacting compactIndex
    else .resolving term compactIndex r.1
  { c.set n { x with log := r.2, main := main } with
    applied := r.1.map (n, ·) ++ c.applied
    counted := (log.entries.filter fun e =>
      x.log.commitIndex < e.index ∧ e.index ≤ log.commitIndex).map (term, ·) ++ c.counted }

/-- The waiters of the applied indexes get the results of the local applies. -/
def stepResolve (c : Cluster N Op) (n : Fin N) (compactIndex : Nat)
    (entries : List (LogEntry Op)) (failed : List Nat) : Cluster N Op :=
  let x := c.nodes n
  { c.set n { x with
      pending := x.pending.filter fun w => w.1 ∉ entries.map (·.index)
      main := .compacting compactIndex } with
    answered := entries.filterMap (fun e => (x.lookupWaiter e.index).map fun w =>
      ⟨n, e.index, w, e, decide (e.index ∉ failed)⟩) ++ c.answered }

/-- One lock section of a node, or a crash. -/
def step (c : Cluster N Op) : Step N Op → Option (Cluster N Op)
  | .propose n op =>
    let x := c.nodes n
    if x.role = .leader then
      some (c.set n { x with proposals := x.proposals ++ [(x.term, op)] })
    else none
  | .proposeAppend n k => c.stepPropose n k
  | .startElection n =>
    let x := c.nodes n
    if x.main = .idle ∧ x.role ≠ .leader then
      some (c.post n (x.standForElection n)
        [.requestVote ⟨x.term + 1, n, x.log.lastIndex, x.log.lastTerm⟩])
    else none
  | .requestVote n m =>
    if .requestVote m ∈ c.net ∧ m.candidate ≠ n then
      let r := (c.nodes n).onRequestVote m
      some (c.post n r.2 [.vote ⟨n, m.candidate, m.term, r.2.term, r.1⟩])
    else none
  | .voteReply n m =>
    let x := c.nodes n
    match x.main with
    | .electing term votes =>
      if .vote m ∈ c.net ∧ m.candidate = n ∧ m.requestTerm = term then
        if x.term < m.term then some (c.set n (x.stepDownTo m.term .idle))
        else if m.granted ∧ x.role = .candidate ∧ x.term = term ∧ m.voter ∉ votes then
          some (c.set n { x with main := .electing term (m.voter :: votes) })
        else some c
      else none
    | _ => none
  | .closeElection n =>
    let x := c.nodes n
    match x.main with
    | .electing term votes =>
      if x.role = .candidate ∧ x.term = term ∧ majority N ≤ votes.length + 1 then
        some (c.set n { x with role := .leader, main := .won term })
      else some (c.set n { x with main := .idle })
    | _ => none
  | .initProgress n =>
    let x := c.nodes n
    match x.main with
    | .won term =>
      some (c.set n { x with progress := x.initProgress n, main := .progressSet term })
    | _ => none
  | .appendNoop n =>
    let x := c.nodes n
    match x.main with
    | .progressSet term =>
      some (c.set n { x with log := x.log.leaderAppend term noop, main := .idle })
    | _ => none
  | .appendEntries n req =>
    let x := c.nodes n
    if .appendEntries req ∈ c.net ∧ req.dest = n then
      if req.term < x.term then
        some (c.post n x [.appendAck ⟨n, req.leader, req.term, x.term, false, 0⟩])
      else some (c.set n (x.onAppendEntries req))
    else none
  | .handlerDrain n k =>
    match (c.nodes n).handlers[k]? with
    | some (.drain req) => some (c.stepHandler n k (.drain req))
    | _ => none
  | .handlerAppend n k =>
    match (c.nodes n).handlers[k]? with
    | some (.append req) => some (c.stepHandler n k (.append req))
    | _ => none
  | .handlerCompact n k =>
    match (c.nodes n).handlers[k]? with
    | some (.compact req i) => some (c.stepHandler n k (.compact req i))
    | _ => none
  | .handlerReply n k =>
    match (c.nodes n).handlers[k]? with
    | some (.reply req s i) => some (c.stepHandler n k (.reply req s i))
    | _ => none
  | .beginRound n =>
    let x := c.nodes n
    if x.main = .idle ∧ x.role = .leader then
      some (c.set n { x with main := .syncing x.term })
    else none
  | .syncLog n =>
    let x := c.nodes n
    match x.main with
    | .syncing term =>
      some (c.set n { x with log := x.log.sync, main := .choosing term x.log.commitIndex })
    | _ => none
  | .choosePoint n =>
    let x := c.nodes n
    match x.main with
    | .choosing term leaderCommit =>
      some (c.set n { x with
        main := .sending term leaderCommit (x.compactPoint n) (peers n) })
    | _ => none
  | .send n ship =>
    let x := c.nodes n
    match x.main with
    | .sending term leaderCommit compactIndex (p :: todo) =>
      some (c.post n { x with main := .sending term leaderCommit compactIndex todo }
        (if ship then [.appendEntries (x.appendRequest n p term leaderCommit compactIndex)]
          else []))
    | .sending term _ compactIndex [] =>
      some (c.set n { x with main := .collecting term compactIndex })
    | _ => none
  | .takeReply n m =>
    let x := c.nodes n
    match x.main with
    | .collecting term _ =>
      if .appendAck m ∈ c.net ∧ m.leader = n ∧ m.requestTerm = term then
        if term < m.term then
          if x.term < m.term then some (c.set n (x.stepDownTo m.term .draining))
          else some (c.set n { x with main := .idle })
        else some (c.set n { x with progress := x.takeAck m })
      else none
    | _ => none
  | .advance n =>
    match (c.nodes n).main with
    | .collecting term compactIndex => some (c.stepAdvance n term compactIndex)
    | _ => none
  | .resolve n failed =>
    match (c.nodes n).main with
    | .resolving _ compactIndex entries => some (c.stepResolve n compactIndex entries failed)
    | _ => none
  | .compactLog n =>
    let x := c.nodes n
    match x.main with
    | .compacting compactIndex =>
      some (c.set n { x with log := x.log.compact compactIndex, main := .idle })
    | _ => none
  | .stepDown n =>
    let x := c.nodes n
    if x.main = .idle ∧ x.role = .leader then
      some (c.set n { x with role := .follower, main := .draining })
    else none
  | .drain n =>
    let x := c.nodes n
    match x.main with
    | .draining => some (c.set n { x with pending := [], main := .idle })
    | _ => none
  | .crash n k w =>
    let x := c.nodes n
    some (c.set n (Node.start x.saved ((x.writing k).reopen w)))
  | .crashCompacting n upTo behind =>
    let x := c.nodes n
    if x.main = .compacting upTo ∨ x.handlers.any (fun h => match h with
        | .compact req _ => req.compactIndex == upTo
        | _ => false) then
      some (c.set n (Node.start x.saved (x.log.reopenCompacting upTo behind)))
    else none

end Cluster

end ElyraSql.Raft
