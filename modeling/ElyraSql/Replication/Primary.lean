import ElyraSql.Library.Transition
import ElyraSql.Storage.GroupCommit

/-!
# The primary

`elyra-storage/src/db.rs`, `binlog.rs` and `elyra-server/src/repl.rs` in a primary with replicas.
The writer thread applies a group of jobs in one transaction and then gives each its log sequence
number (LSN), appends it to the binlog, puts it on the broadcast channel and answers the commit
call. Each connected replica has a handler, which brings it up to date and then forwards the
channel. A commit call waits for acknowledgements. Each is cut into the steps between which the
others can be seen.
-/

namespace ElyraSql.Replication

open OrderedMap GroupCommitLemmas Option OMap

structure WriteEvent where
  lsn : Nat
  puts : List (Bytes × Bytes)
  deletes : List Bytes
  deriving DecidableEq, Repr

/-! ## The binlog -/

/-- The segments of the binlog with their records: the closed ones in order, and the one in use
unless it has been purged. -/
structure BinlogFiles where
  closed : List (Nat × List WriteEvent) := []
  seq : Nat := 0
  active : Option (List WriteEvent) := none

namespace BinlogFiles

/-- The segments in the directory, in order (`list_seqs`). -/
def listing (f : BinlogFiles) : List (Nat × List WriteEvent) :=
  f.closed ++ (f.active.map fun records => (f.seq, records)).toList

def records (f : BinlogFiles) : List WriteEvent := f.listing.flatMap (·.2)

/-- `BinlogWriter::open`: a new segment after the last one. -/
def start (f : BinlogFiles) : BinlogFiles :=
  ⟨f.listing, (f.listing.getLast?.map (·.1)).getD 0 + 1, some []⟩

/-- `BinlogWriter::append`, with a rotation if the segment is full. A segment that has been purged
takes the record with it. -/
def append (f : BinlogFiles) (e : WriteEvent) (full : Bool) : BinlogFiles :=
  let f := { f with active := f.active.map (· ++ [e]) }
  if full then ⟨f.listing, f.seq + 1, some []⟩ else f

def purge (f : BinlogFiles) (boundary : Nat) : BinlogFiles :=
  { f with
    closed := f.closed.filter fun s => !decide (s.1 < boundary)
    active := if f.seq < boundary then none else f.active }

def earliestLsn (f : BinlogFiles) : Option Nat := f.records.head?.map (·.lsn)

/-- `max_lsn`: only the last segment is looked at. -/
def maxLsn (f : BinlogFiles) : Nat :=
  ((f.listing.getLast?.bind fun s => s.2.getLast?).map (·.lsn)).getD 0

def readSince (f : BinlogFiles) (afterLsn upToLsn : Nat) : List WriteEvent :=
  f.records.filter fun e => decide (afterLsn < e.lsn) && decide (e.lsn ≤ upToLsn)

end BinlogFiles

/-! ## State -/

/-- What a primary sends to a replica. -/
inductive ReplMsg
  | resync
  | snap (pairs : List (Bytes × Bytes))
  | snapEnd (lsn : Nat)
  | write (event : WriteEvent)
  deriving DecidableEq, Repr

/-- The LSN that a message brings the replica to, and that the replica then acknowledges. -/
def ReplMsg.lsn? : ReplMsg → Option Nat
  | .snapEnd lsn => some lsn
  | .write e => some e.lsn
  | .resync | .snap _ => none

structure ReplicaProgress where
  sent : Nat := 0
  acknowledged : Nat := 0
  deriving DecidableEq, Repr

/-- How far `handle_replica` is. -/
inductive HandlerStage
  | registered
  | subscribed
  /-- The catch-up is to be incremental. -/
  | opened
  /-- The binlog was found to reach back far enough. -/
  | covered
  /-- A full snapshot is being sent, and has come to this key. -/
  | paging (cursor : Option Bytes)
  | streaming
  deriving DecidableEq, Repr

/-- `handle_replica` for one connection: `pos` is its place in the broadcast channel. -/
structure Handler where
  lastLsn : Nat
  stage : HandlerStage := .registered
  pos : Nat := 0
  snapLsn : Nat := 0
  deriving DecidableEq, Repr

/-- What the writer has done for the first job of its group. -/
inductive Stage
  | applied
  | publishing
  | numbered (lsn : Nat)
  | logged (lsn : Nat)
  | done (lsn : Option Nat)
  deriving DecidableEq, Repr

inductive CommitPhase
  | answered
  | waiting (target : Nat)
  | returned (ok : Bool)
  deriving DecidableEq, Repr

/-- A commit call that the writer has answered, with the LSN its write set was given. -/
structure Commit where
  job : WriteJob
  lsn : Option Nat
  phase : CommitPhase

/-- The replication policy of commits. -/
structure SyncPolicy where
  required : Nat
  timeoutMs : Nat
  strict : Bool

structure Primary where
  storage : Storage
  /-- Jobs that wait for the writer. -/
  queue : List WriteJob := []
  /-- The writer's group after its transaction, from the job that is being published on. -/
  jobs : List (WriteJob × Except Error Unit) := []
  stage : Stage := .applied
  commits : List Commit := []
  lsn : Nat := 0
  binlog : Option BinlogFiles := none
  /-- The broadcast channel: everything sent in this process. -/
  channel : List WriteEvent := []
  replicas : OMap Nat ReplicaProgress := OMap.empty
  handlers : OMap Nat Handler := OMap.empty
  /-- Connections of earlier processes keep their numbers. -/
  nextReplica : Nat := 0
  /-- What has been handed to `send_msg` on a connection and not been received. -/
  wires : OMap Nat (List ReplMsg) := OMap.empty
  /-- The acknowledgements that were received. -/
  acks : List (Nat × Nat) := []

/-! ## Steps -/

inductive WriterStep
  /-- A group is taken, with this many jobs found behind the first. -/
  | apply (behind : Nat)
  /-- The outcome of the first job and `active` are looked at. -/
  | decide
  | number
  | append (full : Bool)
  | send
  | answer

inductive HandlerStep
  | subscribe
  | readLsn
  | checkEarliest
  | readSince
  | page
  | forward
  /-- The connection is lost, a read fails or the handler has fallen behind. -/
  | stop

inductive CommitStep
  | enter
  | check
  | timeout

inductive PrimaryStep
  | submit (job : WriteJob)
  | writer (a : WriterStep)
  | commit (i : Nat) (a : CommitStep)
  | register (lastLsn : Nat)
  | handler (id : Nat) (a : HandlerStep)
  | ack (id : Nat) (lsn : Nat)
  | unregister (id : Nat)
  | purge (boundary : Nat)
  /-- `Db::flush`, by the writer or when the process is stopped. -/
  | flush (seq : UInt64)
  | restart

namespace Primary

/-- `has_replicas`: some handler holds a receiver of the channel. -/
def hasReplicas (p : Primary) : Bool :=
  p.handlers.entries.any fun e => decide (e.2.stage ≠ .registered)

def active (p : Primary) : Bool := p.binlog.isSome || p.hasReplicas

def ackedCount (p : Primary) (target : Nat) : Nat :=
  (p.replicas.entries.filter fun e => decide (target ≤ e.2.acknowledged)).length

def reportSent (p : Primary) (id lsn : Nat) : Primary :=
  match p.replicas.get id with
  | none => p
  | some r => { p with replicas := p.replicas.insert id { r with sent := max r.sent lsn } }

/-- `report_ack`: what was not sent cannot be acknowledged. -/
def reportAck (p : Primary) (id lsn : Nat) : Primary :=
  match p.replicas.get id with
  | none => p
  | some r =>
    if lsn ≤ r.sent ∧ r.acknowledged < lsn then
      { p with
        replicas := p.replicas.insert id { r with acknowledged := lsn }
        acks := (id, lsn) :: p.acks }
    else p

end Primary

def eventOf (job : WriteJob) (lsn : Nat) : WriteEvent := ⟨lsn, published job, job.deletes⟩

/-- `writer_loop`, `apply_job_group` and `apply_validated_group`, and `Repl::publish`. -/
def Primary.write (p : Primary) : WriterStep → Option Primary
  | .apply behind =>
    match p.jobs, p.queue with
    | [], first :: queue =>
      let d := drainKind first.validation.isSome (min behind (groupCommitMax - 1)) queue
      let r := Writer.applyGroup ⟨p.storage, {}⟩ first d.1
      some { p with
        storage := r.2.storage, queue := d.2, jobs := (first :: d.1).zip r.1, stage := .applied }
    | _, _ => none
  | .decide =>
    match p.stage, p.jobs with
    | .applied, (job, r) :: _ =>
      -- an empty write set is not published
      if r.isOk ∧ p.active ∧ ¬ ((published job).isEmpty ∧ job.deletes.isEmpty) then
        some { p with stage := .publishing }
      else some { p with stage := .done none }
    | _, _ => none
  | .number =>
    match p.stage with
    | .publishing => some { p with lsn := p.lsn + 1, stage := .numbered (p.lsn + 1) }
    | _ => none
  | .append full =>
    match p.stage, p.jobs with
    | .numbered lsn, (job, _) :: _ =>
      some { p with
        binlog := p.binlog.map (·.append (eventOf job lsn) full), stage := .logged lsn }
    | _, _ => none
  | .send =>
    match p.stage, p.jobs with
    | .logged lsn, (job, _) :: _ =>
      some { p with channel := p.channel ++ [eventOf job lsn], stage := .done (some lsn) }
    | _, _ => none
  | .answer =>
    match p.stage, p.jobs with
    | .done lsn, (job, r) :: jobs =>
      let phase := if r.isOk then .answered else .returned false
      some { p with jobs := jobs, stage := .applied, commits := p.commits ++ [⟨job, lsn, phase⟩] }
    | _, _ => none

/-- `await_sync` of the `i`-th commit call. -/
def Primary.awaitSync (policy : SyncPolicy) (p : Primary) (i : Nat) (a : CommitStep) :
    Option Primary :=
  p.commits[i]?.bind fun c =>
    let set := fun phase => some { p with commits := p.commits.set i { c with phase := phase } }
    match a, c.phase with
    | .enter, .answered =>
      if policy.required = 0 ∨ (policy.strict = false ∧ p.hasReplicas = false) then
        set (.returned true)
      else set (.waiting p.lsn)
    | .check, .waiting target =>
      if policy.required ≤ p.ackedCount target then set (.returned true) else none
    | .timeout, .waiting target =>
      if policy.timeoutMs = 0 then none
      else if policy.required ≤ p.ackedCount target then set (.returned true)
      else set (.returned (!policy.strict))
    | _, _ => none

/-- What a handler does in one go: its next state unless it ends, what it sends and what it reports
as sent. -/
structure Turn where
  next : Option Handler
  msgs : List ReplMsg := []
  sent : Option Nat := none

/-- `handle_replica` and `incremental_catchup`. -/
def Handler.turn (chunk : Nat) (p : Primary) (h : Handler) : HandlerStep → Option Turn
  | .subscribe =>
    match h.stage with
    | .registered => some ⟨some { h with stage := .subscribed, pos := p.channel.length }, [], none⟩
    | _ => none
  | .readLsn =>
    match h.stage with
    | .subscribed =>
      if 0 < h.lastLsn ∧ h.lastLsn ≤ p.lsn then
        some ⟨some { h with stage := .opened, snapLsn := p.lsn }, [], none⟩
      else some ⟨some { h with stage := .paging none, snapLsn := p.lsn }, [], none⟩
    | _ => none
  | .checkEarliest =>
    match h.stage with
    | .opened =>
      if (p.binlog.bind (·.earliestLsn)).any fun e => decide (e ≤ h.lastLsn + 1) then
        some ⟨some { h with stage := .covered }, [], none⟩
      else some ⟨none, [.resync], none⟩
    | _ => none
  | .readSince =>
    match h.stage, p.binlog with
    | .covered, some f =>
      some ⟨some { h with stage := .streaming },
        (f.readSince h.lastLsn h.snapLsn).map .write ++ [.snapEnd h.snapLsn], none⟩
    | _, _ => none
  | .page =>
    match h.stage with
    | .paging cursor =>
      let batch := Table.scanBatch p.storage.kv [] cursor chunk
      let msgs := if batch.isEmpty then [] else [.snap batch]
      if batch.length < chunk ∨ batch.isEmpty then
        some ⟨some { h with stage := .streaming }, msgs ++ [.snapEnd h.snapLsn], some h.snapLsn⟩
      else some ⟨some { h with stage := .paging (batch.getLast?.map (·.1)) }, msgs, none⟩
    | _ => none
  | .forward =>
    match h.stage, p.channel[h.pos]? with
    | .streaming, some event =>
      if h.snapLsn < event.lsn then
        some ⟨some { h with pos := h.pos + 1 }, [.write event], some event.lsn⟩
      else some ⟨some { h with pos := h.pos + 1 }, [], none⟩
    | _, _ => none
  | .stop => some ⟨none, [], none⟩

namespace Primary

def setHandler (p : Primary) (id : Nat) (next : Option Handler) : Primary :=
  { p with
    handlers := match next with
      | some h => p.handlers.insert id h
      | none => p.handlers.erase id }

def sendOn (p : Primary) (id : Nat) (msgs : List ReplMsg) : Primary :=
  { p with wires := p.wires.insert id ((p.wires.get id).getD [] ++ msgs) }

def handle (chunk : Nat) (p : Primary) (id : Nat) (a : HandlerStep) : Option Primary :=
  (p.handlers.get id).bind fun h => (h.turn chunk p a).map fun t =>
    let p := (p.setHandler id t.next).sendOn id t.msgs
    match t.sent with
    | some lsn => p.reportSent id lsn
    | none => p

/-- `register_replica` for a new connection. -/
def register (p : Primary) (lastLsn : Nat) : Primary :=
  { p with
    replicas := p.replicas.insert p.nextReplica {}
    handlers := p.handlers.insert p.nextReplica { lastLsn := lastLsn }
    wires := p.wires.insert p.nextReplica []
    nextReplica := p.nextReplica + 1 }

/-- `from_storage` in a new process: the LSN is taken from the binlog. -/
def restart (p : Primary) : Primary :=
  { storage := p.storage
    lsn := (p.binlog.map (·.maxLsn)).getD 0
    binlog := p.binlog.map (·.start)
    nextReplica := p.nextReplica
    wires := p.wires }

/-- One step of the primary, with pages of `chunk` rows. -/
def step (policy : SyncPolicy) (chunk : Nat) (p : Primary) : PrimaryStep → Option Primary
  | .submit job => some { p with queue := p.queue ++ [job] }
  | .writer a => p.write a
  | .commit i a => p.awaitSync policy i a
  | .register lastLsn => some (p.register lastLsn)
  | .handler id a => p.handle chunk id a
  | .ack id lsn => some (p.reportAck id lsn)
  | .unregister id => some { p with replicas := p.replicas.erase id }
  | .purge boundary => some { p with binlog := p.binlog.map (·.purge boundary) }
  | .flush seq => some { p with storage := p.storage.flush seq }
  | .restart => some p.restart

/-- The first start on an empty database, with a binlog or without. -/
def fresh (binlog : Bool) : Primary :=
  restart { storage := ⟨OMap.empty, 0⟩, binlog := if binlog then some {} else none }

/-! ## What the steps keep -/

variable {p p' : Primary}

theorem get_setHandler (p : Primary) (id : Nat) (next : Option Handler) (i : Nat) :
    (p.setHandler id next).handlers.get i = if i = id then next else p.handlers.get i := by
  cases next <;> simp [setHandler]

theorem get_sendOn (p : Primary) (id : Nat) (msgs : List ReplMsg) (i : Nat) :
    (p.sendOn id msgs).wires.get i =
      if i = id then some ((p.wires.get id).getD [] ++ msgs) else p.wires.get i := by
  rw [sendOn, get_insert]

/-- A handler changes itself, its wire and what was sent to its replica. -/
theorem handle_eq {chunk id : Nat} {a : HandlerStep} (h : p.handle chunk id a = some p') :
    ∃ hd t replicas, p.handlers.get id = some hd ∧ hd.turn chunk p a = some t ∧
      p' = { (p.setHandler id t.next).sendOn id t.msgs with replicas := replicas } ∧
      ∀ i, replicas.get i = (p.replicas.get i).map fun r =>
        if i = id then { r with sent := max r.sent (t.sent.getD 0) } else r := by
  obtain ⟨hd, hhd, h⟩ := bind_eq_some_iff.mp h
  obtain ⟨t, ht, rfl⟩ := map_eq_some_iff.mp h
  refine ⟨hd, t, ?_⟩
  cases hs : t.sent with
  | none => exact ⟨p.replicas, hhd, ht, rfl, fun i => by simp⟩
  | some lsn =>
    dsimp only
    unfold reportSent
    rw [show ((p.setHandler id t.next).sendOn id t.msgs).replicas = p.replicas from rfl]
    cases hr : p.replicas.get id with
    | none =>
      refine ⟨p.replicas, hhd, ht, rfl, fun i => ?_⟩
      split_ifs with hi
      · rw [hi, hr]
        rfl
      · exact map_id'.symm
    | some r =>
      refine ⟨p.replicas.insert id { r with sent := max r.sent lsn }, hhd, ht, rfl, fun i => ?_⟩
      rw [get_insert]
      split_ifs with hi
      · rw [hi, hr]
        rfl
      · exact map_id'.symm

/-- The writer leaves the connections, and what it has published and answered. -/
theorem write_frame {a : WriterStep} (hp : p.write a = some p') :
    p'.handlers = p.handlers ∧ p'.replicas = p.replicas ∧ p'.wires = p.wires ∧
      p'.nextReplica = p.nextReplica ∧ p.commits <+: p'.commits ∧
      p.channel.length ≤ p'.channel.length ∧ p'.binlog.isSome = p.binlog.isSome := by
  cases a with
  | decide =>
    unfold write at hp
    dsimp only at hp
    split at hp
    · split_ifs at hp <;> cases hp <;> exact ⟨rfl, rfl, rfl, rfl, List.prefix_rfl, le_rfl, rfl⟩
    · exact nomatch hp
  | apply | number | append | send | answer =>
    unfold write at hp
    dsimp only at hp
    split at hp <;> cases hp
    refine ⟨rfl, rfl, rfl, rfl, ?_, ?_, ?_⟩ <;> simp

/-- A commit call comes to wait for the present LSN, or it returns. With a strict policy it succeeds
only if enough replicas have acknowledged what it waits for. -/
theorem awaitSync_eq {policy : SyncPolicy} {i : Nat} {a : CommitStep}
    (hp : p.awaitSync policy i a = some p') :
    ∃ c phase, p.commits[i]? = some c ∧
      p' = { p with commits := p.commits.set i { c with phase := phase } } ∧
      c.phase ≠ .returned false ∧ (∀ t, phase = .waiting t → t = p.lsn) ∧
      (phase = .returned true → policy.strict = true → policy.required = 0 ∨
        ∃ target, c.phase = .waiting target ∧ policy.required ≤ p.ackedCount target) := by
  obtain ⟨c, hc, hset⟩ := bind_eq_some_iff.mp hp
  split at hset
  case h_1 hphase =>
    split_ifs at hset with hskip
    · cases hset
      refine ⟨c, .returned true, hc, rfl, by simp [hphase], nofun, fun _ hstrict => .inl ?_⟩
      rcases hskip with h0 | ⟨hs, -⟩
      · exact h0
      · rw [hstrict] at hs
        exact nomatch hs
    · cases hset
      refine ⟨c, .waiting p.lsn, hc, rfl, by simp [hphase], fun t ht => ?_, nofun⟩
      cases ht
      rfl
  case h_2 target hphase =>
    split_ifs at hset with hcount
    cases hset
    exact ⟨c, .returned true, hc, rfl, by simp [hphase], nofun,
      fun _ _ => .inr ⟨target, hphase, hcount⟩⟩
  case h_3 target hphase =>
    split_ifs at hset with htime hcount
    · cases hset
      exact ⟨c, .returned true, hc, rfl, by simp [hphase], nofun,
        fun _ _ => .inr ⟨target, hphase, hcount⟩⟩
    · cases hset
      refine ⟨c, .returned (!policy.strict), hc, rfl, by simp [hphase], nofun, fun hret hs => ?_⟩
      rw [hs] at hret
      exact nomatch hret
  case h_4 => exact nomatch hset

end Primary

end ElyraSql.Replication
