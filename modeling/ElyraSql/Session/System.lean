import ElyraSql.Library.Transition
import ElyraSql.Session.Scan

/-!
# Sessions and the writer

Any number of sessions run transactions and autocommit writes against one writer. A step is one call
of a session, or one group commit of the writer. The state carries a history that no step reads: the
snapshots transactions began with, every committed table, every call made inside a transaction and
every turn a job had in a group.
-/

namespace ElyraSql

open Function Option

/-! ## Calls inside a transaction -/

inductive TxnOp
  | get (k : Bytes)
  | multiGet (ks : List Bytes)
  | scanRange (start : Bytes) (stop : Option Bytes) (limit : Nat)
  | scanBatch (pfx : Bytes) (after : Option Bytes) (limit : Nat)
  | commitWrite (puts : List (Bytes × Bytes)) (deletes : List Bytes)
  | lockKeys (ks : List Bytes)
  | savepoint (name : String)
  | rollbackTo (name : String)
  | releaseSavepoint (name : String)
  | checkpoint
  | releaseCheckpoint
  | rollbackCheckpoint (c : TransactionCheckpoint)
  | requireSerializable

inductive Answer
  | value (v : Option Bytes)
  | values (vs : List (Option Bytes))
  | rows (rs : List (Bytes × Bytes))
  | status (r : Except Error Unit)
  | mark (c : TransactionCheckpoint)
  | done

def TxnState.exec (budget : Nat) (tx : TxnState) : TxnOp → Answer × TxnState
  | .get k => ((.value (tx.get k).1), (tx.get k).2)
  | .multiGet ks => (.values (tx.multiGet ks).1, (tx.multiGet ks).2)
  | .scanRange start stop limit =>
    (.rows (tx.scanRange start stop limit).1, (tx.scanRange start stop limit).2)
  | .scanBatch pfx after limit =>
    (.rows (tx.scanBatch pfx after limit).1, (tx.scanBatch pfx after limit).2)
  | .commitWrite puts deletes =>
    (.status (tx.commitWrite budget puts deletes).1, (tx.commitWrite budget puts deletes).2)
  | .lockKeys ks => (.done, tx.lockKeys ks)
  | .savepoint name => (.done, tx.savepoint name)
  | .rollbackTo name => (.status (tx.rollbackTo name).1, (tx.rollbackTo name).2)
  | .releaseSavepoint name => (.status (tx.releaseSavepoint name).1, (tx.releaseSavepoint name).2)
  | .checkpoint => (.mark tx.transactionCheckpoint.1, tx.transactionCheckpoint.2)
  | .releaseCheckpoint =>
    (.status tx.releaseTransactionCheckpoint.1, tx.releaseTransactionCheckpoint.2)
  | .rollbackCheckpoint c =>
    (.status (tx.rollbackTransactionCheckpoint c).1, (tx.rollbackTransactionCheckpoint c).2)
  | .requireSerializable => (.done, tx.requireSerializableValidation)

def TxnState.execAll (budget : Nat) (tx : TxnState) (ops : List TxnOp) : TxnState :=
  ops.foldl (fun tx op => (tx.exec budget op).2) tx

def TxnState.answers (budget : Nat) : TxnState → List TxnOp → List Answer
  | _, [] => []
  | tx, op :: ops => (tx.exec budget op).1 :: TxnState.answers budget (tx.exec budget op).2 ops

/-! ## The system -/

structure Limits where
  budget : Nat
  cap : Nat

/-- An open transaction, with the way it began and the calls made so far. -/
structure ActiveTxn where
  id : Nat
  readOnly : Bool
  isolation : Isolation
  state : TxnState
  script : List (TxnOp × Answer)

/-- A job on the writer's queue. `txn` is the transaction it commits, if it is not an
autocommit write. -/
structure Submitted where
  job : WriteJob
  txn : Option ActiveTxn

/-- A job's turn in a group: the table of the group's write transaction before and after it. -/
structure Turn where
  submitted : Submitted
  before : Table
  after : Table
  result : Except Error Unit

/-- A call made inside a transaction, as it stood before the call. -/
structure OpEvent where
  caller : ActiveTxn
  op : TxnOp
  answer : Answer

structure System where
  writer : Writer
  queue : List Submitted
  sessions : Nat → Option ActiveTxn
  nextTxn : Nat
  begun : List (Nat × Table)
  committed : List Table
  ops : List OpEvent
  turns : List Turn

/-- A database with the given contents and no session at work. -/
def System.init (w : Writer) : System where
  writer := w
  queue := []
  sessions := fun _ => none
  nextTxn := 0
  begun := []
  committed := [w.storage.kv]
  ops := []
  turns := []

inductive Step
  | begin (session : Nat) (readOnly : Bool) (isolation : Isolation)
  | op (session : Nat) (op : TxnOp)
  | rollback (session : Nat)
  | commit (session : Nat)
  | autocommit (job : WriteJob)
  | group (waiting : Nat)

def turnsOf : Table → List (Submitted × Except Error Unit) → List Turn
  | _, [] => []
  | t, (j, r) :: rest =>
    let after := (jobTurn t j.job).2
    ⟨j, t, after, r⟩ :: turnsOf after rest

/-- Split off the group the writer takes: the first job and up to `n` more of its kind. -/
def nextGroup (n : Nat) (first : Submitted) (queue : List Submitted) :
    List Submitted × List Submitted :=
  let k := (drainKind first.job.validation.isSome (min n (groupCommitMax - 1))
    (queue.map (·.job))).1.length
  (queue.take k, queue.drop k)

def System.step (lim : Limits) (σ : System) : Step → Option System
  | .begin s readOnly isolation =>
    some { σ with
      sessions := update σ.sessions s
        (some ⟨σ.nextTxn, readOnly, isolation,
          TxnState.start σ.writer.storage.kv readOnly isolation, []⟩)
      nextTxn := σ.nextTxn + 1
      begun := (σ.nextTxn, σ.writer.storage.kv) :: σ.begun }
  | .op s op =>
    match σ.sessions s with
    | none => none
    | some a =>
      let r := a.state.exec lim.budget op
      some { σ with
        sessions := update σ.sessions s
          (some { a with state := r.2, script := a.script ++ [(op, r.1)] })
        ops := ⟨a, op, r.1⟩ :: σ.ops }
  | .rollback s => some { σ with sessions := update σ.sessions s none }
  | .commit s =>
    match σ.sessions s with
    | none => some σ
    | some a =>
      let σ' := { σ with sessions := update σ.sessions s none }
      match a.state.commitJob lim.cap with
      | .error _ => some σ'
      | .ok job => some { σ' with queue := σ.queue ++ [⟨job, some a⟩] }
  | .autocommit job =>
    if job.validation.isNone then some { σ with queue := σ.queue ++ [⟨job, none⟩] } else none
  | .group waiting =>
    match σ.queue with
    | [] => none
    | first :: queue =>
      let g := nextGroup waiting first queue
      let r := σ.writer.applyGroup first.job (g.1.map (·.job))
      some { σ with
        writer := r.2
        queue := g.2
        committed := r.2.storage.kv :: σ.committed
        turns := σ.turns ++ turnsOf σ.writer.storage.kv ((first :: g.1).zip r.1) }

/-! ## What a step can do -/

theorem System.step_cases {lim : Limits} {σ σ' : System} {a : Step}
    (h : σ.step lim a = some σ') :
    (∃ s ro iso, a = .begin s ro iso ∧
      σ' = { σ with
        sessions := update σ.sessions s
          (some ⟨σ.nextTxn, ro, iso, TxnState.start σ.writer.storage.kv ro iso, []⟩)
        nextTxn := σ.nextTxn + 1
        begun := (σ.nextTxn, σ.writer.storage.kv) :: σ.begun }) ∨
    (∃ s op x, a = .op s op ∧ σ.sessions s = some x ∧
      σ' = { σ with
        sessions := update σ.sessions s
          (some { x with
            state := (x.state.exec lim.budget op).2
            script := x.script ++ [(op, (x.state.exec lim.budget op).1)] })
        ops := ⟨x, op, (x.state.exec lim.budget op).1⟩ :: σ.ops }) ∨
    (∃ s, σ' = { σ with sessions := update σ.sessions s none }) ∨
    (σ' = σ) ∨
    (∃ s x job, a = .commit s ∧ σ.sessions s = some x ∧ x.state.commitJob lim.cap = .ok job ∧
      σ' = { σ with
        sessions := update σ.sessions s none
        queue := σ.queue ++ [⟨job, some x⟩] }) ∨
    (∃ job, a = .autocommit job ∧ job.validation = none ∧
      σ' = { σ with queue := σ.queue ++ [⟨job, none⟩] }) ∨
    (∃ n first queue, a = .group n ∧ σ.queue = first :: queue ∧
      let g := nextGroup n first queue
      let r := σ.writer.applyGroup first.job (g.1.map (·.job))
      σ' = { σ with
        writer := r.2
        queue := g.2
        committed := r.2.storage.kv :: σ.committed
        turns := σ.turns ++ turnsOf σ.writer.storage.kv ((first :: g.1).zip r.1) }) := by
  cases a with
  | begin s ro iso => exact .inl ⟨s, ro, iso, rfl, (some.inj h).symm⟩
  | op s op =>
    simp only [step] at h
    split at h
    · cases h
    · next x hx => exact .inr (.inl ⟨s, op, x, rfl, hx, (some.inj h).symm⟩)
  | rollback s => exact .inr (.inr (.inl ⟨s, (some.inj h).symm⟩))
  | commit s =>
    simp only [step] at h
    split at h
    · exact .inr (.inr (.inr (.inl (some.inj h).symm)))
    · next x hx =>
      split at h
      · exact .inr (.inr (.inl ⟨s, (some.inj h).symm⟩))
      · next job hj =>
        exact .inr (.inr (.inr (.inr (.inl ⟨s, x, job, rfl, hx, hj, (some.inj h).symm⟩))))
  | autocommit job =>
    simp only [step] at h
    split_ifs at h with hv
    exact .inr (.inr (.inr (.inr (.inr (.inl
      ⟨job, rfl, isNone_iff_eq_none.mp hv, (some.inj h).symm⟩)))))
  | group n =>
    simp only [step] at h
    split at h
    · cases h
    · next first queue hq =>
      exact .inr (.inr (.inr (.inr (.inr (.inr ⟨n, first, queue, rfl, hq,
        (some.inj h).symm⟩)))))

end ElyraSql
