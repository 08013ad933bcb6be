import ElyraSql.Session.Isolation

/-!
# Statements that read keys and write a batch

The sessions of one engine, each running statements on its own or inside a transaction. A statement
(`Program`) reads some keys, one at a time, and writes a batch computed from what it found. On its
own it reads the committed table; inside a transaction it reads the transaction's view and its batch
goes to the buffer, which COMMIT hands over with the values the snapshot had.

`commits` is the history: the statements of each commit, with what they had read, and the table
before and after it.
-/

namespace ElyraSql.Counters

open OrderedMap TxnState Function

/-! ## The system -/

/-- What a statement writes. `new` are the keys that `commit_insert` wants to be unbound. -/
structure Batch where
  new : Option (List (Bytes × Bytes))
  put : List (Bytes × Bytes)
  delete : List Bytes

def Batch.puts (b : Batch) : List (Bytes × Bytes) := b.new.getD [] ++ b.put

def Batch.job (b : Batch) : WriteJob :=
  { insertNew := b.new, puts := b.put, deletes := b.delete, validation := none }

/-- Statements: the keys one reads, in order, and the batch it makes of what it found, on its own or
inside a transaction (`in_txn`). -/
structure Program (X : Type) where
  reads : X → List Bytes
  batch : X → Bool → List (Option Bytes) → Batch

/-- A statement with what it read. -/
structure Done (X : Type) where
  stmt : X
  inTxn : Bool
  got : List (Option Bytes)

inductive Session (X : Type)
  | idle
  /-- A statement on its own, with what it has read so far. -/
  | reading (x : X) (got : List (Option Bytes))
  /-- A transaction, with its statements that succeeded. -/
  | txn (tx : TxnState) (done : List (Done X))

structure Commit (X : Type) where
  done : List (Done X)
  before : Table
  after : Table

structure Sys (X : Type) where
  store : Table
  session : Nat → Session X
  commits : List (Commit X)

def Sys.start {X : Type} (t : Table) : Sys X := ⟨t, fun _ => .idle, []⟩

inductive Act (X : Type)
  | begin (s : Nat) (readOnly : Bool) (isolation : Isolation)
  /-- A read, a lock or a change of isolation inside a transaction. -/
  | op (s : Nat) (op : TxnOp)
  /-- A statement inside a transaction. -/
  | exec (s : Nat) (x : X)
  | rollback (s : Nat)
  | commit (s : Nat)
  /-- A statement on its own begins, reads its next key, writes its batch, or fails before. -/
  | start (s : Nat) (x : X)
  | read (s : Nat)
  | write (s : Nat)
  | fail (s : Nat)

namespace Sys

variable {X : Type}

def set (σ : Sys X) (s : Nat) (p : Session X) : Sys X :=
  { σ with session := Function.update σ.session s p }

def committed (σ : Sys X) (s : Nat) (done : List (Done X)) (t : Table) : Sys X :=
  { store := t
    session := Function.update σ.session s .idle
    commits := σ.commits ++ [⟨done, σ.store, t⟩] }

variable {σ : Sys X} {s : Nat} {I : TxnState → List (Done X) → Prop}

theorem forall_txns_set (h : ∀ s tx done, σ.session s = .txn tx done → I tx done) {p : Session X}
    (hp : ∀ tx done, p = .txn tx done → I tx done) :
    ∀ s' tx done, (σ.set s p).session s' = .txn tx done → I tx done := by
  intro s' tx done hs
  simp only [set, update_apply] at hs
  split_ifs at hs
  · exact hp tx done hs
  · exact h s' tx done hs

theorem forall_txns_committed (h : ∀ s tx done, σ.session s = .txn tx done → I tx done)
    (done : List (Done X)) (t : Table) :
    ∀ s' tx done', (σ.committed s done t).session s' = .txn tx done' → I tx done' :=
  forall_txns_set h nofun

end Sys

section

variable {X : Type} (P : Program X)

/-- A statement inside a transaction: what it reads, and what it leaves in the buffer even if it
fails there. -/
def execIn (budget : Nat) (tx : TxnState) (x : X) :
    List (Option Bytes) × Except Error Unit × TxnState :=
  let got := (P.reads x).map fun k => (tx.get k).1
  let b := P.batch x true got
  (got, ((P.reads x).foldl recordRead tx).commitWrite budget b.puts b.delete)

def Sys.step (lim : Limits) (σ : Sys X) : Act X → Option (Sys X)
  | .begin s readOnly isolation =>
    match σ.session s with
    | .idle => some (σ.set s (.txn (TxnState.start σ.store readOnly isolation) []))
    | _ => none
  | .op s op =>
    match σ.session s with
    | .txn tx done =>
      if keepsBuffer op then some (σ.set s (.txn (tx.exec lim.budget op).2 done)) else none
    | _ => none
  | .exec s x =>
    match σ.session s with
    | .txn tx done =>
      let r := execIn P lim.budget tx x
      match r.2.1 with
      | .ok () => some (σ.set s (.txn r.2.2 (done ++ [⟨x, true, r.1⟩])))
      | .error _ => some (σ.set s (.txn r.2.2 done))
    | _ => none
  | .rollback s =>
    match σ.session s with
    | .txn _ _ => some (σ.set s .idle)
    | _ => none
  | .commit s =>
    match σ.session s with
    | .txn tx done =>
      match tx.commitJob lim.cap with
      | .error _ => some (σ.set s .idle)
      | .ok job =>
        match jobTurn σ.store job with
        | (.ok (), t) => some (σ.committed s done t)
        | (.error _, _) => some (σ.set s .idle)
    | _ => none
  | .start s x =>
    match σ.session s with
    | .idle => some (σ.set s (.reading x []))
    | _ => none
  | .read s =>
    match σ.session s with
    | .reading x got =>
      match (P.reads x)[got.length]? with
      | some k => some (σ.set s (.reading x (got ++ [σ.store.get k])))
      | none => none
    | _ => none
  | .write s =>
    match σ.session s with
    | .reading x got =>
      if got.length = (P.reads x).length then
        match jobTurn σ.store (P.batch x false got).job with
        | (.ok (), t) => some (σ.committed s [⟨x, false, got⟩] t)
        | (.error _, _) => some (σ.set s .idle)
      else none
    | _ => none
  | .fail s =>
    match σ.session s with
    | .reading _ _ => some (σ.set s .idle)
    | _ => none

end

/-! ## What a step can do -/

section

variable {X : Type} {P : Program X} {lim : Limits} {σ σ' : Sys X} {a : Act X}

/-- The steps that commit nothing. -/
inductive Moved (P : Program X) (lim : Limits) (σ : Sys X) : Act X → Nat → Session X → Prop
  | begin {s ro iso} : Moved P lim σ (.begin s ro iso) s (.txn (TxnState.start σ.store ro iso) [])
  | op {s op tx done} : σ.session s = .txn tx done → keepsBuffer op = true →
      Moved P lim σ (.op s op) s (.txn (tx.exec lim.budget op).2 done)
  | execOk {s x tx done} : σ.session s = .txn tx done →
      (execIn P lim.budget tx x).2.1 = .ok () →
      Moved P lim σ (.exec s x) s (.txn (execIn P lim.budget tx x).2.2
        (done ++ [⟨x, true, (execIn P lim.budget tx x).1⟩]))
  | execFailed {s x tx done e} : σ.session s = .txn tx done →
      (execIn P lim.budget tx x).2.1 = .error e →
      Moved P lim σ (.exec s x) s (.txn (execIn P lim.budget tx x).2.2 done)
  | reading {a s x got} : Moved P lim σ a s (.reading x got)
  | idle {a s} : Moved P lim σ a s .idle

theorem Sys.step_cases (h : σ.step P lim a = some σ') :
    (∃ s p, σ' = σ.set s p ∧ Moved P lim σ a s p) ∨
    (∃ s tx done job t, a = .commit s ∧ σ.session s = .txn tx done ∧
      tx.commitJob lim.cap = .ok job ∧ jobTurn σ.store job = (.ok (), t) ∧
      σ' = σ.committed s done t) ∨
    (∃ s x got t, a = .write s ∧ σ.session s = .reading x got ∧
      jobTurn σ.store (P.batch x false got).job = (.ok (), t) ∧
      σ' = σ.committed s [⟨x, false, got⟩] t) := by
  cases a <;> simp only [Sys.step] at h
  case begin s ro iso =>
    split at h <;> cases h
    exact .inl ⟨_, _, rfl, .begin⟩
  case op s op =>
    split at h
    case h_2 => exact nomatch h
    case h_1 hs =>
      split at h <;> cases h
      exact .inl ⟨_, _, rfl, .op hs ‹_›⟩
  case exec s x =>
    split at h
    case h_2 => exact nomatch h
    case h_1 hs =>
      split at h <;> cases h
      · exact .inl ⟨_, _, rfl, .execOk hs ‹_›⟩
      · exact .inl ⟨_, _, rfl, .execFailed hs ‹_›⟩
  case commit s =>
    split at h
    case h_2 => exact nomatch h
    case h_1 hs =>
      split at h
      case h_1 =>
        cases h
        exact .inl ⟨_, _, rfl, .idle⟩
      case h_2 job hjob =>
        split at h <;> cases h
        · exact .inr (.inl ⟨_, _, _, _, _, rfl, hs, hjob, ‹_›, rfl⟩)
        · exact .inl ⟨_, _, rfl, .idle⟩
  case read s =>
    split at h
    case h_2 => exact nomatch h
    case h_1 =>
      split at h <;> cases h
      exact .inl ⟨_, _, rfl, .reading⟩
  case write s =>
    split at h
    case h_2 => exact nomatch h
    case h_1 hs =>
      split at h
      case isFalse => exact nomatch h
      case isTrue =>
        split at h <;> cases h
        · exact .inr (.inr ⟨_, _, _, _, rfl, hs, ‹_›, rfl⟩)
        · exact .inl ⟨_, _, rfl, .idle⟩
  case start s x =>
    split at h <;> cases h
    exact .inl ⟨_, _, rfl, .reading⟩
  case rollback s | fail s =>
    split at h <;> cases h
    exact .inl ⟨_, _, rfl, .idle⟩

/-! ## What a commit writes -/

/-- COMMIT lays the buffer over the committed table, and finds every key of it that is not
bookkeeping as the snapshot had it. -/
theorem commit_spec {tx : TxnState} {cap : Nat} {job : WriteJob} {t t' : Table}
    (hjob : tx.commitJob cap = .ok job) (hturn : jobTurn t job = (.ok (), t')) :
    t' = tx.overlay.onto t ∧
      ∀ k, tx.overlay.touches k = true → isMeta k = false → t.get k = tx.snapshot.get k := by
  have hok : outcome (jobTurn t job).1 = .success := by rw [hturn]; rfl
  obtain ⟨v, hv, -, hputs, hdeletes, -⟩ := commitJob_spec hjob
  obtain ⟨-, -, hwrite⟩ := jobTurn_ok hv hok
  obtain ⟨hkeys, hranges⟩ := unchanged_of_turn hjob hok
  constructor
  · rw [hturn, hputs, hdeletes] at hwrite
    exact hwrite
  · intro k htouches hmeta
    by_cases hcover : tx.rangeCovers k = true
    · exact hranges k hcover
    · exact hkeys k (mem_keyset.mpr (.inl ⟨htouches, hmeta, Bool.eq_false_of_not_eq_true hcover⟩))

theorem write_spec {b : Batch} {t t' : Table} (hturn : jobTurn t b.job = (.ok (), t')) :
    t' = t.write b.puts b.delete := by
  rw [jobTurn, if_neg (by simp [Batch.job]), Table.plainTurn] at hturn
  split at hturn
  · cases (Prod.mk.inj hturn).1
  · exact (Prod.mk.inj hturn).2.symm

/-- A statement inside a transaction reads the transaction's view, and leaves the first puts of its
batch in the buffer, all of them if it succeeds. -/
theorem execIn_spec (budget : Nat) (tx : TxnState) {x : X} {b : Batch}
    (hb : b = P.batch x true ((P.reads x).map tx.view.get)) :
    (execIn P budget tx x).1 = (P.reads x).map tx.view.get ∧
    (execIn P budget tx x).2.2.snapshot = tx.snapshot ∧
    ∃ n, (∀ k ∉ b.delete, (execIn P budget tx x).2.2.overlay.lookup k =
        ((OMap.lastValue (b.puts.take n) k).map some).or (tx.overlay.lookup k)) ∧
      ((execIn P budget tx x).2.1 = .ok () → b.puts.take n = b.puts) := by
  have hgot : (execIn P budget tx x).1 = (P.reads x).map tx.view.get :=
    List.map_congr_left fun k _ => get_eq_view tx k
  have hstate : (execIn P budget tx x).2 =
      ((P.reads x).foldl recordRead tx).commitWrite budget b.puts b.delete := by
    rw [hb, ← hgot]
    rfl
  refine ⟨hgot, ?_, ?_⟩
  · exact (exec_snapshot budget _ (.commitWrite ..)).trans (exec_snapshot budget tx (.multiGet _))
  · obtain ⟨n, hn, hok⟩ := commitWrite_lookup
      ((P.reads x).foldl recordRead tx) budget b.puts b.delete
    rw [overlay_of_buffer (foldl_recordRead_buffer _ tx)] at hn
    rw [hstate]
    exact ⟨n, hn, hok⟩

end

end ElyraSql.Counters
