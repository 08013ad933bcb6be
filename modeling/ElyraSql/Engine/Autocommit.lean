import ElyraSql.Engine.Insert
import ElyraSql.Library.Transition

/-!
# Concurrent autocommit statements

Statements of different sessions run side by side. Each asks its questions one at a time, each
answered from the state committed at that moment; then it reads the write counter of the table
(`bump_wcount`), which no other read looks at, and commits its batch, with no check that what it
read still holds.
-/

namespace ElyraSql.Engine

open ReadProgram Transition Option List

/-! ## The system -/

inductive Stmt
  | update (u : Env.UpdateStmt)
  | delete (x : Env.DeleteStmt)
  | insert (x : InsertStmt)
  | createIndex (x : Env.CreateIndexStmt)

/-- The reads of a statement, up to the effect it commits. -/
def Stmt.program (env : Env) : Stmt → Read Effect
  | .update u => env.update u
  | .delete x => env.delete x
  | .insert x => env.insert x
  | .createIndex x => env.createIndex x

def Effect.counts : Effect → Bool
  | .commit _ | .insertNew .. => true
  | .buildIndex .. | .nothing => false

/-- The rows a statement reports, or the duplicate that `commit_insert` found. -/
def Effect.result (env : Env) (s : Store) : Effect → Except Error Nat
  | .commit w => .ok w.affected
  | .insertNew d rows _ =>
    if env.insertRefused s d rows then .error .duplicatePrimary else .ok rows.length
  | .buildIndex .. | .nothing => .ok 0

/-- The committed state: the key/value table and the table's write counter. -/
structure Db where
  store : Store
  wcount : UInt64

/-- Where a statement stands, with the answers it has been given. -/
inductive Phase
  | reading (trace : List (Sigma Query.Answer)) (p : Read Effect)
  | counted (trace : List (Sigma Query.Answer)) (e : Effect) (n : UInt64)
  | finished (result : Except Error Nat)

def Phase.trace : Phase → List (Sigma Query.Answer)
  | .reading trace _ | .counted trace .. => trace
  | .finished _ => []

def Phase.isFinished : Phase → Bool
  | .finished _ => true
  | _ => false

/-- The committed state, the statements, and which of them have ended, in order. -/
structure Sys where
  db : Db
  tasks : List Phase
  ended : List Nat

inductive Act
  /-- The next question of a statement is answered. -/
  | read (i : Nat)
  /-- The statement reads the write counter. -/
  | count (i : Nat)
  /-- The statement commits, or reports the error of its reading phase. -/
  | finish (i : Nat)

def Sys.setTask (s : Sys) (i : Nat) (p : Phase) : Sys := { s with tasks := s.tasks.set i p }

/-- A statement ends and leaves the committed state `db`. -/
def Sys.finishTask (s : Sys) (i : Nat) (db : Db) (result : Except Error Nat) : Sys :=
  { db := db, tasks := s.tasks.set i (.finished result), ended := s.ended ++ [i] }

/-- The commit of an effect; `n` is the write counter to store. -/
def Db.commit (env : Env) (db : Db) (e : Effect) (n : UInt64) : Db :=
  match e.result env db.store with
  | .ok _ => ⟨env.applyEffect db.store e, n⟩
  | .error _ => db

def Sys.step (env : Env) (s : Sys) : Act → Option Sys
  | .read i =>
    match s.tasks[i]? with
    | some (.reading trace (.ask q k)) =>
      some (s.setTask i (.reading (trace ++ [⟨q, answer s.db.store q⟩]) (k (answer s.db.store q))))
    | _ => none
  | .count i =>
    match s.tasks[i]? with
    | some (.reading trace (.pure e)) =>
      if e.counts then some (s.setTask i (.counted trace e s.db.wcount)) else none
    | _ => none
  | .finish i =>
    match s.tasks[i]? with
    | some (.reading _ (.fail e)) => some (s.finishTask i s.db (.error e))
    | some (.reading _ (.pure e)) =>
      if e.counts then none
      else some (s.finishTask i (s.db.commit env e s.db.wcount) (e.result env s.db.store))
    | some (.counted _ e n) =>
      some (s.finishTask i (s.db.commit env e (n + 1)) (e.result env s.db.store))
    | _ => none

/-- All statements are about to make their first read. -/
def Sys.start (env : Env) (db : Db) (stmts : List Stmt) : Sys :=
  ⟨db, stmts.map fun x => .reading [] (x.program env), []⟩

/-! ## One after another -/

def runAlone (env : Env) (s : Store) (p : Read Effect) : Store :=
  match p.eval (answer s) with
  | .ok e => env.applyEffect s e
  | .error _ => s

/-- The statements with the given positions, run one after another. -/
def runInOrder (env : Env) (stmts : List Stmt) (s : Store) (order : List Nat) : Store :=
  order.foldl (fun s i => (stmts[i]?).elim s fun x => runAlone env s (x.program env)) s

/-! ## Undisturbed runs -/

/-- A statement ends only while everything it has read would still be answered alike. -/
def Undisturbed (s : Sys) : Act → Prop
  | .finish i => Current (answer s.db.store) ((s.tasks[i]?).elim [] Phase.trace)
  | _ => True

instance (s : Sys) : (a : Act) → Decidable (Undisturbed s a)
  | .finish i =>
    inferInstanceAs (Decidable (Current (answer s.db.store) ((s.tasks[i]?).elim [] Phase.trace)))
  | .read _ | .count _ => .isTrue trivial

/-- What a task still has to do follows from its statement by the answers it was given. -/
def Phase.Follows (p : Read Effect) : Phase → Prop
  | .reading trace q => ReadProgram.Follows p trace q
  | .counted trace e _ => ReadProgram.Follows p trace (.pure e)
  | .finished _ => True

/-- The invariant of undisturbed runs. -/
structure Serial (env : Env) (stmts : List Stmt) (s₀ : Store) (s : Sys) : Prop where
  length : s.tasks.length = stmts.length
  follows : ∀ (i : Nat) (p : Phase) (x : Stmt), s.tasks[i]? = some p → stmts[i]? = some x →
    p.Follows (x.program env)
  nodup : s.ended.Nodup
  mem : ∀ i, i ∈ s.ended ↔ ∃ p, s.tasks[i]? = some p ∧ p.isFinished = true
  store : s.db.store = runInOrder env stmts s₀ s.ended

/-! ## What a step does -/

/-- What the reading phase of a statement came to. -/
def Phase.outcome : Phase → Option (Except Error Effect)
  | .reading _ (.fail e) => some (.error e)
  | .reading _ (.pure e) => some (.ok e)
  | .counted _ e _ => some (.ok e)
  | _ => none

open Sys

/-- The steps: a statement moves on with the committed state as it is, or it ends. -/
theorem Sys.step_cases {env : Env} {s s' : Sys} {a : Act} (h : s.step env a = some s') :
    (∃ i trace q k, a = .read i ∧ s.tasks[i]? = some (.reading trace (.ask q k)) ∧
      s' = s.setTask i
        (.reading (trace ++ [⟨q, answer s.db.store q⟩]) (k (answer s.db.store q)))) ∨
    (∃ i trace e, a = .count i ∧ s.tasks[i]? = some (.reading trace (.pure e)) ∧
      s' = s.setTask i (.counted trace e s.db.wcount)) ∨
    (∃ i p e, a = .finish i ∧ s.tasks[i]? = some p ∧ p.outcome = some (.error e) ∧
      s' = s.finishTask i s.db (.error e)) ∨
    (∃ i p e n, a = .finish i ∧ s.tasks[i]? = some p ∧ p.outcome = some (.ok e) ∧
      s' = s.finishTask i (s.db.commit env e n) (e.result env s.db.store)) := by
  cases a with
  | read i =>
    simp only [step] at h
    split at h
    case h_1 trace q k ht => exact .inl ⟨i, trace, q, k, rfl, ht, (some.inj h).symm⟩
    case h_2 => exact nomatch h
  | count i =>
    simp only [step] at h
    split at h
    case h_1 trace e ht =>
      split_ifs at h with hc
      exact .inr (.inl ⟨i, trace, e, rfl, ht, (some.inj h).symm⟩)
    case h_2 => exact nomatch h
  | finish i =>
    simp only [step] at h
    split at h
    case h_1 trace e ht =>
      exact .inr (.inr (.inl ⟨i, _, e, rfl, ht, rfl, (some.inj h).symm⟩))
    case h_2 trace e ht =>
      split_ifs at h with hc
      exact .inr (.inr (.inr ⟨i, _, e, _, rfl, ht, rfl, (some.inj h).symm⟩))
    case h_3 trace e n ht =>
      exact .inr (.inr (.inr ⟨i, _, e, _, rfl, ht, rfl, (some.inj h).symm⟩))
    case h_4 => exact nomatch h

/-- A commit leaves what the effect makes of the store, also when an insert is refused. -/
theorem Db.store_commit (env : Env) (db : Db) (e : Effect) (n : UInt64) :
    (db.commit env e n).store = env.applyEffect db.store e := by
  cases e with
  | insertNew d rows autoinc =>
    by_cases hr : env.insertRefused db.store d rows = true <;>
      simp [Db.commit, Effect.result, Env.applyEffect, hr]
  | commit w => rfl
  | buildIndex d rows => rfl
  | nothing => rfl

/-- With its answers current, a statement that ends has come to what it would have come to
alone. -/
theorem Phase.Follows.eval_eq {p : Read Effect} {ph : Phase} (h : ph.Follows p) {s : Store}
    (hc : Current (answer s) ph.trace) {r : Except Error Effect} (hr : ph.outcome = some r) :
    p.eval (answer s) = r := by
  cases ph with
  | reading trace q =>
    rw [ReadProgram.Follows.eval_eq h hc]
    cases q with
    | pure e | fail e => exact some.inj hr
    | ask q k => exact nomatch hr
  | counted trace e n =>
    rw [ReadProgram.Follows.eval_eq h hc]
    exact some.inj hr
  | finished r => exact nomatch hr

/-! ## Serial order -/

namespace Serial

variable {env : Env} {stmts : List Stmt} {s₀ : Store} {s : Sys}

theorem start (env : Env) (db : Db) (stmts : List Stmt) :
    Serial env stmts db.store (start env db stmts) := by
  refine ⟨by simp [Sys.start], ?_, nodup_nil, ?_, rfl⟩
  · intro i p x hp hx
    simp only [Sys.start, getElem?_map, hx, map_some, some.injEq] at hp
    subst hp
    exact .start
  · intro i
    simp only [Sys.start, not_mem_nil, false_iff, getElem?_map, map_eq_some_iff]
    rintro ⟨p, ⟨x, -, rfl⟩, hf⟩
    exact nomatch hf

variable (h : Serial env stmts s₀ s)
include h

theorem setTask {i : Nat} {p p' : Phase} (hp : s.tasks[i]? = some p)
    (hf : ∀ x, stmts[i]? = some x → p'.Follows (x.program env)) (hn : p.isFinished = false)
    (hn' : p'.isFinished = false) : Serial env stmts s₀ (s.setTask i p') := by
  obtain ⟨hi, hget⟩ := List.getElem?_eq_some_iff.mp hp
  refine ⟨by simp [Sys.setTask, h.length], ?_, h.nodup, ?_, h.store⟩
  · intro j q x hq hx
    simp only [Sys.setTask, getElem?_set] at hq
    split_ifs at hq with hij
    · subst hij
      cases hq
      exact hf x hx
    · exact h.follows j q x hq hx
  · intro j
    refine (h.mem j).trans ?_
    simp only [Sys.setTask]
    by_cases hij : i = j
    · subst hij
      simp [hi, hget, hn, hn']
    · simp [hij]

theorem finishTask {i : Nat} {p : Phase} (hp : s.tasks[i]? = some p)
    (hn : p.isFinished = false) {db : Db} {result : Except Error Nat}
    (hs : ∀ x, stmts[i]? = some x → db.store = runAlone env s.db.store (x.program env)) :
    Serial env stmts s₀ (s.finishTask i db result) := by
  have hi : i < s.tasks.length := (List.getElem?_eq_some_iff.mp hp).1
  have hnot : i ∉ s.ended := by
    intro hm
    obtain ⟨q, hq, hf⟩ := (h.mem i).mp hm
    rw [hp] at hq
    cases hq
    exact absurd hf (by simp [hn])
  refine ⟨by simp [Sys.finishTask, h.length], ?_, ?_, ?_, ?_⟩
  · intro j q x hq hx
    simp only [Sys.finishTask, getElem?_set] at hq
    split_ifs at hq with hij
    · cases hq
      trivial
    · exact h.follows j q x hq hx
  · simpa [Sys.finishTask, nodup_append] using ⟨h.nodup, fun j hj => fun hji => hnot (hji ▸ hj)⟩
  · intro j
    simp only [Sys.finishTask]
    by_cases hij : i = j
    · subst hij
      simp [hi, Phase.isFinished]
    · simp [hij, Ne.symm hij, h.mem j]
  · have hlt : i < stmts.length := h.length ▸ hi
    simp only [Sys.finishTask, runInOrder, foldl_append, foldl_cons, foldl_nil]
    rw [← runInOrder, ← h.store, getElem?_eq_getElem hlt]
    exact hs _ (getElem?_eq_getElem hlt)

theorem step {a : Act} {s' : Sys} (hok : Undisturbed s a)
    (hs : s.step env a = some s') : Serial env stmts s₀ s' := by
  obtain ⟨i, trace, q, k, rfl, hp, rfl⟩ | ⟨i, trace, e, rfl, hp, rfl⟩ |
    ⟨i, p, e, rfl, hp, ho, rfl⟩ | ⟨i, p, e, n, rfl, hp, ho, rfl⟩ := step_cases hs
  · refine h.setTask hp (fun x hx => ?_) rfl rfl
    exact ReadProgram.Follows.answer _ (h.follows i _ x hp hx)
  · refine h.setTask hp (fun x hx => ?_) rfl rfl
    have hread := h.follows i _ x hp hx
    exact hread
  all_goals
    have hc : Current (answer s.db.store) p.trace := by simpa [Undisturbed, hp] using hok
    have hn : p.isFinished = false := by cases p <;> first | rfl | exact nomatch ho
    refine h.finishTask hp hn fun x hx => ?_
    rw [runAlone, (h.follows i p x hp hx).eval_eq hc ho]
  · exact Db.store_commit env s.db e n

end Serial

/-- In every run in which a statement ends only while what it has read is unchanged, the store
is the one the ended statements leave when they run alone, one after another in the order in which
they ended. -/
theorem autocommit_serializable (env : Env) (db : Db) (stmts : List Stmt) {s : Sys}
    (h : Reach (Sys.step env) Undisturbed (Sys.start env db stmts) s) :
    ∃ order : List Nat, order.Nodup ∧
      (∀ i, i ∈ order ↔ ∃ p, s.tasks[i]? = some p ∧ p.isFinished = true) ∧
      s.db.store = runInOrder env stmts db.store order := by
  have hinv : Serial env stmts db.store s :=
    h.invariant (Serial.start env db stmts) fun hi hok hs => hi.step hok hs
  exact ⟨s.ended, hinv.nodup, hinv.mem, hinv.store⟩

/-! ## Disturbed runs -/

/-- A table with the primary key `id` and the column `v`. -/
def counterTable : TableDef where
  name := ['t']
  columns := [⟨['i', 'd'], .int, false, .ci⟩, ⟨['v'], .int, true, .ci⟩]
  pkCols := [0]
  indexes := []
  storageGeneration := 0

def counterKey : Bytes := counterTable.dataKey (KeyOrder.bigEndian 256 8 (flipSign 64 1))

/-- The table holds the row `(1, 10)`. -/
def counterDb : Db :=
  ⟨write OrderedMap.OMap.empty
    [(catalogKey ['t'], counterTable.encode), (counterKey, .row [.int 1, .int 10])] [], 0⟩

/-- `UPDATE t SET v = v + 1`. -/
def increment : Stmt := .update
  { table := ['t']
    choices := ⟨none, [], 2⟩
    selection := fun _ => .all
    sort := fun _ rows => .ok rows
    limit := none
    ignore := false
    assign := fun _ row => match row with
      | [id, .int v] => pure [id, .int (v + 1)]
      | _ => pure row
    rules := fun _ _ new => pure (some new)
    widths := fun _ _ => pure () }

/-- `DELETE FROM t`. -/
def deleteAll : Stmt := .delete ⟨['t'], ⟨none, [], 2⟩, fun _ => .all, none⟩

/-- Both statements make their reads, then the second commits, then the first. -/
def overlapped : List Act :=
  [.read 0, .read 0, .read 1, .read 1, .count 1, .finish 1, .count 0, .finish 0]

/-- What the row of the table is after a run of two statements. -/
def rowAfter (stmts : List Stmt) (acts : List Act) : Option (Option Cell) :=
  (run (Sys.step .plain) (Sys.start .plain counterDb stmts) acts).map fun s =>
    s.db.store.get counterKey

/-- What it is after the statements have run one after another. -/
def rowInOrder (stmts : List Stmt) (order : List Nat) : Option Cell :=
  (runInOrder .plain stmts counterDb.store order).get counterKey

/-- Two overlapping increments add one, where either order adds two; and an update that overlaps a
delete brings the row back, where either order deletes it. -/
theorem updates_lost :
    rowAfter [increment, increment] overlapped = some (some (.row [.int 1, .int 11])) ∧
    rowInOrder [increment, increment] [0, 1] = some (.row [.int 1, .int 12]) ∧
    rowInOrder [increment, increment] [1, 0] = some (.row [.int 1, .int 12]) ∧
    rowAfter [increment, deleteAll] overlapped = some (some (.row [.int 1, .int 11])) ∧
    rowInOrder [increment, deleteAll] [0, 1] = none ∧
    rowInOrder [increment, deleteAll] [1, 0] = none := by
  decide +kernel

/-- The second statement reads the definition of the table while the first is under way, and the
rows when it has ended. -/
def interleaved : List Act :=
  [.read 0, .read 1, .read 0, .count 0, .finish 0, .read 1, .count 1, .finish 1]

theorem autocommit_serializable_interleaved :
    ∃ s : Sys, Reach (Sys.step .plain) Undisturbed (Sys.start .plain counterDb
        [increment, deleteAll]) s ∧
      ∃ order : List Nat, order.Nodup ∧
        (∀ i, i ∈ order ↔ ∃ p, s.tasks[i]? = some p ∧ p.isFinished = true) ∧
        s.db.store = runInOrder .plain [increment, deleteAll] counterDb.store order := by
  exact Reach.exists_of_run (P := fun _ => True) interleaved (by decide +kernel)
    fun s hreach _ => autocommit_serializable _ _ _ hreach

end ElyraSql.Engine
