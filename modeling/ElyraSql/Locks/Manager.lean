import ElyraSql.Engine.Statements
import Mathlib.Data.Char

/-!
# Table locks

`lockmgr.rs`, with the parts of `lib.rs` and `session.rs` that decide which locks a statement
needs. A lock is kept as a count of readers and a flag for the writer of a table; a guard stands for
one lock taken. `explicit` counts the guards of `LOCK TABLES`, and is what a statement looks at to
see whether it has to take locks at all.
-/

namespace ElyraSql.Locks

open ElyraSql.Engine ElyraSql.Engine.Env List Prod Function

/-! ## The manager -/

inductive LockMode
  | shared
  | exclusive
  deriving DecidableEq, Repr

structure TableState where
  readers : Nat
  writer : Bool
  deriving DecidableEq, Repr

/-- A table without an entry has no reader and no writer. -/
structure LockManager where
  tables : Text → TableState
  explicit : Nat

def LockManager.new : LockManager := ⟨fun _ => ⟨0, false⟩, 0⟩

namespace LockManager

def explicitActive (m : LockManager) : Bool := decide (0 < m.explicit)

/-- Whether a lock can be taken beside those that are held. -/
def free (st : TableState) : LockMode → Bool
  | .shared => !st.writer
  | .exclusive => !st.writer && st.readers == 0

def taken (st : TableState) : LockMode → TableState
  | .shared => { st with readers := st.readers + 1 }
  | .exclusive => { st with writer := true }

def tryTake (m : LockManager) (table : Text) (mode : LockMode) : Option LockManager :=
  if free (m.tables table) mode then
    some { m with tables := Function.update m.tables table (taken (m.tables table) mode) }
  else none

theorem tryTake_explicit {m m' : LockManager} {table : Text} {mode : LockMode}
    (h : m.tryTake table mode = some m') : m'.explicit = m.explicit := by
  unfold tryTake at h
  split at h <;> cases h
  rfl

def givenBack (st : TableState) : LockMode → TableState
  | .shared => { st with readers := st.readers - 1 }
  | .exclusive => { st with writer := false }

def giveBack (m : LockManager) (table : Text) (mode : LockMode) : LockManager :=
  { m with tables := Function.update m.tables table (givenBack (m.tables table) mode) }

end LockManager

/-! ## The locks a statement needs -/

abbrev Lock := Text × LockMode

/-- One step of the loop of `strongest_locks`: the entry of this name, whatever its case, is made
exclusive if need be. -/
def addLock : List Lock → Lock → List Lock
  | [], l => [l]
  | e :: out, l =>
    if eqIgnoreAsciiCase e.1 l.1 then
      (e.1, if l.2 = .exclusive then .exclusive else e.2) :: out
    else e :: addLock out l

/-- `strongest_locks`: one lock for each name, in the order of the names. -/
def strongestLocks (locks : List Lock) : List Lock :=
  (locks.foldl addLock []).insertionSort fun a b => a.1.map asciiLower ≤ b.1.map asciiLower

/-- A statement: what `lock_access` finds in its text, the tables its views read, and the tables
that running it reads or writes. -/
structure LockStmt where
  /-- The tables of the stale materialized views that are refreshed before locks are looked at. -/
  refreshes : List Text
  /-- The result is a `RowStream::scan`, which is read after the statement's guards are dropped. -/
  streamed : Bool
  /-- A query, or an INSERT, UPDATE or DELETE. -/
  dml : Bool
  /-- It needs more than the privilege to read. -/
  needsWrite : Bool
  inRoutine : Bool
  writes : List Text
  reads : List Text
  base : List Text
  touches : List Text

def LockStmt.names (x : LockStmt) : List Text := x.writes ++ x.base ++ x.reads

def heldLock (held : List Lock) (table : Text) : Option LockMode :=
  match (held.filter fun l => eqIgnoreAsciiCase l.1 table).map snd with
  | [] => none
  | first :: rest => some (if rest.contains .exclusive then .exclusive else first)

inductive LockError
  | conflictingReadLock
  | tableLockedForRead (table : Text)
  | tableNotLocked (table : Text)

/-- The tables a statement writes, under `LOCK TABLES`. -/
def checkWrites (held : List Lock) : List Text → Except LockError Unit
  | [] => .ok ()
  | t :: ts =>
    match heldLock held t with
    | some .exclusive => checkWrites held ts
    | some .shared => .error (.tableLockedForRead t)
    | none => .error (.tableNotLocked t)

/-- The tables a statement reads, under `LOCK TABLES`. -/
def checkReads (held : List Lock) : List Text → Except LockError Unit
  | [] => .ok ()
  | t :: ts => if (heldLock held t).isNone then .error (.tableNotLocked t) else checkReads held ts

def checkOwnLocks (held : List Lock) (globalRead : Bool) (x : LockStmt) : Except LockError Unit :=
  if globalRead then if x.needsWrite then .error .conflictingReadLock else .ok ()
  else if !x.dml || held.isEmpty || x.inRoutine then .ok ()
  else do
    checkWrites held x.writes
    checkReads held x.reads

open LockMode

/-- `transient_locks`: what the session does not hold already. -/
def transientLocks (held : List Lock) (x : LockStmt) : List Lock :=
  (strongestLocks (x.writes.map (·, LockMode.exclusive) ++ x.base.map (·, LockMode.shared) ++
    x.reads.map (·, LockMode.shared))).filter fun l => (heldLock held l.1).isNone

/-! ## What the locks cover -/

/-- A lock adds its name unless it is there up to case. -/
theorem map_fst_addLock (out : List Lock) (l : Lock) :
    (addLock out l).map fst = out.map fst ++
      if (out.map fst).any (eqIgnoreAsciiCase · l.1) then [] else [l.1] := by
  induction out with
  | nil => rfl
  | cons e out ih =>
    rw [addLock]
    split
    case isTrue h => simp [h]
    case isFalse h =>
      rw [map_cons, ih, map_cons, any_cons, Bool.eq_false_of_not_eq_true h]
      rfl

/-- Every lock asked for is there, under its name up to case, and no other name is. -/
theorem foldl_addLock (locks out : List Lock) :
    (∀ l ∈ locks, ∃ n ∈ (locks.foldl addLock out).map fst, eqIgnoreAsciiCase n l.1 = true) ∧
    out.map fst ⊆ (locks.foldl addLock out).map fst ∧
    (locks.foldl addLock out).map fst ⊆ locks.map fst ++ out.map fst := by
  induction locks generalizing out with
  | nil => exact ⟨nofun, List.Subset.refl _, List.Subset.refl _⟩
  | cons l locks ih =>
    obtain ⟨hcovers, hkeeps, hnames⟩ := ih (addLock out l)
    rw [map_fst_addLock] at hkeeps hnames
    obtain ⟨hout, hl⟩ := append_subset.mp hkeeps
    refine ⟨forall_mem_cons.mpr ⟨?_, hcovers⟩, hout, fun n hn => ?_⟩
    · split at hl
      case isTrue hany =>
        obtain ⟨n, hn, heq⟩ := any_eq_true.mp hany
        exact ⟨n, hout hn, heq⟩
      case isFalse => exact ⟨l.1, hl mem_cons_self, beq_self_eq_true _⟩
    · have := hnames hn
      split at this <;> simp at this ⊢ <;> tauto

theorem heldLock_isSome {held : List Lock} {t : Text} (h : (heldLock held t).isSome = true) :
    ∃ l ∈ held, eqIgnoreAsciiCase l.1 t = true := by
  unfold heldLock at h
  split at h
  case h_1 => exact nomatch h
  case h_2 first rest heq =>
    have hmem : first ∈ (held.filter fun l => eqIgnoreAsciiCase l.1 t).map snd :=
      heq ▸ mem_cons_self
    obtain ⟨l, hl, -⟩ := mem_map.mp hmem
    exact ⟨l, (mem_filter.mp hl).1, (mem_filter.mp hl).2⟩

/-- A table the statement names is locked for the statement, or the session holds it already; in
both cases under the name up to its case. -/
theorem transientLocks_covers (held : List Lock) {x : LockStmt} {t : Text} (ht : t ∈ x.names) :
    ∃ n, eqIgnoreAsciiCase n t = true ∧ n ∈ x.names ∧
      (n ∈ (transientLocks held x).map fst ∨ ∃ l ∈ held, eqIgnoreAsciiCase l.1 n = true) := by
  let locks : List Lock := x.writes.map (·, exclusive) ++ x.base.map (·, shared) ++
    x.reads.map (·, shared)
  have hnames : locks.map fst = x.names := by
    simp [locks, LockStmt.names, comp_def]
  obtain ⟨l, hl, rfl⟩ := mem_map.mp (hnames ▸ ht)
  obtain ⟨hcovers, -, hsub⟩ := foldl_addLock locks []
  obtain ⟨n, hn, hname⟩ := hcovers l hl
  have hmem : n ∈ x.names := by
    have := hsub hn
    rwa [map_nil, append_nil, hnames] at this
  obtain ⟨e, he, rfl⟩ := mem_map.mp hn
  have hsorted : e ∈ strongestLocks locks := (mem_insertionSort _).mpr he
  refine ⟨e.1, hname, hmem, ?_⟩
  cases hheld : heldLock held e.1 with
  | none => exact .inl (mem_map.mpr ⟨e, mem_filter.mpr ⟨hsorted, by rw [hheld]; rfl⟩, rfl⟩)
  | some mode => exact .inr (heldLock_isSome (by rw [hheld]; rfl))

/-! ## What the manager's entries say

`Reflects m locks`: `locks` are the locks that have been taken and not given back.
-/

/-- Two locks that may be held at once. -/
def Compatible (a b : Lock) : Prop :=
  a.1 = b.1 → a.2 = .shared ∧ b.2 = .shared

structure Reflects (m : LockManager) (locks : List Lock) : Prop where
  readers : ∀ t, (m.tables t).readers = locks.count (t, .shared)
  writer : ∀ t, (m.tables t).writer = true ↔ (t, LockMode.exclusive) ∈ locks
  compatible : locks.Pairwise Compatible

namespace Reflects

variable {m m' : LockManager} {locks locks' : List Lock} {l : Lock}

theorem new : Reflects .new [] :=
  ⟨fun _ => rfl, fun _ => ⟨nofun, nofun⟩, .nil⟩

theorem perm (h : Reflects m locks) (hperm : locks.Perm locks') : Reflects m locks' := by
  refine ⟨fun t => (h.readers t).trans (hperm.count_eq _), fun t =>
    (h.writer t).trans hperm.mem_iff,
    h.compatible.perm hperm ?_⟩
  intro a b hab hname
  exact (hab hname.symm).symm

open LockManager

/-- A lock is taken only beside locks it is compatible with. -/
theorem tryTake (h : Reflects m locks) (htake : m.tryTake l.1 l.2 = some m') :
    Reflects m' (l :: locks) := by
  obtain ⟨t, mode⟩ := l
  unfold tryTake at htake
  split at htake
  case isFalse => exact nomatch htake
  case isTrue hfree =>
    cases htake
    have hwriter : (t, exclusive) ∉ locks := by
      rw [← h.writer t]
      cases mode <;> simp_all [free]
    refine ⟨fun u => ?_, fun u => ?_, pairwise_cons.mpr ⟨fun b hb hname => ?_, h.compatible⟩⟩
    · by_cases hu : u = t
      · subst hu
        cases mode <;> simp [taken, h.readers]
      · simp [h.readers, hu, Ne.symm hu]
    · by_cases hu : u = t
      · subst hu
        cases mode <;> simp [taken, h.writer]
      · simp [h.writer, hu]
    · obtain ⟨u, mode'⟩ := b
      cases hname
      cases mode' with
      | exclusive => exact absurd hb hwriter
      | shared =>
        cases mode with
        | shared => exact ⟨rfl, rfl⟩
        | exclusive =>
          -- A reader is counted, so an exclusive lock would have been refused.
          have hzero : locks.count (t, shared) = 0 := by
            rw [← h.readers t]
            simp_all [free]
          exact absurd hb (count_eq_zero.mp hzero)

theorem giveBack (h : Reflects m (l :: locks)) : Reflects (m.giveBack l.1 l.2) locks := by
  obtain ⟨t, mode⟩ := l
  obtain ⟨hhead, htail⟩ := pairwise_cons.mp h.compatible
  refine ⟨fun u => ?_, fun u => ?_, htail⟩
  · have hu := h.readers u
    by_cases hut : u = t
    · cases mode <;> simp_all [giveBack, givenBack]
    · rw [count_cons_of_ne (by simp [Ne.symm hut])] at hu
      simpa [giveBack, hut] using hu
  · have hu := h.writer u
    by_cases hut : u = t
    · subst hut
      cases mode with
      | shared => simpa [giveBack, givenBack] using hu
      | exclusive =>
        have hnot : (u, exclusive) ∉ locks := fun hmem => nomatch (hhead _ hmem rfl).1
        simp [giveBack, givenBack, hnot]
    · simpa [giveBack, hut] using hu

end Reflects

end ElyraSql.Locks
