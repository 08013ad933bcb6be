import ElyraSql.Library.Transition
import ElyraSql.Locks.Manager

/-!
# LOCK TABLES and the statements of other sessions

The sessions of one engine as a transition system. `acquire` takes a lock and then raises the count
of explicit locks, dropping a guard gives the lock back and then lowers the count, and a statement
looks at the count, waits for its locks and runs: each of these is a step. A scan that is streamed
is read after its statement has ended and dropped its guards.
-/

namespace ElyraSql.Locks

open ElyraSql.Engine ElyraSql.Engine.Env Transition List Function Bool

/-! ## The system -/

/-- A lock with the session it belongs to; `explicit` for those of `LOCK TABLES`. -/
structure Taken (n : Nat) where
  owner : Fin n
  lock : Lock
  explicit : Bool
  deriving DecidableEq

/-- `LockGuard`; `counted` once the count of explicit locks has been raised for it. -/
structure Guard (n : Nat) where
  taken : Taken n
  counted : Bool
  deriving DecidableEq

inductive Phase
  | idle
  /-- Dropping the guards of `LOCK TABLES`, and what `lock_tables` goes on with. `returned` tells
  whether the `LOCK TABLES` that took them had returned. -/
  | releasing (returned : Bool) (next : Option (List Lock × Bool))
  /-- Within `lock_tables`, with the locks still to take. -/
  | locking (todo : List Lock) (globalRead : Bool)
  /-- A statement before it looks at `explicit_active`. -/
  | checking (x : LockStmt)
  | waiting (x : LockStmt) (todo : List Lock)
  | executing (x : LockStmt)
  /-- Dropping the guards of the statement. -/
  | finishing

/-- The session's explicit guards are those of a `LOCK TABLES` that has returned. -/
def Phase.holding : Phase → Bool
  | .releasing returned _ => returned
  | .locking _ _ => false
  | _ => true

/-- The tables that a running statement reads or writes. -/
def Phase.touching : Phase → List Text
  | .checking x => x.refreshes
  | .executing x => x.touches
  | _ => []

/-- The statement about to look at `explicit_active`. -/
def Phase.statement? : Phase → Option LockStmt
  | .checking x => some x
  | _ => none

structure LockSys (n : Nat) where
  mgr : LockManager
  guards : List (Guard n)
  /-- Sessions that gave an explicit lock back and have not lowered the count yet. -/
  owed : List (Fin n)
  phase : Fin n → Phase
  /-- `global_read_lock`. -/
  globalRead : Fin n → Bool
  /-- The tables of the streams that a session has not read to their ends. -/
  streams : Fin n → List Text

namespace LockSys

variable {n : Nat}

def new : LockSys n := ⟨.new, [], [], fun _ => .idle, fun _ => false, fun _ => []⟩

def taken (σ : LockSys n) : List (Taken n) := σ.guards.map Guard.taken

def enter (σ : LockSys n) (s : Fin n) (p : Phase) : LockSys n :=
  { σ with phase := update σ.phase s p }

/-- The tables that statements of a session read or write. -/
def touching (σ : LockSys n) (s : Fin n) : List Text := (σ.phase s).touching ++ σ.streams s

open Taken

def heldLocks (σ : LockSys n) (s : Fin n) : List Lock :=
  (σ.taken.filter fun k => k.owner = s ∧ k.explicit = true).map Taken.lock

def nextGuard (σ : LockSys n) (s : Fin n) (explicit : Bool) : Option (Guard n) :=
  σ.guards.find? fun g => g.taken.owner = s ∧ g.taken.explicit = explicit

/-- The session has taken an explicit lock for which the count has not been raised. -/
def uncounted (σ : LockSys n) (s : Fin n) : Bool :=
  σ.guards.any fun g => g.taken.owner = s ∧ g.taken.explicit = true ∧ g.counted = false

/-- The guard whose lock was taken last is counted. -/
def markCounted (s : Fin n) : List (Guard n) → List (Guard n)
  | [] => []
  | g :: gs =>
    if g.taken.owner = s ∧ g.taken.explicit = true ∧ g.counted = false then
      { g with counted := true } :: gs
    else g :: markCounted s gs

/-- A successful `try_take`. -/
def withLock (σ : LockSys n) (s : Fin n) (l : Lock) (explicit : Bool) (m : LockManager) :
    LockSys n :=
  { σ with mgr := m, guards := σ.guards ++ [⟨⟨s, l, explicit⟩, false⟩] }

/-- `give_back`, as part of dropping a guard. -/
def withoutLock (σ : LockSys n) (g : Guard n) : LockSys n :=
  { σ with mgr := σ.mgr.giveBack g.taken.lock.1 g.taken.lock.2, guards := σ.guards.erase g }

inductive Act (n : Nat)
  /-- `LOCK TABLES`, or `FLUSH TABLES WITH READ LOCK`. -/
  | lockTables (s : Fin n) (locks : List Lock) (globalRead : Bool)
  | unlockTables (s : Fin n)
  /-- `give_back` of the next guard of `LOCK TABLES`. -/
  | release (s : Fin n)
  /-- `explicit.fetch_sub`. -/
  | uncount (s : Fin n)
  | released (s : Fin n)
  /-- A `try_take` that succeeds. -/
  | take (s : Fin n)
  /-- `explicit.fetch_add`. -/
  | count (s : Fin n)
  /-- `LOCK TABLES` returns. -/
  | locked (s : Fin n)
  /-- A lock is not given in time. -/
  | timeout (s : Fin n)
  | start (s : Fin n) (x : LockStmt)
  | check (s : Fin n)
  | execute (s : Fin n)
  | finish (s : Fin n)
  | dropGuard (s : Fin n)
  | done (s : Fin n)
  /-- The streams of the session are read or given up. -/
  | drained (s : Fin n)

def step (σ : LockSys n) : Act n → Option (LockSys n)
  | .lockTables s locks globalRead =>
    match σ.phase s with
    | .idle => some (σ.enter s (.releasing true
        (some (if globalRead then locks else strongestLocks locks, globalRead))))
    | _ => none
  | .unlockTables s =>
    match σ.phase s with
    | .idle => some (σ.enter s (.releasing true none))
    | _ => none
  | .release s =>
    match σ.phase s, σ.nextGuard s true with
    | .releasing _ _, some g =>
      if s ∈ σ.owed then none else some { σ.withoutLock g with owed := s :: σ.owed }
    | _, _ => none
  | .uncount s =>
    if s ∈ σ.owed then
      some { σ with
        mgr := { σ.mgr with explicit := σ.mgr.explicit - 1 }
        owed := σ.owed.erase s }
    else none
  | .released s =>
    match σ.phase s, σ.nextGuard s true with
    | .releasing _ next, none =>
      if s ∈ σ.owed then none
      else
        let σ' := { σ with globalRead := update σ.globalRead s false }
        some (match next with
          | none => σ'.enter s .idle
          | some (locks, globalRead) => σ'.enter s (.locking locks globalRead))
    | _, _ => none
  | .take s =>
    match σ.phase s with
    | .locking (l :: todo) globalRead =>
      if σ.uncounted s then none
      else (σ.mgr.tryTake l.1 l.2).map fun m =>
        (σ.withLock s l true m).enter s (.locking todo globalRead)
    | .waiting x (l :: todo) =>
      (σ.mgr.tryTake l.1 l.2).map fun m => (σ.withLock s l false m).enter s (.waiting x todo)
    | _ => none
  | .count s =>
    if σ.uncounted s then
      some { σ with
        mgr := { σ.mgr with explicit := σ.mgr.explicit + 1 }
        guards := markCounted s σ.guards }
    else none
  | .locked s =>
    match σ.phase s with
    | .locking [] globalRead =>
      if σ.uncounted s then none
      else some { σ.enter s .idle with globalRead := update σ.globalRead s globalRead }
    | _ => none
  | .timeout s =>
    match σ.phase s with
    | .locking (_ :: _) _ =>
      if σ.uncounted s then none else some (σ.enter s (.releasing false none))
    | .waiting _ (_ :: _) => some (σ.enter s .finishing)
    | _ => none
  | .start s x =>
    match σ.phase s with
    | .idle => some (σ.enter s (.checking x))
    | _ => none
  | .check s =>
    match σ.phase s with
    | .checking x =>
      if σ.mgr.explicitActive then
        match checkOwnLocks (σ.heldLocks s) (σ.globalRead s) x with
        | .error _ => some (σ.enter s .finishing)
        | .ok () => some (σ.enter s (.waiting x (transientLocks (σ.heldLocks s) x)))
      else some (σ.enter s (.executing x))
    | _ => none
  | .execute s =>
    match σ.phase s with
    | .waiting x [] => some (σ.enter s (.executing x))
    | _ => none
  | .finish s =>
    match σ.phase s with
    | .executing x => some { σ.enter s .finishing with
        streams := update σ.streams s (σ.streams s ++ if x.streamed then x.touches else []) }
    | _ => none
  | .dropGuard s =>
    match σ.phase s, σ.nextGuard s false with
    | .finishing, some g => some (σ.withoutLock g)
    | _, _ => none
  | .done s =>
    match σ.phase s, σ.nextGuard s false with
    | .finishing, none => some (σ.enter s .idle)
    | _, _ => none
  | .drained s => some { σ with streams := update σ.streams s [] }

/-! ## What a step can do -/

/-- The steps that only change the phase of a session. -/
inductive Enters (σ : LockSys n) : Act n → Fin n → Phase → Prop
  | lockTables {s locks b next} : σ.phase s = .idle →
      Enters σ (.lockTables s locks b) s (.releasing true next)
  | unlockTables {s} : σ.phase s = .idle → Enters σ (.unlockTables s) s (.releasing true none)
  | released {s returned} : σ.phase s = .releasing returned none → σ.nextGuard s true = none →
      Enters σ (.released s) s .idle
  | relock {s returned locks b} : σ.phase s = .releasing returned (some (locks, b)) →
      σ.nextGuard s true = none → Enters σ (.released s) s (.locking locks b)
  | locked {s b} : σ.phase s = .locking [] b → σ.uncounted s = false → Enters σ (.locked s) s .idle
  | giveUp {s l todo b} : σ.phase s = .locking (l :: todo) b → σ.uncounted s = false →
      Enters σ (.timeout s) s (.releasing false none)
  | timeout {s x l todo} : σ.phase s = .waiting x (l :: todo) → Enters σ (.timeout s) s .finishing
  | start {s x} : σ.phase s = .idle → Enters σ (.start s x) s (.checking x)
  | pass {s x} : σ.phase s = .checking x → σ.mgr.explicitActive = false →
      Enters σ (.check s) s (.executing x)
  | refuse {s x} : σ.phase s = .checking x → Enters σ (.check s) s .finishing
  | wait {s x} : σ.phase s = .checking x → σ.mgr.explicitActive = true →
      Enters σ (.check s) s (.waiting x (transientLocks (σ.heldLocks s) x))
  | execute {s x} : σ.phase s = .waiting x [] → Enters σ (.execute s) s (.executing x)
  | done {s} : σ.phase s = .finishing → Enters σ (.done s) s .idle

inductive Moved (σ : LockSys n) : Act n → LockSys n → Prop
  | enter {a s p} (b : Fin n → Bool) : Enters σ a s p →
      Moved σ a { σ.enter s p with globalRead := b }
  | takeExplicit {s l todo b m} : σ.phase s = .locking (l :: todo) b → σ.uncounted s = false →
      σ.mgr.tryTake l.1 l.2 = some m →
      Moved σ (.take s) ((σ.withLock s l true m).enter s (.locking todo b))
  | takeTransient {s x l todo m} : σ.phase s = .waiting x (l :: todo) →
      σ.mgr.tryTake l.1 l.2 = some m →
      Moved σ (.take s) ((σ.withLock s l false m).enter s (.waiting x todo))
  | release {s returned next g} : σ.phase s = .releasing returned next → g ∈ σ.guards →
      g.taken.owner = s → g.taken.explicit = true →
      Moved σ (.release s) { σ.withoutLock g with owed := s :: σ.owed }
  | dropGuard {s g} : σ.phase s = .finishing → g ∈ σ.guards → g.taken.owner = s →
      g.taken.explicit = false → Moved σ (.dropGuard s) (σ.withoutLock g)
  | finish {s x} : σ.phase s = .executing x →
      Moved σ (.finish s) { σ.enter s .finishing with
        streams := update σ.streams s (σ.streams s ++ if x.streamed then x.touches else []) }
  | drained {s} : Moved σ (.drained s) { σ with streams := update σ.streams s [] }
  | count {s} : σ.uncounted s = true →
      Moved σ (.count s) { σ with
        mgr := { σ.mgr with explicit := σ.mgr.explicit + 1 }
        guards := markCounted s σ.guards }
  | uncount {s} : s ∈ σ.owed →
      Moved σ (.uncount s) { σ with
        mgr := { σ.mgr with explicit := σ.mgr.explicit - 1 }
        owed := σ.owed.erase s }

variable {σ σ' : LockSys n} {s : Fin n}
variable {g : Guard n}
variable {explicit : Bool}

theorem nextGuard_some (h : σ.nextGuard s explicit = some g) :
    g ∈ σ.guards ∧ g.taken.owner = s ∧ g.taken.explicit = explicit :=
  ⟨mem_of_find?_eq_some h, by simpa using find?_some h⟩

variable {a : Act n}

theorem step_moved (h : σ.step a = some σ') : Moved σ a σ' := by
  cases a <;> simp only [step] at h
  case lockTables s locks b =>
    split at h <;> cases h
    exact .enter _ (.lockTables ‹_›)
  case unlockTables s =>
    split at h <;> cases h
    exact .enter _ (.unlockTables ‹_›)
  case release s =>
    split at h
    case h_2 => exact nomatch h
    case h_1 hphase hnext =>
      split at h <;> cases h
      obtain ⟨hg, howner, hexplicit⟩ := nextGuard_some hnext
      exact .release hphase hg howner hexplicit
  case uncount s =>
    split at h <;> cases h
    exact .uncount ‹_›
  case released s =>
    split at h
    case h_2 => exact nomatch h
    case h_1 returned next hphase hnext =>
      split at h <;> cases h
      cases next with
      | none => exact .enter _ (.released hphase hnext)
      | some locks => exact .enter _ (.relock hphase hnext)
  case take s =>
    split at h
    case h_1 hphase =>
      split at h
      case isTrue => exact nomatch h
      case isFalse huncounted =>
        obtain ⟨m, hm, rfl⟩ := Option.map_eq_some_iff.mp h
        exact .takeExplicit hphase (eq_false_of_not_eq_true huncounted) hm
    case h_2 hphase =>
      obtain ⟨m, hm, rfl⟩ := Option.map_eq_some_iff.mp h
      exact .takeTransient hphase hm
    case h_3 => exact nomatch h
  case count s =>
    split at h <;> cases h
    exact .count ‹_›
  case locked s =>
    split at h
    case h_2 => exact nomatch h
    case h_1 hphase =>
      split at h <;> cases h
      exact .enter _ (.locked hphase (eq_false_of_not_eq_true ‹_›))
  case timeout s =>
    split at h
    case h_1 hphase =>
      split at h <;> cases h
      exact .enter _ (.giveUp hphase (eq_false_of_not_eq_true ‹_›))
    case h_2 hphase =>
      cases h
      exact .enter _ (.timeout hphase)
    case h_3 => exact nomatch h
  case start s x =>
    split at h <;> cases h
    exact .enter _ (.start ‹_›)
  case check s =>
    split at h
    case h_2 => exact nomatch h
    case h_1 hphase =>
      split at h
      case isTrue hactive =>
        split at h <;> cases h
        · exact .enter _ (.refuse hphase)
        · exact .enter _ (.wait hphase hactive)
      case isFalse hactive =>
        cases h
        exact .enter _ (.pass hphase (eq_false_of_not_eq_true hactive))
  case execute s =>
    split at h <;> cases h
    exact .enter _ (.execute ‹_›)
  case finish s =>
    split at h <;> cases h
    exact .finish ‹_›
  case dropGuard s =>
    split at h <;> cases h
    case h_1 hphase hnext =>
      obtain ⟨hg, howner, hexplicit⟩ := nextGuard_some hnext
      exact .dropGuard hphase hg howner hexplicit
  case done s =>
    split at h <;> cases h
    exact .enter _ (.done ‹_›)
  case drained s =>
    cases h
    exact .drained

/-! ## Locks held at once are compatible -/

theorem taken_markCounted (s : Fin n) (gs : List (Guard n)) :
    (markCounted s gs).map Guard.taken = gs.map Guard.taken := by
  induction gs with
  | nil => rfl
  | cons g gs ih =>
    rw [markCounted]
    split
    · rfl
    · rw [map_cons, ih, map_cons]

variable {gs : List (Guard n)}

theorem mem_markCounted (h : g ∈ markCounted s gs) :
    g ∈ gs ∨ (g.counted = true ∧ g.taken.explicit = true) := by
  induction gs with
  | nil => exact nomatch h
  | cons g' gs ih =>
    rw [markCounted] at h
    split at h
    case isTrue hg' =>
      rcases mem_cons.mp h with rfl | h
      · exact .inr ⟨rfl, hg'.2.1⟩
      · exact .inl (mem_cons_of_mem _ h)
    case isFalse =>
      rcases mem_cons.mp h with rfl | h
      · exact .inl mem_cons_self
      · exact (ih h).imp_left (mem_cons_of_mem _)

theorem countP_markCounted
    (h : (gs.any fun g => g.taken.owner = s ∧ g.taken.explicit = true ∧ g.counted = false) = true) :
    (markCounted s gs).countP (·.counted) = gs.countP (·.counted) + 1 := by
  induction gs with
  | nil => exact nomatch h
  | cons g gs ih =>
    rw [markCounted]
    split
    case isTrue hg => simp [hg.2.2]
    case isFalse hg =>
      rw [any_cons, decide_eq_false hg] at h
      rw [countP_cons, countP_cons, ih h]
      omega

/-- The manager's entries are those of the guards, and the count of explicit locks is that of the
guards for which it was raised and not lowered again. -/
structure Inv (σ : LockSys n) : Prop where
  reflects : Reflects σ.mgr (σ.taken.map Taken.lock)
  explicit : σ.mgr.explicit = σ.guards.countP (·.counted) + σ.owed.length
  counted : ∀ g ∈ σ.guards, g.counted = true → g.taken.explicit = true
  uncounted : ∀ g ∈ σ.guards, g.taken.explicit = true → g.counted = false →
    ∃ todo b, σ.phase g.taken.owner = .locking todo b

theorem Inv.new : Inv (new : LockSys n) :=
  ⟨Reflects.new, rfl, nofun, nofun⟩

theorem uncounted_eq_false (h : σ.uncounted s = false) (hg : g ∈ σ.guards)
    (howner : g.taken.owner = s) (hexplicit : g.taken.explicit = true) : g.counted = true := by
  have := any_eq_false.mp h g hg
  simpa [howner, hexplicit] using this

/-- Outside `lock_tables` every explicit lock of a session is counted. -/
theorem Inv.all_counted (hinv : Inv σ) (hphase : ∀ todo b, σ.phase s ≠ .locking todo b) :
    σ.uncounted s = false := by
  refine any_eq_false.mpr fun g hg huncounted => ?_
  obtain ⟨rfl, hexplicit, hcounted⟩ := of_decide_eq_true huncounted
  obtain ⟨todo, b, hlocking⟩ := hinv.uncounted g hg hexplicit hcounted
  exact hphase todo b hlocking

variable {p : Phase}

theorem Enters.all_counted (h : Enters σ a s p) (hinv : Inv σ) : σ.uncounted s = false := by
  cases h with
  | locked _ h => exact h
  | giveUp _ h => exact h
  | lockTables h | unlockTables h | released h | relock h | timeout h | start h | pass h
  | refuse h | wait h | execute h | done h =>
    exact hinv.all_counted fun todo b heq => nomatch h.symm.trans heq

theorem taken_perm_withoutLock (hg : g ∈ σ.guards) :
    (σ.taken.map lock).Perm (g.taken.lock :: ((σ.withoutLock g).taken.map lock)) :=
  ((perm_cons_erase hg).map Guard.taken).map Taken.lock

theorem countP_counted_erase (hg : g ∈ gs) :
    gs.countP (·.counted) = (gs.erase g).countP (·.counted) + if g.counted then 1 else 0 := by
  rw [(perm_cons_erase hg).countP_eq, countP_cons]

variable {m : LockManager}

theorem Inv.withLock {l : Lock} (hinv : Inv σ) (htake : σ.mgr.tryTake l.1 l.2 = some m)
    (hcounted : σ.uncounted s = false) (hp : explicit = true → ∃ todo b, p = .locking todo b) :
    Inv ((σ.withLock s l explicit m).enter s p) := by
  refine ⟨(hinv.reflects.tryTake htake).perm ?_, ?_, fun g hg hc => ?_, fun g hg he hc => ?_⟩
  · simp [taken, enter, LockSys.withLock, perm_append_singleton _ _ |>.symm]
  · simp [enter, LockSys.withLock, LockManager.tryTake_explicit htake, hinv.explicit]
  · rcases mem_append.mp hg with hg | hg
    · exact hinv.counted g hg hc
    · rw [mem_singleton.mp hg] at hc
      exact nomatch hc
  · rcases mem_append.mp hg with hg | hg
    · have hne : g.taken.owner ≠ s := fun heq =>
        nomatch (uncounted_eq_false hcounted hg heq he).symm.trans hc
      obtain ⟨todo, b, hphase⟩ := hinv.uncounted g hg he hc
      exact ⟨todo, b, (update_of_ne hne _ _).trans hphase⟩
    · obtain rfl := mem_singleton.mp hg
      obtain ⟨todo, b, rfl⟩ := hp he
      exact ⟨todo, b, update_self _ _ _⟩

theorem Inv.withoutLock (hinv : Inv σ) (hg : g ∈ σ.guards) {owed : List (Fin n)}
    (howed : owed.length = σ.owed.length + if g.counted then 1 else 0) :
    Inv { σ.withoutLock g with owed := owed } := by
  refine ⟨(hinv.reflects.perm (taken_perm_withoutLock hg)).giveBack, ?_,
    fun g' hg' => hinv.counted g' (mem_of_mem_erase hg'),
    fun g' hg' => hinv.uncounted g' (mem_of_mem_erase hg')⟩
  show σ.mgr.explicit = (σ.guards.erase g).countP (·.counted) + owed.length
  rw [hinv.explicit, countP_counted_erase hg]
  omega

/-- A session with no lock to count changes its phase. -/
theorem Inv.enter (hinv : Inv σ) (hcounted : σ.uncounted s = false) (p : Phase) :
    Inv (σ.enter s p) := by
  refine ⟨hinv.reflects, hinv.explicit, hinv.counted, fun g hg hexplicit hc => ?_⟩
  have hne : g.taken.owner ≠ s := fun heq =>
    nomatch (uncounted_eq_false hcounted hg heq hexplicit).symm.trans hc
  obtain ⟨todo, b, hphase⟩ := hinv.uncounted g hg hexplicit hc
  exact ⟨todo, b, (update_of_ne hne _ _).trans hphase⟩

theorem Inv.step (hinv : Inv σ) (h : σ.step a = some σ') : Inv σ' := by
  cases step_moved h with
  | enter b henter => exact { hinv.enter (henter.all_counted hinv) _ with }
  | finish hphase =>
    exact { hinv.enter (hinv.all_counted fun _ _ heq => nomatch hphase.symm.trans heq) _ with }
  | drained => exact { hinv with }
  | takeExplicit _ huncounted htake =>
    exact hinv.withLock htake huncounted fun _ => ⟨_, _, rfl⟩
  | takeTransient hphase htake =>
    exact hinv.withLock htake (hinv.all_counted fun _ _ heq => nomatch hphase.symm.trans heq) nofun
  | @release s _ _ g hphase hg howner hexplicit =>
    have hcounted : g.counted = true := uncounted_eq_false
      (hinv.all_counted fun _ _ heq => nomatch hphase.symm.trans heq) hg howner hexplicit
    exact hinv.withoutLock hg (by rw [if_pos hcounted]; rfl)
  | @dropGuard s g hphase hg howner hexplicit =>
    have hcounted : ¬ g.counted = true := fun hc =>
      nomatch (hinv.counted g hg hc).symm.trans hexplicit
    exact hinv.withoutLock hg (by rw [if_neg hcounted]; rfl)
  | @count s huncounted =>
    refine ⟨?_, ?_, fun g hg hc => ?_, fun g hg he hc => ?_⟩
    · have hreflects := hinv.reflects
      rw [taken, ← taken_markCounted s] at hreflects
      exact ⟨hreflects.readers, hreflects.writer, hreflects.compatible⟩
    · rw [countP_markCounted huncounted, hinv.explicit]
      exact Nat.add_right_comm _ _ _
    · exact (mem_markCounted hg).elim (hinv.counted g · hc) And.right
    · rcases mem_markCounted hg with hg | ⟨hc', -⟩
      · exact hinv.uncounted g hg he hc
      · exact nomatch hc'.symm.trans hc
  | @uncount s howed =>
    refine ⟨⟨hinv.reflects.readers, hinv.reflects.writer, hinv.reflects.compatible⟩, ?_,
      hinv.counted, hinv.uncounted⟩
    show σ.mgr.explicit - 1 = σ.guards.countP (·.counted) + (σ.owed.erase s).length
    have hpos := length_pos_of_mem howed
    rw [length_erase_of_mem howed, hinv.explicit]
    omega

/-! ## Statements and the locks of others -/

/-- The session has a lock on the table, of either kind. -/
def Owns (σ : LockSys n) (s : Fin n) (t : Text) : Prop :=
  ∃ k ∈ σ.taken, k.owner = s ∧ k.lock.1 = t

/-- What carries a statement. While it waits, every table it touches has a lock or is still to be
locked. What it touches has a lock, or no lock of `LOCK TABLES` is counted; a stream needs the
latter, as it outlives the locks of its statement. -/
structure Covered (σ : LockSys n) (s : Fin n) : Prop where
  waiting : ∀ x todo, σ.phase s = .waiting x todo → x.streamed = false ∧
    ∀ t ∈ x.touches, t ∈ todo.map Prod.fst ∨ Owns σ s t
  touching : ∀ t ∈ (σ.phase s).touching, Owns σ s t ∨ σ.mgr.explicit = 0
  streamed : ∀ x, σ.phase s = .executing x → x.streamed = true → ∀ t ∈ x.touches,
    σ.mgr.explicit = 0
  streams : ∀ t ∈ σ.streams s, σ.mgr.explicit = 0

/-- The tables a statement touches are among those it names, and no other name it uses or its
session has locked differs from them in case only. -/
def NamesAll (held : List Lock) (x : LockStmt) : Prop :=
  ∀ t ∈ x.touches, t ∈ x.names ∧
    ∀ u ∈ x.names ++ held.map Prod.fst, eqIgnoreAsciiCase u t = true → u = t

/-- The count of explicit locks is raised from 0 only while no statement and no stream touches a
table. While it is not 0, no statement refreshes a view or is streamed, and a statement names what
it touches. -/
def Admitted (σ : LockSys n) : Act n → Prop
  | .count _ => σ.mgr.explicit = 0 → ∀ s, σ.touching s = []
  | .start _ x => σ.mgr.explicitActive = true → x.refreshes = []
  | .check s => σ.mgr.explicitActive = true → ∀ x ∈ (σ.phase s).statement?,
      x.streamed = false ∧ NamesAll (σ.heldLocks s) x
  | _ => True

instance (held : List Lock) (x : LockStmt) : Decidable (NamesAll held x) :=
  inferInstanceAs (Decidable (∀ t ∈ x.touches, _ ∧ _))

instance (σ : LockSys n) (a : Act n) : Decidable (Admitted σ a) := by
  delta Admitted
  split <;> infer_instance

/-- What a step of `s` leaves alone. -/
structure Frame (σ σ' : LockSys n) (s : Fin n) : Prop where
  phase : ∀ s', s' ≠ s → σ'.phase s' = σ.phase s'
  streams : ∀ s', s' ≠ s → σ'.streams s' = σ.streams s'
  locks : ∀ k ∈ σ.taken, k.owner ≠ s → k ∈ σ'.taken
  explicit : σ.mgr.explicit = 0 → σ'.mgr.explicit = 0

variable {s' : Fin n} {t : Text}

theorem Covered.frame (h : Covered σ s') (hframe : Frame σ σ' s) (hs : s' ≠ s) : Covered σ' s' := by
  have howns : ∀ {t : Text}, Owns σ s' t → Owns σ' s' t := by
    rintro t ⟨k, hk, rfl, hname⟩
    exact ⟨k, hframe.locks k hk hs, rfl, hname⟩
  constructor
  · rw [hframe.phase s' hs]
    exact fun x todo hphase => (h.waiting x todo hphase).imp_right fun hw t ht =>
      (hw t ht).imp_right howns
  · rw [hframe.phase s' hs]
    exact fun t ht => (h.touching t ht).imp howns hframe.explicit
  · rw [hframe.phase s' hs]
    exact fun x hphase hx t ht => hframe.explicit (h.streamed x hphase hx t ht)
  · rw [hframe.streams s' hs]
    exact fun t ht => hframe.explicit (h.streams t ht)

/-- The session that steps is covered, and the others are as they were. -/
theorem Covered.of_frame (hcov : ∀ s, Covered σ s) (hframe : Frame σ σ' s) (hself : Covered σ' s) :
    Covered σ' s' := by
  by_cases hs : s' = s
  · exact hs ▸ hself
  · exact (hcov s').frame hframe hs

/-- A session without a statement, while its streams stay or end. -/
theorem Covered.idle (hp : σ.phase s = p) (hwait : ∀ x todo, p ≠ .waiting x todo)
    (htouching : p.touching = []) (hstreams : ∀ t ∈ σ.streams s, σ.mgr.explicit = 0) :
    Covered σ s := by
  refine ⟨fun x todo h => absurd (hp.symm.trans h) (hwait x todo), fun t ht => ?_,
    fun x h _ t ht => ?_, hstreams⟩
  · rw [hp, htouching] at ht
    exact nomatch ht
  · rw [hp.symm.trans h] at htouching
    exact nomatch (show t ∈ [] from htouching ▸ ht)

theorem enter_phase_self (σ : LockSys n) (s : Fin n) (p : Phase) : (σ.enter s p).phase s = p :=
  update_self _ _ _

variable {b : Fin n → Bool}

theorem enter_frame : Frame σ { σ.enter s p with globalRead := b } s :=
  ⟨fun _ hs' => update_of_ne hs' _ _, fun _ _ => rfl, fun _ hk _ => hk, id⟩

theorem withLock_frame {l : Lock} (htake : σ.mgr.tryTake l.1 l.2 = some m) :
    Frame σ ((σ.withLock s l explicit m).enter s p) s := by
  refine ⟨fun s' hs' => update_of_ne hs' _ _, fun _ _ => rfl, fun k hk _ => ?_,
    (LockManager.tryTake_explicit htake).trans⟩
  obtain ⟨g, hg, rfl⟩ := mem_map.mp hk
  exact mem_map_of_mem (mem_append_left _ hg)

theorem withoutLock_frame (howner : g.taken.owner = s) : Frame σ (σ.withoutLock g) s := by
  refine ⟨fun _ _ => rfl, fun _ _ => rfl, fun k hk hne => ?_, id⟩
  obtain ⟨g', hg', rfl⟩ := mem_map.mp hk
  have hother : g' ≠ g := fun heq => hne (heq ▸ howner)
  exact mem_map_of_mem ((mem_erase_of_ne hother).mpr hg')

/-- While no explicit lock is counted, no `LOCK TABLES` that has returned holds one. -/
theorem Inv.not_holding (hinv : Inv σ) (hzero : σ.mgr.explicit = 0) {k : Taken n}
    (hk : k ∈ σ.taken) (hexplicit : k.explicit = true) : (σ.phase k.owner).holding = false := by
  have hnone : σ.guards.countP (·.counted) = 0 := by
    have := hinv.explicit
    omega
  obtain ⟨g, hg, rfl⟩ := mem_map.mp hk
  have hcounted : g.counted = false :=
    Bool.eq_false_of_not_eq_true (countP_eq_zero.mp hnone g hg)
  obtain ⟨todo, b, hphase⟩ := hinv.uncounted g hg hexplicit hcounted
  rw [hphase]
  rfl

/-- A statement that goes to wait has or asks for a lock on every table it touches. -/
theorem NamesAll.covered {x : LockStmt} (h : NamesAll (σ.heldLocks s) x) (ht : t ∈ x.touches) :
    t ∈ (transientLocks (σ.heldLocks s) x).map Prod.fst ∨ Owns σ s t := by
  obtain ⟨hname, hexact⟩ := h t ht
  obtain ⟨u, hu, hunames, hcover⟩ := transientLocks_covers (σ.heldLocks s) hname
  obtain rfl := hexact u (mem_append_left _ hunames) hu
  refine hcover.imp_right ?_
  rintro ⟨l, hl, hlt⟩
  obtain ⟨k, hk, rfl⟩ := mem_map.mp hl
  obtain ⟨hk, hown⟩ := mem_filter.mp hk
  exact ⟨k, hk, (of_decide_eq_true hown).1, hexact _ (mem_append_right _ (mem_map_of_mem hl)) hlt⟩

theorem Enters.covered (h : Enters σ a s p) (hok : Admitted σ a) (hcov : Covered σ s) :
    Covered { σ.enter s p with globalRead := b } s := by
  have hself := enter_phase_self σ s p
  cases h with
  | @start _ x =>
    refine ⟨fun x todo h => (nomatch hself.symm.trans h), fun t ht => .inr ?_,
      fun x h => (nomatch hself.symm.trans h), hcov.streams⟩
    rw [show Phase.touching _ = x.refreshes from congrArg Phase.touching hself] at ht
    by_contra hactive
    rw [hok (decide_eq_true (Nat.pos_of_ne_zero hactive))] at ht
    exact nomatch ht
  | @pass _ x hphase hactive =>
    have hzero : σ.mgr.explicit = 0 := Nat.eq_zero_of_not_pos (of_decide_eq_false hactive)
    exact ⟨fun x todo h => (nomatch hself.symm.trans h), fun t _ => .inr hzero,
      fun _ _ _ _ _ => hzero, hcov.streams⟩
  | @wait _ x hphase hactive =>
    obtain ⟨hstreamed, hnames⟩ := hok hactive x (by rw [hphase]; rfl)
    refine ⟨fun x' todo h => ?_, fun t ht => ?_, fun x h => (nomatch hself.symm.trans h),
      hcov.streams⟩
    · cases hself.symm.trans h
      exact ⟨hstreamed, fun t ht => hnames.covered ht⟩
    · rw [show Phase.touching _ = [] from congrArg Phase.touching hself] at ht
      exact nomatch ht
  | @execute _ x hphase =>
    obtain ⟨hstreamed, hlocked⟩ := hcov.waiting x [] hphase
    refine ⟨fun x todo h => (nomatch hself.symm.trans h), fun t ht => .inl ?_, fun x' h hx => ?_,
      hcov.streams⟩
    · rw [show Phase.touching _ = x.touches from congrArg Phase.touching hself] at ht
      exact (hlocked t ht).resolve_left not_mem_nil
    · cases hself.symm.trans h
      exact nomatch hstreamed.symm.trans hx
  | lockTables | unlockTables | released | relock | locked | giveUp | timeout | refuse | done =>
    exact .idle hself nofun rfl hcov.streams

theorem Covered.takeTransient {x : LockStmt} {l : Lock} {todo : List Lock} (h : Covered σ s)
    (hphase : σ.phase s = .waiting x (l :: todo)) (htake : σ.mgr.tryTake l.1 l.2 = some m) :
    Covered ((σ.withLock s l false m).enter s (.waiting x todo)) s := by
  have hself := enter_phase_self (σ.withLock s l false m) s (.waiting x todo)
  refine ⟨fun x' todo' h' => ?_, fun t ht => ?_, fun x h' => (nomatch hself.symm.trans h'),
    fun t ht => (LockManager.tryTake_explicit htake).trans (h.streams t ht)⟩
  · cases hself.symm.trans h'
    refine (h.waiting x _ hphase).imp_right fun hw t ht => ?_
    rcases hw t ht with hmem | ⟨k, hk, hown⟩
    · rcases mem_cons.mp hmem with rfl | hmem
      · exact .inr ⟨⟨s, l, false⟩, by simp [taken, enter, LockSys.withLock], rfl, rfl⟩
      · exact .inl hmem
    · obtain ⟨g, hg, rfl⟩ := mem_map.mp hk
      exact .inr ⟨g.taken, mem_map_of_mem (mem_append_left _ hg), hown⟩
  · rw [congrArg Phase.touching hself] at ht
    exact nomatch ht

/-- The statement ends. Its stream goes on if there is one. -/
theorem Covered.finish {x : LockStmt} (h : Covered σ s) (hphase : σ.phase s = .executing x) :
    Covered { σ.enter s .finishing with
      streams := update σ.streams s (σ.streams s ++ if x.streamed then x.touches else []) } s := by
  refine .idle (enter_phase_self ..) nofun rfl fun t ht => ?_
  simp only [update_self, mem_append] at ht
  rcases ht with ht | ht
  · exact h.streams t ht
  · split_ifs at ht with hstreamed
    · exact h.streamed x hphase hstreamed t ht
    · exact nomatch ht

/-- The count of explicit locks is raised: from 0 only while nothing is touched. -/
theorem Covered.count (hcov : ∀ s, Covered σ s) (hok : Admitted σ (.count s)) :
    Covered { σ with
      mgr := { σ.mgr with explicit := σ.mgr.explicit + 1 }
      guards := markCounted s σ.guards } s' := by
  have htaken : (markCounted s σ.guards).map Guard.taken = σ.taken := taken_markCounted s _
  have hzero : ∀ t ∈ σ.touching s', σ.mgr.explicit ≠ 0 := fun t ht hz => by
    rw [hok hz s'] at ht
    exact nomatch ht
  obtain ⟨hwaiting, htouching, hstreamed, hstreams⟩ := hcov s'
  refine ⟨?_, fun t ht => .inl ?_, fun x hphase hx t ht => ?_, fun t ht => ?_⟩
  · simpa only [Owns, taken, htaken] using hwaiting
  · simpa only [Owns, taken, htaken] using
      (htouching t ht).resolve_right (hzero t (mem_append_left _ ht))
  · have hphase' : σ.phase s' = .executing x := hphase
    refine absurd (hstreamed x hphase hx t ht) (hzero t (mem_append_left _ ?_))
    rw [hphase']
    exact ht
  · exact absurd (hstreams t ht) (hzero t (mem_append_right _ ht))

theorem Covered.step (hcov : ∀ s, Covered σ s) (hok : Admitted σ a) (h : σ.step a = some σ') :
    ∀ s, Covered σ' s := by
  intro s'
  cases step_moved h with
  | @enter _ s p b henter => exact .of_frame hcov enter_frame (henter.covered hok (hcov s))
  | takeExplicit _ _ htake =>
    exact .of_frame hcov (withLock_frame htake) (.idle (enter_phase_self ..) nofun rfl fun t ht =>
      (LockManager.tryTake_explicit htake).trans ((hcov _).streams t ht))
  | takeTransient hphase htake =>
    exact .of_frame hcov (withLock_frame htake) ((hcov _).takeTransient hphase htake)
  | @release s _ _ g hphase _ howner _ =>
    have hframe : Frame σ (σ.withoutLock g) s := withoutLock_frame howner
    exact .of_frame hcov ⟨hframe.phase, hframe.streams, hframe.locks, hframe.explicit⟩
      (.idle hphase nofun rfl (hcov s).streams)
  | dropGuard hphase _ howner _ =>
    exact .of_frame hcov (withoutLock_frame howner) (.idle hphase nofun rfl (hcov _).streams)
  | @finish s x hphase =>
    exact .of_frame hcov ⟨fun _ hs => update_of_ne hs _ _, fun _ hs => update_of_ne hs _ _,
      fun _ hk _ => hk, id⟩ ((hcov s).finish hphase)
  | @drained s =>
    refine .of_frame hcov ⟨fun _ _ => rfl, fun _ hs => update_of_ne hs _ _, fun _ hk _ => hk, id⟩
      { hcov s with streams := fun t ht => ?_ }
    simp only [update_self, not_mem_nil] at ht
  | count => exact .count hcov hok
  | @uncount s =>
    exact .of_frame hcov ⟨fun _ _ => rfl, fun _ _ => rfl, fun _ hk _ => hk, fun hz => by simp [hz]⟩
      ⟨(hcov s).waiting, fun t ht => ((hcov s).touching t ht).imp_right fun hz => by simp [hz],
        fun x hphase hx t ht => by simp [(hcov s).streamed x hphase hx t ht],
        fun t ht => by simp [(hcov s).streams t ht]⟩

/-! ## Exclusion -/

/-- Of the locks of one table held at once, none is exclusive. -/
def NoOverlap (σ : LockSys n) : Prop :=
  (σ.taken.map Taken.lock).Pairwise Compatible

/-- A table that a session holds for writing, from the return of its `LOCK TABLES` until the lock is
given back, is touched by no running statement and no stream of another session. -/
def WriteExcludes (σ : LockSys n) : Prop :=
  ∀ k ∈ σ.taken, k.explicit = true → k.lock.2 = .exclusive → (σ.phase k.owner).holding = true →
    ∀ s, s ≠ k.owner → k.lock.1 ∉ σ.touching s

theorem Inv.owns_of_exclusive (hinv : Inv σ) {k : Taken n} (hk : k ∈ σ.taken)
    (hlock : k.lock = (t, .exclusive)) (hown : Owns σ s t) : s = k.owner := by
  obtain ⟨k', hk', rfl, hname⟩ := hown
  by_contra hne
  have hpair : σ.taken.Pairwise fun a b => Compatible a.lock b.lock :=
    pairwise_map.mp hinv.reflects.compatible
  have : Std.Symm fun a b : Taken n => Compatible a.lock b.lock :=
    ⟨fun _ _ hab hname => (hab hname.symm).symm⟩
  have hcompat : Compatible k.lock k'.lock := hpair.forall hk hk' fun heq => hne (heq ▸ rfl)
  have hshared := (hcompat (hlock ▸ hname.symm)).1
  rw [hlock] at hshared
  exact nomatch hshared

def updateOf (t : Text) : LockStmt :=
  { refreshes := [], streamed := false, dml := true, needsWrite := true, inRoutine := false
    writes := [t], reads := [], base := [], touches := [t] }

/-- `SELECT * FROM t`, outside a transaction. -/
def scanOf (t : Text) : LockStmt :=
  { refreshes := [], streamed := true, dml := true, needsWrite := false, inRoutine := false
    writes := [], reads := [t], base := [t], touches := [t] }

/-- Session 1 takes the lock on `t` and its `LOCK TABLES` returns. -/
def lockT : List (Act 2) :=
  [.lockTables 1 [("t".toList, .exclusive)] false, .released 1, .take 1, .count 1, .locked 1]

theorem not_writeExcludes_of_run (acts : List (Act 2))
    (h : ∃ σ, run step new acts = some σ ∧
      (⟨1, ("t".toList, .exclusive), true⟩ : Taken 2) ∈ σ.taken ∧
      (σ.phase 1).holding = true ∧ "t".toList ∈ σ.touching 0) :
    ∃ σ : LockSys 2, Reach step (fun _ _ => True) new σ ∧ ¬ WriteExcludes σ := by
  obtain ⟨σ, hrun, htaken, hholding, htouching⟩ := h
  exact ⟨σ, .of_run hrun (.of_forall fun _ _ _ => trivial), fun hexcludes =>
    hexcludes _ htaken rfl rfl hholding 0 (by decide) htouching⟩

/-- A scan that another lock made take its locks is read after it has dropped them. -/
theorem stream_read_under_lock :
    ∃ σ : LockSys 2, Reach step (fun _ _ => True) new σ ∧ ¬ WriteExcludes σ :=
  not_writeExcludes_of_run
    ([.lockTables 1 [("u".toList, .exclusive)] false, .released 1, .take 1, .count 1, .locked 1,
      .start 0 (scanOf "t".toList), .check 0, .take 0, .execute 0, .finish 0, .dropGuard 0, .done 0,
      .lockTables 1 [("t".toList, .exclusive)] false, .release 1, .uncount 1, .released 1, .take 1,
      .count 1, .locked 1])
    ⟨_, rfl, by decide, rfl, by decide⟩

end LockSys

end ElyraSql.Locks
