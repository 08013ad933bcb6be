import ElyraSql.Storage.Store

/-!
# The group-commit writer

`elyra-storage/src/db.rs`: one thread takes write jobs from a queue, folds consecutive jobs of one
kind into a group and applies the group in one write transaction. `waiting` is the number of jobs
the `i`-th iteration finds behind its first one.
-/

namespace ElyraSql

open OrderedMap List Table Storage

/-! ## Jobs and the commit log -/

/-- Optimistic validation of a commit: keys and ranges that must be as the snapshot had them. -/
structure Validation where
  keys : List (Bytes × Option Bytes) := []
  ranges : List RangeSnapshot := []

/-- A queued mutation. `validation` marks a transactional commit, `insertNew` an `INSERT`. -/
structure WriteJob where
  puts : List (Bytes × Bytes) := []
  deletes : List Bytes := []
  validation : Option Validation := none
  insertNew : Option (List (Bytes × Bytes)) := none

/-- A committed write set as replicas and the binlog receive it. -/
structure WriteEvent where
  lsn : UInt64
  puts : List (Bytes × Bytes)
  deletes : List Bytes
  deriving DecidableEq, Repr

/-- The commit-log sink. `active` says whether a binlog or a replica is attached. -/
structure Repl where
  lsn : UInt64 := 0
  active : Bool := false
  events : List WriteEvent := []

/-- `Repl::publish`: an empty write set is not published. -/
def Repl.publish (r : Repl) (puts : List (Bytes × Bytes)) (deletes : List Bytes) : Repl :=
  if puts.isEmpty && deletes.isEmpty then r
  else { r with lsn := r.lsn + 1, events := r.events ++ [⟨r.lsn + 1, puts, deletes⟩] }

/-- The writer thread's state. -/
structure Writer where
  storage : Storage
  repl : Repl := {}

/-- `job_puts`: the put set a replica applies. -/
def WriteJob.jobPuts (j : WriteJob) : List (Bytes × Bytes) :=
  match j.insertNew with
  | some new => new ++ j.puts
  | none => j.puts

def WriteJob.toValidatedCommit (j : WriteJob) : ValidatedCommit :=
  let v := j.validation.getD {}
  ⟨v.keys, v.ranges, j.puts, j.deletes⟩

def WriteJob.toPlainJob (j : WriteJob) : PlainJob := ⟨j.insertNew, j.puts, j.deletes⟩

/-- Publish the jobs of a group that committed, in order. -/
def Repl.publishGroup (r : Repl) (putsOf : WriteJob → List (Bytes × Bytes))
    (results : List (WriteJob × Except Error Unit)) : Repl :=
  results.foldl
    (fun r e => if e.2.isOk && r.active then r.publish (putsOf e.1) e.1.deletes else r) r

/-! ## Groups -/

/-- `apply_validated_group`. A single job goes through `applyValidated`. -/
def Writer.applyValidatedGroup (w : Writer) : List WriteJob → List (Except Error Unit) × Writer
  | [job] =>
    let v := job.validation.getD {}
    let r := w.storage.applyValidated v.keys v.ranges job.puts job.deletes
    ([r.1], ⟨r.2, w.repl.publishGroup (·.puts) [(job, r.1)]⟩)
  | jobs =>
    let r := w.storage.applyValidatedBatch (jobs.map (·.toValidatedCommit))
    (r.1, ⟨r.2, w.repl.publishGroup (·.puts) (jobs.zip r.1)⟩)

/-- `apply_one` of `apply_job_group`. -/
def Storage.applyOne (s : Storage) (j : WriteJob) : Except Error Unit × Storage :=
  match j.insertNew with
  | some new => s.applyInsert new j.puts j.deletes
  | none => s.apply j.puts j.deletes

/-- `apply_job_group`. A single job goes through `applyOne`. -/
def Writer.applyJobGroup (w : Writer) : List WriteJob → List (Except Error Unit) × Writer
  | [job] =>
    let r := w.storage.applyOne job
    ([r.1], ⟨r.2, w.repl.publishGroup (·.jobPuts) [(job, r.1)]⟩)
  | jobs =>
    let r := w.storage.applyJobs (jobs.map (·.toPlainJob))
    (r.1, ⟨r.2, w.repl.publishGroup (·.jobPuts) (jobs.zip r.1)⟩)

/-- Apply a group whose jobs are of the kind of its first job. -/
def Writer.applyGroup (w : Writer) (first : WriteJob) (more : List WriteJob) :
    List (Except Error Unit) × Writer :=
  if first.validation.isSome then w.applyValidatedGroup (first :: more)
  else w.applyJobGroup (first :: more)

def groupCommitMax : Nat := 1024

/-- The inner loop of `writer_loop`: up to `n` further jobs of the kind `validated`. The first
job of the other kind stays in front of the queue (`carry`). -/
def drainKind (validated : Bool) : Nat → List WriteJob → List WriteJob × List WriteJob
  | 0, q => ([], q)
  | _ + 1, [] => ([], [])
  | n + 1, j :: q =>
    if j.validation.isSome == validated then
      let r := drainKind validated n q
      (j :: r.1, r.2)
    else ([], j :: q)

/-- `writer_loop` from its `i`-th iteration on. `fuel` bounds the number of iterations; each
takes at least one job, so the length of the queue is enough. -/
def writerIter (waiting : Nat → Nat) :
    Nat → Nat → Writer → List WriteJob → List (Except Error Unit) × Writer
  | 0, _, w, _ => ([], w)
  | _ + 1, _, w, [] => ([], w)
  | fuel + 1, i, w, first :: queue =>
    let d := drainKind first.validation.isSome (min (waiting i) (groupCommitMax - 1)) queue
    let r := w.applyGroup first d.1
    let rest := writerIter waiting fuel (i + 1) r.2 d.2
    (r.1 ++ rest.1, rest.2)

/-- `writer_loop` on a queue of jobs: the results it sends back, in queue order, and the state
it ends in. -/
def writerLoop (waiting : Nat → Nat) (w : Writer) (queue : List WriteJob) :
    List (Except Error Unit) × Writer :=
  writerIter waiting queue.length 0 w queue

/-- Every job alone in a transaction of its own. -/
def oneByOne : Writer → List WriteJob → List (Except Error Unit) × Writer
  | w, [] => ([], w)
  | w, j :: queue =>
    let r := w.applyGroup j []
    let rest := oneByOne r.2 queue
    (r.1 ++ rest.1, rest.2)

/-- A job's turn inside a group's transaction. -/
def jobTurn (t : Table) (j : WriteJob) : Except Error Unit × Table :=
  if j.validation.isSome then t.validatedTurn j.toValidatedCommit else t.plainTurn j.toPlainJob

/-! ## Rows -/

/-- Two tables agree on every key but the write sequence. -/
def SameRows (t t' : Table) : Prop := ∀ k, k ≠ wseqKey → t.get k = t'.get k

theorem SameRows.refl (t : Table) : SameRows t t := fun _ _ => rfl

variable {t t' : Table}

theorem SameRows.symm (h : SameRows t t') : SameRows t' t :=
  fun k hk => (h k hk).symm

theorem SameRows.trans {t'' : Table} (h : SameRows t t') (h' : SameRows t' t'') :
    SameRows t t'' := fun k hk => (h k hk).trans (h' k hk)

/-- The job neither inserts nor validates the write sequence's key. -/
structure WriteJob.AvoidsWseq (j : WriteJob) : Prop where
  new : ∀ new, j.insertNew = some new → ∀ e ∈ new, e.1 ≠ wseqKey
  keys : ∀ v, j.validation = some v → ∀ e ∈ v.keys, e.1 ≠ wseqKey
  ranges : ∀ v, j.validation = some v → ∀ r ∈ v.ranges, inRange r.start r.stop wseqKey = false

namespace GroupCommitLemmas

theorem sameRows_write (h : SameRows t t') (puts : List (Bytes × Bytes)) (deletes : List Bytes) :
    SameRows (t.write puts deletes) (t'.write puts deletes) := by
  intro k hk
  rw [get_write, get_write, h k hk]

variable (s : Storage) {jobs : List WriteJob}

theorem sameRows_commitTable (t : Table) : SameRows (s.commitTable t).kv t :=
  fun _ hk => get_commitTable hk

theorem keysHold_congr (h : SameRows t t') {keys : List (Bytes × Option Bytes)}
    (hk : ∀ e ∈ keys, e.1 ≠ wseqKey) : t.keysHold keys = t'.keysHold keys := by
  rw [Bool.eq_iff_iff, keysHold, keysHold, all_eq_true, all_eq_true]
  refine forall₂_congr fun e he => ?_
  rw [h _ (hk e he)]

theorem rangesHold_congr (h : SameRows t t') {ranges : List RangeSnapshot}
    (hr : ∀ r ∈ ranges, inRange r.start r.stop wseqKey = false) :
    t.rangesHold ranges = t'.rangesHold ranges := by
  rw [Bool.eq_iff_iff, rangesHold, rangesHold, all_eq_true, all_eq_true]
  refine forall₂_congr fun r hm => ?_
  have hl : t.list (inRange r.start r.stop) = t'.list (inRange r.start r.stop) :=
    OMap.list_congr fun k hk => h k fun he => by
      rw [he, hr r hm] at hk
      exact Bool.noConfusion hk
  rw [hl]

/-- The turn of a job sees and changes only rows. -/
theorem jobTurn_congr {j : WriteJob} (hj : j.AvoidsWseq) (h : SameRows t t') :
    (jobTurn t j).1 = (jobTurn t' j).1 ∧ SameRows (jobTurn t j).2 (jobTurn t' j).2 := by
  unfold jobTurn
  split_ifs with hv
  · obtain ⟨v, hv⟩ := Option.isSome_iff_exists.mp hv
    have hk := keysHold_congr h (hj.keys v hv)
    have hr := rangesHold_congr h (hj.ranges v hv)
    simp only [validatedTurn, WriteJob.toValidatedCommit, hv, Option.getD_some, hk, hr]
    split_ifs
    · exact ⟨rfl, sameRows_write h _ _⟩
    · exact ⟨rfl, h⟩
  · have hd : (j.toPlainJob.new.any fun new => t.findsDuplicate j.toPlainJob.deletes new []) =
        (j.toPlainJob.new.any fun new => t'.findsDuplicate j.toPlainJob.deletes new []) := by
      cases hn : j.toPlainJob.new with
      | none => rfl
      | some new =>
        rw [Option.any_some, Option.any_some, Bool.eq_iff_iff, findsDuplicate_eq, findsDuplicate_eq]
        refine not_congr (and_congr_left' (forall₂_congr fun e he => ?_))
        rw [OMap.get_eraseMany, OMap.get_eraseMany, h _ (hj.new new hn e he)]
    simp only [plainTurn, hd]
    split_ifs
    · exact ⟨rfl, h⟩
    · exact ⟨rfl, sameRows_write h _ _⟩

theorem applyValidated_turn (j : WriteJob) : let v := j.validation.getD {}
    let r := s.applyValidated v.keys v.ranges j.puts j.deletes
    outcome r.1 = outcome (s.kv.validatedTurn j.toValidatedCommit).1 ∧
      SameRows r.2.kv (s.kv.validatedTurn j.toValidatedCommit).2 := by
  simp only [applyValidated, validatedTurn, WriteJob.toValidatedCommit]
  by_cases hk : s.kv.keysHold (j.validation.getD {}).keys <;>
    by_cases hr : s.kv.rangesHold (j.validation.getD {}).ranges <;>
    simp [hk, hr, outcome, rowConflict, rangeConflict, SameRows.refl, sameRows_commitTable]

/-- A plain job or an `INSERT` alone: the outcome and the rows of its turn. -/
theorem applyOne_turn (j : WriteJob) :
    (s.applyOne j).1 = (s.kv.plainTurn j.toPlainJob).1 ∧
      SameRows (s.applyOne j).2.kv (s.kv.plainTurn j.toPlainJob).2 := by
  cases hn : j.insertNew with
  | none =>
    simp only [applyOne, hn, WriteJob.toPlainJob]
    exact ⟨rfl, sameRows_commitTable _ _⟩
  | some new =>
    simp only [applyOne, hn, applyInsert, plainTurn, WriteJob.toPlainJob,
      Option.any_some, Option.getD_some]
    have hd := findsDuplicate_eq s.kv j.deletes new []
    simp only [not_mem_nil, not_false_eq_true, and_true] at hd
    rw [insertNew_eq]
    by_cases h : (∀ e ∈ new, (s.kv.eraseMany j.deletes).get e.1 = none) ∧
        (new.map Prod.fst).Nodup
    · rw [if_pos h, if_neg (mt hd.mp (not_not.mpr h))]
      refine ⟨rfl, SameRows.trans (sameRows_commitTable _ _) fun k _ => ?_⟩
      simp only [write, OMap.insertMany, foldl_append]
    · rw [if_neg h, if_pos (hd.mpr h)]
      exact ⟨rfl, SameRows.refl _⟩

/-- The put set a job publishes: a validated commit has no insert part. -/
def published (j : WriteJob) : List (Bytes × Bytes) :=
  if j.validation.isSome then j.puts else j.jobPuts

theorem isOk_congr {r r' : Except Error Unit} (h : outcome r = outcome r') : r.isOk = r'.isOk := by
  rcases r with (_ | _ | _ | _) | _ <;> rcases r' with (_ | _ | _ | _) | _ <;>
    first | rfl | cases h

theorem turns_map {J J' : Type} (turn : Table → J' → Except Error Unit × Table) (f : J → J')
    (t : Table) (js : List J) :
    t.turns turn (js.map f) = t.turns (fun t j => turn t (f j)) js := by
  induction js generalizing t with
  | nil => rfl
  | cons j js ih => simp only [map_cons, turns, ih]

theorem turns_congr {J : Type} {f g : Table → J → Except Error Unit × Table} {js : List J}
    (h : ∀ j ∈ js, ∀ t, f t j = g t j) (t : Table) : t.turns f js = t.turns g js := by
  induction js generalizing t with
  | nil => rfl
  | cons j js ih =>
    simp only [turns, h j mem_cons_self, ih fun j hj => h j (mem_cons_of_mem _ hj)]

open Writer

/-- A group's transaction runs the turns of its jobs, whether it takes the fast path for a
single job or not. -/
theorem applyGroup_turns (w : Writer) (first : WriteJob) {more : List WriteJob}
    (hk : ∀ j ∈ more, j.validation.isSome = first.validation.isSome) :
    let r := w.applyGroup first more
    let s := w.storage.kv.turns jobTurn (first :: more)
    r.1.map outcome = s.1.map outcome ∧ SameRows r.2.storage.kv s.2 := by
  have hall : ∀ j ∈ first :: more, j.validation.isSome = first.validation.isSome :=
    forall_mem_cons.mpr ⟨rfl, hk⟩
  unfold applyGroup
  split_ifs with hv
  · have hturn : ∀ t, jobTurn t first = t.validatedTurn first.toValidatedCommit :=
      fun t => if_pos hv
    cases more with
    | nil =>
      obtain ⟨ho, hs⟩ := applyValidated_turn w.storage first
      constructor
      · simpa [applyValidatedGroup, turns, hturn] using ho
      · simpa [applyValidatedGroup, turns, hturn] using hs
    | cons j js =>
      have ht : w.storage.kv.turns jobTurn (first :: j :: js) =
          w.storage.kv.turns validatedTurn
            ((first :: j :: js).map (·.toValidatedCommit)) := by
        rw [turns_map]
        exact turns_congr (fun i hi t => if_pos ((hall i hi).trans hv)) _
      simp only [applyValidatedGroup, applyValidatedBatch, ht]
      exact ⟨trivial, sameRows_commitTable _ _⟩
  · have hturn : ∀ t, jobTurn t first = t.plainTurn first.toPlainJob := fun t => if_neg hv
    have hno : ∀ i ∈ first :: more, ¬ i.validation.isSome := fun i hi => by
      rw [hall i hi]
      exact hv
    cases more with
    | nil =>
      obtain ⟨ho, hs⟩ := applyOne_turn w.storage first
      constructor
      · simp [applyJobGroup, turns, hturn, ho]
      · simpa [applyJobGroup, turns, hturn] using hs
    | cons j js =>
      have ht : w.storage.kv.turns jobTurn (first :: j :: js) =
          w.storage.kv.turns plainTurn ((first :: j :: js).map (·.toPlainJob)) := by
        rw [turns_map]
        exact turns_congr (fun i hi t => if_neg (hno i hi)) _
      simp only [applyJobGroup, applyJobs, ht]
      exact ⟨trivial, sameRows_commitTable _ _⟩

/-- The turns of one transaction do to the rows and the outcomes what separate transactions do. -/
theorem turns_agree (hj : ∀ j ∈ jobs, j.AvoidsWseq) (t : Table) (w : Writer)
    (h : SameRows t w.storage.kv) : let s := t.turns jobTurn jobs
    let a := oneByOne w jobs
    s.1.map outcome = a.1.map outcome ∧ SameRows s.2 a.2.storage.kv := by
  induction jobs generalizing t w with
  | nil => exact ⟨rfl, h⟩
  | cons j jobs ih =>
    obtain ⟨ho, hs⟩ := applyGroup_turns w j (forall_mem_nil _)
    obtain ⟨hc, ht⟩ := jobTurn_congr (hj j mem_cons_self) h
    simp only [turns, map_cons, map_nil] at ho hs
    obtain ⟨io, is⟩ := ih (fun j hm => hj j (mem_cons_of_mem _ hm)) (jobTurn t j).2
      (w.applyGroup j []).2 (ht.trans hs.symm)
    refine ⟨?_, is⟩
    simp only [turns, oneByOne, map_cons, map_append, ho, hc, io, singleton_append]

theorem oneByOne_append (w : Writer) (q q' : List WriteJob) :
    oneByOne w (q ++ q') =
      ((oneByOne w q).1 ++ (oneByOne (oneByOne w q).2 q').1, (oneByOne (oneByOne w q).2 q').2) := by
  induction q generalizing w with
  | nil => rfl
  | cons j q ih => simp only [cons_append, oneByOne, ih, append_assoc]

/-- Draining splits the queue, takes one kind, and leaves no more than there was. -/
theorem drainKind_spec (b : Bool) (n : Nat) (q : List WriteJob) :
    (drainKind b n q).1 ++ (drainKind b n q).2 = q ∧
      ∀ j ∈ (drainKind b n q).1, j.validation.isSome = b := by
  fun_induction drainKind b n q with
  | case1 q => simp
  | case2 n => simp
  | case3 n j q hj r ih =>
    simp only [cons_append, forall_mem_cons, List.cons.injEq, true_and]
    exact ⟨ih.1, by simpa using hj, ih.2⟩
  | case4 n j q hj => simp

end GroupCommitLemmas

open GroupCommitLemmas

/-! ## Every grouping gives what one-by-one commits give -/

/-- From writers that agree on the rows, the loop from any iteration on answers as one-by-one
commits do and ends in agreement. -/
theorem writerIter_agrees (waiting : Nat → Nat) {fuel i : Nat} {w w' : Writer}
    {queue : List WriteJob} (hf : queue.length ≤ fuel) (hq : ∀ j ∈ queue, j.AvoidsWseq)
    (hrows : SameRows w.storage.kv w'.storage.kv) :
    let r := writerIter waiting fuel i w queue
    let a := oneByOne w' queue
    r.1.map outcome = a.1.map outcome ∧ SameRows r.2.storage.kv a.2.storage.kv := by
  induction fuel generalizing i w w' queue with
  | zero =>
    obtain rfl : queue = [] := length_eq_zero_iff.mp (Nat.le_zero.mp hf)
    exact ⟨rfl, hrows⟩
  | succ fuel ih =>
    cases queue with
    | nil => exact ⟨rfl, hrows⟩
    | cons first queue =>
      simp only [writerIter]
      obtain ⟨hsplit, hkind⟩ := drainKind_spec first.validation.isSome
        (min (waiting i) (groupCommitMax - 1)) queue
      generalize hd : drainKind first.validation.isSome
        (min (waiting i) (groupCommitMax - 1)) queue = d at hsplit hkind
      have hgroup : ∀ j ∈ first :: d.1, j.AvoidsWseq := fun j hj => hq j (by
        rw [← hsplit]
        rcases mem_cons.mp hj with rfl | hj
        · exact mem_cons_self
        · exact mem_cons_of_mem _ (mem_append_left _ hj))
      have hrest : ∀ j ∈ d.2, j.AvoidsWseq := fun j hj => hq j (by
        rw [← hsplit]
        exact mem_cons_of_mem _ (mem_append_right _ hj))
      have hlen : d.2.length ≤ fuel := by
        have := congrArg List.length hsplit
        simp only [length_append, length_cons] at this hf
        omega
      obtain ⟨go, gs⟩ := applyGroup_turns w first hkind
      obtain ⟨ao, as⟩ := turns_agree hgroup w.storage.kv w' hrows
      obtain ⟨io, is⟩ := ih (i := i + 1) hlen hrest (gs.trans as)
      rw [show first :: queue = (first :: d.1) ++ d.2 by rw [cons_append, hsplit], oneByOne_append]
      refine ⟨?_, is⟩
      rw [map_append, map_append, io, go, ao]

/-- Whatever the writer finds waiting, and so however it groups the queue, each job gets the
outcome it gets alone, and the table ends with the rows it ends with when every job has a
transaction of its own. -/
theorem writerLoop_agrees_oneByOne (waiting : Nat → Nat) (w : Writer) (queue : List WriteJob)
    (hq : ∀ j ∈ queue, j.AvoidsWseq) :
    (writerLoop waiting w queue).1.map outcome = (oneByOne w queue).1.map outcome ∧
      ∀ k, k ≠ wseqKey →
        (writerLoop waiting w queue).2.storage.kv.get k = (oneByOne w queue).2.storage.kv.get k :=
  writerIter_agrees waiting (i := 0) le_rfl hq (SameRows.refl w.storage.kv)

def emptyWriter : Writer := ⟨⟨OMap.empty, 0⟩, {}⟩

/-- A plain write, an `INSERT` of the key it wrote and a transaction that read that key. -/
def exampleQueue : List WriteJob :=
  [{ puts := [([1], [1])] },
   { insertNew := some [([1], [2])] },
   { puts := [([2], [3])], validation := some { keys := [([1], some [1])] } }]

theorem writerLoop_agrees_oneByOne_example :
    (∀ j ∈ exampleQueue, j.AvoidsWseq) ∧
      ((writerLoop (fun _ => 5) emptyWriter exampleQueue).1.map outcome =
        (oneByOne emptyWriter exampleQueue).1.map outcome ∧
      ∀ k, k ≠ wseqKey →
        (writerLoop (fun _ => 5) emptyWriter exampleQueue).2.storage.kv.get k =
          (oneByOne emptyWriter exampleQueue).2.storage.kv.get k) := by
  have h : ∀ j ∈ exampleQueue, j.AvoidsWseq := by
    simp only [exampleQueue, forall_mem_cons]
    refine ⟨⟨?_, ?_, ?_⟩, ⟨?_, ?_, ?_⟩, ⟨?_, ?_, ?_⟩, by simp⟩ <;> rintro _ ⟨⟩ <;>
      simp [wseqKey, ascii]
  exact ⟨h, writerLoop_agrees_oneByOne _ _ _ h⟩

/-- Two plain writes: together they are one transaction and leave write sequence 1, one after
the other they leave 2. -/
theorem grouping_changes_wseq :
    let queue : List WriteJob := [{ puts := [([1], [1])] }, { puts := [([2], [2])] }]
    (writerLoop (fun _ => 1) emptyWriter queue).2.storage.kv.get wseqKey =
        some [1, 0, 0, 0, 0, 0, 0, 0] ∧
      (oneByOne emptyWriter queue).2.storage.kv.get wseqKey =
        some [2, 0, 0, 0, 0, 0, 0, 0] := by
  decide +kernel

end ElyraSql
