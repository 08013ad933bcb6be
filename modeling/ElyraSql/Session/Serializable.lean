import ElyraSql.Session.Ranges

/-!
# SERIALIZABLE transactions

A serializable transaction records the keys it reads and the ranges it scans, and its commit
re-reads them. `ROLLBACK TO` a savepoint keeps the keys but drops the ranges recorded since, so
a scan made before the rollback is not validated. Reads of bookkeeping keys, such as the counters
ids are generated from, are never recorded.
-/

namespace ElyraSql

open OrderedMap Transition GroupCommitLemmas List TxnState KeySet

variable {t : Table} {tx : TxnState} (ks : List Bytes) (budget : Nat) {k : Bytes}

namespace TxnState

/-! ## What a serializable transaction tracks -/

/-- The transaction has recorded `k` as read, by itself or in a range. -/
def Tracks (tx : TxnState) (k : Bytes) : Prop :=
  (isMeta k = false ∧ k ∈ tx.reads.keys) ∨ Covered tx.ranges k

/-- A commit that passes validation finds every tracked key as the snapshot had it. -/
theorem tracked_unchanged {cap : Nat} {job : WriteJob} (hser : tx.serializable = true)
    (hj : tx.commitJob cap = .ok job) (h : outcome (jobTurn t job).1 = .success)
    (hk : tx.Tracks k) :
    t.get k = tx.snapshot.get k := by
  obtain ⟨hkeys, hranges⟩ := unchanged_of_turn hj h
  rcases hk with ⟨hm, hr⟩ | hc
  · exact hkeys k (mem_keyset.mpr (Or.inr (Or.inr ⟨hser, hr, hm⟩)))
  · obtain ⟨r, hr, hin⟩ := ((coalesceRanges_spec _).1 k).mpr hc
    refine hranges k ?_
    rw [rangeCovers, commitRanges, hser, Bool.true_and, any_eq_true]
    exact ⟨r, hr, hin⟩

/-- A rollback to a mark no range was recorded after keeps the records. -/
theorem rollbackTxTo_records {undoMark rangesLen : Nat} (h : tx.ranges.length ≤ rangesLen) :
    (tx.rollbackTxTo undoMark rangesLen).records = tx.records := by
  have hu := (unwind_inside undoMark tx.undo.length).records tx
  simp only [records, Prod.mk.injEq] at hu
  obtain ⟨hs, hr, hg⟩ := hu
  simp only [rollbackTxTo, records, hs, hr, hg, take_of_length_le h]

end TxnState

/-- The keys that an answer depends on. -/
def TxnOp.observes : TxnOp → Bytes → Prop
  | .get k, j => j = k
  | .multiGet ks, j => j ∈ ks
  | .scanRange start stop _, j => inRange start stop j = true
  | .scanBatch pfx after _, j =>
    inRange (batchStart pfx after) (some (prefixUpperBound pfx)) j = true
  | _, _ => False

/-- Reads that are not recorded: of a bookkeeping key, and of a range that starts at one. -/
def TxnOp.unrecorded : TxnOp → Bytes → Prop
  | .scanRange start _ _, _ => isMeta start = true
  | .scanBatch pfx after _, _ => isMeta (batchStart pfx after) = true
  | _, j => isMeta j = true

/-- `ROLLBACK TO` drops no range: none was recorded after the mark. -/
def KeepsRanges (tx : TxnState) : TxnOp → Prop
  | .rollbackTo name =>
    ∀ sp ∈ tx.savepoints.find? (·.name = name), tx.ranges.length ≤ sp.rangesLen
  | .rollbackCheckpoint c => tx.ranges.length ≤ c.rangesLen
  | _ => True

variable {op : TxnOp}

namespace TxnState

theorem mem_keys_insert {s : KeySet} {j : Bytes} :
    j ∈ keys (s.insert k ()) ↔ j = k ∨ j ∈ s.keys := by
  rw [KeySet.mem_keys, KeySet.mem_keys, OMap.get_insert]
  split_ifs with h <;> simp [h]

variable (hser : tx.serializable = true)
include hser

/-- Recording reads keeps what is tracked and adds the keys other than bookkeeping. -/
theorem foldl_recordRead_tracks : (ks.foldl recordRead tx).serializable = true ∧
      ∀ j, (tx.Tracks j ∨ isMeta j = false ∧ j ∈ ks) → (ks.foldl recordRead tx).Tracks j := by
  induction ks generalizing tx with
  | nil => exact ⟨hser, fun j hj => hj.elim id fun hj => absurd hj.2 not_mem_nil⟩
  | cons k ks ih =>
    have hser' : (tx.recordRead k).serializable = true := by
      rw [show tx.recordRead k = _ from foldl_recordRead_eq [k] tx, hser]
    refine ⟨(ih hser').1, fun j hj => (ih hser').2 j ?_⟩
    rw [recordRead, hser]
    rcases hj with (⟨hm, hr⟩ | hc) | ⟨hm, hj⟩
    · left
      left
      split_ifs
      · exact ⟨hm, mem_keys_insert.mpr (Or.inr hr)⟩
      · exact ⟨hm, hr⟩
    · left
      right
      split_ifs <;> exact hc
    · rcases mem_cons.mp hj with rfl | hj
      · left
        left
        refine ⟨hm, ?_⟩
        rw [hm]
        exact mem_keys_insert.mpr (Or.inl rfl)
      · exact Or.inr ⟨hm, hj⟩

theorem recordRange_tracks (start : Bytes) (stop : Option Bytes) :
    (tx.recordRange start stop).serializable = true ∧
      ∀ j, (tx.Tracks j ∨ isMeta start = false ∧ inRange start stop j = true) →
        (tx.recordRange start stop).Tracks j := by
  rw [recordRange, hser]
  cases hm : isMeta start with
  | true => exact ⟨hser, fun j hj => hj.elim id fun hj => Bool.noConfusion hj.1⟩
  | false =>
    refine ⟨rfl, ?_⟩
    rintro j ((hr | ⟨r, hr, hk⟩) | ⟨-, hk⟩)
    · exact Or.inl hr
    · exact Or.inr ⟨r, mem_append_left _ hr, hk⟩
    · exact Or.inr ⟨(start, stop), mem_append_right _ mem_cons_self, hk⟩

theorem tracks_of_records {tx' : TxnState} (h : tx'.records = tx.records) :
    tx'.serializable = true ∧ ∀ j, tx.Tracks j → tx'.Tracks j := by
  simp only [records, Prod.mk.injEq] at h
  obtain ⟨hs, hr, hg⟩ := h
  refine ⟨hs.trans hser, fun j hj => ?_⟩
  rwa [Tracks, hr, hg]

/-- A call of a serializable transaction that drops no range keeps what is tracked and tracks
what it reads, unless that is not recorded. -/
theorem exec_tracks (hk : KeepsRanges tx op) : (tx.exec budget op).2.serializable = true ∧
      ∀ j, (tx.Tracks j ∨ op.observes j ∧ ¬ op.unrecorded j) → (tx.exec budget op).2.Tracks j := by
  -- a call that reads nothing only has to keep the records
  have silent : (tx.exec budget op).2.records = tx.records → (∀ j, ¬ op.observes j) →
      (tx.exec budget op).2.serializable = true ∧
        ∀ j, (tx.Tracks j ∨ op.observes j ∧ ¬ op.unrecorded j) → (tx.exec budget op).2.Tracks j :=
    fun hr hn => ⟨(tracks_of_records hser hr).1,
      fun j hj => (tracks_of_records hser hr).2 j (hj.resolve_right fun h => hn j h.1)⟩
  cases op with
  | get k =>
    obtain ⟨hs, ht⟩ := foldl_recordRead_tracks [k] hser
    refine ⟨hs, fun j hj => ht j (hj.imp id ?_)⟩
    rintro ⟨rfl, hm⟩
    exact ⟨Bool.eq_false_of_not_eq_true hm, mem_cons_self⟩
  | multiGet ks =>
    obtain ⟨hs, ht⟩ := foldl_recordRead_tracks ks hser
    exact ⟨hs, fun j hj => ht j (hj.imp id fun h => ⟨Bool.eq_false_of_not_eq_true h.2, h.1⟩)⟩
  | scanRange | scanBatch =>
    obtain ⟨hs, ht⟩ := recordRange_tracks hser _ _
    exact ⟨hs, fun j hj => ht j (hj.imp id fun h => ⟨Bool.eq_false_of_not_eq_true h.2, h.1⟩)⟩
  | commitWrite puts deletes => exact silent ((mutateAll_inside _ _).records tx) fun j => id
  | lockKeys ks | savepoint name => exact silent rfl fun j => id
  | rollbackTo name =>
    refine silent ?_ fun j => id
    simp only [exec, rollbackTo]
    split
    · next pos sp hpos hsp => exact rollbackTxTo_records (hk sp hsp)
    · rfl
  | releaseSavepoint name =>
    refine silent ?_ fun j => id
    simp only [exec, releaseSavepoint]
    split
    · exact dropUndo_inside.records _
    · rfl
  | checkpoint => exact silent rfl fun j => id
  | releaseCheckpoint =>
    refine silent ?_ fun j => id
    simp only [exec, releaseTransactionCheckpoint]
    split
    · rfl
    · exact dropUndo_inside.records _
  | rollbackCheckpoint c =>
    refine silent ?_ fun j => id
    simp only [exec, rollbackTransactionCheckpoint]
    split
    · rfl
    · refine (dropUndo_inside.records _).trans ?_
      exact @rollbackTxTo_records { tx with checkpoints := _ } _ _ hk
  | requireSerializable =>
    refine silent ?_ fun j => id
    simp only [exec, requireSerializableValidation, records, hser]

end TxnState

/-! ## The values a transaction reads -/

namespace TxnState

theorem view_onSnapshot_get (h : tx.snapshot.get k = t.get k) :
    (tx.onSnapshot t).view.get k = tx.view.get k := by
  rw [view, view, Overlay.get_onto, Overlay.get_onto]
  exact congrArg _ h.symm

/-- A scan finds the same on two tables that agree on its range. -/
theorem scanRange_onSnapshot {start : Bytes} {stop : Option Bytes} (limit : Nat)
    (h : ∀ k, inRange start stop k = true → tx.snapshot.get k = t.get k) :
    ((tx.onSnapshot t).scanRange start stop limit).1 = (tx.scanRange start stop limit).1 := by
  have hl : t.scanRange start stop limit = tx.snapshot.scanRange start stop limit := by
    rw [Table.scanRange, Table.scanRange, OMap.list_congr fun k hk => (h k hk).symm]
  exact congrArg (fun c => merge c (rangeOverlay tx.overlay start stop) limit) hl

/-- A call answers the same on two tables that agree on what it observes. -/
theorem exec_answer (h : ∀ k, op.observes k → tx.snapshot.get k = t.get k) :
    ((tx.onSnapshot t).exec budget op).1 = (tx.exec budget op).1 := by
  cases op with
  | get k =>
    simp only [exec, get_eq_view]
    rw [view_onSnapshot_get (h k rfl)]
  | multiGet ks =>
    simp only [exec, multiGet_eq_view]
    rw [map_congr_left fun j hj => view_onSnapshot_get (h j hj)]
  | scanRange | scanBatch => exact congrArg Answer.rows (scanRange_onSnapshot _ h)
  | commitWrite puts deletes =>
    exact congrArg (fun r => Answer.status r.1) (mutateAll_rebase budget _ tx t tx.records)
  | rollbackTo | releaseSavepoint =>
    simp only [exec, rollbackTo, releaseSavepoint, onSnapshot_savepoints]
    split <;> rfl
  | releaseCheckpoint | rollbackCheckpoint =>
    simp only [exec, releaseTransactionCheckpoint, rollbackTransactionCheckpoint,
      onSnapshot_checkpoints]
    split <;> rfl
  | lockKeys | savepoint | checkpoint | requireSerializable => rfl

/-- The calls of a transaction answer the same on two tables that agree on the keys they
observe. -/
theorem answers_onSnapshot {ops : List TxnOp}
    (h : ∀ op ∈ ops, ∀ k, op.observes k → tx.snapshot.get k = t.get k) :
    (tx.onSnapshot t).answers budget ops = tx.answers budget ops := by
  induction ops generalizing tx with
  | nil => rfl
  | cons op ops ih =>
    simp only [answers, exec_onSnapshot]
    rw [exec_answer budget (h op mem_cons_self)]
    refine congrArg _ (ih fun o ho k hk => ?_)
    rw [exec_snapshot]
    exact h o (mem_cons_of_mem _ ho) k hk

end TxnState

/-! ## Serial execution -/

/-- The table after a turn, when the transaction runs alone from its beginning to its commit on
the given table. It makes the calls it made in the run, as a client does that gets the answers it
got in the run. -/
def serialStep (lim : Limits) (t : Table) (u : Turn) : Table :=
  match u.submitted.txn with
  | some x => ((x.beginOn t).execAll lim.budget x.calls).view
  | none => (jobTurn t u.submitted.job).2

/-- Execution one after another. -/
def serialTable (lim : Limits) (t : Table) (us : List Turn) : Table :=
  us.foldl (serialStep lim) t

/-- What the transaction of a turn read: the answers of its calls, those about bookkeeping keys
included. -/
def Turn.reads (u : Turn) : List Answer :=
  match u.submitted.txn with
  | some x => x.script.map Prod.snd
  | none => []

/-- What the transactions read when they run one after another. -/
def serialReads (lim : Limits) : Table → List Turn → List (List Answer)
  | _, [] => []
  | t, u :: us =>
    (match u.submitted.txn with
      | some x => (x.beginOn t).answers lim.budget x.calls
      | none => []) :: serialReads lim (serialStep lim t u) us

/-- The turns that committed, in commit order. -/
def System.commits (σ : System) : List Turn :=
  σ.turns.filter fun u => outcome u.result = .success

/-- What a transaction read and did not record was at its commit as in its snapshot. -/
def Turn.UnrecordedSame (u : Turn) : Prop :=
  ∀ x, u.submitted.txn = some x → ∀ op ∈ x.calls, ∀ k, op.observes k → op.unrecorded k →
    u.before.get k = x.state.snapshot.get k

/-- A serializable transaction that tracks whatever its calls observed and recorded. -/
def ActiveTxn.Tracked (x : ActiveTxn) : Prop :=
  x.state.serializable = true ∧ ∀ op ∈ x.calls, ¬ op.observes wseqKey ∧
    ∀ k, op.observes k → op.unrecorded k ∨ x.state.Tracks k

/-- A queued job commits a tracked transaction or leaves the write sequence alone. -/
def Submitted.Sound (q : Submitted) : Prop :=
  match q.txn with
  | some x => x.Tracked
  | none => q.job.AvoidsWseq

/-- Every transaction is serializable, no rollback drops a range, and neither the calls of
transactions nor autocommit writes touch the write sequence. -/
def SerializableRun (σ : System) : Step → Prop
  | .begin _ _ isolation => isolation = .serializable
  | .op s op => ∀ x, σ.sessions s = some x → KeepsRanges x.state op ∧ ¬ op.observes wseqKey
  | .autocommit job => job.AvoidsWseq
  | _ => True

instance KeepsRanges.decidablePred : DecidablePred (KeepsRanges tx) := fun op => by
  cases op <;> (unfold KeepsRanges; infer_instance)

instance TxnOp.decidableObserves (k : Bytes) : Decidable (op.observes k) := by
  cases op <;> (unfold TxnOp.observes; infer_instance)

instance WriteJob.AvoidsWseq.decidablePred : DecidablePred WriteJob.AvoidsWseq := fun j =>
  decidable_of_iff ((∀ new ∈ j.insertNew, ∀ e ∈ new, e.1 ≠ wseqKey) ∧
      (∀ v ∈ j.validation, ∀ e ∈ v.keys, e.1 ≠ wseqKey) ∧
      ∀ v ∈ j.validation, ∀ r ∈ v.ranges, inRange r.start r.stop wseqKey = false)
    ⟨fun h => ⟨h.1, h.2.1, h.2.2⟩, fun h => ⟨h.new, h.keys, h.ranges⟩⟩

instance SerializableRun.decidablePred (σ : System) :
    DecidablePred (SerializableRun σ) := fun a => by
  cases a with
  | op s op => exact inferInstanceAs (Decidable (∀ x ∈ σ.sessions s, _))
  | autocommit job => exact inferInstanceAs (Decidable job.AvoidsWseq)
  | _ => unfold SerializableRun; infer_instance

theorem ActiveTxn.Tracked.exec {x : ActiveTxn} (h : x.Tracked) (budget : Nat)
    (hk : KeepsRanges x.state op) (ht : ¬ op.observes wseqKey) :
    ActiveTxn.Tracked { x with
      state := (x.state.exec budget op).2
      script := x.script ++ [(op, (x.state.exec budget op).1)] } := by
  obtain ⟨hser, htrack⟩ := exec_tracks budget h.1 hk
  refine ⟨hser, fun o ho => ?_⟩
  simp only [ActiveTxn.calls, map_append, map_cons, map_nil, mem_append, mem_singleton] at ho
  rcases ho with ho | rfl
  · exact ⟨(h.2 o ho).1, fun k hk => ((h.2 o ho).2 k hk).imp_right fun hk => htrack k (Or.inl hk)⟩
  · exact ⟨ht, fun k hk => or_iff_not_imp_left.mpr fun hu => htrack k (Or.inr ⟨hk, hu⟩)⟩

/-- Open transactions are tracked, queued and turned jobs are sound. -/
structure System.Tracked (σ : System) : Prop where
  sessions : ∀ s x, σ.sessions s = some x → x.Tracked
  queued : ∀ q ∈ σ.queue, q.Sound
  turned : ∀ u ∈ σ.turns, u.submitted.Sound

variable {lim : Limits}

/-- Every step that meets the condition keeps transactions tracked. -/
theorem System.Tracked.step {σ σ' : System} {a : Step} (h : σ.Tracked) (hok : SerializableRun σ a)
    (hs : σ.step lim a = some σ') : σ'.Tracked := by
  obtain ⟨s, ro, iso, rfl, rfl⟩ | ⟨s, op, x, rfl, hx, rfl⟩ | ⟨s, rfl⟩ | rfl |
    ⟨s, x, job, -, hx, hj, rfl⟩ | ⟨job, rfl, -, rfl⟩ | ⟨n, first, queue, -, hq, rfl⟩ :=
    step_cases hs
  · refine { h with sessions := forall_update h.sessions s ?_ }
    rintro x ⟨⟩
    exact ⟨by rw [show iso = .serializable from hok]; rfl, fun op hop => nomatch hop⟩
  · refine { h with sessions := forall_update h.sessions s ?_ }
    rintro y ⟨⟩
    obtain ⟨hk, ht⟩ := hok x hx
    exact (h.sessions s x hx).exec lim.budget hk ht
  · exact { h with sessions := forall_update h.sessions s nofun }
  · exact h
  · exact { h with
      sessions := forall_update h.sessions s nofun
      queued := forall_mem_append.mpr ⟨h.queued, forall_mem_singleton.mpr (h.sessions s x hx)⟩ }
  · exact { h with queued := forall_mem_append.mpr ⟨h.queued, forall_mem_singleton.mpr hok⟩ }
  · obtain ⟨hqueued, hturned, -⟩ := group_spec (hq ▸ h.queued)
    exact { h with
      queued := hqueued
      turned := forall_mem_append.mpr ⟨h.turned, fun u hu => (hturned u hu).2⟩ }

/-! ## Serializability -/

variable {begun : List (Nat × Table)}

/-- A committed transaction, run alone on a table with the rows its turn found, reads the same
values and leaves the same rows. -/
theorem serialStep_txn {u : Turn} {x : ActiveTxn} (hx : u.submitted.txn = some x) (hd : u.Done)
    (ho : u.submitted.Of lim begun) (htr : x.Tracked) (hok : outcome u.result = .success)
    (hsame : u.UnrecordedSame) (h : SameRows t u.before) :
    x.script.map Prod.snd = (x.beginOn t).answers lim.budget x.calls ∧
      SameRows (serialStep lim t u) u.after := by
  obtain ⟨⟨snapshot, -, hst, hans⟩, hj⟩ := ho x hx
  have hsnap : x.state.snapshot = snapshot := by
    rw [hst, execAll_snapshot]
    rfl
  have hbegin : x.beginOn t = (x.beginOn snapshot).onSnapshot t := rfl
  constructor
  · rw [hans]
    refine (answers_onSnapshot lim.budget fun op hop k hk => ?_).symm
    have hne : k ≠ wseqKey := fun heq => (htr.2 op hop).1 (heq ▸ hk)
    have hkeep : u.before.get k = x.state.snapshot.get k := by
      rcases (htr.2 op hop).2 k hk with hu | ht
      · exact hsame x hx op hop k hk hu
      · exact tracked_unchanged htr.1 hj (hd.2.trans hok) ht
    rw [hsnap] at hkeep
    exact hkeep.symm.trans (h k hne).symm
  · have hview : serialStep lim t u = x.state.overlay.onto t := by
      rw [serialStep, hx]
      simp only [hbegin, execAll_onSnapshot, ← hst]
      rfl
    rcases hd.txn ho hx with ⟨-, hafter, -⟩ | ⟨hno, -⟩
    · rw [hview, hafter]
      exact sameRows_write h _ _
    · exact absurd hok hno

theorem serial_turns {us : List Turn}
    (hus : ∀ u ∈ us, (u.Done ∧ u.submitted.Of lim begun) ∧ u.submitted.Sound ∧
      (outcome u.result = .success → u.UnrecordedSame)) {t' t'' : Table}
    (hl : Linked t us t'') (h : SameRows t' t) :
    let commits := us.filter fun u => outcome u.result = .success
    commits.map Turn.reads = serialReads lim t' commits ∧
      SameRows (serialTable lim t' commits) t'' := by
  induction us generalizing t t' with
  | nil => exact ⟨rfl, h.trans hl⟩
  | cons u us ih =>
    obtain ⟨⟨⟨hd, ho⟩, hsound, hsame⟩, hrest⟩ := forall_mem_cons.mp hus
    obtain ⟨hb, hl⟩ := hl
    by_cases hok : outcome u.result = .success
    · rw [filter_cons_of_pos (by simpa using hok)]
      simp only [map_cons, serialReads, Turn.reads]
      cases hx : u.submitted.txn with
      | some x =>
        rw [Submitted.Sound, hx] at hsound
        obtain ⟨hreads, hrows⟩ := serialStep_txn hx hd ho hsound hok (hsame hok) (h.trans hb)
        obtain ⟨ihr, iht⟩ := ih hrest hl hrows
        exact ⟨congrArg₂ _ hreads ihr, iht⟩
      | none =>
        rw [Submitted.Sound, hx] at hsound
        have hrows : SameRows (serialStep lim t' u) u.after := by
          rw [serialStep, hx, ← hd.1]
          exact (jobTurn_congr hsound (h.trans hb)).2
        obtain ⟨ihr, iht⟩ := ih hrest hl hrows
        exact ⟨congrArg _ ihr, iht⟩
    · rw [filter_cons_of_neg (by simpa using hok)]
      have hafter : u.after = u.before :=
        hd.1.symm.trans (jobTurn_failed fun he => hok (hd.2.symm.trans he))
      exact ih hrest hl (hafter ▸ h.trans hb)

/-- SERIALIZABLE means serializable, in every run of serializable transactions whose rollbacks
drop no scanned range and whose unrecorded reads were still up to date at their commits: run one
after another in commit order, the committed transactions read what they read in the run, and the
table ends with the same rows. -/
theorem serializable_run {lim : Limits} {w : Writer} {σ : System}
    (h : Reach (System.step lim) SerializableRun (System.init w) σ)
    (hsame : ∀ u ∈ σ.commits, u.UnrecordedSame) :
    σ.commits.map Turn.reads = serialReads lim w.storage.kv σ.commits ∧
      SameRows (serialTable lim w.storage.kv σ.commits) σ.writer.storage.kv := by
  obtain ⟨hi, ht⟩ : σ.Inv lim w ∧ σ.Tracked := by
    refine h.invariant (I := fun σ => System.Inv lim w σ ∧ σ.Tracked) ⟨System.Inv.init lim w, ?_⟩
      fun hi hok hs => ⟨hi.1.step hs, hi.2.step hok hs⟩
    exact ⟨by simp [System.init], by simp [System.init], by simp [System.init]⟩
  refine serial_turns (fun u hu => ⟨hi.turned u hu, ht.turned u hu, fun hok => ?_⟩) hi.linked
    (SameRows.refl _)
  exact hsame u (mem_filter.mpr ⟨hu, by simpa using hok⟩)

/-- A transaction scans a range after a savepoint, rolls back to it and writes; another inserts
into the range and commits first. -/
def scanThenRollback : List Step :=
  [.begin 0 false .serializable,
   .op 0 (.savepoint "a"),
   .op 0 (.scanRange [1] (some [2]) 10),
   .op 0 (.rollbackTo "a"),
   .op 0 (.commitWrite [([5], [0])] []),
   .begin 1 false .serializable,
   .op 1 (.commitWrite [([1, 1], [9])] []),
   .commit 1,
   .group 0,
   .commit 0,
   .group 0]

/-- Both commit. The scan found the range empty, but run after the other transaction it finds
the inserted row. -/
theorem rollback_breaks_serializability :
    (run (System.step ⟨1000, 1000⟩) (System.init emptyWriter) scanThenRollback).map
      (fun σ => (σ.commits.map Turn.reads,
        serialReads ⟨1000, 1000⟩ emptyWriter.storage.kv σ.commits)) =
    some ([[.status (.ok ())], [.done, .rows [], .status (.ok ()), .status (.ok ())]],
      [[.status (.ok ())],
        [.done, .rows [([1, 1], [9])], .status (.ok ()), .status (.ok ())]]) := by
  rfl

/-- A counter under `meta::`. -/
def counterKey : Bytes := ascii ['m', 'e', 't', 'a', ':', ':', 'n']

/-- A transaction reads a counter under `meta::`, the other advances it and commits first. -/
def counterReadThenSet : List Step :=
  [.begin 0 false .serializable,
   .op 0 (.commitWrite [(counterKey, [100])] []),
   .begin 1 false .serializable,
   .op 1 (.get counterKey),
   .op 1 (.commitWrite [([5], [0])] []),
   .commit 0,
   .commit 1,
   .group 1]

/-- Both commit, without a savepoint: reads of bookkeeping keys are not validated. -/
theorem counter_read_not_validated :
    (run (System.step ⟨1000, 1000⟩) (System.init emptyWriter) counterReadThenSet).map
      (fun σ => (σ.commits.map Turn.reads,
        serialReads ⟨1000, 1000⟩ emptyWriter.storage.kv σ.commits)) =
    some ([[.status (.ok ())], [.value none, .status (.ok ())]],
      [[.status (.ok ())], [.value (some [100]), .status (.ok ())]]) := by
  rfl

/-- A transaction reads a counter, scans a range before a savepoint and rolls back to it; another
commits outside that range before it does. -/
def scanBeforeSavepoint : List Step :=
  [.begin 0 false .serializable,
   .op 0 (.get counterKey),
   .op 0 (.scanRange [1] (some [2]) 10),
   .op 0 (.savepoint "a"),
   .op 0 (.commitWrite [([5], [0])] []),
   .op 0 (.rollbackTo "a"),
   .op 0 (.commitWrite [([6], [0])] []),
   .begin 1 false .serializable,
   .op 1 (.commitWrite [([7], [9])] []),
   .commit 1,
   .group 0,
   .commit 0,
   .group 0]

theorem serializable_run_scanBeforeSavepoint :
    ∃ σ, run (System.step ⟨1000, 1000⟩) (System.init emptyWriter) scanBeforeSavepoint = some σ ∧
      σ.commits.map (·.reads.length) = [1, 6] ∧
      σ.commits.map Turn.reads = serialReads ⟨1000, 1000⟩ emptyWriter.storage.kv σ.commits ∧
      SameRows (serialTable ⟨1000, 1000⟩ emptyWriter.storage.kv σ.commits)
        σ.writer.storage.kv := by
  have hrun : (run (guarded (System.step ⟨1000, 1000⟩) SerializableRun) (System.init emptyWriter)
      scanBeforeSavepoint).isSome := by decide +kernel
  refine ⟨_, rfl, rfl, serializable_run (Reach.of_guarded_run (Option.some_get hrun).symm) ?_⟩
  intro u hu x hx op hop k hk hm
  -- the counter is the only key that is read and not recorded
  have hturn := mem_map_of_mem (f := fun u : Turn => (u.before.get counterKey,
    u.submitted.txn.map fun x => (x.state.snapshot.get counterKey, x.calls))) hu
  change _ ∈ [(none, some (none, [TxnOp.commitWrite [([7], [9])] []])),
    (none, some (none, [.get counterKey, .scanRange [1] (some [2]) 10, .savepoint "a",
      .commitWrite [([5], [0])] [], .rollbackTo "a", .commitWrite [([6], [0])] []]))] at hturn
  simp only [hx, mem_cons, Option.map_some, Prod.mk.injEq, Option.some.injEq, not_mem_nil,
    or_false] at hturn
  rcases hturn with ⟨hb, hs, hc⟩ | ⟨hb, hs, hc⟩
  · simp only [hc, mem_singleton] at hop
    exact absurd hk (hop ▸ id)
  · simp only [hc, mem_cons, not_mem_nil, or_false] at hop
    rcases hop with rfl | rfl | rfl | rfl | rfl | rfl
    · exact hk ▸ hb.trans hs.symm
    · exact absurd (show isMeta [1] = true from hm) (by decide)
    all_goals exact hk.elim

end ElyraSql
