import ElyraSql.Session.Buffer

/-!
# Snapshot isolation
-/

namespace ElyraSql

open OrderedMap Transition GroupCommitLemmas List TxnState Table SameRows

/-! ## The snapshot of a transaction -/

variable {tx : TxnState} (budget : Nat) {cap : Nat}

namespace TxnState

/-- The same transaction state over another table. -/
def onSnapshot (tx : TxnState) (t : Table) : TxnState := { tx with snapshot := t }

theorem foldl_recordRead_onSnapshot (ks : List Bytes) (tx : TxnState) (t : Table) :
    ks.foldl recordRead (tx.onSnapshot t) = (ks.foldl recordRead tx).onSnapshot t := by
  rw [foldl_recordRead_eq, foldl_recordRead_eq]
  rfl

theorem recordRange_onSnapshot (tx : TxnState) (t : Table) (start : Bytes) (stop : Option Bytes) :
    (tx.onSnapshot t).recordRange start stop = (tx.recordRange start stop).onSnapshot t := by
  unfold recordRange onSnapshot
  split_ifs <;> rfl

/-- What validation works from. -/
def records (tx : TxnState) : Bool × KeySet × List (Bytes × Option Bytes) :=
  (tx.serializable, tx.reads, tx.ranges)

/-- The same buffer over another table and with other records. -/
def rebase (tx : TxnState) (t : Table) (r : Bool × KeySet × List (Bytes × Option Bytes)) :
    TxnState :=
  { tx with snapshot := t, serializable := r.1, reads := r.2.1, ranges := r.2.2 }

/-- A change of the buffer alone, whatever is around it. -/
def Inside (f : TxnState → TxnState) : Prop := ∀ tx t r, f (tx.rebase t r) = (f tx).rebase t r

theorem Inside.records {f : TxnState → TxnState} (h : Inside f) (tx : TxnState) :
    (f tx).records = tx.records :=
  (congrArg TxnState.records (h tx tx.snapshot tx.records) :)

theorem Inside.onSnapshot {f : TxnState → TxnState} (h : Inside f) (tx : TxnState) (t : Table) :
    f (tx.onSnapshot t) = (f tx).onSnapshot t :=
  (h tx t tx.records).trans (congrArg ((f tx).rebase t) (h.records tx).symm)

theorem mutate_rebase (k : Bytes) (f : Overlay → Overlay) (tx : TxnState) (t : Table)
    (r : Bool × KeySet × List (Bytes × Option Bytes)) :
    (tx.rebase t r).mutate budget k f =
      ((tx.mutate budget k f).1, (tx.mutate budget k f).2.rebase t r) := by
  rw [mutate_eq, mutate_eq]
  show (if tx.logging = true ∧ budget < tx.mem + (tx.logged k).undoMem then
      (Except.error (txnOverflow budget), tx.rebase t r)
    else if budget < (tx.changed k f).mem + (tx.changed k f).undoMem then
      (.error (txnOverflow budget), (tx.changed k f).rebase t r)
    else (.ok (), (tx.changed k f).rebase t r)) = _
  split_ifs <;> rfl

theorem mutateAll_rebase (ms : List (Bytes × (Overlay → Overlay))) (tx : TxnState) (t : Table)
    (r : Bool × KeySet × List (Bytes × Option Bytes)) :
    (tx.rebase t r).mutateAll budget ms =
      ((tx.mutateAll budget ms).1, (tx.mutateAll budget ms).2.rebase t r) := by
  induction ms generalizing tx with
  | nil => rfl
  | cons m ms ih =>
    rw [mutateAll, mutateAll, mutate_rebase]
    cases (tx.mutate budget m.1 m.2).1 with
    | error e => rfl
    | ok u => exact ih _

theorem mutateAll_inside (ms : List (Bytes × (Overlay → Overlay))) :
    Inside fun tx => (tx.mutateAll budget ms).2 :=
  fun tx t r => congrArg Prod.snd (mutateAll_rebase budget ms tx t r)

theorem unwind_inside (mark fuel : Nat) : Inside (unwind mark fuel) := by
  intro tx t r
  induction fuel generalizing tx with
  | zero => rfl
  | succ fuel ih =>
    have hpop : (tx.rebase t r).popUndo = tx.popUndo.rebase t r := by
      simp only [popUndo, rebase]
      split <;> rfl
    rw [unwind, hpop, ih]
    exact (apply_ite (rebase · t r) _ _ _).symm

theorem dropUndo_inside : Inside dropUndo := by
  intro tx t r
  unfold dropUndo rebase
  split_ifs <;> rfl

theorem onSnapshot_savepoints (tx : TxnState) (t : Table) :
    (tx.onSnapshot t).savepoints = tx.savepoints := rfl

theorem onSnapshot_checkpoints (tx : TxnState) (t : Table) :
    (tx.onSnapshot t).checkpoints = tx.checkpoints := rfl

/-- The buffer and the records of a transaction do not depend on its snapshot. -/
theorem exec_onSnapshot (tx : TxnState) (t : Table) (op : TxnOp) :
    ((tx.onSnapshot t).exec budget op).2 = (tx.exec budget op).2.onSnapshot t := by
  cases op with
  | get k => exact foldl_recordRead_onSnapshot [k] tx t
  | multiGet ks => exact foldl_recordRead_onSnapshot ks tx t
  | scanRange start stop limit => exact recordRange_onSnapshot tx t start stop
  | scanBatch pfx after limit => exact recordRange_onSnapshot tx t _ _
  | commitWrite puts deletes => exact (mutateAll_inside budget _).onSnapshot tx t
  | lockKeys | savepoint | checkpoint | requireSerializable => rfl
  | rollbackTo name =>
    simp only [exec, rollbackTo, onSnapshot_savepoints]
    split
    · next pos sp _ _ =>
      simp only [rollbackTxTo, (unwind_inside _ _).onSnapshot]
      rfl
    · rfl
  | releaseSavepoint name =>
    simp only [exec, releaseSavepoint, onSnapshot_savepoints]
    split
    · exact dropUndo_inside.onSnapshot { tx with savepoints := _ } t
    · rfl
  | releaseCheckpoint =>
    simp only [exec, releaseTransactionCheckpoint, onSnapshot_checkpoints]
    split
    · rfl
    · exact dropUndo_inside.onSnapshot { tx with checkpoints := _ } t
  | rollbackCheckpoint c =>
    simp only [exec, rollbackTransactionCheckpoint, onSnapshot_checkpoints]
    split
    · rfl
    · next n _ =>
      have hunwind := (unwind_inside c.undoMark tx.undo.length).onSnapshot
          { tx with checkpoints := n } t
      refine Eq.trans (congrArg dropUndo ?_) (dropUndo_inside.onSnapshot _ t)
      exact congrArg (fun z : TxnState => { z with
        ranges := z.ranges.take c.rangesLen
        savepoints := z.savepoints.take c.savepointsLen }) hunwind

theorem execAll_onSnapshot (ops : List TxnOp) (tx : TxnState) (t : Table) :
    (tx.onSnapshot t).execAll budget ops = (tx.execAll budget ops).onSnapshot t := by
  induction ops generalizing tx with
  | nil => rfl
  | cons op ops ih =>
    simp only [execAll, foldl_cons, exec_onSnapshot]
    exact ih _

theorem exec_snapshot (tx : TxnState) (op : TxnOp) :
    (tx.exec budget op).2.snapshot = tx.snapshot :=
  (congrArg snapshot (exec_onSnapshot budget tx tx.snapshot op) :)

theorem execAll_snapshot (ops : List TxnOp) (tx : TxnState) :
    (tx.execAll budget ops).snapshot = tx.snapshot :=
  (congrArg snapshot (execAll_onSnapshot budget ops tx tx.snapshot) :)

/-! ## What a commit validates -/

theorem mem_keyset {k : Bytes} :
    k ∈ tx.keyset.keys ↔
      (tx.overlay.touches k = true ∧ isMeta k = false ∧ tx.rangeCovers k = false) ∨
        k ∈ tx.locked.keys ∨ (tx.serializable = true ∧ k ∈ tx.reads.keys ∧ isMeta k = false) := by
  have hput : k ∈ tx.overlay.puts.entries.map Prod.fst ↔ (tx.overlay.puts.get k).isSome := by
    simp only [mem_map, Option.isSome_iff_exists, OMap.get_eq_some]
    constructor
    · rintro ⟨e, he, rfl⟩
      exact ⟨e.2, he⟩
    · rintro ⟨v, hv⟩
      exact ⟨_, hv, rfl⟩
  rw [KeySet.mem_keys, keyset, OMap.get_insertMany, OMap.get_empty, Option.or_none,
    OMap.lastValue_isSome, map_map]
  simp only [Function.comp_def, map_id', mem_append, mem_filter, hput, Overlay.touches]
  by_cases hs : tx.serializable = true <;> simp [KeySet.mem_keys, or_assoc]

/-- The range snapshots have the whole content of every range. -/
theorem rangeSnaps_eq (snapshot : Table) (cap : Nat) (rs : List (Bytes × Option Bytes)) :
    rangeSnaps snapshot cap rs =
      if ∀ r ∈ rs, (snapshot.list (inRange r.1 r.2)).length ≤ cap then
        .ok (rs.map fun r => ⟨r.1, r.2, snapshot.list (inRange r.1 r.2)⟩)
      else .error (rangeTooLarge cap) := by
  induction rs with
  | nil => rfl
  | cons a rs ih =>
    have hlen : (snapshot.scanRange a.1 a.2 (cap + 1)).length > cap ↔
        ¬(snapshot.list (inRange a.1 a.2)).length ≤ cap := by
      rw [Table.scanRange, scanUpTo, length_take]
      omega
    rw [rangeSnaps, ih]
    simp only [forall_mem_cons, hlen]
    by_cases hcap : (snapshot.list (inRange a.1 a.2)).length ≤ cap
    · have hfull : snapshot.scanRange a.1 a.2 (cap + 1) = snapshot.list (inRange a.1 a.2) := by
        rw [Table.scanRange, scanUpTo]
        exact take_of_length_le (by omega)
      rw [if_neg (not_not_intro hcap), hfull]
      simp only [hcap, true_and]
      split_ifs <;> rfl
    · rw [if_pos hcap, if_neg fun h => hcap h.1]

/-- The job a commit submits carries the whole buffer and the snapshot's values. -/
theorem commitJob_spec {job : WriteJob} (h : tx.commitJob cap = .ok job) :
    ∃ v, job.validation = some v ∧ job.insertNew = none ∧
      job.puts = tx.overlay.puts.entries ∧ job.deletes = tx.overlay.deletes.keys ∧
      v.keys = tx.keyset.keys.map (fun k => (k, tx.snapshot.get k)) ∧
      (tx.serializable = true → ∀ r ∈ tx.commitRanges,
        ⟨r.1, r.2, tx.snapshot.list (inRange r.1 r.2)⟩ ∈ v.ranges) := by
  rw [commitJob] at h
  split at h
  · cases h
  · next ranges hr =>
    cases h
    refine ⟨_, rfl, rfl, rfl, rfl, rfl, fun hs r hmem => ?_⟩
    rw [if_pos hs, rangeSnaps_eq] at hr
    split_ifs at hr
    cases hr
    exact mem_map_of_mem hmem

end TxnState

variable {t : Table}

/-- A validated turn that succeeds has found its keys and ranges as expected and has written
everything. -/
theorem jobTurn_ok {j : WriteJob} {v : Validation} (hv : j.validation = some v)
    (h : outcome (jobTurn t j).1 = .success) :
    t.keysHold v.keys = true ∧ t.rangesHold v.ranges = true ∧
      (jobTurn t j).2 = t.write j.puts j.deletes := by
  rw [jobTurn, if_pos (by rw [hv]; rfl), validatedTurn] at h ⊢
  simp only [WriteJob.toValidatedCommit, hv] at h ⊢
  split_ifs at h ⊢ with hc
  · exact ⟨(Bool.and_eq_true_iff.mp hc).1, (Bool.and_eq_true_iff.mp hc).2, rfl⟩
  · cases h

theorem jobTurn_failed {j : WriteJob} (h : outcome (jobTurn t j).1 ≠ .success) :
    (jobTurn t j).2 = t := by
  unfold jobTurn validatedTurn plainTurn at h ⊢
  split_ifs at h ⊢ <;> first | rfl | exact absurd rfl h

/-- A commit that passes validation finds every key it validates as its snapshot had it. -/
theorem unchanged_of_turn {job : WriteJob} (hj : tx.commitJob cap = .ok job)
    (h : outcome (jobTurn t job).1 = .success) :
    (∀ k ∈ tx.keyset.keys, t.get k = tx.snapshot.get k) ∧
      ∀ k, tx.rangeCovers k = true → t.get k = tx.snapshot.get k := by
  obtain ⟨v, hv, -, -, -, hkeys, hranges⟩ := commitJob_spec hj
  obtain ⟨hk, hr, -⟩ := jobTurn_ok hv h
  constructor
  · intro k hmem
    have := all_eq_true.mp hk (k, tx.snapshot.get k) (by
      rw [hkeys]
      exact mem_map.mpr ⟨k, hmem, rfl⟩)
    simpa using this
  · intro k hc
    rw [rangeCovers, Bool.and_eq_true, any_eq_true] at hc
    obtain ⟨hs, r, hmem, hin⟩ := hc
    have := all_eq_true.mp hr _ (hranges hs r hmem)
    exact OMap.get_eq_of_list_eq (by simpa using this) hin

/-! ## Groups and the history -/

/-- The turns of the history lead from one table to another, each starting from the rows the one
before it left. -/
def Linked (t : Table) : List Turn → Table → Prop
  | [], t' => SameRows t t'
  | u :: us, t' => SameRows t u.before ∧ Linked u.after us t'

/-- The history's turn is the turn of the model, with the outcome its issuer got. -/
def Turn.Done (u : Turn) : Prop :=
  (jobTurn u.before u.submitted.job).2 = u.after ∧
    outcome (jobTurn u.before u.submitted.job).1 = outcome u.result

theorem linked_append {t' t'' : Table} {us vs : List Turn} (h : Linked t us t')
    (h' : Linked t' vs t'') : Linked t (us ++ vs) t'' := by
  induction us generalizing t with
  | nil =>
    cases vs with
    | nil => exact trans h h'
    | cons v vs => exact ⟨trans h h'.1, h'.2⟩
  | cons u us ih => exact ⟨h.1, ih h.2⟩

theorem linked_congr {t' t'' : Table} {us : List Turn} (h : Linked t us t') (h' : SameRows t' t'') :
    Linked t us t'' := by
  have := linked_append h (show Linked t' [] t'' from h')
  rwa [append_nil] at this

/-- The recorded turns of a group are turns of the model and lead through its transaction. -/
theorem turnsOf_spec (js : List Submitted) {rs : List (Except Error Unit)}
    (h : rs.map outcome = (t.turns jobTurn (js.map (·.job))).1.map outcome) :
    (∀ u ∈ turnsOf t (js.zip rs), u.Done ∧ u.submitted ∈ js) ∧
      Linked t (turnsOf t (js.zip rs)) (t.turns jobTurn (js.map (·.job))).2 := by
  induction js generalizing t rs with
  | nil => exact ⟨by simp [turnsOf], refl t⟩
  | cons j js ih =>
    cases rs with
    | nil => simp [turns] at h
    | cons r rs =>
      simp only [map_cons, turns, List.cons.injEq] at h
      obtain ⟨hr, hrs⟩ := h
      obtain ⟨hd, hl⟩ := ih hrs
      simp only [zip_cons_cons, turnsOf, forall_mem_cons]
      exact ⟨⟨⟨⟨rfl, hr.symm⟩, mem_cons_self⟩,
        fun u hu => ⟨(hd u hu).1, mem_cons_of_mem _ (hd u hu).2⟩⟩, refl t, hl⟩

/-- The writer's group is the front of the queue and is of one kind. -/
theorem nextGroup_spec (n : Nat) (first : Submitted) (queue : List Submitted) :
    (nextGroup n first queue).1 ++ (nextGroup n first queue).2 = queue ∧
      ∀ j ∈ (nextGroup n first queue).1.map (·.job),
        j.validation.isSome = first.job.validation.isSome := by
  obtain ⟨hsplit, hkind⟩ := drainKind_spec first.job.validation.isSome
    (min n (groupCommitMax - 1)) (queue.map (·.job))
  refine ⟨take_append_drop _ _, fun j hj => hkind j ?_⟩
  rw [nextGroup, map_take] at hj
  have hpre := prefix_iff_eq_take.mp ⟨_, hsplit⟩
  exact hpre ▸ hj

/-! ## The invariant -/

/-- What a read should return on a view, for the calls that read. -/
def TxnOp.ideal (view : Table) : TxnOp → Option Answer
  | .get k => some (.value (view.get k))
  | .multiGet ks => some (.values (ks.map view.get))
  | .scanRange start stop limit => some (.rows ((view.list (inRange start stop)).take limit))
  | .scanBatch pfx after limit =>
    some (.rows ((view.list fun k => pfx.isPrefixOf k && after.all fun a => decide (a < k)).take
      limit))
  | _ => none

/-- The condition of `scan_exact_iff` on a call. -/
def ScanOk (tx : TxnState) : TxnOp → Prop
  | .scanRange start stop limit =>
    TxnState.WindowSuffices tx.snapshot tx.overlay start stop limit
  | .scanBatch pfx after limit =>
    (∀ a, after = some a → pfx <+: a) ∧ TxnState.BatchOk tx.snapshot tx.overlay pfx after limit
  | _ => True

/-- Every scan made inside a transaction meets the condition. -/
def ScansSuffice (σ : System) (a : Step) : Prop :=
  ∀ s op x, a = .op s op → σ.sessions s = some x → ScanOk x.state op

theorem exec_ideal {op : TxnOp} (h : ScanOk tx op) {ans : Answer}
    (ha : op.ideal tx.view = some ans) :
    (tx.exec budget op).1 = ans := by
  cases op with
  | get k =>
    cases ha
    exact congrArg Answer.value (tx.get_eq_view k)
  | multiGet ks =>
    cases ha
    exact congrArg Answer.values (tx.multiGet_eq_view ks)
  | scanRange start stop limit =>
    cases ha
    exact congrArg Answer.rows ((scanRange_exact_iff tx start stop limit).mpr h)
  | scanBatch pfx after limit =>
    cases ha
    exact congrArg Answer.rows ((scanBatch_exact_iff tx h.1).mpr h.2)
  | _ => cases ha

/-- The state in which a transaction begins on a table. -/
def ActiveTxn.beginOn (x : ActiveTxn) (t : Table) : TxnState :=
  start t x.readOnly x.isolation

def ActiveTxn.calls (x : ActiveTxn) : List TxnOp := x.script.map Prod.fst

/-- The transaction began with one of the recorded snapshots; its state and the answers it got
are what its own calls made of that beginning. -/
def ActiveTxn.Began (lim : Limits) (begun : List (Nat × Table)) (x : ActiveTxn) : Prop :=
  ∃ snapshot, (x.id, snapshot) ∈ begun ∧
    x.state = (x.beginOn snapshot).execAll lim.budget x.calls ∧
    x.script.map Prod.snd = (x.beginOn snapshot).answers lim.budget x.calls

variable {begun : List (Nat × Table)} {lim : Limits}
variable {begun' : List (Nat × Table)} {x : ActiveTxn}

theorem ActiveTxn.Began.mono (h : x.Began lim begun) (hs : ∀ e ∈ begun, e ∈ begun') :
    x.Began lim begun' := by
  obtain ⟨snapshot, hm, he⟩ := h
  exact ⟨snapshot, hs _ hm, he⟩

theorem TxnState.answers_append (tx : TxnState) (ops : List TxnOp) (op : TxnOp) :
    tx.answers budget (ops ++ [op]) =
      tx.answers budget ops ++ [((tx.execAll budget ops).exec budget op).1] := by
  induction ops generalizing tx with
  | nil => rfl
  | cons o ops ih =>
    simp only [cons_append, answers, ih]
    rfl

theorem ActiveTxn.Began.exec (h : x.Began lim begun) (op : TxnOp) :
    ActiveTxn.Began lim begun { x with
      state := (x.state.exec lim.budget op).2
      script := x.script ++ [(op, (x.state.exec lim.budget op).1)] } := by
  obtain ⟨snapshot, hm, hst, hans⟩ := h
  have hcalls : (x.script ++ [(op, (x.state.exec lim.budget op).1)]).map Prod.fst =
      x.calls ++ [op] := by simp [calls]
  refine ⟨snapshot, hm, ?_, ?_⟩
  · simp only [calls, hcalls, execAll, foldl_append]
    rw [hst]
    rfl
  · simp only [calls, answers_append, map_append, map_cons, map_nil, hans]
    rw [hst]
    rfl

/-- A job on the queue is an autocommit write or the commit of a transaction. -/
def Submitted.Of (lim : Limits) (begun : List (Nat × Table)) (q : Submitted) : Prop :=
  ∀ x, q.txn = some x → x.Began lim begun ∧ x.state.commitJob lim.cap = .ok q.job

theorem Submitted.Of.mono {q : Submitted} (h : q.Of lim begun) (hs : ∀ e ∈ begun, e ∈ begun') :
    q.Of lim begun' :=
  fun x hx => ⟨(h x hx).1.mono hs, (h x hx).2⟩

/-- The invariant of the sessions, the queue and the history. -/
structure System.Inv (lim : Limits) (w : Writer) (σ : System) : Prop where
  current : σ.writer.storage.kv ∈ σ.committed
  begun_committed : ∀ e ∈ σ.begun, e.2 ∈ σ.committed
  begun_lt : ∀ e ∈ σ.begun, e.1 < σ.nextTxn
  begun_unique : ∀ e ∈ σ.begun, ∀ e' ∈ σ.begun, e.1 = e'.1 → e.2 = e'.2
  sessions : ∀ s x, σ.sessions s = some x → x.Began lim σ.begun
  ops : ∀ e ∈ σ.ops, e.caller.Began lim σ.begun ∧
    (e.caller.state.exec lim.budget e.op).1 = e.answer
  queued : ∀ q ∈ σ.queue, q.Of lim σ.begun
  turned : ∀ u ∈ σ.turns, u.Done ∧ u.submitted.Of lim σ.begun
  linked : Linked w.storage.kv σ.turns σ.writer.storage.kv

open ElyraSql.System

theorem System.Inv.init (lim : Limits) (w : Writer) : (init w).Inv lim w where
  current := mem_cons_self
  begun_committed := by simp [System.init]
  begun_lt := by simp [System.init]
  begun_unique := by simp [System.init]
  sessions := by simp [System.init]
  ops := by simp [System.init]
  queued := by simp [System.init]
  turned := by simp [System.init]
  linked := refl _

theorem forall_update {P : ActiveTxn → Prop} {f : Nat → Option ActiveTxn}
    (h : ∀ s x, f s = some x → P x) (s : Nat) {v : Option ActiveTxn} (hv : ∀ x, v = some x → P x) :
    ∀ s' x, Function.update f s v s' = some x → P x := by
  intro s' x hx
  rw [Function.update_apply] at hx
  split_ifs at hx
  · exact hv x hx
  · exact h s' x hx

/-- The jobs of a group and those left on the queue were on the queue, and the turns of the history
are those of the group. -/
theorem group_spec {P : Submitted → Prop} {w : Writer} {n : Nat} {first : Submitted}
    {queue : List Submitted} (h : ∀ q ∈ first :: queue, P q) :
    let g := nextGroup n first queue
    let r := w.applyGroup first.job (g.1.map (·.job))
    let us := turnsOf w.storage.kv ((first :: g.1).zip r.1)
    (∀ q ∈ g.2, P q) ∧ (∀ u ∈ us, u.Done ∧ P u.submitted) ∧
      Linked w.storage.kv us r.2.storage.kv := by
  intro g r us
  obtain ⟨hsplit, hkind⟩ := nextGroup_spec n first queue
  obtain ⟨ho, hrows⟩ := applyGroup_turns w first.job hkind
  obtain ⟨hdone, hlink⟩ := turnsOf_spec (first :: g.1) ho
  rw [← hsplit, ← cons_append] at h
  obtain ⟨hgroup, hrest⟩ := forall_mem_append.mp h
  exact ⟨hrest, fun u hu => ⟨(hdone u hu).1, hgroup _ (hdone u hu).2⟩,
    linked_congr hlink hrows.symm⟩

theorem System.Inv.step {w : Writer} {σ σ' : System} {a : Step} (h : σ.Inv lim w)
    (hs : σ.step lim a = some σ') : σ'.Inv lim w := by
  obtain ⟨s, ro, iso, -, rfl⟩ | ⟨s, op, x, -, hx, rfl⟩ | ⟨s, rfl⟩ | rfl |
    ⟨s, x, job, -, hx, hj, rfl⟩ | ⟨job, -, -, rfl⟩ | ⟨n, first, queue, -, hq, rfl⟩ :=
    step_cases hs
  · -- begin: the snapshot is the committed table, under a new id
    have hold : ∀ e ∈ σ.begun, e ∈ (σ.nextTxn, σ.writer.storage.kv) :: σ.begun :=
      fun e he => mem_cons_of_mem _ he
    refine { h with
      begun_committed := forall_mem_cons.mpr ⟨h.current, h.begun_committed⟩
      begun_lt := forall_mem_cons.mpr
        ⟨Nat.lt_succ_self _, fun e he => (h.begun_lt e he).trans (Nat.lt_succ_self _)⟩
      begun_unique := ?_
      sessions := forall_update (fun s x hx => (h.sessions s x hx).mono hold) s ?_
      ops := fun e he => ⟨(h.ops e he).1.mono hold, (h.ops e he).2⟩
      queued := fun q hq => (h.queued q hq).mono hold
      turned := fun u hu => ⟨(h.turned u hu).1, (h.turned u hu).2.mono hold⟩ }
    · intro e he e' he' hid
      rcases mem_cons.mp he with rfl | he <;> rcases mem_cons.mp he' with rfl | he'
      · rfl
      · exact absurd hid (h.begun_lt e' he').ne'
      · exact absurd hid (h.begun_lt e he).ne
      · exact h.begun_unique e he e' he' hid
    · rintro x ⟨⟩
      exact ⟨_, mem_cons_self, rfl, rfl⟩
  · -- a call: the script grows by it
    have hb := h.sessions s x hx
    refine { h with
      sessions := forall_update h.sessions s ?_
      ops := forall_mem_cons.mpr ⟨⟨hb, rfl⟩, h.ops⟩ }
    rintro y ⟨⟩
    exact hb.exec op
  · -- the transaction ends
    exact { h with sessions := forall_update h.sessions s nofun }
  · exact h
  · -- a commit is submitted
    refine { h with
      sessions := forall_update h.sessions s nofun
      queued := forall_mem_append.mpr ⟨h.queued, forall_mem_singleton.mpr ?_⟩ }
    rintro y ⟨⟩
    exact ⟨h.sessions s x hx, hj⟩
  · -- an autocommit write is submitted
    exact { h with queued := forall_mem_append.mpr ⟨h.queued, forall_mem_singleton.mpr nofun⟩ }
  · -- the writer commits a group
    obtain ⟨hqueued, hturned, hlinked⟩ := group_spec (hq ▸ h.queued)
    exact { h with
      current := mem_cons_self
      begun_committed := fun e he => mem_cons_of_mem _ (h.begun_committed e he)
      queued := hqueued
      turned := forall_mem_append.mpr ⟨h.turned, hturned⟩
      linked := linked_append h.linked hlinked }

/-! ## Snapshot isolation without lost updates -/

theorem System.inv_of_reach {w : Writer} {σ : System}
    (h : Reach (step lim) ScansSuffice (init w) σ) :
    σ.Inv lim w ∧ ∀ e ∈ σ.ops, ScanOk e.caller.state e.op := by
  refine h.invariant (I := fun σ => σ.Inv lim w ∧ ∀ e ∈ σ.ops, ScanOk e.caller.state e.op)
    ⟨System.Inv.init lim w, by simp [init]⟩ ?_
  intro σ σ' a hi hok hs
  refine ⟨hi.1.step hs, ?_⟩
  obtain ⟨s, ro, iso, -, rfl⟩ | ⟨s, op, x, ha, hx, rfl⟩ | ⟨s, rfl⟩ | rfl |
    ⟨s, x, job, -, -, -, rfl⟩ | ⟨job, -, -, rfl⟩ | ⟨n, first, queue, -, -, rfl⟩ :=
    step_cases hs
  · exact hi.2
  · exact forall_mem_cons.mpr ⟨hok s op x ha hx, hi.2⟩
  all_goals exact hi.2

/-- A turn of a transaction applies its whole buffer, and then every non-meta key it wrote was as
its snapshot had it, or it applies nothing. -/
theorem Turn.Done.txn {u : Turn} (h : u.Done) (hs : u.submitted.Of lim begun)
    (hx : u.submitted.txn = some x) :
    (outcome u.result = .success ∧ u.after = x.state.overlay.onto u.before ∧
      ∀ k, x.state.overlay.touches k = true → isMeta k = false →
        u.before.get k = x.state.snapshot.get k) ∨
    (outcome u.result ≠ .success ∧ u.after = u.before) := by
  obtain ⟨hafter, hres⟩ := h
  have hj := (hs x hx).2
  by_cases hok : outcome u.result = .success
  · obtain ⟨v, hv, -, hputs, hdeletes, -, -⟩ := commitJob_spec hj
    obtain ⟨hkeys, hranges⟩ := unchanged_of_turn hj (hres.trans hok)
    refine Or.inl ⟨hok, ?_, fun k ht hm => ?_⟩
    · rw [← hafter, (jobTurn_ok hv (hres.trans hok)).2.2, hputs, hdeletes]
      rfl
    · by_cases hc : x.state.rangeCovers k = true
      · exact hranges k hc
      · exact hkeys k (mem_keyset.mpr (Or.inl ⟨ht, hm, Bool.eq_false_iff.mpr hc⟩))
  · exact Or.inr ⟨hok, hafter.symm.trans (jobTurn_failed (fun he => hok (hres.symm.trans he)))⟩

/-- Snapshot isolation without lost updates, in every run whose scans inside transactions meet
the condition of `scan_exact_iff`.

* A call made inside a transaction sees one snapshot, fixed when the transaction began and a
  committed table, overlaid with what its own earlier calls buffered: every read returns the
  value this view has.
* The committed tables are linked by the turns of the jobs, and the turn of a transaction applies
  its whole buffer or nothing.
* When it applies the buffer, every non-meta key it wrote had, in the table of the group's write
  transaction just before, the value its snapshot held. -/
theorem snapshot_isolation {lim : Limits} {w : Writer} {σ : System}
    (h : Reach (step lim) ScansSuffice (init w) σ) :
    (∀ e ∈ σ.ops, ∃ snapshot, (e.caller.id, snapshot) ∈ σ.begun ∧ snapshot ∈ σ.committed ∧
      (∀ t, (e.caller.id, t) ∈ σ.begun → t = snapshot) ∧
      e.caller.state = (e.caller.beginOn snapshot).execAll lim.budget e.caller.calls ∧
      ∀ ans, e.op.ideal (e.caller.state.overlay.onto snapshot) = some ans → e.answer = ans) ∧
    Linked w.storage.kv σ.turns σ.writer.storage.kv ∧
    ∀ u ∈ σ.turns, ∀ x, u.submitted.txn = some x →
      (outcome u.result = .success ∧ u.after = x.state.overlay.onto u.before ∧
        ∀ k, x.state.overlay.touches k = true → isMeta k = false →
          u.before.get k = x.state.snapshot.get k) ∨
      (outcome u.result ≠ .success ∧ u.after = u.before) := by
  obtain ⟨hi, hscan⟩ := inv_of_reach h
  refine ⟨fun e he => ?_, hi.linked, fun u hu x hx => (hi.turned u hu).1.txn (hi.turned u hu).2 hx⟩
  obtain ⟨⟨snapshot, hm, hstate, -⟩, hans⟩ := hi.ops e he
  have hsnap : e.caller.state.snapshot = snapshot := by
    rw [hstate, execAll_snapshot]
    rfl
  refine ⟨snapshot, hm, hi.begun_committed _ hm,
    fun t ht => hi.begun_unique _ ht _ hm rfl, hstate, fun ans ha => ?_⟩
  rw [← hans]
  refine exec_ideal lim.budget (hscan e he) ?_
  rwa [view, hsnap]

/-- Three rows are committed, then a transaction deletes the first two and reads the table in
batches of two. -/
def scanAfterDeletes : List Step :=
  [.autocommit { puts := [([7, 1], [10]), ([7, 2], [20]), ([7, 3], [30])] },
   .group 0,
   .begin 0 false .snapshot,
   .op 0 (.commitWrite [] [[7, 1], [7, 2]]),
   .op 0 (.scanBatch [7] none 2)]

def Answer.rows? : Answer → Option (List (Bytes × Bytes))
  | .rows rs => some rs
  | _ => none

/-- The last call returns no rows, although the third row is visible. -/
theorem scan_breaks_isolation :
    ((run (System.step ⟨1000, 1000⟩) (System.init emptyWriter) scanAfterDeletes).bind
        fun σ => σ.ops.head?).map
      (fun e => (e.answer.rows?, (e.op.ideal e.caller.state.view).bind Answer.rows?)) =
    some (some [], some [([7, 3], [30])]) := by
  rfl

def oneCommit : List Step :=
  [.begin 0 false .snapshot, .op 0 (.commitWrite [([1], [2])] []), .op 0 (.get [1]), .commit 0,
   .group 0]

theorem snapshot_isolation_oneCommit :
    ∃ σ, run (System.step ⟨1000, 1000⟩) (System.init emptyWriter) oneCommit = some σ ∧
      Linked emptyWriter.storage.kv σ.turns σ.writer.storage.kv ∧
      ∀ u ∈ σ.turns, ∀ x, u.submitted.txn = some x →
        (outcome u.result = .success ∧ u.after = x.state.overlay.onto u.before ∧
          ∀ k, x.state.overlay.touches k = true → isMeta k = false →
            u.before.get k = x.state.snapshot.get k) ∨
        (outcome u.result ≠ .success ∧ u.after = u.before) := by
  obtain ⟨σ, hσ⟩ := Option.isSome_iff_exists.mp (show (run (System.step ⟨1000, 1000⟩)
    (System.init emptyWriter) oneCommit).isSome by decide +kernel)
  refine ⟨σ, hσ, (snapshot_isolation (Reach.of_run hσ (Along.of_forall ?_))).2⟩
  simp only [oneCommit, forall_mem_cons]
  refine ⟨?_, ?_, ?_, ?_, ?_, by simp⟩ <;> rintro σ s op x ⟨⟩ _ <;> trivial

end ElyraSql
