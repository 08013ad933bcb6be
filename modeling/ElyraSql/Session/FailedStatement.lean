import ElyraSql.Session.Isolation

/-!
# A statement that fails inside a transaction

An INSERT, UPDATE or DELETE reads, hands one batch to `commit_write`, and then runs the bodies of
the AFTER triggers it has fired. `execute_stmt` sets no checkpoint around the statement, so an error
that is found before the batch leaves the buffer as it was, and one that is found later does not.
What the statement has read and locked stays recorded in either case, and COMMIT validates it.
-/

namespace ElyraSql

open OrderedMap TxnState OMap List

/-! ## The size of the buffer -/

variable {k : Bytes}

namespace Overlay

/-- The bytes of the buffered puts and deletes. -/
def size (o : Overlay) : Nat :=
  o.puts.total (fun k v => k.length + v.length) + o.deletes.total fun k _ => k.length

/-- The two buffers agree on every other key. -/
structure SameBut (k : Bytes) (o o' : Overlay) : Prop where
  put : o'.puts.erase k = o.puts.erase k
  delete : o'.deletes.erase k = o.deletes.erase k

variable (o : Overlay)

theorem size_eq_weight (k : Bytes) :
    o.size = (o.puts.erase k).total (fun k v => k.length + v.length) +
      (o.deletes.erase k).total (fun k _ => k.length) + o.weight k := by
  have hweight : o.weight k = ((o.puts.get k).elim 0 fun v => k.length + v.length) +
      (o.deletes.get k).elim 0 fun _ => k.length := by
    unfold weight
    cases o.puts.get k <;> cases o.deletes.get k <;> rfl
  rw [size, total_eq_erase _ o.puts k, total_eq_erase _ o.deletes k]
  omega

/-- What a change of one key does to the size. -/
theorem SameBut.size_eq {o o' : Overlay} (h : SameBut k o o') :
    o'.size = o.size - o.weight k + o'.weight k := by
  rw [size_eq_weight o' k, size_eq_weight o k, h.put, h.delete]
  omega

theorem sameBut_put (k v : Bytes) : SameBut k o (o.put k v) := by
  constructor <;> refine ext_get fun j => ?_ <;> by_cases h : j = k <;> simp [put, h]

theorem sameBut_delete (k : Bytes) : SameBut k o (o.delete k) := by
  constructor <;> refine ext_get fun j => ?_ <;> by_cases h : j = k <;> simp [delete, h]

theorem sameBut_restore (e : UndoEntry) : SameBut e.key o (o.restore e) := by
  constructor
  · refine ext_get fun j => ?_
    cases hprev : e.prevPut <;> by_cases h : j = e.key <;> simp [restore, hprev, h]
  · refine ext_get fun j => ?_
    cases hprev : e.prevDeleted <;> by_cases h : j = e.key <;> simp [restore, hprev, h]

end Overlay

namespace TxnState

open Overlay

/-- The byte count is that of the buffer. -/
def Sized (tx : TxnState) : Prop := tx.mem = tx.overlay.size

theorem Sized.start (t : Table) (ro : Bool) (iso : Isolation) : (start t ro iso).Sized := rfl

variable {tx : TxnState}

variable (h : tx.Sized)
include h

theorem Sized.setOverlay {o : Overlay} (hsame : SameBut k tx.overlay o) :
    (tx.setOverlay k o).Sized := by
  rw [TxnState.setOverlay, h]
  exact hsame.size_eq.symm

/-- Every change is one of a single key. -/
def OneKeyEach (changes : List (Bytes × (Overlay → Overlay))) : Prop :=
  ∀ c ∈ changes, ∀ o, SameBut c.1 o (c.2 o)

omit h in
theorem oneKeyEach_bufferChanges (puts : List (Bytes × Bytes)) (deletes : List Bytes) :
    OneKeyEach (bufferChanges puts deletes) := by
  intro c hc o
  rcases mem_append.mp hc with hc | hc
  · obtain ⟨k, -, rfl⟩ := mem_map.mp hc
    exact sameBut_delete o k
  · obtain ⟨e, -, rfl⟩ := mem_map.mp hc
    exact sameBut_put o e.1 e.2

/-! ## Room for a batch -/

/-- Every change fits where it is made: with a live undo log its entry before the change, and the
changed buffer after it. -/
def Room (budget : Nat) (logging : Bool) :
    Overlay → Nat → List (Bytes × (Overlay → Overlay)) → Prop
  | _, _, [] => True
  | o, undoMem, (k, f) :: changes =>
    let undoMem := if logging then undoMem + (o.undoEntry k).size else undoMem
    (logging = true → o.size + undoMem ≤ budget) ∧ (f o).size + undoMem ≤ budget ∧
      Room budget logging (f o) undoMem changes

theorem Sized.changed {f : Overlay → Overlay}
    (hsame : SameBut k tx.overlay (f tx.overlay)) : (tx.changed k f).Sized :=
  have hlogged : (tx.logged k).Sized := h
  hlogged.setOverlay hsame

variable {changes : List (Bytes × (Overlay → Overlay))} {budget : Nat}

omit h in
/-- A batch is taken exactly when there is room for each change. -/
theorem mutateAll_ok_iff (hsized : tx.Sized) (hone : OneKeyEach changes) :
    (tx.mutateAll budget changes).1 = .ok () ↔
      Room budget tx.logging tx.overlay tx.undoMem changes := by
  induction changes generalizing tx with
  | nil => exact ⟨fun _ => trivial, fun _ => rfl⟩
  | cons c changes ih =>
    obtain ⟨k, f⟩ := c
    have hsame := hone (k, f) mem_cons_self tx.overlay
    have hchanged := hsized.changed hsame
    have hrest := ih hchanged fun c hc => hone c (mem_cons_of_mem _ hc)
    have hmem : (tx.changed k f).mem = (f tx.overlay).size := hchanged
    rw [mutateAll, mutate_eq]
    by_cases hlog : tx.logging = true ∧ budget < tx.mem + (tx.logged k).undoMem
    · rw [if_pos hlog]
      refine ⟨by rintro ⟨⟩, fun hroom => absurd (hroom.1 hlog.1) (not_le_of_gt ?_)⟩
      rw [← show tx.mem = tx.overlay.size from hsized]
      exact hlog.2
    · rw [if_neg hlog]
      have hbefore : tx.logging = true → tx.overlay.size + (tx.logged k).undoMem ≤ budget :=
        fun h => (show tx.mem = tx.overlay.size from hsized) ▸ not_lt.mp fun hlt => hlog ⟨h, hlt⟩
      by_cases hafter : budget < (tx.changed k f).mem + (tx.changed k f).undoMem
      · rw [if_pos hafter]
        refine ⟨by rintro ⟨⟩, fun hroom => absurd hroom.2.1 (not_le_of_gt ?_)⟩
        rw [← hmem]
        exact hafter
      · rw [if_neg hafter]
        refine hrest.trans ⟨fun h => ⟨hbefore, hmem ▸ not_lt.mp hafter, h⟩, fun h => h.2.2⟩

/-! ## The size through a transaction -/

theorem Sized.mutateAll (hone : OneKeyEach changes) : (tx.mutateAll budget changes).2.Sized :=
  mutateAll_keeps budget (fun c hc tx h => h.changed (hone c hc tx.overlay)) h

theorem Sized.popUndo : tx.popUndo.Sized := by
  unfold TxnState.popUndo
  split
  · exact h
  · exact h.setOverlay (sameBut_restore _ _)

theorem Sized.rollbackTxTo (mark len : Nat) : (tx.rollbackTxTo mark len).Sized := by
  suffices ∀ fuel tx, TxnState.Sized tx → (unwind mark fuel tx).Sized from this _ _ h
  intro fuel
  induction fuel with
  | zero => exact fun _ h => h
  | succ fuel ih =>
    intro tx h
    rw [unwind]
    split_ifs
    · exact ih _ h.popUndo
    · exact h

theorem Sized.dropUndo : tx.dropUndo.Sized := by
  unfold TxnState.dropUndo
  split_ifs <;> exact h

theorem Sized.congr {tx' : TxnState} (hbuffer : tx'.buffer = tx.buffer) : tx'.Sized := by
  have hmem : tx'.mem = tx.mem := congrArg (·.2.1) hbuffer
  rw [Sized, hmem, overlay_of_buffer hbuffer]
  exact h

theorem Sized.exec (budget : Nat) (op : TxnOp) : (tx.exec budget op).2.Sized := by
  cases op with
  | get k => exact h.congr (foldl_recordRead_buffer [k] tx)
  | multiGet ks => exact h.congr (foldl_recordRead_buffer ks tx)
  | scanRange start stop limit => exact h.congr (recordRange_buffer tx start stop)
  | scanBatch pfx after limit => exact h.congr (recordRange_buffer tx _ _)
  | commitWrite puts deletes => exact h.mutateAll (oneKeyEach_bufferChanges puts deletes)
  | lockKeys | savepoint | checkpoint | requireSerializable => exact h
  | rollbackTo name =>
    simp only [TxnState.exec, TxnState.rollbackTo]
    split
    · next pos sp _ _ =>
      have hrolled := h.rollbackTxTo sp.undoMark sp.rangesLen
      exact hrolled
    · exact h
  | releaseSavepoint name =>
    simp only [TxnState.exec, TxnState.releaseSavepoint]
    split
    · exact Sized.dropUndo (show Sized _ from h)
    · exact h
  | releaseCheckpoint =>
    simp only [TxnState.exec, TxnState.releaseTransactionCheckpoint]
    split
    · exact h
    · exact Sized.dropUndo (show Sized _ from h)
  | rollbackCheckpoint c =>
    simp only [TxnState.exec, TxnState.rollbackTransactionCheckpoint]
    split
    · exact h
    · next n _ =>
      have hcount : Sized { tx with checkpoints := n } := h
      have hrolled := hcount.rollbackTxTo c.undoMark c.rangesLen
      exact Sized.dropUndo (show Sized _ from hrolled)

theorem Sized.execAll (budget : Nat) (ops : List TxnOp) : (tx.execAll budget ops).Sized := by
  induction ops generalizing tx with
  | nil => exact h
  | cons op ops ih => exact ih (h.exec budget op)

omit h

/-- Without an undo log, a batch that is refused leaves the buffer over the budget. -/
theorem mutateAll_overflow (hquiet : tx.logging = false)
    (hfailed : (tx.mutateAll budget changes).1 ≠ .ok ()) :
    budget < (tx.mutateAll budget changes).2.mem + tx.undoMem := by
  induction changes generalizing tx with
  | nil => exact absurd rfl hfailed
  | cons c changes ih =>
    obtain ⟨k, f⟩ := c
    have hundo : (tx.changed k f).undoMem = tx.undoMem := by
      simp [changed, logged, setOverlay, hquiet]
    have hlog : (tx.changed k f).logging = false := hquiet
    rw [mutateAll, mutate_eq, if_neg (by simp [hquiet])] at hfailed ⊢
    by_cases hafter : budget < (tx.changed k f).mem + (tx.changed k f).undoMem
    · rw [if_pos hafter]
      exact hundo ▸ hafter
    · rw [if_neg hafter] at hfailed ⊢
      exact hundo ▸ ih hlog hfailed

end TxnState

/-! ## Statements -/

/-- What a statement does before it writes: calls that leave the buffer alone, each depending on the
answers so far, up to the batch it hands over or the error it ends with. -/
inductive Reading
  | done (batch : Except Error (List (Bytes × Bytes) × List Bytes))
  | call (op : TxnOp) (keeps : keepsBuffer op = true) (next : Answer → Reading)

def Reading.run (budget : Nat) : Reading → TxnState →
    Except Error (List (Bytes × Bytes) × List Bytes) × TxnState
  | .done batch, tx => (batch, tx)
  | .call op _ next, tx => (next (tx.exec budget op).1).run budget (tx.exec budget op).2

/-- An INSERT, UPDATE or DELETE, with the statements of the AFTER triggers it fires. -/
inductive Dml
  | mk (reading : Reading) (after : List Dml)

def Dml.reading : Dml → Reading
  | .mk reading _ => reading

def Dml.after : Dml → List Dml
  | .mk _ after => after

mutual

/-- `execute_stmt`: the statement itself, then `fire_triggers`. -/
def Dml.run (budget : Nat) : Dml → TxnState → Except Error Unit × TxnState
  | .mk reading after, tx =>
    match reading.run budget tx with
    | (.error e, tx) => (.error e, tx)
    | (.ok (puts, deletes), tx) =>
      match tx.commitWrite budget puts deletes with
      | (.error e, tx) => (.error e, tx)
      | (.ok (), tx) => fireTriggers budget after tx

/-- `fire_triggers`: up to the first body that fails. -/
def fireTriggers (budget : Nat) : List Dml → TxnState → Except Error Unit × TxnState
  | [], tx => (.ok (), tx)
  | x :: xs, tx =>
    match x.run budget tx with
    | (.error e, tx) => (.error e, tx)
    | (.ok (), tx) => fireTriggers budget xs tx

end

/-- The transaction shows what it showed, and COMMIT would write what it would have written, after
the same validation. -/
structure NoTrace (tx tx' : TxnState) : Prop where
  view : tx'.view = tx.view
  puts : tx'.overlay.puts = tx.overlay.puts
  deletes : tx'.overlay.deletes = tx.overlay.deletes
  commit : ∀ cap, tx'.commitJob cap = tx.commitJob cap

/-- If the statement fails, it leaves no trace. -/
def FailsClean (budget : Nat) (tx : TxnState) (x : Dml) : Prop :=
  (x.run budget tx).1 ≠ .ok () → NoTrace tx (x.run budget tx).2

/-- The call records nothing for COMMIT to validate: the transaction is not SERIALIZABLE, or the
key is read already or a bookkeeping key; and no row is locked. -/
def TxnOp.Silent (tx : TxnState) : TxnOp → Prop
  | .get k => tx.serializable = true → isMeta k = true ∨ k ∈ tx.reads.keys
  | .multiGet ks => tx.serializable = true → ∀ k ∈ ks, isMeta k = true ∨ k ∈ tx.reads.keys
  | .scanRange start _ _ => tx.serializable = true → isMeta start = true
  | .scanBatch pfx after _ => tx.serializable = true → isMeta (batchStart pfx after) = true
  | .lockKeys ks => ks = []
  | .requireSerializable => tx.serializable = true
  | _ => False

/-- Every call a statement makes before it writes is silent. -/
def Reading.Silent (budget : Nat) : Reading → TxnState → Prop
  | .done _, _ => True
  | .call op _ next, tx =>
    op.Silent tx ∧ (next (tx.exec budget op).1).Silent budget (tx.exec budget op).2

/-- The statement finds an error before it writes, having recorded nothing, or there is room for
its batch and no trigger fires after it. -/
def Settled (budget : Nat) (tx : TxnState) (x : Dml) : Prop :=
  match (x.reading.run budget tx).1 with
  | .error _ => x.reading.Silent budget tx
  | .ok (puts, deletes) =>
    TxnState.Room budget tx.logging tx.overlay tx.undoMem
      (bufferChanges puts deletes) ∧ x.after = []

section

variable {budget : Nat} {tx tx' : TxnState} {x : Dml}

theorem recordRead_silent (h : tx.serializable = true → isMeta k = true ∨ k ∈ tx.reads.keys) :
    tx.recordRead k = tx := by
  unfold recordRead
  split_ifs with hrecord
  · obtain ⟨hser, hmeta⟩ := Bool.and_eq_true_iff.mp hrecord
    have hread : k ∈ tx.reads.keys := (h hser).resolve_left (by simpa using hmeta)
    have hsame : tx.reads.insert k () = tx.reads := by
      obtain ⟨_, hget⟩ := Option.isSome_iff_exists.mp (KeySet.mem_keys.mp hread)
      refine ext_get fun j => ?_
      by_cases hj : j = k <;> simp [hj, hget]
    rw [hsame]
  · rfl

theorem recordRange_silent {start : Bytes} {stop : Option Bytes}
    (h : tx.serializable = true → isMeta start = true) : tx.recordRange start stop = tx := by
  unfold recordRange
  split_ifs with hrecord
  · obtain ⟨hser, hmeta⟩ := Bool.and_eq_true_iff.mp hrecord
    exact absurd (h hser) (by simpa using hmeta)
  · rfl

theorem TxnOp.Silent.exec {op : TxnOp} (h : op.Silent tx) : (tx.exec budget op).2 = tx := by
  cases op with
  | get k => exact recordRead_silent h
  | multiGet ks =>
    change ks.foldl recordRead tx = tx
    induction ks with
    | nil => rfl
    | cons k ks ih =>
      rw [foldl_cons, recordRead_silent fun hser => h hser k mem_cons_self]
      exact ih fun hser j hj => h hser j (mem_cons_of_mem _ hj)
  | scanRange | scanBatch => exact recordRange_silent h
  | lockKeys ks =>
    obtain rfl : ks = [] := h
    rfl
  | requireSerializable =>
    cases tx
    obtain rfl : _ = true := h
    rfl
  | _ => exact h.elim

/-- A reading part that records nothing leaves the transaction as it was. -/
theorem Reading.Silent.run {p : Reading} (h : p.Silent budget tx) : (p.run budget tx).2 = tx := by
  induction p generalizing tx with
  | done batch => rfl
  | call op keeps next ih => exact (ih _ h.2).trans h.1.exec

theorem Reading.run_buffer (budget : Nat) (p : Reading) (tx : TxnState) :
    (p.run budget tx).2.buffer = tx.buffer := by
  induction p generalizing tx with
  | done batch => rfl
  | call op keeps next ih => exact (ih _ _).trans (exec_buffer keeps budget tx)

theorem run_of_error {e : Error} (h : (x.reading.run budget tx).1 = .error e) :
    x.run budget tx = (.error e, (x.reading.run budget tx).2) := by
  obtain ⟨reading, after⟩ := x
  rcases hrun : reading.run budget tx with ⟨r, tx'⟩
  simp only [Dml.reading, hrun] at h ⊢
  rw [Dml.run, hrun, h]

theorem run_of_batch {puts : List (Bytes × Bytes)} {deletes : List Bytes}
    (h : (x.reading.run budget tx).1 = .ok (puts, deletes)) (hafter : x.after = []) :
    x.run budget tx = (x.reading.run budget tx).2.commitWrite budget puts deletes := by
  obtain ⟨reading, after⟩ := x
  obtain rfl : after = [] := hafter
  rcases hrun : reading.run budget tx with ⟨r, tx'⟩
  simp only [Dml.reading, hrun] at h ⊢
  rw [Dml.run, hrun, h]
  dsimp only
  rcases tx'.commitWrite budget puts deletes with ⟨r, tx''⟩
  cases r <;> rfl

/-- There is room for the batch exactly when `commit_write` takes it. -/
theorem commitWrite_ok_iff (p : Reading) (hsized : tx.Sized) (puts : List (Bytes × Bytes))
    (deletes : List Bytes) :
    ((p.run budget tx).2.commitWrite budget puts deletes).1 = .ok () ↔
      TxnState.Room budget tx.logging tx.overlay tx.undoMem (bufferChanges puts deletes) := by
  have hbuffer := p.run_buffer budget tx
  have hundo : (p.run budget tx).2.undoMem = tx.undoMem := congrArg (·.2.2.1) hbuffer
  rw [← logging_of_buffer hbuffer, ← overlay_of_buffer hbuffer, ← hundo]
  exact mutateAll_ok_iff (hsized.congr hbuffer)
    (oneKeyEach_bufferChanges puts deletes)

theorem Settled.failsClean (hsized : tx.Sized) (h : Settled budget tx x) :
    FailsClean budget tx x := by
  intro hfailed
  unfold Settled at h
  split at h
  case h_1 e herror =>
    rw [run_of_error herror, h.run]
    exact ⟨rfl, rfl, rfl, fun _ => rfl⟩
  case h_2 puts deletes hbatch =>
    rw [run_of_batch hbatch h.2] at hfailed
    exact absurd ((commitWrite_ok_iff x.reading hsized puts deletes).mpr h.1) hfailed

/-- A batch that does not fit leaves the buffer larger than it was, if that was within the budget.
-/
theorem FailsClean.settled (hsized : tx.Sized) (hquiet : tx.logging = false)
    (hbudget : tx.mem + tx.undoMem ≤ budget) (hafter : x.after = [])
    (hsilent : x.reading.Silent budget tx) (h : FailsClean budget tx x) :
    Settled budget tx x := by
  unfold Settled
  split
  case h_1 => exact hsilent
  case h_2 puts deletes hbatch =>
    refine ⟨(commitWrite_ok_iff x.reading hsized puts deletes).mp ?_, hafter⟩
    by_contra hfailed
    have hbuffer := x.reading.run_buffer budget tx
    have hclean := h (by rw [run_of_batch hbatch hafter]; exact hfailed)
    rw [run_of_batch hbatch hafter] at hclean
    have hover := mutateAll_overflow
      ((logging_of_buffer hbuffer).trans hquiet) hfailed
    have hsize : ((x.reading.run budget tx).2.commitWrite budget puts deletes).2.mem =
        tx.mem := by
      have hafterSized :
          ((x.reading.run budget tx).2.commitWrite budget puts deletes).2.Sized :=
        (hsized.congr hbuffer).mutateAll (oneKeyEach_bufferChanges puts deletes)
      refine hafterSized.trans ?_
      rw [show tx.mem = tx.overlay.size from hsized]
      exact congrArg₂ (fun (p : OMap Bytes Bytes) (d : KeySet) =>
        p.total (fun k v => k.length + v.length) + d.total fun k _ => k.length)
        hclean.puts hclean.deletes
    have hundo : (x.reading.run budget tx).2.undoMem = tx.undoMem := congrArg (·.2.2.1) hbuffer
    have hmem : budget < ((x.reading.run budget tx).2.commitWrite budget puts deletes).2.mem +
      (x.reading.run budget tx).2.undoMem := hover
    omega

end

/-- A statement that writes the given batch. -/
def writes (puts : List (Bytes × Bytes)) (after : List Dml) : Dml :=
  .mk (.done (.ok (puts, []))) after

/-- A statement that looks a key up and ends with an error. -/
def refused : Dml := .mk (.call (.get [1]) rfl fun _ => .done (.error duplicateEntry)) []

end ElyraSql
