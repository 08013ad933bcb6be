import ElyraSql.Session.System

/-!
# What a statement leaves in the buffer

`commit_write` inside a transaction buffers its deletes and then its puts one key at a time and
stops at the first that does not fit. Whatever it answers, the buffer is the old one with the first
few of the changes made.
-/

namespace ElyraSql

open OrderedMap List OMap Overlay

/-! ## Changes -/

/-- The changes of `commit_write`, in order. -/
def bufferChanges (puts : List (Bytes × Bytes)) (deletes : List Bytes) :
    List (Bytes × (Overlay → Overlay)) :=
  deletes.map (fun k => (k, fun o => o.delete k)) ++ puts.map fun e => (e.1, fun o => o.put e.1 e.2)

variable (o : Overlay) {k : Bytes}

namespace Overlay

/-- Some changes made one after another. -/
def change (o : Overlay) (changes : List (Bytes × (Overlay → Overlay))) : Overlay :=
  changes.foldl (fun o c => c.2 o) o

theorem change_append (cs cs' : List (Bytes × (Overlay → Overlay))) :
    o.change (cs ++ cs') = (o.change cs).change cs' := foldl_append

theorem lookup_put (k v j : Bytes) :
    (o.put k v).lookup j = if j = k then some (some v) else o.lookup j := by
  unfold lookup put
  by_cases h : j = k <;> simp [h]

theorem lookup_delete (k j : Bytes) :
    (o.delete k).lookup j = if j = k then some none else o.lookup j := by
  unfold lookup delete
  by_cases h : j = k <;> simp [h]

theorem lookup_change_puts (puts : List (Bytes × Bytes)) (k : Bytes) :
    (o.change (puts.map fun e => (e.1, fun o => o.put e.1 e.2))).lookup k =
      ((lastValue puts k).map some).or (o.lookup k) := by
  induction puts generalizing o with
  | nil => rfl
  | cons e puts ih =>
    have hstep : o.change ((e :: puts).map fun e => (e.1, fun o => o.put e.1 e.2)) =
        (o.put e.1 e.2).change (puts.map fun e => (e.1, fun o => o.put e.1 e.2)) := rfl
    rw [hstep, ih, lookup_put, lastValue_cons]
    cases lastValue puts k with
    | some v => rfl
    | none => by_cases h : k = e.1 <;> simp [h, eq_comm]

theorem lookup_change_deletes (deletes : List Bytes) (h : k ∉ deletes) :
    (o.change (deletes.map fun k => (k, fun o => o.delete k))).lookup k = o.lookup k := by
  induction deletes generalizing o with
  | nil => rfl
  | cons j deletes ih =>
    obtain ⟨hj, hrest⟩ := not_or.mp (mt mem_cons.mpr h)
    have hstep : o.change ((j :: deletes).map fun k => (k, fun o => o.delete k)) =
        (o.delete j).change (deletes.map fun k => (k, fun o => o.delete k)) := rfl
    rw [hstep, ih _ hrest, lookup_delete, if_neg hj]

/-- A key that is not deleted is what the last put made so far says. -/
theorem lookup_change_take (puts : List (Bytes × Bytes)) (deletes : List Bytes) (n : Nat)
    (h : k ∉ deletes) :
    (o.change ((bufferChanges puts deletes).take n)).lookup k =
      ((lastValue (puts.take (n - deletes.length)) k).map some).or (o.lookup k) := by
  rw [bufferChanges, take_append, change_append, length_map, ← map_take, ← map_take,
    lookup_change_puts, lookup_change_deletes o (deletes.take n) fun hk => h (mem_of_mem_take hk)]

end Overlay

/-! ## A statement's writes -/

namespace TxnState

/-- The part of a transaction that buffering a write looks at. -/
def buffer (tx : TxnState) : Overlay × Nat × Nat × List Savepoint × Nat :=
  (tx.overlay, tx.mem, tx.undoMem, tx.savepoints, tx.checkpoints)

/-- The keys recorded as read, after some more reads. -/
def readsAfter (serializable : Bool) (reads : KeySet) (ks : List Bytes) : KeySet :=
  ks.foldl (fun reads k => if serializable && !isMeta k then reads.insert k () else reads) reads

theorem foldl_recordRead_eq (ks : List Bytes) (tx : TxnState) :
    ks.foldl recordRead tx = { tx with reads := readsAfter tx.serializable tx.reads ks } := by
  induction ks generalizing tx with
  | nil => rfl
  | cons k ks ih =>
    rw [foldl_cons, ih, recordRead, readsAfter, readsAfter, foldl_cons]
    split <;> rfl

theorem foldl_recordRead_buffer (ks : List Bytes) (tx : TxnState) :
    (ks.foldl recordRead tx).buffer = tx.buffer := by
  rw [foldl_recordRead_eq]
  rfl

theorem recordRange_buffer (tx : TxnState) (start : Bytes) (stop : Option Bytes) :
    (tx.recordRange start stop).buffer = tx.buffer := by
  unfold recordRange
  split_ifs <;> rfl

variable {tx : TxnState}
variable {tx' : TxnState} (budget : Nat)

theorem overlay_of_buffer (h : tx'.buffer = tx.buffer) :
    tx'.overlay = tx.overlay := congrArg Prod.fst h

theorem logging_of_buffer (h : tx'.buffer = tx.buffer) : tx'.logging = tx.logging := by
  have hsavepoints : tx'.savepoints = tx.savepoints := congrArg (·.2.2.2.1) h
  have hcheckpoints : tx'.checkpoints = tx.checkpoints := congrArg (·.2.2.2.2) h
  rw [logging, logging, hsavepoints, hcheckpoints]

/-- The transaction with the undo entry of a change pushed, if the log is live. -/
def logged (tx : TxnState) (k : Bytes) : TxnState :=
  { tx with
    undo := if tx.logging then tx.overlay.undoEntry k :: tx.undo else tx.undo
    undoMem := if tx.logging then tx.undoMem + (tx.overlay.undoEntry k).size else tx.undoMem }

def changed (tx : TxnState) (k : Bytes) (f : Overlay → Overlay) : TxnState :=
  (tx.logged k).setOverlay k (f tx.overlay)

theorem mutate_eq (k : Bytes) (f : Overlay → Overlay) (tx : TxnState) :
    tx.mutate budget k f =
      if tx.logging = true ∧ budget < tx.mem + (tx.logged k).undoMem then
        (.error (txnOverflow budget), tx)
      else if budget < (tx.changed k f).mem + (tx.changed k f).undoMem then
        (.error (txnOverflow budget), tx.changed k f)
      else (.ok (), tx.changed k f) := by
  cases hlog : tx.logging with
  | false =>
    have hlogged : tx.logged k = tx := by simp [logged, hlog]
    simp [mutate, logUndo, hlog, changed, hlogged]
  | true =>
    by_cases hroom : budget < tx.mem + tx.undoMem + (tx.overlay.undoEntry k).size
    · simp [mutate, logUndo, hlog, logged, hroom, ← Nat.add_assoc]
    · simp [mutate, logUndo, hlog, logged, changed, hroom, ← Nat.add_assoc]

theorem mutate_overlay (k : Bytes) (f : Overlay → Overlay) (tx : TxnState) :
    (tx.mutate budget k f).2.overlay = f tx.overlay ∨
      ((tx.mutate budget k f).2.overlay = tx.overlay ∧
        ∃ e, (tx.mutate budget k f).1 = .error e) := by
  rw [mutate_eq]
  split_ifs
  · exact .inr ⟨rfl, _, rfl⟩
  · exact .inl rfl
  · exact .inl rfl

/-- What every change keeps, a list of changes keeps, also when it stops on the way. -/
theorem mutateAll_keeps {P : TxnState → Prop} {changes : List (Bytes × (Overlay → Overlay))}
    (hchanged : ∀ c ∈ changes, ∀ tx, P tx → P (tx.changed c.1 c.2)) {tx : TxnState} (h : P tx) :
    P (tx.mutateAll budget changes).2 := by
  induction changes generalizing tx with
  | nil => exact h
  | cons c changes ih =>
    have hstep := hchanged c mem_cons_self tx h
    rw [mutateAll, mutate_eq]
    split_ifs
    · exact h
    · exact hstep
    · exact ih (fun c hc => hchanged c (mem_cons_of_mem _ hc)) hstep

/-- The changes are made up to some point, and to the end if nothing fails. -/
theorem mutateAll_overlay (changes : List (Bytes × (Overlay → Overlay))) (tx : TxnState) :
    ∃ n, (tx.mutateAll budget changes).2.overlay = tx.overlay.change (changes.take n) ∧
      ((tx.mutateAll budget changes).1 = .ok () → n = changes.length) := by
  induction changes generalizing tx with
  | nil => exact ⟨0, rfl, fun _ => rfl⟩
  | cons c changes ih =>
    obtain ⟨k, f⟩ := c
    rw [mutateAll]
    cases hresult : (tx.mutate budget k f).1 with
    | error e =>
      rcases mutate_overlay budget k f tx with hf | ⟨hsame, -⟩
      · exact ⟨1, hf, nofun⟩
      · exact ⟨0, hsame, nofun⟩
    | ok u =>
      have hf : (tx.mutate budget k f).2.overlay = f tx.overlay := by
        refine (mutate_overlay budget k f tx).resolve_right ?_
        rintro ⟨-, e, he⟩
        exact nomatch hresult.symm.trans he
      obtain ⟨n, hn, hok⟩ := ih (tx.mutate budget k f).2
      refine ⟨n + 1, hn.trans ?_, fun h => congrArg (· + 1) (hok h)⟩
      rw [hf]
      rfl

/-- What `commit_write` leaves: the first puts, all of them if it succeeds. -/
theorem commitWrite_lookup (tx : TxnState) (budget : Nat) (puts : List (Bytes × Bytes))
    (deletes : List Bytes) :
    ∃ n, (∀ k ∉ deletes, (tx.commitWrite budget puts deletes).2.overlay.lookup k =
        ((lastValue (puts.take n) k).map some).or (tx.overlay.lookup k)) ∧
      ((tx.commitWrite budget puts deletes).1 = .ok () → puts.take n = puts) := by
  obtain ⟨n, hn, hok⟩ := mutateAll_overlay budget (bufferChanges puts deletes) tx
  refine ⟨n - deletes.length, fun k hk => ?_, fun h => ?_⟩
  · rw [← lookup_change_take _ puts deletes n hk]
    exact congrArg (lookup · k) hn
  · have hlen : n = deletes.length + puts.length := by
      rw [hok h, bufferChanges, length_append, length_map, length_map]
    exact take_of_length_le (by omega)

/-! ## Calls that write nothing -/

/-- The call leaves the buffer as it is. -/
def keepsBuffer : TxnOp → Bool
  | .get _ | .multiGet _ | .scanRange .. | .scanBatch ..
  | .lockKeys _ | .requireSerializable => true
  | .commitWrite .. | .savepoint _ | .rollbackTo _ | .releaseSavepoint _ | .checkpoint
  | .releaseCheckpoint | .rollbackCheckpoint _ => false

theorem exec_buffer {op : TxnOp} (h : keepsBuffer op = true) (budget : Nat) (tx : TxnState) :
    (tx.exec budget op).2.buffer = tx.buffer := by
  cases op with
  | get k => exact foldl_recordRead_buffer [k] tx
  | multiGet ks => exact foldl_recordRead_buffer ks tx
  | scanRange start stop limit => exact recordRange_buffer tx start stop
  | scanBatch pfx after limit => exact recordRange_buffer tx _ _
  | lockKeys | requireSerializable => rfl
  | commitWrite | savepoint | rollbackTo | releaseSavepoint | checkpoint | releaseCheckpoint
  | rollbackCheckpoint => exact nomatch h

/-! ## Room in the buffer -/

/-- Without a savepoint or a checkpoint, a batch of this size fits: the bytes of its keys and values
are within what is left of the budget. -/
@[mk_iff] structure Fits (tx : TxnState) (budget : Nat) (puts : List (Bytes × Bytes))
    (deletes : List Bytes) :
    Prop where
  quiet : tx.logging = false
  room : tx.mem + tx.undoMem + (deletes.map length).sum +
    (puts.map fun e => e.1.length + e.2.length).sum ≤ budget

instance (tx : TxnState) (budget : Nat) (puts : List (Bytes × Bytes)) (deletes : List Bytes) :
    Decidable (Fits tx budget puts deletes) :=
  decidable_of_iff' _ (fits_iff ..)

variable {budget : Nat} {puts : List (Bytes × Bytes)} {deletes : List Bytes}

theorem Fits.congr (h : Fits tx budget puts deletes) (hbuffer : tx'.buffer = tx.buffer) :
    Fits tx' budget puts deletes := by
  have hmem : tx'.mem = tx.mem := congrArg (·.2.1) hbuffer
  have hundo : tx'.undoMem = tx.undoMem := congrArg (·.2.2.1) hbuffer
  exact ⟨(logging_of_buffer hbuffer).trans h.quiet, hmem ▸ hundo ▸ h.room⟩

theorem weight_delete (k : Bytes) : (o.delete k).weight k = k.length := by
  simp [weight, delete]

theorem weight_put (k v : Bytes) : (o.put k v).weight k = k.length + v.length := by
  simp [weight, put]

theorem mutate_ok {f : Overlay → Overlay} (hquiet : tx.logging = false)
    (hroom : tx.mem + tx.undoMem + (f tx.overlay).weight k ≤ budget) :
    tx.mutate budget k f = (.ok (), tx.setOverlay k (f tx.overlay)) := by
  have hlogged : tx.logged k = tx := by simp [logged, hquiet]
  rw [mutate_eq, changed, hlogged, if_neg (by rw [hquiet]; exact fun h => nomatch h.1), if_neg]
  simp only [setOverlay]
  omega

/-- Changes whose sizes add up to no more than what is left are all made. -/
theorem mutateAll_ok (sizes : List Nat) (changes : List (Bytes × (Overlay → Overlay)))
    (tx : TxnState) (hquiet : tx.logging = false)
    (hsizes : List.Forall₂ (fun c n => ∀ o : Overlay, (c.2 o).weight c.1 = n) changes sizes)
    (hroom : tx.mem + tx.undoMem + sizes.sum ≤ budget) :
    (tx.mutateAll budget changes).1 = .ok () := by
  induction hsizes generalizing tx with
  | nil => rfl
  | @cons c n changes sizes hn _ ih =>
    obtain ⟨k, f⟩ := c
    rw [sum_cons] at hroom
    have hstep : tx.mutate budget k f = (.ok (), tx.setOverlay k (f tx.overlay)) :=
      mutate_ok hquiet (by rw [hn]; omega)
    rw [mutateAll, hstep]
    refine ih _ hquiet ?_
    simp only [setOverlay]
    rw [hn]
    omega

theorem Fits.commitWrite_ok (h : Fits tx budget puts deletes) :
    (tx.commitWrite budget puts deletes).1 = .ok () := by
  refine mutateAll_ok (deletes.map length ++ puts.map fun e => e.1.length + e.2.length) _ tx
    h.quiet ?_ ?_
  · refine rel_append ?_ ?_
    · exact forall₂_map_left_iff.mpr (forall₂_map_right_iff.mpr
        (forall₂_same.mpr fun k _ o => weight_delete o k))
    · exact forall₂_map_left_iff.mpr (forall₂_map_right_iff.mpr
        (forall₂_same.mpr fun e _ o => weight_put o e.1 e.2))
  · rw [sum_append]
    have := h.room
    omega

end TxnState

end ElyraSql
