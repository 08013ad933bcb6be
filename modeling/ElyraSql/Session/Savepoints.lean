import ElyraSql.Session.FailedStatement

/-!
# Rolling back to a savepoint

A savepoint is a place in the undo log. `rollback_tx_to` takes the entries above it back, the newest
first, and adjusts both byte counts entry by entry. Taking back an entry undoes the change that
pushed it, so every savepoint keeps the buffer of the moment it was set within reach.
-/

namespace ElyraSql

open OrderedMap List Function Nat

namespace Overlay

variable {k : Bytes} {o o' : Overlay}

theorem weight_le_size (o : Overlay) (k : Bytes) : o.weight k ≤ o.size := by
  rw [size_eq_weight o k]
  exact le_add_left _ _

/-- The undo entry of a change takes the change back. -/
theorem SameBut.restore (h : SameBut k o o') : o'.restore (o.undoEntry k) = o := by
  have hputs : (o'.restore (o.undoEntry k)).puts = o.puts := by
    refine OMap.ext_get fun j => ?_
    have hother := congrArg (OMap.get · j) h.put
    by_cases hj : j = k <;> cases hk : o.puts.get k <;>
      simp_all [Overlay.restore, undoEntry]
  have hdeletes : (o'.restore (o.undoEntry k)).deletes = o.deletes := by
    refine OMap.ext_get fun j => ?_
    have hother := congrArg (OMap.get · j) h.delete
    by_cases hj : j = k <;> cases hk : o.deletes.get k <;>
      simp_all [Overlay.restore, undoEntry]
  rw [Overlay.mk.injEq]
  exact ⟨hputs, hdeletes⟩

end Overlay

namespace TxnState

open Overlay

/-! ## The accounts -/

/-- Both byte counts are those of what is held. -/
structure Accounted (tx : TxnState) : Prop where
  sized : tx.Sized
  undo : tx.undoMem = (tx.undo.map UndoEntry.size).sum

namespace Accounted

variable {tx : TxnState} (h : tx.Accounted)
include h

theorem weight_le (k : Bytes) : tx.overlay.weight k ≤ tx.mem := by
  rw [show tx.mem = tx.overlay.size from h.sized]
  exact weight_le_size _ k

theorem entry_le {e : UndoEntry} (he : e ∈ tx.undo) : e.size ≤ tx.undoMem := by
  rw [h.undo]
  exact single_le_sum (fun _ _ => zero_le _) _ (mem_map_of_mem he)

theorem changed {k : Bytes} {f : Overlay → Overlay}
    (hsame : SameBut k tx.overlay (f tx.overlay)) : (tx.changed k f).Accounted := by
  refine ⟨h.sized.changed hsame, ?_⟩
  show (tx.logged k).undoMem = ((tx.logged k).undo.map UndoEntry.size).sum
  unfold logged
  split_ifs
  · rw [map_cons, sum_cons, ← h.undo, add_comm]
  · exact h.undo

theorem popUndo : tx.popUndo.Accounted := by
  refine ⟨h.sized.popUndo, ?_⟩
  have hundo := h.undo
  unfold TxnState.popUndo
  split
  · exact hundo
  · next e undo htx =>
    rw [htx, map_cons, sum_cons] at hundo
    rw [hundo, Nat.add_sub_cancel_left]

theorem iterate_popUndo (n : Nat) : (TxnState.popUndo^[n] tx).Accounted := by
  induction n generalizing tx with
  | zero => exact h
  | succ n ih => exact ih h.popUndo

end Accounted

/-! ## Taking entries back -/

section

variable (tx : TxnState)

/-- The loop of `rollback_tx_to` takes back as many entries as there are above the mark. -/
theorem unwind_eq (mark : Nat) {fuel : Nat} (hfuel : tx.undo.length - mark ≤ fuel) :
    unwind mark fuel tx = popUndo^[tx.undo.length - mark] tx := by
  induction fuel generalizing tx with
  | zero => rw [le_zero.mp hfuel]; rfl
  | succ fuel ih =>
    unfold unwind
    split_ifs with hmark
    · have hpop : tx.popUndo.undo.length = tx.undo.length - 1 := by
        unfold popUndo
        split <;> simp_all
      have hcount : tx.undo.length - mark = (tx.popUndo.undo.length - mark) + 1 := by omega
      rw [hcount]
      exact ih _ (by omega)
    · rw [Nat.sub_eq_zero_of_le (not_lt.mp hmark)]
      rfl

theorem iterate_popUndo (n : Nat) :
    (popUndo^[n] tx).undo = tx.undo.drop n ∧
      (popUndo^[n] tx).overlay = (tx.undo.take n).foldl restore tx.overlay ∧
      (popUndo^[n] tx).savepoints = tx.savepoints := by
  induction n generalizing tx with
  | zero => exact ⟨rfl, rfl, rfl⟩
  | succ n ih =>
    obtain ⟨hundo, hoverlay, hsavepoints⟩ := ih tx.popUndo
    rw [iterate_succ_apply, hundo, hoverlay, hsavepoints]
    unfold popUndo
    split
    · next htx => simp [htx]
    · next htx => simp [htx, setOverlay]

end

/-! ## Savepoints -/

/-- The buffer when the entries above a mark are taken back. -/
def rewound (tx : TxnState) (mark : Nat) : Overlay :=
  (tx.undo.take (tx.undo.length - mark)).foldl restore tx.overlay

end TxnState

/-- What a session does with the buffer of its transaction. -/
inductive SavepointOp
  | write (puts : List (Bytes × Bytes)) (deletes : List Bytes)
  | set (name : String)
  | release (name : String)
  | rollbackTo (name : String)

def SavepointOp.call : SavepointOp → TxnOp
  | .write puts deletes => .commitWrite puts deletes
  | .set name => .savepoint name
  | .release name => .releaseSavepoint name
  | .rollbackTo name => .rollbackTo name

/-- A transaction, with the buffer of the moment each savepoint was last set. -/
structure Marked where
  tx : TxnState
  buffers : String → Overlay

namespace Marked

open TxnState Overlay

def step (budget : Nat) (m : Marked) (op : SavepointOp) : Marked where
  tx := (m.tx.exec budget op.call).2
  buffers := match op with
    | .set name => Function.update m.buffers name m.tx.overlay
    | _ => m.buffers

/-- The accounts are right, and the undo log leads from the buffer back to that of every
savepoint. -/
structure Kept (m : Marked) : Prop where
  accounted : m.tx.Accounted
  ordered : m.tx.savepoints.Pairwise (·.undoMark ≤ ·.undoMark)
  reached : ∀ sp ∈ m.tx.savepoints,
    sp.undoMark ≤ m.tx.undo.length ∧ m.tx.rewound sp.undoMark = m.buffers sp.name

variable {m : Marked} (budget : Nat)

theorem Kept.changed (h : m.Kept) {k : Bytes} {f : Overlay → Overlay}
    (hsame : SameBut k m.tx.overlay (f m.tx.overlay)) : Kept { m with tx := m.tx.changed k f } := by
  refine ⟨h.accounted.changed hsame, h.ordered, fun sp hsp => ?_⟩
  obtain ⟨hmark, hbuffer⟩ := h.reached sp hsp
  have hlogging : m.tx.logging = true := by
    have hsavepoints : m.tx.savepoints ≠ [] := ne_nil_of_mem hsp
    simp [logging, hsavepoints]
  have hundo : (m.tx.changed k f).undo = m.tx.overlay.undoEntry k :: m.tx.undo := if_pos hlogging
  refine ⟨hmark.trans (by rw [hundo]; exact le_succ _), ?_⟩
  -- the entry on top is that of this change
  rw [← hbuffer, rewound, hundo, length_cons, succ_sub hmark, take_succ_cons]
  show foldl restore ((f m.tx.overlay).restore _) _ = _
  rw [hsame.restore]
  rfl

theorem Kept.set (h : m.Kept) (name : String) : (m.step budget (.set name)).Kept := by
  refine ⟨⟨h.accounted.sized, h.accounted.undo⟩, ?_, ?_⟩
  · refine pairwise_append.mpr ⟨h.ordered.filter _, pairwise_singleton _ _, ?_⟩
    rintro sp hsp sp' hsp'
    rw [eq_of_mem_singleton hsp']
    exact (h.reached sp (mem_of_mem_filter hsp)).1
  · intro sp hsp
    rcases mem_append.mp hsp with hsp | hsp
    · obtain ⟨hsp, hname⟩ := mem_filter.mp hsp
      have hbuffers : (m.step budget (.set name)).buffers sp.name = m.buffers sp.name :=
        update_of_ne (of_decide_eq_true hname) _ _
      rw [hbuffers]
      exact h.reached sp hsp
    · rw [eq_of_mem_singleton hsp]
      refine ⟨le_rfl, Eq.trans ?_ (update_self name m.tx.overlay m.buffers).symm⟩
      show foldl restore m.tx.overlay (m.tx.undo.take (m.tx.undo.length - m.tx.undo.length)) = _
      rw [Nat.sub_self]
      rfl

theorem Kept.release (h : m.Kept) (name : String) : (m.step budget (.release name)).Kept := by
  unfold step
  simp only [SavepointOp.call, exec, releaseSavepoint]
  split
  · next pos _ =>
    have hsub := take_sublist pos m.tx.savepoints
    unfold dropUndo
    split_ifs with hempty
    · -- nothing is left to roll back to
      have hnil : m.tx.savepoints.take pos = [] := by simp_all
      refine ⟨⟨h.accounted.sized, rfl⟩, h.ordered.sublist hsub, fun sp hsp => ?_⟩
      exact absurd hsp (by simp [hnil])
    · exact ⟨⟨h.accounted.sized, h.accounted.undo⟩, h.ordered.sublist hsub,
        fun sp hsp => h.reached sp (hsub.subset hsp)⟩
  · exact h

/-- The savepoints up to the one found lie no higher in the undo log. -/
theorem mark_le_of_mem_take {sps : List Savepoint} {p : Savepoint → Bool} {pos : Nat}
    {sp sp' : Savepoint} (hordered : sps.Pairwise (·.undoMark ≤ ·.undoMark))
    (hpos : sps.findIdx? p = some pos) (hsp : sps.find? p = some sp)
    (hsp' : sp' ∈ sps.take (pos + 1)) : sp'.undoMark ≤ sp.undoMark := by
  obtain ⟨hp, before, after, rfl, hbefore⟩ := find?_eq_some_iff_append.mp hsp
  have hlength : pos = before.length := by
    have hnone : before.findIdx? p = none := by simpa [findIdx?_eq_none_iff] using hbefore
    simpa [hnone, findIdx?_cons, hp] using hpos.symm
  rw [hlength, take_length_add_append] at hsp'
  rcases mem_append.mp hsp' with hsp' | hsp'
  · exact (pairwise_append.mp hordered).2.2 sp' hsp' sp mem_cons_self
  · rw [eq_of_mem_singleton hsp']

theorem Kept.rollbackTo (h : m.Kept) (name : String) :
    (m.step budget (.rollbackTo name)).Kept ∧ ((m.tx.rollbackTo name).1 = .ok () →
      (m.tx.rollbackTo name).2.overlay = m.buffers name) := by
  unfold step
  simp only [SavepointOp.call, exec, TxnState.rollbackTo]
  split
  · next pos sp hpos hsp =>
    obtain ⟨hmark, hbuffer⟩ := h.reached sp (mem_of_find?_eq_some hsp)
    have hname : sp.name = name := by simpa using find?_some hsp
    have hrolled := m.tx.unwind_eq sp.undoMark (Nat.sub_le _ _)
    unfold rollbackTxTo
    set n := m.tx.undo.length - sp.undoMark with hn
    obtain ⟨hundo, hoverlay, hsavepoints⟩ := m.tx.iterate_popUndo n
    rw [hrolled, hsavepoints]
    have hpopped := h.accounted.iterate_popUndo n
    have hsub := take_sublist (pos + 1) m.tx.savepoints
    refine ⟨⟨⟨hpopped.sized, hpopped.undo⟩, h.ordered.sublist hsub, fun sp' hsp' =>
      ?_⟩, fun _ => ?_⟩
    · -- a savepoint that stays was set no later, so its entries lie below those taken back
      have hle : sp'.undoMark ≤ sp.undoMark := mark_le_of_mem_take h.ordered hpos hsp hsp'
      have hlength : (popUndo^[n] m.tx).undo.length = sp.undoMark := by
        rw [hundo, length_drop]
        omega
      refine ⟨hlength ▸ hle, (h.reached sp' (hsub.subset hsp')).2 ▸ ?_⟩
      rw [rewound, hlength, hundo, hoverlay, ← foldl_append, ← take_add]
      congr 2
      omega
    · rw [← hname, ← hbuffer]
      exact hoverlay
  · exact ⟨h, by rintro ⟨⟩⟩

theorem Kept.step (h : m.Kept) (op : SavepointOp) : (m.step budget op).Kept := by
  cases op with
  | write puts deletes =>
    refine mutateAll_keeps (P := fun tx => Kept { m with tx := tx }) budget (fun c hc tx h => ?_) h
    exact h.changed (oneKeyEach_bufferChanges puts deletes c hc tx.overlay)
  | set name => exact h.set budget name
  | release name => exact h.release budget name
  | rollbackTo name => exact (h.rollbackTo budget name).1

def run (budget : Nat) (t : Table) (ro : Bool) (iso : Isolation)
    (ops : List SavepointOp) : Marked :=
  ops.foldl (Marked.step budget) ⟨start t ro iso, fun _ => .empty⟩

theorem kept_run (t : Table) (ro : Bool) (iso : Isolation) (ops : List SavepointOp) :
    (run budget t ro iso ops).Kept := by
  suffices ∀ m : Marked, m.Kept → (ops.foldl (Marked.step budget) m).Kept from
    this _ ⟨⟨rfl, rfl⟩, .nil, nofun⟩
  induction ops with
  | nil => exact fun _ h => h
  | cons op ops ih => exact fun m h => ih _ (h.step budget op)

theorem rollbackTo_ok_iff (tx : TxnState) (name : String) :
    (tx.rollbackTo name).1 = .ok () ↔ name ∈ tx.savepoints.map (·.name) := by
  have hidx := @findIdx?_isSome _ tx.savepoints fun sp => decide (sp.name = name)
  have hfind := @find?_isSome _ tx.savepoints fun sp => decide (sp.name = name)
  unfold TxnState.rollbackTo
  rw [mem_map]
  split
  · next hsp => exact iff_of_true rfl ⟨_, mem_of_find?_eq_some hsp, by simpa using find?_some hsp⟩
  · next hnone =>
    refine iff_of_false nofun fun ⟨sp, hsp, hname⟩ => ?_
    obtain ⟨pos, hpos⟩ := Option.isSome_iff_exists.mp
      (hidx.trans (any_eq_true.mpr ⟨sp, hsp, decide_eq_true hname⟩))
    obtain ⟨sp', hsp'⟩ := Option.isSome_iff_exists.mp
      (hfind.mpr ⟨sp, hsp, decide_eq_true hname⟩)
    exact hnone pos sp' hpos hsp'

/-- ROLLBACK TO a savepoint in force succeeds, and brings back the buffer of the moment it was set.
At the end, and after each entry it takes back, the accounts are right and hold what the next
subtraction takes. -/
theorem rollbackTo_exact (budget : Nat) (t : Table) (ro : Bool) (iso : Isolation)
    (ops : List SavepointOp) (name : String) :
    let m := run budget t ro iso ops
    let r := m.tx.rollbackTo name
    (r.1 = .ok () ↔ name ∈ m.tx.savepoints.map (·.name)) ∧
      (r.1 = .ok () → r.2.overlay = m.buffers name) ∧ r.2.Accounted ∧
      (∀ k, r.2.overlay.puts.get k = none ∨ r.2.overlay.deletes.get k = none) ∧
      ∀ n, (popUndo^[n] m.tx).Accounted ∧
        (∀ k, (popUndo^[n] m.tx).overlay.weight k ≤ (popUndo^[n] m.tx).mem) ∧
        ∀ e ∈ (popUndo^[n] m.tx).undo, e.size ≤ (popUndo^[n] m.tx).undoMem := by
  intro m r
  have hkept := kept_run budget t ro iso ops
  obtain ⟨hrolled, hbuffer⟩ := hkept.rollbackTo budget name
  refine ⟨rollbackTo_ok_iff m.tx name, hbuffer, hrolled.accounted, fun k => ?_, fun n => ?_⟩
  · cases hput : r.2.overlay.puts.get k with
    | none => exact .inl rfl
    | some v => exact .inr (r.2.overlay.disjoint k (by rw [hput]; rfl))
  · have hn := hkept.accounted.iterate_popUndo n
    exact ⟨hn, hn.weight_le, fun e he => hn.entry_le he⟩

/-- The name is used again: rolling back goes to the later place. -/
theorem rollbackTo_exact_reused :
    let m := run 100 OMap.empty false .snapshot
      [.set "s", .write [([1], [2])] [], .set "s", .write [] [[1]], .set "t"]
    let r := m.tx.rollbackTo "s"
    r.1 = .ok () ∧ r.2.overlay = m.buffers "s" ∧ r.2.overlay.puts.get [1] = some [2] := by
  intro m r
  have h := rollbackTo_exact 100 OMap.empty false .snapshot
    [.set "s", .write [([1], [2])] [], .set "s", .write [] [[1]], .set "t"] "s"
  have hok : r.1 = .ok () := h.1.mpr (by decide +kernel)
  exact ⟨hok, h.2.1 hok, by decide +kernel⟩

end Marked

end ElyraSql
