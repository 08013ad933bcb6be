import ElyraSql.Storage.GroupCommit

/-!
# Applying committed operations again

After a restart a node applies a suffix of the committed operations once more. Plain batches set
their keys to the same values again. Inserts and validated commits meet a later table: one that was
refused may go through, and one that went through may be refused.
-/

namespace ElyraSql

open OrderedMap GroupCommitLemmas Option List

/-! ## Operations -/

/-- `WriteOp`: what a log entry holds. -/
inductive WriteOp
  | plain (puts : List (Bytes × Bytes)) (deletes : List Bytes)
  | validated (keys : List (Bytes × Option Bytes)) (ranges : List RangeSnapshot)
      (puts : List (Bytes × Bytes)) (deletes : List Bytes)
  | insert (new aux : List (Bytes × Bytes)) (deletes : List Bytes)

/-- `apply_op_local`: the job that an operation submits to the writer. -/
def WriteOp.job : WriteOp → WriteJob
  | .plain puts deletes => { puts := puts, deletes := deletes }
  | .validated keys ranges puts deletes =>
    { puts := puts, deletes := deletes, validation := some ⟨keys, ranges⟩ }
  | .insert new aux deletes => { puts := aux, deletes := deletes, insertNew := some new }

/-- The operation is not refused by this table. -/
def WriteOp.passes (o : WriteOp) (t : Table) : Bool := (jobTurn t o.job).1.isOk

def WriteOp.keys (o : WriteOp) : List Bytes := (published o.job).map Prod.fst ++ o.job.deletes

def WriteOp.turn (t : Table) (o : WriteOp) : Table := (jobTurn t o.job).2

open WriteOp

def Table.applyOps (t : Table) (ops : List WriteOp) : Table := ops.foldl WriteOp.turn t

open Table

theorem jobTurn_eq (t : Table) (j : WriteJob) :
    (jobTurn t j).2 = if (jobTurn t j).1.isOk then t.write (published j) j.deletes else t := by
  by_cases hv : j.validation.isSome
  · rw [jobTurn, if_pos hv, published, if_pos hv, validatedTurn]
    by_cases hc : t.keysHold j.toValidatedCommit.keys && t.rangesHold j.toValidatedCommit.ranges
    · rw [if_pos hc]
      rfl
    · rw [if_neg hc]
      rfl
  · rw [jobTurn, if_neg hv, published, if_neg hv, plainTurn]
    by_cases hc : j.toPlainJob.new.any fun new => t.findsDuplicate j.toPlainJob.deletes new []
    · rw [if_pos hc]
      rfl
    · rw [if_neg hc]
      have hputs : j.toPlainJob.new.getD [] ++ j.toPlainJob.puts = j.jobPuts := by
        unfold WriteJob.toPlainJob WriteJob.jobPuts
        cases j.insertNew <;> rfl
      rw [hputs]
      rfl

theorem WriteOp.turn_eq (t : Table) (o : WriteOp) :
    o.turn t = if o.passes t then t.write (published o.job) o.job.deletes else t :=
  jobTurn_eq t o.job

variable {t : Table}
variable {o : WriteOp}

theorem WriteOp.turn_of_refused (h : o.passes t = false) : o.turn t = t := by
  rw [turn_eq, h]
  rfl

theorem WriteOp.get_turn_of_notMem {k : Bytes} (h : k ∉ o.keys) : (o.turn t).get k = t.get k := by
  unfold keys at h
  rw [mem_append, not_or] at h
  rw [turn_eq]
  split_ifs
  · rw [get_write, OMap.lastValue_eq_none h.1, if_neg h.2, none_or]
  · rfl

variable {t' : Table} {written : List Bytes}

/-- An operation that passes gives its keys the same values whatever was there. -/
theorem WriteOp.get_turn_of_mem {k : Bytes} (h : k ∈ o.keys) (hp : o.passes t = true)
    (hp' : o.passes t' = true) : (o.turn t).get k = (o.turn t').get k := by
  rw [turn_eq, turn_eq, if_pos hp, if_pos hp', get_write, get_write]
  by_cases hd : k ∈ o.job.deletes
  · rw [if_pos hd, if_pos hd]
  · have hput : k ∈ (published o.job).map Prod.fst :=
      (mem_append.mp h).resolve_right hd
    obtain ⟨v, hv⟩ := isSome_iff_exists.mp (OMap.lastValue_isSome.mpr hput)
    rw [hv, some_or, some_or]

/-! ## Replay -/

/-- The replay of these operations on the table `t'`, which met the table `t` when they were first
applied. `written` are the keys written by the replay so far. What passes now has passed before, and
what has passed before and does not now, has no key that the replay has written. -/
def ReplaySafe (written : List Bytes) (t t' : Table) : List WriteOp → Prop
  | [] => True
  | o :: ops =>
    (o.passes t' = true → o.passes t = true) ∧
    (o.passes t = true → o.passes t' = false → ∀ k ∈ o.keys, k ∉ written) ∧
    ReplaySafe (if o.passes t' then o.keys ++ written else written) (o.turn t) (o.turn t') ops

instance decidableReplaySafe (written : List Bytes) (t t' : Table) :
    (ops : List WriteOp) → Decidable (ReplaySafe written t t' ops)
  | [] => .isTrue trivial
  | o :: ops =>
    have := decidableReplaySafe (if o.passes t' then o.keys ++ written else written) (o.turn t)
      (o.turn t') ops
    inferInstanceAs (Decidable (_ ∧ _ ∧ _))

/-- Written keys are where the first run had them, the others as they were before the replay. -/
def InStep (written : List Bytes) (t t' final : Table) : Prop :=
  ∀ k, t'.get k = if k ∈ written then t.get k else final.get k

theorem InStep.turn {final : Table} (h : InStep written t t' final)
    (hnew : o.passes t' = true → o.passes t = true)
    (hold : o.passes t = true → o.passes t' = false → ∀ k ∈ o.keys, k ∉ written) :
    InStep (if o.passes t' then o.keys ++ written else written) (o.turn t) (o.turn t') final := by
  intro k
  by_cases hp' : o.passes t' = true
  · rw [if_pos hp']
    by_cases hk : k ∈ o.keys
    · rw [if_pos (mem_append_left _ hk), get_turn_of_mem hk (hnew hp') hp']
    · rw [get_turn_of_notMem hk, get_turn_of_notMem hk, h k]
      simp [hk]
  · rw [Bool.not_eq_true] at hp'
    rw [turn_of_refused hp', h k, hp']
    by_cases hp : o.passes t = true
    · by_cases hw : k ∈ written
      · have hk : k ∉ o.keys := fun hk => hold hp hp' k hk hw
        simp [get_turn_of_notMem hk]
      · simp [hw]
    · rw [Bool.not_eq_true] at hp
      rw [turn_of_refused hp]
      simp

variable {ops : List WriteOp}

theorem ReplaySafe.run (hs : ReplaySafe written t t' ops)
    (h : InStep written t t' (t.applyOps ops)) :
    ∀ k, (t'.applyOps ops).get k = (t.applyOps ops).get k := by
  induction ops generalizing written t t' with
  | nil =>
    intro k
    have := h k
    simpa [applyOps] using this
  | cons o ops ih =>
    obtain ⟨hnew, hold, hrest⟩ := hs
    exact ih hrest (h.turn hnew hold)

/-! ## The writer -/

theorem applyOps_append (t : Table) (ops ops' : List WriteOp) :
    t.applyOps (ops ++ ops') = (t.applyOps ops).applyOps ops' := foldl_append

theorem applyOps_congr (h : SameRows t t') (hops : ∀ o ∈ ops, o.job.AvoidsWseq) :
    SameRows (t.applyOps ops) (t'.applyOps ops) := by
  induction ops generalizing t t' with
  | nil => exact h
  | cons o ops ih =>
    exact ih (jobTurn_congr (hops o mem_cons_self) h).2
      fun o' ho => hops o' (mem_cons_of_mem _ ho)

theorem turns_eq_applyOps (t : Table) (ops : List WriteOp) :
    (t.turns jobTurn (ops.map job)).2 = t.applyOps ops := by
  induction ops generalizing t with
  | nil => rfl
  | cons o ops ih => exact ih _

/-- However the writer groups them, operations leave the rows that they leave one by one. -/
theorem writerLoop_applyOps (waiting : Nat → Nat) (w : Writer)
    (hops : ∀ o ∈ ops, o.job.AvoidsWseq) :
    SameRows (writerLoop waiting w (ops.map job)).2.storage.kv (w.storage.kv.applyOps ops) := by
  have hjobs : ∀ j ∈ ops.map job, j.AvoidsWseq := by
    intro j hj
    obtain ⟨o, ho, rfl⟩ := mem_map.mp hj
    exact hops o ho
  obtain ⟨-, hloop⟩ := writerIter_agrees waiting (i := 0) le_rfl hjobs
    (SameRows.refl w.storage.kv)
  obtain ⟨-, hturns⟩ := turns_agree hjobs w.storage.kv w (SameRows.refl _)
  rw [turns_eq_applyOps] at hturns
  exact hloop.trans hturns.symm

/-- A node has applied the operations `done ++ again`, in any groups, and starts again with the
table it has. If it can safely replay `again`, then applying these once more, in any groups, leaves
every row as it was. -/
theorem replay_idempotent (waiting waiting' : Nat → Nat) (w w' : Writer) (done again : List WriteOp)
    (hops : ∀ o ∈ done ++ again, o.job.AvoidsWseq)
    (hrestart : w'.storage.kv =
      (writerLoop waiting w ((done ++ again).map WriteOp.job)).2.storage.kv)
    (hsafe : ReplaySafe [] (w.storage.kv.applyOps done) (w.storage.kv.applyOps (done ++ again))
      again) :
    ∀ k, k ≠ wseqKey →
      (writerLoop waiting' w' (again.map WriteOp.job)).2.storage.kv.get k =
        w'.storage.kv.get k := by
  have hagain : ∀ o ∈ again, o.job.AvoidsWseq := fun o ho => hops o (List.mem_append_right _ ho)
  have hrows : SameRows w'.storage.kv (w.storage.kv.applyOps (done ++ again)) := by
    rw [hrestart]
    exact writerLoop_applyOps waiting w hops
  rw [applyOps_append] at hsafe hrows
  have hreplay := hsafe.run fun k => by simp
  intro k hk
  calc (writerLoop waiting' w' (again.map WriteOp.job)).2.storage.kv.get k
      = (w'.storage.kv.applyOps again).get k := writerLoop_applyOps waiting' w' hagain k hk
    _ = (((w.storage.kv.applyOps done).applyOps again).applyOps again).get k :=
        applyOps_congr hrows hagain k hk
    _ = ((w.storage.kv.applyOps done).applyOps again).get k := hreplay k
    _ = w'.storage.kv.get k := (hrows k hk).symm

/-- Key 1 is put, an insert of the keys 1 and 2 is refused as a duplicate, and key 1 is deleted. The
replay of the last two lets the insert through, and key 2 stays. -/
theorem refused_insert_replayed :
    let again : List WriteOp := [.insert [([1], [1]), ([2], [1])] [] [], .plain [] [[1]]]
    let w := (writerLoop (fun _ => 0) emptyWriter
      ((.plain [([1], [0])] [] :: again).map WriteOp.job)).2
    w.storage.kv.get [2] = none ∧
      (writerLoop (fun _ => 0) w (again.map WriteOp.job)).2.storage.kv.get [2] = some [1] := by
  decide +kernel

/-- An insert with a counter, then a plain write of the row: the insert is refused at replay, and no
key of it has been written before. -/
theorem replay_idempotent_insert :
    let again : List WriteOp := [.insert [([1], [1])] [([3], [1])] [], .plain [([1], [2])] []]
    let w := (writerLoop (fun _ => 0) emptyWriter (again.map WriteOp.job)).2
    (∀ o ∈ again, o.job.AvoidsWseq) ∧
      ∀ k, k ≠ wseqKey →
        (writerLoop (fun _ => 1) w (again.map WriteOp.job)).2.storage.kv.get k =
          w.storage.kv.get k := by
  intro again w
  have hops : ∀ o ∈ again, o.job.AvoidsWseq := by
    simp only [again, List.forall_mem_cons]
    refine ⟨⟨?_, nofun, nofun⟩, ⟨nofun, nofun, nofun⟩, by simp⟩
    rintro _ ⟨⟩
    simp [wseqKey, ascii]
  exact ⟨hops, replay_idempotent (fun _ => 0) (fun _ => 1) emptyWriter w [] again hops rfl
    (by decide +kernel)⟩

end ElyraSql
