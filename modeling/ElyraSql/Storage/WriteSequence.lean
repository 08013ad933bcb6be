import ElyraSql.Library.Transition
import ElyraSql.Storage.Store

/-!
# The write sequence

`elyra-storage/src/lib.rs`: every write transaction stores the next number of a counter at
`meta::wseq`, and the engine serves what it has cached as long as the committed number is the one it
was cached under. `Storage::flush` commits a marker of its own without a number.
-/

namespace ElyraSql

open OrderedMap Transition List Table OMap UInt64 Prod

/-! ## Numbers -/

def decodeWseq (v : Option Bytes) : UInt64 := decodeCounter v

/-- The number that a read snapshot reports. -/
def Table.wseq (t : Table) : UInt64 := decodeWseq (t.get wseqKey)

/-! ## Write transactions -/

/-- The write transactions of the storage layer. `put` and `delete` are `apply` with one key. -/
inductive WriteTxn
  | apply (puts : List (Bytes × Bytes)) (deletes : List Bytes)
  | applyInsert (new aux : List (Bytes × Bytes)) (deletes : List Bytes)
  | applyValidated (keys : List (Bytes × Option Bytes)) (ranges : List RangeSnapshot)
      (puts : List (Bytes × Bytes)) (deletes : List Bytes)
  | applyValidatedBatch (jobs : List ValidatedCommit)
  | applyJobs (jobs : List PlainJob)

namespace WriteTxn

/-- The storage after a transaction of one job, absent when the job was refused. -/
def committed : Except Error Unit × Storage → Option Storage
  | (.ok (), s) => some s
  | (.error _, _) => none

/-- Run a transaction. A group commits whatever its jobs come to. -/
def run (s : Storage) : WriteTxn → Option Storage
  | .apply puts deletes => committed (s.apply puts deletes)
  | .applyInsert new aux deletes => committed (s.applyInsert new aux deletes)
  | .applyValidated keys ranges puts deletes =>
      committed (s.applyValidated keys ranges puts deletes)
  | .applyValidatedBatch jobs => some (s.applyValidatedBatch jobs).2
  | .applyJobs jobs => some (s.applyJobs jobs).2

/-- The keys that the jobs of a transaction put or delete. -/
def keys : WriteTxn → List Bytes
  | .apply puts deletes => puts.map Prod.fst ++ deletes
  | .applyInsert new aux deletes => new.map Prod.fst ++ aux.map Prod.fst ++ deletes
  | .applyValidated _ _ puts deletes => puts.map Prod.fst ++ deletes
  | .applyValidatedBatch jobs => jobs.flatMap fun j => j.puts.map Prod.fst ++ j.deletes
  | .applyJobs jobs =>
    jobs.flatMap fun j => (j.new.getD [] ++ j.puts).map Prod.fst ++ j.deletes

end WriteTxn

theorem Table.get_write_of_notMem {t : Table} {puts : List (Bytes × Bytes)} {deletes : List Bytes}
    {k : Bytes} (h : k ∉ puts.map fst ++ deletes) : (t.write puts deletes).get k = t.get k := by
  rw [mem_append, not_or] at h
  rw [get_write, lastValue_eq_none h.1, if_neg h.2]
  rfl

theorem Table.get_turns {J : Type} {turn : Table → J → Except Error Unit × Table} {k : Bytes}
    {js : List J} (h : ∀ j ∈ js, ∀ t, (turn t j).2.get k = t.get k) (t : Table) :
    (t.turns turn js).2.get k = t.get k := by
  induction js generalizing t with
  | nil => rfl
  | cons j js ih =>
    have hrest := ih (fun i hi => h i (mem_cons_of_mem j hi)) (turn t j).2
    exact hrest.trans (h j mem_cons_self t)

namespace WriteTxn

/-- A transaction that commits takes the next number, and keys it does not name keep their values.
-/
theorem run_spec {s s' : Storage} {w : WriteTxn} (h : w.run s = some s') :
    ∃ t, s' = s.commitTable t ∧ ∀ k ∉ w.keys, t.get k = s.kv.get k := by
  cases w with
  | apply puts deletes =>
    cases h
    exact ⟨_, rfl, fun k hk => get_write_of_notMem hk⟩
  | applyInsert new aux deletes =>
    simp only [run, Storage.applyInsert, insertNew_eq] at h
    split at h
    case h_1 => cases h
    case h_2 t ht =>
      cases h
      obtain ⟨-, ht⟩ := Option.ite_none_right_eq_some.mp ht
      obtain rfl := Option.some.inj ht
      refine ⟨_, rfl, fun k hk => ?_⟩
      simp only [keys, mem_append, not_or] at hk
      rw [OMap.get_insertMany, OMap.get_insertMany, OMap.get_eraseMany,
        OMap.lastValue_eq_none hk.1.1,
        OMap.lastValue_eq_none hk.1.2, if_neg hk.2]
      rfl
  | applyValidated keys ranges puts deletes =>
    simp only [run, Storage.applyValidated] at h
    split_ifs at h
    · cases h
      exact ⟨_, rfl, fun k hk => get_write_of_notMem hk⟩
    · cases h
    · cases h
  | applyValidatedBatch jobs =>
    cases h
    refine ⟨_, rfl, fun k hk => get_turns (fun j hj t => ?_) _⟩
    have hk' : k ∉ j.puts.map Prod.fst ++ j.deletes := fun hm => hk (mem_flatMap.mpr ⟨j, hj, hm⟩)
    unfold validatedTurn
    split
    · exact get_write_of_notMem hk'
    · rfl
  | applyJobs jobs =>
    cases h
    refine ⟨_, rfl, fun k hk => get_turns (fun j hj t => ?_) _⟩
    have hk' : k ∉ (j.new.getD [] ++ j.puts).map Prod.fst ++ j.deletes := fun hm =>
      hk (mem_flatMap.mpr ⟨j, hj, hm⟩)
    unfold plainTurn
    split
    · rfl
    · exact get_write_of_notMem hk'

end WriteTxn

/-! ## Runs -/

/-- An open database, the marker last written, and the tables ever committed: every read snapshot is
one of them. -/
structure Sequenced where
  store : Storage
  flushSeq : UInt64
  seen : List Table

inductive SeqStep
  | write (w : WriteTxn)
  /-- A write transaction that fails after it has taken its number. -/
  | abandon
  | flush
  /-- The database is closed, or the process ends, and it is opened again. No committed write is
  lost. -/
  | reopen

namespace Sequenced

/-- `Storage::open` of a file. -/
def opened (t : Table) : Sequenced := ⟨⟨t, t.wseq⟩, 0, [t]⟩

def commit (s : Sequenced) (store : Storage) : Sequenced := ⟨store, s.flushSeq, store.kv :: s.seen⟩

def step (s : Sequenced) : SeqStep → Sequenced
  | .write w =>
    match w.run s.store with
    | some store => s.commit store
    | none => s
  | .abandon => { s with store := ⟨s.store.kv, s.store.wseq + 1⟩ }
  | .flush =>
    let store := s.store.flush (s.flushSeq + 1)
    ⟨store, s.flushSeq + 1, store.kv :: s.seen⟩
  | .reopen => ⟨⟨s.store.kv, s.store.kv.wseq⟩, 0, s.seen⟩

/-- The counter is not at its end when a number is taken. -/
def NoWrap (s : Sequenced) : SeqStep → Prop
  | .write _ | .abandon => s.store.wseq.toNat + 1 < 2 ^ 64
  | .flush | .reopen => True

/-! ## Tables with one number -/

/-- The tables agree on all keys but the marker of `flush`. -/
def Agree (t t' : Table) : Prop := ∀ k, k ≠ flushSeqKey → t.get k = t'.get k

theorem wseq_commitTable (s : Storage) (t : Table) : (s.commitTable t).kv.wseq = s.wseq + 1 := by
  unfold wseq Storage.commitTable
  rw [get_insert, if_pos rfl, decodeWseq, decodeCounter_leBytes]

theorem wseqKey_ne_flushSeqKey : wseqKey ≠ flushSeqKey := by decide

variable (t : Table) {kv : Table} {s : Sequenced}

theorem wseq_insert_flushSeq (v : Bytes) : wseq (t.insert flushSeqKey v) = t.wseq := by
  unfold wseq
  rw [OMap.get_insert, if_neg wseqKey_ne_flushSeqKey]

theorem agree_insert_flushSeq (v : Bytes) : Agree (t.insert flushSeqKey v) t := by
  intro k hk
  rw [get_insert, if_neg hk]

/-- The committed table has the greatest number, the counter is not behind it, and tables with one
number agree. -/
structure Ok (s : Sequenced) : Prop where
  current : s.store.kv ∈ s.seen
  counter : s.store.kv.wseq.toNat ≤ s.store.wseq.toNat
  latest : ∀ t ∈ s.seen, t.wseq.toNat ≤ s.store.kv.wseq.toNat
  agree : ∀ t ∈ s.seen, ∀ t' ∈ s.seen, t.wseq = t'.wseq → Agree t t'

theorem agree_cons {seen : List Table}
    (hseen : ∀ t ∈ seen, ∀ t' ∈ seen, t.wseq = t'.wseq → Agree t t')
    (hnew : ∀ t ∈ seen, kv.wseq = t.wseq → Agree kv t) :
    ∀ t ∈ kv :: seen, ∀ t' ∈ kv :: seen, t.wseq = t'.wseq → Agree t t' := by
  intro a ha b hb hab
  rcases mem_cons.mp ha with ha' | ha' <;> rcases mem_cons.mp hb with hb' | hb'
  · rw [ha', hb']
    exact fun _ _ => rfl
  · subst ha'
    exact hnew b hb' hab
  · subst hb'
    exact fun k hk => (hnew a ha' hab.symm k hk).symm
  · exact hseen a ha' b hb' hab

theorem ok_opened : Ok (opened t) where
  current := mem_singleton_self t
  counter := le_rfl
  latest t' ht' := by rw [mem_singleton.mp ht']; exact le_rfl
  agree a ha b hb _ := by
    rw [mem_singleton.mp ha, mem_singleton.mp hb]
    exact fun _ _ => rfl

/-- A table that agrees with the committed one takes its place under the same number. -/
theorem Ok.same (h : Ok s) {wseq flushSeq : UInt64} (hwseq : kv.wseq = s.store.kv.wseq)
    (hagree : Agree kv s.store.kv) (hcounter : s.store.kv.wseq.toNat ≤ wseq.toNat) :
    Ok ⟨⟨kv, wseq⟩, flushSeq, kv :: s.seen⟩ where
  current := mem_cons_self
  counter := hwseq ▸ hcounter
  latest t ht := by
    rw [hwseq]
    rcases mem_cons.mp ht with rfl | ht
    · exact (congrArg toNat hwseq).le
    · exact h.latest t ht
  -- the new table is compared through the committed one
  agree := agree_cons h.agree fun t ht heq k hk =>
    (hagree k hk).trans (h.agree _ h.current t ht (hwseq.symm.trans heq) k hk)

theorem Ok.next (h : Ok s) {wseq : UInt64} (hnew : s.store.kv.wseq.toNat < kv.wseq.toNat)
    (hcounter : kv.wseq.toNat ≤ wseq.toNat) :
    Ok ⟨⟨kv, wseq⟩, s.flushSeq, kv :: s.seen⟩ where
  current := mem_cons_self
  counter := hcounter
  latest t ht := by
    rcases mem_cons.mp ht with rfl | ht
    · exact le_rfl
    · exact (h.latest t ht).trans hnew.le
  agree := agree_cons h.agree fun t ht heq =>
    absurd (h.latest t ht) (Nat.not_le.mpr (heq ▸ hnew))

theorem toNat_next {n : UInt64} (h : n.toNat + 1 < 2 ^ 64) : (n + 1).toNat = n.toNat + 1 := by
  exact Nat.mod_eq_of_lt h

theorem Ok.step (h : Ok s) {a : SeqStep} (ha : NoWrap s a) : Ok (s.step a) := by
  cases a with
  | write w =>
    simp only [Sequenced.step]
    split
    case h_1 store hrun =>
      obtain ⟨t, rfl, -⟩ := WriteTxn.run_spec hrun
      have hwseq := wseq_commitTable s.store t
      have hnew : s.store.kv.wseq.toNat < (s.store.commitTable t).kv.wseq.toNat := by
        rw [hwseq, toNat_next ha]
        exact Nat.lt_succ_of_le h.counter
      exact h.next hnew (congrArg toNat hwseq).le
    case h_2 => exact h
  | abandon =>
    refine ⟨h.current, ?_, h.latest, h.agree⟩
    show s.store.kv.wseq.toNat ≤ (s.store.wseq + 1).toNat
    rw [toNat_next ha]
    exact h.counter.trans (Nat.le_succ _)
  | flush => exact h.same (wseq_insert_flushSeq _ _) (agree_insert_flushSeq _ _) h.counter
  | reopen => exact ⟨h.current, le_rfl, h.latest, h.agree⟩

theorem mem_seen_step {t : Table} {a : SeqStep} (h : t ∈ s.seen) : t ∈ (s.step a).seen := by
  cases a with
  | write w =>
    simp only [Sequenced.step]
    split
    · exact mem_cons_of_mem _ h
    · exact h
  | abandon => exact h
  | flush => exact mem_cons_of_mem _ h
  | reopen => exact h

end Sequenced

open Sequenced in
/-- In every run from an opened file in which the counter does not wrap around, committed tables
that report one number agree on all keys but the marker of `flush`; so a step that changes another
key changes the number. -/
theorem wseq_identifies {t₀ : Table} {s : Sequenced}
    (h : Reach (fun s a => some (s.step a)) NoWrap (opened t₀) s) :
    (∀ t ∈ s.seen, ∀ t' ∈ s.seen, t.wseq = t'.wseq → Agree t t') ∧
    ∀ a, NoWrap s a → ∀ k, k ≠ flushSeqKey → (s.step a).store.kv.get k ≠ s.store.kv.get k →
      (s.step a).store.kv.wseq ≠ s.store.kv.wseq := by
  have hok : Ok s := by
    refine h.invariant (I := Ok) (ok_opened t₀) ?_
    intro s s' a hs ha hstep
    cases hstep
    exact hs.step ha
  refine ⟨hok.agree, fun a ha k hk hchange heq => hchange ?_⟩
  -- the table before the step is still among those committed
  have hnext := hok.step ha
  have hmem : s.store.kv ∈ (s.step a).seen := mem_seen_step hok.current
  exact hnext.agree _ hnext.current _ hmem heq k hk

namespace Sequenced

instance : ∀ (s : Sequenced) (a : SeqStep), Decidable (NoWrap s a)
  | s, .write _ | s, .abandon => inferInstanceAs (Decidable (s.store.wseq.toNat + 1 < 2 ^ 64))
  | _, .flush | _, .reopen => .isTrue trivial

/-- Two writes to one key; the second is committed after the database was opened again. -/
def rewritten : Sequenced :=
  [.write (.apply [([7], [1])] []), .reopen,
    .write (.applyInsert [([7], [2])] [] [[7]])].foldl step (opened .empty)

theorem reach_rewritten : Reach (fun s a => some (s.step a)) NoWrap (opened .empty) rewritten := by
  have hrun : run (guarded (fun s a => some (s.step a)) NoWrap) (opened .empty)
      [.write (.apply [([7], [1])] []), .reopen,
        .write (.applyInsert [([7], [2])] [] [[7]])] = some rewritten := rfl
  exact .of_guarded_run hrun

end Sequenced

open Sequenced in
theorem wseq_identifies_rewritten :
    rewritten.store.kv.wseq = 2 ∧
    (∀ t ∈ rewritten.seen, ∀ t' ∈ rewritten.seen, t.wseq = t'.wseq → Agree t t') ∧
    ∀ a, NoWrap rewritten a → ∀ k, k ≠ flushSeqKey →
      (rewritten.step a).store.kv.get k ≠ rewritten.store.kv.get k →
        (rewritten.step a).store.kv.wseq ≠ rewritten.store.kv.wseq :=
  ⟨by decide, wseq_identifies reach_rewritten⟩

open Sequenced in
/-- `flush` changes the marker and keeps the number. -/
theorem flush_keeps_wseq :
    Reach (fun s a => some (s.step a)) NoWrap (opened .empty) (rewritten.step .flush) ∧
    (rewritten.step .flush).store.kv.wseq = rewritten.store.kv.wseq ∧
    (rewritten.step .flush).store.kv.get flushSeqKey ≠ rewritten.store.kv.get flushSeqKey ∧
    rewritten.store.kv ∈ (rewritten.step .flush).seen ∧
    (rewritten.step .flush).store.kv ∈ (rewritten.step .flush).seen := by
  refine ⟨.tail (a := .flush) reach_rewritten trivial rfl, by decide, by decide, ?_, ?_⟩
  · exact mem_seen_step mem_cons_self
  · exact mem_cons_self

end ElyraSql
