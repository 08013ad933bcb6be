import ElyraSql.Engine.IndexConsistency
import ElyraSql.Session.Batches
import ElyraSql.Session.Scan

/-!
# What the loops over batches read

A loop reads a prefix or a range batch by batch. With enough batches it does what one pass over all
its rows does, so the readers can be described by the pairs of the store and not by their batches.
-/

namespace ElyraSql.Engine

open OrderedMap ReadProgram List

variable {σ : Type} {s : Store} {after : Option Bytes}
  (f : σ → Bytes × Cell → Except Error (Bool × σ))

/-! ## Batches -/

/-- A batch of a prefix is the first part of what is left under the prefix. -/
theorem answer_scanBatch {pfx : Bytes} (ha : ∀ a, after = some a → pfx <+: a) (limit : Nat) :
    answer s (.scanBatch pfx after limit) = (rowsUnder s pfx after).take (max limit 1) :=
  congrArg (scanUpTo limit) (takeWhile_rowsUnder s ha)

theorem foldRows_append (a : σ) (l l' : List (Bytes × Cell)) :
    foldRows f a (l ++ l') =
      (foldRows f a l).bind fun r => if r.1 then .ok r else foldRows f r.2 l' := by
  induction l generalizing a with
  | nil => rfl
  | cons e l ih =>
    rw [cons_append, foldRows, foldRows]
    cases f a e with
    | error err => rfl
    | ok r =>
      change (if r.1 then Except.ok r else foldRows f r.2 (l ++ l')) =
        (if r.1 then Except.ok r else foldRows f r.2 l).bind _
      cases hr : r.1 with
      | true => simp [hr, Except.bind]
      | false => exact ih r.2

/-- A pass over all rows, from what the first batch leaves. -/
theorem foldRows_batch (a : σ) (n : Nat) (rows : List (Bytes × Cell)) :
    (foldRows f a rows).map Prod.snd = (foldRows f a (rows.take n)).bind fun r =>
      if r.1 || (rows.take n).length < n then .ok r.2
      else (foldRows f r.2 (rows.drop n)).map Prod.snd := by
  have hsplit := foldRows_append f a (rows.take n) (rows.drop n)
  rw [take_append_drop] at hsplit
  rw [hsplit]
  cases foldRows f a (rows.take n) with
  | error err => rfl
  | ok r =>
    change Except.map Prod.snd (if r.1 then Except.ok r else foldRows f r.2 (rows.drop n)) =
      if (r.1 || decide ((rows.take n).length < n)) = true then Except.ok r.2 else _
    cases hr : r.1 with
    | true => rfl
    | false =>
      by_cases hn : (rows.take n).length < n
      · have hdrop : rows.drop n = [] := by
          rw [length_take] at hn
          exact drop_of_length_le (by omega)
        rw [hdrop, decide_eq_true hn]
        rfl
      · rw [decide_eq_false hn]
        rfl

theorem length_drop_batch {rows : List (Bytes × Cell)} {e : Bytes × Cell} {fuel : Nat}
    (he : e ∈ rows) (hfuel : rows.length < fuel + 1) : (rows.drop batchSize).length < fuel := by
  have hpos := length_pos_of_mem he
  have hbatch : 0 < batchSize := by decide
  rw [length_drop]
  omega

/-- The loop over a prefix is one pass over its pairs. -/
theorem eval_scanLoop {pfx : Bytes} {f : σ → Bytes × Cell → Except Error (Bool × σ)} {fuel : Nat}
    (ha : ∀ a, after = some a → pfx <+: a) (hfuel : (rowsUnder s pfx after).length < fuel) (a : σ) :
    (scanLoop pfx f fuel after a).eval (answer s) =
      (foldRows f a (rowsUnder s pfx after)).map Prod.snd := by
  induction fuel generalizing after a with
  | zero => exact absurd hfuel (Nat.not_lt_zero _)
  | succ fuel ih =>
    have hchunk : answer s (.scanBatch pfx after batchSize) =
        (rowsUnder s pfx after).take batchSize := answer_scanBatch ha batchSize
    rw [foldRows_batch f a batchSize, scanLoop]
    change Prog.eval _ (if isEmpty (answer s (.scanBatch pfx after batchSize)) then _ else _) = _
    rw [hchunk]
    generalize hrows : rowsUnder s pfx after = rows at *
    cases hlast : (rows.take batchSize).getLast? with
    | none =>
      have hnil := getLast?_eq_none_iff.mp hlast
      rw [hnil]
      rfl
    | some last =>
      have hne : (rows.take batchSize).isEmpty = false := by
        cases h : rows.take batchSize with
        | nil => simp [h] at hlast
        | cons => rfl
      rw [hne, if_neg Bool.false_ne_true, Prog.eval_bind]
      cases foldRows f a (rows.take batchSize) with
      | error err => rfl
      | ok r =>
        change Prog.eval _ (if _ then _ else _) = if _ then _ else _
        split_ifs with hstop
        · rfl
        · have hfull : ¬ (rows.take batchSize).length < batchSize := fun h =>
            hstop (by rw [decide_eq_true h, Bool.or_true])
          have hmem : last ∈ rows := mem_of_mem_take (mem_of_getLast? hlast)
          obtain ⟨hunder, hafter⟩ := rowsUnder_after (hrows ▸ hmem)
          -- the next batch is read from what this one has left
          have hrest : rowsUnder s pfx (some last.1) = rows.drop batchSize := by
            rw [hafter, hrows]
            exact filter_after_batch (hrows ▸ OMap.increasing_list s _) hlast hfull
          have hshort : (rowsUnder s pfx (some last.1)).length < fuel := by
            rw [hrest]
            exact length_drop_batch hmem hfuel
          have hnext := ih (fun a h => by cases h; exact hunder) hshort r.2
          rw [hrest] at hnext
          exact hnext

/-! ## What is collected -/

theorem foldRows_pushRow {l : List (Bytes × Cell)} (h : ∀ e ∈ l, ∃ r, e.2 = .row r)
    (rows : List (Bytes × Row)) : ∃ found, foldRows pushRow rows l = .ok (false, rows ++ found) ∧
      ∀ e, e ∈ found ↔ (e.1, .row e.2) ∈ l := by
  induction l generalizing rows with
  | nil => exact ⟨[], by rw [append_nil]; rfl, by simp⟩
  | cons e l ih =>
    obtain ⟨k, c⟩ := e
    obtain ⟨r, rfl⟩ : ∃ r, c = .row r := h (k, c) mem_cons_self
    obtain ⟨found, hfound, hmem⟩ := ih (fun e he => h e (mem_cons_of_mem _ he)) (rows ++ [(k, r)])
    refine ⟨(k, r) :: found, ?_, fun e => ?_⟩
    · rw [append_assoc] at hfound
      exact hfound
    · simp only [mem_cons, hmem, Cell.row.injEq, Prod.ext_iff]

/-! ## Readers of a consistent table -/

section Table

variable {env : Env} {d : TableDef} {fuel : Nat}

/-- As many batches as there are pairs are enough for every loop. -/
def EnoughFuel (s : Store) (fuel : Nat) : Prop := s.entries.length < fuel

instance (s : Store) (fuel : Nat) : Decidable (EnoughFuel s fuel) :=
  inferInstanceAs (Decidable (_ < _))

theorem EnoughFuel.list (h : EnoughFuel s fuel) (p : Bytes → Bool) : (s.list p).length < fuel :=
  lt_of_le_of_lt (length_filter_le _ _) h

/-- A stored pair under an index key is an entry of a stored row. -/
theorem Consistent.entry_iff (hc : Consistent env d s) {k : Bytes}
    (hk : IsIndexKey d k) {c : Cell} :
    s.get k = some c ↔ ∃ dk r, (dk, r) ∈ storedRows d s ∧ k ∈ env.entryKeysForRow d r dk ∧
      c = .entry dk := by
  rw [hc.entries k c hk]
  simp only [mem_storedRows, mem_entriesForRow, and_assoc]

/-- Every entry of a stored row is stored. -/
theorem Consistent.get_entry (hc : Consistent env d s) {e : Bytes × Row} {i : IndexDef} {k : Bytes}
    (he : e ∈ storedRows d s) (hi : i ∈ d.indexes) (hk : k ∈ env.indexEntryKeys d e.2 e.1 i) :
    s.get k = some (.entry e.1) := by
  have hall : k ∈ env.entryKeysForRow d e.2 e.1 := mem_flatMap.mpr ⟨i, hi, hk⟩
  exact (hc.entry_iff (isIndexKey_of_mem hall)).mpr ⟨e.1, e.2, he, hall, rfl⟩

theorem Consistent.eval_scanRows (hc : Consistent env d s) (hfuel : EnoughFuel s fuel) : ∃ found,
    (scanLoop d.dataPrefix pushRow fuel none []).eval (answer s) = .ok found ∧
      ∀ e, e ∈ found ↔ e ∈ storedRows d s := by
  have hunder : ∀ k, (d.dataPrefix.isPrefixOf k && Option.all (fun a => decide (a < k)) none) =
      true ↔ IsRowKey d k := fun k => by simp [IsRowKey]
  have hrow : ∀ e ∈ rowsUnder s d.dataPrefix none, ∃ r, e.2 = .row r := fun e he => by
    obtain ⟨hget, hk⟩ := OMap.mem_list.mp he
    exact hc.rows e.1 e.2 ((hunder e.1).mp hk) hget
  obtain ⟨found, hfold, hmem⟩ := foldRows_pushRow hrow []
  have hstart : ∀ a, (none : Option Bytes) = some a → d.dataPrefix <+: a := nofun
  refine ⟨found, (eval_scanLoop hstart (hfuel.list _) []).trans (by rw [hfold]; rfl), fun e => ?_⟩
  rw [hmem, rowsUnder, OMap.mem_list, mem_storedRows (k := e.1) (r := e.2), hunder]
  exact and_comm

end Table

end ElyraSql.Engine
