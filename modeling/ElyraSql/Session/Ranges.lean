import ElyraSql.Session.Isolation

/-!
# Coalescing of scanned ranges

The ranges a serializable transaction has scanned are sorted and merged before its commit re-reads
them. Merging keeps the keys, but the row limit of a commit is applied to the merged ranges, so
ranges that are each within the limit may be refused together.
-/

namespace ElyraSql.TxnState

open OrderedMap List

variable {k : Bytes} {merged rs : List (Bytes × Option Bytes)} {r : Bytes × Option Bytes}

/-- Some range of the list holds `k`. -/
def Covered (rs : List (Bytes × Option Bytes)) (k : Bytes) : Prop :=
  ∃ r ∈ rs, inRange r.1 r.2 k = true

/-- `a` starts and ends before `b` starts. -/
def Before (a b : Bytes × Option Bytes) : Prop := a.1 ≤ b.1 ∧ ∃ e ∈ a.2, e < b.1

theorem covered_cons : Covered (r :: rs) k ↔ inRange r.1 r.2 k = true ∨ Covered rs k := by
  simp [Covered]

/-- A range that starts at or after the last merged one is appended after its end, or absorbed. -/
theorem coalesceStep_cases (h : ∀ m ∈ merged.head?, m.1 ≤ r.1) :
    (coalesceStep merged r = r :: merged ∧ ∀ m ∈ merged.head?, Before m r) ∨
      ∃ start stop stop' rest, merged = (start, stop) :: rest ∧
        coalesceStep merged r = (start, stop') :: rest ∧
        ∀ k, inRange start stop' k = true ↔
          inRange r.1 r.2 k = true ∨ inRange start stop k = true := by
  obtain ⟨first, last⟩ := r
  match merged, h with
  | [], _ => exact .inl ⟨rfl, by simp⟩
  | (start, none) :: rest, h =>
    have hle : start ≤ first := h _ rfl
    refine .inr ⟨start, none, none, rest, rfl, rfl, fun k => ?_⟩
    simp only [inRange_iff]
    grind
  | (start, some previous) :: rest, h =>
    have hle : start ≤ first := h _ rfl
    rw [coalesceStep]
    split_ifs with hov
    · refine .inr ⟨start, some previous, ?_⟩
      cases last with
      | none =>
        refine ⟨none, rest, rfl, rfl, fun k => ?_⟩
        simp only [inRange_iff]
        grind
      | some candidate =>
        simp only []
        split_ifs with hlt
        · refine ⟨some candidate, rest, rfl, rfl, fun k => ?_⟩
          simp only [inRange_iff]
          grind
        · refine ⟨some previous, rest, rfl, rfl, fun k => ?_⟩
          simp only [inRange_iff]
          grind
    · refine .inl ⟨rfl, ?_⟩
      rintro m ⟨⟩
      exact ⟨hle, previous, rfl, not_le.mp hov⟩

/-- The keys are kept, and so is the order of the merged ranges, the last of which comes first. -/
theorem coalesceStep_spec (h : ∀ m ∈ merged.head?, m.1 ≤ r.1)
    (hp : merged.Pairwise fun b a => Before a b) :
    (∀ k, Covered (coalesceStep merged r) k ↔ Covered (r :: merged) k) ∧
      (∀ m ∈ (coalesceStep merged r).head?, m.1 ≤ r.1) ∧
      (coalesceStep merged r).Pairwise fun b a => Before a b := by
  rcases coalesceStep_cases h with ⟨hstep, hlast⟩ | ⟨start, stop, stop', rest, rfl, hstep, hk⟩
  · rw [hstep]
    refine ⟨fun k => .rfl, by simp, pairwise_cons.mpr ⟨fun m hm => ?_, hp⟩⟩
    cases merged with
    | nil => cases hm
    | cons top rest =>
      rcases mem_cons.mp hm with rfl | hm
      · exact hlast _ rfl
      · obtain ⟨hle, e, he, hlt⟩ := (pairwise_cons.mp hp).1 m hm
        exact ⟨hle.trans (h top rfl), e, he, hlt.trans_le (h top rfl)⟩
  · rw [hstep]
    refine ⟨fun k => ?_, fun m hm => ?_, ?_⟩
    · rw [covered_cons, covered_cons, covered_cons, hk, or_assoc]
    · cases hm
      exact h (start, stop) rfl
    · obtain ⟨htop, hrest⟩ := pairwise_cons.mp hp
      exact pairwise_cons.mpr ⟨htop, hrest⟩

theorem foldl_coalesceStep (hs : rs.Pairwise fun a b => a.1 ≤ b.1)
    (h : ∀ m ∈ merged.head?, ∀ r ∈ rs, m.1 ≤ r.1) (hp : merged.Pairwise fun b a => Before a b) :
    (∀ k, Covered (rs.foldl coalesceStep merged) k ↔ Covered rs k ∨ Covered merged k) ∧
      (rs.foldl coalesceStep merged).Pairwise fun b a => Before a b := by
  induction rs generalizing merged with
  | nil => exact ⟨fun k => by simp [Covered], hp⟩
  | cons r rs ih =>
    obtain ⟨hr, hs⟩ := pairwise_cons.mp hs
    obtain ⟨hcov, hhead, hp⟩ := coalesceStep_spec (fun m hm => h m hm r mem_cons_self) hp
    obtain ⟨hcov', hp'⟩ := ih hs (fun m hm b hb => (hhead m hm).trans (hr b hb)) hp
    refine ⟨fun k => ?_, hp'⟩
    rw [foldl_cons, hcov', hcov, covered_cons, covered_cons, or_left_comm, or_assoc]

theorem coalesceRanges_spec (rs : List (Bytes × Option Bytes)) :
    (∀ k, Covered (coalesceRanges rs) k ↔ Covered rs k) ∧ (coalesceRanges rs).Pairwise Before := by
  obtain ⟨hcov, hp⟩ := @foldl_coalesceStep [] _
    (pairwise_insertionSort (fun a b : Bytes × Option Bytes => a.1 ≤ b.1) rs) (by simp) .nil
  refine ⟨fun k => ?_, pairwise_reverse.mpr hp⟩
  rw [← show Covered (rs.insertionSort fun a b => a.1 ≤ b.1) k ↔ Covered rs k by simp [Covered]]
  simpa [Covered, coalesceRanges] using hcov k

/-! ## Validation -/

/-- The commit's check of scanned ranges against the table it meets: all are within the limit and
hold what they held. -/
def validates (snapshot : Table) (cap : Nat) (rs : List (Bytes × Option Bytes)) (t : Table) :
    Bool :=
  match rangeSnaps snapshot cap rs with
  | .ok snaps => t.rangesHold snaps
  | .error _ => false

/-- The range has no more rows than the limit allows. -/
def WithinLimit (snapshot : Table) (cap : Nat) (r : Bytes × Option Bytes) : Prop :=
  (snapshot.list (inRange r.1 r.2)).length ≤ cap

variable {snapshot : Table} {cap : Nat}

theorem validates_iff {t : Table} : validates snapshot cap rs t = true ↔
    (∀ r ∈ rs, WithinLimit snapshot cap r) ∧ ∀ k, Covered rs k → t.get k = snapshot.get k := by
  rw [validates, rangeSnaps_eq]
  split_ifs with hfit
  · simp only [Table.rangesHold, all_map, all_eq_true, Function.comp_apply, beq_iff_eq]
    refine ⟨fun h => ⟨hfit, ?_⟩, fun h r hr => OMap.list_congr fun k hk => h.2 k ⟨r, hr, hk⟩⟩
    rintro k ⟨r, hr, hk⟩
    exact OMap.get_eq_of_list_eq (h r hr) hk
  · exact iff_of_false id fun h => hfit h.1

/-- A stretch of keys that ranges cover, each before the next, lies in one of them: the end of the
range that holds its first key is in no other. -/
theorem covered_within {start : Bytes} {stop : Option Bytes} (hp : rs.Pairwise Before)
    (hcov : ∀ k, inRange start stop k = true → Covered rs k) (hk : inRange start stop k = true) :
    ∃ r ∈ rs, ∀ j, inRange start stop j = true → inRange r.1 r.2 j = true := by
  have hfirst : inRange start stop start = true :=
    inRange_iff.mpr ⟨le_rfl, fun e he =>
      (inRange_iff.mp hk).1.trans_lt ((inRange_iff.mp hk).2 e he)⟩
  obtain ⟨r, hr, hin⟩ := hcov start hfirst
  obtain ⟨hle, hend⟩ := inRange_iff.mp hin
  refine ⟨r, hr, fun j hj => ?_⟩
  obtain ⟨hj, hstop⟩ := inRange_iff.mp hj
  refine inRange_iff.mpr ⟨hle.trans hj, fun e he => not_le.mp fun hej => ?_⟩
  obtain ⟨r', hr', hin'⟩ := hcov e
    (inRange_iff.mpr ⟨(hend e he).le, fun x hx => hej.trans_lt (hstop x hx)⟩)
  obtain ⟨hle', hend'⟩ := inRange_iff.mp hin'
  have hsides : r = r' ∨ Before r r' ∨ Before r' r :=
    Pairwise.forall_of_forall_of_flip (R := fun a b => a = b ∨ Before a b ∨ Before b a)
      (fun _ _ => .inl rfl) (hp.imp fun h => .inr (.inl h)) (hp.imp fun h => .inr (.inr h)) hr hr'
  rcases hsides with rfl | ⟨-, x, hx, hlt⟩ | ⟨-, x, hx, hlt⟩
  · exact lt_irrefl _ (hend' e he)
  · rw [Option.mem_unique he hx] at hle'
    exact hlt.not_ge hle'
  · exact lt_asymm ((hlt.trans_le hle).trans (hend e he)) (hend' x hx)

theorem withinLimit_coalesceRanges : (∀ r ∈ coalesceRanges rs, WithinLimit snapshot cap r) ↔
    ∀ start stop, (∀ k, inRange start stop k = true → Covered rs k) →
      WithinLimit snapshot cap (start, stop) := by
  obtain ⟨hcov, hp⟩ := coalesceRanges_spec rs
  constructor
  · intro h start stop hin
    by_cases hne : ∃ k, inRange start stop k = true
    · obtain ⟨k, hk⟩ := hne
      obtain ⟨r, hr, hsub⟩ := covered_within hp (fun k hk => (hcov k).mpr (hin k hk)) hk
      have hlist : snapshot.list (inRange start stop) <+ snapshot.list (inRange r.1 r.2) :=
        monotone_filter_right _ fun e => hsub e.1
      exact hlist.length_le.trans (h r hr)
    · have hnil : snapshot.list (inRange start stop) = [] :=
        filter_eq_nil_iff.mpr fun e _ he => hne ⟨e.1, he⟩
      rw [WithinLimit, hnil]
      exact Nat.zero_le _
  · exact fun h r hr => h r.1 r.2 fun k hk => (hcov k).mp ⟨r, hr, hk⟩

/-- Coalescing keeps the keys and gives sorted, disjoint ranges. Validation accepts the same commits
as before iff the limit, where every scanned range is within it, also allows every stretch of keys
the ranges cover together. -/
theorem coalesceRanges_validation_iff (rs : List (Bytes × Option Bytes)) :
    (∀ k, Covered (coalesceRanges rs) k ↔ Covered rs k) ∧
      (coalesceRanges rs).Pairwise
        (fun a b => a.1 ≤ b.1 ∧ ∀ k, ¬(inRange a.1 a.2 k = true ∧ inRange b.1 b.2 k = true)) ∧
      ∀ snapshot cap,
        (∀ t, validates snapshot cap (coalesceRanges rs) t = validates snapshot cap rs t) ↔
          ((∀ r ∈ rs, WithinLimit snapshot cap r) →
            ∀ start stop, (∀ k, inRange start stop k = true → Covered rs k) →
              WithinLimit snapshot cap (start, stop)) := by
  obtain ⟨hcov, hp⟩ := coalesceRanges_spec rs
  refine ⟨hcov, hp.imp ?_, fun snapshot cap => ?_⟩
  · rintro a b ⟨hle, e, he, hlt⟩
    refine ⟨hle, fun k ⟨ha, hb⟩ => ?_⟩
    exact (((inRange_iff.mp ha).2 e he).trans hlt).not_ge (inRange_iff.mp hb).1
  · rw [← withinLimit_coalesceRanges]
    constructor
    · intro h hfit
      have hself : validates snapshot cap rs snapshot = true :=
        validates_iff.mpr ⟨hfit, fun _ _ => rfl⟩
      exact (validates_iff.mp ((h snapshot).trans hself)).1
    · intro h t
      have hback : (∀ r ∈ coalesceRanges rs, WithinLimit snapshot cap r) →
          ∀ r ∈ rs, WithinLimit snapshot cap r :=
        fun hall r hr => withinLimit_coalesceRanges.mp hall r.1 r.2 fun k hk => ⟨r, hr, hk⟩
      rw [Bool.eq_iff_iff, validates_iff, validates_iff]
      simp only [hcov]
      exact and_congr_left' ⟨hback, h⟩

/-- Two ranges of one row each are within a limit of one row, but what they merge to is not. -/
theorem coalesceRanges_refused :
    let snapshot : Table := (OMap.empty.insert [97] []).insert [98] []
    let rs : List (Bytes × Option Bytes) := [([97], some [98]), ([98], some [99])]
    validates snapshot 1 rs snapshot = true ∧
      validates snapshot 1 (coalesceRanges rs) snapshot = false := by
  decide

end ElyraSql.TxnState
