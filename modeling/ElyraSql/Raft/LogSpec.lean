import ElyraSql.Raft.Log
import ElyraSql.Library.ReplicatedLog

/-!
# What a node's log stands for

A `RaftLog` has lost its compacted entries. It stands for a full log, of which it still holds
the entries after some base, and its files stand for a durable beginning of that log. Every
function of the log is described by what it does to the two.
-/

namespace ElyraSql.Raft

open ReplicatedLog List RaftLog

variable {Op : Type} {l : Log Op} {e : LogEntry Op}

/-! ## Numbered entries -/

/-- The entries of a log as they are stored, with indexes from `b + 1` on. -/
def number (b : Nat) : Log Op → List (LogEntry Op)
  | [] => []
  | e :: l => ⟨e.1, b + 1, e.2⟩ :: number (b + 1) l

/-- The term at an index of a full log, 0 at the index before the first. -/
def termOf (l : Log Op) (i : Nat) : Option Nat :=
  if i = 0 then some 0 else (l[i - 1]?).map Prod.fst

namespace NumberLemmas

variable (b : Nat)

@[simp] theorem number_nil : number b ([] : Log Op) = [] := rfl

@[simp] theorem number_cons (e : Nat × Op) (l : Log Op) :
    number b (e :: l) = ⟨e.1, b + 1, e.2⟩ :: number (b + 1) l := rfl

@[simp] theorem length_number (l : Log Op) : (number b l).length = l.length := by
  induction l generalizing b with
  | nil => rfl
  | cons e l ih => rw [number_cons, length_cons, ih, length_cons]

theorem number_append (l l' : Log Op) :
    number b (l ++ l') = number b l ++ number (b + l.length) l' := by
  induction l generalizing b with
  | nil => rfl
  | cons e l ih =>
    rw [cons_append, number_cons, ih, number_cons, length_cons]
    congr 3
    omega

theorem getElem?_number (l : Log Op) (k : Nat) :
    (number b l)[k]? = (l[k]?).map fun e => ⟨e.1, b + k + 1, e.2⟩ := by
  induction l generalizing b k with
  | nil => rfl
  | cons e l ih =>
    cases k with
    | zero => rfl
    | succ k =>
      rw [number_cons, getElem?_cons_succ, ih, getElem?_cons_succ]
      congr 2
      funext e
      congr 1
      omega

theorem take_number (k : Nat) (l : Log Op) : (number b l).take k = number b (l.take k) := by
  induction l generalizing b k with
  | nil => simp
  | cons e l ih =>
    cases k with
    | zero => rfl
    | succ k => rw [number_cons, take_succ_cons, ih, take_succ_cons, number_cons]

theorem drop_number (k : Nat) (l : Log Op) : (number b l).drop k = number (b + k) (l.drop k) := by
  induction l generalizing b k with
  | nil => simp
  | cons e l ih =>
    cases k with
    | zero => rfl
    | succ k =>
      rw [number_cons, drop_succ_cons, ih]
      congr 1
      omega

theorem mem_number {b : Nat} :
    e ∈ number b l ↔ b < e.index ∧ l[e.index - b - 1]? = some (e.term, e.data) := by
  rw [mem_iff_getElem?]
  constructor
  · rintro ⟨k, hk⟩
    rw [getElem?_number, Option.map_eq_some_iff] at hk
    obtain ⟨a, ha, rfl⟩ := hk
    refine ⟨by simp only []; omega, ?_⟩
    rw [show b + k + 1 - b - 1 = k by omega, ha]
  · rintro ⟨hb, he⟩
    refine ⟨e.index - b - 1, ?_⟩
    rw [getElem?_number, he, Option.map_some, show b + (e.index - b - 1) + 1 = e.index by omega]

theorem mem_number_drop {b : Nat} :
    e ∈ number b (l.drop b) ↔ b < e.index ∧ l[e.index - 1]? = some (e.term, e.data) := by
  rw [mem_number, getElem?_drop]
  refine and_congr_right fun hb => ?_
  rw [show b + (e.index - b - 1) = e.index - 1 by omega]

theorem find?_number (i : Nat) (l : Log Op) :
    (number b l).find? (·.index = i) =
      if b < i then (l[i - b - 1]?).map fun e => ⟨e.1, i, e.2⟩ else none := by
  induction l generalizing b with
  | nil => simp
  | cons e l ih =>
    rw [number_cons, find?_cons]
    by_cases h : b + 1 = i
    · subst h
      simp
    · rw [show decide ((⟨e.1, b + 1, e.2⟩ : LogEntry Op).index = i) = false by simpa using h, ih]
      by_cases hb : b < i
      · rw [if_pos hb, if_pos (by omega), show i - b - 1 = i - (b + 1) - 1 + 1 by omega,
          getElem?_cons_succ]
      · rw [if_neg hb, if_neg (by omega)]

theorem findIdx?_number (i : Nat) (l : Log Op) :
    (number b l).findIdx? (·.index = i) =
      if b < i ∧ i ≤ b + l.length then some (i - b - 1) else none := by
  induction l generalizing b with
  | nil =>
    rw [if_neg (by simp)]
    rfl
  | cons e l ih =>
    rw [number_cons, findIdx?_cons, ih, length_cons]
    by_cases h : b + 1 = i
    · subst h
      simp
    · simp only [h, decide_false, Bool.false_eq_true, if_false]
      by_cases hb : b + 1 < i ∧ i ≤ b + 1 + l.length
      · rw [if_pos hb, if_pos (by omega), Option.map_some]
        congr 1
        omega
      · rw [if_neg hb, if_neg (by omega), Option.map_none]

theorem filter_number (p : Nat) (l : Log Op) :
    (number b l).filter (p < ·.index) = number (max p b) (l.drop (p - b)) := by
  induction l generalizing b with
  | nil => simp
  | cons e l ih =>
    rw [number_cons, filter_cons, ih]
    by_cases h : p < b + 1
    · rw [if_pos (by simpa using h), show p - (b + 1) = 0 by omega, show p - b = 0 by omega,
        drop_zero, drop_zero, max_eq_right (by omega), max_eq_right (by omega),
        number_cons]
    · rw [if_neg (by simpa using h), show p - b = p - (b + 1) + 1 by omega,
        drop_succ_cons, max_eq_left (by omega), max_eq_left (by omega)]

theorem getLast?_number (l : Log Op) :
    (number b l).getLast? = l.getLast?.map fun e => ⟨e.1, b + l.length, e.2⟩ := by
  rw [getLast?_eq_getElem?, getLast?_eq_getElem?, getElem?_number, length_number]
  cases l with
  | nil => rfl
  | cons e l =>
    congr 2

theorem map_term_number (l : Log Op) : (number b l).map (·.term) = l.map Prod.fst := by
  induction l generalizing b with
  | nil => rfl
  | cons e l ih => rw [number_cons, map_cons, ih, map_cons]

end NumberLemmas

open NumberLemmas

/-! ## Restarts -/

namespace RaftLog

variable {r : RaftLog Op} {w : Cut Op}

/-- If nothing stands behind a record that was cut off earlier, a restart reads back what was
written. -/
theorem reopen_of_not_overrun (h : ¬ r.Overrun w) :
    ∃ t, r.reopen w = { openFiles (r.written w) r.boundary with torn := t } := by
  rw [reopen]
  cases hk : r.torn with
  | none => exact ⟨_, rfl⟩
  | some k =>
    rw [Overrun, hk] at h
    simp only []
    rw [if_neg fun hc => h ⟨k, rfl, hc⟩]
    exact ⟨_, rfl⟩

/-- Where nothing is being appended, only the file decides. -/
theorem Overrun.of_compactBoundary {u t : Nat} {behind : List (LogEntry Op) × Bool}
    (h : (r.compactBoundary u t).Overrun ⟨0, false, behind⟩) : r.Overrun ⟨0, false, behind⟩ := by
  obtain ⟨k, hk, hlt⟩ := h
  refine ⟨k, hk, hlt.imp (fun hlt => ?_) (by simp [cutOff])⟩
  simpa [written, compactBoundary] using hlt

end RaftLog

/-! ## Representation -/

/-- `r` stands for the log `l` with the durable part `d`: it holds the entries after the first
`b` in memory and on file. The snapshot boundary lies between the base and the end of what is
durable. -/
structure RepAt (b : Nat) (r : RaftLog Op) (l d : Log Op) : Prop where
  base_le : b ≤ r.snapshotIndex
  snap_le : r.snapshotIndex ≤ d.length
  disk_le : d <+: l
  entries : r.entries = number b (l.drop b)
  file : r.file = number b (d.drop b)
  persisted : r.persisted = d.length - b
  snapTerm : termOf l r.snapshotIndex = some r.snapshotTerm
  boundary : r.boundary = (r.snapshotIndex, r.snapshotTerm)

/-- `r` stands for the log `l` with the durable part `d`. -/
def Rep (r : RaftLog Op) (l d : Log Op) : Prop := ∃ b, RepAt b r l d

theorem termOf_of_le {l' : Log Op} {i : Nat} (h : l <+: l') (hi : i ≤ l.length) :
    termOf l i = termOf l' i := by
  rw [termOf, termOf]
  split_ifs with h0
  · rfl
  · obtain ⟨r, rfl⟩ := h
    rw [getElem?_append_left (by omega)]

namespace RepAt

variable {b : Nat} {r : RaftLog Op} {l d : Log Op}

section
variable (h : RepAt b r l d)
include h

theorem snap_le_log : r.snapshotIndex ≤ l.length :=
  h.snap_le.trans h.disk_le.length_le

theorem base_le_log : b ≤ l.length := h.base_le.trans h.snap_le_log

theorem lastIndex : r.lastIndex = l.length := by
  have hb := h.base_le
  have hs := h.snap_le_log
  rw [RaftLog.lastIndex, h.entries, getLast?_number]
  cases hl : (l.drop b).getLast? with
  | none =>
    have hnil := getLast?_eq_none_iff.mp hl
    rw [drop_eq_nil_iff] at hnil
    simp only [Option.map_none, Option.getD_none]
    omega
  | some e =>
    simp only [Option.map_some, length_drop, Option.getD_some]
    omega

theorem lastTerm : r.lastTerm = lastTerm l := by
  have hb := h.base_le
  have hs := h.snap_le_log
  rw [RaftLog.lastTerm, h.entries, getLast?_number, ReplicatedLog.lastTerm]
  by_cases hlt : b < l.length
  · have hdrop : (l.drop b).getLast? = l.getLast? := by
      rw [getLast?_drop, if_neg (by omega)]
    rw [hdrop, getLast?_eq_some_getLast (ne_nil_of_length_pos (by omega))]
    rfl
  · have hlen : r.snapshotIndex = l.length := by omega
    have ht := h.snapTerm
    rw [drop_of_length_le (by omega)]
    rw [hlen, termOf] at ht
    split_ifs at ht with h0
    · rw [length_eq_zero_iff.mp h0]
      simpa using ht.symm
    · have hl : l.getLast? = l[l.length - 1]? := getLast?_eq_getElem?
      rw [hl, ht]
      rfl

/-- Below the boundary the term is unknown, from it on it is the term of the full log. -/
theorem termAt (i : Nat) : r.termAt i = if i < r.snapshotIndex then none else termOf l i := by
  have hb := h.base_le
  rw [RaftLog.termAt]
  split_ifs with h₁ h₂ h₃
  · omega
  · rw [h₁, h.snapTerm]
  · rfl
  · rw [h.entries, find?_number, if_pos (by omega), getElem?_drop, Option.map_map, termOf,
      if_neg (by omega), show b + (i - b - 1) = i - 1 by omega]
    rfl

theorem isUpToDate {cand : Log Op} :
    r.isUpToDate (ReplicatedLog.lastTerm cand) cand.length = true ↔ UpToDate cand l := by
  rw [RaftLog.isUpToDate, h.lastTerm, h.lastIndex, UpToDate]
  simp

theorem entriesAfter (p : Nat) : r.entriesAfter p = number (max p b) (l.drop (max p b)) := by
  rw [RaftLog.entriesAfter, h.entries, filter_number, drop_drop]
  congr 2
  omega

theorem mem_entries : e ∈ r.entries ↔ b < e.index ∧ l[e.index - 1]? = some (e.term, e.data) := by
  rw [h.entries, mem_number_drop]

/-! ### Commit and apply -/

theorem withCursors (c a : Nat) : RepAt b { r with commitIndex := c, lastApplied := a } l d :=
  { h with }

end

theorem takeFrom (b : Nat) (l : Log Op) (fuel next : Nat) (hb : b < next) :
    takeFrom (number b (l.drop b)) fuel next =
      number (next - 1) ((l.drop (next - 1)).take fuel) := by
  induction fuel generalizing next with
  | zero => simp [RaftLog.takeFrom]
  | succ fuel ih =>
    rw [RaftLog.takeFrom, find?_number, if_pos hb, getElem?_drop,
      show b + (next - b - 1) = next - 1 by omega]
    cases hl : l[next - 1]? with
    | none =>
      rw [drop_of_length_le (getElem?_eq_none_iff.mp hl)]
      simp
    | some e =>
      obtain ⟨hlt, he⟩ := List.getElem?_eq_some_iff.mp hl
      rw [drop_eq_getElem_cons hlt, he, take_succ_cons, number_cons]
      simp only [Option.map_some]
      rw [ih (next + 1) (by omega), show next - 1 + 1 = next by omega,
        show next + 1 - 1 = next by omega]

section
variable (h : RepAt b r l d)
include h

/-- The entries between the two cursors are taken, and the cursors then agree. -/
theorem takeApplicable (hs : r.snapshotIndex ≤ r.lastApplied)
    (hac : r.lastApplied ≤ r.commitIndex)
    (hc : r.commitIndex ≤ l.length ∨ r.lastApplied = r.commitIndex) :
    r.takeApplicable =
      (number r.lastApplied ((l.take r.commitIndex).drop r.lastApplied),
        { r with lastApplied := r.commitIndex }) := by
  have hb := h.base_le
  have hout : RaftLog.takeFrom r.entries (r.commitIndex - r.lastApplied) (r.lastApplied + 1) =
      number r.lastApplied ((l.take r.commitIndex).drop r.lastApplied) := by
    rw [h.entries, takeFrom b l _ _ (by omega), Nat.add_sub_cancel, drop_take]
  have hlen : r.lastApplied + (number r.lastApplied
      ((l.take r.commitIndex).drop r.lastApplied)).length = r.commitIndex := by
    rw [length_number, length_drop, length_take]
    omega
  rw [RaftLog.takeApplicable]
  simp only [hout, hlen]

/-! ### Appending and persisting -/

theorem leaderAppend (term : Nat) (data : Op) :
    RepAt b (r.leaderAppend term data) (l ++ [(term, data)]) d := by
  have hbl := h.base_le_log
  refine { h with
    disk_le := h.disk_le.trans (prefix_append _ _), entries := ?_, snapTerm := ?_ }
  · simp only [RaftLog.leaderAppend, h.lastIndex, h.entries]
    rw [drop_append_of_le_length hbl, number_append, length_drop,
      show b + (l.length - b) = l.length by omega]
    rfl
  · exact (termOf_of_le (prefix_append _ _) h.snap_le_log).symm.trans h.snapTerm

theorem length_entries : r.entries.length = l.length - b := by
  rw [h.entries, length_number, length_drop]

/-- With entries that extend the durable ones, appending to the file makes all of them
durable. -/
theorem persistAppended : RepAt b r.persistAppended l l := by
  have hlen := h.length_entries
  have hp := h.persisted
  have hbd : b ≤ d.length := h.base_le.trans h.snap_le
  rw [RaftLog.persistAppended]
  split_ifs with hle
  · obtain rfl : d = l := h.disk_le.eq_of_length_le (by omega)
    exact h
  · refine { h with
      snap_le := h.snap_le_log, disk_le := prefix_rfl, file := ?_, persisted := hlen }
    simp only [h.file, h.entries, hp]
    obtain ⟨x, rfl⟩ := h.disk_le
    rw [drop_append_of_le_length hbd, number_append, ← length_drop,
      ← length_number b (d.drop b), drop_left]

theorem persistRewrite : RepAt b r.persistRewrite l l :=
  { h with
    snap_le := h.snap_le_log
    disk_le := prefix_rfl
    file := h.entries
    persisted := h.length_entries }

theorem sync : RepAt b r.sync l l := by
  rw [RaftLog.sync]
  split_ifs
  · exact h.persistRewrite
  · exact h.persistAppended

end

/-- The loop of `append_entries` over the leader's entries after the first `c`, on a log that
agrees with the leader's up to there: the entries become those of the leader's log, unless they
hold it already. Without a dropped suffix they only grow. -/
theorem foldl_appendStep {M : Log Op} {c : Nat} (hb : b ≤ c) (hl : c ≤ l.length)
    (hM : c ≤ M.length) (heq : l.take c = M.take c)
    (hmatch : ∀ {k e e'}, l[k]? = some e → M[k]? = some e' → e.1 = e'.1 →
      l.take (k + 1) = M.take (k + 1)) (f : Bool) :
    ∃ l' f', (number c (M.drop c)).foldl appendStep (number b (l.drop b), f) =
        (number b (l'.drop b), f') ∧
      (l' = l ∧ M <+: l ∨ l' = M ∧ ¬ M <+: l) ∧ (f' = false → f = false ∧ l <+: l') := by
  induction hn : M.length - c generalizing c l f with
  | zero =>
    have hc : c = M.length := by omega
    rw [show M.drop c = [] from drop_of_length_le hc.ge]
    refine ⟨l, f, rfl, Or.inl ⟨rfl, ?_⟩, fun hf => ⟨hf, prefix_rfl⟩⟩
    rw [hc, take_length] at heq
    exact heq ▸ List.take_prefix _ _
  | succ n ih =>
    have hc : c < M.length := by omega
    have hMc : M[c]? = some M[c] := getElem?_eq_getElem hc
    have hstep : M.take (c + 1) = M.take c ++ [M[c]] := (take_append_getElem hc).symm
    rw [drop_eq_getElem_cons hc, number_cons, foldl_cons, appendStep]
    simp only [findIdx?_number, length_drop]
    -- after a conflict or past the end, the log so far is the leader's up to `c + 1`
    have take_over : ∀ f₁, ∃ l' f', (number (c + 1) (M.drop (c + 1))).foldl appendStep
        (number b ((M.take (c + 1)).drop b), f₁) = (number b (l'.drop b), f') ∧ l' = M ∧
        (f' = false → f₁ = false) := by
      intro f₁
      have hlen : (M.take (c + 1)).length = c + 1 := by
        rw [length_take]
        omega
      obtain ⟨l', f', hfold, hl', hf'⟩ := ih (l := M.take (c + 1)) (c := c + 1) (by omega)
        (by omega) (by omega) (by rw [take_take, min_self]) (fun {k e e'} hk _ _ => by
          have := (List.getElem?_eq_some_iff.mp hk).1
          rw [take_take, min_eq_left (by omega)]) f₁ (by omega)
      refine ⟨l', f', hfold, ?_, fun hf => (hf' hf).1⟩
      rcases hl' with ⟨rfl, hp⟩ | ⟨rfl, -⟩
      · exact (List.take_prefix _ M).eq_of_length_le hp.length_le
      · rfl
    have htake : (M.take (c + 1)).drop b = (l.take c).drop b ++ [M[c]] := by
      rw [hstep, ← heq, drop_append_of_le_length (by rw [length_take]; omega)]
    have hnum : number b ((l.take c).drop b) ++ [⟨M[c].1, c + 1, M[c].2⟩] =
        number b ((M.take (c + 1)).drop b) := by
      rw [htake, number_append, length_drop, length_take, min_eq_left hl,
        show b + (c - b) = c by omega]
      rfl
    by_cases hcl : c < l.length
    · have hlc : l[c]? = some l[c] := getElem?_eq_getElem hcl
      rw [if_pos (by omega)]
      simp only [getElem?_number, getElem?_drop,
        show b + (c + 1 - b - 1) = c by omega, hlc, Option.map_some, Option.some.injEq]
      by_cases hterm : l[c].1 = M[c].1
      · rw [if_pos hterm]
        exact ih (by omega) (by omega) (by omega) (hmatch hlc hMc hterm) hmatch f (by omega)
      · rw [if_neg hterm, take_number, take_drop,
          show b + (c + 1 - b - 1) = c by omega, hnum]
        obtain ⟨l', f', hfold, rfl, hf'⟩ := take_over true
        refine ⟨l', f', hfold, Or.inr ⟨rfl, fun hp => hterm ?_⟩, fun hf => nomatch hf' hf⟩
        obtain ⟨x, rfl⟩ := hp
        rw [getElem_append_left hc]
    · obtain rfl : c = l.length := by omega
      rw [if_neg (by omega)]
      rw [take_length] at hnum
      rw [hnum]
      obtain ⟨l', f', hfold, rfl, hf'⟩ := take_over f
      refine ⟨l', f', hfold, Or.inr ⟨rfl, fun hp => ?_⟩, fun hf => ⟨hf' hf, ?_⟩⟩
      · have := hp.length_le
        omega
      · rw [take_length] at heq
        exact heq ▸ List.take_prefix _ _

variable (h : RepAt b r l d)
include h

/-- More entries in memory than on file. -/
theorem grow {l' : Log Op} (hl : l <+: l') :
    RepAt b { r with entries := number b (l'.drop b) } l' d :=
  { h with
    disk_le := h.disk_le.trans hl
    entries := rfl
    snapTerm := (termOf_of_le hl h.snap_le_log).symm.trans h.snapTerm }

section

variable {M : Log Op} {c p t : Nat} (hpc : p ≤ c) (hM : c ≤ M.length)
  (hagree : r.snapshotIndex ≤ p → termOf l p = some t → c ≤ l.length ∧ l.take c = M.take c)
  (hmatch : ∀ {k e e'}, l[k]? = some e → M[k]? = some e' → e.1 = e'.1 →
    l.take (k + 1) = M.take (k + 1))
include hpc hM hagree hmatch

/-- The loop on a log that passes the consistency check and agrees with the leader's log `M` up to
the entries sent. -/
theorem folded (hcheck : r.termAt p = some t) :
    ∃ l' f', (number c (M.drop c)).foldl appendStep (r.entries, false) =
        (number b (l'.drop b), f') ∧
      (l' = l ∧ M <+: l ∨ l' = M ∧ ¬ M <+: l) ∧ (f' = false → l <+: l') ∧
      r.snapshotIndex ≤ l'.length ∧ termOf l' r.snapshotIndex = some r.snapshotTerm := by
  rw [h.termAt] at hcheck
  split_ifs at hcheck with hsnap
  obtain ⟨hcl, heq⟩ := hagree (not_lt.mp hsnap) hcheck
  have hbc : b ≤ c := by
    have := h.base_le
    omega
  obtain ⟨l', f', hfold, hl', hf'⟩ := foldl_appendStep hbc hcl hM heq hmatch false
  have htake : c ≤ l'.length ∧ l'.take c = l.take c := by
    rcases hl' with ⟨rfl, -⟩ | ⟨rfl, -⟩
    · exact ⟨hcl, rfl⟩
    · exact ⟨hM, heq.symm⟩
  rw [← h.entries] at hfold
  refine ⟨l', f', hfold, hl', fun hf => (hf' hf).2, by omega, ?_⟩
  rw [← h.snapTerm, ← termOf_of_le (List.take_prefix c l') (by rw [length_take]; omega),
    htake.2, termOf_of_le (List.take_prefix c l) (by rw [length_take]; omega)]

/-- An accepted `append_entries`: the log is then the leader's log `M`, or the own log if that
holds `M`, and it is durable. -/
theorem appendEntries {r' : RaftLog Op}
    (hr : r.appendEntries p t (number c (M.drop c)) = some r') :
    r'.commitIndex = r.commitIndex ∧ r'.lastApplied = r.lastApplied ∧
      r'.snapshotIndex = r.snapshotIndex ∧
      ∃ l', RepAt b r' l' l' ∧ (l' = l ∧ M <+: l ∨ l' = M ∧ ¬ M <+: l) := by
  rw [RaftLog.appendEntries] at hr
  split_ifs at hr with hcheck
  obtain ⟨l', f', hfold, hl', hf', hsnap, hterm⟩ := h.folded hpc hM hagree hmatch hcheck
  rw [hfold] at hr
  have hrewrite : RepAt b { r with entries := number b (l'.drop b) }.persistRewrite l' l' :=
    { h with
      snap_le := hsnap, disk_le := prefix_rfl, entries := rfl, file := rfl
      persisted := by simp [RaftLog.persistRewrite]
      snapTerm := hterm }
  simp only [Option.some.injEq] at hr
  subst hr
  split_ifs with hcond
  · exact ⟨rfl, rfl, rfl, l', hrewrite, hl'⟩
  · rw [Bool.or_eq_true, not_or, Bool.not_eq_true] at hcond
    have hpa := (h.grow (hf' hcond.1)).persistAppended
    rw [RaftLog.persistAppended] at hpa ⊢
    split_ifs at hpa ⊢ with hle <;> exact ⟨rfl, rfl, rfl, l', hpa, hl'⟩

/-- The log that a handler is about to append to its file: the own log, or the leader's log `M` if
that extends it. -/
theorem appending :
    ∃ l', RepAt b (r.appending p t (number c (M.drop c))) l' d ∧ (l' = l ∨ l' = M ∧ l <+: M) := by
  rw [RaftLog.appending]
  split_ifs with hcond
  · obtain ⟨l', f', hfold, hl', hf', -⟩ := h.folded hpc hM hagree hmatch hcond.1
    rw [hfold] at hcond ⊢
    have hle := hf' hcond.2.1
    refine ⟨l', h.grow hle, ?_⟩
    rcases hl' with ⟨rfl, -⟩ | ⟨rfl, -⟩
    · exact .inl rfl
    · exact .inr ⟨rfl, hle⟩
  · exact ⟨l, h, .inl rfl⟩

end

/-! ### Compaction and restarts -/

theorem compactBoundary {u : Nat} (t : Nat) (hsu : r.snapshotIndex ≤ u) :
    (r.compactBoundary u t).entries = number u (l.drop u) ∧
      (r.compactBoundary u t).file = number b (d.drop b) := by
  have hb := h.base_le
  refine ⟨?_, h.file⟩
  simp only [RaftLog.compactBoundary]
  rw [h.entries, filter_number, drop_drop, max_eq_left (by omega), show b + (u - b) = u by omega]

/-- Compaction changes nothing, or drops entries and makes the rest durable. -/
theorem compact {u : Nat} (hud : u ≤ d.length) :
    r.compact u = r ∨ r.snapshotIndex < u ∧ u ≤ r.lastApplied ∧
      (r.compact u).snapshotIndex = u ∧ (r.compact u).commitIndex = r.commitIndex ∧
      (r.compact u).lastApplied = r.lastApplied ∧ RepAt u (r.compact u) l l := by
  rw [RaftLog.compact]
  split_ifs with hno
  · exact Or.inl rfl
  · rw [not_or, not_le, not_lt] at hno
    obtain ⟨hsu, hua⟩ := hno
    rw [h.termAt, if_neg (by omega)]
    cases ht : termOf l u with
    | none => exact Or.inl rfl
    | some t =>
      have hdl := h.disk_le.length_le
      obtain ⟨hentries, -⟩ := h.compactBoundary t hsu.le
      refine Or.inr ⟨hsu, hua, rfl, rfl, rfl, ?_⟩
      exact {
        base_le := le_rfl
        snap_le := hud.trans hdl
        disk_le := prefix_rfl
        entries := hentries
        file := hentries
        persisted := by
          simp only [RaftLog.persistRewrite, hentries, length_number, length_drop]
        snapTerm := ht
        boundary := rfl }

/-- A restart, if nothing stands behind a record that was cut off earlier. -/
theorem reopen {w : Cut Op} (hw : ¬ r.Overrun w) : (r.reopen w).snapshotIndex = r.snapshotIndex ∧
      (r.reopen w).commitIndex = r.snapshotIndex ∧
      (r.reopen w).lastApplied = r.snapshotIndex ∧
      RepAt b (r.reopen w) (l.take (d.length + w.whole)) (l.take (d.length + w.whole)) := by
  have hdl := h.disk_le.length_le
  have hbd : b ≤ d.length := h.base_le.trans h.snap_le
  have hs := h.snap_le
  have hfile : r.written w = number b ((l.take (d.length + w.whole)).drop b) := by
    obtain ⟨x, rfl⟩ := h.disk_le
    rw [RaftLog.written, h.file, h.entries, h.persisted, drop_number, take_number, drop_drop,
      show b + (d.length - b) = d.length by omega, drop_left, take_append, Nat.add_sub_cancel_left,
      show d.take (d.length + w.whole) = d from take_of_length_le (by omega),
      drop_append_of_le_length hbd, number_append, length_drop,
      show b + (d.length - b) = d.length by omega]
  have hlen : r.snapshotIndex ≤ (l.take (d.length + w.whole)).length := by
    rw [length_take]
    omega
  obtain ⟨t, ht⟩ := reopen_of_not_overrun hw
  rw [ht]
  simp only [RaftLog.openFiles, h.boundary, true_and]
  exact {
    base_le := h.base_le
    snap_le := hlen
    disk_le := prefix_rfl
    entries := hfile
    file := hfile
    persisted := by rw [hfile, length_number, length_drop]
    snapTerm := (termOf_of_le (List.take_prefix _ _) hlen).trans h.snapTerm
    boundary := rfl }

/-- A crash inside `compact` leaves the new boundary and the old file. -/
theorem reopenCompacting {u : Nat} {behind : List (LogEntry Op) × Bool} (hud : u ≤ d.length)
    (hw : ¬ r.Overrun ⟨0, false, behind⟩) :
    ∃ v, (v = r.snapshotIndex ∨ v = u ∧ r.snapshotIndex < u ∧ u ≤ r.lastApplied) ∧
      (r.reopenCompacting u behind).snapshotIndex = v ∧
      (r.reopenCompacting u behind).commitIndex = v ∧
      (r.reopenCompacting u behind).lastApplied = v ∧
      RepAt b (r.reopenCompacting u behind) d d := by
  have hplain := h.reopen hw
  rw [Nat.add_zero, ← prefix_iff_eq_take.mp h.disk_le] at hplain
  rw [RaftLog.reopenCompacting]
  split_ifs with hno
  · exact ⟨_, Or.inl rfl, hplain⟩
  · rw [not_or, not_le, not_lt] at hno
    obtain ⟨hsu, hua⟩ := hno
    rw [h.termAt, if_neg (by omega)]
    cases ht : termOf l u with
    | none => exact ⟨_, Or.inl rfl, hplain⟩
    | some t =>
      obtain ⟨-, hfile⟩ := h.compactBoundary t hsu.le
      have hb := h.base_le
      have hwrit : (r.compactBoundary u t).written ⟨0, false, behind⟩ = number b (d.drop b) := by
        rw [RaftLog.written, hfile, take_zero, append_nil]
      obtain ⟨k, hk⟩ := reopen_of_not_overrun (r := r.compactBoundary u t)
        (w := ⟨0, false, behind⟩) fun hover => hw (hover.of_compactBoundary)
      simp only [hk, hwrit]
      refine ⟨u, Or.inr ⟨rfl, hsu, hua⟩, rfl, rfl, rfl, ?_⟩
      exact {
        base_le := hb.trans hsu.le
        snap_le := hud
        disk_le := prefix_rfl
        entries := rfl
        file := rfl
        persisted := by simp only [RaftLog.openFiles, length_number, length_drop]
        snapTerm := (termOf_of_le h.disk_le hud).trans ht
        boundary := rfl }

end RepAt

end ElyraSql.Raft
