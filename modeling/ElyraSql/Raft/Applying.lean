import ElyraSql.Raft.Membership

/-!
# Applying entries in order

`take_applicable` marks entries as applied when it hands them out. The handler or the main loop then
sends them to the writer of the store one by one. Nothing keeps two of them from holding entries at
once, nor one from compacting what another still holds.
-/

namespace ElyraSql.Raft

open Transition List Option LogEntry Function MemberCluster RaftLog MemberStep

variable {N : Nat} {Op : Type} {l : List (LogEntry Op)}

/-! ## Workers -/

/-- Entries that `take_applicable` has handed out to a handler or to the main loop, and how many of
them it has sent to the writer. -/
structure Batch (Op : Type) where
  entries : List (LogEntry Op)
  sent : Nat

def Batch.unsent (b : Batch Op) : List (LogEntry Op) := b.entries.drop b.sent

/-- What a node is applying: the batches of its handlers, in the order of the handlers, and of its
main loop, the queue of the writer, and the entries stored since the process has started. -/
structure Workers (Op : Type) where
  held : List (Batch Op)
  main : Batch Op
  queue : List (LogEntry Op)
  stored : List (LogEntry Op)

namespace Workers

def start : Workers Op := ⟨[], ⟨[], 0⟩, [], []⟩

def batch (w : Workers Op) : Option Nat → Batch Op
  | none => w.main
  | some k => w.held[k]?.getD ⟨[], 0⟩

def setBatch (w : Workers Op) (o : Option Nat) (b : Batch Op) : Workers Op :=
  match o with
  | none => { w with main := b }
  | some k => { w with held := w.held.set k b }

/-- All answers for a batch have come. -/
def Done (w : Workers Op) (o : Option Nat) : Prop :=
  (w.batch o).unsent = [] ∧ ∀ e ∈ (w.batch o).entries, e ∉ w.queue

/-- Nothing handed out is waiting to be stored. -/
def Idle (w : Workers Op) : Prop :=
  w.queue = [] ∧ w.main.unsent = [] ∧ ∀ b ∈ w.held, b.unsent = []

/-- The entry has been handed out and is not stored yet. -/
def Pending (w : Workers Op) (e : LogEntry Op) : Prop :=
  e ∈ w.queue ∨ ∃ o, e ∈ (w.batch o).unsent

instance [DecidableEq Op] (w : Workers Op) (o : Option Nat) : Decidable (w.Done o) :=
  inferInstanceAs (Decidable (_ ∧ _))

instance [DecidableEq Op] (w : Workers Op) : Decidable w.Idle :=
  inferInstanceAs (Decidable (_ ∧ _ ∧ _))

/-- The next entry of a batch goes to the writer. -/
def send (w : Workers Op) (o : Option Nat) : Option (Workers Op) :=
  match (w.batch o).unsent with
  | [] => none
  | e :: _ =>
    some { w.setBatch o ⟨(w.batch o).entries, (w.batch o).sent + 1⟩ with queue := w.queue ++ [e] }

/-- The writer stores the first entry of its queue. -/
def store (w : Workers Op) : Option (Workers Op) :=
  match w.queue with
  | [] => none
  | e :: q => some { w with queue := q, stored := w.stored ++ [e] }

end Workers

/-- The entries that a lock section hands out. -/
def Cluster.handedOut (c : Cluster N Op) (a : Option (Step N Op)) : List (LogEntry Op) :=
  ((c.taken a).map fun r => r.takeApplicable.1).getD []

/-- What a lock section does to the workers of the node `v`: a new handler has no batch yet, a
handler that has answered is gone, and a restarted process has none. -/
def Workers.after (c : Cluster N Op) (v : Fin N) (w : Workers Op) : Option (Step N Op) → Workers Op
  | some (.appendEntries n req) =>
    if v = n ∧ ¬ req.term < (c.nodes n).term then { w with held := w.held ++ [⟨[], 0⟩] } else w
  | some (.handlerAppend n k) =>
    if v = n then w.setBatch (some k) ⟨c.handedOut (some (.handlerAppend n k)), 0⟩ else w
  | some (.advance n) =>
    if v = n then w.setBatch none ⟨c.handedOut (some (.advance n)), 0⟩ else w
  | some (.handlerReply n k) => if v = n then { w with held := w.held.eraseIdx k } else w
  | some (.crash n ..) | some (.crashCompacting n ..) => if v = n then .start else w
  | _ => w

structure ApplyCluster (N : Nat) (Op : Type) where
  members : MemberCluster N Op
  workers : Fin N → Workers Op

inductive ApplyStep (N : Nat) (Op : Type)
  | lock (a : MemberStep N Op)
  /-- A handler, or the main loop, sends its next entry. -/
  | send (n : Fin N) (o : Option Nat)
  | store (n : Fin N)

namespace ApplyCluster

/-- A handler compacts and the main loop answers its waiters after all answers of the writer have
come. -/
def Waits (m : ApplyCluster N Op) : Option (Step N Op) → Prop
  | some (.handlerCompact n k) => (m.workers n).Done (some k)
  | some (.resolve n _) => (m.workers n).Done none
  | _ => True

variable (config : Fin N → List (Fin N)) [DecidableEq Op] (noop : Op)

instance (m : ApplyCluster N Op) : DecidablePred m.Waits := fun a => by
  delta Waits
  split <;> infer_instance

def init : ApplyCluster N Op := ⟨MemberCluster.init config, fun _ => .start⟩

def step (m : ApplyCluster N Op) : ApplyStep N Op → Option (ApplyCluster N Op)
  | .lock a =>
    if m.Waits a.section? then
      (m.members.step config noop a).map fun members =>
        ⟨members, fun v => (m.workers v).after m.members.base v a.section?⟩
    else none
  | .send n o =>
    ((m.workers n).send o).map fun w => { m with workers := Function.update m.workers n w }
  | .store n =>
    (m.workers n).store.map fun w => { m with workers := Function.update m.workers n w }

end ApplyCluster

/-! ## In line -/

/-- Entries in increasing order, none above the bound. -/
def UpTo (b : Nat) (l : List (LogEntry Op)) : Prop :=
  (l.map index).Pairwise (· < ·) ∧ ∀ e ∈ l, e.index ≤ b

theorem UpTo.sublist {b : Nat} {l' : List (LogEntry Op)} (h : UpTo b l) (hl : l'.Sublist l) :
    UpTo b l' :=
  ⟨h.1.sublist (hl.map _), fun e he => h.2 e (hl.subset he)⟩

variable {new : List (LogEntry Op)} {w : Workers Op}

/-- Entries numbered from the bound on come after. -/
theorem UpTo.append_range {b : Nat} (h : UpTo b l)
    (hnew : new.map index = range' (b + 1) new.length) :
    UpTo (b + new.length) (l ++ new) := by
  have hmem : ∀ e ∈ new, b + 1 ≤ e.index ∧ e.index ≤ b + new.length := by
    intro e he
    have hi : e.index ∈ range' (b + 1) new.length := hnew ▸ mem_map_of_mem he
    rw [mem_range'_1] at hi
    omega
  refine ⟨?_, fun e he => ?_⟩
  · rw [map_append, pairwise_append, hnew]
    refine ⟨h.1, pairwise_lt_range', fun i hi j hj => ?_⟩
    obtain ⟨e, he, rfl⟩ := mem_map.mp hi
    have := h.2 e he
    rw [mem_range'_1] at hj
    omega
  · rcases mem_append.mp he with he | he
    · exact (h.2 e he).trans (Nat.le_add_right _ _)
    · exact (hmem e he).2

theorem RaftLog.map_index_takeFrom (es : List (LogEntry Op)) (fuel a : Nat) :
    (takeFrom es fuel a).map index = range' a (takeFrom es fuel a).length := by
  induction fuel generalizing a with
  | zero => rfl
  | succ fuel ih =>
    rw [takeFrom]
    cases hfind : es.find? (·.index = a) with
    | none => rfl
    | some e =>
      have he : e.index = a := by simpa using find?_some hfind
      rw [map_cons, length_cons, range'_succ, ih, he]

namespace Workers

variable {w w' : Workers Op} {o o' : Option Nat} {b : Batch Op}

/-- What is stored, then what is queued, then what a worker has still to send. -/
def line (w : Workers Op) (o : Option Nat) : List (LogEntry Op) :=
  w.stored ++ w.queue ++ (w.batch o).unsent

theorem batch_setBatch_of_ne (h : o' ≠ o) : (w.setBatch o b).batch o' = w.batch o' := by
  cases o with
  | none =>
    cases o' with
    | none => exact absurd rfl h
    | some k => rfl
  | some k =>
    cases o' with
    | none => rfl
    | some k' =>
      have hk : k ≠ k' := fun heq => h (congrArg some heq.symm)
      simp [setBatch, batch, getElem?_set_ne hk]

/-- Replacing the batch of a worker that is not there changes nothing. -/
theorem batch_setBatch_self :
    (w.setBatch o b).batch o = b ∨ w.setBatch o b = w ∧ (w.batch o).unsent = [] := by
  cases o with
  | none => exact .inl rfl
  | some k =>
    by_cases hk : k < w.held.length
    · simp [setBatch, batch, getElem?_set_self hk]
    · have hk := not_lt.mp hk
      simp [setBatch, set_eq_of_length_le hk, batch, getElem?_eq_none hk, Batch.unsent]

theorem stored_setBatch : (w.setBatch o b).stored = w.stored := by cases o <;> rfl

theorem queue_setBatch : (w.setBatch o b).queue = w.queue := by cases o <;> rfl

theorem Idle.unsent (h : w.Idle) (o : Option Nat) : (w.batch o).unsent = [] := by
  cases o with
  | none => exact h.2.1
  | some k =>
    cases hk : w.held[k]? with
    | none => simp [batch, hk, Batch.unsent]
    | some b => simpa [batch, hk] using h.2.2 b (mem_of_getElem? hk)

end Workers

/-- The workers of a node are in line up to the last entry that the log counts as applied: only one
of them has something to send, and the log keeps what is pending. -/
structure InLine (r : RaftLog Op) (w : Workers Op) : Prop where
  order : ∀ o, UpTo r.lastApplied (w.line o)
  alone : ∀ o o', o ≠ o' → (w.batch o).unsent = [] ∨ (w.batch o').unsent = []
  kept : ∀ e, w.Pending e → r.snapshotIndex < e.index
  snapshot : r.snapshotIndex ≤ r.lastApplied

namespace InLine

variable {r r' : RaftLog Op} {w w' : Workers Op} {o : Option Nat}

theorem start (hs : r.snapshotIndex ≤ r.lastApplied) : InLine r Workers.start := by
  have hbatch : ∀ o, ((Workers.start : Workers Op).batch o).unsent = [] := by
    intro o
    cases o <;> simp [Workers.start, Workers.batch, Batch.unsent]
  refine ⟨fun o => ?_, fun o o' _ => .inl (hbatch o), fun e he => ?_, hs⟩
  · rw [Workers.line, hbatch o]
    exact ⟨List.Pairwise.nil, nofun⟩
  · rcases he with he | ⟨o, he⟩
    · exact nomatch he
    · rw [hbatch o] at he
      exact nomatch he

variable (h : InLine r w)
include h

theorem of_cursors (ha : r'.lastApplied = r.lastApplied)
    (hs : r'.snapshotIndex = r.snapshotIndex) : InLine r' w :=
  ⟨fun o => ha ▸ h.order o, h.alone, fun e he => hs ▸ h.kept e he, by rw [ha, hs]; exact h.snapshot⟩

open Workers

/-- Batches that were there, each at most once. -/
theorem of_batches (f : Option Nat → Option (Option Nat))
    (hf : ∀ i j, i ≠ j → f i = f j → f i = none)
    (hb : ∀ i, (w'.batch i).unsent = ((f i).map fun j => (w.batch j).unsent).getD [])
    (hq : w'.queue = w.queue) (hs : w'.stored = w.stored) : InLine r w' := by
  refine ⟨fun i => ?_, fun i j hij => ?_, fun e he => ?_, h.snapshot⟩
  · rw [line, hq, hs, hb i]
    cases hfi : f i with
    | none =>
      exact (h.order none).sublist (by simp [line])
    | some j => exact h.order j
  · rw [hb i, hb j]
    cases hfi : f i with
    | none => exact .inl rfl
    | some i' =>
      cases hfj : f j with
      | none => exact .inr rfl
      | some j' =>
        refine h.alone i' j' fun heq => ?_
        have := hf i j hij (by rw [hfi, hfj, heq])
        rw [hfi] at this
        exact nomatch this
  · refine h.kept e (he.imp (fun hmem => hq ▸ hmem) fun ⟨i, hi⟩ => ?_)
    rw [hb i] at hi
    cases hfi : f i with
    | none =>
      rw [hfi] at hi
      exact nomatch hi
    | some j =>
      rw [hfi] at hi
      exact ⟨j, hi⟩

theorem push : InLine r { w with held := w.held ++ [⟨[], 0⟩] } := by
  refine h.of_batches some (fun i j hij heq => absurd (some.inj heq) hij) (fun i => ?_)
    rfl rfl
  cases i with
  | none => rfl
  | some k =>
    have hget : (w.held ++ [⟨[], 0⟩])[k]?.getD ⟨[], 0⟩ = w.held[k]?.getD ⟨[], 0⟩ := by
      rw [getElem?_append]
      split_ifs with hk
      · rfl
      · rw [getElem?_eq_none (not_lt.mp hk)]
        cases k - w.held.length <;> rfl
    simp only [batch, hget, map_some, getD_some]

theorem erase (k : Nat) : InLine r { w with held := w.held.eraseIdx k } := by
  refine h.of_batches (fun i => some (i.map fun i => if i < k then i else i + 1))
    (fun i j hij heq => absurd ?_ hij) (fun i => ?_) rfl rfl
  · cases i with
    | none =>
      cases j with
      | none => rfl
      | some j => exact nomatch heq
    | some i =>
      cases j with
      | none => exact nomatch heq
      | some j =>
        simp only [map_some, some.injEq] at heq ⊢
        split_ifs at heq <;> omega
  · cases i with
    | none => rfl
    | some i =>
      simp only [batch, getElem?_eraseIdx, map_some]
      split_ifs <;> rfl

/-- The sender is the only one with something to send, so its entry comes next. -/
theorem send (hs : w.send o = some w') : InLine r w' := by
  unfold Workers.send at hs
  split at hs
  case h_1 => exact nomatch hs
  case h_2 e rest hunsent =>
    cases hs
    set b : Batch Op := ⟨(w.batch o).entries, (w.batch o).sent + 1⟩ with hb
    have hrest : b.unsent = rest := by
      rw [Batch.unsent, ← drop_drop]
      exact congrArg (drop 1) hunsent
    have hself : (w.setBatch o b).batch o = b :=
      batch_setBatch_self.resolve_right fun h => by simp [h.2] at hunsent
    have hother : ∀ i, i ≠ o → (w.batch i).unsent = [] := fun i hi =>
      (h.alone i o hi).resolve_right (by simp [hunsent])
    have hunsent' : ∀ i, ((w.setBatch o b).batch i).unsent = if i = o then rest else [] := by
      intro i
      split_ifs with hi
      · rw [hi, hself, hrest]
      · rw [batch_setBatch_of_ne hi, hother i hi]
    have hline := h.order o
    rw [line, hunsent] at hline
    refine ⟨fun i => hline.sublist ?_, fun i j hij => ?_, fun e' he' => ?_, h.snapshot⟩
    · change ((w.setBatch o b).stored ++ (w.queue ++ [e]) ++
        ((w.setBatch o b).batch i).unsent).Sublist _
      rw [hunsent' i, stored_setBatch]
      split_ifs <;> simp
    · change ((w.setBatch o b).batch i).unsent = [] ∨ ((w.setBatch o b).batch j).unsent = []
      rw [hunsent' i, hunsent' j]
      by_cases hi : i = o
      · exact .inr (if_neg fun hj => hij (hi.trans hj.symm))
      · exact .inl (if_neg hi)
    · rcases he' with he' | ⟨i, he'⟩
      · rcases mem_append.mp he' with he' | he'
        · exact h.kept e' (.inl he')
        · rw [mem_singleton] at he'
          exact h.kept e' (.inr ⟨o, by rw [hunsent, he']; exact mem_cons_self⟩)
      · change e' ∈ ((w.setBatch o b).batch i).unsent at he'
        rw [hunsent' i] at he'
        split_ifs at he' with hi
        · exact h.kept e' (.inr ⟨o, by rw [hunsent]; exact mem_cons_of_mem _ he'⟩)
        · exact nomatch he'

theorem store (hs : w.store = some w') : InLine r w' := by
  unfold Workers.store at hs
  split at hs
  case h_1 => exact nomatch hs
  case h_2 e q hq =>
    cases hs
    refine ⟨fun i => ?_, h.alone, fun e' he' => h.kept e' (he'.imp_left fun hmem => ?_), h.snapshot⟩
    · have hline := h.order i
      rw [line, hq] at hline
      simpa [line, batch] using hline
    · rw [hq]
      exact mem_cons_of_mem _ hmem

/-- With nothing pending, the entries handed out next come after all others. -/
theorem hand (hidle : w.Idle)
    (hnew : new.map index = range' (r.lastApplied + 1) new.length)
    (ha : r'.lastApplied = r.lastApplied + new.length) (hs : r'.snapshotIndex = r.snapshotIndex) :
    InLine r' (w.setBatch o ⟨new, 0⟩) := by
  have hunsent : ∀ i, ((w.setBatch o ⟨new, 0⟩).batch i).unsent = [] ∨
      i = o ∧ ((w.setBatch o ⟨new, 0⟩).batch i).unsent = new := by
    intro i
    by_cases hi : i = o
    · subst hi
      rcases batch_setBatch_self (w := w) (o := i) (b := ⟨new, 0⟩) with hself | hself
      · exact .inr ⟨rfl, by rw [hself]; rfl⟩
      · exact .inl (by rw [hself.1]; exact hself.2)
    · exact .inl (by rw [batch_setBatch_of_ne hi]; exact hidle.unsent i)
  have hline : UpTo r.lastApplied w.stored := (h.order none).sublist (by simp [line])
  have hall : UpTo r'.lastApplied (w.stored ++ new) := ha ▸ hline.append_range hnew
  refine ⟨fun i => hall.sublist ?_, fun i j hij => ?_, fun e he => ?_, ?_⟩
  · rw [line, stored_setBatch, queue_setBatch, hidle.1]
    rcases hunsent i with hi | ⟨-, hi⟩ <;> simp [hi]
  · rcases hunsent i with hi | ⟨hi, -⟩
    · exact .inl hi
    · rcases hunsent j with hj | ⟨hj, -⟩
      · exact .inr hj
      · exact absurd (hi.trans hj.symm) hij
  · have hmem : e ∈ new := by
      rcases he with he | ⟨i, he⟩
      · rw [queue_setBatch, hidle.1] at he
        exact nomatch he
      · rcases hunsent i with hi | ⟨-, hi⟩
        · rw [hi] at he
          exact nomatch he
        · rwa [hi] at he
    have hi : e.index ∈ range' (r.lastApplied + 1) new.length :=
      hnew ▸ mem_map_of_mem hmem
    rw [mem_range'_1] at hi
    have := h.snapshot
    omega
  · have := h.snapshot
    omega

/-- With nothing pending, a compaction discards nothing that is. -/
theorem compact (hidle : w.Idle) (u : Nat) : InLine (r.compact u) w := by
  have hnone : ∀ e, ¬ w.Pending e := by
    rintro e (he | ⟨o, he⟩)
    · rw [hidle.1] at he
      exact nomatch he
    · rw [hidle.unsent o] at he
      exact nomatch he
  unfold RaftLog.compact
  split_ifs with hcond
  · exact h
  · split
    · exact h
    · exact ⟨h.order, h.alone, fun e he => absurd he (hnone e), by
        change u ≤ r.lastApplied
        omega⟩

end InLine

/-! ## Lock sections -/

/-- The node on which a lock section takes entries or compacts the log. -/
def takesOrCompacts : Option (Step N Op) → Option (Fin N)
  | some (.handlerAppend n _) | some (.advance n) | some (.handlerCompact n _)
  | some (.compactLog n) | some (.crashCompacting n ..) => some n
  | _ => none

namespace RaftLog

variable (r : RaftLog Op)

theorem persist_cursors :
    r.persistAppended.lastApplied = r.lastApplied ∧
      r.persistAppended.snapshotIndex = r.snapshotIndex := by
  unfold persistAppended
  split_ifs <;> exact ⟨rfl, rfl⟩

theorem appendEntries_cursors {r r' : RaftLog Op} {p t : Nat}
    (h : r.appendEntries p t new = some r') :
    r'.lastApplied = r.lastApplied ∧ r'.snapshotIndex = r.snapshotIndex := by
  unfold appendEntries at h
  split_ifs at h
  cases h
  split_ifs
  · exact ⟨rfl, rfl⟩
  · exact persist_cursors _

theorem advanceCommit_cursors (i : Nat) :
    (r.advanceCommit i).lastApplied = r.lastApplied ∧
      (r.advanceCommit i).snapshotIndex = r.snapshotIndex := by
  simp only [advanceCommit]
  split_ifs <;> exact ⟨rfl, rfl⟩

theorem maybeCommit_cursors (ms : List Nat) (t : Nat) :
    (r.maybeCommit ms t).lastApplied = r.lastApplied ∧
      (r.maybeCommit ms t).snapshotIndex = r.snapshotIndex := by
  rcases r.maybeCommit_cases ms t with h | ⟨j, -, -, -, h⟩ <;> rw [h] <;> exact ⟨rfl, rfl⟩

theorem reopen_cursors (w : Cut Op) : (r.reopen w).lastApplied = (r.reopen w).snapshotIndex := by
  unfold reopen
  split
  · rfl
  · split_ifs <;> rfl

end RaftLog

section Lock

variable {c : Cluster N Op} {v : Fin N} {a : Option (Step N Op)} {r : RaftLog Op} {x : Node N Op}

open Cluster

/-- The log on which entries are taken has the cursors of the node's log. -/
theorem Cluster.taken_cursors {n : Fin N} (h : c.taken a = some r)
    (ha : (∃ k, a = some (.handlerAppend n k)) ∨ a = some (.advance n)) :
    r.lastApplied = (c.nodes n).log.lastApplied ∧
      r.snapshotIndex = (c.nodes n).log.snapshotIndex := by
  rcases ha with ⟨k, rfl⟩ | rfl
  · simp only [taken] at h
    split at h
    case h_1 req hk =>
      obtain ⟨log, happ, rfl⟩ := map_eq_some_iff.mp h
      obtain ⟨h₁, h₂⟩ := log.advanceCommit_cursors req.leaderCommit
      obtain ⟨h₃, h₄⟩ := appendEntries_cursors happ
      exact ⟨h₁.trans h₃, h₂.trans h₄⟩
    case h_2 => exact nomatch h
  · simp only [taken] at h
    split at h
    case h_1 =>
      cases h
      exact maybeCommit_cursors _ _ _
    case h_2 => exact nomatch h

variable (h : LogStep v x a r)
include h

/-- A section that neither takes nor compacts nor restarts leaves the cursors alone. -/
theorem LogStep.cursors (ha : takesOrCompacts a ≠ some v)
    (hcrash : ∀ k w, a ≠ some (.crash v k w)) :
    r.lastApplied = x.log.lastApplied ∧ r.snapshotIndex = x.log.snapshotIndex := by
  cases h with
  | same | append => exact ⟨rfl, rfl⟩
  | sync => exact x.log.sync_cursors.2
  | restart k w => exact absurd rfl (hcrash k w)
  | accept | count | handlerCompact | compactLog | restartCompacting => exact absurd rfl ha

theorem LogStep.compacts (ha : (∃ k, a = some (.handlerCompact v k)) ∨ a = some (.compactLog v)) :
    (∃ u, r = x.log.compact u) ∨
      r.lastApplied = x.log.lastApplied ∧ r.snapshotIndex = x.log.snapshotIndex := by
  cases h with
  | same | append => exact .inr ⟨rfl, rfl⟩
  | sync => exact .inr x.log.sync_cursors.2
  | handlerCompact _ u | compactLog u => exact .inl ⟨u, rfl⟩
  | accept | count | restart | restartCompacting => simp at ha

theorem LogStep.snapshot_le (hx : x.log.snapshotIndex ≤ x.log.lastApplied)
    (ha : (∃ k w, a = some (.crash v k w)) ∨ ∃ u behind, a = some (.crashCompacting v u behind)) :
    r.snapshotIndex ≤ r.lastApplied := by
  cases h with
  | same | append => exact hx
  | sync =>
    obtain ⟨-, h₁, h₂⟩ := x.log.sync_cursors
    rw [h₁, h₂]
    exact hx
  | restart k w => exact ((x.writing k).reopen_cursors w).ge
  | restartCompacting u behind =>
    unfold reopenCompacting
    split_ifs
    · exact (x.log.reopen_cursors _).ge
    · split <;> exact (reopen_cursors _ _).ge
  | accept | count | handlerCompact | compactLog => simp at ha

omit h

/-- A section that takes entries leaves the log on which it has taken them, if any. -/
def TookFrom (c : Cluster N Op) (v : Fin N) (a : Option (Step N Op)) (r : RaftLog Op) : Prop :=
  (∃ k, a = some (.handlerAppend v k)) ∨ a = some (.advance v) →
    r = ((c.taken a).map fun r => r.takeApplicable.2).getD (c.nodes v).log

theorem InLine.took (h : InLine (c.nodes v).log w) (hidle : w.Idle)
    (ha : (∃ k, a = some (.handlerAppend v k)) ∨ a = some (.advance v)) (ht : TookFrom c v a r)
    (o : Option Nat) : InLine r (w.setBatch o ⟨c.handedOut a, 0⟩) := by
  rw [ht ha]
  unfold handedOut
  cases htaken : c.taken a with
  | none => exact h.hand hidle rfl rfl rfl
  | some r₀ =>
    obtain ⟨hla, hsn⟩ := taken_cursors htaken ha
    refine h.hand hidle ?_ ?_ hsn
    · rw [← hla]
      exact map_index_takeFrom _ _ _
    · exact congrArg (· + _) hla

theorem InLine.after (h : InLine (c.nodes v).log w) (hidle : takesOrCompacts a = some v → w.Idle)
    (hlog : LogStep v (c.nodes v) a r) (ht : TookFrom c v a r) : InLine r (w.after c v a) := by
  have hkeep : takesOrCompacts a ≠ some v → (∀ k w, a ≠ some (.crash v k w)) → InLine r w :=
    fun ha hcrash => h.of_cursors (hlog.cursors ha hcrash).1 (hlog.cursors ha hcrash).2
  match a with
  | some (.appendEntries n req) =>
    simp only [Workers.after]
    split_ifs
    · exact (hkeep nofun nofun).push
    · exact hkeep nofun nofun
  | some (.handlerReply n k) =>
    simp only [Workers.after]
    split_ifs
    · exact (hkeep nofun nofun).erase k
    · exact hkeep nofun nofun
  | some (.handlerAppend n k) =>
    simp only [Workers.after]
    split_ifs with hv
    · subst hv
      exact h.took (hidle rfl) (.inl ⟨k, rfl⟩) ht (some k)
    · exact hkeep (fun heq => hv (some.inj heq).symm) nofun
  | some (.advance n) =>
    simp only [Workers.after]
    split_ifs with hv
    · subst hv
      exact h.took (hidle rfl) (.inr rfl) ht none
    · exact hkeep (fun heq => hv (some.inj heq).symm) nofun
  | some (.crash n k u) =>
    simp only [Workers.after]
    split_ifs with hv
    · subst hv
      exact .start (hlog.snapshot_le h.snapshot (.inl ⟨k, u, rfl⟩))
    · refine hkeep nofun fun k' u' heq => hv ?_
      cases heq
      rfl
  | some (.crashCompacting n u behind) =>
    simp only [Workers.after]
    split_ifs with hv
    · subst hv
      exact .start (hlog.snapshot_le h.snapshot (.inr ⟨u, behind, rfl⟩))
    · exact hkeep (fun heq => hv (some.inj heq).symm) nofun
  | some (.handlerCompact n k) =>
    by_cases hv : v = n
    · subst hv
      exact (hlog.compacts (.inl ⟨k, rfl⟩)).elim (fun ⟨u, hu⟩ => hu ▸ h.compact (hidle rfl) u)
        fun hc => h.of_cursors hc.1 hc.2
    · exact hkeep (fun heq => hv (some.inj heq).symm) nofun
  | some (.compactLog n) =>
    by_cases hv : v = n
    · subst hv
      exact (hlog.compacts (.inr rfl)).elim (fun ⟨u, hu⟩ => hu ▸ h.compact (hidle rfl) u)
        fun hc => h.of_cursors hc.1 hc.2
    · exact hkeep (fun heq => hv (some.inj heq).symm) nofun
  | none | some (.propose ..) | some (.proposeAppend ..) | some (.startElection ..)
  | some (.requestVote ..) | some (.voteReply ..) | some (.closeElection ..)
  | some (.initProgress ..) | some (.appendNoop ..) | some (.handlerDrain ..)
  | some (.beginRound ..) | some (.syncLog ..) | some (.choosePoint ..) | some (.send ..)
  | some (.takeReply ..) | some (.resolve ..) | some (.stepDown ..) | some (.drain ..) =>
    exact hkeep nofun nofun

end Lock

/-! ## Runs -/

/-- Nothing handed out on a node is pending when the node takes entries or compacts. -/
def Settled (m : ApplyCluster N Op) : ApplyStep N Op → Prop
  | .lock a => ∀ n ∈ takesOrCompacts a.section?, (m.workers n).Idle
  | .send .. | .store .. => True

def AllInLine (m : ApplyCluster N Op) : Prop :=
  ∀ v, InLine (m.members.base.nodes v).log (m.workers v)

theorem AllInLine.update {m : ApplyCluster N Op} (h : AllInLine m) {n : Fin N}
    (hw : InLine (m.members.base.nodes n).log w) :
    AllInLine { m with workers := update m.workers n w } := by
  intro v
  by_cases hv : v = n
  · subst hv
    simpa using hw
  · simpa [update_of_ne hv] using h v

section Runs

variable [DecidableEq Op] {config : Fin N → List (Fin N)} {noop : Op} {m m' : ApplyCluster N Op}

instance (m : ApplyCluster N Op) : DecidablePred (Settled m)
  | .lock a =>
    inferInstanceAs (Decidable (∀ n ∈ takesOrCompacts a.section?, (m.workers n).Idle))
  | .send .. | .store .. => .isTrue trivial

section

variable {m m' : MemberCluster N Op} {a : MemberStep N Op} (h : m.step config noop a = some m')
  (v : Fin N)
include h

theorem MemberCluster.step_logStep :
    LogStep v (m.base.nodes v) a.section? (m'.base.nodes v).log := by
  obtain ⟨n, x, ms, hc, hs⟩ := step_log h
  rw [hc.nodes]
  by_cases hv : v = n
  · subst hv
    rw [update_self]
    exact hs.log
  · rw [update_of_ne hv]
    exact .same _

theorem MemberCluster.step_took : TookFrom m.base v a.section? (m'.base.nodes v).log := by
  rintro (⟨k, ha⟩ | ha)
  · obtain rfl := node_of_section ha nofun
    obtain ⟨base, hb, rfl⟩ := map_eq_some_iff.mp h
    simp only [Cluster.step] at hb
    split at hb
    case h_1 req hk =>
      cases hb
      simp only [Cluster.stepHandler, Cluster.stepHandlerAppend, section?, Cluster.taken, hk]
      cases happ : (m.base.nodes v).log.appendEntries req.prevIndex req.prevTerm req.entries <;>
        simp [Cluster.set]
    case h_2 => cases hb
  · obtain rfl := node_of_section ha (by simp)
    obtain ⟨base, hb, rfl⟩ := map_eq_some_iff.mp h
    simp only [Cluster.step] at hb
    split at hb
    case h_1 t ci hmain =>
      cases hb
      simp [Cluster.stepAdvance, MemberStep.section?, Cluster.taken, hmain, Cluster.set]
    case h_2 => cases hb

end

theorem AllInLine.step (h : AllInLine m) {a : ApplyStep N Op} (hs : Settled m a)
    (ha : m.step config noop a = some m') : AllInLine m' := by
  cases a with
  | lock a =>
    simp only [ApplyCluster.step] at ha
    split at ha
    case isTrue =>
      obtain ⟨members, hm, rfl⟩ := map_eq_some_iff.mp ha
      exact fun v => (h v).after (fun hv => hs v hv) (step_logStep hm v)
        (step_took hm v)
    case isFalse => exact nomatch ha
  | send n o =>
    obtain ⟨w, hw, rfl⟩ := map_eq_some_iff.mp ha
    exact h.update ((h n).send hw)
  | store n =>
    obtain ⟨w, hw, rfl⟩ := map_eq_some_iff.mp ha
    exact h.update ((h n).store hw)

/-- In every run in which nothing is pending when entries are taken or the log is compacted, every
node stores entries in strictly increasing order, and its log has not compacted an entry that is
handed out and not stored. -/
theorem applied_in_order
    (h : Reach (ApplyCluster.step config noop) Settled (ApplyCluster.init config) m) (n : Fin N) :
    ((m.workers n).stored.map index).Pairwise (· < ·) ∧
      ∀ e, (m.workers n).Pending e → (m.members.base.nodes n).log.snapshotIndex < e.index := by
  have hinv : AllInLine m :=
    Reach.invariant (I := AllInLine) (fun _ => .start le_rfl) (fun h hs ha => h.step hs ha) h
  exact ⟨((hinv n).order none).1.sublist (.map _ (by simp [Workers.line])), (hinv n).kept⟩

end Runs

/-- The steps of a round of node 0 up to its end, in which it sends one request. -/
def roundSteps : List (ApplyStep 2 Nat) :=
  [.beginRound 0, .syncLog 0, .choosePoint 0, .send 0 true, .send 0 true].map (.lock ∘ .node)

/-- Node 0 is elected, replicates its first entry, commits and applies it. -/
def firstCommit : List (ApplyStep 2 Nat) :=
  List.flatten [
    [.startElection 0, .requestVote 1 ⟨1, 0, 0, 0⟩, .voteReply 0 ⟨1, 0, 1, 1, true⟩,
      .closeElection 0, .initProgress 0, .appendNoop 0].map (.lock ∘ .node),
    roundSteps,
    [.lock (.receive 1 ⟨1, 0, 1, 0, 0, [⟨1, 1, 0⟩], 0, 0⟩ [0, 1])],
    [.handlerAppend 1 0, .handlerCompact 1 0, .handlerReply 1 0,
      .takeReply 0 ⟨1, 0, 1, 1, true, 1⟩, .advance 0].map (.lock ∘ .node),
    [.send 0 none, .store 0, .lock (.node (.resolve 0 [])), .lock (.node (.compactLog 0))]]

theorem applied_in_order_firstCommit :
    ∃ m : ApplyCluster 2 Nat,
      Reach (ApplyCluster.step peers 0) Settled (ApplyCluster.init peers) m ∧
      (m.workers 0).stored = [⟨1, 1, 0⟩] ∧
      ((m.workers 0).stored.map index).Pairwise (· < ·) := by
  exact Reach.exists_of_run (P := fun m => (m.workers 0).stored = [⟨1, 1, 0⟩]) firstCommit
    (by decide +kernel) fun m hreach hd => ⟨hd, (applied_in_order hreach 0).1⟩

/-- Node 1 takes the first entry and is slow to apply it. The leader goes on with a request that
brings the second entry and the compaction point 1. -/
def slowHandler : List (ApplyStep 2 Nat) :=
  List.flatten [
    firstCommit, roundSteps,
    [.lock (.receive 1 ⟨1, 0, 1, 1, 1, [], 1, 1⟩ [0, 1])],
    [.handlerAppend 1 0, .advance 0, .compactLog 0, .propose 0 5, .proposeAppend 0 0].map
      (.lock ∘ .node),
    roundSteps,
    [.lock (.receive 1 ⟨1, 0, 1, 1, 1, [⟨1, 2, 5⟩], 1, 1⟩ [0, 1])],
    [.handlerAppend 1 1, .handlerCompact 1 1].map (.lock ∘ .node)]

/-- The leader commits the second entry. The handler that takes it applies it before the first
handler comes to the first one. -/
def overtake : List (ApplyStep 2 Nat) :=
  List.flatten [
    [.handlerReply 1 1, .takeReply 0 ⟨1, 0, 1, 1, true, 2⟩, .advance 0].map (.lock ∘ .node),
    [.send 0 none, .store 0, .lock (.node (.resolve 0 [])), .lock (.node (.compactLog 0))],
    roundSteps,
    [.lock (.receive 1 ⟨1, 0, 1, 2, 1, [], 2, 2⟩ [0, 1]), .lock (.node (.handlerAppend 1 1))],
    [.send 1 (some 1), .store 1, .send 1 (some 0), .store 1]]

/-- The second handler compacts the log up to the entry that the first one has not applied, and the
entries are stored in the wrong order. -/
theorem overlapping_handlers_reorder :
    ∃ m m' : ApplyCluster 2 Nat,
      Reach (ApplyCluster.step peers 0) (fun _ _ => True) (ApplyCluster.init peers) m ∧
      (m.workers 1).Pending ⟨1, 1, 0⟩ ∧ (m.members.base.nodes 1).log.snapshotIndex = 1 ∧
      Reach (ApplyCluster.step peers 0) (fun _ _ => True) m m' ∧
      (m'.workers 1).stored.map index = [2, 1] := by
  have hrun : ((run (guarded (ApplyCluster.step peers 0) fun _ _ => True)
      (ApplyCluster.init peers) slowHandler).bind fun m =>
        (run (guarded (ApplyCluster.step peers 0) fun _ _ => True) m overtake).map fun m' =>
          decide (⟨1, 1, 0⟩ ∈ ((m.workers 1).batch (some 0)).unsent ∧
            (m.members.base.nodes 1).log.snapshotIndex = 1 ∧
            (m'.workers 1).stored.map index = [2, 1])) = some true := by
    decide +kernel
  obtain ⟨m, hm, hrest⟩ := bind_eq_some_iff.mp hrun
  obtain ⟨m', hm', hd⟩ := map_eq_some_iff.mp hrest
  obtain ⟨hmem, hsnap, hstored⟩ := of_decide_eq_true hd
  exact ⟨m, m', Reach.of_guarded_run hm, .inr ⟨some 0, hmem⟩, hsnap, Reach.of_guarded_run hm',
    hstored⟩

end ElyraSql.Raft
