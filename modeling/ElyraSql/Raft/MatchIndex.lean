import ElyraSql.Raft.Safety

/-!
# Match indexes

A follower answers an accepted `AppendEntries` with the last index of its log, which may lie past
the entries it was sent, and `take_reply` records it. As long as the follower stays in the term of
the leader, its log is the leader's up to there. The leader itself only appends in its term, so what
it sent is still part of its log.
-/

namespace ElyraSql.Raft

open ReplicatedLog Transition List

variable {N : Nat} {Op : Type} {safe : Prop} {c : Cluster N Op} {A : State (Fin N) Op} {n p : Fin N}

/-- Both logs hold one entry at every index up to `i` that neither has compacted. -/
def AgreeUpTo (r r' : RaftLog Op) (i : Nat) : Prop :=
  ∀ j, r.snapshotIndex < j → r'.snapshotIndex < j → j ≤ i →
    ∃ e ∈ r.entries, e.index = j ∧ e ∈ r'.entries

/-- The follower `p` has accepted a request of the term of `n` with a match index: its handler still
runs, its answer is on the way, or the leader counts what it has recorded. -/
inductive Matched (c : Cluster N Op) (n p : Fin N) : Nat → Prop
  | accepted {req : AppendEntries N Op} {i : Nat} (h : .compact req i ∈ (c.nodes p).handlers)
    (hterm : req.term = (c.nodes n).term) : Matched c n p i
  | answering {req : AppendEntries N Op} {i : Nat} (h : .reply req true i ∈ (c.nodes p).handlers)
    (hterm : req.term = (c.nodes n).term) : Matched c n p i
  | answered {m : AppendAck N} (h : .appendAck m ∈ c.net) (hp : m.follower = p)
    (hterm : m.requestTerm = (c.nodes n).term) (hs : m.success = true) : Matched c n p m.matchIndex
  | counted {t ci : Nat} {pr : Progress} (h : (c.nodes n).main = .collecting t ci)
    (hp : p ∈ peers n) (hpr : (c.nodes n).progress p = some pr) : Matched c n p pr.matched

/-- A match index is 0, or the history has the acknowledgement. -/
theorem Coupled.ack_of_matched (h : Coupled safe c A) (hr : (c.nodes n).role = .leader) {i : Nat}
    (hm : Matched c n p i) : i = 0 ∨ A.ack p (c.nodes n).term i := by
  cases hm with
  | accepted hc hterm => exact .inr (hterm ▸ ((h.nodes p).handlers _ hc).2)
  | answering hc hterm => exact .inr (hterm ▸ (h.nodes p).handlers _ hc rfl)
  | answered hm hp hterm hs => exact .inr (hp ▸ hterm ▸ h.net _ hm hs)
  | counted hmain hp hpr =>
    obtain ⟨hterm, ⟨-, -, hprog⟩, -⟩ := h.mainOk hmain
    obtain ⟨pr, hpr', -, -, hack⟩ := hprog p hp
    cases hpr.symm.trans hpr'
    rwa [hterm hr]

/-- What a node has acknowledged in a term is in its log until it leaves the term. -/
theorem Coupled.agree_of_ack (h : Coupled safe c A) (hr : (c.nodes n).role = .leader)
    (hp : (c.nodes p).term ≤ (c.nodes n).term) {i : Nat} (hack : A.ack p (c.nodes n).term i) :
    AgreeUpTo (c.nodes n).log (c.nodes p).log i := by
  intro j hj hj' hji
  obtain ⟨b, hrep⟩ := (h.nodes n).rep
  obtain ⟨b', hrep'⟩ := (h.nodes p).rep
  have hlog := (h.inv.led_log n _ ((h.nodes n).leads hr)).2 (h.nodes n).term.symm
  obtain ⟨-, hi⟩ := (h.inv.ack_own p _ i hack).1
  have hheld : A.upTo (c.nodes n).term i <+: A.log p := by
    rcases h.inv.holds_log p _ i (Or.inl hack) with hheld | ⟨w, htw, hwp, -⟩
    · exact hheld
    · -- no leader lies between the term and itself
      rw [(h.nodes p).term] at hp
      omega
  have hlt : j - 1 < (A.log n).length := by
    rw [hlog]
    omega
  have hget := getElem?_eq_getElem hlt
  have hget' : (A.log p)[j - 1]? = some (A.log n)[j - 1] := by
    refine getElem?_of_beginning hheld ?_
    rw [State.upTo, ← hlog, getElem?_take_of_lt (by omega), hget]
  refine ⟨⟨(A.log n)[j - 1].1, j, (A.log n)[j - 1].2⟩, ?_, rfl, ?_⟩
  · exact hrep.mem_entries.mpr ⟨hrep.base_le.trans_lt hj, hget⟩
  · exact hrep'.mem_entries.mpr ⟨hrep'.base_le.trans_lt hj', hget'⟩

/-- In every run that keeps its terms and its files, a follower that has not left the term of the
leader holds the leader's entries up to its match index. -/
theorem match_index_truthful [DecidableEq Op] {noop : Op}
    (h : Reach (Cluster.step noop) (fun c a => KeepsTerm c a ∧ KeepsFile c a) Cluster.init c)
    (hr : (c.nodes n).role = .leader) (hp : (c.nodes p).term ≤ (c.nodes n).term) {i : Nat}
    (hm : Matched c n p i) : AgreeUpTo (c.nodes n).log (c.nodes p).log i := by
  obtain ⟨A, hA⟩ := coupled_run False (fun ha => ⟨ha.1, ha.2, False.elim⟩) h
  rcases hA.ack_of_matched hr hm with rfl | hack
  · intro j hj _ hj0
    omega
  · exact hA.agree_of_ack hr hp hack

/-- The proposal of node 0 is acknowledged by node 1, and node 0 counts it. -/
theorem match_index_truthful_oneRound :
    ∃ c : Cluster 3 Nat,
      Reach (Cluster.step 0) (fun c a => KeepsTerm c a ∧ KeepsFile c a) Cluster.init c ∧
      (c.nodes 0).progress 1 = some ⟨3, 2⟩ ∧ AgreeUpTo (c.nodes 0).log (c.nodes 1).log 2 := by
  refine Reach.exists_of_run (P := fun c => (c.nodes 0).progress 1 = some ⟨3, 2⟩ ∧
      (c.nodes 0).role = .leader ∧ (c.nodes 1).term ≤ (c.nodes 0).term ∧
      (c.nodes 0).main = .collecting 1 0)
    (List.flatten [winElection 0 1 1 0 0, [.propose 0 5, .proposeAppend 0 0],
      (replicateTo 0 1 ⟨1, 0, 1, 0, 0, [⟨1, 1, 0⟩, ⟨1, 2, 5⟩], 0, 0⟩ true 2).dropLast])
    (by decide +kernel) ?_
  rintro c hreach ⟨hpr, hr, hp, hmain⟩
  exact ⟨hpr, match_index_truthful hreach hr hp (.counted hmain (by decide) hpr)⟩

instance [DecidableEq Op] : DecidablePred (LogMatching : Cluster N Op → Prop) := fun c => by
  delta LogMatching
  infer_instance

/-- A request of node 0 passes the term check of node 1. Node 1 then votes for node 2, accepts its
request and has it counted; only now is the first request appended. -/
def staleAppend : List (Step 3 Nat) :=
  List.flatten [
    winElection 0 1 1 0 0,
    [.requestVote 2 ⟨1, 0, 0, 0⟩, .beginRound 0, .syncLog 0, .choosePoint 0, .send 0 true,
      .appendEntries 1 ⟨1, 0, 1, 0, 0, [⟨1, 1, 0⟩], 0, 0⟩],
    winElection 2 1 2 0 0,
    [.beginRound 2, .syncLog 2, .choosePoint 2, .send 2 false, .send 2 true, .send 2 false,
      .appendEntries 1 ⟨2, 2, 1, 0, 0, [⟨2, 1, 0⟩], 0, 0⟩, .handlerAppend 1 1, .handlerCompact 1 1,
      .handlerReply 1 1, .takeReply 2 ⟨1, 2, 2, 2, true, 1⟩, .handlerAppend 1 0]]

/-- The logs match all along, and node 2 counts node 1 for its entry, which node 1 has replaced. -/
theorem stale_append_breaks_match_index :
    ∃ c : Cluster 3 Nat, Reach (Cluster.step 0) (fun c _ => LogMatching c) Cluster.init c ∧
      LogMatching c ∧ (c.nodes 2).role = .leader ∧ (c.nodes 1).term ≤ (c.nodes 2).term ∧
      Matched c 2 1 1 ∧ ¬ AgreeUpTo (c.nodes 2).log (c.nodes 1).log 1 := by
  refine Reach.exists_of_run (P := fun c => LogMatching c ∧ (c.nodes 2).role = .leader ∧
      (c.nodes 1).term ≤ (c.nodes 2).term ∧ (c.nodes 2).main = .collecting 2 0 ∧
      (c.nodes 2).progress 1 = some ⟨2, 1⟩ ∧ (c.nodes 2).log.entries = [⟨2, 1, 0⟩] ∧
      (c.nodes 1).log.entries = [⟨1, 1, 0⟩] ∧ (c.nodes 2).log.snapshotIndex = 0 ∧
      (c.nodes 1).log.snapshotIndex = 0) staleAppend (by decide +kernel) ?_
  rintro c - ⟨hmatch, hr, hp, hmain, hpr, h2, h1, hs2, hs1⟩
  refine ⟨hmatch, hr, hp, .counted hmain (by decide) hpr, fun hagree => ?_⟩
  obtain ⟨e, he, -, he'⟩ := hagree 1 (by omega) (by omega) le_rfl
  rw [h2, List.mem_singleton] at he
  rw [h1, he] at he'
  exact absurd he' (by decide)

end ElyraSql.Raft
