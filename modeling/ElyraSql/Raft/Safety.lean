import ElyraSql.Raft.Runs

/-!
# Log matching and state-machine safety

The guarantees of the replicated-log protocol are guarantees of every run of the cluster that keeps
its terms and its files. The code does not enforce that, and one run for each guarantee shows what
happens then.
-/

namespace ElyraSql.Raft

open ReplicatedLog Transition Cluster List

variable {N : Nat} {Op : Type} {safe : Prop} {c : Cluster N Op} {A : State (Fin N) Op}

/-! ## Log matching -/

/-- Terms do not decrease along a log. Entries of two logs with one index and term are the same
operation, and the logs agree on every earlier index that both hold. -/
def LogMatching (c : Cluster N Op) : Prop :=
  (∀ n, (c.nodes n).log.entries.Pairwise (·.term ≤ ·.term)) ∧
    ∀ n m, ∀ e ∈ (c.nodes n).log.entries, ∀ e' ∈ (c.nodes m).log.entries,
      e.index = e'.index → e.term = e'.term → e.data = e'.data ∧
        ∀ f ∈ (c.nodes n).log.entries, ∀ f' ∈ (c.nodes m).log.entries,
          f.index = f'.index → f.index < e.index → f = f'

theorem Coupled.sorted (h : Coupled safe c A) (n : Fin N) :
    (c.nodes n).log.entries.Pairwise (·.term ≤ ·.term) := by
  obtain ⟨b, hrep⟩ := (h.nodes n).rep
  have hl := h.inv.from_sorted (h.inv.log_from n)
  rw [hrep.entries, ← pairwise_map (f := LogEntry.term), NumberLemmas.map_term_number, pairwise_map]
  exact hl.sublist (drop_sublist b _)

theorem Coupled.matching (h : Coupled safe c A) {n m : Fin N} {e e' f f' : LogEntry Op}
    (he : e ∈ (c.nodes n).log.entries) (he' : e' ∈ (c.nodes m).log.entries)
    (hi : e.index = e'.index) (ht : e.term = e'.term) (hf : f ∈ (c.nodes n).log.entries)
    (hf' : f' ∈ (c.nodes m).log.entries) (hfi : f.index = f'.index) (hle : f.index ≤ e.index) :
    f = f' := by
  obtain ⟨b, hrep⟩ := (h.nodes n).rep
  obtain ⟨b', hrep'⟩ := (h.nodes m).rep
  obtain ⟨-, hge⟩ := hrep.mem_entries.mp he
  obtain ⟨-, hge'⟩ := hrep'.mem_entries.mp he'
  obtain ⟨-, hgf⟩ := hrep.mem_entries.mp hf
  obtain ⟨-, hgf'⟩ := hrep'.mem_entries.mp hf'
  rw [← hi] at hge'
  rw [← hfi] at hgf'
  have hsame := (h.inv.log_from n).matching (h.inv.log_from m) hge hge' ht
  have hlt : f.index - 1 < e.index - 1 + 1 := by omega
  rw [← getElem?_take_of_lt hlt, hsame, getElem?_take_of_lt hlt] at hgf
  cases f
  cases f'
  simp_all

theorem Coupled.logMatching (h : Coupled safe c A) : LogMatching c := by
  refine ⟨h.sorted, fun n m e he e' he' hi ht => ⟨?_, fun f hf f' hf' hfi hlt => ?_⟩⟩
  · exact congrArg LogEntry.data (h.matching he he' hi ht he he' hi le_rfl)
  · exact h.matching he he' hi ht hf hf' hfi hlt.le

/-- In every run that keeps its terms and its files, the logs match in every state. -/
theorem log_matching [DecidableEq Op] {noop : Op}
    (h : Reach (step noop) (fun c a => KeepsTerm c a ∧ KeepsFile c a) init c) : LogMatching c := by
  obtain ⟨A, hA⟩ := coupled_run False (fun ha => ⟨ha.1, ha.2, False.elim⟩) h
  exact hA.logMatching

/-- The node `n` of three stands in term `t` with a log that ends at index `i` in term `u`, gets
the vote of `v` and appends its no-op. -/
def winElection (n v : Fin 3) (t i u : Nat) : List (Step 3 Nat) :=
  [.startElection n, .requestVote v ⟨t, n, i, u⟩, .voteReply n ⟨v, n, t, t, true⟩,
    .closeElection n, .initProgress n, .appendNoop n]

/-- A round of the leader `n` of three that ships to `p` and gets its request `req` accepted with
the last index `i`. The other follower is not reached. -/
def replicateTo (n p : Fin 3) (req : AppendEntries 3 Nat) (first : Bool) (i : Nat) :
    List (Step 3 Nat) :=
  [.beginRound n, .syncLog n, .choosePoint n, .send n first, .send n !first, .send n false,
    .appendEntries p req, .handlerAppend p 0, .handlerCompact p 0, .handlerReply p 0,
    .takeReply n ⟨p, n, req.term, req.term, true, i⟩, .advance n]

/-- Node 0 leads and has a proposal checked, node 1 takes over and replaces the log of node 0,
and only then is the proposal appended. -/
def staleProposal : List (Step 3 Nat) :=
  flatten [
    winElection 0 1 1 0 0, [.propose 0 5], winElection 1 2 2 0 0,
    [.beginRound 1, .syncLog 1, .choosePoint 1, .send 1 true,
      .appendEntries 0 ⟨2, 1, 0, 0, 0, [⟨2, 1, 0⟩], 0, 0⟩, .handlerDrain 0 0, .handlerAppend 0 0,
      .proposeAppend 0 0]]

/-- The terms along the log of node 0 decrease after a stale proposal. -/
theorem stale_proposal_breaks_matching :
    ∃ c : Cluster 3 Nat, Reach (step 0) (fun _ _ => True) init c ∧
      ¬ LogMatching c := by
  refine Reach.exists_of_run (P := fun c => (c.nodes 0).log.entries = [⟨2, 1, 0⟩, ⟨1, 2, 5⟩])
    staleProposal (by decide +kernel) fun c _ he hm => ?_
  have := hm.1 0
  rw [he] at this
  exact absurd this (by decide)

/-- Node 0 wins and sends a proposal to node 1, which crashes when one of the two records of the
append is on file and half of the other, and reads the first one back. -/
theorem log_matching_tornAppend :
    ∃ c : Cluster 3 Nat, Reach (step 0) (fun c a => KeepsTerm c a ∧ KeepsFile c a) init c ∧
      (c.nodes 0).log.entries = [⟨1, 1, 0⟩, ⟨1, 2, 5⟩] ∧
      (c.nodes 1).log.entries = [⟨1, 1, 0⟩] ∧ (c.nodes 1).log.torn = some 1 ∧ LogMatching c := by
  refine Reach.exists_of_run (P := fun c => (c.nodes 0).log.entries = [⟨1, 1, 0⟩, ⟨1, 2, 5⟩] ∧
      (c.nodes 1).log.entries = [⟨1, 1, 0⟩] ∧ (c.nodes 1).log.torn = some 1)
    (flatten [winElection 0 1 1 0 0, [.propose 0 5, .proposeAppend 0 0, .beginRound 0, .syncLog 0,
      .choosePoint 0, .send 0 true,
      .appendEntries 1 ⟨1, 0, 1, 0, 0, [⟨1, 1, 0⟩, ⟨1, 2, 5⟩], 0, 0⟩,
      .crash 1 (some 0) ⟨1, true, [], false⟩]]) (by decide +kernel) ?_
  rintro c hreach ⟨h₀, h₁, ht⟩
  exact ⟨h₀, h₁, ht, log_matching hreach⟩

/-! ## State-machine safety -/

/-- Entries applied at one index are equal. An entry that a leader counted as committed is in
the log of every leader of a later term, or that leader has applied and compacted it. -/
def StateMachineSafe (c : Cluster N Op) : Prop :=
  (∀ a ∈ c.applied, ∀ b ∈ c.applied, a.2.index = b.2.index → a.2 = b.2) ∧
    ∀ p ∈ c.counted, ∀ n, (c.nodes n).role = .leader → p.1 < (c.nodes n).term →
      p.2 ∈ (c.nodes n).log.entries ∨
        p.2.index ≤ (c.nodes n).log.snapshotIndex ∧ (n, p.2) ∈ c.applied

theorem CommittedBy.unique (hi : Inv (Quorum N) safe A) (hs : safe) {t t' : Nat}
    {e e' : LogEntry Op} (h : CommittedBy A t e) (h' : CommittedBy A t' e')
    (hindex : e.index = e'.index) : e = e' := by
  obtain ⟨hpos, i, hc, hle, hget⟩ := h
  obtain ⟨-, i', hc', hle', hget'⟩ := h'
  rw [← hindex] at hget' hle'
  have hup : (A.upTo t i)[e.index - 1]? = some (e.term, e.data) := by
    rw [State.upTo, getElem?_take_of_lt (by omega), hget]
  have hup' : (A.upTo t' i')[e.index - 1]? = some (e'.term, e'.data) := by
    rw [State.upTo, getElem?_take_of_lt (by omega), hget']
  have hsame : some (e.term, e.data) = some (e'.term, e'.data) := by
    rcases hi.committed_agree hs hc hc' with hp | hp
    · exact (getElem?_of_beginning hp hup).symm.trans hup'
    · exact hup.symm.trans (getElem?_of_beginning hp hup')
  cases e
  simp_all

theorem Coupled.stateMachineSafe (h : Coupled safe c A) (hs : safe) : StateMachineSafe c := by
  refine ⟨fun a ha b hb hi => ?_, fun p hp n hr hlt => ?_⟩
  · obtain ⟨t, ht⟩ := h.applied hs a ha
    obtain ⟨t', ht'⟩ := h.applied hs b hb
    exact ht.unique h.inv hs ht' hi
  · have hcom := h.counted hs p hp
    obtain ⟨hpos, i, hc, hle, hget⟩ := hcom
    have hn := h.nodes n
    obtain ⟨b, hrep⟩ := hn.rep
    obtain ⟨hlead, hlog⟩ := h.inv.led_log n _ (hn.leads hr)
    have hup : (A.upTo p.1 i)[p.2.index - 1]? = some (p.2.term, p.2.data) := by
      rw [State.upTo, getElem?_take_of_lt (by omega), hget]
    have hllog := h.inv.committed_llog hs hc hlt.le (hlead ▸ Option.some_ne_none n)
    rw [← hlog hn.term.symm] at hllog
    by_cases hb : b < p.2.index
    · exact Or.inl (hrep.mem_entries.mpr ⟨hb, getElem?_of_beginning hllog hup⟩)
    · have hsn : p.2.index ≤ (c.nodes n).log.snapshotIndex := (not_lt.mp hb).trans hrep.base_le
      obtain ⟨e, he, hei⟩ := h.covered n p.2.index hpos (hsn.trans hn.cursors.2)
      obtain ⟨t, ht⟩ := h.applied hs _ he
      have heq : e = p.2 := ht.unique h.inv hs (h.counted hs p hp) hei
      exact Or.inr ⟨hsn, heq ▸ he⟩

/-- In every run that keeps its terms and its files and loses no committed entries in a crash,
state-machine safety holds in every state. -/
theorem stateMachine_safe [DecidableEq Op] {noop : Op}
    (h : Reach (step noop) (fun c a => KeepsTerm c a ∧ KeepsFile c a ∧ KeepsCommitted c a)
      init c) : StateMachineSafe c := by
  obtain ⟨A, hA⟩ := coupled_run True (fun ha => ⟨ha.1, ha.2.1, fun _ => ha.2.2⟩) h
  exact hA.stateMachineSafe trivial

/-- Node 0 leads and syncs its log, then takes the proposal 5 and ships it to node 1 in the same
round. -/
def countUnsynced : List (Step 3 Nat) :=
  flatten [
    winElection 0 1 1 0 0,
    [.beginRound 0, .syncLog 0, .propose 0 5, .proposeAppend 0 0, .choosePoint 0, .send 0 true,
      .appendEntries 1 ⟨1, 0, 1, 0, 0, [⟨1, 1, 0⟩, ⟨1, 2, 5⟩], 0, 0⟩, .handlerAppend 1 0,
      .handlerCompact 1 0, .handlerReply 1 0, .send 0 false, .send 0 false,
      .takeReply 0 ⟨1, 0, 1, 1, true, 2⟩]]

/-- Node 0 counts its own copy, which a crash loses. Elected again by node 2, it puts its no-op at
the same index, commits it with node 2 and has node 2 apply it. -/
def unsyncedCount : List (Step 3 Nat) :=
  flatten [
    countUnsynced, [.advance 0, .crash 0 none .clean],
    winElection 0 2 2 1 1,
    [.beginRound 0, .syncLog 0, .choosePoint 0, .send 0 false, .send 0 true,
      .appendEntries 2 ⟨2, 0, 2, 1, 1, [⟨2, 2, 0⟩], 0, 0⟩, .handlerAppend 2 0, .handlerReply 2 0,
      .send 0 false, .takeReply 0 ⟨2, 0, 2, 2, false, 0⟩, .advance 0, .compactLog 0],
    replicateTo 0 2 ⟨2, 0, 2, 0, 0, [⟨1, 1, 0⟩, ⟨2, 2, 0⟩], 0, 0⟩ false 2,
    [.resolve 0 [], .compactLog 0, .beginRound 0, .syncLog 0, .choosePoint 0, .send 0 false,
      .send 0 true, .appendEntries 2 ⟨2, 0, 2, 2, 2, [], 2, 0⟩, .handlerAppend 2 0]]

/-- Two nodes apply different entries at index 2 after a leader lost an entry it had counted. -/
theorem unsynced_count_breaks_safety :
    ∃ c : Cluster 3 Nat, Reach (step 0) (fun _ _ => True) init c ∧
      ¬ StateMachineSafe c := by
  refine Reach.exists_of_run
    (P := fun c => (0, ⟨1, 2, 5⟩) ∈ c.applied ∧ (2, ⟨2, 2, 0⟩) ∈ c.applied) unsyncedCount
    (by decide +kernel) fun c _ ⟨h₀, h₂⟩ hm => ?_
  exact absurd (hm.1 _ h₀ _ h₂ rfl) (by decide)

/-- Node 0 commits a proposal with node 1 and crashes, and node 1 leads the next term. -/
theorem stateMachine_safe_nextLeader :
    ∃ c : Cluster 3 Nat,
      Reach (step 0) (fun c a => KeepsTerm c a ∧ KeepsFile c a ∧ KeepsCommitted c a) init c ∧
      ((1, ⟨1, 2, 5⟩) ∈ c.counted ∧ (c.nodes 1).role = .leader ∧ (c.nodes 1).term = 2) ∧
      StateMachineSafe c := by
  exact Reach.exists_of_run
    (P := fun c => (1, ⟨1, 2, 5⟩) ∈ c.counted ∧ (c.nodes 1).role = .leader ∧ (c.nodes 1).term = 2)
    (flatten [winElection 0 1 1 0 0, [.propose 0 5, .proposeAppend 0 0],
      replicateTo 0 1 ⟨1, 0, 1, 0, 0, [⟨1, 1, 0⟩, ⟨1, 2, 5⟩], 0, 0⟩ true 2, [.crash 0 none .clean],
      winElection 1 2 2 2 1]) (by decide +kernel)
    fun c hreach he => ⟨he, stateMachine_safe hreach⟩

/-- In every run that keeps its terms and its files and loses no committed entries in a crash, two
nodes have applied the same entry, and no node another, at each index that both have reached. -/
theorem applied_agree [DecidableEq Op] {noop : Op}
    (h : Reach (step noop) (fun c a => KeepsTerm c a ∧ KeepsFile c a ∧ KeepsCommitted c a) init c)
    {n m : Fin N} {i : Nat} (hi : 0 < i) (hn : i ≤ (c.nodes n).log.lastApplied)
    (hm : i ≤ (c.nodes m).log.lastApplied) :
    ∃ e, e.index = i ∧ (n, e) ∈ c.applied ∧ (m, e) ∈ c.applied ∧
      ∀ a ∈ c.applied, a.2.index = i → a.2 = e := by
  obtain ⟨A, hA⟩ := coupled_run True (fun ha => ⟨ha.1, ha.2.1, fun _ => ha.2.2⟩) h
  have hsafe := (hA.stateMachineSafe trivial).1
  obtain ⟨e, he, rfl⟩ := hA.covered n i hi hn
  obtain ⟨e', he', hindex⟩ := hA.covered m _ hi hm
  obtain rfl : e' = e := hsafe _ he' _ he hindex
  exact ⟨e', rfl, he, he', fun a ha hindex => hsafe a ha _ he hindex⟩

/-- Node 0 commits its no-op with node 1 and tells it. -/
theorem applied_agree_round :
    ∃ c : Cluster 3 Nat,
      Reach (step 0) (fun c a => KeepsTerm c a ∧ KeepsFile c a ∧ KeepsCommitted c a) init c ∧
      ∃ e, e.index = 1 ∧ (0, e) ∈ c.applied ∧ (1, e) ∈ c.applied ∧
        ∀ a ∈ c.applied, a.2.index = 1 → a.2 = e :=
  Reach.exists_of_run
    (P := fun c => 1 ≤ (c.nodes 0).log.lastApplied ∧ 1 ≤ (c.nodes 1).log.lastApplied)
    (flatten [winElection 0 1 1 0 0, replicateTo 0 1 ⟨1, 0, 1, 0, 0, [⟨1, 1, 0⟩], 0, 0⟩ true 1,
      [.resolve 0 [], .compactLog 0, .beginRound 0, .syncLog 0, .choosePoint 0, .send 0 true,
        .appendEntries 1 ⟨1, 0, 1, 1, 1, [], 1, 0⟩, .handlerAppend 1 0]]) (by decide +kernel)
    fun c h hP => applied_agree h Nat.one_pos hP.1 hP.2

end ElyraSql.Raft
