import ElyraSql.Raft.Safety

/-!
# Committed entries are durable

`replicate_round` syncs the log before it sends and counts. Entries proposed after the sync are
nevertheless shipped by the same round, and the leader counts its own last index for them.
-/

namespace ElyraSql.Raft

open ReplicatedLog Transition NumberLemmas Cluster Function List

variable {N : Nat} {Op : Type} {safe : Prop} {c c' : Cluster N Op}
  {A : State (Fin N) Op} {n : Fin N}

/-- All entries have been written to the file. -/
def RaftLog.Synced (r : RaftLog Op) : Prop := r.entries.length ≤ r.persisted

instance (r : RaftLog Op) : Decidable r.Synced :=
  inferInstanceAs (Decidable (r.entries.length ≤ r.persisted))

theorem RepAt.disk_eq {b : Nat} {r : RaftLog Op} {l d : Log Op} (h : RepAt b r l d)
    (hs : r.Synced) : d = l := by
  refine h.disk_le.eq_of_length (le_antisymm h.disk_le.length_le ?_)
  have hbase := h.base_le.trans h.snap_le
  unfold RaftLog.Synced at hs
  rw [h.entries, h.persisted, length_number, length_drop] at hs
  omega

/-- A quorum that acknowledged an entry of the leader's term has it on disk. -/
theorem Coupled.disk_of_quorum (h : Coupled safe c A) {t j : Nat} (hled : A.led n t)
    (hown : A.Own t j) {Q : Finset (Fin N)} (hQ : Quorum N Q) (hv : ∀ v ∈ Q, v = n ∨ A.ack v t j) :
    ∀ v ∈ Q, v ≠ n → A.upTo t j <+: A.disk v := by
  have hholds : ∀ v ∈ Q, A.Holds v t j := by
    intro v hvQ
    rcases hv v hvQ with rfl | hack
    · exact Or.inr ⟨hled, hown⟩
    · exact Or.inl hack
  intro v hvQ hne
  rcases h.inv.ack_disk v t j ((hv v hvQ).resolve_left hne) with hp | hlack
  · exact hp
  · exact absurd hlack (h.inv.not_lacking (fun _ => quorum_inter hQ) hholds _)

/-! ## Counting -/

/-- What an advance of the commit index leaves as it was. -/
theorem Cluster.advance_nodes {t ci : Nat} (v : Fin N) :
    ((c.stepAdvance n t ci).nodes v).log.file = (c.nodes v).log.file ∧
      ((c.stepAdvance n t ci).nodes v).log.torn = (c.nodes v).log.torn ∧
      ((c.stepAdvance n t ci).nodes v).log.entries = (c.nodes v).log.entries := by
  by_cases hv : v = n
  · subst hv
    simp only [stepAdvance, set, update_self, RaftLog.takeApplicable]
    rcases (c.nodes v).log.maybeCommit_cases ((c.nodes v).matchIndexes v) t with
      heq | ⟨j, -, -, -, heq⟩ <;> simp only [heq, and_self]
  · simp only [stepAdvance, set, update_of_ne hv, and_self]

/-- If nothing stands behind a record that was cut off, a restart reads the file. -/
theorem RaftLog.reopen_clean {r r' : RaftLog Op} (hw : ¬ r.Overrun .clean)
    (hfile : r'.file = r.file) (htorn : r'.torn = r.torn) :
    (r'.reopen .clean).entries = r.file := by
  have hwr : ∀ r : RaftLog Op, r.written .clean = r.file := fun r => append_nil _
  have hw' : ¬ r'.Overrun .clean := by
    rintro ⟨k, hk, hlt⟩
    rw [hwr, hfile, ← hwr r] at hlt
    exact hw ⟨k, htorn ▸ hk, hlt⟩
  obtain ⟨t, ht⟩ := reopen_of_not_overrun hw'
  rw [ht, hwr]
  exact hfile

theorem Cluster.advance_commitIndex {t ci : Nat} :
    ((c.stepAdvance n t ci).nodes n).log.commitIndex =
      ((c.nodes n).log.maybeCommit ((c.nodes n).matchIndexes n) t).commitIndex := by
  simp only [stepAdvance, set, update_self, RaftLog.takeApplicable]

variable [DecidableEq Op]

/-- The entry at the commit index of the node `n` is in the log files of a majority, so that a
restart reads it back. -/
def CommitDurable (c : Cluster N Op) (n : Fin N) : Prop :=
  ∃ e ∈ (c.nodes n).log.entries, e.index = (c.nodes n).log.commitIndex ∧
    Quorum N (Finset.univ.filter fun v => e ∈ ((c.nodes v).log.reopen .clean).entries)

instance (c : Cluster N Op) (n : Fin N) : Decidable (CommitDurable c n) :=
  inferInstanceAs (Decidable (∃ e ∈ (c.nodes n).log.entries, _ ∧ _ < _))

/-- Node 1 crashes in the append of the proposal, and the same request writes its record again,
behind the one cut off. -/
def ackBehindTorn : List (Step 3 Nat) :=
  let round := replicateTo 0 1 ⟨1, 0, 1, 0, 0, [⟨1, 1, 0⟩, ⟨1, 2, 5⟩], 0, 0⟩ true 2
  List.flatten [winElection 0 1 1 0 0, [.propose 0 5, .proposeAppend 0 0], round.take 7,
    [.crash 1 (some 0) ⟨1, true, [], false⟩], (round.drop 6).dropLast]

/-- The copy of node 1 counts, and no restart reads it back. -/
theorem unreadable_copy_counted :
    ∃ c c' : Cluster 3 Nat,
      Reach (step 0) (fun c a => KeepsTerm c a ∧ KeepsFile c a) init c ∧
      c.step 0 (.advance 0) = some c' ∧
      (c.nodes 0).log.commitIndex < (c'.nodes 0).log.commitIndex ∧ (c.nodes 0).log.Synced ∧
      (∀ v, (c.nodes v).log.snapshotIndex ≤ (c.nodes 0).log.commitIndex) ∧
      ¬ CommitDurable c' 0 := by
  exact Reach.exists_step_of_run ackBehindTorn (.advance 0) (by decide +kernel) fun _ _ _ _ h => h

end ElyraSql.Raft
