import ElyraSql.Raft.Safety

/-!
# Election safety

No condition on the steps is needed here: votes are written to the state file before they are
answered, so what a node has voted in a term survives its crashes. The history of votes is not part
of the cluster. The invariant says that one exists, in which each node has at most one vote for each
term, and the vote messages, the counted votes and the leaders are facts of it.
-/

namespace ElyraSql.Raft

open Transition Function Option Node List Reach

variable {N : Nat} {Op : Type} {c c' : Cluster N Op} {n : Fin N} {x x' : Node N Op}
  {ms : List (Msg N Op)} {noop : Op}

/-! ## The election state of a node -/

/-- What a step can do to the election state of the node `n`, and what it sends. -/
inductive BallotStep (net : List (Msg N Op)) (n : Fin N) (x : Node N Op) :
    Node N Op → List (Msg N Op) → Prop
  /-- Term and vote stay. The node may lose its role, the election may end. -/
  | quiet {x' : Node N Op} {ms : List (Msg N Op)} :
      x'.term = x.term → x'.votedFor = x.votedFor →
      (x.saved = (x.term, x.votedFor) → x'.saved = x.saved) →
      (x'.role = .leader → x.role = .leader) →
      (∀ t votes, x'.main = .electing t votes → x.main = .electing t votes) →
      (∀ m, .vote m ∉ ms) → BallotStep net n x x' ms
  /-- A later term is taken over and written to the state file. -/
  | adopt {x' : Node N Op} {t : Nat} :
      x.term < t → x'.term = t → x'.votedFor = none → x'.saved = (t, none) →
      x'.role = .follower →
      (∀ t votes, x'.main = .electing t votes → x.main = .electing t votes) →
      BallotStep net n x x' []
  | stand {ms : List (Msg N Op)} :
      (∀ m, .vote m ∉ ms) → BallotStep net n x (x.standForElection n) ms
  | answer {m : RequestVote N} : .requestVote m ∈ net → m.candidate ≠ n →
      BallotStep net n x (x.onRequestVote m).2
        [.vote ⟨n, m.candidate, m.term, (x.onRequestVote m).2.term, (x.onRequestVote m).1⟩]
  | count {m : VoteReply N} {t : Nat} {votes : List (Fin N)} : x.main = .electing t votes →
      .vote m ∈ net → m.candidate = n → m.requestTerm = t → m.granted = true → m.voter ∉ votes →
      BallotStep net n x { x with main := .electing t (m.voter :: votes) } []
  | win {votes : List (Fin N)} : x.main = .electing x.term votes →
      majority N ≤ votes.length + 1 →
      BallotStep net n x { x with role := .leader, main := .won x.term } []
  | restart {log : RaftLog Op} : BallotStep net n x (Node.start x.saved log) []

theorem BallotStep.of_same {net : List (Msg N Op)} (ht : x'.term = x.term)
    (hv : x'.votedFor = x.votedFor) (hs : x'.saved = x.saved) (hr : x'.role = x.role)
    (hm : ∀ t votes, x'.main = .electing t votes → x.main = .electing t votes)
    (hms : ∀ m, .vote m ∉ ms) : BallotStep net n x x' ms :=
  .quiet ht hv (fun _ => hs) (fun h => hr ▸ h) hm hms

/-- One node steps, the others stay as they are, and messages are only added. -/
structure Cluster.Steps (c : Cluster N Op) (n : Fin N) (x : Node N Op) (ms : List (Msg N Op))
    (c' : Cluster N Op) : Prop where
  nodes : c'.nodes = update c.nodes n x
  net : c'.net = ms ++ c.net

theorem Cluster.steps_set (c : Cluster N Op) (n : Fin N) (x : Node N Op) :
    c.Steps n x [] (c.set n x) := ⟨rfl, rfl⟩

theorem Cluster.steps_post (c : Cluster N Op) (n : Fin N) (x : Node N Op) (ms : List (Msg N Op)) :
    c.Steps n x ms (c.post n x ms) := ⟨rfl, rfl⟩

theorem Cluster.steps_self (c : Cluster N Op) (n : Fin N) : c.Steps n (c.nodes n) [] c :=
  ⟨(update_eq_self n c.nodes).symm, rfl⟩

theorem Cluster.step_ballot [DecidableEq Op] {a : Step N Op} (h : c.step noop a = some c') :
    ∃ n x ms, c.Steps n x ms c' ∧ BallotStep c.net n (c.nodes n) x ms := by
  cases fires_of_step h with
  | startElection => exact ⟨_, _, _, c.steps_post .., .stand (by simp)⟩
  | requestVote hm hne => exact ⟨_, _, _, c.steps_post .., .answer hm hne⟩
  | laterVote hlt => exact ⟨_, _, _, c.steps_set .., .adopt hlt rfl rfl rfl rfl nofun⟩
  | countVote hmain hm hn ht hg hnew =>
    exact ⟨_, _, _, c.steps_set .., .count hmain hm hn ht hg hnew⟩
  | @noVote n =>
    exact ⟨n, _, _, c.steps_self n, .of_same rfl rfl rfl rfl (fun _ _ h => h) nofun⟩
  | win hmain hr hmaj => exact ⟨_, _, _, c.steps_set .., .win hmain hmaj⟩
  | staleEntries =>
    exact ⟨_, _, _, c.steps_post .., .of_same rfl rfl rfl rfl (fun _ _ h => h) (by simp)⟩
  | handlerReply hk =>
    exact ⟨_, _, _, c.steps_post .., .of_same rfl rfl rfl rfl (fun _ _ h => h) (by simp)⟩
  | @send n ship =>
    refine ⟨_, _, _, c.steps_post .., .of_same rfl rfl rfl rfl nofun ?_⟩
    cases ship <;> simp
  | laterReply hlt => exact ⟨_, _, _, c.steps_set .., .adopt hlt rfl rfl rfl rfl nofun⟩
  | advance hmain =>
    refine ⟨_, _, [], ⟨rfl, rfl⟩, .of_same rfl rfl rfl rfl ?_ nofun⟩
    intro t' votes hv
    split_ifs at hv
  | stepDown =>
    exact ⟨_, _, _, c.steps_set .., .quiet rfl rfl (fun _ => rfl) nofun nofun nofun⟩
  | crash | crashCompacting => exact ⟨_, _, _, c.steps_set .., .restart⟩
  | propose | handlerDrain | handlerCompact | takeAck =>
    exact ⟨_, _, [], ⟨rfl, rfl⟩, .of_same rfl rfl rfl rfl (fun _ _ h => h) nofun⟩
  | lose | initProgress | appendNoop | beginRound | syncLog | choosePoint | sent | giveUpRound
  | resolve | compactLog | drain =>
    exact ⟨_, _, [], ⟨rfl, rfl⟩, .of_same rfl rfl rfl rfl nofun nofun⟩
  | @appendEntries n req hm hn hst =>
    refine ⟨_, _, _, c.steps_set .., ?_⟩
    unfold onAppendEntries
    by_cases ht : (c.nodes n).term < req.term
    · simp only [if_pos ht]
      exact .adopt ht rfl rfl rfl rfl (fun _ _ h => h)
    · simp only [if_neg ht]
      exact .quiet rfl rfl (fun hs => hs.symm) (by rintro ⟨⟩) (fun _ _ h => h) (by simp)
  | proposeAppend hk hc =>
    simp only [stepPropose, hk] at hc
    cases hc
    exact ⟨_, _, _, c.steps_set .., .of_same rfl rfl rfl rfl (fun _ _ h => h) (by simp)⟩
  | handlerAppend hk =>
    rw [stepHandlerAppend]
    split <;> exact ⟨_, _, [], ⟨rfl, rfl⟩, .of_same rfl rfl rfl rfl (fun _ _ h => h) (by simp)⟩

/-! ## Votes -/

/-- A history of votes: for each node and term, at most one. -/
abbrev Votes (N : Nat) := Fin N → Nat → Option (Fin N)

/-- Votes of the first history are votes of the second. -/
def Votes.Sub (V V' : Votes N) : Prop := ∀ v t d, V v t = some d → V' v t = some d

variable {V V' : Votes N}

theorem Votes.Sub.trans {V'' : Votes N} (h : V.Sub V') (h' : V'.Sub V'') : V.Sub V'' :=
  fun v t d hd => h' v t d (h v t d hd)

/-- A quorum has voted for the node. -/
def Votes.Elects (V : Votes N) (n : Fin N) (t : Nat) : Prop :=
  ∃ Q, Quorum N Q ∧ ∀ v ∈ Q, V v t = some n

/-- Two nodes elected in one term are the same: their quorums share a voter. -/
theorem Votes.Elects.unique {m : Fin N} {t : Nat} (hn : V.Elects n t) (hm : V.Elects m t) :
    n = m := by
  obtain ⟨Q, hQ, hv⟩ := hn
  obtain ⟨Q', hQ', hv'⟩ := hm
  obtain ⟨v, hvQ, hvQ'⟩ := quorum_inter hQ hQ'
  exact some.inj ((hv v hvQ).symm.trans (hv' v hvQ'))

theorem Votes.Elects.mono {t : Nat} (h : V.Elects n t) (hs : V.Sub V') : V'.Elects n t := by
  obtain ⟨Q, hQ, hv⟩ := h
  exact ⟨Q, hQ, fun v hvQ => hs v t n (hv v hvQ)⟩

/-- The election state of a node is a fact of the history. -/
structure NodeBallot (V : Votes N) (n : Fin N) (x : Node N Op) : Prop where
  vote : V n x.term = x.votedFor
  saved : x.saved = (x.term, x.votedFor)
  later : ∀ t, x.term < t → V n t = none
  electing : ∀ t votes, x.main = .electing t votes →
    V n t = some n ∧ votes.Nodup ∧ n ∉ votes ∧ ∀ p ∈ votes, V p t = some n
  leads : x.role = .leader → V.Elects n x.term

/-- The cluster and a history of its votes. -/
structure Ballots (V : Votes N) (c : Cluster N Op) : Prop where
  nodes : ∀ n, NodeBallot V n (c.nodes n)
  granted : ∀ m, .vote m ∈ c.net → m.granted = true →
    m.voter ≠ m.candidate ∧ V m.voter m.requestTerm = some m.candidate

theorem NodeBallot.mono (h : NodeBallot V n x) (hn : V' n = V n) (hs : V.Sub V') :
    NodeBallot V' n x where
  vote := by
    rw [hn]
    exact h.vote
  saved := h.saved
  later t ht := by
    rw [hn]
    exact h.later t ht
  electing t votes hm := by
    obtain ⟨hv, hnd, hself, hall⟩ := h.electing t votes hm
    exact ⟨hs n t n hv, hnd, hself, fun p hp => hs p t n (hall p hp)⟩
  leads hr := (h.leads hr).mono hs

/-- A step of one node keeps the invariant if the history grows by votes of that node only. -/
theorem Ballots.update (h : Ballots V c) (hc : c.Steps n x ms c') (hs : V.Sub V')
    (hother : ∀ v, v ≠ n → V' v = V v) (hx : NodeBallot V' n x)
    (hms : ∀ m, .vote m ∈ ms → m.granted = true →
      m.voter ≠ m.candidate ∧ V' m.voter m.requestTerm = some m.candidate) : Ballots V' c' where
  nodes v := by
    rw [hc.nodes]
    by_cases hv : v = n
    · subst hv
      rwa [update_self]
    · rw [update_of_ne hv]
      exact (h.nodes v).mono (hother v hv) hs
  granted m hm hg := by
    rw [hc.net] at hm
    rcases mem_append.mp hm with hm | hm
    · exact hms m hm hg
    · obtain ⟨hne, hv⟩ := h.granted m hm hg
      exact ⟨hne, hs _ _ _ hv⟩

/-- The history with a vote of `n` for `d` in the term `t`. -/
def Votes.cast (V : Votes N) (n : Fin N) (t : Nat) (d : Fin N) : Votes N :=
  update V n (update (V n) t (some d))

section Cast

variable {V : Votes N} {t : Nat} {d : Fin N}

open Votes

@[simp] theorem Votes.cast_self : V.cast n t d n t = some d := by
  rw [cast, update_self, update_self]

theorem Votes.cast_of_term_ne {u : Nat} (h : u ≠ t) : V.cast n t d n u = V n u := by
  rw [cast, update_self, update_of_ne h]

theorem Votes.cast_of_ne {v : Fin N} (h : v ≠ n) : V.cast n t d v = V v := by
  rw [cast, update_of_ne h]

theorem Votes.sub_cast (h : V n t = none ∨ V n t = some d) : V.Sub (V.cast n t d) := by
  intro v u e hv
  by_cases hvn : v = n
  · subst hvn
    by_cases hu : u = t
    · subst hu
      rcases h with h | h
      · rw [h] at hv
        exact nomatch hv
      · rw [cast_self, ← h, hv]
    · rw [cast_of_term_ne hu, hv]
  · rw [cast_of_ne hvn, hv]

variable (h : NodeBallot V n x)
include h

theorem NodeBallot.cast (hfree : x.votedFor = none ∨ x.votedFor = some d) :
    NodeBallot (V.cast n x.term d) n { x with votedFor := some d }.persistState := by
  have hs : V.Sub (V.cast n x.term d) := sub_cast (h.vote ▸ hfree)
  refine ⟨cast_self, rfl, fun t ht => ?_, fun t votes hm => ?_, fun hr => (h.leads hr).mono hs⟩
  · rw [cast_of_term_ne (t := x.term) (Nat.ne_of_gt ht)]
    exact h.later t ht
  · obtain ⟨hv, hnd, hself, hall⟩ := h.electing t votes hm
    exact ⟨hs n t n hv, hnd, hself, fun p hp => hs p t n (hall p hp)⟩

theorem NodeBallot.adopt (hlt : x.term < t) (hterm : x'.term = t)
    (hvote : x'.votedFor = none) (hsaved : x'.saved = (t, none)) (hrole : x'.role = .follower)
    (hmain : ∀ t votes, x'.main = .electing t votes → x.main = .electing t votes) :
    NodeBallot V n x' := by
  subst hterm
  refine ⟨?_, by rw [hsaved, hvote], fun u hu => h.later u (hlt.trans hu), fun u votes hm => ?_, ?_⟩
  · rw [h.later _ hlt, hvote]
  · exact h.electing u votes (hmain u votes hm)
  · intro hr
    rw [hrole] at hr
    exact nomatch hr

theorem NodeBallot.stand : NodeBallot (V.cast n (x.term + 1) n) n (x.standForElection n) := by
  refine ⟨cast_self, rfl, fun t ht => ?_, fun t votes hm => ?_, nofun⟩
  · rw [cast_of_term_ne (t := x.term + 1) (Nat.ne_of_gt ht)]
    exact h.later t (Nat.lt_of_succ_lt ht)
  · cases hm
    exact ⟨cast_self, nodup_nil, not_mem_nil, nofun⟩

theorem NodeBallot.elects {votes : List (Fin N)}
    (hmain : x.main = .electing t votes) (hmaj : majority N ≤ votes.length + 1) : V.Elects n t := by
  obtain ⟨hv, hnd, hself, hall⟩ := h.electing t votes hmain
  refine ⟨insert n votes.toFinset, ?_, fun v hvm => ?_⟩
  · unfold Quorum
    rw [Finset.card_insert_of_notMem (by simpa using hself), toFinset_card_of_nodup hnd]
    unfold majority at hmaj
    omega
  · rcases Finset.mem_insert.mp hvm with rfl | hvm
    · exact hv
    · exact hall v (mem_toFinset.mp hvm)

end Cast

/-- A vote is answered with what the node votes from then on. -/
theorem Ballots.answer (h : Ballots V c) {m : RequestVote N} (hne : m.candidate ≠ n)
    (hc : c.Steps n ((c.nodes n).onRequestVote m).2
      [.vote ⟨n, m.candidate, m.term, ((c.nodes n).onRequestVote m).2.term,
        ((c.nodes n).onRequestVote m).1⟩] c') : ∃ V', Ballots V' c' ∧ V.Sub V' := by
  obtain ⟨x₁, hx₁, hb⟩ : ∃ x₁, x₁ = (if (c.nodes n).term < m.term
      then ((c.nodes n).adoptTerm m.term).persistState else c.nodes n) ∧ NodeBallot V n x₁ := by
    by_cases hlt : (c.nodes n).term < m.term
    · refine ⟨_, rfl, ?_⟩
      rw [if_pos hlt]
      exact (h.nodes n).adopt hlt rfl rfl rfl rfl (fun _ _ hm => hm)
    · refine ⟨_, rfl, ?_⟩
      rw [if_neg hlt]
      exact h.nodes n
  rw [onRequestVote_eq m hx₁] at hc
  cases hg : x₁.grants m with
  | false =>
    rw [hg] at hc
    refine ⟨V, h.update hc (fun _ _ _ hd => hd) (fun _ _ => rfl) hb ?_, fun _ _ _ hd => hd⟩
    intro m' hm' hgr
    cases mem_singleton.mp hm'
    exact nomatch hgr
  | true =>
    rw [hg] at hc
    obtain ⟨⟨hmt, hfree⟩, -⟩ : (m.term = x₁.term ∧
        (x₁.votedFor = none ∨ x₁.votedFor = some m.candidate)) ∧
        x₁.log.isUpToDate m.lastLogTerm m.lastLogIndex = true := by
      simpa [grants] using hg
    have hs : V.Sub (V.cast n x₁.term m.candidate) := Votes.sub_cast (hb.vote ▸ hfree)
    refine ⟨_, h.update hc hs (fun v hv => Votes.cast_of_ne hv) (hb.cast hfree) ?_, hs⟩
    intro m' hm' _
    cases mem_singleton.mp hm'
    exact ⟨hne.symm, by rw [hmt]; exact Votes.cast_self⟩

open Cluster

theorem Ballots.step [DecidableEq Op] {a : Step N Op} (h : Ballots V c)
    (hs : c.step noop a = some c') : ∃ V', Ballots V' c' ∧ V.Sub V' := by
  obtain ⟨n, x, ms, hc, hstep⟩ := step_ballot hs
  have hn := h.nodes n
  have keep : NodeBallot V n x → (∀ m, .vote m ∉ ms) → ∃ V', Ballots V' c' ∧ V.Sub V' :=
    fun hx hms => ⟨V, h.update hc (fun _ _ _ hd => hd) (fun _ _ => rfl) hx
      (fun m hm => absurd hm (hms m)), fun _ _ _ hd => hd⟩
  cases hstep with
  | quiet ht hv hsaved hr hmain hms =>
    refine keep ⟨?_, ?_, ?_, fun t votes hm => hn.electing t votes (hmain t votes hm), ?_⟩ hms
    · rw [ht, hv, hn.vote]
    · rw [hsaved hn.saved, hn.saved, ht, hv]
    · rw [ht]
      exact hn.later
    · rw [ht]
      exact fun hr' => hn.leads (hr hr')
  | adopt hlt ht hv hsaved hr hmain => exact keep (hn.adopt hlt ht hv hsaved hr hmain) nofun
  | stand hms =>
    have hsub : V.Sub (V.cast n ((c.nodes n).term + 1) n) :=
      Votes.sub_cast (.inl (hn.later _ (Nat.lt_add_one _)))
    exact ⟨_, h.update hc hsub (fun v hv => Votes.cast_of_ne hv) hn.stand
      (fun m hm => absurd hm (hms m)), hsub⟩
  | answer hm hne => exact h.answer hne hc
  | @count m t votes hmain hm hcand hterm hg hnew =>
    obtain ⟨hv, hnd, hself, hall⟩ := hn.electing t votes hmain
    obtain ⟨hne, hvoter⟩ := h.granted m hm hg
    rw [hcand] at hne hvoter
    rw [hterm] at hvoter
    refine keep ⟨hn.vote, hn.saved, hn.later, fun t' votes' hm' => ?_, hn.leads⟩ nofun
    cases hm'
    refine ⟨hv, nodup_cons.mpr ⟨hnew, hnd⟩, ?_, fun p hp => ?_⟩
    · simp only [mem_cons, not_or]
      exact ⟨hne.symm, hself⟩
    · rcases mem_cons.mp hp with rfl | hp
      · exact hvoter
      · exact hall p hp
  | win hmain hmaj =>
    exact keep ⟨hn.vote, hn.saved, hn.later, nofun, fun _ => hn.elects hmain hmaj⟩ nofun
  | restart =>
    have hterm : (c.nodes n).saved.1 = (c.nodes n).term := by rw [hn.saved]
    refine keep ⟨?_, rfl, fun t ht => hn.later t (hterm ▸ ht), nofun, nofun⟩ nofun
    simp only [hn.saved]
    exact hn.vote

/-! ## One leader for each term -/

theorem ballots_init : Ballots (fun _ _ => none) (init : Cluster N Op) where
  nodes _ := ⟨rfl, rfl, fun _ _ => rfl, nofun, nofun⟩
  granted := nofun

/-- Along a run the history only grows. -/
theorem Ballots.run [DecidableEq Op] {ok : Cluster N Op → Step N Op → Prop} (h : Ballots V c)
    (hr : Reach (Cluster.step noop) ok c c') : ∃ V', Ballots V' c' ∧ V.Sub V' := by
  refine invariant (I := fun c => ∃ V', Ballots V' c ∧ V.Sub V') ⟨V, h, fun _ _ _ hd => hd⟩
    ?_ hr
  rintro s s' a ⟨V₁, hV₁, hsub⟩ - hs
  obtain ⟨V₂, hV₂, hsub'⟩ := hV₁.step hs
  exact ⟨V₂, hV₂, hsub.trans hsub'⟩

/-- In every run, whatever messages are delayed, lost or delivered twice and whichever nodes crash,
the leaders of one term are one node, also if they lead it at different times. -/
theorem election_safety [DecidableEq Op] {noop : Op} {c₁ c₂ : Cluster N Op}
    (h₁ : Reach (Cluster.step noop) (fun _ _ => True) Cluster.init c₁)
    (h₂ : Reach (Cluster.step noop) (fun _ _ => True) c₁ c₂) {n m : Fin N} {t : Nat}
    (hn : (c₁.nodes n).Leads t) (hm : (c₂.nodes m).Leads t) : n = m := by
  obtain ⟨V₁, hV₁, -⟩ := ballots_init.run h₁
  obtain ⟨V₂, hV₂, hsub⟩ := hV₁.run h₂
  have hwin := ((hV₁.nodes n).leads hn.1).mono hsub
  have hwin' := (hV₂.nodes m).leads hm.1
  rw [hn.2] at hwin
  rw [hm.2] at hwin'
  exact hwin.unique hwin'

/-- Node 0 wins term 1 with the vote of node 1; node 2 stands in the same term as well, crashes
and is back. -/
theorem election_safety_split :
    ∃ c₁ c₂ : Cluster 3 Nat, Reach (Cluster.step 0) (fun _ _ => True) Cluster.init c₁ ∧
      Reach (Cluster.step 0) (fun _ _ => True) c₁ c₂ ∧ (c₁.nodes 0).Leads 1 ∧
      (c₂.nodes 0).Leads 1 ∧ ∀ m, (c₂.nodes m).Leads 1 → 0 = m := by
  have hrun : ((run (guarded (Cluster.step 0) fun _ _ => True) (Cluster.init : Cluster 3 Nat)
      (winElection 0 1 1 0 0)).bind fun c₁ =>
        (run (guarded (Cluster.step 0) fun _ _ => True) c₁
          [.startElection 2, .requestVote 1 ⟨1, 2, 0, 0⟩, .crash 2 none .clean]).map fun c₂ =>
            decide ((c₁.nodes 0).Leads 1 ∧ (c₂.nodes 0).Leads 1) && decide ((c₂.nodes 2).term = 1))
      = some true := by
    decide +kernel
  obtain ⟨c₁, hc₁, hrest⟩ := Option.bind_eq_some_iff.mp hrun
  obtain ⟨c₂, hc₂, hd⟩ := Option.map_eq_some_iff.mp hrest
  obtain ⟨hlead₁, hlead₂⟩ := of_decide_eq_true (Bool.and_eq_true_iff.mp hd).1
  exact ⟨c₁, c₂, Reach.of_guarded_run hc₁, Reach.of_guarded_run hc₂, hlead₁, hlead₂, fun m hm =>
    election_safety (Reach.of_guarded_run hc₁) (Reach.of_guarded_run hc₂) hlead₁ hm⟩

/-! ## A vote is given for good -/

/-- In every run, across crashes, a node that has voted in a term does not go back before it and has
no other vote in it, and the state file has the term and the vote of the node. -/
theorem vote_persists [DecidableEq Op] {noop : Op} {c₁ c₂ : Cluster N Op}
    (h₁ : Reach (Cluster.step noop) (fun _ _ => True) Cluster.init c₁)
    (h₂ : Reach (Cluster.step noop) (fun _ _ => True) c₁ c₂) {n d : Fin N}
    (hd : (c₁.nodes n).votedFor = some d) :
    (c₁.nodes n).term ≤ (c₂.nodes n).term ∧
      ((c₂.nodes n).term = (c₁.nodes n).term → (c₂.nodes n).votedFor = some d) ∧
      (c₂.nodes n).saved = ((c₂.nodes n).term, (c₂.nodes n).votedFor) := by
  obtain ⟨V₁, hV₁, -⟩ := ballots_init.run h₁
  obtain ⟨V₂, hV₂, hsub⟩ := hV₁.run h₂
  have hn := hV₂.nodes n
  have hvote : V₂ n (c₁.nodes n).term = some d := hsub n _ d ((hV₁.nodes n).vote.trans hd)
  refine ⟨le_of_not_gt fun hlt => ?_, fun hterm => ?_, hn.saved⟩
  · rw [hn.later _ hlt] at hvote
    cases hvote
  · rw [← hn.vote, hterm, hvote]

/-- Node 1 votes for node 0 in term 1 and crashes. -/
theorem vote_persists_restart :
    ∃ c c' : Cluster 3 Nat, Reach (Cluster.step 0) (fun _ _ => True) Cluster.init c ∧
      c.step 0 (.crash 1 none .clean) = some c' ∧ (c'.nodes 1).votedFor = some 0 :=
  Reach.exists_step_of_run (R := fun c c' => (c.nodes 1).votedFor = some 0 ∧
      (c'.nodes 1).term = (c.nodes 1).term) (winElection 0 1 1 0 0) (.crash 1 none .clean)
    (by decide +kernel) fun _ _ h hs hR => (vote_persists h (.tail .refl trivial hs) hR.1).2.1 hR.2

end ElyraSql.Raft
