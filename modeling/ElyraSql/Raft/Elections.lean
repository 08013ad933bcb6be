import ElyraSql.Raft.Coupling

/-!
# Elections

The steps by which a node learns of a term, votes, stands and wins keep the cluster coupled to a
history. Two winners of one term would share a voter, so a term has one leader.
-/

namespace ElyraSql.Raft

open ReplicatedLog Finset State Node List

variable {N : Nat} {Op : Type} {safe : Prop} {c : Cluster N Op} {A A' : State (Fin N) Op}
  {n : Fin N} {x : Node N Op}

/-! ## Steps that send messages and apply nothing -/

section

variable (h : Coupled safe c A) (hinv : Inv (Quorum N) safe A') (hm : Moves n A A')
  (hx : NodeOk safe A' n x) (hla : x.log.lastApplied ≤ (c.nodes n).log.lastApplied)
include h hinv hm hx hla

theorem Coupled.post {ms : List (Msg N Op)} (hms : ∀ m ∈ ms, MsgOk safe A' m) :
    Coupled safe (c.post n x ms) A' :=
  h.update hinv hm hx rfl (fun m hm => (mem_append.mp hm).symm.imp id (hms m))
    (fun _ ha => ha) (fun _ _ ha => Or.inl ha) (fun _ _ ha => Or.inl ha)
    fun _ _ hlt hle => absurd (hle.trans hla) (not_le.mpr hlt)

theorem Coupled.set : Coupled safe (c.set n x) A' :=
  h.post hinv hm hx hla (forall_mem_nil _)

end

theorem Coupled.quiet (h : Coupled safe c A) (hx : NodeOk safe A n x)
    (hla : x.log.lastApplied = (c.nodes n).log.lastApplied) : Coupled safe (c.set n x) A :=
  h.set h.inv (Moves.refl n A) hx hla.le

/-! ## Terms and votes -/

variable {t : Nat}

namespace NodeOk

variable (h : NodeOk safe A n x)
include h

theorem withMain {m : MainLoop N Op}
    (hm : MainOk safe A n x.role x.term x.progress x.log.lastApplied m) :
    NodeOk safe A n { x with main := m } :=
  { h with main := hm }

theorem demote (hi : Inv (Quorum N) safe A) : NodeOk safe A n { x with role := .follower } :=
  { h with
    leads := nofun
    stands := nofun
    main := h.main.mono hi (Grows.refl A) (fun _ => id) (fun _ => id) nofun fun _ => id
    handlers := fun hd hmem => (h.handlers hd hmem).mono hi (Grows.refl A) le_rfl nofun }

theorem adopt (hi : Inv (Quorum N) safe A) (ht : x.term < t) :
    Inv (Quorum N) safe (A.bump n t) ∧ Moves n A (A.bump n t) ∧
      NodeOk safe (A.bump n t) n (x.adoptTerm t).persistState := by
  have hle : A.term n ≤ t := h.term ▸ ht.le
  have hm : Moves n A (A.bump n t) := moves_bump hle
  refine ⟨hi.bump hle, hm, ?_⟩
  exact { h with
    term := by rw [bump_term, if_pos rfl]; rfl
    saved := rfl
    vote := by
      by_contra hne
      have := hi.vote_term n t hne
      rw [← h.term] at this
      omega
    stable := h.stable.mono hm.toGrows
    leads := nofun
    stands := nofun
    main := h.main.mono hi hm.toGrows (fun _ => id) (fun _ => id) nofun fun _ => id
    handlers := fun hd hmem => (h.handlers hd hmem).mono hi hm.toGrows ht.le nofun
    pending := fun w hw => (h.pending w hw).mono hm.toGrows }

theorem grant (hi : Inv (Quorum N) safe A) (hv : x.votedFor = none)
    (c : Fin N) : Moves n A (A.castVote n c) ∧
      NodeOk safe (A.castVote n c) n { x with votedFor := some c }.persistState := by
  have hnone : A.vote n (A.term n) = none := by rw [← h.term, h.vote, hv]
  have hm : Moves n A (A.castVote n c) := moves_castVote hnone
  refine ⟨hm, ?_⟩
  exact { h with
    saved := rfl
    vote := by
      exact if_pos ⟨rfl, h.term⟩
    stable := h.stable.mono hm.toGrows
    stands := fun hr => by
      have := (h.stands hr).2.1
      rw [hv] at this
      exact nomatch this
    main := h.main.mono hi hm.toGrows (fun _ => id) (fun _ => id) (fun hr => ⟨hr, rfl⟩)
      fun _ => id
    handlers := h.handlers_mono hi hm.toGrows
    pending := fun w hw => (h.pending w hw).mono hm.toGrows }

end NodeOk

/-! ## The steps of an election -/

theorem Coupled.startElection (h : Coupled safe c A) :
    ∃ A', Coupled safe (c.post n ((c.nodes n).standForElection n)
      [.requestVote ⟨(c.nodes n).term + 1, n, (c.nodes n).log.lastIndex,
        (c.nodes n).log.lastTerm⟩]) A' := by
  have hn := h.nodes n
  obtain ⟨b, hrep⟩ := hn.rep
  obtain ⟨hi₁, hm₁, hx₁⟩ := hn.adopt h.inv (Nat.lt_add_one (c.nodes n).term)
  obtain ⟨hm₂, hx₂⟩ := hx₁.grant hi₁ rfl n
  have hm := hm₁.trans hm₂
  have hterm : (A.bump n ((c.nodes n).term + 1)).term n = (c.nodes n).term + 1 := by
    rw [bump_term, if_pos rfl]
  have hnone : (A.bump n ((c.nodes n).term + 1)).vote n
      ((A.bump n ((c.nodes n).term + 1)).term n) = none := by
    rw [hterm]
    exact hx₁.vote
  have hi₂ := hi₁.castVote hnone (Or.inl rfl)
  have hvote := hx₂.vote
  have hvlog : ((A.bump n ((c.nodes n).term + 1)).castVote n n).vlog n ((c.nodes n).term + 1) =
      A.log n := by
    rw [castVote_vlog, if_pos ⟨rfl, hterm.symm⟩]
    rfl
  refine ⟨_, h.post (x := (c.nodes n).standForElection n) hi₂ hm ?_ le_rfl ?_⟩
  · refine { hx₂ with
      stands := fun _ => ⟨Nat.succ_pos _, rfl, hvlog, fun hl => ?_, fun e he => ?_⟩
      main := ⟨nofun, hvote, nodup_nil, not_mem_nil, nofun⟩
      handlers := fun hd hmem => (hn.handlers hd hmem).mono h.inv hm.toGrows (Nat.le_succ _)
        fun _ => Or.inr (Nat.lt_succ_self _)
      leads := nofun }
    · have := h.inv.leader_term _ n hl
      rw [← hn.term] at this
      exact absurd this (Nat.not_succ_le_self _)
    · have := h.inv.log_term n e he
      rw [← hn.term] at this
      exact Nat.lt_succ_of_le this
  · intro m hmem
    rw [List.mem_singleton] at hmem
    subst hmem
    refine ⟨hvote, ?_, ?_⟩
    · rw [hvlog]
      exact hrep.lastIndex
    · rw [hvlog]
      exact hrep.lastTerm

/-- `on_request_vote` from the state after the term was taken over. -/
theorem Node.onRequestVote_eq (m : RequestVote N) {x₁ : Node N Op}
    (h₁ : x₁ = if x.term < m.term then (x.adoptTerm m.term).persistState else x) :
    x.onRequestVote m = (x₁.grants m,
      if x₁.grants m then { x₁ with votedFor := some m.candidate }.persistState else x₁) := by
  unfold onRequestVote
  by_cases hlt : x.term < m.term
  · rw [if_pos hlt] at h₁
    have hsame : x₁.grants m = (x.adoptTerm m.term).grants m := h₁ ▸ rfl
    simp only [hlt, if_true]
    rw [hsame, h₁]
    cases (x.adoptTerm m.term).grants m <;> rfl
  · simp only [hlt, if_false, h₁]
    cases x.grants m <;> rfl

/-- A vote request touches the election state only, and makes no leader. -/
theorem Node.onRequestVote_keeps (x : Node N Op) (m : RequestVote N) :
    (x.onRequestVote m).2.log = x.log ∧ (x.onRequestVote m).2.handlers = x.handlers ∧
      (x.onRequestVote m).2.progress = x.progress ∧ (x.onRequestVote m).2.pending = x.pending ∧
      (x.onRequestVote m).2.main = x.main ∧
      ((x.onRequestVote m).2.role = .leader →
        x.role = .leader ∧ (x.onRequestVote m).2.term = x.term) := by
  rw [onRequestVote_eq m rfl]
  by_cases hlt : x.term < m.term
  · split_ifs
    all_goals exact ⟨rfl, rfl, rfl, rfl, rfl, nofun⟩
  · split_ifs
    all_goals exact ⟨rfl, rfl, rfl, rfl, rfl, fun hr => ⟨hr, rfl⟩⟩

variable (h : Coupled safe c A)
include h

theorem Coupled.requestVote {m : RequestVote N}
    (hm : .requestVote m ∈ c.net) (hne : m.candidate ≠ n) :
    ∃ A', Coupled safe (c.post n ((c.nodes n).onRequestVote m).2
      [.vote ⟨n, m.candidate, m.term, ((c.nodes n).onRequestVote m).2.term,
        ((c.nodes n).onRequestVote m).1⟩]) A' := by
  obtain ⟨x₁, A₁, hx₁, hi₁, hm₁, hn₁, hlog₁⟩ : ∃ x₁ A₁,
      x₁ = (if (c.nodes n).term < m.term then ((c.nodes n).adoptTerm m.term).persistState
        else c.nodes n) ∧ Inv (Quorum N) safe A₁ ∧ Moves n A A₁ ∧ NodeOk safe A₁ n x₁ ∧
      x₁.log = (c.nodes n).log := by
    by_cases hlt : (c.nodes n).term < m.term
    · obtain ⟨hi, hmv, hx⟩ := (h.nodes n).adopt h.inv hlt
      exact ⟨_, _, (if_pos hlt).symm, hi, hmv, hx, rfl⟩
    · exact ⟨_, _, (if_neg hlt).symm, h.inv, Moves.refl n A, h.nodes n, rfl⟩
  rw [onRequestVote_eq m hx₁]
  have hreq : MsgOk safe A₁ (.requestVote m) := (h.net _ hm).mono h.inv hm₁.toGrows
  obtain ⟨hcv, hlen, hterm⟩ := hreq
  cases hg : x₁.grants m with
  | false =>
    refine ⟨A₁, h.post hi₁ hm₁ (by simpa using hn₁) (by simp [hlog₁]) ?_⟩
    intro m' hm'
    rw [List.mem_singleton] at hm'
    subst hm'
    exact nofun
  | true =>
    obtain ⟨⟨hmt, hfree⟩, hup⟩ : (m.term = x₁.term ∧
        (x₁.votedFor = none ∨ x₁.votedFor = some m.candidate)) ∧
        x₁.log.isUpToDate m.lastLogTerm m.lastLogIndex = true := by
      simpa [grants] using hg
    have reply : ∀ {A₂ : State (Fin N) Op} {t}, A₂.vote n x₁.term = some m.candidate →
        ∀ m' ∈ [Msg.vote ⟨n, m.candidate, m.term, t, true⟩], MsgOk safe A₂ m' := by
      intro A₂ t hv m' hm'
      rw [List.mem_singleton] at hm'
      subst hm'
      exact fun _ => ⟨hne.symm, by rw [hmt]; exact hv⟩
    rcases hfree with hfree | hfree
    · obtain ⟨hm₂, hn₂⟩ := hn₁.grant hi₁ hfree m.candidate
      obtain ⟨b, hrep⟩ := hn₁.rep
      have hnone : A₁.vote n (A₁.term n) = none := by rw [← hn₁.term, hn₁.vote, hfree]
      rw [hlen, hterm, hrep.isUpToDate, hmt, hn₁.term] at hup
      rw [hmt, hn₁.term] at hcv
      refine ⟨_, h.post (hi₁.castVote hnone (Or.inr ⟨hcv, hup⟩)) (hm₁.trans hm₂) hn₂ ?_ (reply ?_)⟩
      · exact (congrArg RaftLog.lastApplied hlog₁).le
      · exact hn₂.vote
    · -- the vote was given before, so nothing changes
      have hsame : { x₁ with votedFor := some m.candidate }.persistState = x₁ := by
        rw [← hfree]
        unfold persistState
        rw [← hn₁.saved]
      rw [hsame]
      exact ⟨A₁, h.post hi₁ hm₁ hn₁ (congrArg RaftLog.lastApplied hlog₁).le
        (reply (hn₁.vote.trans hfree))⟩

theorem Coupled.stepDownTo {m : MainLoop N Op} (ht : (c.nodes n).term < t)
    (hm : m = .idle ∨ m = .draining) :
    ∃ A', Coupled safe (c.set n ((c.nodes n).stepDownTo t m)) A' := by
  obtain ⟨hi, hmv, hx⟩ := (h.nodes n).adopt h.inv ht
  refine ⟨_, h.set hi hmv (hx.withMain ?_) le_rfl⟩
  rcases hm with rfl | rfl <;> exact nofun

variable {votes : List (Fin N)}

theorem Coupled.countVote {m : VoteReply N}
    (hmain : (c.nodes n).main = .electing t votes) (hm : .vote m ∈ c.net) (hc : m.candidate = n)
    (ht : m.requestTerm = t) (hg : m.granted = true) (hnew : m.voter ∉ votes) :
    Coupled safe (c.set n { c.nodes n with main := .electing t (m.voter :: votes) }) A := by
  have hn := h.nodes n
  obtain ⟨hr, hv, hnd, hself, hvotes⟩ := h.mainOk hmain
  obtain ⟨hne, hvm⟩ := h.net _ hm hg
  rw [hc] at hne hvm
  rw [ht] at hvm
  refine h.quiet (hn.withMain ⟨hr, hv, nodup_cons.mpr ⟨hnew, hnd⟩, ?_, ?_⟩) rfl
  · rw [List.mem_cons, not_or]
    exact ⟨hne.symm, hself⟩
  · intro p hp
    rcases List.mem_cons.mp hp with rfl | hp
    · exact hvm
    · exact hvotes p hp

omit h in
theorem quorum_inter {Q Q' : Finset (Fin N)} (hQ : Quorum N Q) (hQ' : Quorum N Q') :
    ∃ v ∈ Q, v ∈ Q' := by
  have hcard : (univ : Finset (Fin N)).card < Q.card + Q'.card := by
    rw [card_univ, Fintype.card_fin]
    unfold Quorum at hQ hQ'
    omega
  obtain ⟨v, hv⟩ := inter_nonempty_of_card_lt_card_add_card (subset_univ Q)
    (subset_univ Q') hcard
  exact ⟨v, (mem_inter.mp hv).1, (mem_inter.mp hv).2⟩

theorem Coupled.win (hmain : (c.nodes n).main = .electing (c.nodes n).term votes)
    (hr : (c.nodes n).role = .candidate) (hmaj : majority N ≤ votes.length + 1) :
    ∃ A', Coupled safe
      (c.set n { c.nodes n with role := .leader, main := .won (c.nodes n).term }) A' := by
  have hn := h.nodes n
  obtain ⟨-, hv, hnd, hself, hvotes⟩ := h.mainOk hmain
  obtain ⟨hpos, -, hvlog, hlead, hlt⟩ := hn.stands hr
  rw [hn.term] at hv hvotes hpos hvlog hlead hlt
  have hQ : Quorum N (insert n votes.toFinset) := by
    unfold Quorum
    rw [card_insert_of_notMem (by simpa using hself), toFinset_card_of_nodup hnd]
    unfold majority at hmaj
    omega
  have hall : ∀ v ∈ insert n votes.toFinset, A.vote v (A.term n) = some n := by
    intro v hvm
    rcases mem_insert.mp hvm with rfl | hvm
    · exact hv
    · exact hvotes v (mem_toFinset.mp hvm)
  -- another winner of the term would share a voter with this one
  have hnone : A.leader (A.term n) = none := by
    cases hl : A.leader (A.term n) with
    | none => rfl
    | some d =>
      obtain ⟨Q', hQ', hall'⟩ := h.inv.elected _ d hl
      obtain ⟨v, hvQ, hvQ'⟩ := quorum_inter hQ hQ'
      have := (hall v hvQ).symm.trans (hall' v hvQ').1
      cases this
      exact absurd hl hlead
  have hm := moves_elect h.inv hnone
  refine ⟨_, h.set (h.inv.elect hnone hpos hlt hvlog hQ hall) hm ?_ le_rfl⟩
  exact {
    term := hn.term
    saved := hn.saved
    vote := hn.vote
    rep := hn.rep
    stable := hn.stable.mono hm.toGrows
    cidx := hn.cidx
    cursors := hn.cursors
    alone := hn.alone
    leads := fun _ => Or.inl ⟨rfl, hn.term⟩
    stands := nofun
    main := by
      refine ⟨fun _ => rfl, Or.inl ⟨rfl, hn.term⟩, fun u hu => ?_⟩
      rw [elect_leader] at hu
      split_ifs at hu with hut
      · exact hut.le.trans hn.term.ge
      · exact (h.inv.leader_term u n hu).trans hn.term.ge
    handlers := fun hd hmem => (hn.handlers hd hmem).mono h.inv hm.toGrows le_rfl nofun
    pending := fun w hw => (hn.pending w hw).mono hm.toGrows }

theorem Coupled.lose (hmain : (c.nodes n).main = .electing t votes) :
    Coupled safe (c.set n { c.nodes n with main := .idle }) A := by
  have hmo := h.mainOk hmain
  exact h.quiet ((h.nodes n).withMain fun hr => absurd hr hmo.1) rfl

theorem Coupled.initProgress (hmain : (c.nodes n).main = .won t) :
    Coupled safe (c.set n { c.nodes n with
      progress := (c.nodes n).initProgress n, main := .progressSet t }) A := by
  have hn := h.nodes n
  obtain ⟨hterm, hled⟩ := h.mainOk hmain
  obtain ⟨b, hrep⟩ := hn.rep
  refine h.quiet { hn with main := ⟨fun hr => ⟨hterm hr, fun p hp => ?_⟩, hled⟩ } rfl
  have hlog := (h.inv.led_log n t hled.1).2 (hn.term.symm.trans (hterm hr))
  refine ⟨⟨(c.nodes n).log.lastIndex + 1, 0⟩, if_pos hp, Nat.le_add_left 1 _, ?_, Or.inl rfl⟩
  rw [hrep.lastIndex, hlog]

end ElyraSql.Raft
