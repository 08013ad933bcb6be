import ElyraSql.Raft.Elections

/-!
# Appending, accepting and applying

A leader's append and a follower's accepted `AppendEntries` keep the cluster coupled to a
history, and so does the application of committed entries on either side.
-/

namespace ElyraSql.Raft

open ReplicatedLog NumberLemmas List

variable {N k : Nat} {Op : Type} {safe : Prop} {c : Cluster N Op} {A A' : State (Fin N) Op}
  {n : Fin N} {x : Node N Op}

/-! ## One node -/

theorem exists_mem_number {l : Log Op} {la ci i : Nat} (hla : la < i) (hi : i ≤ ci)
    (hci : ci ≤ l.length) : ∃ e ∈ number la ((l.take ci).drop la), e.index = i := by
  have hlt : i - 1 < l.length := by omega
  refine ⟨⟨l[i - 1].1, i, l[i - 1].2⟩, ?_, rfl⟩
  rw [mem_number_drop]
  refine ⟨hla, ?_⟩
  rw [getElem?_take_of_lt (show i - 1 < ci by omega), getElem?_eq_getElem hlt]

theorem RaftLog.advanceCommit_eq (r : RaftLog Op) (lc : Nat) :
    r.advanceCommit lc = { r with commitIndex := max r.commitIndex (min lc r.lastIndex) } := by
  unfold RaftLog.advanceCommit
  dsimp only
  split_ifs with hlt
  · rw [max_eq_right hlt.le]
  · rw [max_eq_left (not_lt.mp hlt)]

variable {req : AppendEntries N Op}

section

variable (h : NodeOk safe A n x) (hi : Inv (Quorum N) safe A)
include hi

/-- The entries up to a commit index of the history are committed. -/
theorem committed_of_known (hs : safe) {la : Nat} {e : LogEntry Op}
    (he : e ∈ number la (((A.log n).take (A.cidx n)).drop la)) : ∃ t, CommittedBy A t e := by
  rw [mem_number_drop] at he
  obtain ⟨hlt, he⟩ := he
  rcases (hi.known hs n).2 with h0 | ⟨t, i, -, hc, hp⟩
  · rw [h0] at he
    exact nomatch he
  · have hup : (A.upTo t i)[e.index - 1]? = some (e.term, e.data) := getElem?_of_beginning hp he
    rw [State.upTo, getElem?_take] at hup
    split_ifs at hup with hei
    exact ⟨t, by omega, i, hc, by omega, hup⟩

/-- The consistency check: a log that has the previous entry agrees with the leader's log up to
the entries sent. -/
theorem agree_of_built {t p pt : Nat} {M : Log Op}
    (hterm : A.term n = t) (hM : M <+: A.llog t) (hown : (A.elog t).length < M.length)
    (hk : k ≤ M.length) (hbuilt : k = p ∧ termOf M p = some pt ∨ pt = 0 ∧ StableTo A k)
    (hcheck : termOf (A.log n) p = some pt) :
    k ≤ (A.log n).length ∧ (A.log n).take k = M.take k := by
  rcases hbuilt with ⟨rfl, hMt⟩ | ⟨rfl, q, rfl, tc, hall, hlead⟩
  · rw [termOf] at hcheck hMt
    by_cases h0 : k = 0
    · subst h0
      exact ⟨Nat.zero_le _, rfl⟩
    · rw [if_neg h0] at hcheck hMt
      obtain ⟨e, he, het⟩ := Option.map_eq_some_iff.mp hcheck
      obtain ⟨e', he', het'⟩ := Option.map_eq_some_iff.mp hMt
      have hlt := (List.getElem?_eq_some_iff.mp he).1
      have := (hi.log_from n).matching ((hi.llog_from t).of_le hM) he he' (het.trans het'.symm)
      rw [show k - 1 + 1 = k by omega] at this
      exact ⟨by omega, this⟩
  · -- the entries before the ones sent are on every disk and in the log of every such leader
    have hlog : q <+: A.log n := (hall n).2.trans (hi.disk_le n)
    have hne : A.leader t ≠ none := hi.leader_ne_none fun hnil => by
      rw [hnil, prefix_nil] at hM
      rw [hM] at hown
      exact absurd hown (Nat.not_lt_zero _)
    have hqM : q <+: M := List.prefix_of_prefix_length_le (hlead t (hterm ▸ (hall n).1) hne) hM hk
    exact ⟨hlog.length_le, (prefix_iff_eq_take.mp hlog).symm.trans (prefix_iff_eq_take.mp hqM)⟩

include h

theorem NodeOk.leaderAppend (hr : x.role = .leader) (op : Op) :
    Inv (Quorum N) safe (A.append n op) ∧ Moves n A (A.append n op) ∧
      NodeOk safe (A.append n op) n { x with log := x.log.leaderAppend x.term op } ∧
      WaiterOk (A.append n op) (x.log.lastIndex + 1, ⟨x.term, op⟩) := by
  have hled : A.led n (A.term n) := h.term ▸ h.leads hr
  have hm := moves_append hi op hled
  have hlog : (A.append n op).log n = A.log n ++ [(x.term, op)] := by
    rw [State.append_log, if_pos rfl, h.term]
  obtain ⟨b, hrep⟩ := h.rep
  refine ⟨hi.append op hled, hm, ?_, ?_⟩
  · exact { h with
      rep := ⟨b, by rw [hlog]; exact hrep.leaderAppend x.term op⟩
      stable := h.stable.mono hm.toGrows
      alone := fun hp => by
        rw [hlog, length_append]
        exact (h.alone hp).trans (Nat.le_add_right _ _)
      stands := fun hc => nomatch hr.symm.trans hc
      main := h.main.mono hi hm.toGrows (fun _ => id) (fun _ => id) (fun hr => ⟨hr, rfl⟩)
        fun _ => id
      handlers := h.handlers_mono hi hm.toGrows
      pending := fun w hw => (h.pending w hw).mono hm.toGrows }
  · rw [WaiterOk, Nat.add_sub_cancel, State.append_llog, if_pos h.term, hrep.lastIndex, ← h.term,
      getElem?_concat_length]

/-- The election state after an `AppendEntries` that is not stale. -/
theorem NodeOk.follow {t : Nat} (ht : ¬ t < x.term) {y : Node N Op}
    (hy : y = (if x.term < t then x.adoptTerm t else { x with role := .follower }).persistState) :
    ∃ A', Inv (Quorum N) safe A' ∧ Moves n A A' ∧ NodeOk safe A' n y ∧ y.term = t ∧
      y.role = .follower ∧ y.log = x.log ∧ y.handlers = x.handlers := by
  by_cases hlt : x.term < t
  · rw [if_pos hlt] at hy
    obtain ⟨hi', hm, hx⟩ := h.adopt hi hlt
    subst hy
    exact ⟨_, hi', hm, hx, rfl, rfl, rfl, rfl⟩
  · rw [if_neg hlt] at hy
    subst hy
    refine ⟨A, hi, Moves.refl n A, { h.demote hi with saved := rfl }, ?_, rfl, rfl, rfl⟩
    exact le_antisymm (not_lt.mp ht) (not_lt.mp hlt)

/-- A node moves both cursors. Only the commits and the commit index of the node change in the
history. -/
theorem NodeOk.apply {C : Nat → Nat → Prop} {D : Fin N → Nat} {i : Nat} {m : MainLoop N Op}
    (hm : Moves n A { A with commit := C, cidx := D }) (hD : D n = i)
    (hci : x.log.commitIndex ≤ i) (hlen : i ≤ (A.log n).length ∨ x.log.commitIndex = i)
    (hmain : MainOk safe { A with commit := C, cidx := D } n x.role x.term x.progress i m) :
    NodeOk safe { A with commit := C, cidx := D } n
      { x with log := { x.log with commitIndex := i, lastApplied := i }, main := m } := by
  obtain ⟨b, hrep⟩ := h.rep
  obtain ⟨hac, hs⟩ := h.cursors
  exact { h with
    rep := ⟨b, hrep.withCursors i i⟩
    stable := h.stable.mono hm.toGrows
    cidx := hD.symm
    cursors := ⟨rfl, (hs.trans hac.le).trans hci⟩
    alone := fun hp => hlen.elim id fun he => he ▸ h.alone hp
    main := hmain
    handlers := h.handlers_mono hi hm.toGrows
    pending := fun w hw => (h.pending w hw).mono hm.toGrows }

/-- A follower in the request's term takes over the leader's log. -/
theorem NodeOk.accept (hreq : ReqOk safe A req) (hd : req.dest = n)
    (ht : x.term = req.term) (hc : x.role ≠ .candidate) {r : RaftLog Op}
    (hr : x.log.appendEntries req.prevIndex req.prevTerm req.entries = some r) :
    r.commitIndex = x.log.commitIndex ∧ r.lastApplied = x.log.lastApplied ∧
      ∃ A', Inv (Quorum N) safe A' ∧ Moves n A A' ∧ NodeOk safe A' n { x with log := r } ∧
        A'.term n = req.term ∧ A'.log n <+: A'.llog req.term ∧
        A'.ack n req.term (A'.log n).length := by
  obtain ⟨M, k, hM, hown, hpk, hkM, hent, hbuilt⟩ := hreq.built
  obtain ⟨b, hrep⟩ := h.rep
  have hterm : A.term n = req.term := by rw [← h.term, ht]
  rw [hent] at hr
  obtain ⟨hci, hla, hsn, l, hrep', htakes⟩ := hrep.appendEntries hpk hkM
    (fun _ hcheck => agree_of_built hi hterm hM hown hkM hbuilt hcheck)
    (fun hk hk' he => (hi.log_from n).matching ((hi.llog_from _).of_le hM) hk hk' he) hr
  rw [← hterm] at hM hown
  have hlead : A.leader (A.term n) ≠ some n := by
    rw [hterm, hreq.leader, ← hd]
    exact fun he => hreq.dest (Option.some.inj he)
  have hpeers : peers n ≠ [] := by
    refine ne_nil_of_mem (a := req.leader) ?_
    simp [peers, ← hd, hreq.dest]
  have hm := moves_accept hi hM hown htakes
  obtain ⟨hle, hlen, -⟩ := hi.takes_spec hM hown htakes
  have hlog : (A.accept n l).log n = l := by rw [State.accept_log, if_pos rfl]
  refine ⟨hci, hla, A.accept n l, hi.accept hlead hM hown htakes, hm, ?_, hterm, ?_, ?_⟩
  · exact { h with
      rep := ⟨b, by rw [State.accept_disk, if_pos rfl, hlog]; exact hrep'⟩
      stable := by
        simp only [hsn]
        exact h.stable.mono hm.toGrows
      cidx := hci.trans h.cidx
      cursors := by
        simp only [hsn, hla, hci]
        exact h.cursors
      alone := fun hp => absurd hp hpeers
      stands := fun hr => absurd hr hc
      main := h.main.mono hi hm.toGrows (fun _ => id) (fun _ => id) (fun hr => ⟨hr, rfl⟩)
        fun hp => absurd hp hpeers
      handlers := h.handlers_mono hi hm.toGrows
      pending := fun w hw => (h.pending w hw).mono hm.toGrows }
  · rw [hlog, ← hterm]
    exact hle
  · rw [hlog]
    exact Or.inr ⟨rfl, hterm.symm, hterm ▸ hown.trans_le hlen, le_rfl⟩

omit hi

theorem NodeOk.setHandler {hd : Handler N Op} (hh : HandlerOk safe A n x.role x.term hd) :
    NodeOk safe A n { x with handlers := x.handlers.set k hd } :=
  { h with
    handlers := fun hd' hmem => (mem_or_eq_of_mem_set hmem).elim (h.handlers hd')
      fun he => he ▸ hh }

/-- What a node takes when it moves its commit index to `i`. -/
theorem NodeOk.takeApplicable {i : Nat} (hci : x.log.commitIndex ≤ i)
    (hlen : i ≤ (A.log n).length ∨ x.log.commitIndex = i) :
    ({ x.log with commitIndex := i } : RaftLog Op).takeApplicable =
      (number x.log.lastApplied (((A.log n).take i).drop x.log.lastApplied),
        { x.log with commitIndex := i, lastApplied := i }) := by
  obtain ⟨b, hrep⟩ := h.rep
  obtain ⟨hac, hs⟩ := h.cursors
  exact RepAt.takeApplicable (r := { x.log with commitIndex := i })
    (hrep.withCursors i x.log.lastApplied) hs (hac.trans_le hci)
    (hlen.imp id fun he => hac.trans he)

end

/-! ## Steps of the cluster -/

variable (h : Coupled safe c A)
include h

theorem Coupled.appendNoop (noop : Op)
    (hmain : (c.nodes n).main = .progressSet (c.nodes n).term)
    (hr : (c.nodes n).role = .leader) :
    ∃ A', Coupled safe (c.set n { c.nodes n with
      log := (c.nodes n).log.leaderAppend (c.nodes n).term noop, main := .idle }) A' := by
  have hn := h.nodes n
  obtain ⟨hi, hm, hx, -⟩ := hn.leaderAppend h.inv hr noop
  have hmo := hx.main
  simp only [hmain] at hmo
  obtain ⟨hp, hled⟩ := hmo
  refine ⟨_, h.set hi hm (hx.withMain fun _ => ⟨hled, ?_, (hp hr).2⟩) le_rfl⟩
  have hlog := (h.inv.led_log n _ (hn.leads hr)).2 hn.term.symm
  have hle := (h.inv.elog_le (c.nodes n).term).length_le
  rw [State.append_llog, if_pos hn.term, length_append, hlog]
  exact Nat.lt_succ_of_le hle

theorem Coupled.proposeAppend {op : Op} (hr : (c.nodes n).role = .leader)
    (hk : (c.nodes n).proposals[k]? = some ((c.nodes n).term, op)) :
    ∃ A' c', c.stepPropose n k = some c' ∧ Coupled safe c' A' := by
  have hn := h.nodes n
  obtain ⟨hi, hm, hx, hw⟩ := hn.leaderAppend h.inv hr op
  simp only [Cluster.stepPropose, hk]
  refine ⟨_, _, rfl, h.set hi hm { hx with pending := fun w hmem => ?_ } le_rfl⟩
  rcases mem_cons.mp hmem with rfl | hmem
  · exact hw
  · exact hx.pending w (mem_of_mem_filter hmem)

theorem Coupled.appendEntries (hmem : .appendEntries req ∈ c.net) (hd : req.dest = n)
    (ht : ¬ req.term < (c.nodes n).term) :
    ∃ A', Coupled safe (c.set n ((c.nodes n).onAppendEntries req)) A' := by
  obtain ⟨y, hydef⟩ : ∃ y, y = (if (c.nodes n).term < req.term then (c.nodes n).adoptTerm req.term
    else { c.nodes n with role := .follower }).persistState := ⟨_, rfl⟩
  obtain ⟨A', hi, hm, hy, hterm, hrole, hlog, hhs⟩ := (h.nodes n).follow h.inv ht hydef
  have hon : (c.nodes n).onAppendEntries req = { y with handlers := (c.nodes n).handlers ++
      [if (c.nodes n).role = .leader then .drain req else .append req] } := hydef ▸ rfl
  rw [hon]
  refine ⟨A', h.set hi hm { hy with handlers := fun hd' hin => ?_ } ?_⟩
  · have hnew : ReqOk safe A' req ∧ req.dest = n ∧ req.term ≤ req.term ∧
        (Role.follower = .candidate → req.term < req.term) :=
      ⟨(h.net _ hmem).mono h.inv hm.toGrows, hd, le_rfl, nofun⟩
    rcases mem_append.mp hin with hold | hnewh
    · exact hy.handlers hd' (hhs ▸ hold)
    · rw [mem_singleton] at hnewh
      subst hnewh
      simp only [hrole, hterm]
      split_ifs
      · exact hnew
      · exact hnew
  · exact (congrArg RaftLog.lastApplied hlog).le

theorem Coupled.handlerDrain (hk : (c.nodes n).handlers[k]? = some (.drain req)) :
    Coupled safe (c.stepHandler n k (.drain req)) A := by
  have hn := h.nodes n
  have hh : HandlerOk safe A n (c.nodes n).role (c.nodes n).term (.append req) :=
    hn.handlers (.drain req) (mem_of_getElem? hk)
  exact h.quiet { hn.setHandler (k := k) hh with pending := nofun } rfl

/-- A step that applies the entries up to the commit index and counts entries as committed. -/
theorem Coupled.apply (es : List (LogEntry Op))
    (cs : List (Nat × LogEntry Op)) (hinv : Inv (Quorum N) safe A') (hm : Moves n A A')
    (hx : NodeOk safe A' n x)
    (hlen : x.log.commitIndex ≤ (A'.log n).length ∨ (c.nodes n).log.lastApplied = x.log.commitIndex)
    (hes : es = number (c.nodes n).log.lastApplied
      (((A'.log n).take x.log.commitIndex).drop (c.nodes n).log.lastApplied))
    (hcs : safe → ∀ a ∈ cs, CommittedBy A' a.1 a.2) :
    Coupled safe { c.set n x with
      applied := es.map (n, ·) ++ c.applied, counted := cs ++ c.counted } A' := by
  refine h.update hinv hm hx rfl (fun m hm => Or.inl hm)
    (fun a ha => mem_append_right _ ha) (fun hs a ha => ?_) (fun hs a ha => ?_)
    fun i _ hlt hle => ?_
  · rcases mem_append.mp ha with hnew | hold
    · obtain ⟨e, he, rfl⟩ := mem_map.mp hnew
      rw [hes, hx.cidx] at he
      exact Or.inr (committed_of_known hinv hs he)
    · exact Or.inl hold
  · exact (mem_append.mp ha).symm.imp id (hcs hs a)
  · rw [hx.cursors.1] at hle
    obtain ⟨e, he, hei⟩ := exists_mem_number hlt hle (hlen.resolve_right (by omega))
    exact ⟨e, mem_append_left _ (mem_map.mpr ⟨e, hes ▸ he, rfl⟩), hei⟩

theorem Coupled.handlerAppend (hk : (c.nodes n).handlers[k]? = some (.append req))
    (ht : (c.nodes n).term = req.term) :
    ∃ A', Coupled safe (c.stepHandler n k (.append req)) A' := by
  have hn := h.nodes n
  obtain ⟨hreq, hd, -, hcand⟩ := hn.handlers _ (mem_of_getElem? hk)
  have hc : (c.nodes n).role ≠ .candidate := fun hc => absurd (hcand hc) (by omega)
  simp only [Cluster.stepHandler, Cluster.stepHandlerAppend]
  cases hr : (c.nodes n).log.appendEntries req.prevIndex req.prevTerm req.entries with
  | none => exact ⟨A, h.quiet (hn.setHandler nofun) rfl⟩
  | some r =>
    obtain ⟨hci, hla, A₁, hi₁, hm₁, hn₁, hterm, hle, hack⟩ := hn.accept h.inv hreq hd ht hc hr
    obtain ⟨b, hrep₁⟩ := hn₁.rep
    have hlast : r.lastIndex = (A₁.log n).length := hrep₁.lastIndex
    have hpeers : peers n ≠ [] := by
      refine ne_nil_of_mem (a := req.leader) ?_
      simp [peers, ← hd, hreq.dest]
    have hcidx : A₁.cidx n = r.commitIndex := hn₁.cidx.symm
    simp only [RaftLog.advanceCommit_eq, hlast]
    generalize hidef : max r.commitIndex (min req.leaderCommit (A₁.log n).length) = i
    have hri : r.commitIndex ≤ i := hidef ▸ le_max_left _ _
    have hlen : i ≤ (A₁.log n).length ∨ r.commitIndex = i := by omega
    -- the new commit index is the old one, or known from the leader
    have hknown : safe → i ≤ (A₁.log n).length ∧ (i = 0 ∨ ∃ t j, t ≤ A₁.term n ∧
        A₁.commit t j ∧ (A₁.log n).take i <+: A₁.upTo t j) := by
      intro hs
      rcases hlen with hlen | hlen
      · refine ⟨hlen, ?_⟩
        by_cases hie : r.commitIndex = i
        · exact hie ▸ hcidx ▸ (hi₁.known hs n).2
        · rcases hreq.known.mono h.inv hm₁.toGrows hs with h0 | ⟨-, u, j, hu, hcom, hp⟩
          · omega
          · refine Or.inr ⟨u, j, hterm ▸ hu, hcom, List.IsPrefix.trans ?_ hp⟩
            exact List.prefix_of_prefix_length_le ((List.take_prefix _ _).trans hle)
              (List.take_prefix _ _)
              (by rw [length_take, length_take]; have := hle.length_le; omega)
      · exact hlen ▸ hcidx ▸ hi₁.known hs n
    have hm₂ : Moves n A₁ (A₁.learn n i) := moves_learn n i
    have hi₂ := hi₁.learn (hcidx.trans_le hri) hknown
    have htake := hn₁.takeApplicable hri hlen
    have hn₂ := hn₁.apply (C := A₁.commit) hi₁ hm₂ (by simp) hri hlen
      (hn₁.main.mono hi₁ hm₂.toGrows (fun _ => id) (fun _ => id) (fun hr => ⟨hr, rfl⟩)
        fun hp => absurd hp hpeers)
    have hlast' : ({ r with commitIndex := i } : RaftLog Op).lastIndex = (A₁.log n).length := hlast
    have hnew : HandlerOk safe (A₁.learn n i) n (c.nodes n).role (c.nodes n).term
        (.compact req { r with commitIndex := i }.lastIndex) := by
      refine ⟨(hreq.mono h.inv hm₁.toGrows).mono hi₁ hm₂.toGrows, ?_⟩
      rw [hlast']
      exact hack
    simp only [htake]
    refine ⟨A₁.learn n i, h.apply _ [] hi₂ (hm₁.trans hm₂) (hn₂.setHandler hnew) ?_ ?_ nofun⟩
    · exact hlen.imp id fun he => hn.cursors.1.trans (hci.symm.trans he)
    · simp only [hla]
      rfl

end ElyraSql.Raft
