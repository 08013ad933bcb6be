import ElyraSql.Library.LogHistory
import ElyraSql.Raft.LogSpec
import ElyraSql.Raft.Node

/-!
# The cluster and its history

A cluster is coupled to a state of the replicated-log protocol: the nodes' logs stand for the
protocol's logs, and every message, handler and program counter only holds facts of the
protocol's history. The history itself is not part of the cluster; that one exists is the
invariant.
-/

namespace ElyraSql.Raft

open ReplicatedLog Function

variable {N : Nat} {Op : Type} {x : Node N Op}

/-- More than half of the nodes. -/
def Quorum (N : Nat) (Q : Finset (Fin N)) : Prop := N < 2 * Q.card

/-- Some stable beginning has length `i`. -/
def StableTo (A : State (Fin N) Op) (i : Nat) : Prop := ∃ q : Log Op, q.length = i ∧ A.Stable q

/-- The first `i` entries of the leader of `t` are committed. -/
def Known (safe : Prop) (A : State (Fin N) Op) (t i : Nat) : Prop :=
  safe → i = 0 ∨ i ≤ (A.llog t).length ∧
    ∃ u j, u ≤ t ∧ A.commit u j ∧ (A.llog t).take i <+: A.upTo u j

/-- An `AppendEntries` was built from a beginning `M` of its leader's log that has an entry of
the leader's term. It carries the entries after the first `c`, and either `c` is the previous
index and comes with its term, or everything up to `c` was compacted and is stable. -/
structure ReqOk (safe : Prop) (A : State (Fin N) Op) (req : AppendEntries N Op) : Prop where
  leader : A.leader req.term = some req.leader
  dest : req.leader ≠ req.dest
  compact : StableTo A req.compactIndex
  known : Known safe A req.term req.leaderCommit
  built : ∃ M c, M <+: A.llog req.term ∧ (A.elog req.term).length < M.length ∧
    req.prevIndex ≤ c ∧ c ≤ M.length ∧ req.entries = number c (M.drop c) ∧
    (c = req.prevIndex ∧ termOf M req.prevIndex = some req.prevTerm ∨
      req.prevTerm = 0 ∧ StableTo A c)

def MsgOk (safe : Prop) (A : State (Fin N) Op) : Msg N Op → Prop
  | .requestVote m => A.vote m.candidate m.term = some m.candidate ∧
      m.lastLogIndex = (A.vlog m.candidate m.term).length ∧
      m.lastLogTerm = lastTerm (A.vlog m.candidate m.term)
  | .vote m => m.granted = true →
      m.voter ≠ m.candidate ∧ A.vote m.voter m.requestTerm = some m.candidate
  | .appendEntries req => ReqOk safe A req
  | .appendAck m => m.success = true → A.ack m.follower m.requestTerm m.matchIndex

/-- Every peer has progress: the next index is not past the leader's log, and the match index was
acknowledged. -/
def ProgressOk (A : State (Fin N) Op) (n : Fin N) (t : Nat) (progress : Fin N → Option Progress) :
    Prop :=
  ∀ p ∈ peers n, ∃ pr, progress p = some pr ∧ 1 ≤ pr.next ∧ pr.next ≤ (A.llog t).length + 1 ∧
    (pr.matched = 0 ∨ A.ack p t pr.matched)

/-- The main loop leads or has led `t`, and nothing since. -/
def LedLast (A : State (Fin N) Op) (n : Fin N) (t : Nat) : Prop :=
  A.led n t ∧ ∀ u, A.leader u = some n → u ≤ t

/-- The leadership of `t` is set up: the no-op is appended and progress is kept. -/
def LeadOk (A : State (Fin N) Op) (n : Fin N) (t : Nat) (progress : Fin N → Option Progress) :
    Prop :=
  LedLast A n t ∧ (A.elog t).length < (A.llog t).length ∧ ProgressOk A n t progress

/-- What the main loop knows at its program counter. -/
def MainOk (safe : Prop) (A : State (Fin N) Op) (n : Fin N) (role : Role) (term : Nat)
    (progress : Fin N → Option Progress) (lastApplied : Nat) : MainLoop N Op → Prop
  | .idle => role = .leader → LeadOk A n term progress
  | .electing t votes => role ≠ .leader ∧ A.vote n t = some n ∧ votes.Nodup ∧ n ∉ votes ∧
      ∀ p ∈ votes, A.vote p t = some n
  | .won t => (role = .leader → term = t) ∧ LedLast A n t
  | .progressSet t => (role = .leader → term = t ∧ ProgressOk A n t progress) ∧ LedLast A n t
  | .syncing t => (role = .leader → term = t) ∧ LeadOk A n t progress
  | .choosing t lc => (role = .leader → term = t ∧ Known safe A t lc) ∧ LeadOk A n t progress ∧
      (∀ p ∈ peers n, ∀ pr, progress p = some pr → pr.matched = 0 ∨ A.ack n t pr.matched) ∧
      (peers n = [] → lastApplied ≤ (A.disk n).length)
  | .sending t lc ci todo => (role = .leader → term = t ∧ Known safe A t lc) ∧
      LeadOk A n t progress ∧ StableTo A ci ∧ ∀ p ∈ todo, p ∈ peers n
  | .collecting t ci => (role = .leader → term = t) ∧ LeadOk A n t progress ∧ StableTo A ci
  | .resolving t ci es => (role = .leader → term = t) ∧ LeadOk A n t progress ∧ StableTo A ci ∧
      ∀ e ∈ es, (A.llog t)[e.index - 1]? = some (e.term, e.data)
  | .compacting ci => (role = .leader → LeadOk A n term progress) ∧ StableTo A ci
  | .draining => role ≠ .leader

/-- What an `AppendEntries` handler knows. -/
def HandlerOk (safe : Prop) (A : State (Fin N) Op) (n : Fin N) (role : Role) (term : Nat) :
    Handler N Op → Prop
  | .drain req => ReqOk safe A req ∧ req.dest = n ∧ req.term ≤ term ∧
      (role = .candidate → req.term < term)
  | .append req => ReqOk safe A req ∧ req.dest = n ∧ req.term ≤ term ∧
      (role = .candidate → req.term < term)
  | .compact req i => ReqOk safe A req ∧ A.ack n req.term i
  | .reply req success i => success = true → A.ack n req.term i

/-- A waiter's operation is the entry its leader put at the waiter's index. -/
def WaiterOk (A : State (Fin N) Op) (w : Nat × Waiter Op) : Prop :=
  (A.llog w.2.term)[w.1 - 1]? = some (w.2.term, w.2.op)

/-- A node and its part of the history. -/
structure NodeOk (safe : Prop) (A : State (Fin N) Op) (n : Fin N) (x : Node N Op) : Prop where
  term : x.term = A.term n
  saved : x.saved = (x.term, x.votedFor)
  vote : A.vote n x.term = x.votedFor
  rep : Rep x.log (A.log n) (A.disk n)
  stable : StableTo A x.log.snapshotIndex
  cidx : x.log.commitIndex = A.cidx n
  cursors : x.log.lastApplied = x.log.commitIndex ∧ x.log.snapshotIndex ≤ x.log.lastApplied
  alone : peers n = [] → x.log.commitIndex ≤ (A.log n).length
  leads : x.role = .leader → A.led n x.term
  stands : x.role = .candidate → 0 < x.term ∧ x.votedFor = some n ∧
    A.vlog n x.term = A.log n ∧ A.leader x.term ≠ some n ∧ ∀ e ∈ A.log n, e.1 < x.term
  main : MainOk safe A n x.role x.term x.progress x.log.lastApplied x.main
  handlers : ∀ h ∈ x.handlers, HandlerOk safe A n x.role x.term h
  pending : ∀ w ∈ x.pending, WaiterOk A w

/-- An entry below a commit of the leader of `t`. -/
def CommittedBy (A : State (Fin N) Op) (t : Nat) (e : LogEntry Op) : Prop :=
  0 < e.index ∧ ∃ i, A.commit t i ∧ e.index ≤ i ∧ (A.llog t)[e.index - 1]? = some (e.term, e.data)

/-- The cluster is coupled to the history. -/
structure Coupled (safe : Prop) (c : Cluster N Op) (A : State (Fin N) Op) : Prop where
  inv : Inv (Quorum N) safe A
  net : ∀ m ∈ c.net, MsgOk safe A m
  nodes : ∀ n, NodeOk safe A n (c.nodes n)
  applied : safe → ∀ a ∈ c.applied, ∃ t, CommittedBy A t a.2
  counted : safe → ∀ a ∈ c.counted, CommittedBy A a.1 a.2
  covered : ∀ n i, 0 < i → i ≤ (c.nodes n).log.lastApplied →
    ∃ e, (n, e) ∈ c.applied ∧ e.index = i

theorem Coupled.mainOk {safe : Prop} {c : Cluster N Op} {A : State (Fin N) Op} {n : Fin N}
    {m : MainLoop N Op} (h : Coupled safe c A) (hmain : (c.nodes n).main = m) :
    MainOk safe A n (c.nodes n).role (c.nodes n).term (c.nodes n).progress
      (c.nodes n).log.lastApplied m :=
  hmain ▸ (h.nodes n).main

/-! ## Facts about the history stay true -/

section Mono

variable {safe : Prop} {A A' : State (Fin N) Op} {n : Fin N} {t : Nat}

theorem stableTo_zero : StableTo A 0 := ⟨[], rfl, Inv.stable_nil⟩

variable {progress : Fin N → Option Progress} (hx : NodeOk safe A n x) (hi : Inv (Quorum N) safe A)
  (hg : Grows A A')

include hg

theorem StableTo.mono {i : Nat} (h : StableTo A i) : StableTo A' i := by
  obtain ⟨q, hq, hs⟩ := h
  exact ⟨q, hq, hg.stable hs⟩

theorem upTo_mono {i : Nat} (h : A.Own t i) : A'.upTo t i = A.upTo t i :=
  hg.take_llog h.2

theorem ProgressOk.mono (h : ProgressOk A n t progress) :
    ProgressOk A' n t progress := by
  intro p hp
  obtain ⟨pr, hpr, h1, hn, hm⟩ := h p hp
  have := (hg.llog t).length_le
  exact ⟨pr, hpr, h1, by omega, hm.imp id hg.ack⟩

theorem WaiterOk.mono {w : Nat × Waiter Op} (h : WaiterOk A w) : WaiterOk A' w :=
  hg.llog_getElem? h

theorem CommittedBy.mono {e : LogEntry Op} (h : CommittedBy A t e) : CommittedBy A' t e := by
  obtain ⟨hpos, i, hc, hi, he⟩ := h
  exact ⟨hpos, i, hg.commit hc, hi, hg.llog_getElem? he⟩

include hi

theorem Known.mono {i : Nat} (h : Known safe A t i) : Known safe A' t i := by
  intro hs
  rcases h hs with h0 | ⟨hle, u, j, hu, hc, hp⟩
  · exact Or.inl h0
  · refine Or.inr ⟨hle.trans (hg.llog t).length_le, u, j, hu, hg.commit hc, ?_⟩
    rw [hg.take_llog hle, upTo_mono hg (hi.committed hs u j hc).1]
    exact hp

theorem ReqOk.mono {req : AppendEntries N Op} (h : ReqOk safe A req) :
    ReqOk safe A' req := by
  refine ⟨hg.leader h.leader, h.dest, h.compact.mono hg, h.known.mono hi hg, ?_⟩
  obtain ⟨M, c, hM, hown, hp, hc, he, hor⟩ := h.built
  refine ⟨M, c, hM.trans (hg.llog _), ?_, hp, hc, he, hor.imp id fun hx => ⟨hx.1, hx.2.mono hg⟩⟩
  rwa [hg.elog (h.leader ▸ Option.some_ne_none _)]

theorem MsgOk.mono {m : Msg N Op} (h : MsgOk safe A m) : MsgOk safe A' m := by
  cases m with
  | requestVote m =>
    obtain ⟨hv, hl, ht⟩ := h
    obtain ⟨hv', hlog⟩ := hg.vote hv
    refine ⟨hv', ?_, ?_⟩
    · rw [hlog]
      exact hl
    · rw [hlog]
      exact ht
  | vote m => exact fun hgr => ⟨(h hgr).1, (hg.vote (h hgr).2).1⟩
  | appendEntries req => exact ReqOk.mono hi hg h
  | appendAck m => exact fun hs => hg.ack (h hs)

theorem HandlerOk.mono {role role' : Role} {term term' : Nat} {h : Handler N Op}
    (hh : HandlerOk safe A n role term h) (hterm : term ≤ term')
    (hrole : role' = .candidate → role = .candidate ∧ term' = term ∨ term < term') :
    HandlerOk safe A' n role' term' h := by
  have hcand : ∀ {t}, t ≤ term → (role = .candidate → t < term) → role' = .candidate →
      t < term' := by
    intro t ht hr hr'
    rcases hrole hr' with ⟨hc, he⟩ | hlt
    · rw [he]
      exact hr hc
    · omega
  cases h with
  | drain req | append req =>
    obtain ⟨hr, hd, ht, hc⟩ := hh
    exact ⟨hr.mono hi hg, hd, ht.trans hterm, hcand ht hc⟩
  | compact req i => exact ⟨hh.1.mono hi hg, hg.ack hh.2⟩
  | reply req success i => exact fun hs => hg.ack (hh hs)

include hx in
theorem NodeOk.handlers_mono : ∀ hd ∈ x.handlers, HandlerOk safe A' n x.role x.term hd :=
  fun hd hmem => (hx.handlers hd hmem).mono hi hg le_rfl fun hr => Or.inl ⟨hr, rfl⟩

variable (hled : ∀ t, A.led n t → A'.led n t)
  (hlead : ∀ u, A'.leader u = some n → A.leader u = some n)

include hled hlead

omit hi hg in
theorem LedLast.mono (h : LedLast A n t) : LedLast A' n t :=
  ⟨hled t h.1, fun u hu => h.2 u (hlead u hu)⟩

theorem LeadOk.mono (h : LeadOk A n t progress) : LeadOk A' n t progress := by
  obtain ⟨hl, hown, hp⟩ := h
  refine ⟨hl.mono hled hlead, ?_, hp.mono hg⟩
  rw [hg.elog ((hi.led_log n t hl.1).1 ▸ Option.some_ne_none _)]
  exact hown.trans_le (hg.llog t).length_le

/-- What the main loop knows survives an extension of the history, the loss of the role and a
later term. -/
theorem MainOk.mono {role role' : Role} {term term' la la' : Nat} {m : MainLoop N Op}
    (h : MainOk safe A n role term progress la m)
    (hrole : role' = .leader → role = .leader ∧ term' = term)
    (hla : peers n = [] → la ≤ (A.disk n).length → la' ≤ (A'.disk n).length) :
    MainOk safe A' n role' term' progress la' m := by
  have hne : role ≠ .leader → role' ≠ .leader := fun hr hr' => hr (hrole hr').1
  have hterm : ∀ {t}, (role = .leader → term = t) → role' = .leader → term' = t :=
    fun hr hr' => (hrole hr').2.trans (hr (hrole hr').1)
  have hknown : ∀ {t lc}, (role = .leader → term = t ∧ Known safe A t lc) → role' = .leader →
      term' = t ∧ Known safe A' t lc := fun hr hr' =>
    ⟨(hrole hr').2.trans (hr (hrole hr').1).1, (hr (hrole hr').1).2.mono hi hg⟩
  have hlok : ∀ {t}, LeadOk A n t progress → LeadOk A' n t progress :=
    fun hl => hl.mono hi hg hled hlead
  have hrlok : (role = .leader → LeadOk A n term progress) → role' = .leader →
      LeadOk A' n term' progress := fun hr hr' => by
    rw [(hrole hr').2]
    exact hlok (hr (hrole hr').1)
  cases m with
  | idle => exact hrlok h
  | electing t votes =>
    obtain ⟨hr, hv, hnd, hn, hvotes⟩ := h
    exact ⟨hne hr, (hg.vote hv).1, hnd, hn, fun p hp => (hg.vote (hvotes p hp)).1⟩
  | won t => exact ⟨hterm h.1, h.2.mono hled hlead⟩
  | progressSet t =>
    exact ⟨fun hr => ⟨hterm (fun hr => (h.1 hr).1) hr, (h.1 (hrole hr).1).2.mono hg⟩,
      h.2.mono hled hlead⟩
  | syncing t => exact ⟨hterm h.1, hlok h.2⟩
  | choosing t lc =>
    obtain ⟨hr, hl, hack, hdisk⟩ := h
    exact ⟨hknown hr, hlok hl, fun p hp pr hpr => (hack p hp pr hpr).imp id hg.ack,
      fun hp => hla hp (hdisk hp)⟩
  | sending t lc ci todo =>
    obtain ⟨hr, hl, hs, htodo⟩ := h
    exact ⟨hknown hr, hlok hl, hs.mono hg, htodo⟩
  | collecting t ci => exact ⟨hterm h.1, hlok h.2.1, h.2.2.mono hg⟩
  | resolving t ci es =>
    obtain ⟨hr, hl, hs, hes⟩ := h
    exact ⟨hterm hr, hlok hl, hs.mono hg, fun e he => hg.llog_getElem? (hes e he)⟩
  | compacting ci => exact ⟨hrlok h.1, h.2.mono hg⟩
  | draining => exact hne h

omit hg hled hlead

theorem NodeOk.mono {m : Fin N} (h : NodeOk safe A n x) (hne : n ≠ m) (hm : Moves m A A') :
    NodeOk safe A' n x where
  term := h.term.trans (hm.term_eq hne).symm
  saved := h.saved
  vote := (hm.vote_eq hne).trans h.vote
  rep := by
    rw [hm.log_eq hne, hm.disk_eq hne]
    exact h.rep
  stable := h.stable.mono hm.toGrows
  cidx := h.cidx.trans (hm.cidx_eq hne).symm
  cursors := h.cursors
  alone hp := by
    rw [hm.log_eq hne]
    exact h.alone hp
  leads hr := (hm.led_iff hne).mpr (h.leads hr)
  stands hr := by
    obtain ⟨hpos, hv, hvl, hl, he⟩ := h.stands hr
    rw [hm.log_eq hne]
    refine ⟨hpos, hv, ?_, fun hx => hl (hm.leader_of hne hx), he⟩
    exact (hm.toGrows.vote (h.vote.trans hv)).2.trans hvl
  main := h.main.mono hi hm.toGrows (fun t => (hm.led_iff hne).mpr) (fun u => hm.leader_of hne)
    (fun hr => ⟨hr, rfl⟩) fun _ hle => by rwa [hm.disk_eq hne]
  handlers := h.handlers_mono hi hm.toGrows
  pending w hw := (h.pending w hw).mono hm.toGrows

end Mono

/-! ## One step of one node -/

/-- A step of the node `n` keeps the coupling if the history moves along with the node, the new
messages are facts of the history, and so are the entries applied and counted. -/
theorem Coupled.update {safe : Prop} {c c' : Cluster N Op} {A A' : State (Fin N) Op}
    (h : Coupled safe c A) {n : Fin N} (hinv : Inv (Quorum N) safe A') (hm : Moves n A A')
    (hx : NodeOk safe A' n x) (hnodes : c'.nodes = update c.nodes n x)
    (hnet : ∀ m ∈ c'.net, m ∈ c.net ∨ MsgOk safe A' m) (hold : ∀ a ∈ c.applied, a ∈ c'.applied)
    (happlied : safe → ∀ a ∈ c'.applied, a ∈ c.applied ∨ ∃ t, CommittedBy A' t a.2)
    (hcounted : safe → ∀ a ∈ c'.counted, a ∈ c.counted ∨ CommittedBy A' a.1 a.2)
    (hcovered : ∀ i, 0 < i → (c.nodes n).log.lastApplied < i → i ≤ x.log.lastApplied →
      ∃ e, (n, e) ∈ c'.applied ∧ e.index = i) : Coupled safe c' A' where
  inv := hinv
  net m hm' := (hnet m hm').elim (fun hin => (h.net m hin).mono h.inv hm.toGrows) id
  nodes v := by
    rw [hnodes]
    by_cases hv : v = n
    · subst hv
      rwa [update_self]
    · rw [update_of_ne hv]
      exact (h.nodes v).mono h.inv hv hm
  applied hs a ha := by
    rcases happlied hs a ha with hin | hnew
    · obtain ⟨t, ht⟩ := h.applied hs a hin
      exact ⟨t, ht.mono hm.toGrows⟩
    · exact hnew
  counted hs a ha := (hcounted hs a ha).elim (fun hin => (h.counted hs a hin).mono hm.toGrows) id
  covered v i hi hle := by
    rw [hnodes] at hle
    have hkeep : i ≤ (c.nodes v).log.lastApplied → ∃ e, (v, e) ∈ c'.applied ∧ e.index = i := by
      intro hle
      obtain ⟨e, he, hei⟩ := h.covered v i hi hle
      exact ⟨e, hold _ he, hei⟩
    by_cases hv : v = n
    · subst hv
      rw [update_self] at hle
      rcases le_or_gt i (c.nodes v).log.lastApplied with hl | hl
      · exact hkeep hl
      · exact hcovered i hi hl hle
    · rw [update_of_ne hv] at hle
      exact hkeep hle

end ElyraSql.Raft
