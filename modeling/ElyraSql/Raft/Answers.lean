import ElyraSql.Raft.Safety

/-!
# What a client is told

`propose` returns once the entry at its index is applied on the node. The waiters of a node are
failed on most ways out of its leadership, but not when `on_request_vote` takes a later term, so a
node can be elected again with old waiters.
-/

namespace ElyraSql.Raft

open ReplicatedLog Transition Cluster List

variable {N : Nat} {Op : Type} {c c' : Cluster N Op} {n : Fin N} {x y : Node N Op}
  {A : State (Fin N) Op}

/-- Every acknowledged proposal is the entry applied at its index, in the proposal's term. -/
def OwnAnswers (c : Cluster N Op) : Prop :=
  ∀ a ∈ c.answered, a.ok = true → a.entry.index = a.index ∧ a.entry.data = a.waiter.op ∧
    a.entry.term = a.waiter.term ∧ (a.node, a.entry) ∈ c.applied

/-! ## The waiters of a node -/

/-- The term of the round the main loop is in. -/
def MainLoop.roundTerm : MainLoop N Op → Option Nat
  | .syncing t => some t
  | .choosing t _ => some t
  | .sending t _ _ _ => some t
  | .collecting t _ => some t
  | .resolving t _ _ => some t
  | _ => none

/-- The waiters are of the term the node leads, and of the round it is in. -/
structure WaitsOk (x : Node N Op) : Prop where
  leader : x.role = .leader → ∀ w ∈ x.pending, w.2.term = x.term
  round : ∀ t ∈ x.main.roundTerm, ∀ w ∈ x.pending, w.2.term = t

/-- A node that gains no waiters, keeps its term as long as it leads and starts a round only in
its term. -/
theorem WaitsOk.mono (h : WaitsOk x) (hp : ∀ w ∈ y.pending, w ∈ x.pending)
    (hr : y.role = .leader → x.role = .leader ∧ y.term = x.term)
    (hm : ∀ t ∈ y.main.roundTerm, t ∈ x.main.roundTerm ∨ x.Leads t) : WaitsOk y where
  leader hl w hw := by
    obtain ⟨hx, ht⟩ := hr hl
    rw [ht]
    exact h.leader hx w (hp w hw)
  round t ht w hw := by
    rcases hm t ht with hold | ⟨hx, rfl⟩
    · exact h.round t hold w (hp w hw)
    · exact h.leader hx w (hp w hw)

theorem WaitsOk.of_nil (h : y.pending = []) : WaitsOk y where
  leader _ w hw := by
    rw [h] at hw
    exact nomatch hw
  round _ _ w hw := by
    rw [h] at hw
    exact nomatch hw

theorem NodeOk.roundTerm {safe : Prop} (h : NodeOk safe A n x) (hr : x.role = .leader) {t : Nat}
    (ht : t ∈ x.main.roundTerm) : x.term = t := by
  have hmo := h.main
  cases hm : x.main <;> rw [hm] at hmo ht <;> cases ht
  · exact hmo.1 hr
  · exact (hmo.1 hr).1
  · exact (hmo.1 hr).1
  · exact hmo.1 hr
  · exact hmo.1 hr

/-! ## The waiters of a cluster -/

/-- The waiters are in order, the entries of a round that is about to answer are applied, and the
answers so far were right. -/
structure Answers (c : Cluster N Op) : Prop where
  nodes : ∀ n, WaitsOk (c.nodes n)
  taken : ∀ n t ci es, (c.nodes n).main = .resolving t ci es → ∀ e ∈ es, (n, e) ∈ c.applied
  own : OwnAnswers c

namespace Answers

variable (h : Answers c)
include h

variable (hnodes : c'.nodes = Function.update c.nodes n x)
  (happlied : ∀ a ∈ c.applied, a ∈ c'.applied)
include hnodes happlied

theorem update (hx : WaitsOk x)
    (htaken : ∀ t ci es, x.main = .resolving t ci es → ∀ e ∈ es, (n, e) ∈ c'.applied)
    (hown : ∀ a ∈ c'.answered, a ∈ c.answered ∨ a.entry.index = a.index ∧
      a.entry.data = a.waiter.op ∧ a.entry.term = a.waiter.term ∧
      (a.node, a.entry) ∈ c'.applied) : Answers c' where
  nodes v := by
    rw [hnodes]
    by_cases hv : v = n
    · subst hv
      rwa [Function.update_self]
    · rw [Function.update_of_ne hv]
      exact h.nodes v
  taken v t ci es hmain e he := by
    rw [hnodes] at hmain
    by_cases hv : v = n
    · subst hv
      rw [Function.update_self] at hmain
      exact htaken t ci es hmain e he
    · rw [Function.update_of_ne hv] at hmain
      exact happlied _ (h.taken v t ci es hmain e he)
  own a ha hok := by
    rcases hown a ha with hold | hnew
    · obtain ⟨hi, hd, ht, hap⟩ := h.own a hold hok
      exact ⟨hi, hd, ht, happlied _ hap⟩
    · exact hnew

variable (hanswered : c'.answered = c.answered)
include hanswered

theorem quiet (hx : WaitsOk x)
    (hmain : ∀ t ci es, x.main = .resolving t ci es → (c.nodes n).main = .resolving t ci es) :
    Answers c' :=
  h.update hnodes happlied hx
    (fun t ci es hr e he => happlied _ (h.taken n t ci es (hmain t ci es hr) e he))
    fun _ ha => Or.inl (hanswered ▸ ha)

/-- A step that leaves the waiters, the main loop and the election state of its node alone. -/
theorem same (hp : x.pending = (c.nodes n).pending) (hr : x.role = (c.nodes n).role)
    (ht : x.term = (c.nodes n).term) (hm : x.main = (c.nodes n).main) : Answers c' := by
  refine h.quiet hnodes happlied hanswered
    ((h.nodes n).mono (fun w hw => hp ▸ hw) (fun hl => ⟨hr ▸ hl, ht⟩)
    fun t hrt => Or.inl (hm ▸ hrt)) fun t ci es hmain => ?_
  rwa [hm] at hmain

/-- A step that leaves the waiters and the election state alone and moves the main loop on, to
where it is not about to answer. -/
theorem moveOn (hp : x.pending = (c.nodes n).pending) (hr : x.role = (c.nodes n).role)
    (ht : x.term = (c.nodes n).term)
    (hm : ∀ t ∈ x.main.roundTerm, t ∈ (c.nodes n).main.roundTerm ∨ (c.nodes n).Leads t)
    (hres : ∀ t ci es, x.main ≠ .resolving t ci es) : Answers c' :=
  h.quiet hnodes happlied hanswered
    ((h.nodes n).mono (fun _ hw => hp ▸ hw) (fun hl => ⟨hr ▸ hl, ht⟩) hm)
    fun t ci es hmain => absurd hmain (hres t ci es)

omit hnodes happlied hanswered

theorem advance {t ci : Nat} (hmain : (c.nodes n).main = .collecting t ci) :
    Answers (c.stepAdvance n t ci) := by
  simp only [stepAdvance]
  generalize ((c.nodes n).log.maybeCommit ((c.nodes n).matchIndexes n) t).takeApplicable = r
  have hround : ∀ u ∈ (if r.1.isEmpty then MainLoop.compacting ci
      else MainLoop.resolving t ci r.1 : MainLoop N Op).roundTerm,
      u ∈ (c.nodes n).main.roundTerm ∨ (c.nodes n).Leads u := by
    intro u hu
    split_ifs at hu
    · cases hu
    · exact Or.inl (by rw [hmain]; exact hu)
  refine h.update rfl (fun _ => mem_append_right _)
    ((h.nodes n).mono (fun _ => id) (fun hr => ⟨hr, rfl⟩) hround) (fun u ci' es hres e he => ?_)
      fun _ ha => Or.inl ha
  split_ifs at hres
  cases hres
  exact mem_append_left _ (mem_map.mpr ⟨e, he, rfl⟩)

/-- The round answers its waiters: their entries are those of the log of the round's term. -/
theorem resolve (hA : Coupled False c A) {t ci : Nat} {es : List (LogEntry Op)}
    (hmain : (c.nodes n).main = .resolving t ci es) (failed : List Nat) :
    Answers (c.stepResolve n ci es failed) := by
  have hn := hA.nodes n
  obtain ⟨-, -, -, hes⟩ := hA.mainOk hmain
  have hx : WaitsOk { c.nodes n with
      pending := (c.nodes n).pending.filter fun w => w.1 ∉ es.map (·.index)
      main := .compacting ci } :=
    (h.nodes n).mono (fun _ => mem_of_mem_filter) (fun hr => ⟨hr, rfl⟩) nofun
  refine h.update rfl (fun _ => id) hx nofun fun a ha => ?_
  rcases mem_append.mp ha with hnew | hold
  · obtain ⟨e, he, hw⟩ := mem_filterMap.mp hnew
    obtain ⟨w, hlook, rfl⟩ := Option.map_eq_some_iff.mp hw
    obtain ⟨p, hfind, rfl⟩ := Option.map_eq_some_iff.mp hlook
    have hmem := mem_of_find?_eq_some hfind
    have hidx : p.1 = e.index := by simpa using find?_some hfind
    have hterm : p.2.term = t := (h.nodes n).round t (by rw [hmain]; rfl) p hmem
    have hwait := hn.pending p hmem
    rw [WaiterOk, hterm, hidx, hes e he] at hwait
    obtain ⟨het, hed⟩ := Prod.mk.inj (Option.some.inj hwait)
    exact Or.inr ⟨rfl, hed, het.trans hterm.symm, h.taken n t ci es hmain e he⟩
  · exact Or.inl hold

variable [DecidableEq Op] {noop : Op}

theorem step (hA : Coupled False c A) {a : Step N Op} (hterm : KeepsTerm c a)
    (hwin : WinsDrained c a) (hs : c.step noop a = some c') : Answers c' := by
  cases fires_of_step hs with
  | @requestVote n m =>
    obtain ⟨-, -, -, hp, hm, hr⟩ := (c.nodes n).onRequestVote_keeps m
    refine h.quiet rfl (fun _ => id) rfl
      ((h.nodes n).mono (fun w hw => hp ▸ hw) hr fun t ht => Or.inl (hm ▸ ht))
      fun t ci es hmain => ?_
    rwa [hm] at hmain
  | noVote => exact h
  | @win n votes hmain hr hmaj =>
    have hnil := hwin (by rw [Node.wins, hmain]; exact decide_eq_true ⟨hr, rfl, hmaj⟩)
    exact h.quiet rfl (fun _ => id) rfl (WaitsOk.of_nil hnil) nofun
  | handlerDrain => exact h.quiet rfl (fun _ => id) rfl (WaitsOk.of_nil rfl) fun _ _ _ => id
  | beginRound hmain hr =>
    exact h.moveOn rfl (fun _ => id) rfl rfl rfl rfl
      (fun t ht => Or.inr ⟨hr, Option.some.inj ht⟩) nofun
  | advance hmain => exact h.advance hmain
  | resolve hmain => exact h.resolve hA hmain _
  | propose | staleEntries | handlerCompact | handlerReply | takeAck =>
    exact h.same rfl (fun _ => id) rfl rfl rfl rfl rfl
  | startElection | laterVote | laterReply | stepDown =>
    exact h.quiet rfl (fun _ => id) rfl ((h.nodes _).mono (fun _ => id) nofun nofun) nofun
  | countVote | lose | initProgress | appendNoop | giveUpRound | compactLog =>
    exact h.moveOn rfl (fun _ => id) rfl rfl rfl rfl nofun nofun
  | syncLog hmain | choosePoint hmain | send hmain | sent hmain =>
    exact h.moveOn rfl (fun _ => id) rfl rfl rfl rfl
      (fun t ht => Or.inl (by rw [hmain]; exact ht)) nofun
  | drain | crash | crashCompacting =>
    exact h.quiet rfl (fun _ => id) rfl (WaitsOk.of_nil rfl) nofun
  | @appendEntries n req =>
    have hkeep : ((c.nodes n).onAppendEntries req).pending = (c.nodes n).pending ∧
        ((c.nodes n).onAppendEntries req).main = (c.nodes n).main ∧
        ((c.nodes n).onAppendEntries req).role = .follower := by
      unfold Node.onAppendEntries
      split_ifs <;> exact ⟨rfl, rfl, rfl⟩
    obtain ⟨hp, hm, hr⟩ := hkeep
    refine h.quiet rfl (fun _ => id) rfl ((h.nodes n).mono (fun w hw => hp ▸ hw)
      (fun hl => by cases hr.symm.trans hl) fun t ht => Or.inl (hm ▸ ht)) fun t ci es hmain => ?_
    rwa [hm] at hmain
  | @proposeAppend n k t op c' hk hc =>
    obtain ⟨hr, rfl⟩ := hterm (t, op) hk
    simp only [stepPropose, hk] at hc
    cases hc
    have hold := h.nodes n
    refine h.quiet rfl (fun _ => id) rfl ⟨fun _ w hw => ?_, fun t ht w hw => ?_⟩ fun _ _ _ => id
    · rcases mem_cons.mp hw with rfl | hw
      · rfl
      · exact hold.leader hr w (mem_of_mem_filter hw)
    · rcases mem_cons.mp hw with rfl | hw
      · exact (hA.nodes n).roundTerm hr ht
      · exact hold.round t ht w (mem_of_mem_filter hw)
  | handlerAppend =>
    rw [stepHandlerAppend]
    split
    · exact h.same rfl (fun _ => id) rfl rfl rfl rfl rfl
    · exact h.same rfl (fun _ => mem_append_right _) rfl rfl rfl rfl rfl

end Answers

/-! ## Acknowledged proposals -/

/-- In every run that keeps its terms and its files and in which no node is elected with waiters of
an earlier leadership, every acknowledged proposal is the entry applied at its index. -/
theorem own_answers [DecidableEq Op] {noop : Op}
    (h : Reach (step noop) (fun c a => KeepsTerm c a ∧ KeepsFile c a ∧ WinsDrained c a) init c) :
    OwnAnswers c := by
  have hinit : Answers (init : Cluster N Op) :=
    ⟨fun _ => WaitsOk.of_nil rfl, nofun, nofun⟩
  have hboth := Reach.invariant (I := fun c => (∃ A, Coupled False c A) ∧ Answers c)
    ⟨⟨_, coupled_init⟩, hinit⟩ (fun {s s' a} hI hok hs => by
      obtain ⟨⟨A, hA⟩, hans⟩ := hI
      exact ⟨hA.step hok.1 hok.2.1 False.elim hs, hans.step hA hok.1 hok.2.2 hs⟩) h
  exact hboth.2.own

/-- Node 0 leads and takes the proposal 5 at index 2, with a client waiting. A vote request of
node 1 demotes it and leaves the client waiting. Node 1 leads and replaces the entry by its own
proposal 7. Node 0 is elected again and commits that entry. -/
def staleWaiter : List (Step 3 Nat) :=
  flatten [
    winElection 0 1 1 0 0, [.propose 0 5, .proposeAppend 0 0],
    [.startElection 1, .requestVote 0 ⟨2, 1, 0, 0⟩, .requestVote 2 ⟨2, 1, 0, 0⟩,
      .voteReply 1 ⟨2, 1, 2, 2, true⟩, .closeElection 1, .initProgress 1, .appendNoop 1,
      .propose 1 7, .proposeAppend 1 0],
    [.beginRound 1, .syncLog 1, .choosePoint 1, .send 1 true,
      .appendEntries 0 ⟨2, 1, 0, 0, 0, [⟨2, 1, 0⟩, ⟨2, 2, 7⟩], 0, 0⟩, .handlerAppend 0 0],
    winElection 0 2 3 2 2,
    [.beginRound 0, .syncLog 0, .choosePoint 0, .send 0 true,
      .appendEntries 1 ⟨3, 0, 1, 2, 2, [⟨3, 3, 0⟩], 0, 0⟩, .handlerDrain 1 0, .handlerAppend 1 0,
      .handlerCompact 1 0, .handlerReply 1 0, .send 0 false, .send 0 false,
      .takeReply 0 ⟨1, 0, 3, 3, true, 3⟩, .advance 0, .resolve 0 []]]

/-- The client of node 0 is told that its proposal 5 succeeded, but 7 was applied. -/
theorem stale_waiter_breaks_answers :
    ∃ c : Cluster 3 Nat, Reach (step 0) (fun _ _ => True) init c ∧
      ¬ OwnAnswers c := by
  refine Reach.exists_of_run
    (P := fun c => ∃ a ∈ c.answered, a.ok = true ∧ a.waiter.op = 5 ∧ a.entry.data = 7)
    staleWaiter (by decide +kernel) fun c _ ⟨a, ha, hok, hop, hdata⟩ hm => ?_
  have hown := (hm a ha hok).2.1
  rw [hdata, hop] at hown
  exact absurd hown (by decide)

/-- Node 0 commits a proposal with node 1 and answers its client. -/
theorem own_answers_oneRound :
    ∃ c : Cluster 3 Nat,
      Reach (step 0) (fun c a => KeepsTerm c a ∧ KeepsFile c a ∧ WinsDrained c a) init c ∧
      (c.answered.any fun a => a.ok && a.waiter.op == 5) = true ∧ OwnAnswers c := by
  exact Reach.exists_of_run (P := fun c =>
    (c.answered.any fun a => a.ok && a.waiter.op == 5) = true)
    (flatten [winElection 0 1 1 0 0, [.propose 0 5, .proposeAppend 0 0],
      replicateTo 0 1 ⟨1, 0, 1, 0, 0, [⟨1, 1, 0⟩, ⟨1, 2, 5⟩], 0, 0⟩ true 2, [.resolve 0 []]])
    (by decide +kernel) fun c hreach he => ⟨he, own_answers hreach⟩

end ElyraSql.Raft
