import ElyraSql.Raft.Node
import Mathlib.Tactic.SplitIfs

/-!
# What a step of a cluster does

One case for each branch of `Cluster.step`. The majority and the peers of a node are parameters, so
that the cases serve clusters with changing members too.
-/

namespace ElyraSql.Raft

variable {N : Nat} {Op : Type}

namespace Node

/-- Progress after an election, for the peers of that moment. -/
def progressFor (x : Node N Op) (ps : List (Fin N)) : Fin N → Option Progress :=
  fun p => if p ∈ ps then some ⟨x.log.lastIndex + 1, 0⟩ else none

/-- The compaction point: what every peer has, or what is applied if there is none. -/
def compactPointFor (x : Node N Op) (ps : List (Fin N)) : Nat :=
  if ps.isEmpty then x.log.lastApplied
  else ((ps.map fun p => ((x.progress p).map (·.matched)).getD 0).min?).getD 0

end Node

namespace Cluster

section
variable (need : Fin N → Nat) (peersOf : Fin N → List (Fin N)) (noop : Op) (c : Cluster N Op)

/-- The steps that are possible, with what they do. -/
inductive Fires : Step N Op → Cluster N Op → Prop
  | propose {n op} (hr : (c.nodes n).role = .leader) :
      Fires (.propose n op) (c.set n { c.nodes n with
        proposals := (c.nodes n).proposals ++ [((c.nodes n).term, op)] })
  | proposeAppend {n k t op c'} (hk : (c.nodes n).proposals[k]? = some (t, op))
      (hc : c.stepPropose n k = some c') : Fires (.proposeAppend n k) c'
  | startElection {n} :
      Fires (.startElection n) (c.post n ((c.nodes n).standForElection n) [.requestVote
        ⟨(c.nodes n).term + 1, n, (c.nodes n).log.lastIndex, (c.nodes n).log.lastTerm⟩])
  | requestVote {n m} (hm : .requestVote m ∈ c.net) (hne : m.candidate ≠ n) :
      Fires (.requestVote n m) (c.post n ((c.nodes n).onRequestVote m).2 [.vote ⟨n, m.candidate,
        m.term, ((c.nodes n).onRequestVote m).2.term, ((c.nodes n).onRequestVote m).1⟩])
  | laterVote {n m} (hlt : (c.nodes n).term < m.term) :
      Fires (.voteReply n m) (c.set n ((c.nodes n).stepDownTo m.term .idle))
  | countVote {n m t votes} (hmain : (c.nodes n).main = .electing t votes) (hm : .vote m ∈ c.net)
      (hn : m.candidate = n) (ht : m.requestTerm = t) (hg : m.granted = true)
      (hnew : m.voter ∉ votes) :
      Fires (.voteReply n m) (c.set n { c.nodes n with main := .electing t (m.voter :: votes) })
  | noVote {n m} : Fires (.voteReply n m) c
  | win {n votes} (hmain : (c.nodes n).main = .electing (c.nodes n).term votes)
      (hr : (c.nodes n).role = .candidate) (hmaj : need n ≤ votes.length + 1) :
      Fires (.closeElection n)
        (c.set n { c.nodes n with role := .leader, main := .won (c.nodes n).term })
  | lose {n t votes} (hmain : (c.nodes n).main = .electing t votes) :
      Fires (.closeElection n) (c.set n { c.nodes n with main := .idle })
  | initProgress {n t} (hmain : (c.nodes n).main = .won t) :
      Fires (.initProgress n) (c.set n { c.nodes n with
        progress := (c.nodes n).progressFor (peersOf n), main := .progressSet t })
  | appendNoop {n t} (hmain : (c.nodes n).main = .progressSet t) :
      Fires (.appendNoop n)
        (c.set n { c.nodes n with log := (c.nodes n).log.leaderAppend t noop, main := .idle })
  | staleEntries {n req} :
      Fires (.appendEntries n req) (c.post n (c.nodes n)
        [.appendAck ⟨n, req.leader, req.term, (c.nodes n).term, false, 0⟩])
  | appendEntries {n req} (hm : .appendEntries req ∈ c.net) (hn : req.dest = n)
      (hst : ¬req.term < (c.nodes n).term) :
      Fires (.appendEntries n req) (c.set n ((c.nodes n).onAppendEntries req))
  | handlerDrain {n k req} (hk : (c.nodes n).handlers[k]? = some (.drain req)) :
      Fires (.handlerDrain n k) (c.stepHandler n k (.drain req))
  | handlerAppend {n k req} (hk : (c.nodes n).handlers[k]? = some (.append req)) :
      Fires (.handlerAppend n k) (c.stepHandlerAppend n k req)
  | handlerCompact {n k req i} (hk : (c.nodes n).handlers[k]? = some (.compact req i)) :
      Fires (.handlerCompact n k) (c.stepHandler n k (.compact req i))
  | handlerReply {n k req s i} (hk : (c.nodes n).handlers[k]? = some (.reply req s i)) :
      Fires (.handlerReply n k) (c.stepHandler n k (.reply req s i))
  | beginRound {n} (hmain : (c.nodes n).main = .idle) (hr : (c.nodes n).role = .leader) :
      Fires (.beginRound n) (c.set n { c.nodes n with main := .syncing (c.nodes n).term })
  | syncLog {n t} (hmain : (c.nodes n).main = .syncing t) :
      Fires (.syncLog n) (c.set n { c.nodes n with
        log := (c.nodes n).log.sync, main := .choosing t (c.nodes n).log.commitIndex })
  | choosePoint {n t lc} (hmain : (c.nodes n).main = .choosing t lc) :
      Fires (.choosePoint n) (c.set n { c.nodes n with
        main := .sending t lc ((c.nodes n).compactPointFor (peersOf n)) (peersOf n) })
  | send {n ship t lc ci p todo} (hmain : (c.nodes n).main = .sending t lc ci (p :: todo)) :
      Fires (.send n ship) (c.post n { c.nodes n with main := .sending t lc ci todo }
        (if ship then [.appendEntries ((c.nodes n).appendRequest n p t lc ci)] else []))
  | sent {n ship t lc ci} (hmain : (c.nodes n).main = .sending t lc ci []) :
      Fires (.send n ship) (c.set n { c.nodes n with main := .collecting t ci })
  | laterReply {n m} (hlt : (c.nodes n).term < m.term) :
      Fires (.takeReply n m) (c.set n ((c.nodes n).stepDownTo m.term .draining))
  | giveUpRound {n m t ci} (hmain : (c.nodes n).main = .collecting t ci) :
      Fires (.takeReply n m) (c.set n { c.nodes n with main := .idle })
  | takeAck {n m t ci} (hmain : (c.nodes n).main = .collecting t ci) (hm : .appendAck m ∈ c.net)
      (hn : m.leader = n) (ht : m.requestTerm = t) :
      Fires (.takeReply n m) (c.set n { c.nodes n with progress := (c.nodes n).takeAck m })
  | advance {n t ci} (hmain : (c.nodes n).main = .collecting t ci) :
      Fires (.advance n) (c.stepAdvance n t ci)
  | resolve {n failed t ci es} (hmain : (c.nodes n).main = .resolving t ci es) :
      Fires (.resolve n failed) (c.stepResolve n ci es failed)
  | compactLog {n ci} (hmain : (c.nodes n).main = .compacting ci) :
      Fires (.compactLog n)
        (c.set n { c.nodes n with log := (c.nodes n).log.compact ci, main := .idle })
  | stepDown {n} (hmain : (c.nodes n).main = .idle) :
      Fires (.stepDown n) (c.set n { c.nodes n with role := .follower, main := .draining })
  | drain {n} (hmain : (c.nodes n).main = .draining) :
      Fires (.drain n) (c.set n { c.nodes n with pending := [], main := .idle })
  | crash {n k w} :
      Fires (.crash n k w)
        (c.set n (Node.start (c.nodes n).saved (((c.nodes n).writing k).reopen w)))
  | crashCompacting {n u behind} (hc : (c.nodes n).main = .compacting u ∨
        ∃ req i, .compact req i ∈ (c.nodes n).handlers ∧ req.compactIndex = u) :
      Fires (.crashCompacting n u behind)
        (c.set n (Node.start (c.nodes n).saved ((c.nodes n).log.reopenCompacting u behind)))

end

theorem fires_of_step [DecidableEq Op] {noop : Op} {c c' : Cluster N Op} {a : Step N Op}
    (h : c.step noop a = some c') : Fires (fun _ => majority N) peers noop c a c' := by
  cases a <;> simp only [step] at h
  case propose => split_ifs at h with hr; cases h; exact .propose hr
  case proposeAppend n k =>
    cases hk : (c.nodes n).proposals[k]? with
    | none => simp [stepPropose, hk] at h
    | some p => exact .proposeAppend hk h
  case startElection => split_ifs at h; cases h; exact .startElection
  case requestVote => split_ifs at h with hm; cases h; exact .requestVote hm.1 hm.2
  case voteReply =>
    split at h
    · next hmain =>
      split_ifs at h with hm hlt hg <;> cases h
      · exact .laterVote hlt
      · exact .countVote hmain hm.1 hm.2.1 hm.2.2 hg.1 hg.2.2.2
      · exact .noVote
    · exact nomatch h
  case closeElection =>
    split at h
    · next hmain =>
      split_ifs at h with hwin <;> cases h
      · obtain ⟨hr, rfl, hmaj⟩ := hwin
        exact .win hmain hr hmaj
      · exact .lose hmain
    · exact nomatch h
  case appendEntries =>
    split_ifs at h with hm hlt <;> cases h
    · exact .staleEntries
    · exact .appendEntries hm.1 hm.2 hlt
  case beginRound => split_ifs at h with hm; cases h; exact .beginRound hm.1 hm.2
  case send =>
    split at h
    · next hmain => cases h; exact .send hmain
    · next hmain => cases h; exact .sent hmain
    · exact nomatch h
  case takeReply =>
    split at h
    · next hmain =>
      split_ifs at h with hm hlt hlt' <;> cases h
      · exact .laterReply hlt'
      · exact .giveUpRound hmain
      · exact .takeAck hmain hm.1 hm.2.1 hm.2.2
    · exact nomatch h
  case stepDown => split_ifs at h with hm; cases h; exact .stepDown hm.1
  case crash => cases h; exact .crash
  case crashCompacting =>
    split_ifs at h with hc
    cases h
    refine .crashCompacting (hc.imp_right fun hany => ?_)
    obtain ⟨hd, hmem, hu⟩ := List.any_eq_true.mp hany
    split at hu
    · exact ⟨_, _, hmem, beq_iff_eq.mp hu⟩
    · exact nomatch hu
  -- The other steps have one branch, for one state of the main loop or of a handler.
  all_goals
    split at h
    · next hcase => cases h; constructor; exact hcase
    · exact nomatch h

end Cluster

end ElyraSql.Raft
