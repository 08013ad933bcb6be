import ElyraSql.Raft.LogSteps

/-!
# Changing members

The cluster with `AddPeer` and `RemovePeer` requests and with the members that followers adopt from
the leader. The peers of a node start as configured whenever the process starts. An `AppendEntries`
carries the members its leader read at the beginning of the round; a follower adopts them after its
first lock section and before it looks at its log.

Who may vote and who gets a request is not restricted to the peers of the sender.
-/

namespace ElyraSql.Raft

open Function Cluster Option

variable {N : Nat} {Op : Type}

/-- `peersOf` are the peers of each node, `round` the members that a running `replicate_round` has
read, `carried` the requests with the members they carry, and `adopting` the members that running
handlers still have to adopt. -/
structure MemberCluster (N : Nat) (Op : Type) where
  base : Cluster N Op
  peersOf : Fin N → List (Fin N)
  round : Fin N → List (Fin N)
  carried : List (AppendEntries N Op × List (Fin N))
  adopting : Fin N → List (List (Fin N))

inductive MemberStep (N : Nat) (Op : Type)
  | addPeer (n p : Fin N)
  | removePeer (n p : Fin N)
  /-- The first lock section of `on_append_entries`, for a request that carries these members. -/
  | receive (n : Fin N) (req : AppendEntries N Op) (members : List (Fin N))
  | adoptMembers (n : Fin N) (k : Nat)
  | node (a : Step N Op)

/-- The lock section of a node that a step runs, if any. -/
def MemberStep.section? : MemberStep N Op → Option (Step N Op)
  | .addPeer .. | .removePeer .. | .adoptMembers .. => none
  | .receive n req _ => some (.appendEntries n req)
  | .node a => some a

variable {a : MemberStep N Op}

/-- Only `receive` runs the first lock section of `on_append_entries`. -/
theorem MemberStep.node_of_section {b : Step N Op} (h : a.section? = some b)
    (hb : ∀ n req, b ≠ .appendEntries n req) : a = .node b := by
  cases a with
  | node a => exact congrArg _ (some.inj h)
  | addPeer | removePeer | adoptMembers => exact nomatch h
  | receive n req members => exact absurd (some.inj h).symm (hb n req)

namespace MemberCluster

variable (config : Fin N → List (Fin N))

/-- All nodes freshly started on empty files, with the configured peers. -/
def init : MemberCluster N Op where
  base := Cluster.init
  peersOf := config
  round := fun _ => []
  carried := []
  adopting := fun _ => []

/-- `Node::new` on the files: the peers are the configured ones. -/
def restart (m : MemberCluster N Op) (n : Fin N) (base : Cluster N Op) : MemberCluster N Op :=
  { m with
    base := base
    peersOf := update m.peersOf n (config n)
    adopting := update m.adopting n [] }

/-- The request that a step of a round ships, with the members of the round. -/
def shipped (m : MemberCluster N Op) (n : Fin N) (ship : Bool) :
    List (AppendEntries N Op × List (Fin N)) :=
  match (m.base.nodes n).main with
  | .sending term leaderCommit compactIndex (p :: _) =>
    if ship then
      [((m.base.nodes n).appendRequest n p term leaderCommit compactIndex, m.round n)]
    else []
  | _ => []

variable [DecidableEq Op] (noop : Op)

/-- A lock section as with fixed members, where the peers do not matter; with the node's own peers
otherwise. -/
def stepNode (m : MemberCluster N Op) : Step N Op → Option (MemberCluster N Op)
  | .appendEntries _ _ => none
  | .closeElection n =>
    let x := m.base.nodes n
    match x.main with
    | .electing term votes =>
      if x.role = .candidate ∧ x.term = term ∧
          majority ((m.peersOf n).length + 1) ≤ votes.length + 1 then
        some { m with base := m.base.set n { x with role := .leader, main := .won term } }
      else some { m with base := m.base.set n { x with main := .idle } }
    | _ => none
  | .initProgress n =>
    let x := m.base.nodes n
    match x.main with
    | .won term =>
      some { m with
        base := m.base.set n
          { x with progress := x.progressFor (m.peersOf n), main := .progressSet term } }
    | _ => none
  | .choosePoint n =>
    let x := m.base.nodes n
    match x.main with
    | .choosing term leaderCommit =>
      some { m with
        base := m.base.set n { x with
          main := .sending term leaderCommit (x.compactPointFor (m.peersOf n)) (m.peersOf n) }
        round := update m.round n (n :: m.peersOf n) }
    | _ => none
  | .send n ship =>
    (m.base.step noop (.send n ship)).map fun base =>
      { m with base := base, carried := m.shipped n ship ++ m.carried }
  | .crash n k w => (m.base.step noop (.crash n k w)).map (m.restart config n)
  | .crashCompacting n upTo behind =>
    (m.base.step noop (.crashCompacting n upTo behind)).map (m.restart config n)
  | a => (m.base.step noop a).map fun base => { m with base := base }

def step (m : MemberCluster N Op) : MemberStep N Op → Option (MemberCluster N Op)
  | .addPeer n p =>
    some { m with
      peersOf := update m.peersOf n
        (if p ≠ n ∧ p ∉ m.peersOf n then m.peersOf n ++ [p] else m.peersOf n) }
  | .removePeer n p =>
    some { m with peersOf := update m.peersOf n ((m.peersOf n).filter (· ≠ p)) }
  | .receive n req members =>
    if (req, members) ∈ m.carried then
      (m.base.step noop (.appendEntries n req)).map fun base =>
        { m with
          base := base
          adopting := if req.term < (m.base.nodes n).term then m.adopting
            else update m.adopting n (m.adopting n ++ [members]) }
    else none
  | .adoptMembers n k =>
    match (m.adopting n)[k]? with
    | some members =>
      some { m with
        peersOf := update m.peersOf n (members.filter (· ≠ n))
        adopting := update m.adopting n ((m.adopting n).eraseIdx k) }
    | none => none
  | .node a => m.stepNode config noop a

variable {config noop} {m m' : MemberCluster N Op}

/-- A lock section is one of the cluster with the peers the node has. -/
theorem stepNode_fires {a : Step N Op} (h : m.stepNode config noop a = some m') :
    ∃ need peersOf, m.base.Fires need peersOf noop a m'.base := by
  cases a with
  | appendEntries n req => exact nomatch h
  | closeElection n =>
    simp only [stepNode] at h
    split at h
    case h_1 t votes hmain =>
      refine ⟨fun n => majority ((m.peersOf n).length + 1), m.peersOf, ?_⟩
      split_ifs at h with hwin <;> cases h
      · obtain ⟨hr, rfl, hmaj⟩ := hwin
        exact .win hmain hr hmaj
      · exact .lose hmain
    case h_2 => exact nomatch h
  | initProgress n | choosePoint n =>
    simp only [stepNode] at h
    split at h
    case h_1 hmain =>
      cases h
      exact ⟨fun _ => 0, m.peersOf, by constructor; exact hmain⟩
    case h_2 => exact nomatch h
  | propose n op | proposeAppend n k | startElection n | requestVote n r | voteReply n r
  | appendNoop n | handlerDrain n k | handlerAppend n k | handlerCompact n k | handlerReply n k
  | beginRound n | syncLog n | takeReply n r | advance n | resolve n failed | compactLog n
  | stepDown n | drain n =>
    obtain ⟨base, hb, rfl⟩ := map_eq_some_iff.mp h
    exact ⟨_, _, fires_of_step hb⟩
  | send | crash n | crashCompacting n =>
    rw [stepNode] at h
    obtain ⟨base, hb, rfl⟩ := map_eq_some_iff.mp h
    exact ⟨_, _, fires_of_step hb⟩

/-- A step runs a lock section of the cluster or leaves its nodes alone. -/
theorem step_fires (h : m.step config noop a = some m') :
    (a.section? = none ∧ ∃ n, m.base.Steps n (m.base.nodes n) [] m'.base) ∨
      ∃ b need peersOf, a.section? = some b ∧ m.base.Fires need peersOf noop b m'.base := by
  cases a with
  | addPeer n p | removePeer n p =>
    cases h
    exact .inl ⟨rfl, n, m.base.steps_self n⟩
  | receive n req members =>
    simp only [step] at h
    split at h
    case isTrue =>
      obtain ⟨base, hb, rfl⟩ := map_eq_some_iff.mp h
      exact .inr ⟨_, _, _, rfl, fires_of_step hb⟩
    case isFalse => exact nomatch h
  | adoptMembers n k =>
    simp only [step] at h
    split at h
    case h_1 =>
      cases h
      exact .inl ⟨rfl, n, m.base.steps_self n⟩
    case h_2 => exact nomatch h
  | node a =>
    obtain ⟨need, peersOf, hf⟩ := stepNode_fires h
    exact .inr ⟨a, need, peersOf, rfl, hf⟩

theorem step_log (h : m.step config noop a = some m') :
    ∃ n x ms, m.base.Steps n x ms m'.base ∧
      NodeStep a.section? m.base.net n (m.base.nodes n) x ms := by
  rcases step_fires h with ⟨hsec, n, hc⟩ | ⟨b, need, peersOf, hsec, hf⟩
  · exact ⟨n, _, _, hc, .of_same rfl rfl nofun⟩
  · rw [hsec]
    exact hf.log

end MemberCluster

end ElyraSql.Raft
