import ElyraSql.Raft.ElectionSafety

/-!
# What a step does to a log

The log of a node changes in few ways, and only an `AppendEntries` that was sent comes into it from
another node. What holds of every node's log and of every request can be shown by these cases
alone.
-/

namespace ElyraSql.Raft

open List

variable {N : Nat} {Op : Type} {c c' : Cluster N Op} {n : Fin N}

/-- The request that a handler still has to append. -/
def Handler.waiting : Handler N Op → Option (AppendEntries N Op)
  | .drain req | .append req => some req
  | _ => none

/-- What a step of the node `n` can make of its log. The step is none where no lock section of a
node runs. -/
inductive LogStep (n : Fin N) (x : Node N Op) : Option (Step N Op) → RaftLog Op → Prop
  | same (a : Option (Step N Op)) : LogStep n x a x.log
  | append (a : Option (Step N Op)) (t : Nat) (op : Op) : LogStep n x a (x.log.leaderAppend t op)
  | sync (a : Option (Step N Op)) : LogStep n x a x.log.sync
  /-- A handler appends the entries of its request and takes what it can apply. -/
  | accept (k : Nat) {req : AppendEntries N Op} {r : RaftLog Op} :
      x.handlers[k]? = some (.append req) →
      x.log.appendEntries req.prevIndex req.prevTerm req.entries = some r →
      LogStep n x (some (.handlerAppend n k)) (r.advanceCommit req.leaderCommit).takeApplicable.2
  | count {t ci : Nat} : x.main = .collecting t ci →
      LogStep n x (some (.advance n)) (x.log.maybeCommit (x.matchIndexes n) t).takeApplicable.2
  | handlerCompact (k u : Nat) : LogStep n x (some (.handlerCompact n k)) (x.log.compact u)
  | compactLog (u : Nat) : LogStep n x (some (.compactLog n)) (x.log.compact u)
  | restart (k : Option Nat) (w : Cut Op) :
      LogStep n x (some (.crash n k w)) ((x.writing k).reopen w)
  | restartCompacting (u : Nat) (behind : List (LogEntry Op) × Bool) :
      LogStep n x (some (.crashCompacting n u behind)) (x.log.reopenCompacting u behind)

/-- The log on which a step calls `take_applicable`. -/
def Cluster.taken (c : Cluster N Op) : Option (Step N Op) → Option (RaftLog Op)
  | some (.handlerAppend n k) =>
    match (c.nodes n).handlers[k]? with
    | some (.append req) =>
      ((c.nodes n).log.appendEntries req.prevIndex req.prevTerm req.entries).map
        (·.advanceCommit req.leaderCommit)
    | _ => none
  | some (.advance n) =>
    match (c.nodes n).main with
    | .collecting term _ => some ((c.nodes n).log.maybeCommit ((c.nodes n).matchIndexes n) term)
    | _ => none
  | _ => none

/-- The requests that the handlers of a node wait to append were there or have been sent. -/
def HandlersFrom (net : List (Msg N Op)) (x x' : Node N Op) : Prop :=
  ∀ h ∈ x'.handlers, ∀ req, h.waiting = some req →
    (∃ h' ∈ x.handlers, h'.waiting = some req) ∨ .appendEntries req ∈ net

/-- The new requests carry the entries of the log after their previous index. -/
def RequestsFrom (x : Node N Op) (ms : List (Msg N Op)) : Prop :=
  ∀ req, .appendEntries req ∈ ms → req.entries = x.log.entriesAfter req.prevIndex

variable {net ms : List (Msg N Op)} {x x' : Node N Op}

theorem HandlersFrom.of_eq (h : x'.handlers = x.handlers) : HandlersFrom net x x' := by
  intro hd hmem req hw
  rw [h] at hmem
  exact .inl ⟨hd, hmem, hw⟩

/-- A handler that goes on waits for the request it waited for, if for any. -/
theorem HandlersFrom.of_set {k : Nat} {h h' : Handler N Op} (hk : x.handlers[k]? = some h)
    (hx : x'.handlers = x.handlers.set k h')
    (hw : ∀ req, h'.waiting = some req → h.waiting = some req) : HandlersFrom net x x' := by
  intro hd hmem req hreq
  rw [hx] at hmem
  rcases mem_or_eq_of_mem_set hmem with hmem | rfl
  · exact .inl ⟨hd, hmem, hreq⟩
  · exact .inl ⟨h, mem_of_getElem? hk, hw req hreq⟩

theorem requestsFrom_nil : RequestsFrom x [] := nofun

theorem requestsFrom_of_other (h : ∀ req, .appendEntries req ∉ ms) : RequestsFrom x ms :=
  fun req hreq => absurd hreq (h req)

/-- What a step of a node does to its log, its handlers and the network. -/
structure NodeStep (a : Option (Step N Op)) (net : List (Msg N Op)) (n : Fin N) (x x' : Node N Op)
    (ms : List (Msg N Op)) : Prop where
  log : LogStep n x a x'.log
  handlers : HandlersFrom net x x'
  requests : RequestsFrom x ms

variable {a : Option (Step N Op)}

/-- A step that leaves the log and the handlers alone and sends no request. -/
theorem NodeStep.of_same (hl : x'.log = x.log) (hh : x'.handlers = x.handlers)
    (hms : ∀ req, .appendEntries req ∉ ms) : NodeStep a net n x x' ms :=
  ⟨hl ▸ .same a, .of_eq hh, requestsFrom_of_other hms⟩

theorem NodeStep.of_log (hl : LogStep n x a x'.log) (hh : x'.handlers = x.handlers) :
    NodeStep a net n x x' [] :=
  ⟨hl, .of_eq hh, requestsFrom_nil⟩

theorem RaftLog.termAt_of_appendEntries {r r' : RaftLog Op} {p t : Nat} {new : List (LogEntry Op)}
    (h : r.appendEntries p t new = some r') : r.termAt p = some t := by
  unfold RaftLog.appendEntries at h
  split_ifs at h with hterm
  exact hterm

theorem Cluster.Fires.log {need : Fin N → Nat} {peersOf : Fin N → List (Fin N)} {noop : Op}
    {a : Step N Op} (h : c.Fires need peersOf noop a c') :
    ∃ n x ms, c.Steps n x ms c' ∧ NodeStep (some a) c.net n (c.nodes n) x ms := by
  cases h with
  | requestVote hm hne =>
    obtain ⟨hlog, hhandlers, -⟩ := (c.nodes _).onRequestVote_keeps _
    exact ⟨_, _, _, c.steps_post .., .of_same hlog hhandlers (by simp)⟩
  | startElection | staleEntries => exact ⟨_, _, _, c.steps_post .., .of_same rfl rfl (by simp)⟩
  | @noVote n => exact ⟨n, _, _, c.steps_self n, .of_same rfl rfl nofun⟩
  | handlerDrain hk =>
    exact ⟨_, _, _, c.steps_set .., .same _, .of_set hk rfl (fun _ h => h), requestsFrom_nil⟩
  | handlerCompact hk =>
    exact ⟨_, _, _, c.steps_set .., .handlerCompact _ _, .of_set hk rfl nofun, requestsFrom_nil⟩
  | handlerReply hk =>
    refine ⟨_, _, _, c.steps_post .., .same _, ?_, requestsFrom_of_other (by simp)⟩
    exact fun hd hmem r hw => .inl ⟨hd, mem_of_mem_eraseIdx hmem, hw⟩
  | syncLog => exact ⟨_, _, _, c.steps_set .., .of_log (.sync _) rfl⟩
  | @send n ship =>
    refine ⟨_, _, _, c.steps_post .., .same _, .of_eq rfl, fun req hreq => ?_⟩
    cases ship with
    | true =>
      cases mem_singleton.mp hreq
      rfl
    | false => exact nomatch hreq
  | advance hmain => exact ⟨_, _, [], ⟨rfl, rfl⟩, .of_log (.count hmain) rfl⟩
  | appendNoop => exact ⟨_, _, _, c.steps_set .., .of_log (.append _ _ _) rfl⟩
  | compactLog => exact ⟨_, _, _, c.steps_set .., .of_log (.compactLog _) rfl⟩
  | crash => exact ⟨_, _, _, c.steps_set .., .restart _ _, nofun, requestsFrom_nil⟩
  | crashCompacting =>
    exact ⟨_, _, _, c.steps_set .., .restartCompacting _ _, nofun, requestsFrom_nil⟩
  | propose | laterVote | countVote | win | lose | initProgress | beginRound | choosePoint | sent
  | laterReply | giveUpRound | takeAck | resolve | stepDown | drain =>
    exact ⟨_, _, [], ⟨rfl, rfl⟩, .of_same rfl rfl nofun⟩
  | proposeAppend hk hc =>
    simp only [stepPropose, hk] at hc
    cases hc
    exact ⟨_, _, _, c.steps_set .., .of_log (.append _ _ _) rfl⟩
  | @appendEntries n req hm hn hst =>
    refine ⟨n, _, _, c.steps_set n _, ⟨?_, ?_, requestsFrom_nil⟩⟩
    · unfold Node.onAppendEntries Node.adoptTerm Node.persistState
      split_ifs <;> exact .same _
    · intro hd hmem r hw
      rcases mem_append.mp hmem with hmem | hmem
      · exact .inl ⟨hd, hmem, hw⟩
      · right
        rw [mem_singleton] at hmem
        subst hmem
        split_ifs at hw <;> (cases hw; exact hm)
  | handlerAppend hk =>
    rw [stepHandlerAppend]
    split
    · exact ⟨_, _, _, c.steps_set .., .same _, .of_set hk rfl (by rintro _ ⟨⟩), requestsFrom_nil⟩
    · next log hlog =>
      exact ⟨_, _, [], ⟨rfl, rfl⟩, .accept _ hk hlog, .of_set hk rfl (by rintro _ ⟨⟩),
        requestsFrom_nil⟩

/-- Every request in the network or in a handler has the property. -/
structure Cluster.Requests (P : AppendEntries N Op → Prop) (c : Cluster N Op) : Prop where
  sent : ∀ req, .appendEntries req ∈ c.net → P req
  waiting : ∀ n, ∀ h ∈ (c.nodes n).handlers, ∀ req, h.waiting = some req → P req

theorem Cluster.Requests.step {P : AppendEntries N Op → Prop} (h : c.Requests P)
    (hc : c.Steps n x ms c') (hs : NodeStep a c.net n (c.nodes n) x ms)
    (hnew : ∀ req, .appendEntries req ∈ ms → P req) : c'.Requests P where
  sent req hreq := by
    rw [hc.net] at hreq
    exact (mem_append.mp hreq).elim (hnew req) (h.sent req)
  waiting v hd hmem req hw := by
    rw [hc.nodes] at hmem
    by_cases hv : v = n
    · subst hv
      rw [Function.update_self] at hmem
      rcases hs.handlers hd hmem req hw with ⟨hd', hmem', hw'⟩ | hnet
      · exact h.waiting v hd' hmem' req hw'
      · exact h.sent req hnet
    · rw [Function.update_of_ne hv] at hmem
      exact h.waiting v hd hmem req hw

end ElyraSql.Raft
