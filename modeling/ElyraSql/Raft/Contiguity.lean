import ElyraSql.Library.Numbered
import ElyraSql.Raft.LogFile
import ElyraSql.Raft.Membership

/-!
# No gaps in the log

A log has consecutive indexes from its snapshot boundary on, as long as the entries a follower
accepts join its own. Nothing in the code sees to that: a leader that has compacted the entry before
those it sends gives the term 0 for it, and a follower with an empty log accepts that for the
index 0.
-/

namespace ElyraSql.Raft

open Numbered Transition MemberCluster LogEntry Consecutive List Option

variable {N : Nat} {Op : Type} {r : RaftLog Op} {req : AppendEntries N Op}

namespace RaftLog

/-- Consecutive indexes, starting right after the snapshot index. -/
def Contiguous (r : RaftLog Op) : Prop := Consecutive index r.snapshotIndex r.entries

/-- `take_applicable` hands out every entry not yet applied up to the commit index. -/
def TakesAll (r : RaftLog Op) : Prop :=
  r.takeApplicable.1.map index =
    range' (r.lastApplied + 1) (r.commitIndex - r.lastApplied)

instance (r : RaftLog Op) : Decidable r.TakesAll := inferInstanceAs (Decidable (_ = _))

theorem Contiguous.lastIndex_eq (h : r.Contiguous) :
    r.lastIndex = r.snapshotIndex + r.entries.length :=
  last_eq h

/-! ## Appending -/

variable {new : List (LogEntry Op)}

/-- The loop of `append_entries` keeps the entries consecutive if the new ones join them. -/
theorem consecutive_foldl_appendStep {b f : Nat} {acc : List (LogEntry Op) × Bool}
    (hacc : Consecutive index b acc.1) (hnew : Consecutive index f new)
    (hb : b ≤ f) (hf : new = [] ∨ f ≤ b + acc.1.length) :
    Consecutive index b (new.foldl appendStep acc).1 := by
  induction new generalizing acc f with
  | nil => exact hacc
  | cons ne rest ih =>
    obtain ⟨hne, hrest⟩ := consecutive_cons.mp hnew
    have hf : f ≤ b + acc.1.length := hf.resolve_left nofun
    -- one turn of the loop: the entry is there, replaces a suffix or comes at the end
    have hturn : Consecutive index b (appendStep acc ne).1 ∧
        f + 1 ≤ b + (appendStep acc ne).1.length := by
      unfold appendStep
      rw [hne, hacc.findIdx?_eq (by omega)]
      split_ifs with hle
      · dsimp only
        split_ifs with hterm
        · exact ⟨hacc, hle⟩
        · have hlen : (acc.1.take (f + 1 - b - 1)).length = f - b := by
            rw [length_take]
            omega
          refine ⟨(hacc.of_le (List.take_prefix _ _)).concat ?_, ?_⟩
          · omega
          · rw [length_append, length_singleton]
            omega
      · refine ⟨hacc.concat (by omega), ?_⟩
        rw [length_append, length_singleton]
        omega
    exact ih hturn.1 hrest (by omega) (Or.inr hturn.2)

/-! ## Taking -/

theorem takeFrom_index {b : Nat} {es : List (LogEntry Op)} (h : Consecutive index b es)
    {a fuel : Nat} (hb : b ≤ a) (hlen : a + fuel ≤ b + es.length) :
    (takeFrom es fuel (a + 1)).map index = range' (a + 1) fuel := by
  induction fuel generalizing a with
  | zero => rfl
  | succ fuel ih =>
    have hlt : a + 1 - b - 1 < es.length := by omega
    have hfind : es.find? (fun e => e.index = a + 1) = some es[a + 1 - b - 1] := by
      rw [h.find?_eq, if_pos (by omega), getElem?_eq_getElem hlt]
    rw [takeFrom, hfind]
    simp only [map_cons]
    rw [ih (by omega) (by omega), h _ _ (getElem?_eq_getElem hlt)]
    congr 1
    omega

/-- The state of a log in which `take_applicable` is called. -/
structure Ready (r : RaftLog Op) : Prop where
  contiguous : r.Contiguous
  file : r.FileOk
  boundary : r.boundary = (r.snapshotIndex, r.snapshotTerm)
  snapshot : r.snapshotIndex ≤ r.lastApplied
  applied : r.lastApplied ≤ r.commitIndex
  commit : r.commitIndex = r.lastApplied ∨ r.commitIndex ≤ r.lastIndex

theorem Ready.takesAll (h : r.Ready) : r.TakesAll := by
  rcases h.commit with heq | hle
  · rw [TakesAll, takeApplicable, heq, Nat.sub_self]
    rfl
  · have happlied := h.applied
    rw [h.contiguous.lastIndex_eq] at hle
    exact takeFrom_index h.contiguous h.snapshot (by omega)

theorem TakesAll.lastApplied_eq (h : r.TakesAll) (happlied : r.lastApplied ≤ r.commitIndex) :
    r.takeApplicable.2.lastApplied = r.commitIndex := by
  have hlen := congrArg length h
  rw [length_map, length_range'] at hlen
  simp only [takeApplicable] at hlen ⊢
  omega

/-- What holds of every log. -/
structure Ok (r : RaftLog Op) : Prop where
  contiguous : r.Contiguous
  file : r.FileOk
  boundary : r.boundary = (r.snapshotIndex, r.snapshotTerm)
  snapshot : r.snapshotIndex ≤ r.lastApplied
  applied : r.lastApplied = r.commitIndex

theorem ok_openFiles {file : List (LogEntry Op)} {boundary : Nat × Nat}
    (h : Consecutive index boundary.1 file) : (openFiles file boundary).Ok :=
  ⟨h, ⟨(take_length (l := file)).symm, le_rfl⟩, rfl, le_rfl, rfl⟩

/-- Taking what is ready leaves nothing behind. -/
theorem Ready.ok (h : r.Ready) : r.takeApplicable.2.Ok where
  contiguous := h.contiguous
  file := h.file
  boundary := h.boundary
  snapshot := h.snapshot.trans (Nat.le_add_right _ _)
  applied := h.takesAll.lastApplied_eq h.applied

namespace Ok

variable {r : RaftLog Op} (h : r.Ok)
include h

theorem leaderAppend (t : Nat) (op : Op) : (r.leaderAppend t op).Ok where
  contiguous := by
    refine concat h.contiguous ?_
    rw [h.contiguous.lastIndex_eq]
  file := h.file.grow (prefix_append _ _)
  boundary := h.boundary
  snapshot := h.snapshot
  applied := h.applied

theorem persistRewrite : r.persistRewrite.Ok :=
  { h with file := fileOk_persistRewrite r }

theorem persistAppended : r.persistAppended.Ok := by
  have hf := fileOk_persistAppended h.file
  unfold RaftLog.persistAppended at hf ⊢
  split_ifs at hf ⊢
  · exact h
  · exact { h with file := hf }

theorem sync : r.sync.Ok := by
  unfold RaftLog.sync
  split_ifs
  · exact h.persistRewrite
  · exact h.persistAppended

theorem compact (u : Nat) : (r.compact u).Ok := by
  unfold RaftLog.compact
  split_ifs with hcond
  · exact h
  · split
    case h_1 => exact h
    case h_2 t _ =>
      push Not at hcond
      refine ⟨?_, fileOk_persistRewrite _, rfl, hcond.2, h.applied⟩
      have hdrop : (r.entries.filter (u < ·.index)) = r.entries.drop (u - r.snapshotIndex) :=
        filter_eq h.contiguous u
      have hcons := drop h.contiguous (u - r.snapshotIndex)
      rw [show r.snapshotIndex + (u - r.snapshotIndex) = u by omega, ← hdrop] at hcons
      exact hcons

theorem reopen {w : Cut Op} (hw : ¬ r.Overrun w) : (r.reopen w).Ok := by
  obtain ⟨t, ht⟩ := reopen_of_not_overrun hw
  have hfile : r.written w = r.entries.take (r.persisted + w.whole) := by
    rw [written, h.file.1, take_add]
  rw [ht]
  refine { @ok_openFiles Op (r.written w) r.boundary ?_ with }
  rw [hfile, h.boundary]
  exact of_le h.contiguous (List.take_prefix _ _)

theorem maybeCommit_ready (ms : List Nat) (t : Nat) : (r.maybeCommit ms t).Ready := by
  rcases r.maybeCommit_cases ms t with heq | ⟨j, -, hlt, hterm, heq⟩
  · rw [heq]
    exact ⟨h.contiguous, h.file, h.boundary, h.snapshot, h.applied.le, .inl h.applied.symm⟩
  · rw [heq]
    refine ⟨h.contiguous, h.file, h.boundary, h.snapshot, h.applied.le.trans hlt.le, .inr ?_⟩
    -- the log has an entry at the new commit index
    have happlied := h.applied
    have hsnap := h.snapshot
    unfold termAt at hterm
    rw [if_neg (by omega), if_neg (by omega), find?_eq h.contiguous, if_pos (by omega)] at hterm
    obtain ⟨e, he, -⟩ := map_eq_some_iff.mp hterm
    have := (List.getElem?_eq_some_iff.mp he).1
    change j ≤ r.lastIndex
    rw [h.contiguous.lastIndex_eq]
    omega

/-- More consecutive entries in memory than on file. -/
theorem grow {es : List (LogEntry Op)} (hes : Consecutive index r.snapshotIndex es)
    (hp : r.entries <+: es) : Ok { r with entries := es } :=
  ⟨hes, h.file.grow hp, h.boundary, h.snapshot, h.applied⟩

section

variable {prev prevTerm f : Nat} (hnew : Consecutive index f new) (hprev : prev ≤ f)
include hnew hprev

/-- The entries in memory after the loop of `append_entries`. -/
theorem consecutive_folded (hjoin : new = [] ∨ f ≤ r.lastIndex)
    (hterm : r.termAt prev = some prevTerm) :
    Consecutive index r.snapshotIndex (new.foldl appendStep (r.entries, false)).1 := by
  have hsnap : r.snapshotIndex ≤ prev := by
    unfold termAt at hterm
    split_ifs at hterm with h₁ h₂
    · exact h₁.ge
    · omega
  rw [h.contiguous.lastIndex_eq] at hjoin
  exact consecutive_foldl_appendStep h.contiguous hnew (hsnap.trans hprev) hjoin

theorem appendEntries {r' : RaftLog Op} (hjoin : new = [] ∨ f ≤ r.lastIndex)
    (happ : r.appendEntries prev prevTerm new = some r') : r'.Ok := by
  unfold RaftLog.appendEntries at happ
  split_ifs at happ with hterm
  have hcons := h.consecutive_folded hnew hprev hjoin hterm
  cases happ
  split_ifs with hflag
  · exact ⟨hcons, fileOk_persistRewrite _, h.boundary, h.snapshot, h.applied⟩
  · simp only [Bool.or_eq_true, not_or, Bool.not_eq_true] at hflag
    exact (h.grow hcons (prefix_foldl_appendStep hflag.1).2).persistAppended

theorem appending
    (hjoin : r.termAt prev = some prevTerm → new = [] ∨ f ≤ r.lastIndex) :
    (r.appending prev prevTerm new).Ok := by
  unfold RaftLog.appending
  dsimp only
  split_ifs with hcond
  · obtain ⟨hterm, hflag, -⟩ := hcond
    exact h.grow (h.consecutive_folded hnew hprev (hjoin hterm) hterm)
      (prefix_foldl_appendStep hflag).2
  · exact h

end

theorem advanceCommit_ready (lc : Nat) : (r.advanceCommit lc).Ready := by
  unfold advanceCommit
  dsimp only
  split_ifs with hlt
  · exact ⟨h.contiguous, h.file, h.boundary, h.snapshot, h.applied.le.trans hlt.le,
      .inr (Nat.min_le_right _ _)⟩
  · exact ⟨h.contiguous, h.file, h.boundary, h.snapshot, h.applied.le, .inl h.applied.symm⟩

end Ok

end RaftLog

/-! ## Steps -/

/-- The entries of a request are consecutive and come after its previous index. -/
def RequestOk (req : AppendEntries N Op) : Prop :=
  ∃ f, req.prevIndex ≤ f ∧ Consecutive index f req.entries

theorem requestOk_entriesAfter (h : r.Contiguous)
    (hreq : req.entries = r.entriesAfter req.prevIndex) : RequestOk req := by
  refine ⟨r.snapshotIndex + (req.prevIndex - r.snapshotIndex), by omega, ?_⟩
  have hdrop : r.entriesAfter req.prevIndex = r.entries.drop (req.prevIndex - r.snapshotIndex) :=
    filter_eq h _
  rw [hreq, hdrop]
  exact drop h _

/-- The entries a handler is about to accept join the log. -/
def JoinsAt (x : Node N Op) (k : Nat) : Prop :=
  ∀ req ∈ x.handlers[k]?.bind Handler.waiting, x.log.termAt req.prevIndex = some req.prevTerm →
    ∀ e ∈ req.entries.head?, e.index ≤ x.log.lastIndex + 1

/-- The entries a handler accepts join the log, also if it crashes in the append. A restart finds
nothing in the file behind a record that was cut off earlier, and no crash falls between the two
halves of a compaction. -/
def Joins (c : Cluster N Op) : Option (Step N Op) → Prop
  | some (.handlerAppend n k) => JoinsAt (c.nodes n) k
  | some (.crash n k w) =>
    (∀ j ∈ k, JoinsAt (c.nodes n) j) ∧ ¬ ((c.nodes n).writing k).Overrun w
  | some (.crashCompacting ..) => False
  | _ => True

instance (x : Node N Op) (k : Nat) : Decidable (JoinsAt x k) :=
  inferInstanceAs (Decidable (∀ req ∈ _, _))

instance (c : Cluster N Op) : DecidablePred (Joins c) := fun a => by
  delta Joins
  rcases a with _ | (_ | _) <;> infer_instance

structure NoGaps (c : Cluster N Op) : Prop where
  logs : ∀ n, (c.nodes n).log.Ok
  requests : c.Requests RequestOk

variable {a : Option (Step N Op)}

section Steps

variable {c c' : Cluster N Op} {n : Fin N}

/-- The request of a handler that joins the log. -/
theorem NoGaps.joined (h : NoGaps c) {k : Nat} (hj : JoinsAt (c.nodes n) k)
    (hk : (c.nodes n).handlers[k]? = some (.append req)) :
    ∃ f, req.prevIndex ≤ f ∧ Consecutive index f req.entries ∧
      ((c.nodes n).log.termAt req.prevIndex = some req.prevTerm →
        req.entries = [] ∨ f ≤ (c.nodes n).log.lastIndex) := by
  obtain ⟨f, hprev, hcons⟩ := h.requests.waiting n _ (mem_of_getElem? hk) req rfl
  refine ⟨f, hprev, hcons, fun hterm => ?_⟩
  cases hes : req.entries with
  | nil => exact .inl rfl
  | cons e es =>
    have hle := hj req (by rw [hk]; rfl) hterm e (by rw [hes]; rfl)
    rw [hes] at hcons
    rw [(consecutive_cons.mp hcons).1] at hle
    omega

/-- The log of a handler after it has accepted its request. -/
theorem NoGaps.accept (h : NoGaps c) {k : Nat} (hj : JoinsAt (c.nodes n) k)
    (hk : (c.nodes n).handlers[k]? = some (.append req))
    (happ : (c.nodes n).log.appendEntries req.prevIndex req.prevTerm req.entries = some r) :
    r.Ok := by
  obtain ⟨f, hprev, hcons, hjoin⟩ := h.joined hj hk
  exact (h.logs n).appendEntries hcons hprev (hjoin (RaftLog.termAt_of_appendEntries happ)) happ

theorem NoGaps.writing (h : NoGaps c) {k : Option Nat} (hj : ∀ j ∈ k, JoinsAt (c.nodes n) j) :
    ((c.nodes n).writing k).Ok := by
  unfold Node.writing
  split
  · exact h.logs n
  · split
    · next hk =>
      obtain ⟨f, hprev, hcons, hjoin⟩ := h.joined (hj _ rfl) hk
      exact (h.logs n).appending hcons hprev hjoin
    · exact h.logs n

theorem NoGaps.log (h : NoGaps c) (hj : Joins c a) (hs : LogStep n (c.nodes n) a r) : r.Ok := by
  have hn := h.logs n
  cases hs with
  | same => exact hn
  | append _ t op => exact hn.leaderAppend t op
  | sync => exact hn.sync
  | accept k hk happ => exact ((h.accept hj hk happ).advanceCommit_ready _).ok
  | count => exact (hn.maybeCommit_ready _ _).ok
  | handlerCompact _ u | compactLog u => exact hn.compact u
  | restart => exact (h.writing hj.1).reopen hj.2
  | restartCompacting => exact hj.elim

theorem NoGaps.step (h : NoGaps c) (hj : Joins c a) {x : Node N Op} {ms : List (Msg N Op)}
    (hc : c.Steps n x ms c') (hs : NodeStep a c.net n (c.nodes n) x ms) :
    NoGaps c' where
  logs v := by
    rw [hc.nodes]
    by_cases hv : v = n
    · subst hv
      rw [Function.update_self]
      exact h.log hj hs.log
    · rw [Function.update_of_ne hv]
      exact h.logs v
  requests := h.requests.step hc hs fun req hreq =>
    requestOk_entriesAfter (h.logs n).contiguous (hs.requests req hreq)

end Steps

/-! ## Runs -/

theorem NoGaps.takesAll {c : Cluster N Op} (h : NoGaps c) (hj : Joins c a)
    (hr : c.taken a = some r) :
    r.TakesAll := by
  unfold Cluster.taken at hr
  split at hr
  case h_1 n k =>
    split at hr
    case h_1 req hk =>
      obtain ⟨log, happ, rfl⟩ := map_eq_some_iff.mp hr
      exact ((h.accept hj hk happ).advanceCommit_ready _).takesAll
    case h_2 => exact nomatch hr
  case h_2 n =>
    split at hr
    case h_1 =>
      cases hr
      exact ((h.logs n).maybeCommit_ready _ _).takesAll
    case h_2 => exact nomatch hr
  case h_3 => exact nomatch hr

theorem noGaps_init : NoGaps (Cluster.init : Cluster N Op) where
  logs _ := RaftLog.ok_openFiles consecutive_nil
  requests := ⟨nofun, nofun⟩

/-- In every run in which the entries a follower accepts join its log, a restart finds nothing
behind a record that was cut off and no crash falls between the two halves of a compaction, whatever
members are added, removed or adopted, the log of every node is contiguous from its snapshot index
on, and every call of `take_applicable` hands out everything up to the commit index. -/
theorem no_gaps_no_stall [DecidableEq Op] {noop : Op} {config : Fin N → List (Fin N)}
    {m : MemberCluster N Op}
    (h : Reach (step config noop) (fun m a => Joins m.base a.section?) (init config) m) :
    (∀ n, (m.base.nodes n).log.Contiguous) ∧
      ∀ a : MemberStep N Op, Joins m.base a.section? → ∀ r, m.base.taken a.section? = some r →
        r.TakesAll := by
  have hinv : NoGaps m.base := by
    refine Reach.invariant (I := fun m : MemberCluster N Op => NoGaps m.base) noGaps_init ?_ h
    intro m m' a hm hj hs
    obtain ⟨n, x, ms, hc, hstep⟩ := step_log hs
    exact hm.step hj hc hstep
  exact ⟨fun n => (hinv.logs n).contiguous, fun a hj r hr => hinv.takesAll hj hr⟩

/-- Node 0 alone commits two entries and compacts them, takes a third, and gets node 1 as a
peer. -/
def compactThenAdd : List (MemberStep 2 Nat) :=
  flatten [
    [.startElection 0, .closeElection 0, .initProgress 0, .appendNoop 0, .propose 0 5,
      .proposeAppend 0 0, .beginRound 0, .syncLog 0, .choosePoint 0, .send 0 false, .advance 0,
      .resolve 0 [], .compactLog 0, .beginRound 0, .syncLog 0, .choosePoint 0, .send 0 false,
      .advance 0, .compactLog 0, .propose 0 7, .proposeAppend 0 0].map .node,
    [.addPeer 0 1],
    [.beginRound 0, .syncLog 0, .choosePoint 0, .send 0 true].map .node,
    [.receive 1 ⟨1, 0, 1, 0, 0, [⟨1, 3, 7⟩], 2, 0⟩ [0, 1]]]

/-- The new node accepts the third entry into its empty log. Of the two committed entries it is
told of, it has none. -/
theorem new_peer_stalls :
    ∃ m m' : MemberCluster 2 Nat,
      Reach (step (fun _ => []) 0) (fun _ _ => True)
        (init fun _ => []) m ∧
      (∃ r, m.base.taken (some (.handlerAppend 1 0)) = some r ∧ ¬ r.TakesAll) ∧
      m.step (fun _ => []) 0 (.node (.handlerAppend 1 0)) = some m' ∧
      ¬ (m'.base.nodes 1).log.Contiguous := by
  have hrun : ((run (guarded (step (fun _ => []) 0) fun _ _ => True)
      (init fun _ => []) compactThenAdd).bind fun m =>
        (m.base.taken (some (.handlerAppend 1 0))).bind fun r =>
          (m.step (fun _ => []) 0 (.node (.handlerAppend 1 0))).map fun m' =>
            decide (¬ r.TakesAll ∧ (m'.base.nodes 1).log.entries = [⟨1, 3, 7⟩] ∧
              (m'.base.nodes 1).log.snapshotIndex = 0)) = some true := by
    decide +kernel
  obtain ⟨m, hm, hrest⟩ := Option.bind_eq_some_iff.mp hrun
  obtain ⟨r, hr, hrest⟩ := Option.bind_eq_some_iff.mp hrest
  obtain ⟨m', hm', hd⟩ := Option.map_eq_some_iff.mp hrest
  obtain ⟨hnot, hentries, hsnap⟩ := of_decide_eq_true hd
  refine ⟨m, m', Reach.of_guarded_run hm, ⟨r, hr, hnot⟩, hm', fun hc => ?_⟩
  have h := hc 0 ⟨1, 3, 7⟩ (by rw [hentries]; rfl)
  rw [hsnap] at h
  exact absurd h (by decide)

/-- Node 1 joins before anything is compacted. -/
def addFirst : List (MemberStep 2 Nat) :=
  flatten [
    [.startElection 0, .closeElection 0, .initProgress 0, .appendNoop 0].map .node,
    [.addPeer 0 1],
    [.beginRound 0, .syncLog 0, .choosePoint 0, .send 0 true].map .node,
    [.receive 1 ⟨1, 0, 1, 0, 0, [⟨1, 1, 0⟩], 0, 0⟩ [0, 1]]]

/-- A node added in time takes the log from its first entry on. -/
theorem no_gaps_no_stall_addFirst :
    ∃ m : MemberCluster 2 Nat,
      Reach (step (fun _ => []) 0) (fun m a => Joins m.base a.section?)
        (init fun _ => []) m ∧
      Joins m.base (some (.handlerAppend 1 0)) ∧
      (∀ n, (m.base.nodes n).log.Contiguous) ∧
      ∀ r, m.base.taken (some (.handlerAppend 1 0)) = some r → r.TakesAll := by
  refine Reach.exists_of_run (P := fun m => Joins m.base (some (.handlerAppend 1 0))) addFirst
    (by decide +kernel) fun m hreach hj => ?_
  obtain ⟨hcons, htake⟩ := no_gaps_no_stall hreach
  exact ⟨hj, hcons, htake (.node (.handlerAppend 1 0)) hj⟩

end ElyraSql.Raft
