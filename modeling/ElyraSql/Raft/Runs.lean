import ElyraSql.Library.Transition
import ElyraSql.Raft.Fires
import ElyraSql.Raft.Rounds

/-!
# Runs of a cluster

Every run that keeps its terms is coupled to a history of the replicated-log protocol. Keeping
the terms is what the separate locks of a node do not enforce: what was checked under the lock of
the election state must still hold when the log is used.
-/

namespace ElyraSql.Raft

open ReplicatedLog Transition Cluster

variable {N : Nat} {Op : Type} {safe : Prop} {c c' : Cluster N Op} {A : State (Fin N) Op}
  {n : Fin N}

/-! ## What the steps have to respect -/

/-- The node is still the leader of the term. -/
def Node.Leads (x : Node N Op) (t : Nat) : Prop := x.role = .leader ∧ x.term = t

/-- The term in which the main loop is about to append the no-op. -/
def MainLoop.noopTerm : MainLoop N Op → Option Nat
  | .progressSet t => some t
  | _ => none

/-- The term in which the main loop sends its log. -/
def MainLoop.sendTerm : MainLoop N Op → Option Nat
  | .sending t _ _ _ => some t
  | _ => none

/-- A step uses the log only in the term that was checked before: a leader appends and sends as
the leader of the term its proposal or its round was checked in, and a follower appends in the
term of the request, also if it crashes in the append. -/
def KeepsTerm (c : Cluster N Op) : Step N Op → Prop
  | .proposeAppend n k => ∀ p ∈ (c.nodes n).proposals[k]?, (c.nodes n).Leads p.1
  | .appendNoop n => ∀ t ∈ (c.nodes n).main.noopTerm, (c.nodes n).Leads t
  | .handlerAppend n k => ∀ t ∈ (c.nodes n).handlers[k]?.bind Handler.appendTerm,
      (c.nodes n).term = t
  | .send n ship => ship = true → ∀ t ∈ (c.nodes n).main.sendTerm, (c.nodes n).Leads t
  | .crash n k _ => ∀ j ∈ k, ∀ t ∈ (c.nodes n).handlers[j]?.bind Handler.appendTerm,
      (c.nodes n).term = t
  | _ => True

/-- A restart finds nothing in the log file behind a record that was cut off earlier. -/
def KeepsFile (c : Cluster N Op) : Step N Op → Prop
  | .crash n k w => ¬ ((c.nodes n).writing k).Overrun w
  | .crashCompacting n _ behind => ¬ (c.nodes n).log.Overrun ⟨0, false, behind⟩
  | _ => True

/-- A restart finds all entries up to the commit index the node had reached. -/
def KeepsCommitted (c : Cluster N Op) : Step N Op → Prop
  | .crash n k w =>
    (c.nodes n).log.commitIndex ≤ (((c.nodes n).writing k).reopen w).lastIndex
  | .crashCompacting n upTo behind =>
    (c.nodes n).log.commitIndex ≤ ((c.nodes n).log.reopenCompacting upTo behind).lastIndex
  | _ => True

instance (x : Node N Op) (t : Nat) : Decidable (x.Leads t) :=
  inferInstanceAs (Decidable (_ ∧ _))

instance (c : Cluster N Op) : DecidablePred (KeepsTerm c) := fun a => by
  delta KeepsTerm
  split <;> infer_instance

instance (c : Cluster N Op) : DecidablePred (KeepsFile c) := fun a => by
  delta KeepsFile
  split <;> infer_instance

instance (c : Cluster N Op) : DecidablePred (KeepsCommitted c) := fun a => by
  delta KeepsCommitted
  split <;> infer_instance

/-- The votes of a closing election suffice. -/
def Node.wins (x : Node N Op) : Bool :=
  match x.main with
  | .electing t votes =>
    decide (x.role = .candidate ∧ x.term = t ∧ majority N ≤ votes.length + 1)
  | _ => false

/-- No client of an earlier leadership waits on a node that wins an election. -/
def WinsDrained (c : Cluster N Op) : Step N Op → Prop
  | .closeElection n => (c.nodes n).wins = true → (c.nodes n).pending = []
  | _ => True

instance (c : Cluster N Op) : DecidablePred (WinsDrained c) := fun a => by
  delta WinsDrained
  split <;> infer_instance

/-! ## Runs are coupled -/

theorem coupled_init : Coupled safe (init : Cluster N Op) State.init where
  inv := Inv.init
  net := nofun
  nodes _ := {
    term := rfl
    saved := rfl
    vote := rfl
    rep := ⟨0, ⟨le_rfl, le_rfl, List.prefix_rfl, rfl, rfl, rfl, rfl, rfl⟩⟩
    stable := stableTo_zero
    cidx := rfl
    cursors := ⟨rfl, le_rfl⟩
    alone := fun _ => le_rfl
    leads := nofun
    stands := nofun
    main := nofun
    handlers := nofun
    pending := nofun }
  applied := nofun
  counted := nofun
  covered _ _ hi hle := absurd hle (not_le.mpr hi)

variable [DecidableEq Op] {noop : Op}

/-- Every step that keeps its term and its file, and the committed entries if `safe`, keeps the
coupling. -/
theorem Coupled.step (h : Coupled safe c A) {a : Step N Op} (hterm : KeepsTerm c a)
    (hfile : KeepsFile c a) (hsafe : safe → KeepsCommitted c a) (hs : c.step noop a = some c') :
    ∃ A', Coupled safe c' A' := by
  cases fires_of_step hs with
  | @propose n => exact ⟨A, h.quiet { h.nodes n with } rfl⟩
  | @proposeAppend n k t op c' hk hc =>
    obtain ⟨hr, rfl⟩ := hterm (t, op) hk
    obtain ⟨A', c₁, hs₁, hc₁⟩ := h.proposeAppend hr hk
    cases hs₁.symm.trans hc
    exact ⟨A', hc₁⟩
  | startElection => exact h.startElection
  | requestVote hm hne => exact h.requestVote hm hne
  | laterVote hlt => exact h.stepDownTo hlt (Or.inl rfl)
  | countVote hmain hm hn ht hg hnew => exact ⟨A, h.countVote hmain hm hn ht hg hnew⟩
  | noVote => exact ⟨A, h⟩
  | win hmain hr hmaj => exact h.win hmain hr hmaj
  | lose hmain => exact ⟨A, h.lose hmain⟩
  | initProgress hmain => exact ⟨A, h.initProgress hmain⟩
  | @appendNoop n t hmain =>
    obtain ⟨hr, rfl⟩ := hterm t (by rw [hmain]; rfl)
    exact h.appendNoop noop hmain hr
  | staleEntries =>
    refine ⟨A, h.post h.inv (Moves.refl _ A) (h.nodes _) le_rfl fun m hm => ?_⟩
    rw [List.mem_singleton] at hm
    subst hm
    exact nofun
  | appendEntries hm hn hst => exact h.appendEntries hm hn hst
  | handlerDrain hk => exact ⟨A, h.handlerDrain hk⟩
  | @handlerAppend n k req hk => exact h.handlerAppend hk (hterm req.term (by rw [hk]; rfl))
  | handlerCompact hk => exact h.handlerCompact hk
  | handlerReply hk => exact ⟨A, h.handlerReply hk⟩
  | @beginRound n hmain hr =>
    have hmo := h.mainOk hmain
    exact ⟨A, h.quiet ((h.nodes n).withMain ⟨fun _ => rfl, hmo hr⟩) rfl⟩
  | syncLog hmain => exact h.syncLog hmain
  | choosePoint hmain => exact ⟨A, h.choosePoint hmain⟩
  | @send n ship t lc ci p todo hmain =>
    exact ⟨A, h.send hmain fun hship => hterm hship t (by rw [hmain]; rfl)⟩
  | sent hmain => exact ⟨A, h.sent hmain⟩
  | laterReply hlt => exact h.stepDownTo hlt (Or.inr rfl)
  | giveUpRound hmain => exact ⟨A, h.giveUpRound hmain⟩
  | takeAck hmain hm hn ht => exact ⟨A, h.takeAck hmain hm ht⟩
  | advance hmain => exact h.advance hmain
  | resolve hmain => exact ⟨A, h.resolve hmain _⟩
  | compactLog hmain => exact h.compactLog hmain
  | @stepDown n => exact ⟨A, h.quiet (((h.nodes n).demote h.inv).withMain nofun) rfl⟩
  | @drain n hmain =>
    have hmo := h.mainOk hmain
    have hx := (h.nodes n).withMain (m := .idle) fun hr => absurd hr hmo
    exact ⟨A, h.quiet { hx with pending := nofun } rfl⟩
  | crash => exact h.crash hterm hfile hsafe
  | @crashCompacting n u _ hc =>
    refine h.crashCompacting ?_ hfile hsafe
    rcases hc with hmain | ⟨req, i, hmem, rfl⟩
    · have hmo := h.mainOk hmain
      exact hmo.2
    · exact ((h.nodes n).handlers _ hmem).1.compact

/-- The cluster is coupled to some history in every state of a run that keeps its terms and its
files, and the committed entries if `safe`. -/
theorem coupled_run (safe : Prop) {ok : Cluster N Op → Step N Op → Prop}
    (hok : ∀ {c a}, ok c a → KeepsTerm c a ∧ KeepsFile c a ∧ (safe → KeepsCommitted c a))
    (h : Reach (step noop) ok init c) : ∃ A, Coupled safe c A := by
  refine Reach.invariant (I := fun c => ∃ A, Coupled safe c A) ⟨_, coupled_init⟩ ?_ h
  rintro s s' a ⟨A, hA⟩ ha hs
  obtain ⟨hterm, hfile, hsafe⟩ := hok ha
  exact hA.step hterm hfile hsafe hs

end ElyraSql.Raft
