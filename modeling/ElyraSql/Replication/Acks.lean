import ElyraSql.Replication.SyncCommit

/-!
# Acknowledgements

`report_ack` takes an acknowledgement only up to the LSN that `report_sent` has recorded for the
connection. `handle_replica` records the LSN of the snapshot and of every event of the live stream
right before it hands the message to `send_msg`, `incremental_catchup` none of what it sends. While
a message is being written, acknowledgements are read and taken.
-/

namespace ElyraSql.Replication

open OrderedMap Transition List Primary Function Handler ReplMsg

/-- The LSNs of all messages handed to `send_msg` on a connection: the steps of the primary take
nothing off the wire. -/
def Primary.handedOn (p : Primary) (id : Nat) : List Nat :=
  ((p.wires.get id).getD []).filterMap lsn?

/-- A primary, with the LSNs that each connection got by the snapshot or the live stream, and how
many of the messages handed to `send_msg` have been written. -/
structure Watched where
  primary : Primary
  streamed : Nat → List Nat := fun _ => []
  written : Nat → Nat := fun _ => 0

inductive WatchedStep
  | primary (a : PrimaryStep)
  /-- `send_msg` has written the next message. -/
  | written (id : Nat)

namespace Watched

/-- No message is being written on the connection. -/
def Quiet (w : Watched) (id : Nat) : Prop :=
  ((w.primary.wires.get id).getD []).length ≤ w.written id

instance (w : Watched) (id : Nat) : Decidable (w.Quiet id) := inferInstanceAs (Decidable (_ ≤ _))

/-- The LSNs that have gone out on a connection. -/
def sentOn (w : Watched) (id : Nat) : List Nat :=
  (((w.primary.wires.get id).getD []).take (w.written id)).filterMap lsn?

/-- The primary after a step. What a handler hands over is noted unless it is the catch-up. -/
def after (w : Watched) (p : Primary) : PrimaryStep → Watched
  | .register _ => ⟨p, update w.streamed w.primary.nextReplica [],
      update w.written w.primary.nextReplica 0⟩
  | .handler _ .readSince => ⟨p, w.streamed, w.written⟩
  | .handler id _ => ⟨p, update w.streamed id
      (w.streamed id ++ (p.handedOn id).drop (w.primary.handedOn id).length), w.written⟩
  | _ => ⟨p, w.streamed, w.written⟩

/-- A handler goes on when its message is written, or ends. -/
def awaits (w : Watched) : PrimaryStep → Bool
  | .handler id a => match a with
    | .stop => false
    | _ => !decide (w.Quiet id)
  | _ => false

def step (policy : SyncPolicy) (chunk : Nat) (w : Watched) : WatchedStep → Option Watched
  | .primary a =>
    if w.awaits a then none else (w.primary.step policy chunk a).map fun p => w.after p a
  | .written id =>
    if w.Quiet id then none else some { w with written := update w.written id (w.written id + 1) }

end Watched

/-- While a message is being written, no acknowledgement goes beyond what has gone out. -/
def Timely (w : Watched) : WatchedStep → Prop
  | .primary (.ack id l) => w.Quiet id ∨ ∃ l' ∈ w.sentOn id, l ≤ l'
  | _ => True

instance (w : Watched) : DecidablePred (Timely w) := fun a => by
  delta Timely
  split <;> infer_instance

structure Recorded (streamed handed sent : List Nat) (r : ReplicaProgress) : Prop where
  reported : ∀ l, l ≤ r.sent ↔ l = 0 ∨ ∃ l' ∈ streamed, l ≤ l'
  acknowledged : r.acknowledged ≤ r.sent
  onWire : streamed ⊆ handed
  out : r.acknowledged = 0 ∨ ∃ l' ∈ sent, r.acknowledged ≤ l'

def AcksOk (w : Watched) : Prop :=
  ∀ id r, w.primary.replicas.get id = some r →
    Recorded (w.streamed id) (w.primary.handedOn id) (w.sentOn id) r

variable {p : Primary} {w w' : Watched} {policy : SyncPolicy} {chunk id : Nat} {r : ReplicaProgress}

theorem Watched.Quiet.sentOn_eq (h : w.Quiet id) : w.sentOn id = w.primary.handedOn id := by
  rw [sentOn, take_of_length_le h, handedOn]

/-- Apart from the catch-up, a handler reports what it sends. -/
theorem turn_sent {hd : Handler} {a : HandlerStep} {t : Turn} (h : hd.turn chunk p a = some t)
    (ha : a ≠ .readSince) : t.msgs.filterMap lsn? = t.sent.toList := by
  cases a with
  | readSince => exact absurd rfl ha
  | stop =>
    cases h
    rfl
  | subscribe =>
    unfold turn at h
    dsimp only at h
    split at h <;> cases h
    rfl
  | readLsn | checkEarliest | page | forward =>
    unfold turn at h
    dsimp only at h
    split at h
    · -- a page has no LSN; after the last one the end of the snapshot is reported
      split_ifs at h <;> cases h <;> rfl
    · exact nomatch h

/-- What has gone out stays, and may become more. -/
theorem Recorded.mono {streamed handed sent sent' : List Nat} (h : Recorded streamed handed sent r)
    (hs : sent ⊆ sent') : Recorded streamed handed sent' r :=
  { h with out := h.out.imp_right fun ⟨l, hl, hle⟩ => ⟨l, hs hl, hle⟩ }

theorem Recorded.report {streamed handed sent : List Nat} (h : Recorded streamed handed sent r)
    (lsn : Option Nat) {msgs : List Nat} (hmsgs : lsn.toList ⊆ msgs) :
    Recorded (streamed ++ lsn.toList) (handed ++ msgs) sent
      { r with sent := max r.sent (lsn.getD 0) } where
  reported l := by
    rw [le_max_iff, h.reported]
    cases lsn with
    | none => simpa using Or.inl
    | some n => simp [or_assoc]
  acknowledged := h.acknowledged.trans (le_max_left _ _)
  onWire := append_subset.mpr
    ⟨subset_append_of_subset_left _ h.onWire, subset_append_of_subset_right _ hmsgs⟩
  out := h.out

variable {t : Turn} {replicas : OMap Nat ReplicaProgress}

theorem wires_handle (i : Nat) :
    (((p.setHandler id t.next).sendOn id t.msgs).wires.get i).getD [] =
      if i = id then (p.wires.get id).getD [] ++ t.msgs else (p.wires.get i).getD [] := by
  rw [get_sendOn]
  split_ifs <;> rfl

theorem handedOn_handle :
    handedOn { (p.setHandler id t.next).sendOn id t.msgs with replicas := replicas } id =
      p.handedOn id ++ t.msgs.filterMap lsn? := by
  have hwire := @wires_handle p id t id
  unfold handedOn
  rw [hwire, if_pos rfl, filterMap_append]

theorem AcksOk.handle (h : AcksOk w)
    (hsent : ∀ i, replicas.get i = (w.primary.replicas.get i).map fun r =>
      if i = id then { r with sent := max r.sent (t.sent.getD 0) } else r)
    (hmsgs : t.sent.toList ⊆ t.msgs.filterMap lsn?) :
    AcksOk ⟨{ (w.primary.setHandler id t.next).sendOn id t.msgs with replicas := replicas },
      update w.streamed id (w.streamed id ++ t.sent.toList), w.written⟩ := by
  intro i r hr
  obtain ⟨r, hr', rfl⟩ := Option.map_eq_some_iff.mp ((hsent i).symm.trans hr)
  have hold := h i r hr'
  simp only [handedOn, Watched.sentOn, wires_handle, update_apply] at hold ⊢
  split_ifs with hi
  · subst hi
    rw [filterMap_append]
    refine (hold.report t.sent hmsgs).mono ?_
    exact filterMap_subset _ (((prefix_append _ _).take _).subset)
  · exact hold

theorem AcksOk.ack (h : AcksOk w) {id l : Nat} (hl : w.Quiet id ∨ ∃ l' ∈ w.sentOn id, l ≤ l') :
    AcksOk ⟨w.primary.reportAck id l, w.streamed, w.written⟩ := by
  unfold reportAck
  split
  case h_1 => exact h
  case h_2 r hr =>
    split_ifs with hlsn
    · intro i r' hget
      rw [OMap.get_insert] at hget
      split_ifs at hget with hi
      · cases hget
        subst hi
        have hold := h i r hr
        refine ⟨hold.reported, hlsn.1, hold.onWire, ?_⟩
        change l = 0 ∨ ∃ l' ∈ w.sentOn i, l ≤ l'
        rcases hl with hq | hout
        · rw [hq.sentOn_eq]
          exact ((hold.reported l).mp hlsn.1).imp_right
            fun ⟨l', hl', hle⟩ => ⟨l', hold.onWire hl', hle⟩
        · exact .inr hout
      · exact h i r' hget
    · exact h

theorem AcksOk.written (h : AcksOk w) (id : Nat) :
    AcksOk { w with written := update w.written id (w.written id + 1) } := by
  intro i r hr
  refine (h i r hr).mono (filterMap_subset _ ?_)
  dsimp only
  rw [update_apply]
  split_ifs with hi
  · subst hi
    exact (take_prefix_take_left (Nat.le_succ _)).subset
  · exact Subset.refl _

theorem AcksOk.step (h : AcksOk w) {a : WatchedStep} (ha : Timely w a)
    (hs : w.step policy chunk a = some w') : AcksOk w' := by
  cases a with
  | written id =>
    dsimp only [Watched.step] at hs
    split_ifs at hs
    cases hs
    exact h.written id
  | primary a =>
    dsimp only [Watched.step] at hs
    split_ifs at hs
    obtain ⟨p', hp, rfl⟩ := Option.map_eq_some_iff.mp hs
    cases a with
    | submit | purge | flush =>
      cases hp
      exact h
    | writer a =>
      obtain ⟨-, hr, hw, -⟩ := write_frame hp
      intro i r hget
      have hold := h i r (hr ▸ hget)
      simp only [handedOn, Watched.sentOn] at hold
      simp only [Watched.after, handedOn, Watched.sentOn, hw]
      exact hold
    | commit i a =>
      obtain ⟨c, phase, -, rfl, -⟩ := awaitSync_eq hp
      exact h
    | ack id l =>
      cases hp
      exact h.ack ha
    | unregister id =>
      cases hp
      intro i r hget
      simp only [Watched.after, OMap.get_erase] at hget
      split_ifs at hget
      exact h i r hget
    | restart =>
      cases hp
      exact nofun
    | handler id a =>
      obtain ⟨hd, t, replicas, -, ht, rfl, hsent⟩ := handle_eq hp
      cases a with
      | readSince =>
        -- nothing is reported
        unfold turn at ht
        dsimp only at ht
        split at ht <;> cases ht
        have hturn := h.handle hsent nofun
        rwa [Option.toList_none, append_nil, update_eq_self] at hturn
      | subscribe | readLsn | checkEarliest | page | forward | stop =>
        have hnews := turn_sent ht nofun
        simp only [Watched.after]
        rw [handedOn_handle, drop_left, hnews]
        exact h.handle hsent (hnews ▸ Subset.refl _)
    | register lastLsn =>
      cases hp
      intro i r hget
      simp only [Watched.after, register, OMap.get_insert, handedOn, Watched.sentOn,
        update_apply] at hget ⊢
      split_ifs at hget ⊢
      · cases hget
        exact ⟨by simp, le_rfl, by simp, .inl rfl⟩
      · exact h i r hget

/-- In every run in which no acknowledgement beyond what was sent comes while a message is being
written, nothing beyond what was sent is recorded, and the acknowledgement of an LSN counts just if
the snapshot or the live stream has brought the connection that far. -/
theorem acknowledgement_counts_iff {binlog : Bool}
    (h : Reach (Watched.step policy chunk) Timely { primary := .fresh binlog } w)
    (hr : w.primary.replicas.get id = some r) :
    (r.acknowledged = 0 ∨ ∃ l' ∈ w.sentOn id, r.acknowledged ≤ l') ∧
      ∀ l, (∃ r', (w.primary.reportAck id l).replicas.get id = some r' ∧ l ≤ r'.acknowledged) ↔
        l = 0 ∨ ∃ l' ∈ w.streamed id, l ≤ l' := by
  have hok : AcksOk w := by
    refine h.invariant (fun id r hin => ?_) fun hs ha hstep => hs.step ha hstep
    exact nomatch hin
  have hrec := hok id r hr
  refine ⟨hrec.out, fun l => ?_⟩
  rw [← hrec.reported l]
  unfold reportAck
  rw [hr]
  dsimp only
  split_ifs with hl
  · exact ⟨fun _ => hl.1, fun _ => ⟨{ r with acknowledged := l }, by simp, le_rfl⟩⟩
  · refine ⟨?_, fun hle => ⟨r, hr, not_lt.mp fun hlt => hl ⟨hle, hlt⟩⟩⟩
    rintro ⟨r', hr', hle⟩
    cases hr.symm.trans hr'
    exact hle.trans hrec.acknowledged

def publish (k : Byte) : List WatchedStep :=
  [.submit { puts := [([k], [5])] }, .writer (.apply 0), .writer .decide, .writer .number,
    .writer (.append false), .writer .send, .writer .answer].map .primary

/-- A replica that has the first of two writes catches up from the binlog. -/
def catchUp : List WatchedStep :=
  publish 1 ++ publish 2 ++ [.register 1, .handler 0 .subscribe, .handler 0 .readLsn,
    .handler 0 .checkEarliest, .handler 0 .readSince].map .primary ++ [.written 0, .written 0]

/-- With a third write on the live stream, the acknowledgement of the second counts. -/
theorem acknowledgement_counts_live :
    ∃ w, Reach (Watched.step strictOne 4096) Timely { primary := .fresh true } w ∧
      2 ∈ w.sentOn 0 ∧
      ∃ r', (w.primary.reportAck 0 2).replicas.get 0 = some r' ∧ 2 ≤ r'.acknowledged := by
  refine Reach.exists_of_run (P := fun w => (w.primary.replicas.get 0).isSome ∧
      2 ∈ w.sentOn 0 ∧ 3 ∈ w.streamed 0)
    (catchUp ++ publish 3 ++ [.primary (.handler 0 .forward), .primary (.ack 0 1), .written 0])
    (by decide +kernel) ?_
  rintro w hreach ⟨hsome, hsent, hlive⟩
  obtain ⟨r, hr⟩ := Option.isSome_iff_exists.mp hsome
  exact ⟨hsent, ((acknowledgement_counts_iff hreach hr).2 2).mpr (.inr ⟨3, hlive, by decide⟩)⟩

/-- The replica has been sent LSN 2 and acknowledges it; nothing is recorded. With a message of the
live stream that is still being written, an acknowledgement of it is recorded. -/
theorem catch_up_not_counted :
    (∃ w, Reach (Watched.step strictOne 4096) (fun _ _ => True) { primary := .fresh true } w ∧
      2 ∈ w.sentOn 0 ∧ (w.primary.reportAck 0 2).replicas.get 0 = some ⟨0, 0⟩) ∧
    ∃ w, Reach (Watched.step strictOne 4096) (fun _ _ => True) { primary := .fresh true } w ∧
      (∀ l ∈ w.sentOn 0, l ≤ 2) ∧ (w.primary.reportAck 0 3).replicas.get 0 = some ⟨3, 3⟩ :=
  ⟨Reach.exists_of_run catchUp (by decide +kernel) fun _ _ h => h,
    Reach.exists_of_run (catchUp ++ publish 3 ++ [.primary (.handler 0 .forward)])
      (by decide +kernel) fun _ _ h => h⟩

end ElyraSql.Replication
