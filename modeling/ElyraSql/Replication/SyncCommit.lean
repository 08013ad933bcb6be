import ElyraSql.Replication.Primary

/-!
# Strict synchronous commits

A commit call reads the LSN counter after the writer has answered it, and returns when enough
registered replicas have acknowledged that LSN. If its write set was published, that LSN is not
below its own. The writer does not publish while there is neither a binlog nor a receiver of the
channel; then the commit waits for an earlier LSN, or for 0, which every replica has from its
registration.
-/

namespace ElyraSql.Replication

open OrderedMap GroupCommitLemmas Transition Option Primary List

def Writes (job : WriteJob) : Prop := ¬ ((published job).isEmpty ∧ job.deletes.isEmpty)

instance : DecidablePred Writes := fun _ => instDecidableNot

/-- A job that was committed finds a binlog or a receiver when the writer comes to publish it. -/
def PublishesAll (p : Primary) : PrimaryStep → Prop
  | .writer .decide => ∀ e ∈ p.jobs.head?, e.2.isOk → Writes e.1 → p.active = true
  | _ => True

/-! ## Invariant -/

def Stage.lsn? : Stage → Option Nat
  | .numbered lsn | .logged lsn => some lsn
  | .done lsn => lsn
  | .applied | .publishing => none

/-- A commit call that may still succeed has an LSN, and waits for no smaller one. -/
structure CommitOk (lsn : Nat) (c : Commit) : Prop where
  numbered : c.phase ≠ .returned false → Writes c.job → ∃ l, c.lsn = some l
  bounds : ∀ l, c.lsn = some l → 0 < l ∧ l ≤ lsn
  target : ∀ l t, c.lsn = some l → c.phase = .waiting t → l ≤ t

structure SyncOk (p : Primary) : Prop where
  stage : ∀ l, p.stage.lsn? = some l → 0 < l ∧ l ≤ p.lsn
  skipped : p.stage = .done none → ∀ e ∈ p.jobs.head?, e.2.isOk → ¬ Writes e.1
  commits : ∀ c ∈ p.commits, CommitOk p.lsn c
  acks : ∀ id r, p.replicas.get id = some r → r.acknowledged = 0 ∨ (id, r.acknowledged) ∈ p.acks

theorem syncOk_restart (p : Primary) : SyncOk p.restart where
  stage := nofun
  skipped := nofun
  commits := nofun
  acks _ _ h := nomatch h

theorem CommitOk.mono {lsn lsn' : Nat} {c : Commit} (h : CommitOk lsn c) (hle : lsn ≤ lsn') :
    CommitOk lsn' c where
  numbered := h.numbered
  bounds l hl := ⟨(h.bounds l hl).1, (h.bounds l hl).2.trans hle⟩
  target := h.target

variable {p p' : Primary} {policy : SyncPolicy}

variable (h : SyncOk p)
include h

/-- What a handler or a registration does is not seen by the writer and the commit calls. -/
theorem SyncOk.frame (hstage : p'.stage = p.stage) (hjobs : p'.jobs = p.jobs)
    (hlsn : p'.lsn = p.lsn) (hcommits : p'.commits = p.commits)
    (hacks : ∀ id r, p'.replicas.get id = some r →
      r.acknowledged = 0 ∨ (id, r.acknowledged) ∈ p'.acks) : SyncOk p' where
  stage := by
    rw [hstage, hlsn]
    exact h.stage
  skipped := by
    rw [hstage, hjobs]
    exact h.skipped
  commits := by
    rw [hcommits, hlsn]
    exact h.commits
  acks := hacks

theorem SyncOk.write {a : WriterStep} (hok : PublishesAll p (.writer a))
    (hp : p.write a = some p') : SyncOk p' := by
  cases a with
  | apply behind =>
    simp only [Primary.write] at hp
    split at hp
    case h_1 =>
      cases hp
      exact ⟨nofun, nofun, h.commits, h.acks⟩
    case h_2 => exact nomatch hp
  | decide =>
    simp only [Primary.write] at hp
    split at hp
    case h_1 job r jobs hstage hjobs =>
      split_ifs at hp with hpub
      · cases hp
        exact ⟨nofun, nofun, h.commits, h.acks⟩
      · cases hp
        refine ⟨nofun, fun _ e he hr hw => ?_, h.commits, h.acks⟩
        have heq : e = (job, r) := by
          rw [hjobs] at he
          exact (some.inj he).symm
        have hactive := hok e he hr hw
        rw [heq] at hr hw
        exact hpub ⟨hr, hactive, hw⟩
    case h_2 => exact nomatch hp
  | number =>
    simp only [Primary.write] at hp
    split at hp
    case h_1 =>
      cases hp
      refine ⟨fun l hl => ?_, nofun, fun c hc => ?_, h.acks⟩
      · cases hl
        exact ⟨Nat.succ_pos _, le_rfl⟩
      · exact (h.commits c hc).mono (Nat.le_succ _)
    case h_2 => exact nomatch hp
  | append full | send =>
    simp only [Primary.write] at hp
    split at hp
    case h_1 lsn job r jobs hstage hjobs =>
      cases hp
      refine { stage := fun l hl => ?_, skipped := nofun, commits := h.commits, acks := h.acks }
      exact h.stage l (by rw [hstage]; exact hl)
    case h_2 => exact nomatch hp
  | answer =>
    simp only [Primary.write] at hp
    split at hp
    case h_1 lsn job r jobs hstage hjobs =>
      cases hp
      refine ⟨nofun, nofun, fun c hc => ?_, h.acks⟩
      rcases mem_append.mp hc with hc | hc
      · exact h.commits c hc
      · rw [mem_singleton.mp hc]
        refine ⟨fun hphase hw => ?_, fun l hl => h.stage l (by rw [hstage]; exact hl),
          fun l t _ ht => ?_⟩
        · -- a job without a number was refused or writes nothing
          cases lsn with
          | some l => exact ⟨l, rfl⟩
          | none =>
            have hr : r.isOk := by
              by_contra hr
              exact hphase (if_neg hr)
            exact absurd hw (h.skipped hstage (job, r) (by rw [hjobs]; rfl) hr)
        · split_ifs at ht
    case h_2 => exact nomatch hp

theorem SyncOk.awaitSync {i : Nat} {a : CommitStep}
    (hp : p.awaitSync policy i a = some p') : SyncOk p' := by
  obtain ⟨c, phase, hc, rfl, hbefore, hwait, -⟩ := awaitSync_eq hp
  have hcok := h.commits c (mem_of_getElem? hc)
  refine { stage := h.stage, skipped := h.skipped, commits := fun d hd => ?_, acks := h.acks }
  rcases mem_or_eq_of_mem_set hd with hd | rfl
  · exact h.commits d hd
  · refine ⟨fun _ hw => hcok.numbered hbefore hw, hcok.bounds, fun l t hl ht => ?_⟩
    rw [hwait t ht]
    exact (hcok.bounds l hl).2

theorem SyncOk.reportAck (id lsn : Nat) : SyncOk (p.reportAck id lsn) := by
  unfold Primary.reportAck
  split
  case h_1 => exact h
  case h_2 r hr =>
    split_ifs
    · refine h.frame rfl rfl rfl rfl fun i r' hget => ?_
      rw [OMap.get_insert] at hget
      split_ifs at hget with hi
      · cases hget
        rw [hi]
        exact .inr mem_cons_self
      · exact (h.acks i r' hget).imp_right (mem_cons_of_mem _)
    · exact h

theorem SyncOk.step {chunk : Nat} {a : PrimaryStep} (hok : PublishesAll p a)
    (hp : p.step policy chunk a = some p') : SyncOk p' := by
  cases a with
  | submit job =>
    cases hp
    exact h.frame rfl rfl rfl rfl h.acks
  | writer a => exact h.write hok hp
  | commit i a => exact h.awaitSync hp
  | register lastLsn =>
    cases hp
    refine h.frame rfl rfl rfl rfl fun i r hget => ?_
    simp only [register, OMap.get_insert] at hget
    split_ifs at hget
    · cases hget
      exact .inl rfl
    · exact h.acks i r hget
  | handler id a =>
    obtain ⟨hd, t, replicas, -, -, rfl, hsent⟩ := handle_eq hp
    refine h.frame rfl rfl rfl rfl fun i r hget => ?_
    obtain ⟨r', hr', rfl⟩ := map_eq_some_iff.mp ((hsent i).symm.trans hget)
    split_ifs <;> exact h.acks i r' hr'
  | ack id lsn =>
    cases hp
    exact h.reportAck id lsn
  | unregister id =>
    cases hp
    refine h.frame rfl rfl rfl rfl fun i r hget => ?_
    rw [OMap.get_erase] at hget
    split_ifs at hget
    exact h.acks i r hget
  | purge | flush =>
    cases hp
    exact h.frame rfl rfl rfl rfl h.acks
  | restart =>
    cases hp
    exact syncOk_restart p

omit h

/-! ## Commits -/

/-- Fewer replicas have acknowledged more. -/
theorem Primary.ackedCount_anti (p : Primary) {l t : Nat} (h : l ≤ t) :
    p.ackedCount t ≤ p.ackedCount l := by
  refine (monotone_filter_right _ fun e he => ?_).length_le
  simp only [decide_eq_true_eq] at he ⊢
  exact h.trans he

/-- Only its own steps change a commit call, as long as the process lives. -/
theorem commit_of_step {chunk : Nat} {a : PrimaryStep} {i : Nat} {c c' : Commit}
    (hc : p.commits[i]? = some c) (hp : p.step policy chunk a = some p')
    (hc' : p'.commits[i]? = some c') : c' = c ∨ ∃ b, a = .commit i b := by
  have hsame : p'.commits = p.commits → c' = c := fun heq => by
    rw [heq, hc] at hc'
    exact (some.inj hc').symm
  cases a with
  | commit j b =>
    by_cases hj : j = i
    · exact .inr ⟨b, by rw [hj]⟩
    · obtain ⟨d, phase, -, rfl, -⟩ := awaitSync_eq hp
      rw [getElem?_set_ne hj, hc] at hc'
      exact .inl (some.inj hc').symm
  | writer b =>
    obtain ⟨-, -, -, -, ⟨more, heq⟩, -⟩ := write_frame hp
    rw [← heq, List.getElem?_append_left (List.getElem?_eq_some_iff.mp hc).1, hc] at hc'
    exact .inl (some.inj hc').symm
  | handler id b =>
    obtain ⟨hd, t, replicas, -, -, rfl, -⟩ := handle_eq hp
    exact .inl (hsame rfl)
  | ack id lsn =>
    cases hp
    refine .inl (hsame ?_)
    unfold Primary.reportAck
    split
    · rfl
    · split_ifs <;> rfl
  | submit | register | unregister | purge | flush =>
    cases hp
    exact .inl (hsame rfl)
  | restart =>
    cases hp
    exact nomatch hc'

/-- With a strict policy, when a commit call comes to return Ok, as many registered replicas as the
policy requires have acknowledged an LSN that is not below the one its write set was given. -/
theorem commit_acknowledged {policy : SyncPolicy} {chunk : Nat} {q : Primary}
    (hstrict : policy.strict = true)
    (h : Reach (step policy chunk) PublishesAll q.restart p) {a : PrimaryStep}
    (hp : p.step policy chunk a = some p') {i : Nat} {c c' : Commit}
    (hc : p.commits[i]? = some c) (hbefore : c.phase ≠ .returned true)
    (hc' : p'.commits[i]? = some c') (hret : c'.phase = .returned true) (hw : Writes c'.job) :
    ∃ lsn, c'.lsn = some lsn ∧ policy.required ≤ p'.ackedCount lsn ∧
      ∀ id r, p'.replicas.get id = some r → lsn ≤ r.acknowledged →
        (id, r.acknowledged) ∈ p'.acks := by
  have hok := Reach.invariant (I := SyncOk) (syncOk_restart q) (fun h hok hp => h.step hok hp) h
  rcases commit_of_step hc hp hc' with rfl | ⟨b, rfl⟩
  · exact absurd hret hbefore
  obtain ⟨d, phase, hd, rfl, hopen, -, hcount⟩ := awaitSync_eq hp
  obtain rfl : c = d := Option.some.inj (hc.symm.trans hd)
  obtain rfl : { c with phase := phase } = c' := by
    have hi : i < p.commits.length := (List.getElem?_eq_some_iff.mp hc).1
    rw [getElem?_set_self hi] at hc'
    exact Option.some.inj hc'
  have hcok := hok.commits c (mem_of_getElem? hc)
  obtain ⟨lsn, hlsn⟩ := hcok.numbered hopen hw
  refine ⟨lsn, hlsn, ?_, fun id r hr hle => ?_⟩
  · rcases hcount hret hstrict with h0 | ⟨target, htarget, hle⟩
    · rw [h0]
      exact Nat.zero_le _
    · exact hle.trans (p.ackedCount_anti (hcok.target lsn target hlsn htarget))
  · -- an LSN is positive, so it is above what a replica starts with
    have hpos := (hcok.bounds lsn hlsn).1
    rcases hok.acks id r hr with h0 | hmem
    · omega
    · exact hmem

/-! ## Runs -/

/-- One replica has to confirm, and the commit waits as long as it takes. -/
def strictOne : SyncPolicy := ⟨1, 0, true⟩

instance (p : Primary) (a : PrimaryStep) : Decidable (PublishesAll p a) := by
  delta PublishesAll
  split <;> infer_instance

/-- A write without a replica, whose commit waits. Then a replica connects. -/
def registerLate : List PrimaryStep :=
  [.submit { puts := [([1], [5])] }, .writer (.apply 0), .writer .decide, .writer .answer,
    .commit 0 .enter, .register 0]

/-- The registration alone makes the commit return Ok: no LSN has been given, and none has been
acknowledged. -/
theorem registration_confirms :
    ∃ (p p' : Primary) (c : Commit),
      Reach (step strictOne 4096) (fun _ _ => True) (fresh false) p ∧
      p.step strictOne 4096 (.commit 0 .check) = some p' ∧
      p'.commits[0]? = some c ∧ c.phase = .returned true ∧ Writes c.job ∧ c.lsn = none ∧
      p'.acks = [] := by
  have hrun : ((run (guarded (step strictOne 4096) fun _ _ => True) (fresh false)
      registerLate).bind fun p => (p.step strictOne 4096 (.commit 0 .check)).bind fun p' =>
        p'.commits[0]?.map fun c => decide (c.phase = .returned true ∧ Writes c.job ∧
          c.lsn = none ∧ p'.acks = [])) = some true := by
    decide +kernel
  obtain ⟨p, hp, hrest⟩ := bind_eq_some_iff.mp hrun
  obtain ⟨p', hp', hrest⟩ := bind_eq_some_iff.mp hrest
  obtain ⟨c, hc, hdec⟩ := map_eq_some_iff.mp hrest
  exact ⟨p, p', c, Reach.of_guarded_run hp, hp', hc, of_decide_eq_true hdec⟩

/-- A replica has its snapshot before the write, which is forwarded to it and acknowledged. -/
def acknowledgedWrite : List PrimaryStep :=
  [.register 0, .handler 0 .subscribe, .handler 0 .readLsn, .handler 0 .page,
    .submit { puts := [([1], [5])] }, .writer (.apply 0), .writer .decide, .writer .number,
    .writer (.append false), .writer .send, .writer .answer, .commit 0 .enter,
    .handler 0 .forward, .ack 0 1]

theorem commit_acknowledged_forwarded :
    ∃ (p p' : Primary) (c : Commit),
      Reach (step strictOne 4096) PublishesAll (fresh false) p ∧
      p.step strictOne 4096 (.commit 0 .check) = some p' ∧
      p'.commits[0]? = some c ∧
      ∃ lsn, c.lsn = some lsn ∧ 1 ≤ p'.ackedCount lsn ∧
        ∀ id r, p'.replicas.get id = some r → lsn ≤ r.acknowledged →
          (id, r.acknowledged) ∈ p'.acks := by
  have hrun : ((run (guarded (step strictOne 4096) PublishesAll) (fresh false)
      acknowledgedWrite).bind fun p => p.commits[0]?.bind fun c =>
        (p.step strictOne 4096 (.commit 0 .check)).bind fun p' => p'.commits[0]?.map fun c' =>
          decide (c.phase ≠ .returned true ∧ c'.phase = .returned true ∧ Writes c'.job)) =
      some true := by
    decide +kernel
  obtain ⟨p, hp, hrest⟩ := bind_eq_some_iff.mp hrun
  obtain ⟨c, hc, hrest⟩ := bind_eq_some_iff.mp hrest
  obtain ⟨p', hp', hrest⟩ := bind_eq_some_iff.mp hrest
  obtain ⟨c', hc', hdec⟩ := map_eq_some_iff.mp hrest
  obtain ⟨hbefore, hret, hw⟩ := of_decide_eq_true hdec
  have hreach := Reach.of_guarded_run hp
  exact ⟨p, p', c', hreach, hp', hc', commit_acknowledged rfl hreach hp' hc hbefore hc' hret hw⟩

end ElyraSql.Replication
