import ElyraSql.Replication.CatchUp

/-!
# Convergence of a replica
-/

namespace ElyraSql.Replication

open OrderedMap Numbered Transition Primary Option Replication.System List

/-! ## Invariant -/

/-- The connection of the replica. Without a binlog, nothing is known once the handler has ended. -/
def LinkOk (old : List WriteEvent) (p : Primary) (t : Table) (l : Link) : Prop :=
  l.id < p.nextReplica ∧ ∃ wire, p.wires.get l.id = some wire ∧
    match p.handlers.get l.id with
    | some h => Attached old p t wire l.reported h
    | none => p.binlog.isSome → Detached old p t wire l.reported

structure SystemOk (old : List WriteEvent) (s : System) : Prop where
  primary : PrimaryOk old s.primary
  replica : s.primary.binlog.isSome → ReplicaOk old s.primary s.replica.kv
  link : ∀ l, s.link = some l → LinkOk old s.primary s.replica.kv l

variable {p' p : Primary}

section Steps

variable {old : List WriteEvent} {s : System}

theorem SystemOk.carry (hs : SystemOk old s) (hok : PrimaryOk old p')
    (hc : s.primary.active = true → Carries old s.primary old p')
    (hchannel : s.primary.channel.length ≤ p'.channel.length)
    (hb : p'.binlog.isSome = s.primary.binlog.isSome) (hn : s.primary.nextReplica ≤ p'.nextReplica)
    (hsame : ∀ l, s.link = some l → p'.handlers.get l.id = s.primary.handlers.get l.id ∧
      p'.wires.get l.id = s.primary.wires.get l.id) : SystemOk old { s with primary := p' } where
  primary := hok
  replica hsome := by
    have hsome' : s.primary.binlog.isSome := hb ▸ hsome
    exact (hs.replica hsome').carry (hc (active_of_binlog hsome'))
  link l hl := by
    obtain ⟨hid, wire, hwire, hlink⟩ := hs.link l hl
    obtain ⟨hh, hw⟩ := hsame l hl
    refine ⟨hid.trans_le hn, wire, hw.trans hwire, ?_⟩
    rw [hh]
    cases hget : s.primary.handlers.get l.id with
    | some h =>
      rw [hget] at hlink
      exact hlink.carry hb (fun hstage => hc (active_of_handler hget hstage)) hchannel
    | none =>
      rw [hget] at hlink
      intro hsome
      have hsome' : s.primary.binlog.isSome := hb ▸ hsome
      exact (hlink hsome').carry (hc (active_of_binlog hsome')) hb

theorem SystemOk.handler (hs : SystemOk old s) {chunk id : Nat} {a : HandlerStep}
    (hsafe : SafeStep s (.primary (.handler id a))) (hp : s.primary.handle chunk id a = some p') :
    SystemOk old { s with primary := p' } := by
  obtain ⟨h, u, replicas, hget, hu, rfl, -⟩ := handle_eq hp
  have hcarry : Carries old s.primary old
      { (s.primary.setHandler id u.next).sendOn id u.msgs with replicas := replicas } :=
    .of_same rfl rfl rfl rfl rfl
  have hok : PrimaryOk old
      { (s.primary.setHandler id u.next).sendOn id u.msgs with replicas := replicas } :=
    hs.primary.of_same rfl rfl rfl rfl rfl hs.primary.files hs.primary.queue
  have hhandlers := s.primary.get_setHandler id u.next
  have hwires := (s.primary.setHandler id u.next).get_sendOn id u.msgs
  by_cases hown : ∃ l ∈ s.link, l.id = id
  · obtain ⟨l, hl, rfl⟩ := hown
    refine ⟨hok, fun hsome => (hs.replica hsome).carry hcarry, fun l' hl' => ?_⟩
    obtain rfl : l = l' := some.inj (hl.symm.trans hl')
    obtain ⟨hid, wire, hwire, hlink⟩ := hs.link l hl
    rw [hget] at hlink
    have hserved := hlink.turn hs.primary hs.replica
      (fun ha => by
        subst ha
        exact hsafe ⟨l, hl, rfl⟩ h hget)
      (fun ha => by
        subst ha
        exact hsafe ⟨l, hl, rfl⟩ h hget) hu
    refine ⟨hid, wire ++ u.msgs, ?_, ?_⟩
    · refine (hwires l.id).trans ?_
      rw [if_pos rfl]
      exact congrArg (fun w => some (getD w [] ++ u.msgs)) hwire
    · have hnext := (hhandlers l.id).trans (if_pos rfl)
      change match (s.primary.setHandler l.id u.next).handlers.get l.id with
        | some h => Attached old _ s.replica.kv (wire ++ u.msgs) l.reported h
        | none => _ → Detached old _ s.replica.kv (wire ++ u.msgs) l.reported
      rw [hnext]
      cases hu' : u.next with
      | some h' =>
        rw [hu'] at hserved
        exact hserved.carry (p := s.primary) rfl (fun _ => .of_same rfl rfl rfl rfl rfl) le_rfl
      | none =>
        rw [hu'] at hserved
        exact fun hsome => (hserved hsome).carry (p := s.primary) (.of_same rfl rfl rfl rfl rfl) rfl
  · -- the handler of another replica
    refine hs.carry hok (fun _ => hcarry) le_rfl rfl le_rfl fun l hl => ?_
    have hne : l.id ≠ id := fun heq => hown ⟨l, hl, heq⟩
    exact ⟨(hhandlers l.id).trans (if_neg hne), (hwires l.id).trans (if_neg hne)⟩

theorem systemOk_wiped (hok : PrimaryOk old p) : SystemOk old ⟨p, emptyStorage, none⟩ :=
  ⟨hok, fun _ => replicaOk_of_zero readAppliedLsn_empty, nofun⟩

theorem SystemOk.receive {s' : System} {policy : SyncPolicy} {chunk : Nat} (hs : SystemOk old s)
    (hstep : s.step policy chunk .receive = some s') : SystemOk old s' := by
  obtain ⟨l, hl, hrecv⟩ := bind_eq_some_iff.mp hstep
  split at hrecv
  case h_2 => exact nomatch hrecv
  case h_1 m wire hwire =>
    cases hrecv
    have hok : PrimaryOk old { s.primary with wires := s.primary.wires.insert l.id wire } :=
      hs.primary.of_same rfl rfl rfl rfl rfl hs.primary.files hs.primary.queue
    have hcarry : Carries old s.primary old
        { s.primary with wires := s.primary.wires.insert l.id wire } :=
      .of_same rfl rfl rfl rfl rfl
    by_cases hm : m = .resync
    · subst hm
      exact systemOk_wiped hok
    · have hhandle : handle { s with
          primary := { s.primary with wires := s.primary.wires.insert l.id wire } } l m =
          ⟨{ s.primary with wires := s.primary.wires.insert l.id wire }, commitMsg s.replica m,
            some { l with reported := m.lsn?.or l.reported }⟩ := by
        cases m with
        | resync => exact absurd rfl hm
        | snap | snapEnd | write => rfl
      rw [hhandle]
      obtain ⟨hid, wire', hwire', hlink⟩ := hs.link l hl
      obtain rfl : m :: wire = wire' := some.inj (hwire.symm.trans hwire')
      cases hget : s.primary.handlers.get l.id with
      | some h =>
        rw [hget] at hlink
        obtain ⟨ha, hreplica⟩ := hlink.receive hs.primary hm
        refine ⟨hok, fun hsome => (hreplica hsome).carry hcarry, fun l' hl' => ?_⟩
        cases hl'
        refine ⟨hid, wire, by simp, ?_⟩
        rw [hget]
        exact ha.carry (p := s.primary) rfl (fun _ => hcarry) le_rfl
      | none =>
        rw [hget] at hlink
        refine ⟨hok, fun hsome => ((hlink hsome).receive hs.primary hm hsome).2.carry hcarry,
          fun l' hl' => ?_⟩
        cases hl'
        refine ⟨hid, wire, by simp, ?_⟩
        rw [hget]
        exact fun hsome => ((hlink hsome).receive hs.primary hm hsome).1.carry hcarry rfl

end Steps

/-! ## All steps -/

section Run

variable {old : List WriteEvent} {s s' : System} {policy : SyncPolicy} {chunk : Nat}

/-- A new process of the primary: the handlers are gone. -/
theorem SystemOk.restart (hs : SystemOk old s) (hsafe : SafeStep s (.primary .restart)) :
    ∃ old', SystemOk old' { s with primary := s.primary.restart } := by
  cases hbinlog : s.primary.binlog with
  | none =>
    have hnone : s.primary.restart.binlog = none := by simp [Primary.restart, hbinlog]
    refine ⟨[], hs.primary.restart_without hbinlog, fun hsome => ?_, fun l hl => ?_⟩
    · rw [hnone] at hsome
      cases hsome
    · obtain ⟨hid, wire, hwire, -⟩ := hs.link l hl
      refine ⟨hid, wire, hwire, fun hsome => ?_⟩
      rw [hnone] at hsome
      cases hsome
  | some f =>
    obtain ⟨hpending, hmax⟩ := hsafe f hbinlog
    obtain ⟨hok, hcarry⟩ := hs.primary.restart_with hbinlog hpending hmax
    have hsome : s.primary.binlog.isSome := by rw [hbinlog]; rfl
    have hsame : s.primary.restart.binlog.isSome = s.primary.binlog.isSome := by
      simp [Primary.restart]
    refine ⟨_, hok, fun _ => (hs.replica hsome).carry hcarry, fun l hl => ?_⟩
    obtain ⟨hid, wire, hwire, hlink⟩ := hs.link l hl
    refine ⟨hid, wire, hwire, fun _ => ?_⟩
    cases hget : s.primary.handlers.get l.id with
    | some h =>
      rw [hget] at hlink
      exact (hlink.stop hsome).carry hcarry hsame
    | none =>
      rw [hget] at hlink
      exact (hlink hsome).carry hcarry hsame

theorem SystemOk.primaryStep (hs : SystemOk old s) {a : PrimaryStep}
    (hsafe : SafeStep s (.primary a)) (hp : s.primary.step policy chunk a = some p') :
    ∃ old', SystemOk old' { s with primary := p' } := by
  have hok := hs.primary
  cases a with
  | submit job =>
    cases hp
    refine ⟨old, hs.carry (hok.of_same rfl rfl rfl rfl rfl hok.files fun j hj => ?_)
      (fun _ => .of_same rfl rfl rfl rfl rfl) le_rfl rfl le_rfl fun _ _ => ⟨rfl, rfl⟩⟩
    rcases mem_append.mp hj with hj | hj
    · exact hok.queue j hj
    · rw [mem_singleton.mp hj]
      exact hsafe
  | writer a =>
    obtain ⟨hok', hcarry⟩ := hok.write (fun ha => by subst ha; exact hsafe) hp
    obtain ⟨hhandlers, -, hwires, hnext, -, hchannel, hbinlog⟩ := write_frame hp
    exact ⟨old, hs.carry hok' hcarry hchannel hbinlog hnext.ge fun l _ =>
      ⟨by rw [hhandlers], by rw [hwires]⟩⟩
  | commit i a =>
    obtain ⟨c, phase, -, rfl, -⟩ := awaitSync_eq hp
    exact ⟨old, hs.carry (hok.of_same rfl rfl rfl rfl rfl hok.files hok.queue)
      (fun _ => .of_same rfl rfl rfl rfl rfl) le_rfl rfl le_rfl fun _ _ => ⟨rfl, rfl⟩⟩
  | register lastLsn =>
    cases hp
    refine ⟨old, hs.carry (hok.of_same rfl rfl rfl rfl rfl hok.files hok.queue)
      (fun _ => .of_same rfl rfl rfl rfl rfl) le_rfl rfl (Nat.le_succ _) fun l hl => ?_⟩
    have hne : l.id ≠ s.primary.nextReplica := (hs.link l hl).1.ne
    simp only [register, OMap.get_insert, if_neg hne, and_self]
  | handler id a => exact ⟨old, hs.handler hsafe hp⟩
  | ack id lsn =>
    cases hp
    have hframe : s.primary.reportAck id lsn = { s.primary with
        replicas := (s.primary.reportAck id lsn).replicas
        acks := (s.primary.reportAck id lsn).acks } := by
      unfold reportAck
      split
      · rfl
      · split_ifs <;> rfl
    rw [hframe]
    exact ⟨old, hs.carry (hok.of_same rfl rfl rfl rfl rfl hok.files hok.queue)
      (fun _ => .of_same rfl rfl rfl rfl rfl) le_rfl rfl le_rfl fun _ _ => ⟨rfl, rfl⟩⟩
  | unregister id =>
    cases hp
    exact ⟨old, hs.carry (hok.of_same rfl rfl rfl rfl rfl hok.files hok.queue)
      (fun _ => .of_same rfl rfl rfl rfl rfl) le_rfl rfl le_rfl fun _ _ => ⟨rfl, rfl⟩⟩
  | purge boundary =>
    cases hp
    refine ⟨old, hs.carry (hok.of_same rfl rfl rfl rfl rfl (fun f hf => ?_) hok.queue)
      (fun _ => .of_same rfl rfl rfl rfl rfl) le_rfl (by simp) le_rfl fun _ _ => ⟨rfl, rfl⟩⟩
    obtain ⟨g, hg, rfl⟩ := map_eq_some_iff.mp hf
    obtain ⟨hgok, hrecords⟩ := hok.files g hg
    exact ⟨hgok.purge boundary, (hgok.records_purge boundary).trans hrecords⟩
  | flush seq =>
    cases hp
    obtain ⟨hok', hcarry⟩ := hok.flush seq
    exact ⟨old, hs.carry hok' (fun _ => hcarry) le_rfl rfl le_rfl fun _ _ => ⟨rfl, rfl⟩⟩
  | restart =>
    cases hp
    exact hs.restart hsafe

theorem SystemOk.step (hs : SystemOk old s) {a : SystemStep} (hsafe : SafeStep s a)
    (hstep : s.step policy chunk a = some s') : ∃ old', SystemOk old' s' := by
  cases a with
  | primary a =>
    obtain ⟨p', hp, rfl⟩ := map_eq_some_iff.mp hstep
    exact hs.primaryStep hsafe hp
  | connect =>
    cases hstep
    have hok := hs.primary
    have hcarry : Carries old s.primary old (s.primary.register (readAppliedLsn s.replica.kv)) :=
      .of_same rfl rfl rfl rfl rfl
    refine ⟨old, hok.of_same rfl rfl rfl rfl rfl hok.files hok.queue,
      fun hsome => (hs.replica hsome).carry hcarry, fun l hl => ?_⟩
    cases hl
    refine ⟨Nat.lt_succ_self _, [], by simp [register], ?_⟩
    simp only [register, OMap.get_insert]
    exact ⟨rfl, rfl, rfl⟩
  | receive => exact ⟨old, hs.receive hstep⟩
  | disconnect =>
    cases hstep
    exact ⟨old, hs.primary, hs.replica, nofun⟩
  | restartReplica =>
    cases hstep
    exact ⟨old, systemOk_wiped hs.primary⟩

theorem systemOk_start {storage : Storage} (hkey : storage.kv.get replLsnKey = none)
    (binlog : Bool) : SystemOk [] (start storage binlog) := by
  refine systemOk_wiped ⟨consecutive_nil, ?_, ?_, nofun, nofun, fun _ => rfl, ?_, fun f hf => ?_,
    fun _ _ => rfl, hkey, nofun⟩
  · cases binlog <;> rfl
  · cases binlog <;> exact (by decide : 0 < 2 ^ 64)
  · exact fun _ _ he => nomatch he
  · cases binlog with
    | false => exact nomatch hf
    | true =>
      cases hf
      exact ⟨BinlogFiles.ok_empty.start, List.nil_suffix⟩

/-- What a replica has reported came over its wire. -/
theorem LinkOk.onWire {t : Table} {l : Link} (h : LinkOk old p t l)
    (hlive : (p.handlers.get l.id).isSome ∨ p.binlog.isSome) {n : Nat}
    (hreported : l.reported = some n) : ∃ wire q, OnWire old p t wire (some n) q := by
  obtain ⟨-, wire, -, hlink⟩ := h
  cases hget : p.handlers.get l.id with
  | some h =>
    rw [hget, hreported] at hlink
    change Attached old p t wire (some n) h at hlink
    unfold Attached at hlink
    cases hstage : h.stage with
    | registered | subscribed | opened | covered =>
      rw [hstage] at hlink
      exact nomatch hlink.2.1
    | paging cursor =>
      rw [hstage] at hlink
      exact nomatch hlink.1
    | streaming =>
      rw [hstage] at hlink
      exact ⟨wire, _, hlink.2⟩
  | none =>
    rw [hget] at hlive
    rw [hget, hreported] at hlink
    rcases hlink (hlive.resolve_left nofun) with ⟨hnone, -⟩ | ⟨q, hq⟩
    · exact nomatch hnone
    · exact ⟨wire, q, hq⟩

/-- In every run whose steps meet the conditions, a replica that has reported the last LSN of an
idle primary, on a connection that still has its handler or to a primary with a binlog, has the rows
of the primary and no others. -/
theorem replica_converges {storage : Storage} (hkey : storage.kv.get replLsnKey = none)
    {binlog : Bool}
    (h : Reach (System.step policy chunk) SafeStep (System.start storage binlog) s) {l : Link}
    (hl : s.link = some l)
    (hlive : (s.primary.handlers.get l.id).isSome ∨ s.primary.binlog.isSome)
    (hreported : l.reported = some s.primary.lsn) (hidle : s.primary.jobs = []) {k : Bytes}
    (hk : ¬ Bookkeeping k) : s.replica.kv.get k = s.primary.storage.kv.get k := by
  obtain ⟨old, hs⟩ := Reach.invariant (I := fun s => ∃ old, SystemOk old s)
    ⟨[], systemOk_start hkey binlog⟩ (fun ⟨_, hs⟩ hsafe hstep => hs.step hsafe hstep) h
  obtain ⟨wire, q, hw⟩ := (hs.link l hl).onWire hlive hreported
  cases hw with
  | stream _ hagree _ hrep =>
    have hlsn : s.primary.lsn = readAppliedLsn s.replica.kv :=
      Option.some.inj (hrep.resolve_left nofun)
    -- nothing is left to be done from the last LSN on
    have hstage := hs.primary.idle hidle
    have hrest : s.primary.rest old s.primary.lsn k = [] := by
      rw [rest, List.drop_of_length_le hs.primary.length_le.2, pendingAfter]
      rw [pending, hstage, hidle]
      rfl
    have hfinal := hagree k hk
    rwa [← hlsn, hrest] at hfinal

end Run

/-! ## Runs -/

instance (s : System) (a : SystemStep) : Decidable (SafeStep s a) := by
  delta SafeStep
  split <;> infer_instance

/-- A write is submitted, numbered, logged and sent. -/
def streamWrite (job : WriteJob) : List SystemStep :=
  [.primary (.submit job), .primary (.writer (.apply 0)), .primary (.writer .decide),
    .primary (.writer .number), .primary (.writer (.append false)), .primary (.writer .send),
    .primary (.writer .answer)]

/-- A replica gets the snapshot of an empty primary and then a row. -/
def rowReceived : List SystemStep :=
  [.connect, .primary (.handler 0 .subscribe), .primary (.handler 0 .readLsn),
    .primary (.handler 0 .page), .receive] ++ streamWrite { puts := [([1], [5])] } ++
  [.primary (.handler 0 .forward), .receive]

/-- The primary is started again, without a binlog, and deletes the row before the replica is back.
-/
def deletedWhileAway : List SystemStep :=
  rowReceived ++
  [.primary .restart, .disconnect,
    .primary (.submit { deletes := [[1]] }), .primary (.writer (.apply 0)),
    .primary (.writer .decide), .primary (.writer .answer),
    .connect, .primary (.handler 1 .subscribe), .primary (.handler 1 .readLsn),
    .primary (.handler 1 .page), .receive, .receive]

/-- The replica keeps the row: its LSN 1 is above the new counter, so it gets all rows again, on top
of its own, and reports the last LSN of the primary, which is 0. -/
theorem restart_resurrects :
    ∃ (s : System) (l : Link),
      Reach (System.step ⟨0, 0, false⟩ 4096) (fun _ _ => True) (System.start emptyStorage false) s ∧
      s.link = some l ∧ (s.primary.handlers.get l.id).isSome ∧
      l.reported = some s.primary.lsn ∧ s.primary.jobs = [] ∧
      s.primary.storage.kv.get [1] = none ∧ s.replica.kv.get [1] = some [5] := by
  simp only [exists_and_left]
  refine Reach.exists_of_run (P := fun s => ∃ l ∈ s.link,
      (s.primary.handlers.get l.id).isSome ∧ l.reported = some s.primary.lsn ∧
      s.primary.jobs.isEmpty ∧ s.primary.storage.kv.get [1] = none ∧
      s.replica.kv.get [1] = some [5]) deletedWhileAway (by decide +kernel) ?_
  rintro s - ⟨l, hl, hlive, hrep, hidle, hkept⟩
  exact ⟨l, hl, hlive, hrep, List.isEmpty_iff.mp hidle, hkept⟩

/-- The replica loses its connection, and catches up from the binlog with a write and a delete that
it has missed. -/
def caughtUp : List SystemStep :=
  rowReceived ++ [.disconnect, .primary (.flush 1), .primary .restart] ++
  streamWrite { puts := [([2], [6])], deletes := [[1]] } ++
  [.connect, .primary (.handler 1 .subscribe), .primary (.handler 1 .readLsn),
    .primary (.handler 1 .checkEarliest), .primary (.handler 1 .readSince), .receive, .receive]

theorem replica_converges_caughtUp :
    ∃ (s : System) (l : Link),
      Reach (System.step ⟨0, 0, false⟩ 4096) SafeStep (System.start emptyStorage true) s ∧
      s.link = some l ∧ l.reported = some s.primary.lsn ∧ s.primary.lsn = 2 ∧
      s.replica.kv.get [1] = s.primary.storage.kv.get [1] ∧
      s.replica.kv.get [2] = s.primary.storage.kv.get [2] := by
  simp only [exists_and_left]
  refine Reach.exists_of_run (P := fun s => ∃ l ∈ s.link,
      (s.primary.handlers.get l.id).isSome ∧ l.reported = some s.primary.lsn ∧
      s.primary.jobs.isEmpty ∧ s.primary.lsn = 2) caughtUp (by decide +kernel) ?_
  rintro s hreach ⟨l, hl, hlive, hrep, hidle, hlsn⟩
  have hconv := fun k (hk : ¬ Bookkeeping k) =>
    replica_converges rfl hreach hl (.inl hlive) hrep (List.isEmpty_iff.mp hidle) hk
  exact ⟨l, hl, hrep, hlsn, hconv [1] (by decide), hconv [2] (by decide)⟩

end ElyraSql.Replication
