import ElyraSql.Replication.Pending

/-!
# What is on the wire to a replica

A replica gets all rows page by page, or the part of the binlog that it lacks, and then the events
of the channel. What is on its wire and what comes after it in the log lead from its table to that
of the primary.
-/

namespace ElyraSql.Replication

open OrderedMap Overwrite List OMap Primary Replication.WriteEvent

/-! ## What is on a wire -/

def ReplMsg.effect (k : Bytes) : ReplMsg → Option (Option Bytes)
  | .snap pairs => WriteEvent.effect ⟨0, pairs, []⟩ k
  | .write e => e.effect k
  | .resync | .snapEnd _ => none

/-- The rows of the replica once these messages have arrived. -/
def arriving (wire : List ReplMsg) (t : Table) (k : Bytes) : Option Bytes :=
  final (wire.map (·.effect k)) (t.get k)

/-- Pages of a snapshot, which do not set the LSN of the replica. -/
def Pages (wire : List ReplMsg) : Prop :=
  ∀ m ∈ wire, ∃ pairs, m = .snap pairs ∧ ∀ e ∈ pairs, e.1 ≠ replLsnKey

/-- Messages that follow the log from one LSN to another. -/
inductive Follows (log : List WriteEvent) : Nat → List ReplMsg → Nat → Prop
  | nil {n : Nat} : Follows log n [] n
  | write {n m : Nat} {e : WriteEvent} {wire : List ReplMsg} :
      log[n]? = some e → Follows log (n + 1) wire m → Follows log n (.write e :: wire) m
  | snapEnd {n m : Nat} {wire : List ReplMsg} :
      Follows log n wire m → Follows log n (.snapEnd n :: wire) m
  | resync {n m : Nat} {wire : List ReplMsg} : Follows log n (.resync :: wire) m

variable {n : Nat} {log : List WriteEvent} {cursor : Option Bytes}

theorem Follows.mono {log' : List WriteEvent} (h : log <+: log') {m : Nat} {wire : List ReplMsg}
    (hf : Follows log n wire m) : Follows log' n wire m := by
  induction hf with
  | nil => exact .nil
  | write he _ ih =>
    refine .write ?_ ih
    obtain ⟨more, rfl⟩ := h
    rw [List.getElem?_append_left (List.getElem?_eq_some_iff.mp he).1, he]
  | snapEnd _ ih => exact .snapEnd ih
  | resync => exact .resync

theorem Follows.append {m m' : Nat} {wire wire' : List ReplMsg} (h : Follows log n wire m)
    (h' : Follows log m wire' m') : Follows log n (wire ++ wire') m' := by
  induction h with
  | nil => exact h'
  | write he _ ih => exact .write he (ih h')
  | snapEnd _ ih => exact .snapEnd (ih h')
  | resync => exact .resync

theorem follows_take (log : List WriteEvent) (n : Nat) {j : Nat} (hj : n + j ≤ log.length) :
    Follows log n (((log.drop n).take j).map .write) (n + j) := by
  induction j generalizing n with
  | zero => exact .nil
  | succ j ih =>
    have hn : n < log.length := by omega
    rw [drop_eq_getElem_cons hn, take_succ_cons, show n + (j + 1) = n + 1 + j by omega]
    exact .write (getElem?_eq_getElem hn) (ih (n + 1) (by omega))

/-- What is on the wire leads to the LSN `q`, and with what comes after it to the primary's table.
-/
inductive OnWire (old : List WriteEvent) (p : Primary) (t : Table) :
    List ReplMsg → Option Nat → Nat → Prop
  /-- The end of a snapshot is still to come. -/
  | snapshot {pages wire : List ReplMsg} {n q : Nat} : Pages pages → n ≤ p.lsn →
      Agree old p n (arriving pages t) → Follows (p.log old) n wire q →
      (p.binlog.isSome → readAppliedLsn t = 0) →
      OnWire old p t (pages ++ .snapEnd n :: wire) none q
  | stream {wire : List ReplMsg} {reported : Option Nat} {q : Nat} : readAppliedLsn t ≤ p.lsn →
      Agree old p (readAppliedLsn t) t.get → Follows (p.log old) (readAppliedLsn t) wire q →
      (reported = none ∨ reported = some (readAppliedLsn t)) → OnWire old p t wire reported q

/-- A snapshot that has come to a key: the rows up to it are as the primary has them or will be made
so, and there are no others. -/
structure PagingOk (old : List WriteEvent) (p : Primary) (t : Table) (wire : List ReplMsg) (n : Nat)
    (cursor : Option Bytes) : Prop where
  pages : Pages wire
  lsn : n ≤ p.lsn
  settled : Agree old p n p.storage.kv.get
  passed : ∀ c, cursor = some c → ∀ k ≤ c, ¬ Bookkeeping k →
    final (p.rest old n k) (arriving wire t k) = p.storage.kv.get k
  ahead : ∀ k, (∀ c, cursor = some c → c < k) → ¬ Bookkeeping k → arriving wire t k = none
  new : p.binlog.isSome → readAppliedLsn t = 0

/-- A replica whose connection has a handler. -/
def Attached (old : List WriteEvent) (p : Primary) (t : Table) (wire : List ReplMsg)
    (reported : Option Nat) (h : Handler) : Prop :=
  match h.stage with
  | .registered => wire = [] ∧ reported = none ∧ h.lastLsn = readAppliedLsn t
  | .subscribed =>
    wire = [] ∧ reported = none ∧ h.lastLsn = readAppliedLsn t ∧ h.pos ≤ p.channel.length
  | .opened | .covered =>
    wire = [] ∧ reported = none ∧ h.lastLsn = readAppliedLsn t ∧ 0 < h.lastLsn ∧
      h.lastLsn ≤ h.snapLsn ∧ old.length + h.pos ≤ h.snapLsn ∧ h.pos ≤ p.channel.length ∧
      (p.binlog.isSome → h.snapLsn ≤ (p.log old).length)
  | .paging cursor =>
    reported = none ∧ old.length + h.pos ≤ h.snapLsn ∧ h.pos ≤ p.channel.length ∧
      PagingOk old p t wire h.snapLsn cursor
  | .streaming =>
    h.pos ≤ p.channel.length ∧ OnWire old p t wire reported (max h.snapLsn (old.length + h.pos))

/-- A replica whose handler has ended; what is still on the wire may be received. -/
def Detached (old : List WriteEvent) (p : Primary) (t : Table) (wire : List ReplMsg)
    (reported : Option Nat) : Prop :=
  (reported = none ∧ (wire = [] ∨ Pages wire ∧ readAppliedLsn t = 0)) ∨
    ∃ q, OnWire old p t wire reported q

/-- The replica has reached its LSN. -/
def ReplicaOk (old : List WriteEvent) (p : Primary) (t : Table) : Prop :=
  readAppliedLsn t ≤ p.lsn ∧ (0 < readAppliedLsn t → Agree old p (readAppliedLsn t) t.get)

/-! ## Steps of the primary that leave the connection -/

section Carry

variable {old old' : List WriteEvent} {p p' : Primary} {t : Table} {wire : List ReplMsg}
  {reported : Option Nat} {h : Handler} (hc : Carries old p old' p')
  (hb : p'.binlog.isSome = p.binlog.isSome)

include hc

theorem ReplicaOk.carry (hr : ReplicaOk old p t) : ReplicaOk old' p' t :=
  ⟨hr.1.trans hc.lsn, fun hpos => hc.agree hr.1 (hr.2 hpos)⟩

include hb

theorem OnWire.carry {q : Nat} (hw : OnWire old p t wire reported q) :
    OnWire old' p' t wire reported q := by
  cases hw with
  | snapshot hpages hn hagree hfollows hnew =>
    exact .snapshot hpages (hn.trans hc.lsn) (hc.agree hn hagree) (hfollows.mono hc.log)
      fun h => hnew (hb ▸ h)
  | stream hn hagree hfollows hrep =>
    exact .stream (hn.trans hc.lsn) (hc.agree hn hagree) (hfollows.mono hc.log) hrep

theorem PagingOk.carry (h : PagingOk old p t wire n cursor) :
    PagingOk old' p' t wire n cursor where
  pages := h.pages
  lsn := h.lsn.trans hc.lsn
  settled k hk := final_of_append (a := []) (hc.agree h.lsn h.settled k hk)
  passed c hcur k hle hk := hc.value n h.lsn k hk _ (h.passed c hcur k hle hk)
  ahead := h.ahead
  new hsome := h.new (hb ▸ hsome)

theorem Detached.carry (hd : Detached old p t wire reported) :
    Detached old' p' t wire reported := by
  rcases hd with hd | ⟨q, hq⟩
  · exact .inl hd
  · exact .inr ⟨q, hq.carry hc hb⟩

omit hc

theorem Attached.carry (ha : Attached old p t wire reported h)
    (hc : h.stage ≠ .registered → Carries old p old p')
    (hchannel : p.channel.length ≤ p'.channel.length) : Attached old p' t wire reported h := by
  obtain ⟨lastLsn, stage, pos, snapLsn⟩ := h
  cases stage with
  | registered => exact ha
  | subscribed => exact ⟨ha.1, ha.2.1, ha.2.2.1, ha.2.2.2.trans hchannel⟩
  | opened | covered =>
    obtain ⟨hwire, hrep, hlast, hpos, hle, hold, hch, hlog⟩ := ha
    have hlen := (hc nofun).log.length_le
    exact ⟨hwire, hrep, hlast, hpos, hle, hold, hch.trans hchannel,
      fun hsome => (hlog (hb ▸ hsome)).trans hlen⟩
  | paging cursor =>
    obtain ⟨hrep, hold, hch, hpaging⟩ := ha
    exact ⟨hrep, hold, hch.trans hchannel, hpaging.carry (hc nofun) hb⟩
  | streaming => exact ⟨ha.1.trans hchannel, ha.2.carry (hc nofun) hb⟩

omit hb

theorem active_of_binlog (h : p.binlog.isSome) : p.active = true := by
  rw [active, h]
  rfl

theorem active_of_handler {id : Nat} (hget : p.handlers.get id = some h)
    (hstage : h.stage ≠ .registered) : p.active = true := by
  have hany : p.hasReplicas = true := by
    rw [hasReplicas, any_eq_true]
    exact ⟨(id, h), mem_entries_iff.mpr hget, by simpa using hstage⟩
  rw [active, hany, Bool.or_true]

end Carry

/-! ## Messages -/

section Receive

variable {t : Table} (r : Storage) {k : Bytes}

theorem readAppliedLsn_of_get (h : n < 2 ^ 64) (hget : t.get replLsnKey = (lsnBytes n).2) :
    readAppliedLsn t = n := by
  rw [readAppliedLsn, hget, lsnBytes, decodeCounter_leBytes]
  exact UInt64.toNat_ofNat_of_lt' h

theorem readAppliedLsn_congr {t' : Table} (h : t.get replLsnKey = t'.get replLsnKey) :
    readAppliedLsn t = readAppliedLsn t' := by
  rw [readAppliedLsn, readAppliedLsn, h]

theorem get_apply (puts : List (Bytes × Bytes)) (deletes : List Bytes) (hk : k ≠ wseqKey) :
    (r.apply puts deletes).2.kv.get k =
      (effect ⟨0, puts, deletes⟩ k).getD (r.kv.get k) := by
  rw [Storage.apply, Storage.get_commitTable hk]
  exact get_write_event r.kv ⟨0, puts, deletes⟩ k

theorem get_commitMsg (m : ReplMsg) (hk : ¬ Bookkeeping k) :
    (commitMsg r m).kv.get k = (m.effect k).getD (r.kv.get k) := by
  have hseq : k ≠ wseqKey := fun h => hk (.inl h)
  have hlsn : k ≠ replLsnKey := fun h => hk (.inr (.inl h))
  cases m with
  | resync => rfl
  | snap pairs => exact get_apply r pairs [] hseq
  | snapEnd lsn =>
    rw [commitMsg, get_apply r _ _ hseq]
    simp [WriteEvent.effect, ReplMsg.effect, OMap.lastValue, lsnBytes, hlsn.symm]
  | write e =>
    rw [commitMsg, get_apply r _ _ hseq]
    simp only [WriteEvent.effect, ReplMsg.effect, lsnBytes, OMap.lastValue_concat, if_neg hlsn.symm]

theorem arriving_cons (m : ReplMsg) (wire : List ReplMsg) (hk : ¬ Bookkeeping k) :
    arriving (m :: wire) r.kv k = arriving wire (commitMsg r m).kv k := by
  rw [arriving, arriving, get_commitMsg r m hk]
  rfl

theorem readAppliedLsn_snap {pairs : List (Bytes × Bytes)} (h : ∀ e ∈ pairs, e.1 ≠ replLsnKey) :
    readAppliedLsn (commitMsg r (.snap pairs)).kv = readAppliedLsn r.kv := by
  refine readAppliedLsn_congr ?_
  have hnone : lastValue pairs replLsnKey = none := by
    refine lastValue_eq_none fun hmem => ?_
    obtain ⟨e, he, heq⟩ := mem_map.mp hmem
    exact h e he heq
  rw [commitMsg, get_apply r _ _ (by decide), effect, hnone]
  rfl

theorem readAppliedLsn_snapEnd (h : n < 2 ^ 64) :
    readAppliedLsn (commitMsg r (.snapEnd n)).kv = n := by
  refine readAppliedLsn_of_get h ?_
  rw [commitMsg, get_apply r _ _ (by decide)]
  simp [effect, lastValue, lsnBytes]

theorem readAppliedLsn_write {e : WriteEvent} (h : e.lsn < 2 ^ 64) :
    readAppliedLsn (commitMsg r (.write e)).kv = e.lsn := by
  refine readAppliedLsn_of_get h ?_
  rw [commitMsg, get_apply r _ _ (by decide)]
  simp [effect, lsnBytes, lastValue_concat]

variable {old : List WriteEvent} {p : Primary} {r : Storage} {m : ReplMsg} {wire : List ReplMsg}
  {reported : Option Nat}

theorem readAppliedLsn_empty : readAppliedLsn emptyStorage.kv = 0 := rfl

theorem replicaOk_of_zero (h : readAppliedLsn t = 0) : ReplicaOk old p t :=
  ⟨by rw [h]; exact Nat.zero_le _, fun hpos => absurd hpos (by omega)⟩

theorem OnWire.replicaOk {q : Nat} (hw : OnWire old p t wire reported q) (hsome : p.binlog.isSome) :
    ReplicaOk old p t := by
  cases hw with
  | snapshot _ _ _ _ hnew => exact replicaOk_of_zero (hnew hsome)
  | stream hn hagree => exact ⟨hn, fun _ => hagree⟩

theorem PagingOk.receive (hpg : PagingOk old p r.kv (m :: wire) n cursor) :
    PagingOk old p (commitMsg r m).kv wire n cursor ∧ m.lsn? = none := by
  obtain ⟨pairs, rfl, hpairs⟩ := hpg.pages m mem_cons_self
  refine ⟨⟨fun m' hm' => hpg.pages m' (mem_cons_of_mem _ hm'), hpg.lsn, hpg.settled,
    fun c hc k hle hk => ?_, fun k hbeyond hk => ?_, fun hsome => ?_⟩, rfl⟩
  · rw [← arriving_cons r _ _ hk]
    exact hpg.passed c hc k hle hk
  · rw [← arriving_cons r _ _ hk]
    exact hpg.ahead k hbeyond hk
  · rw [readAppliedLsn_snap r hpairs]
    exact hpg.new hsome

variable (hok : PrimaryOk old p)
include hok

theorem PrimaryOk.length_le :
    old.length + p.channel.length ≤ (p.log old).length ∧ (p.log old).length ≤ p.lsn := by
  constructor
  · simp only [Primary.log, length_append]
    omega
  · rw [hok.lsn]
    exact Nat.le_add_right _ _

/-- The rest from an LSN on begins with the next event of the log. -/
theorem PrimaryOk.rest_eq_cons {e : WriteEvent} (he : (p.log old)[n]? = some e) (k : Bytes) :
    p.rest old n k = e.effect k :: p.rest old (n + 1) k := by
  obtain ⟨hlt, heq⟩ := List.getElem?_eq_some_iff.mp he
  have hafter : p.pendingAfter n = p.pendingAfter (n + 1) := by
    unfold pendingAfter
    cases hstage : p.stage with
    | numbered l =>
      have hl := hok.numbered l hstage
      have hlen := hok.lsn
      rw [hstage] at hlen
      change p.lsn = (p.log old).length + 1 at hlen
      dsimp only
      rw [if_neg (by omega), if_neg (by omega)]
    | applied | publishing | logged | done => rfl
  rw [rest, drop_eq_getElem_cons hlt, heq, hafter]
  rfl

/-- The end of the snapshot sets the LSN of the replica. -/
theorem OnWire.of_snapEnd {q : Nat} (hn : n ≤ p.lsn) (hagree : Agree old p n r.kv.get)
    (hfollows : Follows (p.log old) n wire q) :
    OnWire old p (commitMsg r (.snapEnd n)).kv wire (some n) q := by
  have hlsn := readAppliedLsn_snapEnd r (hn.trans_lt hok.bound)
  refine .stream (by rwa [hlsn]) ?_ (by rwa [hlsn]) (.inr (by rw [hlsn]))
  rw [hlsn]
  intro k hk
  rw [get_commitMsg r _ hk]
  exact hagree k hk

theorem OnWire.receive {q : Nat} (hw : OnWire old p r.kv (m :: wire) reported q)
    (hm : m ≠ .resync) :
    OnWire old p (commitMsg r m).kv wire (m.lsn?.or reported) q := by
  generalize hwire : m :: wire = all at hw
  cases hw with
  | @snapshot pages rest n q hpages hn hagree hfollows hnew =>
    cases pages with
    | nil =>
      cases hwire
      exact .of_snapEnd hok hn hagree hfollows
    | cons page pages =>
      cases hwire
      obtain ⟨pairs, rfl, hpairs⟩ := hpages m mem_cons_self
      refine .snapshot (fun m' hm' => hpages m' (mem_cons_of_mem _ hm')) hn (fun k hk => ?_)
        hfollows fun hsome => ?_
      · rw [← arriving_cons r _ _ hk]
        exact hagree k hk
      · rw [readAppliedLsn_snap r hpairs]
        exact hnew hsome
  | stream hn hagree hfollows hrep =>
    subst hwire
    cases hfollows with
    | @write n _ e _ he hfollows =>
      have hnum := hok.log _ e he
      have hlt := (List.getElem?_eq_some_iff.mp he).1
      have hle := hok.length_le.2
      have hlsn := readAppliedLsn_write r (e := e) (by
        have := hok.bound
        omega)
      rw [show e.lsn = readAppliedLsn r.kv + 1 by omega] at hlsn
      refine .stream (by omega) ?_ (by rw [hlsn]; exact hfollows) (.inr ?_)
      · rw [hlsn]
        intro k hk
        have hk' := hagree k hk
        rw [hok.rest_eq_cons he] at hk'
        rw [get_commitMsg r _ hk]
        exact hk'
      · rw [hlsn]
        exact congrArg some (by omega)
    | snapEnd hfollows => exact .of_snapEnd hok hn hagree hfollows
    | resync => exact absurd rfl hm

theorem Attached.receive {h : Handler} (ha : Attached old p r.kv (m :: wire) reported h)
    (hm : m ≠ .resync) :
    Attached old p (commitMsg r m).kv wire (m.lsn?.or reported) h ∧
      (p.binlog.isSome → ReplicaOk old p (commitMsg r m).kv) := by
  obtain ⟨lastLsn, stage, pos, snapLsn⟩ := h
  cases stage with
  | registered | subscribed | opened | covered => exact nomatch ha.1
  | paging cursor =>
    obtain ⟨rfl, hold, hpos, hpg⟩ := ha
    obtain ⟨hpg, hacked⟩ := hpg.receive
    exact ⟨⟨by rw [hacked]; rfl, hold, hpos, hpg⟩, fun hsome => replicaOk_of_zero (hpg.new hsome)⟩
  | streaming =>
    have hw := ha.2.receive hok hm
    exact ⟨⟨ha.1, hw⟩, hw.replicaOk⟩

theorem Detached.receive (hd : Detached old p r.kv (m :: wire) reported) (hm : m ≠ .resync)
    (hsome : p.binlog.isSome) : Detached old p (commitMsg r m).kv wire (m.lsn?.or reported) ∧
      ReplicaOk old p (commitMsg r m).kv := by
  rcases hd with ⟨rfl, hnil | ⟨hpages, h0⟩⟩ | ⟨q, hq⟩
  · exact nomatch hnil
  · obtain ⟨pairs, rfl, hpairs⟩ := hpages m mem_cons_self
    have h0' := (readAppliedLsn_snap r hpairs).trans h0
    exact ⟨.inl ⟨rfl, .inr ⟨fun m' hm' => hpages m' (mem_cons_of_mem _ hm'), h0'⟩⟩,
      replicaOk_of_zero h0'⟩
  · have hw := hq.receive hok hm
    exact ⟨.inr ⟨q, hw⟩, hw.replicaOk hsome⟩

end Receive

end ElyraSql.Replication
