import ElyraSql.Library.Numbered
import ElyraSql.Library.Overwrite
import ElyraSql.Replication.Replica
import ElyraSql.Storage.Replay

/-!
# What is still to be done from an LSN on

The log of the primary is what it has put into its binlog, or, without a binlog, what it has sent
since it started. From an LSN on, the rest of the log and the committed jobs that are not logged are
still to be applied. A table is at an LSN if applying them gives the table of the primary; it may be
ahead of the LSN in some keys.
-/

namespace ElyraSql.Replication

open OrderedMap GroupCommitLemmas Numbered Overwrite List Primary OMap Nat

/-! ## Write sets as overwrites -/

/-- What a write set does to the value of a key. -/
def WriteEvent.effect (e : WriteEvent) (k : Bytes) : Option (Option Bytes) :=
  match OMap.lastValue e.puts k with
  | some v => some (some v)
  | none => if k ∈ e.deletes then some none else none

open Replication.WriteEvent

theorem get_write_event (t : Table) (e : WriteEvent) (k : Bytes) :
    (t.write e.puts e.deletes).get k = (e.effect k).getD (t.get k) := by
  rw [Table.get_write, effect]
  cases lastValue e.puts k with
  | some v => rfl
  | none => split_ifs <;> rfl

def jobEffect (job : WriteJob) (k : Bytes) : Option (Option Bytes) := (eventOf job 0).effect k

theorem effect_eventOf (job : WriteJob) (lsn : Nat) (k : Bytes) :
    (eventOf job lsn).effect k = jobEffect job k := rfl

variable {job : WriteJob} {r : Except Error Unit} {jobs : List (WriteJob × Except Error Unit)}

theorem jobEffect_of_empty (h : (published job).isEmpty ∧ job.deletes.isEmpty) (k : Bytes) :
    jobEffect job k = none := by
  obtain ⟨hp, hd⟩ := h
  rw [jobEffect, effect, eventOf]
  simp only [List.isEmpty_iff] at hp hd
  simp [hp, hd, lastValue]

theorem committed_cons_ok (h : r.isOk) :
    committed ((job, r) :: jobs) = job :: committed jobs := by simp [committed, h]

theorem committed_cons_refused (h : ¬ r.isOk) :
    committed ((job, r) :: jobs) = committed jobs := by simp [committed, h]

theorem get_turns (jobs : List WriteJob) (t : Table) {results : List (Except Error Unit)}
    (h : results.map outcome = (t.turns jobTurn jobs).1.map outcome) (k : Bytes) :
    (t.turns jobTurn jobs).2.get k =
      final ((committed (jobs.zip results)).map (jobEffect · k)) (t.get k) := by
  induction jobs generalizing t results with
  | nil => rfl
  | cons job jobs ih =>
    cases results with
    | nil => exact absurd h (by simp [Table.turns])
    | cons r results =>
      simp only [Table.turns, map_cons, List.cons.injEq] at h
      obtain ⟨hr, hrest⟩ := h
      have hok := isOk_congr hr
      rw [Table.turns, ih _ hrest, jobTurn_eq, ← hok, zip_cons_cons]
      by_cases hrok : r.isOk
      · rw [if_pos hrok, committed_cons_ok hrok, map_cons]
        exact congrArg _ (get_write_event t (eventOf job 0) k)
      · rw [if_neg hrok, committed_cons_refused hrok]

theorem final_eq_none {jobs : List WriteJob} {k : Bytes}
    (h : ∀ job ∈ jobs, ∀ e ∈ published job, e.1 ≠ k) :
    final (jobs.map (jobEffect · k)) none = none := by
  induction jobs with
  | nil => rfl
  | cons job jobs ih =>
    have hlast : lastValue (published job) k = none := by
      refine lastValue_eq_none fun hmem => ?_
      obtain ⟨e, he, rfl⟩ := mem_map.mp hmem
      exact h job mem_cons_self e he rfl
    have heff : (jobEffect job k).getD none = none := by
      simp only [jobEffect, effect, eventOf, hlast]
      by_cases hd : k ∈ job.deletes <;> simp [hd]
    rw [map_cons, final_cons, heff]
    exact ih fun j hj => h j (mem_cons_of_mem _ hj)

/-! ## The log and what is not logged -/

namespace Primary

/-- The event that is in the binlog and not on the channel yet. -/
def unsent (p : Primary) : List WriteEvent :=
  match p.stage, p.jobs with
  | .logged lsn, (job, _) :: _ => [eventOf job lsn]
  | _, _ => []

/-- The log, when `old` was logged before this process started. -/
def log (old : List WriteEvent) (p : Primary) : List WriteEvent := old ++ (p.channel ++ p.unsent)

/-- The pending jobs that are not counted in this LSN. -/
def pendingAfter (p : Primary) (n : Nat) : List WriteJob :=
  match p.stage with
  | .numbered lsn => if lsn ≤ n then p.pending.tail else p.pending
  | .applied | .publishing | .logged _ | .done _ => p.pending

/-- What is to be done to a key from an LSN on. -/
def rest (old : List WriteEvent) (p : Primary) (n : Nat) (k : Bytes) :
    List (Option (Option Bytes)) :=
  ((p.log old).drop n).map (·.effect k) ++ (p.pendingAfter n).map (jobEffect · k)

end Primary

/-- Doing the rest from `n` on leads from `t` to the table of the primary. -/
def Agree (old : List WriteEvent) (p : Primary) (n : Nat) (t : Bytes → Option Bytes) : Prop :=
  ∀ k, ¬ Bookkeeping k → final (p.rest old n k) (t k) = p.storage.kv.get k

/-- The numbers of the segments increase, and the one in use is the last to be purged. -/
structure BinlogFiles.Ok (f : BinlogFiles) : Prop where
  sorted : f.closed.Pairwise fun s s' => s.1 < s'.1
  below : ∀ s ∈ f.closed, s.1 < f.seq
  purged : f.active = none → f.closed = []

structure PrimaryOk (old : List WriteEvent) (p : Primary) : Prop where
  log : Consecutive WriteEvent.lsn 0 (p.log old)
  lsn : p.lsn = (p.log old).length + if p.stage.isNumbered then 1 else 0
  bound : p.lsn < 2 ^ 64
  numbered : ∀ l, p.stage = .numbered l → l = p.lsn
  logged : ∀ l, p.stage = .logged l → l = p.lsn
  idle : p.jobs = [] → p.stage = .applied
  head : p.stage = .publishing ∨ p.stage.isNumbered → ∀ e ∈ p.jobs.head?, e.2.isOk
  files : ∀ f, p.binlog = some f → f.Ok ∧ f.records <:+ p.log old
  settled : ∀ k, ¬ Bookkeeping k →
    final (p.pending.map (jobEffect · k)) (p.storage.kv.get k) = p.storage.kv.get k
  key : p.storage.kv.get replLsnKey = none
  queue : ∀ job ∈ p.queue, ∀ e ∈ published job, e.1 ≠ replLsnKey

/-- What was at an LSN before a step is so after it. -/
structure Carries (old : List WriteEvent) (p : Primary) (old' : List WriteEvent) (p' : Primary) :
    Prop where
  lsn : p.lsn ≤ p'.lsn
  log : p.log old <+: p'.log old'
  value : ∀ n ≤ p.lsn, ∀ k, ¬ Bookkeeping k → ∀ v,
    final (p.rest old n k) v = p.storage.kv.get k → final (p'.rest old' n k) v = p'.storage.kv.get k

variable {old old' : List WriteEvent} {p p' : Primary}

/-- A step that leaves the table and has the same rest to do. -/
theorem Carries.of_rest (hlsn : p.lsn ≤ p'.lsn) (hlog : p.log old <+: p'.log old')
    (hkv : p'.storage = p.storage)
    (hrest : ∀ n ≤ p.lsn, ∀ k v, final (p'.rest old' n k) v = final (p.rest old n k) v) :
    Carries old p old' p' where
  lsn := hlsn
  log := hlog
  value n hn k _ v h := by
    rw [hrest n hn, hkv]
    exact h

theorem Carries.agree (h : Carries old p old' p') {n : Nat} (hn : n ≤ p.lsn)
    {t : Bytes → Option Bytes} (ht : Agree old p n t) : Agree old' p' n t :=
  fun k hk => h.value n hn k hk (t k) (ht k hk)

section

variable (h : PrimaryOk old p) (hstorage : p'.storage = p.storage) (hjobs : p'.jobs = p.jobs)
  (hstage : p'.stage = p.stage) (hchannel : p'.channel = p.channel) (hlsn : p'.lsn = p.lsn)
include hstorage hjobs hstage hchannel hlsn

theorem Carries.of_same : Carries old p old p' := by
  have hpending : p'.pending = p.pending := by simp only [pending, hjobs, hstage]
  have hlog : p'.log old = p.log old := by
    simp only [Primary.log, Primary.unsent, hjobs, hstage, hchannel]
  refine .of_rest hlsn.ge (by rw [hlog]) hstorage fun n _ k v => ?_
  simp only [Primary.rest, Primary.pendingAfter, hlog, hpending, hstage]

include h in
theorem PrimaryOk.of_same
    (hfiles : ∀ f, p'.binlog = some f → f.Ok ∧ f.records <:+ p.log old)
    (hqueue : ∀ job ∈ p'.queue, ∀ e ∈ published job, e.1 ≠ replLsnKey) : PrimaryOk old p' := by
  have hpending : p'.pending = p.pending := by simp only [pending, hjobs, hstage]
  have hlog : p'.log old = p.log old := by
    simp only [Primary.log, Primary.unsent, hjobs, hstage, hchannel]
  constructor
  · rw [hlog]
    exact h.log
  · rw [hlog, hlsn, hstage]
    exact h.lsn
  · rw [hlsn]
    exact h.bound
  · rw [hstage, hlsn]
    exact h.numbered
  · rw [hstage, hlsn]
    exact h.logged
  · rw [hjobs, hstage]
    exact h.idle
  · rw [hjobs, hstage]
    exact h.head
  · rw [hlog]
    exact hfiles
  · rw [hpending, hstorage]
    exact h.settled
  · rw [hstorage]
    exact h.key
  · exact hqueue

end

/-! ## The writer -/

/-- A group is applied: its committed jobs are what is to be done in addition. -/
theorem PrimaryOk.applyGroup (h : PrimaryOk old p) {behind : Nat}
    (hp : p.write (.apply behind) = some p') : PrimaryOk old p' ∧ Carries old p old p' := by
  simp only [write] at hp
  split at hp
  case h_2 => exact nomatch hp
  case h_1 first queue hjobs hqueue =>
    have hstage := h.idle hjobs
    obtain ⟨hsplit, hkind⟩ := drainKind_spec first.validation.isSome
      (min behind (groupCommitMax - 1)) queue
    generalize drainKind first.validation.isSome (min behind (groupCommitMax - 1)) queue = d at *
    obtain ⟨hout, hrows⟩ := applyGroup_turns ⟨p.storage, {}⟩ first hkind
    have hget := fun k (hk : k ≠ wseqKey) => (hrows k hk).trans (get_turns _ _ hout k)
    generalize Writer.applyGroup ⟨p.storage, {}⟩ first d.1 = r at *
    cases hp
    have hpending : p.pending = [] := by
      simp [pending, hstage, hjobs, committed]
    have hunsent : p.unsent = [] := by simp [Primary.unsent, hstage]
    have hrows : ∀ k, ¬ Bookkeeping k → r.2.storage.kv.get k =
        final ((committed ((first :: d.1).zip r.1)).map (jobEffect · k)) (p.storage.kv.get k) :=
      fun k hk => hget k fun heq => hk (.inl heq)
    have hmem : ∀ job ∈ first :: d.1, job ∈ p.queue := by
      intro job hjob
      rw [hqueue, ← hsplit]
      exact mem_append_left _ hjob
    refine ⟨⟨?_, ?_, h.bound, nofun, nofun, fun _ => rfl, by simp [Stage.isNumbered], ?_, ?_, ?_,
      ?_⟩, le_rfl, ?_, fun n hn k hk v hrest => ?_⟩
    · have := h.log
      rwa [Primary.log, hunsent] at this
    · have := h.lsn
      rwa [Primary.log, hunsent, hstage] at this
    · have := h.files
      rwa [Primary.log, hunsent] at this
    · intro k hk
      rw [hrows k hk]
      exact final_settled (a := []) rfl _
    · rw [hget replLsnKey (by decide), h.key]
      refine final_eq_none fun job hjob => ?_
      obtain ⟨e, he, rfl⟩ := mem_map.mp hjob
      exact h.queue _ (hmem _ (of_mem_zip (mem_of_mem_filter he)).1)
    · intro job hjob
      refine h.queue job ?_
      rw [hqueue, ← hsplit, ← cons_append]
      exact mem_append_right _ hjob
    · exact ⟨[], by simp [Primary.log, Primary.unsent, hstage]⟩
    · simp only [Primary.rest, Primary.pendingAfter, Primary.log, hstage, hpending, hunsent,
        map_nil, append_nil] at hrest
      simp only [Primary.rest, Primary.pendingAfter, Primary.log, Primary.unsent, pending,
        append_nil]
      rw [final_append, hrest, hrows k hk]

/-- The first job is to be published, or is done with: it was refused, writes nothing, or there is
nobody to publish it to. -/
theorem PrimaryOk.decided (h : PrimaryOk old p) (hp : p.write .decide = some p') :
    PrimaryOk old p' ∧ (p.active = true → Carries old p old p') := by
  simp only [write] at hp
  split at hp
  case h_2 => exact nomatch hp
  case h_1 job r jobs hstage hjobs =>
    have hunsent : p.unsent = [] := by simp [Primary.unsent, hstage]
    have hlog := h.log
    have hlsn := h.lsn
    have hfiles := h.files
    rw [Primary.log, hunsent] at hlog hfiles
    rw [Primary.log, hunsent, hstage] at hlsn
    split_ifs at hp with hpub
    · cases hp
      have hpending : ({ p with stage := .publishing } : Primary).pending = p.pending := by
        simp [pending, hstage]
      refine ⟨⟨hlog, hlsn, h.bound, nofun, nofun, fun hnil => ?_, fun _ e he => ?_, hfiles, ?_,
        h.key, h.queue⟩, fun _ => .of_rest le_rfl ?_ rfl fun n _ k v => ?_⟩
      · exact absurd hnil (by simp [hjobs])
      · rw [hjobs] at he
        cases he
        exact hpub.1
      · rw [hpending]
        exact h.settled
      · rw [Primary.log, hunsent]
        rfl
      · simp only [Primary.rest, Primary.pendingAfter, Primary.log, hpending, hunsent, hstage]
        rfl
    · cases hp
      have hpending : p.pending = committed ((job, r) :: jobs) := by
        simp [pending, hstage, hjobs]
      have hpending' : ({ p with stage := .done none } : Primary).pending = committed jobs := by
        simp [pending, hjobs]
      refine ⟨⟨hlog, hlsn, h.bound, nofun, nofun, fun hnil => ?_, by simp [Stage.isNumbered],
        hfiles, fun k hk => ?_, h.key, h.queue⟩,
          fun hactive => .of_rest le_rfl ?_ rfl fun n _ k v => ?_⟩
      · exact absurd hnil (by simp [hjobs])
      · have hsettled := h.settled k hk
        rw [hpending] at hsettled
        rw [hpending']
        by_cases hr : r.isOk
        · rw [committed_cons_ok hr] at hsettled
          exact final_of_append (a := [jobEffect job k]) hsettled
        · rwa [committed_cons_refused hr] at hsettled
      · rw [Primary.log, hunsent]
        rfl
      · have hsame : final ((committed ((job, r) :: jobs)).map (jobEffect · k)) =
            final ((committed jobs).map (jobEffect · k)) := by
          by_cases hr : r.isOk
          · have hempty : (published job).isEmpty ∧ job.deletes.isEmpty := by
              by_contra hne
              exact hpub ⟨hr, hactive, hne⟩
            rw [committed_cons_ok hr, map_cons, jobEffect_of_empty hempty]
            rfl
          · rw [committed_cons_refused hr]
        simp only [Primary.rest, Primary.pendingAfter, Primary.log, hpending, hpending', hunsent,
          hstage, final_append, hsame]
        rfl

theorem PrimaryOk.number (h : PrimaryOk old p) (hbound : p.lsn + 1 < 2 ^ 64)
    (hp : p.write .number = some p') : PrimaryOk old p' ∧ Carries old p old p' := by
  simp only [write] at hp
  split at hp
  case h_2 => exact nomatch hp
  case h_1 hstage =>
    cases hp
    have hunsent : p.unsent = [] := by simp [Primary.unsent, hstage]
    have hlog := h.log
    have hlsn := h.lsn
    have hfiles := h.files
    rw [Primary.log, hunsent] at hlog hfiles
    rw [Primary.log, hunsent, hstage] at hlsn
    have hpending :
        ({ p with lsn := p.lsn + 1, stage := .numbered (p.lsn + 1) } : Primary).pending =
          p.pending := by simp [pending, hstage]
    refine ⟨⟨hlog, ?_, hbound, fun l hl => ?_, nofun, fun hnil => ?_,
      fun _ => h.head (.inl hstage), hfiles, ?_, h.key, h.queue⟩,
      .of_rest (le_succ _) ?_ rfl fun n hn k v => ?_⟩
    · simp only [Primary.log, Primary.unsent, Stage.isNumbered] at hlsn ⊢
      simpa using hlsn
    · cases hl
      rfl
    · exact absurd (h.idle hnil) (by simp [hstage])
    · rw [hpending]
      exact h.settled
    · rw [Primary.log, hunsent]
      rfl
    · have hn' : ¬ p.lsn + 1 ≤ n := by omega
      simp only [Primary.rest, Primary.pendingAfter, Primary.log, hpending, hunsent, hstage,
        if_neg hn']
      rfl

/-! ## The binlog files -/

namespace BinlogFiles

variable {f : BinlogFiles}

theorem records_eq (f : BinlogFiles) : f.records = f.closed.flatMap (·.2) ++ f.active.getD [] := by
  rw [records, listing]
  cases f.active <;> simp

theorem ok_empty : ({} : BinlogFiles).Ok := ⟨List.Pairwise.nil, nofun, fun _ => rfl⟩

theorem Ok.listing (h : f.Ok) : f.listing.Pairwise fun s s' => s.1 < s'.1 := by
  refine pairwise_append.mpr ⟨h.sorted, ?_, fun s hs s' hs' => ?_⟩
  · cases f.active <;> simp
  · obtain ⟨records, -, rfl⟩ := by simpa using hs'
    exact h.below s hs

theorem Ok.start (h : f.Ok) : f.start.Ok where
  sorted := h.listing
  below s hs := by
    have hsorted := h.listing
    change s ∈ f.listing at hs
    change s.1 < (f.listing.getLast?.map (·.1)).getD 0 + 1
    cases hlast : f.listing.getLast? with
    | none =>
      rw [getLast?_eq_none_iff.mp hlast] at hs
      exact nomatch hs
    | some e =>
      obtain ⟨l, hl⟩ := getLast?_eq_some_iff.mp hlast
      rw [hl] at hs hsorted
      rcases mem_append.mp hs with hs | hs
      · exact lt_succ_of_lt ((pairwise_append.mp hsorted).2.2 s hs e mem_cons_self)
      · rw [mem_singleton.mp hs]
        exact lt_succ_self _
  purged := nofun

theorem records_start (f : BinlogFiles) : f.start.records = f.records := by
  rw [records_eq]
  exact append_nil _

theorem Ok.append (h : f.Ok) (e : WriteEvent) (full : Bool) : (f.append e full).Ok := by
  have hgrown : BinlogFiles.Ok { f with active := f.active.map (· ++ [e]) } :=
    ⟨h.sorted, h.below, fun hnone => h.purged (Option.map_eq_none_iff.mp hnone)⟩
  cases full with
  | false => exact hgrown
  | true =>
    refine ⟨hgrown.listing, fun s hs => ?_, nofun⟩
    rcases mem_append.mp hs with hs | hs
    · exact lt_succ_of_lt (h.below s hs)
    · obtain ⟨records, -, rfl⟩ := by simpa using hs
      exact lt_succ_self _

/-- A record is appended, or goes with the segment in use. -/
theorem Ok.records_append (h : f.Ok) (e : WriteEvent) (full : Bool) :
    (f.append e full).records = f.records ++ [e] ∨ (f.append e full).records = [] := by
  have hfull : (f.append e full).records =
      BinlogFiles.records { f with active := f.active.map (· ++ [e]) } := by
    cases full with
    | false => rfl
    | true =>
      rw [records_eq]
      exact append_nil _
  rw [hfull, records_eq, records_eq]
  cases hactive : f.active with
  | none =>
    rw [h.purged hactive]
    exact .inr rfl
  | some records =>
    simp

theorem filter_suffix {b : Nat} {l : List (Nat × List WriteEvent)}
    (h : l.Pairwise fun s s' => s.1 < s'.1) :
    l.filter (fun s => !decide (s.1 < b)) <:+ l := by
  induction l with
  | nil => exact suffix_rfl
  | cons s l ih =>
    obtain ⟨hs, hl⟩ := pairwise_cons.mp h
    by_cases hb : s.1 < b
    · rw [filter_cons_of_neg (by simpa using hb)]
      exact (ih hl).trans (suffix_cons _ _)
    · rw [filter_eq_self.mpr]
      intro s' hs'
      rcases mem_cons.mp hs' with rfl | hs'
      · simpa using hb
      · have := hs s' hs'
        simp only [Bool.not_eq_true', decide_eq_false_iff_not]
        omega

theorem Ok.filter_of_lt (h : f.Ok) {boundary : Nat} (hb : f.seq < boundary) :
    f.closed.filter (fun s => !decide (s.1 < boundary)) = [] := by
  rw [filter_eq_nil_iff]
  intro s hs
  have := h.below s hs
  simp only [Bool.not_eq_true', decide_eq_false_iff_not]
  omega

theorem Ok.purge (h : f.Ok) (boundary : Nat) : (f.purge boundary).Ok where
  sorted := h.sorted.filter _
  below s hs := h.below s (mem_of_mem_filter hs)
  purged hnone := by
    unfold BinlogFiles.purge at hnone ⊢
    split_ifs at hnone with hb
    · exact h.filter_of_lt hb
    · rw [h.purged hnone]
      rfl

theorem Ok.records_purge (h : f.Ok) (boundary : Nat) :
    (f.purge boundary).records <:+ f.records := by
  rw [records_eq, records_eq]
  unfold BinlogFiles.purge
  split_ifs with hb
  · rw [h.filter_of_lt hb]
    exact nil_suffix
  · obtain ⟨l, hl⟩ := filter_suffix (b := boundary) h.sorted
    refine ⟨l.flatMap (·.2), ?_⟩
    rw [← append_assoc, ← flatMap_append, hl]

end BinlogFiles

/-! ## Logging, sending, answering -/

variable (h : PrimaryOk old p)
include h

theorem PrimaryOk.appendLog {full : Bool}
    (hp : p.write (.append full) = some p') : PrimaryOk old p' ∧ Carries old p old p' := by
  simp only [write] at hp
  split at hp
  case h_2 => exact nomatch hp
  case h_1 l job r jobs hstage hjobs =>
    cases hp
    have hr : r.isOk := h.head (.inr (by rw [hstage]; rfl)) (job, r) (by rw [hjobs]; rfl)
    have hl := h.numbered l hstage
    have hlen := h.lsn
    rw [hstage] at hlen
    have hlog' : (Primary.log old { p with
        binlog := p.binlog.map (·.append (eventOf job l) full), stage := .logged l }) =
        p.log old ++ [eventOf job l] := by
      simp [Primary.log, Primary.unsent, hstage, hjobs]
    have hpending : p.pending = job :: committed jobs := by
      simp [pending, hstage, hjobs, committed_cons_ok hr]
    have hpending' : (pending { p with
        binlog := p.binlog.map (·.append (eventOf job l) full), stage := .logged l }) =
        committed jobs := by
      simp [pending, hjobs]
    change p.lsn = (p.log old).length + 1 at hlen
    refine ⟨⟨?_, ?_, h.bound, nofun, fun l' hl' => ?_, fun hnil => ?_, by simp [Stage.isNumbered],
      ?_, fun k hk => ?_, h.key, h.queue⟩, .of_rest le_rfl ?_ rfl fun n hn k v => ?_⟩
    · rw [hlog']
      refine h.log.concat ?_
      change l = _
      omega
    · rw [hlog', length_append]
      exact hlen
    · cases hl'
      exact hl
    · exact absurd hnil (by simp [hjobs])
    · intro f hf
      obtain ⟨g, hg, rfl⟩ := Option.map_eq_some_iff.mp hf
      obtain ⟨hgok, records, hrecords⟩ := h.files g hg
      refine ⟨hgok.append _ _, ?_⟩
      rw [hlog']
      rcases hgok.records_append (eventOf job l) full with heq | heq
      · rw [heq]
        exact ⟨records, by rw [← append_assoc, hrecords]⟩
      · rw [heq]
        exact nil_suffix
    · have hsettled := h.settled k hk
      rw [hpending] at hsettled
      rw [hpending']
      exact final_of_append (a := [jobEffect job k]) hsettled
    · rw [hlog']
      exact prefix_append _ _
    · simp only [Primary.rest, Primary.pendingAfter, hlog', hpending', hstage, hpending, tail_cons]
      by_cases hn' : l ≤ n
      · rw [if_pos hn', drop_of_length_le (by simp; omega), drop_of_length_le (by omega)]
      · rw [if_neg hn', drop_append_of_le_length (by omega)]
        simp [effect_eventOf]

theorem PrimaryOk.send (hp : p.write .send = some p') :
    PrimaryOk old p' ∧ Carries old p old p' := by
  simp only [write] at hp
  split at hp
  case h_2 => exact nomatch hp
  case h_1 l job r jobs hstage hjobs =>
    cases hp
    have hlog' : (Primary.log old { p with
        channel := p.channel ++ [eventOf job l], stage := .done (some l) }) = p.log old := by
      simp [Primary.log, Primary.unsent, hstage, hjobs]
    have hpending' : (pending { p with
        channel := p.channel ++ [eventOf job l], stage := .done (some l) }) = p.pending := by
      simp [pending, hstage]
    have hlsn := h.lsn
    rw [hstage] at hlsn
    refine ⟨⟨?_, ?_, h.bound, nofun, nofun, fun hnil => ?_, by simp [Stage.isNumbered], ?_,
      ?_, h.key, h.queue⟩, .of_rest le_rfl ?_ rfl fun n hn k v => ?_⟩
    · rw [hlog']
      exact h.log
    · rw [hlog']
      exact hlsn
    · exact absurd hnil (by simp [hjobs])
    · rw [hlog']
      exact h.files
    · rw [hpending']
      exact h.settled
    · rw [hlog']
    · simp only [Primary.rest, Primary.pendingAfter, hlog', hpending', hstage]

theorem PrimaryOk.answer (hp : p.write .answer = some p') :
    PrimaryOk old p' ∧ Carries old p old p' := by
  simp only [write] at hp
  split at hp
  case h_2 => exact nomatch hp
  case h_1 l job r jobs hstage hjobs =>
    cases hp
    have hunsent : p.unsent = [] := by simp [Primary.unsent, hstage]
    have hlog := h.log
    have hlsn := h.lsn
    have hfiles := h.files
    have hsettled := h.settled
    have hpending : p.pending = committed jobs := by simp [pending, hstage, hjobs]
    rw [Primary.log, hunsent] at hlog hfiles
    rw [Primary.log, hunsent, hstage] at hlsn
    rw [hpending] at hsettled
    refine ⟨⟨hlog, hlsn, h.bound, nofun, nofun, fun _ => rfl, by simp [Stage.isNumbered], hfiles,
      hsettled, h.key, h.queue⟩, .of_rest le_rfl ?_ rfl fun n hn k v => ?_⟩
    · rw [Primary.log, hunsent]
      rfl
    · simp only [Primary.rest, Primary.pendingAfter, Primary.log, hpending, hunsent, hstage]
      rfl

/-- The writer keeps the primary in order, and as long as something is published, what is at an LSN.
-/
theorem PrimaryOk.write {a : WriterStep}
    (hbound : a = .number → p.lsn + 1 < 2 ^ 64) (hp : p.write a = some p') :
    PrimaryOk old p' ∧ (p.active = true → Carries old p old p') := by
  cases a with
  | apply behind =>
    obtain ⟨hok, hcarry⟩ := h.applyGroup hp
    exact ⟨hok, fun _ => hcarry⟩
  | decide => exact h.decided hp
  | number =>
    obtain ⟨hok, hcarry⟩ := h.number (hbound rfl) hp
    exact ⟨hok, fun _ => hcarry⟩
  | append full =>
    obtain ⟨hok, hcarry⟩ := h.appendLog hp
    exact ⟨hok, fun _ => hcarry⟩
  | send =>
    obtain ⟨hok, hcarry⟩ := h.send hp
    exact ⟨hok, fun _ => hcarry⟩
  | answer =>
    obtain ⟨hok, hcarry⟩ := h.answer hp
    exact ⟨hok, fun _ => hcarry⟩

/-! ## Flush and restart -/

/-- `flush` writes its own marker only. -/
theorem PrimaryOk.flush (seq : UInt64) :
    PrimaryOk old { p with storage := p.storage.flush seq } ∧
      Carries old p old { p with storage := p.storage.flush seq } := by
  have hget : ∀ k, k ≠ flushSeqKey → (p.storage.flush seq).kv.get k = p.storage.kv.get k := by
    intro k hk
    rw [Storage.flush, OMap.get_insert, if_neg hk]
  have hrow : ∀ k, ¬ Bookkeeping k → (p.storage.flush seq).kv.get k = p.storage.kv.get k :=
    fun k hk => hget k fun heq => hk (.inr (.inr heq))
  refine ⟨{ h with settled := fun k hk => ?_, key := ?_ }, le_rfl, prefix_rfl,
    fun n hn k hk v hv => ?_⟩
  · rw [hrow k hk]
    exact h.settled k hk
  · exact (hget _ (by decide)).trans h.key
  · rw [hrow k hk]
    exact hv


/-- A restart without a binlog begins a new log. -/
theorem PrimaryOk.restart_without (hbinlog : p.binlog = none) : PrimaryOk [] p.restart := by
  refine ⟨consecutive_nil, ?_, ?_, nofun, nofun, fun _ => rfl, ?_, ?_, fun _ _ => rfl, h.key, nofun⟩
  · simp [Primary.restart, hbinlog, Primary.log, Primary.unsent, Stage.isNumbered]
  · simp [Primary.restart, hbinlog]
  · exact fun _ _ he => nomatch he
  · intro f hf
    simp [Primary.restart, hbinlog] at hf

/-- A numbered job is pending. -/
theorem PrimaryOk.not_numbered (hpending : p.pending = []) : p.stage.isNumbered = false := by
  cases hstage : p.stage with
  | numbered l =>
    cases hjobs : p.jobs with
    | nil => exact absurd (h.idle hjobs) (by simp [hstage])
    | cons e jobs =>
      have hr : e.2.isOk := h.head (.inr (by rw [hstage]; rfl)) e (by rw [hjobs]; rfl)
      rw [pending, hstage, hjobs] at hpending
      rw [committed_cons_ok hr] at hpending
      exact nomatch hpending
  | applied | publishing | logged | done => rfl

/-- A restart that takes the last LSN from the binlog, with no job left out of it, goes on where the
last process was. -/
theorem PrimaryOk.restart_with {f : BinlogFiles} (hf : p.binlog = some f)
    (hpending : p.pending = []) (hmax : f.maxLsn = p.lsn) :
    PrimaryOk (p.log old) p.restart ∧ Carries old p (p.log old) p.restart := by
  have hlsn : p.restart.lsn = p.lsn := by
    simp [Primary.restart, hf, hmax]
  have hlog : p.restart.log (p.log old) = p.log old := by
    simp [Primary.restart, Primary.log, Primary.unsent]
  have hnumbered := h.not_numbered hpending
  have hafter : ∀ n, p.pendingAfter n = [] := by
    intro n
    unfold Primary.pendingAfter
    split
    case h_1 l hstage =>
      rw [hstage] at hnumbered
      exact nomatch hnumbered
    all_goals exact hpending
  have hlen := h.lsn
  rw [hnumbered] at hlen
  obtain ⟨hfok, hrecords⟩ := h.files f hf
  refine ⟨⟨?_, ?_, ?_, nofun, nofun, fun _ => rfl, ?_, ?_, fun _ _ => rfl, h.key, nofun⟩,
    .of_rest hlsn.ge (by rw [hlog]) rfl fun n _ k v => ?_⟩
  · rw [hlog]
    exact h.log
  · rw [hlog, hlsn]
    exact hlen
  · rw [hlsn]
    exact h.bound
  · exact fun _ _ he => nomatch he
  · intro g hg
    rw [hlog]
    simp only [Primary.restart, hf, Option.map_some, Option.some.injEq] at hg
    rw [← hg, BinlogFiles.records_start]
    exact ⟨hfok.start, hrecords⟩
  · rw [Primary.rest, hlog, Primary.rest, hafter]
    rfl

end ElyraSql.Replication
