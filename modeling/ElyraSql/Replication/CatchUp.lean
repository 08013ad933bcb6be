import Mathlib.Data.List.TakeWhile
import ElyraSql.Library.LexOrder
import ElyraSql.Replication.Wire

/-!
# How a replica is brought up to date

The steps of `handle_replica`: a snapshot page by page while the primary goes on writing, the
records that are missing, or the events of the channel.
-/

namespace ElyraSql.Replication

open OrderedMap Numbered Overwrite List OMap Option Primary Handler
open Table (scanBatch)

/-! ## Pages -/

section Page

variable {t : Table} {cursor : Option Bytes} {limit : Nat}

/-- The keys that a page can have. -/
def Beyond (cursor : Option Bytes) (k : Bytes) : Prop := ∀ c, cursor = some c → c < k

theorem inRange_batchStart {k : Bytes} :
    inRange (batchStart [] cursor) none k = true ↔ Beyond cursor k := by
  rw [inRange_iff]
  cases cursor with
  | none => simp [Beyond, batchStart, LexOrder.nil_le]
  | some c =>
    rw [batchStart, show ([0] : Bytes) = [⊥] from rfl, LexOrder.append_bot_le_iff]
    simp [Beyond]

/-- A page is a first part of the rows beyond the cursor, and all of them unless it is full. -/
theorem scanBatch_split (t : Table) (cursor : Option Bytes) (limit : Nat) :
    ∃ rows more, Increasing rows ∧ rows = scanBatch t [] cursor limit ++ more ∧
      (∀ k v, (k, v) ∈ rows ↔ t.get k = some v ∧ Beyond cursor k) ∧
      (more = [] ∨ limit ≤ (scanBatch t [] cursor limit).length ∧
        scanBatch t [] cursor limit ≠ []) := by
  have hbatch : scanBatch t [] cursor limit =
      (t.list (inRange (batchStart [] cursor) none)).take (max limit 1) := by
    unfold scanBatch scanUpTo
    rw [takeWhile_eq_self_iff.mpr fun e _ => by simp]
  refine ⟨_, _, increasing_list t _, by rw [hbatch, take_append_drop], fun k v => ?_, ?_⟩
  · rw [mem_list, inRange_batchStart]
  · rw [hbatch]
    rcases Nat.lt_or_ge (t.list (inRange (batchStart [] cursor) none)).length (max limit 1) with
      hlen | hlen
    · exact .inl (drop_of_length_le hlen.le)
    · have htake := length_take_of_le hlen
      refine .inr ⟨?_, fun hnil => ?_⟩
      · rw [htake]
        exact le_max_left _ _
      · rw [hnil, length_nil] at htake
        omega

/-- A page has the rows of the table up to its end. -/
theorem lastValue_page {k : Bytes} (hk : Beyond cursor k)
    (hend : (scanBatch t [] cursor limit).length < limit ∨ scanBatch t [] cursor limit = [] ∨
      ∃ e ∈ scanBatch t [] cursor limit, k ≤ e.1) :
    lastValue (scanBatch t [] cursor limit) k = t.get k := by
  obtain ⟨rows, more, hinc, hsplit, hmem, hmore⟩ := scanBatch_split t cursor limit
  generalize scanBatch t [] cursor limit = batch at *
  have hincb : Increasing batch := by
    rw [hsplit] at hinc
    exact (pairwise_append.mp hinc).1
  ext v
  rw [lastValue_eq_some_of_increasing hincb]
  constructor
  · intro hv
    exact ((hmem k v).mp (by rw [hsplit]; exact mem_append_left _ hv)).1
  · intro hv
    have hrow := (hmem k v).mpr ⟨hv, hk⟩
    rw [hsplit] at hrow hinc
    rcases mem_append.mp hrow with hrow | hrow
    · exact hrow
    · -- a row after the page is beyond all keys of a full one
      rcases hmore with rfl | ⟨hfull, hne⟩
      · exact nomatch hrow
      · rcases hend with hlt | hnil | ⟨e, he, hle⟩
        · omega
        · exact absurd hnil hne
        · exact absurd ((pairwise_append.mp hinc).2.2 e he _ hrow) (not_lt.mpr hle)

theorem mem_page {e : Bytes × Bytes} (he : e ∈ scanBatch t [] cursor limit) :
    t.get e.1 = some e.2 ∧ Beyond cursor e.1 := by
  obtain ⟨rows, more, -, hsplit, hmem, -⟩ := scanBatch_split t cursor limit
  exact (hmem e.1 e.2).mp (by rw [hsplit]; exact mem_append_left _ he)

theorem le_last_page {e : Bytes × Bytes} (he : (scanBatch t [] cursor limit).getLast? = some e)
    {e' : Bytes × Bytes} (he' : e' ∈ scanBatch t [] cursor limit) : e'.1 ≤ e.1 := by
  obtain ⟨rows, more, hinc, hsplit, -, -⟩ := scanBatch_split t cursor limit
  obtain ⟨l, hl⟩ := getLast?_eq_some_iff.mp he
  rw [hsplit, hl] at hinc
  rw [hl] at he'
  rcases mem_append.mp he' with he' | he'
  · exact ((pairwise_append.mp (pairwise_append.mp hinc).1).2.2 _ he' e mem_cons_self).le
  · rw [mem_singleton.mp he']

end Page

theorem arriving_snap (wire : List ReplMsg) (pairs : List (Bytes × Bytes)) (t : Table) (k : Bytes) :
    arriving (wire ++ [.snap pairs]) t k = (lastValue pairs k).or (arriving wire t k) := by
  rw [arriving, map_append, final_append]
  simp only [map_cons, ReplMsg.effect, WriteEvent.effect]
  cases lastValue pairs k with
  | some v => rfl
  | none => rfl

/-! ## Steps of the handler -/

section Turn

variable {old : List WriteEvent} {p : Primary} {t : Table} {wire : List ReplMsg}
  {reported : Option Nat} {h : Handler} {chunk : Nat} {u : Turn}

/-- The replica with this wire, after a turn of its handler. -/
def Served (old : List WriteEvent) (p : Primary) (t : Table) (wire : List ReplMsg)
    (reported : Option Nat) : Option Handler → Prop
  | some h => Attached old p t wire reported h
  | none => p.binlog.isSome → Detached old p t wire reported

theorem OnWire.append {q q' : Nat} {wire' : List ReplMsg} (hw : OnWire old p t wire reported q)
    (hf : Follows (p.log old) q wire' q') : OnWire old p t (wire ++ wire') reported q' := by
  cases hw with
  | snapshot hpages hn hagree hfollows hnew =>
    rw [append_assoc]
    exact .snapshot hpages hn hagree (hfollows.append hf) hnew
  | stream hn hagree hfollows hrep => exact .stream hn hagree (hfollows.append hf) hrep

/-- Nothing that comes after the present LSN changes the table. -/
theorem PrimaryOk.settled_now (hok : PrimaryOk old p) : Agree old p p.lsn p.storage.kv.get := by
  intro k hk
  have hsettled := hok.settled k hk
  rw [rest, drop_of_length_le hok.length_le.2, map_nil]
  unfold pendingAfter
  cases hstage : p.stage with
  | numbered l =>
    dsimp only
    rw [if_pos (hok.numbered l hstage).le]
    cases hpending : p.pending with
    | nil => rfl
    | cons job jobs =>
      rw [hpending] at hsettled
      exact final_of_append (a := [jobEffect job k]) hsettled
  | applied | publishing | logged | done => exact hsettled

/-- A page has the rows of the primary, and what is done from the LSN of the snapshot on is done to
them once more without effect. -/
theorem PagingOk.value {n : Nat} {cursor : Option Bytes} (hpg : PagingOk old p t wire n cursor)
    {k : Bytes} (hk : ¬ Bookkeeping k)
    (hend : (scanBatch p.storage.kv [] cursor chunk).length < chunk ∨
      scanBatch p.storage.kv [] cursor chunk = [] ∨
      ∃ e ∈ scanBatch p.storage.kv [] cursor chunk, k ≤ e.1) :
    final (p.rest old n k)
      ((lastValue (scanBatch p.storage.kv [] cursor chunk) k).or (arriving wire t k)) =
        p.storage.kv.get k := by
  by_cases hbeyond : Beyond cursor k
  · rw [lastValue_page hbeyond hend, hpg.ahead k hbeyond hk, or_none]
    exact hpg.settled k hk
  · obtain ⟨c, hc, hle⟩ : ∃ c, cursor = some c ∧ k ≤ c := by
      simpa [Beyond] using hbeyond
    have hnone : lastValue (scanBatch p.storage.kv [] cursor chunk) k = none := by
      refine lastValue_eq_none fun hmem => ?_
      obtain ⟨e, he, rfl⟩ := mem_map.mp hmem
      exact hbeyond (mem_page he).2
    rw [hnone]
    exact hpg.passed c hc k hle hk

variable (ha : Attached old p t wire reported h)
include ha

theorem Attached.subscribe (hu : h.turn chunk p .subscribe = some u) :
    Served old p t (wire ++ u.msgs) reported u.next := by
  simp only [turn] at hu
  split at hu
  case h_2 => exact nomatch hu
  case h_1 hstage =>
    cases hu
    simp only [Attached, hstage] at ha
    obtain ⟨rfl, hrep, hlast⟩ := ha
    exact ⟨rfl, hrep, hlast, le_rfl⟩

/-- A handler ends: what it has sent is still on the wire. -/
theorem Attached.stop (hsome : p.binlog.isSome) : Detached old p t wire reported := by
  obtain ⟨lastLsn, stage, pos, snapLsn⟩ := h
  cases stage with
  | registered | subscribed | opened | covered => exact .inl ⟨ha.2.1, .inl ha.1⟩
  | paging cursor => exact .inl ⟨ha.1, .inr ⟨ha.2.2.2.pages, ha.2.2.2.new hsome⟩⟩
  | streaming => exact .inr ⟨_, ha.2⟩

variable (hok : PrimaryOk old p)
include hok

theorem Attached.forward (hu : h.turn chunk p .forward = some u) :
    Served old p t (wire ++ u.msgs) reported u.next := by
  simp only [turn] at hu
  split at hu
  case h_2 => exact nomatch hu
  case h_1 e hstage he =>
    simp only [Attached, hstage] at ha
    obtain ⟨hpos, hwire⟩ := ha
    have hlt : h.pos < p.channel.length := (List.getElem?_eq_some_iff.mp he).1
    have hlog : (p.log old)[old.length + h.pos]? = some e := by
      rw [log, getElem?_append_right (Nat.le_add_right _ _), Nat.add_sub_cancel_left,
        getElem?_append_left hlt, he]
    have hnum := hok.log _ e hlog
    split_ifs at hu with hsnap
    · cases hu
      simp only [Served, Attached, hstage]
      rw [max_eq_right (by omega)] at hwire
      rw [max_eq_right (by omega)]
      exact ⟨hlt, hwire.append (.write hlog .nil)⟩
    · cases hu
      simp only [Served, Attached, hstage, append_nil]
      rw [max_eq_left (by omega)] at hwire
      rw [max_eq_left (by omega)]
      exact ⟨hlt, hwire⟩

theorem Attached.page (hu : h.turn chunk p .page = some u) :
    Served old p t (wire ++ u.msgs) reported u.next := by
  simp only [turn] at hu
  split at hu
  case h_2 => exact nomatch hu
  case h_1 cursor hstage =>
    simp only [Attached, hstage] at ha
    obtain ⟨rfl, hold, hpos, hpg⟩ := ha
    have hpages : Pages (wire ++ if (scanBatch p.storage.kv [] cursor chunk).isEmpty then []
        else [.snap (scanBatch p.storage.kv [] cursor chunk)]) := by
      intro m hm
      rcases mem_append.mp hm with hm | hm
      · exact hpg.pages m hm
      · split_ifs at hm with hempty
        · exact nomatch hm
        · refine ⟨_, mem_singleton.mp hm, fun e he heq => ?_⟩
          have := (mem_page he).1
          rw [heq, hok.key] at this
          exact nomatch this
    have harriving : ∀ k, arriving (wire ++ if (scanBatch p.storage.kv [] cursor chunk).isEmpty
        then [] else [.snap (scanBatch p.storage.kv [] cursor chunk)]) t k =
        (lastValue (scanBatch p.storage.kv [] cursor chunk) k).or (arriving wire t k) := by
      intro k
      split_ifs with hempty
      · rw [isEmpty_iff.mp hempty, append_nil]
        rfl
      · exact arriving_snap wire _ t k
    generalize (if (scanBatch p.storage.kv [] cursor chunk).isEmpty then []
      else [ReplMsg.snap (scanBatch p.storage.kv [] cursor chunk)]) = msgs at hpages harriving hu
    split_ifs at hu with hend
    · cases hu
      refine ⟨hpos, ?_⟩
      rw [max_eq_left hold, ← append_assoc]
      refine .snapshot hpages hpg.lsn (fun k hk => ?_) .nil hpg.new
      rw [harriving]
      exact hpg.value hk (hend.imp_right fun hempty => .inl (isEmpty_iff.mp hempty))
    · cases hu
      refine ⟨rfl, hold, hpos, hpages, hpg.lsn, hpg.settled, fun c hc k hle hk => ?_,
        fun k hbeyond hk => ?_, hpg.new⟩
      · obtain ⟨e, he, rfl⟩ := map_eq_some_iff.mp hc
        rw [harriving]
        exact hpg.value hk (.inr (.inr ⟨e, mem_of_getLast? he, hle⟩))
      · have hne : ¬ (scanBatch p.storage.kv [] cursor chunk).isEmpty := fun h => hend (.inr h)
        obtain ⟨e, he⟩ : ∃ e, (scanBatch p.storage.kv [] cursor chunk).getLast? = some e := by
          refine ne_none_iff_exists'.mp fun hnone => hne ?_
          rw [getLast?_eq_none_iff.mp hnone]
          rfl
        have hlt : e.1 < k := hbeyond e.1 (by rw [he]; rfl)
        have hnone : lastValue (scanBatch p.storage.kv [] cursor chunk) k = none := by
          refine lastValue_eq_none fun hmem => ?_
          obtain ⟨e', he', rfl⟩ := mem_map.mp hmem
          exact absurd (le_last_page he he') (not_le.mpr hlt)
        rw [harriving, hnone]
        exact hpg.ahead k (fun c hc => ((mem_page (mem_of_getLast? he)).2 c hc).trans hlt) hk

omit ha in
/-- The records that the replica lacks are in the binlog. -/
theorem PrimaryOk.readSince_eq {f : BinlogFiles} (hf : p.binlog = some f)
    {n m : Nat} (hearliest : (f.earliestLsn.any fun e => decide (e ≤ n + 1)) = true) :
    f.readSince n m = ((p.log old).drop n).take (m - n) := by
  obtain ⟨before, hbefore⟩ := (hok.files f hf).2
  have hcons : Consecutive WriteEvent.lsn before.length f.records := by
    have := hok.log.drop before.length
    rwa [← hbefore, drop_left, Nat.zero_add] at this
  obtain ⟨e, he, hle⟩ : ∃ e, f.earliestLsn = some e ∧ e ≤ n + 1 := by
    cases he : f.earliestLsn with
    | none => simp [he] at hearliest
    | some e => exact ⟨e, rfl, by simpa [he] using hearliest⟩
  obtain ⟨first, hfirst, rfl⟩ := map_eq_some_iff.mp he
  have hnum := hcons 0 first (by rw [← head?_eq_getElem?]; exact hfirst)
  have hbn : before.length ≤ n := by omega
  rw [BinlogFiles.readSince, hcons.filter_between_eq hbn, ← hbefore, drop_append,
    drop_of_length_le hbn, nil_append]

variable (hreplica : p.binlog.isSome → ReplicaOk old p t)
include hreplica

omit hok in
theorem Attached.checkEarliest (hu : h.turn chunk p .checkEarliest = some u) :
    Served old p t (wire ++ u.msgs) reported u.next := by
  simp only [turn] at hu
  split at hu
  case h_2 => exact nomatch hu
  case h_1 hstage =>
    simp only [Attached, hstage] at ha
    split_ifs at hu
    · cases hu
      rw [append_nil]
      exact ha
    · cases hu
      obtain ⟨rfl, hrep, hlast, hpos, -⟩ := ha
      intro hsome
      obtain ⟨hle, hagree⟩ := hreplica hsome
      exact .inr ⟨0, .stream hle (hagree (hlast ▸ hpos)) .resync (.inl hrep)⟩

theorem Attached.readLsn
    (hsafe : if 0 < h.lastLsn ∧ h.lastLsn ≤ p.lsn then
        p.binlog.isSome → p.stage.isNumbered = false
      else ∀ e ∈ t.entries, Bookkeeping e.1) (hu : h.turn chunk p .readLsn = some u) :
    Served old p t (wire ++ u.msgs) reported u.next := by
  simp only [turn] at hu
  split at hu
  case h_2 => exact nomatch hu
  case h_1 hstage =>
    simp only [Attached, hstage] at ha
    obtain ⟨rfl, hrep, hlast, hpos⟩ := ha
    obtain ⟨hlen, hlen'⟩ := hok.length_le
    split_ifs at hu hsafe with hinc
    · cases hu
      refine ⟨rfl, hrep, hlast, hinc.1, hinc.2, by dsimp only; omega, hpos, fun hsome => ?_⟩
      have hlsn := hok.lsn
      rw [hsafe hsome] at hlsn
      exact hlsn.le
    · cases hu
      refine ⟨hrep, by dsimp only; omega, hpos, nofun, le_rfl, hok.settled_now, nofun,
        fun k _ hk => ?_, fun hsome => ?_⟩
      · -- the replica has no rows
        by_contra hne
        obtain ⟨v, hv⟩ := ne_none_iff_exists'.mp hne
        exact hk (hsafe (k, v) (mem_entries_iff.mpr hv))
      · have := (hreplica hsome).1
        omega

theorem Attached.readSince
    (hsafe : ((p.binlog.bind (·.earliestLsn)).any fun e => decide (e ≤ h.lastLsn + 1)) = true)
    (hu : h.turn chunk p .readSince = some u) :
    Served old p t (wire ++ u.msgs) reported u.next := by
  simp only [turn] at hu
  split at hu
  case h_2 => exact nomatch hu
  case h_1 f hstage hf =>
    simp only [Attached, hstage] at ha
    obtain ⟨rfl, hrep, hlast, hpos, hle, hold, hch, hlog⟩ := ha
    cases hu
    have hsome : p.binlog.isSome := by rw [hf]; rfl
    rw [hf] at hsafe
    obtain ⟨hlsn, hagree⟩ := hreplica hsome
    refine ⟨hch, .stream hlsn (hagree (hlast ▸ hpos)) ?_ (.inl hrep)⟩
    rw [hok.readSince_eq hf hsafe, max_eq_left hold, ← hlast]
    have hpart := follows_take (p.log old) h.lastLsn (j := h.snapLsn - h.lastLsn) (by
      have := hlog hsome
      omega)
    rw [show h.lastLsn + (h.snapLsn - h.lastLsn) = h.snapLsn by omega] at hpart
    exact hpart.append (.snapEnd .nil)

theorem Attached.turn {a : HandlerStep}
    (hread : a = .readLsn → if 0 < h.lastLsn ∧ h.lastLsn ≤ p.lsn then
        p.binlog.isSome → p.stage.isNumbered = false
      else ∀ e ∈ t.entries, Bookkeeping e.1) (hsince : a = .readSince →
      ((p.binlog.bind (·.earliestLsn)).any fun e => decide (e ≤ h.lastLsn + 1)) = true)
    (hu : h.turn chunk p a = some u) : Served old p t (wire ++ u.msgs) reported u.next := by
  cases a with
  | subscribe => exact ha.subscribe hu
  | readLsn => exact ha.readLsn hok hreplica (hread rfl) hu
  | checkEarliest => exact ha.checkEarliest hreplica hu
  | readSince => exact ha.readSince hok hreplica (hsince rfl) hu
  | page => exact ha.page hok hu
  | forward => exact ha.forward hok hu
  | stop =>
    cases hu
    rw [append_nil]
    exact ha.stop

end Turn

end ElyraSql.Replication
