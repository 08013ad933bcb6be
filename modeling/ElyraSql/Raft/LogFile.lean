import ElyraSql.Library.RecordFile
import ElyraSql.Library.Transition
import ElyraSql.Raft.Log

/-!
# The bytes of the log file

The log with its file as bytes: records are appended, a rewrite replaces the file by a rename, and a
crash may leave any number of the bytes of an append. `open` reads records until the first one that
is cut off and leaves the file as it is, so the next append comes after the cut record.
-/

namespace ElyraSql.Raft

open RecordFile Transition RaftLog

variable {Op : Type}

/-! ## Persisted entries -/

variable {r : RaftLog Op}

namespace RaftLog

/-- The file holds the entries that count as persisted. -/
def FileOk (r : RaftLog Op) : Prop :=
  r.file = r.entries.take r.persisted ∧ r.persisted ≤ r.entries.length

theorem fileOk_openFiles (file : List (LogEntry Op)) (boundary : Nat × Nat) :
    (openFiles file boundary).FileOk := by
  refine ⟨?_, le_rfl⟩
  simp [openFiles]

theorem fileOk_persistRewrite (r : RaftLog Op) : r.persistRewrite.FileOk := by
  refine ⟨?_, le_rfl⟩
  simp [persistRewrite]

/-- Appending to the file what is new in memory. -/
theorem fileOk_persistAppended (h : r.FileOk) : r.persistAppended.FileOk := by
  unfold persistAppended
  split_ifs with hle
  · exact h
  · refine ⟨?_, le_rfl⟩
    simp [h.1]

/-- More entries in memory leave the file as it should be. -/
theorem FileOk.grow (h : r.FileOk) {es : List (LogEntry Op)} (hp : r.entries <+: es) :
    FileOk { r with entries := es } := by
  obtain ⟨more, rfl⟩ := hp
  refine ⟨?_, ?_⟩
  · rw [List.take_append_of_le_length h.2, h.1]
  · simp only [List.length_append]
    exact h.2.trans (Nat.le_add_right _ _)

variable {new : List (LogEntry Op)} {acc : List (LogEntry Op) × Bool}

/-- The loop of `append_entries` keeps all entries unless it drops a suffix. -/
theorem prefix_foldl_appendStep (h : (new.foldl appendStep acc).2 = false) :
    acc.2 = false ∧ acc.1 <+: (new.foldl appendStep acc).1 := by
  induction new generalizing acc with
  | nil => exact ⟨h, List.prefix_refl _⟩
  | cons ne rest ih =>
    obtain ⟨h₁, hp₁⟩ := ih h
    have hturn : acc.2 = false ∧ acc.1 <+: (appendStep acc ne).1 := by
      revert h₁
      unfold appendStep
      split
      · split_ifs
        · exact fun h => ⟨h, List.prefix_refl _⟩
        · exact nofun
      · exact fun h => ⟨h, List.prefix_append _ _⟩
    exact ⟨hturn.1, hturn.2.trans hp₁⟩

theorem mem_foldl_appendStep {e : LogEntry Op} (h : e ∈ (new.foldl appendStep acc).1) :
    e ∈ acc.1 ∨ e ∈ new := by
  induction new generalizing acc with
  | nil => exact .inl h
  | cons ne rest ih =>
    rcases ih h with hacc | hrest
    · have hturn : e ∈ acc.1 ∨ e = ne := by
        revert hacc
        unfold appendStep
        split
        · split_ifs
          · exact .inl
          · intro hmem
            rcases List.mem_append.mp hmem with hmem | hmem
            · exact .inl (List.mem_of_mem_take hmem)
            · exact .inr (List.mem_singleton.mp hmem)
        · intro hmem
          exact (List.mem_append.mp hmem).imp_right List.mem_singleton.mp
      rcases hturn with hmem | rfl
      · exact .inl hmem
      · exact .inr List.mem_cons_self
    · exact .inr (List.mem_cons_of_mem _ hrest)

end RaftLog

/-! ## The log on its file -/

/-- The calls of the log. -/
inductive LogOp (Op : Type)
  | leaderAppend (term : Nat) (data : Op)
  | sync
  | appendEntries (prevIndex prevTerm : Nat) (new : List (LogEntry Op))
  | advanceCommit (leaderCommit : Nat)
  | maybeCommit (matchIndexes : List Nat) (currentTerm : Nat)
  | takeApplicable
  | compact (upTo : Nat)

def LogOp.apply (r : RaftLog Op) : LogOp Op → RaftLog Op
  | .leaderAppend term data => r.leaderAppend term data
  | .sync => r.sync
  | .appendEntries prevIndex prevTerm new => (r.appendEntries prevIndex prevTerm new).getD r
  | .advanceCommit leaderCommit => r.advanceCommit leaderCommit
  | .maybeCommit matchIndexes currentTerm => r.maybeCommit matchIndexes currentTerm
  | .takeApplicable => r.takeApplicable.2
  | .compact upTo => r.compact upTo

/-- The log in memory and the bytes of its file. -/
structure DiskLog (Op : Type) where
  mem : RaftLog Op
  bytes : List UInt8

namespace DiskLog

variable (C : Codec (LogEntry Op))

/-- The memory when an operation comes to write the log file, and whether it rewrites the file or
appends to it. -/
def saving (r : RaftLog Op) : LogOp Op → Option (RaftLog Op × Bool)
  | .sync => some (r, decide (r.entries.length < r.persisted))
  | .appendEntries prevIndex prevTerm new =>
    if r.termAt prevIndex = some prevTerm then
      let acc := new.foldl appendStep (r.entries, false)
      some ({ r with entries := acc.1 }, acc.2 || decide (acc.1.length < r.persisted))
    else none
  | .compact upTo =>
    if upTo ≤ r.snapshotIndex ∨ r.lastApplied < upTo then none
    else (r.termAt upTo).map fun term => (r.compactBoundary upTo term, true)
  | _ => none

def pending (r : RaftLog Op) (o : LogOp Op) : List (LogEntry Op) :=
  match saving r o with
  | some (r, false) => r.entries.drop r.persisted
  | _ => []

def run (d : DiskLog Op) (o : LogOp Op) : DiskLog Op :=
  match saving d.mem o with
  | some (r, true) => ⟨r.persistRewrite, C.write r.entries⟩
  | some (r, false) => ⟨r.persistAppended, d.bytes ++ C.write (r.entries.drop r.persisted)⟩
  | none => ⟨o.apply d.mem, d.bytes⟩

/-- `open`. The file stays as it is. -/
def openFile (bytes : List UInt8) (boundary : Nat × Nat) : DiskLog Op :=
  ⟨openFiles (C.read bytes) boundary, bytes⟩

/-- A crash in a call, when `k` bytes of what it appends have reached the file, and the start after
that. A rewrite writes another file, and a compaction has written its boundary. -/
def crashIn (d : DiskLog Op) (o : LogOp Op) (k : Nat) : DiskLog Op :=
  openFile C (d.bytes ++ (C.write (pending d.mem o)).take k)
    (((saving d.mem o).map fun w => w.1.boundary).getD d.mem.boundary)

end DiskLog

inductive DiskStep (Op : Type)
  | run (o : LogOp Op)
  | crash
  | crashIn (o : LogOp Op) (k : Nat)

namespace DiskLog

variable (C : Codec (LogEntry Op))

def empty : DiskLog Op := ⟨RaftLog.empty, []⟩

def step (d : DiskLog Op) : DiskStep Op → Option (DiskLog Op)
  | .run o => some (d.run C o)
  | .crash => some (openFile C d.bytes d.mem.boundary)
  | .crashIn o k => some (d.crashIn C o k)

end DiskLog

/-! ## What the file holds -/

def LogOp.incoming (r : RaftLog Op) : LogOp Op → List (LogEntry Op)
  | .leaderAppend term data => [⟨term, r.lastIndex + 1, data⟩]
  | .appendEntries _ _ new => new
  | _ => []

variable {o : LogOp Op}

/-- When an operation comes to append, the file still has the entries persisted before. -/
theorem DiskLog.saving_spec {r' : RaftLog Op} {rewrite : Bool}
    (h : DiskLog.saving r o = some (r', rewrite)) (hr : r.FileOk) :
    (rewrite = false → r'.FileOk ∧ r'.file = r.file) ∧
      ∀ e ∈ r'.entries, e ∈ r.entries ∨ e ∈ o.incoming r := by
  cases o with
  | sync =>
    cases h
    exact ⟨fun _ => ⟨hr, rfl⟩, fun _ he => .inl he⟩
  | appendEntries prevIndex prevTerm new =>
    simp only [DiskLog.saving] at h
    split_ifs at h
    cases h
    refine ⟨fun hflag => ?_, fun e he => mem_foldl_appendStep he⟩
    rw [Bool.or_eq_false_iff] at hflag
    exact ⟨hr.grow (prefix_foldl_appendStep hflag.1).2, rfl⟩
  | compact upTo =>
    simp only [DiskLog.saving] at h
    split_ifs at h
    obtain ⟨term, -, heq⟩ := Option.map_eq_some_iff.mp h
    cases heq
    exact ⟨nofun, fun e he => .inl (List.mem_of_mem_filter he)⟩
  | leaderAppend | advanceCommit | maybeCommit | takeApplicable => exact nomatch h

/-- An operation that does not come to the file leaves it as it should be. -/
theorem DiskLog.apply_spec (h : DiskLog.saving r o = none) (hr : r.FileOk) :
    (o.apply r).FileOk ∧ (o.apply r).file = r.file ∧
      ∀ e ∈ (o.apply r).entries, e ∈ r.entries ∨ e ∈ o.incoming r := by
  cases o with
  | sync => exact nomatch h
  | leaderAppend term data =>
    exact ⟨hr.grow (List.prefix_append _ _), rfl, fun e he => List.mem_append.mp he⟩
  | appendEntries prevIndex prevTerm new =>
    simp only [DiskLog.saving] at h
    split_ifs at h with hterm
    have hsame : LogOp.apply r (.appendEntries prevIndex prevTerm new) = r := by
      simp only [LogOp.apply, appendEntries, if_neg hterm, Option.getD_none]
    rw [hsame]
    exact ⟨hr, rfl, fun e he => .inl he⟩
  | advanceCommit leaderCommit =>
    simp only [LogOp.apply, advanceCommit]
    split_ifs
    all_goals exact ⟨hr, rfl, fun e he => .inl he⟩
  | maybeCommit matchIndexes currentTerm =>
    simp only [LogOp.apply, maybeCommit]
    split
    · exact ⟨hr, rfl, fun e he => .inl he⟩
    · split_ifs
      all_goals exact ⟨hr, rfl, fun e he => .inl he⟩
  | takeApplicable => exact ⟨hr, rfl, fun e he => .inl he⟩
  | compact upTo =>
    have hsame : LogOp.apply r (.compact upTo) = r := by
      simp only [DiskLog.saving] at h
      simp only [LogOp.apply, compact]
      split_ifs at h ⊢ with hcond
      · rfl
      · rw [Option.map_eq_none_iff.mp h]
    rw [hsame]
    exact ⟨hr, rfl, fun e he => .inl he⟩

variable (C : Codec (LogEntry Op))

/-- The file is the persisted entries and at most one record that is cut off. -/
structure DiskOk (d : DiskLog Op) : Prop where
  file : d.mem.FileOk
  fits : ∀ e ∈ d.mem.entries, C.Fits e
  bytes : ∃ t, d.bytes = C.write d.mem.file ++ t ∧ next t = none

/-- New entries fit into a record, and nothing is appended behind a record that is cut off. -/
def SafeAppend (d : DiskLog Op) : DiskStep Op → Prop
  | .run o | .crashIn o _ => (∀ e ∈ o.incoming d.mem, C.Fits e) ∧
      (DiskLog.pending d.mem o ≠ [] → tail d.bytes = [])
  | .crash => True

instance [DecidableEq Op] [DecidablePred C.Fits] (d : DiskLog Op) : DecidablePred (SafeAppend C d)
  | .run o | .crashIn o _ => inferInstanceAs (Decidable ((∀ e ∈ o.incoming d.mem, C.Fits e) ∧
      (DiskLog.pending d.mem o ≠ [] → tail d.bytes = [])))
  | .crash => .isTrue trivial

variable {C} {d d' : DiskLog Op}

theorem diskOk_empty : DiskOk C (DiskLog.empty : DiskLog Op) where
  file := RaftLog.fileOk_openFiles [] (0, 0)
  fits := nofun
  bytes := ⟨[], rfl, next_nil⟩

theorem DiskOk.fits_file (h : DiskOk C d) : ∀ e ∈ d.mem.file, C.Fits e := by
  intro e he
  rw [h.file.1] at he
  exact h.fits e (List.mem_of_mem_take he)

theorem DiskOk.bytes_eq (h : DiskOk C d) (ht : tail d.bytes = []) :
    d.bytes = C.write d.mem.file := by
  obtain ⟨t, hbytes, hnext⟩ := h.bytes
  rw [hbytes, (Codec.read_write h.fits_file hnext).2] at ht
  rw [hbytes, ht, List.append_nil]

/-- What `open` finds in the file of these entries and a cut record. -/
theorem diskOk_openFile {l : List (LogEntry Op)} {t : List UInt8} (hl : ∀ e ∈ l, C.Fits e)
    (ht : next t = none) (boundary : Nat × Nat) :
    DiskOk C (DiskLog.openFile C (C.write l ++ t) boundary) ∧
      (DiskLog.openFile C (C.write l ++ t) boundary).mem.entries = l := by
  have hread := (Codec.read_write hl ht).1
  unfold DiskLog.openFile
  rw [hread]
  exact ⟨⟨RaftLog.fileOk_openFiles l boundary, hl, t, rfl, ht⟩, rfl⟩

theorem RaftLog.persistAppended_file :
    r.persistAppended.file = r.file ++ r.entries.drop r.persisted ∧
      r.persistAppended.entries = r.entries := by
  unfold persistAppended
  split_ifs with h
  · rw [List.drop_of_length_le h, List.append_nil]
    exact ⟨rfl, rfl⟩
  · exact ⟨rfl, rfl⟩

variable (h : DiskOk C d)
include h

theorem DiskOk.run (hs : SafeAppend C d (.run o)) : DiskOk C (d.run C o) := by
  obtain ⟨hfits, htail⟩ := hs
  have hall : ∀ e, e ∈ d.mem.entries ∨ e ∈ o.incoming d.mem → C.Fits e :=
    fun e he => he.elim (h.fits e) (hfits e)
  unfold DiskLog.run
  unfold DiskLog.pending at htail
  split
  case h_1 r hsav =>
    obtain ⟨-, hmem⟩ := DiskLog.saving_spec hsav h.file
    exact ⟨fileOk_persistRewrite r, fun e he => hall e (hmem e he),
      [], (List.append_nil _).symm, next_nil⟩
  case h_2 r hsav =>
    obtain ⟨hkeep, hmem⟩ := DiskLog.saving_spec hsav h.file
    obtain ⟨hr, hfile⟩ := hkeep rfl
    obtain ⟨hfile', hentries⟩ := r.persistAppended_file
    refine ⟨fileOk_persistAppended hr, fun e he => hall e (hmem e (hentries ▸ he)), ?_⟩
    simp only [hsav] at htail
    rw [hfile', hfile]
    by_cases hnil : r.entries.drop r.persisted = []
    · obtain ⟨t, hbytes, hnext⟩ := h.bytes
      exact ⟨t, by simp [hnil, hbytes, Codec.write, frames], hnext⟩
    · exact ⟨[], by rw [h.bytes_eq (htail hnil), Codec.write_append, List.append_nil], next_nil⟩
  case h_3 hsav =>
    obtain ⟨hr, hfile, hmem⟩ := DiskLog.apply_spec hsav h.file
    refine ⟨hr, fun e he => hall e (hmem e he), ?_⟩
    rw [hfile]
    exact h.bytes

/-- An append that is cut off at any byte leaves some of its entries and a cut record. -/
theorem DiskOk.torn {k : Nat} (hs : SafeAppend C d (.crashIn o k)) :
    ∃ j t, d.bytes ++ (C.write (DiskLog.pending d.mem o)).take k =
        C.write (d.mem.file ++ (DiskLog.pending d.mem o).take j) ++ t ∧ next t = none ∧
      ∀ e ∈ DiskLog.pending d.mem o, C.Fits e := by
  obtain ⟨hfits, htail⟩ := hs
  by_cases hnil : DiskLog.pending d.mem o = []
  · obtain ⟨t, hbytes, hnext⟩ := h.bytes
    refine ⟨0, t, ?_, hnext, by simp [hnil]⟩
    simp [hnil, hbytes, Codec.write, frames]
  · have hall : ∀ e ∈ DiskLog.pending d.mem o, C.Fits e := by
      intro e he
      unfold DiskLog.pending at he
      split at he
      case h_1 r hsav =>
        obtain ⟨-, hmem⟩ := DiskLog.saving_spec hsav h.file
        exact (hmem e (List.mem_of_mem_drop he)).elim (h.fits e) (hfits e)
      case h_2 => cases he
    obtain ⟨j, t, htake, hnext⟩ := Codec.take_write hall k
    refine ⟨j, t, ?_, hnext, hall⟩
    rw [h.bytes_eq (htail hnil), htake, Codec.write_append, List.append_assoc]

theorem DiskOk.crash (boundary : Nat × Nat) : DiskOk C (DiskLog.openFile C d.bytes boundary) ∧
      (DiskLog.openFile C d.bytes boundary).mem.entries = d.mem.file := by
  obtain ⟨t, hbytes, hnext⟩ := h.bytes
  rw [hbytes]
  exact diskOk_openFile h.fits_file hnext boundary

theorem DiskOk.crashIn {k : Nat} (hs : SafeAppend C d (.crashIn o k)) :
    DiskOk C (d.crashIn C o k) ∧ ∃ j,
      (d.crashIn C o k).mem.entries = d.mem.file ++ (DiskLog.pending d.mem o).take j := by
  obtain ⟨j, t, hbytes, hnext, hpend⟩ := h.torn hs
  unfold DiskLog.crashIn
  rw [hbytes]
  obtain ⟨hok, hentries⟩ := diskOk_openFile (l := d.mem.file ++ (DiskLog.pending d.mem o).take j)
    (fun e he => (List.mem_append.mp he).elim (h.fits_file e)
      fun hp => hpend e (List.mem_of_mem_take hp)) hnext
    (((DiskLog.saving d.mem o).map fun w => w.1.boundary).getD d.mem.boundary)
  exact ⟨hok, j, hentries⟩

theorem DiskOk.step {a : DiskStep Op} (hs : SafeAppend C d a)
    (hd : d.step C a = some d') : DiskOk C d' := by
  cases a with
  | run o =>
    cases hd
    exact h.run hs
  | crash =>
    cases hd
    exact (h.crash _).1
  | crashIn o k =>
    cases hd
    exact (h.crashIn hs).1

omit h

/-- In every run in which nothing is appended behind a cut record: a call that comes to the file
persists all entries in memory, and a crash at any point gives back the persisted entries and some
of those that were being appended, and no others. -/
theorem reopen_recovers (h : Reach (DiskLog.step C) (SafeAppend C) DiskLog.empty d) :
    (∀ o, (DiskLog.saving d.mem o).isSome →
      (d.run C o).mem.persisted = (d.run C o).mem.entries.length) ∧
    (∀ d', d.step C .crash = some d' → d'.mem.entries = d.mem.entries.take d.mem.persisted) ∧
    ∀ o k d', SafeAppend C d (.crashIn o k) → d.step C (.crashIn o k) = some d' →
      ∃ j, d'.mem.entries =
        d.mem.entries.take d.mem.persisted ++ (DiskLog.pending d.mem o).take j := by
  have hok := Reach.invariant (I := DiskOk C) diskOk_empty (fun h hs hd => h.step hs hd) h
  refine ⟨fun o ho => ?_, fun d' hd => ?_, fun o k d' hs hd => ?_⟩
  · obtain ⟨⟨r, rewrite⟩, hsav⟩ := Option.isSome_iff_exists.mp ho
    cases rewrite with
    | true =>
      simp only [DiskLog.run, hsav]
      rfl
    | false =>
      obtain ⟨hr, -⟩ := (DiskLog.saving_spec hsav hok.file).1 rfl
      simp only [DiskLog.run, hsav, persistAppended]
      split_ifs with hle
      · exact le_antisymm hr.2 hle
      · rfl
  · cases hd
    rw [← hok.file.1]
    exact (hok.crash _).2
  · cases hd
    rw [← hok.file.1]
    exact (hok.crashIn hs).2

/-! ## The record of an entry -/

/-- `bincode` on an entry: two numbers of eight bytes, then the data with its length in eight. Bytes
after the data are ignored. -/
def entryCodec : Codec (LogEntry (List UInt8)) where
  encode e := leBytes 8 e.term ++ (leBytes 8 e.index ++ writeBytes 8 e.data)
  decode bs := do
    let (term, bs) ← readLe 8 bs
    let (index, bs) ← readLe 8 bs
    let (data, _) ← readBytes 8 bs
    some ⟨term, index, data⟩
  Fits e := e.term < 256 ^ 8 ∧ e.index < 256 ^ 8 ∧ e.data.length < 2 ^ 32 - 24
  roundtrip e h := by
    obtain ⟨hterm, hindex, hdata⟩ := h
    have hread := readBytes_writeBytes (w := 8) (hdata.trans (by decide)) []
    rw [List.append_nil] at hread
    simp [readLe_leBytes hterm, readLe_leBytes hindex, hread]
  short e h := by
    simp only [Short, writeBytes, List.length_append, length_leBytes]
    omega

instance : DecidablePred entryCodec.Fits := fun e => inferInstanceAs
  (Decidable (e.term < 256 ^ 8 ∧ e.index < 256 ^ 8 ∧ e.data.length < 2 ^ 32 - 24))

/-- An entry is synced. The crash in the next sync leaves the length and the first 24 bytes of a
record, all but its two bytes of data. Then another entry is appended and synced. -/
def syncAfterTorn : List (DiskStep (List UInt8)) :=
  [.run (.leaderAppend 1 [5]), .run .sync, .run (.leaderAppend 1 [7, 8]), .crashIn .sync 28,
    .run (.leaderAppend 2 [9]), .run .sync]

/-- The next reopen takes the length of the new record for the missing data of the cut one: it gives
an entry that was never written, and the synced one is lost. -/
theorem append_behind_torn_record :
    ∃ d d' : DiskLog (List UInt8),
      Reach (DiskLog.step entryCodec) (fun _ _ => True) DiskLog.empty d ∧
      d.mem.persisted = 2 ∧ d.mem.entries = [⟨1, 1, [5]⟩, ⟨2, 2, [9]⟩] ∧
      d.step entryCodec .crash = some d' ∧ d'.mem.entries = [⟨1, 1, [5]⟩, ⟨1, 2, [25, 0]⟩] := by
  have hrun : ((Transition.run (guarded (DiskLog.step entryCodec) fun _ _ => True) DiskLog.empty
      syncAfterTorn).bind fun d => (d.step entryCodec .crash).map fun d' =>
        decide (d.mem.persisted = 2 ∧ d.mem.entries = [⟨1, 1, [5]⟩, ⟨2, 2, [9]⟩] ∧
          d'.mem.entries = [⟨1, 1, [5]⟩, ⟨1, 2, [25, 0]⟩])) = some true := by
    decide +kernel
  obtain ⟨d, hd, hrest⟩ := Option.bind_eq_some_iff.mp hrun
  obtain ⟨d', hd', hdec⟩ := Option.map_eq_some_iff.mp hrest
  obtain ⟨hp, he, he'⟩ := of_decide_eq_true hdec
  exact ⟨d, d', Reach.of_guarded_run hd, hp, he, hd', he'⟩

/-- The crash itself loses nothing that was synced. -/
theorem reopen_recovers_torn :
    ∃ d d' : DiskLog (List UInt8),
      Reach (DiskLog.step entryCodec) (SafeAppend entryCodec) DiskLog.empty d ∧
      d.mem.persisted = 1 ∧ d.step entryCodec (.crashIn .sync 28) = some d' ∧
      ∃ j, d'.mem.entries =
        d.mem.entries.take d.mem.persisted ++ (DiskLog.pending d.mem .sync).take j := by
  have hrun : (Transition.run (guarded (DiskLog.step entryCodec) (SafeAppend entryCodec))
      DiskLog.empty [.run (.leaderAppend 1 [5]), .run .sync, .run (.leaderAppend 1 [7, 8])]).map
      (fun d => decide (SafeAppend entryCodec d (.crashIn .sync 28) ∧ d.mem.persisted = 1)) =
      some true := by
    decide +kernel
  obtain ⟨d, hd, hdec⟩ := Option.map_eq_some_iff.mp hrun
  obtain ⟨hsafe, hp⟩ := of_decide_eq_true hdec
  have hreach := Reach.of_guarded_run hd
  exact ⟨d, _, hreach, hp, rfl, (reopen_recovers hreach).2.2 .sync 28 _ hsafe rfl⟩

end ElyraSql.Raft
