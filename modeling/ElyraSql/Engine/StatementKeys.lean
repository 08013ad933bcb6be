import ElyraSql.Engine.Footprint

/-!
# The keys of INSERT, UPDATE, DELETE and CREATE INDEX

Each of the statements touches keys of its own table while it reads, and what it commits are
changes of rows of its own table. Subqueries, triggers and the like are parts of a statement that
are not on behalf of its table; they are asked to stay away from the same foreign keys.
-/

namespace ElyraSql.Engine

open ReadProgram List

/-! ## Rows that come and go -/

/-- Changes of rows of a table. -/
def ChangesOwn (a : TableDef) (changes : List Change) : Prop :=
  ∀ c ∈ changes, (∀ e, c.old = some e → IsRowKey a e.1) ∧ ∀ e, c.new = some e → IsRowKey a e.1

/-- An effect on the rows of a table. -/
def Effect.Own (a : TableDef) : Effect → Prop
  | .commit w => SameTable a w.table ∧ ChangesOwn a w.changes
  | .insertNew d rows _ => SameTable a d ∧ RowsOwn a rows
  | .buildIndex d rows => SameTable a d ∧ RowsOwn a rows
  | .nothing => True

/-- A part of a statement that is not on behalf of its table, such as a subquery or a trigger: it
looks at none of the keys. -/
abbrev Harmless {α : Type} (F : Bytes → Prop) (p : Read α) : Prop :=
  p.Safe (Outside F) (fun _ _ => True) fun _ => True

def Env.Selection.Local (F : Bytes → Prop) : Env.Selection → Prop
  | .all => True
  | .resolved filter => Harmless F filter
  | .perRow test => ∀ r, Harmless F (test r)

structure UpdateLocal (F : Bytes → Prop) (u : Env.UpdateStmt) : Prop where
  selection : ∀ d, (u.selection d).Local F
  sort : ∀ d l l', u.sort d l = .ok l' → ∀ e ∈ l', e ∈ l
  assign : ∀ d r, Harmless F (u.assign d r)
  rules : ∀ d r r', Harmless F (u.rules d r r')
  widths : ∀ d l, Harmless F (u.widths d l)

structure InsertLocal (F : Bytes → Prop) (x : InsertStmt) : Prop where
  rows : ∀ d, Harmless F (x.rows d)
  widths : ∀ d l, Harmless F (x.widths d l)

def Stmt.table : Stmt → Text
  | .update u => u.table
  | .delete x => x.table
  | .insert x => x.table
  | .createIndex x => x.table

def Stmt.Local (F : Bytes → Prop) : Stmt → Prop
  | .update u => UpdateLocal F u
  | .delete x => ∀ d, (x.selection d).Local F
  | .insert x => InsertLocal F x
  | .createIndex _ => True

section Statements

variable {env : Env} {a d : TableDef} {F : Bytes → Prop} {α : Type}

theorem Harmless.safe {p : Read α} (h : Harmless F p) : Stays F d (fun _ => True) p :=
  Prog.Safe.mono h (fun _ hq => hq) (fun _ _ _ => trivial) fun _ h => h

theorem SameTable.refl (a : TableDef) : SameTable a a := ⟨rfl, rfl⟩

variable {autoinc : Option UInt64} {x : InsertStmt}
variable {rowid : Option UInt64} {u : UpdateStmt}

namespace Env

variable {rows : List (Bytes × Row)}

theorem safe_testRows {test : Row → Read Bool} (ht : ∀ r, Harmless F (test r))
    {limit : Option Nat} {out : List (Bytes × Row)} (hrows : RowsOwn d rows)
    (hout : RowsOwn d out) :
    Stays F d (RowsOwn d) (testRows test limit out rows) := by
  induction rows generalizing out with
  | nil => exact Prog.safe_pure hout
  | cons e rows ih =>
    obtain ⟨he, hrest⟩ := forall_mem_cons.mp hrows
    have hout' : RowsOwn d (out ++ [e]) :=
      forall_mem_append.mpr ⟨hout, forall_mem_singleton.mpr he⟩
    refine Prog.Safe.bind (ht e.2).safe fun keep _ => ?_
    split_ifs
    · exact Prog.safe_pure hout'
    · exact ih hrest hout'
    · exact ih hrest hout

variable {key k : Bytes} {row : Row} {owners : List (Bytes × Bytes)} {probes : List Bytes}
  {built : List (Bytes × Row)}

/-! ### UPDATE -/

theorem rowKey_own {oldKey : Bytes} (hold : IsRowKey d oldKey)
    (h : env.rowKey d oldKey row = .ok key) : IsRowKey d key := by
  rw [rowKey] at h
  split_ifs at h
  · obtain ⟨encoded, -, rfl⟩ := except_map_ok h
    exact isRowKey_dataKey encoded
  · cases h
    exact hold

def StagedOwn (d : TableDef) (u : StagedUpdate) : Prop := IsRowKey d u.oldKey ∧ IsRowKey d u.newKey

theorem safe_stageRows (hu : UpdateLocal F u) {rows : List (Bytes × Row × Row)}
    (hrows : ∀ e ∈ rows, IsRowKey d e.1) :
    Stays F d (fun l => ∀ x ∈ l, StagedOwn d x) (env.stageRows u d rows) := by
  induction rows with
  | nil => exact Prog.safe_pure nofun
  | cons e rows ih =>
    obtain ⟨he, hrest⟩ := forall_mem_cons.mp hrows
    obtain ⟨key, old, new⟩ := e
    refine Prog.Safe.bind (hu.rules d old new).safe fun row _ => ?_
    split
    case h_1 => exact ih hrest
    case h_2 row =>
      refine Prog.safe_lift_bind fun newKey hnew => ?_
      refine Prog.Safe.bind (ih hrest) fun staged hstaged => Prog.safe_pure ?_
      exact forall_mem_cons.mpr ⟨⟨he, rowKey_own he hnew⟩, hstaged⟩

theorem inSpace_uniqueProbeKeys (h : k ∈ env.uniqueProbeKeys d row) : IsIndexKey d k := by
  obtain ⟨idx, -, hk⟩ := mem_filterMap.mp h
  obtain ⟨encoded, -, rfl⟩ := Option.map_eq_some_iff.mp hk
  rw [append_assoc]
  exact isIndexKey_indexPrefix d _ _

theorem inSpace_uniqueKeys (hkey : IsRowKey d key) (h : k ∈ env.uniqueKeys d key row) :
    InSpace d k := by
  rcases mem_append.mp h with hk | hk
  · exact .inr (inSpace_uniqueProbeKeys hk)
  · split_ifs at hk
    · rw [mem_singleton.mp hk]
      exact .inl hkey
    · exact nomatch hk

/-! ### INSERT -/

/-- The owners of unique entries are rows of the table. -/
def OwnersOwn (d : TableDef) (owners : List (Bytes × Bytes)) : Prop := ∀ e ∈ owners, IsRowKey d e.2

def CandidatesOwn (d : TableDef) (cs : List Candidate) : Prop := ∀ c ∈ cs, IsRowKey d c.key

theorem mem_foundCells_multiGet {s : Store} {ks : List Bytes} {e : Bytes × Cell}
    (h : e ∈ foundCells ks (ks.map s.get)) : e.1 ∈ ks ∧ s.get e.1 = some e.2 := by
  rw [foundCells, ← map_prod_left_eq_zip] at h
  obtain ⟨x, hx, he⟩ := mem_filterMap.mp h
  obtain ⟨k, hk, rfl⟩ := mem_map.mp hx
  obtain ⟨c, hc, rfl⟩ := Option.map_eq_some_iff.mp he
  exact ⟨hk, hc⟩

theorem probeOwners_own (hp : ∀ k ∈ probes, IsIndexKey d k) {cells : List (Option Cell)}
    (h : Given d (.multiGet probes) cells) : OwnersOwn d (probeOwners probes cells) := by
  obtain ⟨s, hs, rfl⟩ := h
  intro e he
  obtain ⟨x, hx, hxe⟩ := mem_filterMap.mp he
  obtain ⟨hmem, hget⟩ := mem_foundCells_multiGet hx
  split at hxe
  case h_1 owner hcell =>
    cases hxe
    rw [hcell] at hget
    exact hs.entries _ _ (hp _ hmem) hget
  case h_2 => exact nomatch hxe

theorem skipRows_own {hasPk : Bool} {taken keys claimed : List Bytes} {cs : List Candidate}
    (hcs : CandidatesOwn d cs) : RowsOwn d (skipRows hasPk taken keys claimed cs) := by
  induction cs generalizing keys claimed with
  | nil => exact nofun
  | cons c cs ih =>
    obtain ⟨hc, hrest⟩ := forall_mem_cons.mp hcs
    rw [skipRows]
    split_ifs
    · exact ih hrest
    · exact forall_mem_cons.mpr ⟨hc, ih hrest⟩
    · exact forall_mem_cons.mpr ⟨hc, ih hrest⟩

theorem buildKeys_own {next : UInt64} {rows : List Row} {r : List (Bytes × Row) × UInt64}
    (h : env.buildKeys d next rows = .ok r) : RowsOwn d r.1 := by
  induction rows generalizing next r with
  | nil =>
    cases h
    exact nofun
  | cons row rows ih =>
    rw [buildKeys] at h
    split_ifs at h
    · obtain ⟨encoded, -, h⟩ := except_bind_ok h
      obtain ⟨rest, hrest, h⟩ := except_bind_ok h
      cases h
      exact forall_mem_cons.mpr ⟨isRowKey_dataKey encoded, ih hrest⟩
    · obtain ⟨rest, hrest, h⟩ := except_bind_ok h
      cases h
      exact forall_mem_cons.mpr ⟨isRowKey_dataKey _, ih hrest⟩

structure ReplaceOwn (d : TableDef) (st : ReplaceState) : Prop where
  out : RowsOwn d st.out
  stored : RowsOwn d st.stored
  removed : RowsOwn d st.removed

theorem RowsOwn.lookup (h : RowsOwn d rows) {r : Row} (hk : rows.lookup k = some r) :
    IsRowKey d k := by
  obtain ⟨l, l', rfl, -⟩ := lookup_eq_some_iff.mp hk
  exact h _ (mem_append_right l mem_cons_self)

theorem RowsOwn.filter (h : RowsOwn d rows) (p : Bytes × Row → Bool) : RowsOwn d (rows.filter p) :=
  fun e he => h e (mem_filter.mp he).1

theorem removeVictim_own {st : ReplaceState} (h : ReplaceOwn d st) (victim : Bytes) :
    ReplaceOwn d (env.removeVictim d st victim).1 := by
  unfold removeVictim
  split
  case h_1 => exact ⟨RowsOwn.filter h.out _, h.stored, h.removed⟩
  case h_2 =>
    split
    case h_1 old hold =>
      refine ⟨h.out, RowsOwn.filter h.stored _, forall_mem_append.mpr ⟨h.removed, ?_⟩⟩
      exact forall_mem_singleton.mpr (RowsOwn.lookup h.stored hold)
    case h_2 => exact h

section

variable (h : OwnersOwn d owners)
include h

theorem OwnersOwn.lookup {p o : Bytes} (ho : owners.lookup p = some o) :
    IsRowKey d o := by
  obtain ⟨l, l', rfl, -⟩ := lookup_eq_some_iff.mp ho
  exact h _ (mem_append_right l mem_cons_self)

theorem addOwners_own (hk : IsRowKey d key) :
    OwnersOwn d (addOwners owners probes key) := by
  intro e he
  rcases mem_append.mp he with he | he
  · exact h e he
  · obtain ⟨p, -, rfl⟩ := mem_map.mp he
    exact hk

theorem conflictOf_own {conflict r : Option Bytes} {ps : List Bytes}
    (hc : ∀ k, conflict = some k → IsRowKey d k) (hr : conflictOf owners conflict ps = .ok r) :
    ∀ k, r = some k → IsRowKey d k := by
  induction ps generalizing conflict with
  | nil =>
    cases hr
    exact hc
  | cons p ps ih =>
    unfold conflictOf at hr
    split at hr
    case h_1 => exact ih hc hr
    case h_2 owner ho =>
      refine ih (fun k hk => ?_) hr
      cases hk
      exact h.lookup ho
    case h_3 owner k ho =>
      split_ifs at hr
      exact ih hc hr

theorem remapRows_own {cs : List Candidate} (hcs : CandidatesOwn d cs)
    (hr : remapRows owners cs = .ok rows) : RowsOwn d rows := by
  induction cs generalizing owners rows with
  | nil =>
    cases hr
    exact nofun
  | cons c cs ih =>
    obtain ⟨hc, hrest⟩ := forall_mem_cons.mp hcs
    obtain ⟨conflict, hconflict, hr⟩ := except_bind_ok hr
    obtain ⟨rest, hrows, hr⟩ := except_bind_ok hr
    have hkey : IsRowKey d (conflict.getD c.key) := by
      have hown := conflictOf_own h (fun k hk => ?_) hconflict
      · cases conflict with
        | none => exact hc
        | some k => exact hown k rfl
      · obtain ⟨_, -, rfl⟩ := Option.map_eq_some_iff.mp hk
        exact hc
    cases hr
    exact forall_mem_cons.mpr ⟨hkey, ih (addOwners_own h hkey) hrest hrows⟩

end

theorem replaceRow_own {st : ReplaceState} (h : ReplaceOwn d st) {inPlace : Bool} {c : Candidate}
    (hc : IsRowKey d c.key) : ReplaceOwn d (env.replaceRow d inPlace owners st c) := by
  have hr := List.foldlRecOn (motive := fun acc : ReplaceState × Bool => ReplaceOwn d acc.1)
    (replaceColliding st owners c) (fun acc v =>
      let x := env.removeVictim d acc.1 v
      (x.1, inPlace && x.2 == some c.row)) (b := (st, false)) h
    fun acc hacc v _ => removeVictim_own hacc v
  exact ⟨forall_mem_append.mpr ⟨hr.out, forall_mem_singleton.mpr hc⟩, hr.stored, hr.removed⟩

theorem decodeStored_own {l : List (Bytes × Cell)} (hl : ∀ e ∈ l, IsRowKey d e.1)
    (h : decodeStored l = .ok rows) : RowsOwn d rows := by
  induction l generalizing rows with
  | nil =>
    cases h
    exact nofun
  | cons e l ih =>
    obtain ⟨he, hrest⟩ := forall_mem_cons.mp hl
    obtain ⟨r, -, h⟩ := except_bind_ok h
    obtain ⟨rs, hrs, h⟩ := except_bind_ok h
    cases h
    exact forall_mem_cons.mpr ⟨he, ih hrest hrs⟩

theorem isIndexKey_probes :
    ∀ k ∈ built.flatMap fun e => env.uniqueProbeKeys d e.2, IsIndexKey d k := by
  intro k hk
  obtain ⟨e, -, hk⟩ := mem_flatMap.mp hk
  exact inSpace_uniqueProbeKeys hk

theorem upsertRows_own {clustered : Bool} {acc r : List Change × Nat}
    {rows : List ((Bytes × Row) × Option Cell)} (hacc : ChangesOwn d acc.1)
    (hrows : ∀ e ∈ rows, IsRowKey d e.1.1) (h : upsertRows x d clustered acc rows = .ok r) :
    ChangesOwn d r.1 := by
  induction rows generalizing acc with
  | nil =>
    cases h
    exact hacc
  | cons e rows ih =>
    obtain ⟨he, hrest⟩ := forall_mem_cons.mp hrows
    obtain ⟨⟨key, row⟩, existing⟩ := e
    obtain ⟨batch, n⟩ := acc
    have hnew : ∀ (old : Option (Bytes × Row)) (row : Row), (∀ e, old = some e → IsRowKey d e.1) →
        ChangesOwn d (batch ++ [⟨old, some (key, row)⟩]) := by
      intro old row hold
      refine forall_mem_append.mpr ⟨hacc, forall_mem_singleton.mpr ⟨hold, ?_⟩⟩
      rintro e ⟨⟩
      exact he
    unfold upsertRows at h
    split at h
    case isTrue => exact ih (hnew none row nofun) hrest h
    split at h
    case h_1 e merge _ _ =>
      obtain ⟨merged, -, h⟩ := except_bind_ok h
      refine ih (fun c hc => ?_) hrest h
      obtain ⟨c', hc', rfl⟩ := mem_map.mp hc
      split_ifs
      · refine ⟨(hacc c' hc').1, ?_⟩
        rintro e ⟨⟩
        exact he
      · exact hacc c' hc'
    case h_2 =>
      split_ifs at h
      exact ih hacc hrest h
    case h_3 merge _ =>
      split at h
      case h_1 => exact ih (hnew none row nofun) hrest h
      case h_2 =>
        split_ifs at h
        exact ih hacc hrest h
      case h_3 c merge =>
        obtain ⟨old, -, h⟩ := except_bind_ok h
        obtain ⟨new, -, h⟩ := except_bind_ok h
        refine ih (hnew (some (key, old)) new ?_) hrest h
        rintro e ⟨⟩
        exact he

theorem zip_own (hb : RowsOwn d built) (cells : List (Option Cell)) :
    ∀ e ∈ built.zip cells, IsRowKey d e.1.1 :=
  fun e he => hb e.1 (of_mem_zip he).1

variable (hF : Foreign d F) (hx : InsertLocal F x) (hb : RowsOwn d built)
include hF

theorem safe_mutationMatches {ch : Choices} {limit : Option Nat} {sel : Selection}
    (hsel : sel.Local F) :
    Stays F d (RowsOwn d) (env.mutationMatches ch d limit sel) := by
  cases sel with
  | all =>
    change Stays F d (RowsOwn d) (env.collectMatches ch d none limit)
    exact safe_collectMatches hF
  | resolved filter =>
    exact Prog.Safe.bind (Harmless.safe hsel) fun f _ => safe_collectMatches hF
  | perRow test =>
    exact Prog.Safe.bind (safe_collectMatches hF) fun rows hrows => safe_testRows hsel hrows nofun

theorem safe_uniqueInRowOrder {rows : List StagedUpdate} {skip : Bool}
    (hrows : ∀ x ∈ rows, StagedOwn d x) :
    Stays F d (fun _ => True) (env.uniqueInRowOrder d rows skip) := by
  rw [uniqueInRowOrder]
  split_ifs
  · exact Prog.safe_pure trivial
  · dsimp only
    split_ifs
    · exact Prog.safe_lift fun _ _ => trivial
    · refine Prog.Safe.bind (safe_multiGet hF fun k hk => ?_) fun _ _ =>
        Prog.safe_lift fun _ _ => trivial
      obtain ⟨p, hp, hk⟩ := mem_flatMap.mp (mem_eraseDups.mp hk)
      obtain ⟨x, hx, rfl⟩ := mem_map.mp hp
      exact inSpace_uniqueKeys (hrows x hx).2 (mem_filter.mp hk).1

theorem safe_stageRowUpdates (hu : UpdateLocal F u) {rows : List (Bytes × Row × Row)}
    (hrows : ∀ e ∈ rows, IsRowKey d e.1) :
    Stays F d (Effect.Own d) (env.stageRowUpdates u d rows) := by
  refine Prog.Safe.bind (safe_stageRows hu hrows) fun staged hstaged => ?_
  refine Prog.Safe.bind (safe_uniqueInRowOrder hF hstaged) fun written _ => ?_
  refine Prog.Safe.bind (hu.widths d _).safe fun _ _ => Prog.safe_pure ⟨.refl d, fun c hc => ?_⟩
  obtain ⟨x, hx, rfl⟩ := mem_map.mp hc
  obtain ⟨y, hy, rfl⟩ := mem_map.mp hx
  obtain ⟨hold, hnew⟩ := hstaged y.1 (of_mem_zip (mem_filter.mp hy).1).1
  refine ⟨?_, ?_⟩
  · rintro e ⟨⟩
    exact hold
  · rintro e ⟨⟩
    exact hnew

theorem safe_checkUniqueBatch {batch : List (Bytes × Row)} :
    Stays F d (fun _ => True) (env.checkUniqueBatch d batch) := by
  rw [checkUniqueBatch]
  split_ifs
  · exact Prog.safe_pure trivial
  · refine Prog.Safe.bind (safe_multiGet hF fun k hk => ?_) fun cells _ => ?_
    · obtain ⟨e, he, rfl⟩ := mem_map.mp hk
      obtain ⟨x, -, he⟩ := mem_flatMap.mp he
      obtain ⟨p, hp, rfl⟩ := mem_map.mp he
      exact .inr (inSpace_uniqueProbeKeys hp)
    · split_ifs
      · exact Prog.safe_pure trivial
      · trivial
  · trivial

theorem safe_readRowid (table : Text) : Stays F d (fun _ => True) (readRowid table) := by
  refine Prog.Safe.bind (P := fun _ => True)
    ((Prog.safe_query fun k hk => ?_).imp fun _ _ => trivial)
    fun c _ => ?_
  · rw [show k = rowidKey table from hk]
    exact hF.not_head (head_of_counterKey ⟨table, .inl rfl⟩) (by decide) (by decide)
  · split <;> exact Prog.safe_pure trivial

include hb

theorem safe_replaceConflicts :
    Stays F d (ReplaceOwn d) (env.replaceConflicts x d built) := by
  refine Prog.Safe.bind (safe_multiGet hF fun k hk => .inr (isIndexKey_probes k hk))
    fun cells hcells => ?_
  have howners := probeOwners_own isIndexKey_probes hcells
  have hwanted : KeysOwn d (((if d.hasPk then built.map Prod.fst else []) ++
      (probeOwners (built.flatMap fun e => env.uniqueProbeKeys d e.2) cells).map
        Prod.snd).eraseDups) := by
    intro k hk
    rcases mem_append.mp (mem_eraseDups.mp hk) with hk | hk
    · split_ifs at hk
      · obtain ⟨e, he, rfl⟩ := mem_map.mp hk
        exact hb e he
      · exact nomatch hk
    · obtain ⟨e, he, rfl⟩ := mem_map.mp hk
      exact howners e he
  refine Prog.Safe.bind (safe_multiGet hF fun k hk => .inl (hwanted k hk)) fun found _ => ?_
  refine Prog.safe_lift_bind fun stored h => Prog.safe_pure ?_
  have hstored := decodeStored_own (fun e he => hwanted e.1 (mem_foundCells he)) h
  have hnil : RowsOwn d [] := nofun
  exact List.foldlRecOn built _ ⟨hnil, hstored, hnil⟩ fun st hst e he =>
    replaceRow_own hst (hb e he)

theorem safe_candidates :
    Stays F d (fun c => OwnersOwn d c.1 ∧ CandidatesOwn d c.2) (env.candidates d built) := by
  refine Prog.Safe.bind (safe_multiGet hF fun k hk => .inr (isIndexKey_probes k hk))
    fun cells hcells => ?_
  have howners := probeOwners_own isIndexKey_probes hcells
  have hcs : ∀ stored : List (Option Cell), CandidatesOwn d ((built.zip stored).map fun e =>
      ⟨e.1.1, e.1.2, env.uniqueProbeKeys d e.1.2, e.2⟩) := by
    intro stored c hc
    obtain ⟨e, he, rfl⟩ := mem_map.mp hc
    exact zip_own hb stored e he
  split
  case isTrue =>
    refine Prog.Safe.bind (safe_multiGet hF fun k hk => ?_) fun stored _ =>
      Prog.safe_pure ⟨howners, hcs stored⟩
    obtain ⟨e, he, rfl⟩ := mem_map.mp hk
    exact .inl (hb e he)
  case isFalse =>
    exact Prog.safe_pure ⟨howners, hcs _⟩

include hx

/-- The end of the slow path, once the rows that are collided with are read. -/
theorem safe_upsert {clustered : Bool} (existing : List (Option Cell)) :
    Stays F d (Effect.Own d) (do
      let r ← Prog.lift (upsertRows x d clustered ([], 0) (built.zip existing))
      if x.merge.isNone && !x.ignore && hasUnique d then
        env.checkUniqueBatch d (newRows r.1)
      x.widths d (newRows r.1)
      pure (.commit ⟨d, r.1, rowid, autoinc, r.2⟩) : Read Effect) := by
  have hnil : ChangesOwn d [] := nofun
  refine Prog.safe_lift_bind fun r h => ?_
  have hr := upsertRows_own hnil (zip_own hb existing) h
  have hend : Stays F d (Effect.Own d) (do
      x.widths d (newRows r.1)
      pure (.commit ⟨d, r.1, rowid, autoinc, r.2⟩) : Read Effect) :=
    Prog.Safe.bind (hx.widths d _).safe fun _ _ => Prog.safe_pure ⟨.refl d, hr⟩
  split_ifs
  · exact Prog.Safe.bind (safe_checkUniqueBatch hF) fun _ _ => hend
  · exact hend

theorem safe_insertSlow :
    Stays F d (Effect.Own d) (env.insertSlow x d built rowid autoinc) := by
  rw [insertSlow]
  split
  case isTrue =>
    refine Prog.Safe.bind (safe_replaceConflicts hF hb) fun plan hplan => ?_
    refine Prog.Safe.bind (hx.widths d _).safe fun _ _ => Prog.safe_pure ⟨.refl d, ?_⟩
    refine forall_mem_append.mpr ⟨fun c hc => ?_, fun c hc => ?_⟩
    · obtain ⟨e, he, rfl⟩ := mem_map.mp hc
      refine ⟨?_, nofun⟩
      rintro e' ⟨⟩
      exact hplan.removed e he
    · obtain ⟨e, he, rfl⟩ := mem_map.mp hc
      refine ⟨nofun, ?_⟩
      rintro e' ⟨⟩
      exact hplan.out e he
  case isFalse =>
    dsimp only
    split
    case isTrue =>
      refine Prog.Safe.bind (safe_multiGet hF fun k hk => ?_) fun existing _ =>
        safe_upsert hF hx hb existing
      obtain ⟨e, he, rfl⟩ := mem_map.mp hk
      exact .inl (hb e he)
    case isFalse =>
      exact safe_upsert hF hx hb _

/-- The commit of the rows that are left once the unique keys are looked at. -/
theorem safe_insertRows :
    Stays F d (Effect.Own d) (if !x.replace && x.merge.isNone && !x.ignore && d.hasPk then do
      x.widths d built
      pure (.insertNew d built autoinc)
    else env.insertSlow x d built rowid autoinc : Read Effect) := by
  split
  case isTrue =>
    exact Prog.Safe.bind (hx.widths d _).safe fun _ _ => Prog.safe_pure ⟨.refl d, hb⟩
  case isFalse => exact safe_insertSlow hF hx hb

end Env

/-! ### Whole statements -/

theorem decodeDef_ok {t : Text} {c g : Option Cell} (h : decodeDef t [c, g] = .ok d) :
    ∃ d₀, c = some (.table d₀) ∧ d = { d₀ with storageGeneration := generationOf g } := by
  unfold decodeDef at h
  split at h
  case h_1 d₀ n heq =>
    obtain ⟨rfl, hg⟩ := List.cons.inj heq
    obtain ⟨rfl, -⟩ := List.cons.inj hg
    exact ⟨d₀, rfl, (Except.ok.inj h).symm⟩
  case h_2 d₀ g' hnot heq =>
    obtain ⟨rfl, hg⟩ := List.cons.inj heq
    obtain ⟨rfl, -⟩ := List.cons.inj hg
    refine ⟨d₀, rfl, ?_⟩
    have hzero : generationOf g = 0 := by
      unfold generationOf
      split
      case h_1 n => exact absurd rfl (hnot n)
      case h_2 => rfl
    rw [hzero]
    exact (Except.ok.inj h).symm
  case h_3 => exact nomatch h
  case h_4 => exact nomatch h

theorem decodeDef_table (t : Text) (d₀ : TableDef) (g : Option Cell) :
    decodeDef t [some (.table d₀), g] = .ok { d₀ with storageGeneration := generationOf g } := by
  cases g with
  | none => rfl
  | some c => cases c <;> rfl

theorem Effect.Own.same (h : SameTable a d) {e : Effect} (he : e.Own d) : e.Own a := by
  have hsame : ∀ {d'}, SameTable d d' → SameTable a d' := fun hd =>
    ⟨hd.name.trans h.name, hd.generation.trans h.generation⟩
  cases e with
  | commit w =>
    refine ⟨hsame he.1, ?_⟩
    have hc := he.2
    unfold ChangesOwn at hc
    rw [h.isRowKey] at hc
    exact hc
  | insertNew d' rows autoinc | buildIndex d' rows =>
    refine ⟨hsame he.1, ?_⟩
    have hr := he.2
    unfold RowsOwn at hr
    rw [h.isRowKey] at hr
    exact hr
  | nothing => trivial

variable (hF : Foreign a F)
include hF

theorem safe_load : Stays F a (SameTable a) (load a.name) := by
  refine Prog.Safe.bind (P := Given a (.multiGet [catalogKey a.name, generationKey a.name]))
    (Prog.safe_query fun k hk => ?_) fun vs hvs => Prog.safe_lift fun d hd => ?_
  · rcases mem_cons.mp hk with rfl | hk
    · exact hF.not_head (head_catalogKey a.name) (by decide) (by decide)
    · rw [mem_singleton.mp hk]
      exact hF.not_head (head_generationKey a.name) (by decide) (by decide)
  · obtain ⟨s, hs, rfl⟩ := hvs
    obtain ⟨d₀, hd₀, rfl⟩ := decodeDef_ok hd
    exact ⟨hs.named d₀ hd₀, hs.generation⟩

/-- A statement that loads the table's definition and then works on it. -/
theorem safe_loaded {f : TableDef → Read α} {P : α → Prop}
    (h : ∀ d, SameTable a d → Foreign d F → Stays F d P (f d)) :
    Stays F a P (load a.name >>= f) := by
  refine Prog.Safe.bind (safe_load hF) fun d hd => ?_
  rw [hd.given]
  exact h d hd (hd.foreign hF)

namespace Env

theorem safe_update (ht : u.table = a.name) (hu : UpdateLocal F u) :
    Stays F a (Effect.Own a) (env.update u) := by
  rw [update, ht]
  refine safe_loaded hF fun d hd hF => ?_
  refine Prog.Safe.bind (safe_mutationMatches hF (hu.selection d)) fun found hfound => ?_
  refine Prog.Safe.bind (P := RowsOwn d) (Prog.safe_lift fun sorted h e he => ?_)
    fun sorted hsorted => ?_
  · exact hfound e (hu.sort d found sorted h e he)
  · refine Prog.Safe.bind (Prog.safe_mapList (fun e => IsRowKey d e.1) fun m hm => ?_)
      fun rows hrows => (safe_stageRowUpdates hF hu hrows).imp fun _ he => he.same hd
    refine Prog.Safe.bind (hu.assign d m.2).safe fun new _ => Prog.safe_pure ?_
    cases hl : u.limit with
    | none =>
      rw [hl] at hm
      exact hsorted m hm
    | some n =>
      rw [hl] at hm
      exact hsorted m (mem_of_mem_take hm)

theorem safe_delete {x : DeleteStmt} (ht : x.table = a.name)
    (hx : ∀ d, (x.selection d).Local F) :
    Stays F a (Effect.Own a) (env.delete x) := by
  rw [delete, ht]
  refine safe_loaded hF fun d hd hF => ?_
  refine Prog.Safe.bind (safe_mutationMatches hF (hx d)) fun found hfound => Prog.safe_pure ?_
  refine Effect.Own.same hd ⟨.refl d, fun c hc => ?_⟩
  obtain ⟨m, hm, rfl⟩ := mem_map.mp hc
  refine ⟨?_, nofun⟩
  rintro e ⟨⟩
  exact hfound m hm

theorem safe_createIndex {x : CreateIndexStmt} (ht : x.table = a.name) :
    Stays F a (Effect.Own a) (env.createIndex x) := by
  rw [createIndex, ht]
  refine safe_loaded hF fun d hd hF => ?_
  split
  case isTrue => trivial
  refine Prog.safe_lift_bind fun cols _ => ?_
  dsimp only
  split
  case isTrue =>
    split
    case isTrue => exact Prog.safe_pure trivial
    case isFalse => trivial
  case isFalse =>
    refine Prog.Safe.bind (P := RowsOwn d) ?_ fun rows hrows => Prog.safe_pure ?_
    · refine safe_scanLoop (fun k hk => hF.not_own (.inl hk)) (fun e _ hk => pushRow_own hk) ?_ ?_
      · exact nofun
      · exact nofun
    · exact Effect.Own.same hd ⟨⟨rfl, rfl⟩, hrows⟩

theorem safe_insert (ht : x.table = a.name) (hx : InsertLocal F x) :
    Stays F a (Effect.Own a) (env.insert x) := by
  rw [insert, ht]
  refine safe_loaded hF fun d hd hF => ?_
  refine Prog.Safe.bind (hx.rows d).safe fun rows _ => ?_
  refine Prog.Safe.imp (P := Effect.Own d) ?_ fun _ he => Effect.Own.same hd he
  dsimp only
  split
  case' isFalse => refine Prog.Safe.bind (safe_readRowid hF a.name) fun rowid _ => ?_
  all_goals
    refine Prog.safe_lift_bind fun built hbuilt => ?_
    have hb := buildKeys_own hbuilt
    split
    case isTrue =>
      refine Prog.Safe.bind (safe_candidates hF hb) fun c hc => ?_
      exact Prog.safe_lift_bind fun r hr => safe_insertRows hF hx (remapRows_own hc.1 hc.2 hr)
    case isFalse =>
      split
      case isTrue =>
        refine Prog.Safe.bind (safe_candidates hF hb) fun c hc => ?_
        exact safe_insertRows hF hx (skipRows_own hc.2)
      case isFalse => exact safe_insertRows hF hx hb

end Env

/-- Every statement on the rows of a table stays with them. -/
theorem Stmt.safe_program {x : Stmt} (ht : x.table = a.name) (hx : x.Local F) :
    Stays F a (Effect.Own a) (x.program env) := by
  cases x with
  | update u => exact Env.safe_update hF ht hx
  | delete x => exact Env.safe_delete hF ht hx
  | insert x => exact Env.safe_insert hF ht hx
  | createIndex x => exact Env.safe_createIndex hF ht

end Statements

end ElyraSql.Engine
