import ElyraSql.Engine.Tuples

/-!
# Adding a UNIQUE index

`create_index` reads the rows of a table and writes their entries in one batch, without looking for
two rows with the same tuple: of their entries, which have one key, the last stays. And a value of a
type that has no encoding gets no entry.
-/

namespace ElyraSql.Engine

open ReadProgram OrderedMap List Env

/-! ## What the statement does -/

section Build

variable {env : Env} {x : Env.CreateIndexStmt} {s : Store} {d d' : TableDef}
  {rows : List (Bytes × Row)}

theorem indexColumns_within {names : List Text} {cols : List Nat}
    (h : env.indexColumns d names = .ok cols) :
    (∀ c ∈ cols, c < d.columns.length) ∧ cols.length = names.length := by
  induction names generalizing cols with
  | nil =>
    cases h
    exact ⟨nofun, rfl⟩
  | cons n names ih =>
    obtain ⟨c, hcol, h⟩ := except_bind_ok h
    obtain ⟨cs, hcs, h⟩ := except_bind_ok h
    cases h
    have hc : env.columnOf d n = some c := by
      cases hc : env.columnOf d n with
      | none => rw [hc] at hcol; exact nomatch hcol
      | some c' => rw [hc] at hcol; rw [Except.ok.inj hcol]
    obtain ⟨hin, hlen⟩ := ih hcs
    have hlt : c < d.columns.length := (findIdx?_eq_some_iff_findIdx_eq.mp hc).1
    exact ⟨forall_mem_cons.mpr ⟨hlt, hin⟩, congrArg (· + 1) hlen⟩

/-- A statement that builds an index adds it to the current definition and reads all rows. -/
theorem createIndex_built (hload : (load x.table).eval (answer s) = .ok d)
    (hrun : (env.createIndex x).eval (answer s) = .ok (.buildIndex d' rows)) :
    ∃ name cols, (∀ c ∈ cols, c < d.columns.length) ∧ cols ≠ [] ∧
      d' = { d with indexes := d.indexes ++ [newIndex x d name cols] } ∧
      (scanLoop d'.dataPrefix pushRow x.fuel none []).eval (answer s) = .ok rows := by
  obtain ⟨_, hd, hrun⟩ := Prog.eval_bind_ok.mp hrun
  cases hload.symm.trans hd
  dsimp only at hrun
  split at hrun
  case isTrue => exact nomatch hrun
  case isFalse hne =>
    obtain ⟨cols, hcols, hrun⟩ := Prog.eval_bind_ok.mp hrun
    rw [Prog.eval_lift] at hcols
    split at hrun
    case isTrue => split at hrun <;> exact nomatch hrun
    case isFalse =>
      obtain ⟨found, hfound, hrun⟩ := Prog.eval_bind_ok.mp hrun
      obtain ⟨hin, hlen⟩ := indexColumns_within hcols
      cases hrun
      refine ⟨x.name.getD (defaultIndexName x.table x.columns), cols, hin, fun h => hne ?_, rfl,
        hfound⟩
      rw [h] at hlen
      exact length_eq_zero_iff.mp hlen.symm

end Build

/-! ## Later inserts -/

/-- An INSERT without IGNORE, REPLACE or ON DUPLICATE KEY UPDATE. -/
structure InsertStmt.Plain (x : InsertStmt) : Prop where
  replace : x.replace = false
  ignore : x.ignore = false
  merge : x.merge = none

/-- The statement fails, while it reads or at its commit. -/
def insertFails (env : Env) (s : Store) (x : InsertStmt) : Bool :=
  match (env.insert x).eval (answer s) with
  | .error _ => true
  | .ok (.insertNew d rows _) => env.insertRefused s d rows
  | .ok _ => false

/-- The row numbers that a table without primary key hands out are unused. -/
def FreshIds (env : Env) (d : TableDef) (s : Store) (rows : List Row) : Prop :=
  d.hasPk = false → ∀ n built, (readRowid d.name).eval (answer s) = .ok n →
    env.buildKeys d n rows = .ok built → ∀ e ∈ built.1, s.get e.1 = none

/-- The row is stored under the key of its primary key. -/
def Keyed (env : Env) (d : TableDef) (e : Bytes × Row) : Prop :=
  ∃ enc, env.encodeColumnsColl e.2 d.pkCols d.pkCollations = .ok enc ∧ e.1 = d.dataKey enc

instance (env : Env) (d : TableDef) (e : Bytes × Row) : Decidable (Keyed env d e) :=
  match h : env.encodeColumnsColl e.2 d.pkCols d.pkCollations with
  | .ok enc => decidable_of_iff (e.1 = d.dataKey enc)
      ⟨fun hk => ⟨enc, h, hk⟩, fun ⟨_, henc, hk⟩ => by cases h.symm.trans henc; exact hk⟩
  | .error _ => .isFalse fun ⟨_, henc, _⟩ => nomatch h.symm.trans henc

variable {e : Bytes × Row} {enc : Bytes} {r : Row}

section Inserts

variable {env : Env} {x : InsertStmt} {s : Store} {d : TableDef} {idx : IndexDef}
  {rows : List Row} {autoinc : Option UInt64}

/-- What a plain INSERT ends with: the rows under their keys, to be refused by the writer if the
table has a primary key, and otherwise checked by the statement itself. -/
theorem insert_plain (hx : x.Plain) (hload : (load x.table).eval (answer s) = .ok d)
    (hrows : (x.rows d).eval (answer s) = .ok (rows, autoinc)) {eff : Effect}
    (h : (env.insert x).eval (answer s) = .ok eff) :
    (∃ built n, env.buildKeys d n rows = .ok built ∧ d.hasPk = true ∧
      eff = .insertNew d built.1 autoinc) ∨
    ∃ built n, env.buildKeys d n rows = .ok built ∧ d.hasPk = false ∧
      (readRowid x.table).eval (answer s) = .ok n ∧
      (env.insertSlow x d built.1 (some built.2) autoinc).eval (answer s) = .ok eff := by
  obtain ⟨_, hd, h⟩ := Prog.eval_bind_ok.mp h
  cases hload.symm.trans hd
  obtain ⟨_, hr, h⟩ := Prog.eval_bind_ok.mp h
  cases hrows.symm.trans hr
  cases hpk : d.hasPk <;>
    simp only [hpk, hx.merge, hx.ignore, hx.replace] at h <;>
    obtain ⟨n, hn, h⟩ := Prog.eval_bind_ok.mp h <;>
    obtain ⟨built, hbuilt, h⟩ := Prog.eval_bind_ok.mp h <;>
    rw [Prog.eval_lift] at hbuilt <;>
    obtain ⟨_, hremapped, h⟩ := Prog.eval_bind_ok.mp h <;>
    cases hremapped
  · exact .inr ⟨built, n, hbuilt, rfl, hn, h⟩
  · obtain ⟨_, -, h⟩ := Prog.eval_bind_ok.mp h
    cases h
    exact .inl ⟨built, n, hbuilt, rfl, rfl⟩

variable {built : List (Bytes × Row) × UInt64}

theorem buildKeys_cons {n : UInt64} {row : Row} (h : env.buildKeys d n (row :: rows) = .ok built) :
    ∃ key n' rest, env.buildKeys d n' rows = .ok rest ∧ built = ((key, row) :: rest.1, rest.2) ∧
      (d.hasPk = true → Keyed env d (key, row)) := by
  rw [buildKeys] at h
  split at h
  case isTrue =>
    obtain ⟨enc, henc, h⟩ := except_bind_ok h
    obtain ⟨rest, hrest, h⟩ := except_bind_ok h
    cases h
    exact ⟨_, n, rest, hrest, rfl, fun _ => ⟨enc, henc, rfl⟩⟩
  case isFalse hpk =>
    obtain ⟨rest, hrest, h⟩ := except_bind_ok h
    cases h
    exact ⟨_, n + 1, rest, hrest, rfl, fun hpk' => absurd hpk' hpk⟩

theorem mem_buildKeys {n : UInt64} (h : env.buildKeys d n rows = .ok built) (hr : r ∈ rows) :
    ∃ key, (key, r) ∈ built.1 := by
  induction rows generalizing n built with
  | nil => exact nomatch hr
  | cons row rows ih =>
    obtain ⟨key, n', rest, hbuilt, rfl, -⟩ := buildKeys_cons h
    rcases mem_cons.mp hr with rfl | hr
    · exact ⟨key, mem_cons_self⟩
    · obtain ⟨key', hkey⟩ := ih hbuilt hr
      exact ⟨key', mem_cons_of_mem _ hkey⟩

theorem newRows_upsertRows {rest : List ((Bytes × Row) × Option Cell)} {batch : List Change}
    {n : Nat} {out : List Change × Nat}
    (h : upsertRows x d false (batch, n) rest = .ok out) :
    newRows out.1 = newRows batch ++ rest.map Prod.fst := by
  induction rest generalizing batch n with
  | nil =>
    cases h
    simp
  | cons e rest ih =>
    obtain ⟨⟨key, row⟩, existing⟩ := e
    have hrest : newRows out.1 =
        newRows (batch ++ [⟨none, some (key, row)⟩]) ++ rest.map Prod.fst := ih h
    rw [hrest]
    simp [newRows]

/-- `check_unique_batch` lets a batch pass only if every bound probe is the row's own. -/
theorem checkUniqueBatch_ok {batch : List (Bytes × Row)}
    (h : (env.checkUniqueBatch d batch).eval (answer s) = .ok ()) (he : e ∈ batch) {p : Bytes}
    (hp : p ∈ env.uniqueProbeKeys d e.2) {c : Cell} (hc : s.get p = some c) : c = .entry e.1 := by
  have hmem : (p, e.1) ∈ batch.flatMap fun e => (env.uniqueProbeKeys d e.2).map fun p => (p, e.1) :=
    mem_flatMap.mpr ⟨e, he, mem_map_of_mem hp⟩
  rw [checkUniqueBatch] at h
  split at h
  case isTrue hnil => rw [hnil] at hmem; exact nomatch hmem
  split at h
  case isTrue => exact nomatch h
  obtain ⟨cells, hcells, h⟩ := Prog.eval_bind_ok.mp h
  split at h
  case isFalse => exact nomatch h
  case isTrue hall =>
    cases hcells
    have hzip : ((p, e.1), s.get p) ∈ (batch.flatMap fun e =>
        (env.uniqueProbeKeys d e.2).map fun p => (p, e.1)).zip
          (((batch.flatMap fun e => (env.uniqueProbeKeys d e.2).map fun p => (p, e.1)).map
            Prod.fst).map s.get) := by
      rw [map_map, zip_map_right, mem_map]
      exact ⟨((p, e.1), (p, e.1)), by
        obtain ⟨i, hi, hget⟩ := getElem_of_mem hmem
        rw [mem_iff_getElem]
        exact ⟨i, by simpa using hi, by simp [hget]⟩, rfl⟩
    have hcell := all_eq_true.mp hall _ hzip
    rw [hc] at hcell
    simpa using hcell

/-- The probe of an encoded tuple of a unique index is the key of its entry. -/
theorem mem_uniqueProbeKeys (hmem : idx ∈ d.indexes) (hu : idx.unique = true)
    (hv : idx.vector = false) (h : env.encodedOf idx r = some enc) (dk : Bytes) :
    entryKeyEncoded d idx enc dk ∈ env.uniqueProbeKeys d r := by
  refine mem_filterMap.mpr ⟨idx, mem_filter.mpr ⟨hmem, by simp [hu, hv]⟩, ?_⟩
  rw [h]
  simp [entryKeyEncoded, hu]

theorem mem_insertKeys (hmem : idx ∈ d.indexes) (hu : idx.unique = true) (hv : idx.vector = false)
    (hf : idx.fulltext = false) (h : env.encodedOf idx e.2 = some enc)
    {built : List (Bytes × Row)} (he : e ∈ built) :
    (entryKeyEncoded d idx enc e.1, Cell.entry e.1) ∈ env.insertKeys d built := by
  refine mem_flatMap.mpr ⟨e, he, mem_cons_of_mem _ ?_⟩
  refine mem_map.mpr ⟨_, mem_flatMap.mpr ⟨idx, ?_, ?_⟩, rfl⟩
  · exact mem_filter.mpr ⟨hmem, by simp [isUniqueEntry, hu, hf, h]⟩
  · exact (mem_indexEntryKeys hv hf).mpr (.inl ⟨enc, h, rfl⟩)

/-- An INSERT of a tuple whose entry belongs to a stored row fails. -/
theorem insert_refused (hx : x.Plain) (hload : (load x.table).eval (answer s) = .ok d)
    (hname : x.table = d.name) (hrows : (x.rows d).eval (answer s) = .ok (rows, autoinc))
    (hfresh : FreshIds env d s rows) (hmem : idx ∈ d.indexes) (hu : idx.unique = true)
    (hv : idx.vector = false) (hf : idx.fulltext = false) (hr : r ∈ rows)
    (henc : env.encodedOf idx r = some enc) (dk : Bytes) (hstored : s.get dk ≠ none)
    (hentry : s.get (entryKeyEncoded d idx enc dk) = some (.entry dk)) :
    insertFails env s x = true := by
  -- The key of a unique entry does not depend on the row.
  have hkey : ∀ key, s.get (entryKeyEncoded d idx enc key) = some (.entry dk) := fun key => by
    rw [← hentry, entryKeyEncoded, entryKeyEncoded, if_pos hu, if_pos hu]
  unfold insertFails
  cases heval : (env.insert x).eval (answer s) with
  | error e => rfl
  | ok eff =>
    obtain ⟨built, n, hbuilt, -, rfl⟩ | ⟨built, n, hbuilt, hpk, hn, hslow⟩ :=
      insert_plain hx hload hrows heval
    · obtain ⟨key, hin⟩ := mem_buildKeys hbuilt hr
      have hfree : ¬ ∀ e ∈ env.insertKeys d built.1, s.get e.1 = none := fun hfree => by
        have hnone := hfree _ (mem_insertKeys hmem hu hv hf henc hin)
        rw [hkey key] at hnone
        cases hnone
      simp only [insertRefused, Bool.not_eq_true', decide_eq_false_iff_not]
      exact fun h => hfree h.1
    · obtain ⟨key, hin⟩ := mem_buildKeys hbuilt hr
      exfalso
      have hunique : hasUnique d = true := any_eq_true.mpr ⟨idx, hmem, by simp [hu, hv]⟩
      simp only [insertSlow, hx.replace, hx.merge, hx.ignore, hpk, hunique] at hslow
      obtain ⟨existing, hexisting, hslow⟩ := Prog.eval_bind_ok.mp hslow
      cases hexisting
      obtain ⟨out, hout, hslow⟩ := Prog.eval_bind_ok.mp hslow
      rw [Prog.eval_lift] at hout
      obtain ⟨⟨⟩, hcheck, -⟩ := Prog.eval_bind_ok.mp hslow
      have hnew : (key, r) ∈ newRows out.1 := by
        rw [newRows_upsertRows hout, newRows, filterMap_nil, map_fst_zip (by simp)]
        exact hin
      have hown := checkUniqueBatch_ok hcheck hnew (mem_uniqueProbeKeys hmem hu hv henc key)
        (hkey key)
      obtain rfl : dk = key := by simpa using hown
      exact hstored (hfresh hpk n built (hname ▸ hn) hbuilt _ hin)

end Inserts

/-! ## Soundness -/

section

variable (env : Env) (d : TableDef) (idx : IndexDef)

def Distinct (s : Store) : Prop :=
  ∀ e ∈ storedRows d s, ∀ e' ∈ storedRows d s, idx.Same env e.2 e'.2 → e.1 = e'.1

instance (s : Store) : Decidable (Distinct env d idx s) :=
  inferInstanceAs (Decidable (∀ e ∈ storedRows d s, ∀ e' ∈ storedRows d s, _ → _))

/-- The entries of the table are those of its rows, and every row whose tuple has no NULL has one
entry in the index, which is its own. -/
structure OneToOne (s : Store) : Prop where
  consistent : Consistent env d s
  entry : ∀ e ∈ storedRows d s, idx.Present e.2 →
    ∃ k, env.indexEntryKeys d e.2 e.1 idx = [k] ∧ s.get k = some (.entry e.1)

/-- Whatever consistent state the table is in later, an INSERT of a tuple that one of its rows with
`P` holds fails. -/
def Enforced (P : Bytes × Row → Prop) : Prop :=
  ∀ t : Store, (load d.name).eval (answer t) = .ok d → Consistent env d t →
    ∀ e ∈ storedRows d t, P e →
      ∀ (x : InsertStmt) (rows : List Row) (autoinc : Option UInt64), x.Plain → x.table = d.name →
        (x.rows d).eval (answer t) = .ok (rows, autoinc) → FreshIds env d t rows →
        ∀ r ∈ rows, RowTyped d r → idx.Same env e.2 r → insertFails env t x = true

/-- The rows had distinct tuples when the index was built, afterwards they and the entries
correspond, and their tuples are refused from then on. -/
structure SoundIndex (s s' : Store) : Prop where
  distinct : Distinct env d idx s
  oneToOne : OneToOne env d idx s'
  enforced : Enforced env d idx (· ∈ storedRows d s)

/-- The tuples without NULL have an encoding and are distinct, and no row's entry in the index has
the key of another row's entry in an older one. -/
@[mk_iff] structure Indexable (s : Store) : Prop where
  encodable : ∀ e ∈ storedRows d s, idx.Present e.2 → (env.encodedOf idx e.2).isSome = true
  distinct : Distinct env d idx s
  apart : ∀ e ∈ storedRows d s, ∀ e' ∈ storedRows d s, ∀ k ∈ env.indexEntryKeys d e.2 e.1 idx,
    ∀ i ∈ d.indexes.dropLast, k ∈ env.indexEntryKeys d e'.2 e'.1 i → e.1 = e'.1

instance (s : Store) : Decidable (Indexable env d idx s) :=
  decidable_of_iff' _ (indexable_iff ..)

end

/-- The last index of a table is a new unique one: not full-text, over columns of the table, and a
vector index only over a vector column. -/
structure NewUnique (d : TableDef) (idx : IndexDef) : Prop where
  last : d.indexes = d.indexes.dropLast ++ [idx]
  unique : idx.unique = true
  notFulltext : idx.fulltext = false
  within : idx.Within d
  vector : idx.vector = true → ∃ ty ∈ idx.types d, ty.isKeyType = false

section

variable {env : Env} {s : Store} {d : TableDef} {idx : IndexDef} {rows : List (Bytes × Row)}

theorem storedRows_buildIndex (env : Env) (s : Store) (d : TableDef) (rows : List (Bytes × Row))
    (e : Bytes × Row) :
    e ∈ storedRows d (env.applyEffect s (.buildIndex d rows)) ↔ e ∈ storedRows d s := by
  rw [mem_storedRows, mem_storedRows]
  exact and_congr_right fun hk => by rw [applyEffect, IndexFits.get_row env s d rows hk]

variable (h : NewUnique d idx)
include h

theorem NewUnique.mem : idx ∈ d.indexes := by
  rw [h.last]
  exact mem_append_right _ (mem_singleton_self _)

theorem NewUnique.not_vector (hr : RowTyped d r) (henc : env.encodedOf idx r = some enc) :
    idx.vector = false := by
  rw [← Bool.not_eq_true]
  intro hv
  obtain ⟨ty, hty, hnot⟩ := h.vector hv
  have hkey := (encodedOf_isSome_iff hr h.within (present_of_encodedOf henc)).mp
    (by rw [henc]; rfl) ty hty
  exact absurd hkey (by rw [hnot]; decide)

theorem NewUnique.enforced {P : Bytes × Row → Prop}
    (hP : ∀ e, P e → RowTyped d e.2 ∧ (idx.Present e.2 → (env.encodedOf idx e.2).isSome = true)) :
    Enforced env d idx P := by
  intro t hload hc e he hPe x rows autoinc hx htable hrows hfresh r hr htyped hsame
  obtain ⟨htypedE, henc⟩ := hP e hPe
  obtain ⟨hpE, hpR⟩ := hsame.present
  obtain ⟨enc, henc⟩ := Option.isSome_iff_exists.mp (henc hpE)
  have hkey := (encodedOf_isSome_iff htypedE h.within hpE).mp (by rw [henc]; rfl)
  obtain ⟨enc', henc'⟩ : ∃ enc', env.encodedOf idx r = some enc' :=
    Option.isSome_iff_exists.mp ((encodedOf_isSome_iff htyped h.within hpR).mpr hkey)
  obtain rfl := (encodedOf_eq_iff htypedE htyped h.within henc henc').mpr hsame
  have hv := h.not_vector htyped henc'
  have hentry : entryKeyEncoded d idx enc e.1 ∈ env.indexEntryKeys d e.2 e.1 idx :=
    (mem_indexEntryKeys hv h.notFulltext).mpr (.inl ⟨enc, henc, rfl⟩)
  obtain ⟨hrow, hget⟩ := mem_storedRows.mp he
  exact insert_refused hx (htable ▸ hload) htable hrows hfresh h.mem h.unique hv h.notFulltext hr
    henc' e.1 (by rw [hget]; nofun) (hc.get_entry he h.mem hentry)

theorem SoundIndex.indexable
    (hs : SoundIndex env d idx s (env.applyEffect s (.buildIndex d rows))) :
    Indexable env d idx s := by
  refine ⟨fun e he hp => ?_, hs.distinct, fun e he e' he' k hk i hi hki => ?_⟩
  · obtain ⟨k, hk, -⟩ := hs.oneToOne.entry e ((storedRows_buildIndex env s d rows e).mpr he) hp
    have hmem : k ∈ env.indexEntryKeys d e.2 e.1 idx := by rw [hk]; exact mem_singleton_self _
    rcases (mem_indexEntryKeys (not_vector_of_mem hmem) h.notFulltext).mp hmem with
      ⟨x, hx, -⟩ | ⟨-, -, hlen, hnull, -⟩
    · rw [hx]
      rfl
    · -- The keyspace for NULL is for tuples with one.
      obtain ⟨c, hcols⟩ := length_eq_one_iff.mp hlen
      have hvalue := hp (e.2.getD c .null)
        (by rw [IndexDef.tuple, hcols]; exact mem_singleton_self _)
      rw [hcols] at hnull
      exact absurd hvalue (by rw [show (e.2.getD c .null).isNull = true from hnull]; decide)
  · have hget := hs.oneToOne.consistent.get_entry
      ((storedRows_buildIndex env s d rows e).mpr he) h.mem hk
    rw [hs.oneToOne.consistent.get_entry ((storedRows_buildIndex env s d rows e').mpr he')
      (mem_of_mem_dropLast hi) hki] at hget
    simpa using hget.symm

variable (hf : Indexable env d idx s) (htyped : ∀ e ∈ storedRows d s, RowTyped d e.2)
include hf htyped

theorem Indexable.eq_of_entry {e' : Bytes × Row} (he : e ∈ storedRows d s)
    (he' : e' ∈ storedRows d s) {k : Bytes} (hk : k ∈ env.indexEntryKeys d e.2 e.1 idx)
    (hk' : k ∈ env.indexEntryKeys d e'.2 e'.1 idx) : e.1 = e'.1 := by
  have hv := not_vector_of_mem hk
  rcases (mem_indexEntryKeys hv h.notFulltext).mp hk with ⟨x, hx, rfl⟩ | ⟨-, -, -, -, rfl⟩
  · rcases (mem_indexEntryKeys hv h.notFulltext).mp hk' with ⟨y, hy, heq⟩ | ⟨-, -, -, -, heq⟩
    · have hxy : x = y := by
        simp only [entryKeyEncoded, h.unique, if_true, append_nil] at heq
        exact append_cancel_left (append_cancel_right heq)
      exact hf.distinct e he e' he'
        ((encodedOf_eq_iff (htyped e he) (htyped e' he') h.within hx hy).mp hxy)
    · rw [entryKeyEncoded, append_assoc, append_assoc] at heq
      exact absurd heq (indexPrefix_ne_indexnullPrefix _ _ _ _ _ _)
  · rcases (mem_indexEntryKeys hv h.notFulltext).mp hk' with ⟨y, hy, heq⟩ | ⟨-, -, -, -, heq⟩
    · rw [entryKeyEncoded, append_assoc, append_assoc] at heq
      exact absurd heq.symm (indexPrefix_ne_indexnullPrefix _ _ _ _ _ _)
    · exact eq_of_clusteredKey (mem_storedRows.mp he).1 (mem_storedRows.mp he').1
        (append_cancel_left heq)

variable (hload : (load d.name).eval (answer s) = .ok d.withoutLast)
  (hc : Consistent env d.withoutLast s) (hrows : ∀ e, e ∈ rows ↔ e ∈ storedRows d s)
include hload hc hrows

theorem Indexable.indexFits : IndexFits env s d rows := by
  refine ⟨hload, fun e he => (hrows e).mp he, fun e he => (hrows e).mpr he, ?_⟩
  intro e he e' he' k hk hk'
  replace he := (hrows e).mp he
  replace he' := (hrows e').mp he'
  obtain ⟨i, hi, hki⟩ := mem_flatMap.mp hk
  obtain ⟨j, hj, hkj⟩ := mem_flatMap.mp hk'
  rw [h.last, mem_append, mem_singleton] at hi hj
  rcases hi with hi | rfl
  · rcases hj with hj | rfl
    · -- Both entries are in older indexes, where the table was consistent.
      have heq := (hc.get_entry he hi hki).symm.trans (hc.get_entry he' hj hkj)
      simpa using heq
    · exact (hf.apart e' he' e he k hkj i hi hki).symm
  · rcases hj with hj | rfl
    · exact hf.apart e he e' he' k hki j hj hkj
    · exact hf.eq_of_entry h htyped he he' hki hkj

theorem Indexable.soundIndex :
    SoundIndex env d idx s (env.applyEffect s (.buildIndex d rows)) := by
  have hfits := hf.indexFits h htyped hload hc hrows
  have hafter : Consistent env d (env.applyEffect s (.buildIndex d rows)) := hfits.consistent hc
  refine ⟨hf.distinct, ⟨hafter, fun e he hp => ?_⟩,
    h.enforced fun e he => ⟨htyped e he, hf.encodable e he⟩⟩
  have hbefore := (storedRows_buildIndex env s d rows e).mp he
  obtain ⟨enc, henc⟩ := Option.isSome_iff_exists.mp (hf.encodable e hbefore hp)
  have hv := h.not_vector (htyped e hbefore) henc
  have hkeys : env.indexEntryKeys d e.2 e.1 idx = [entryKeyEncoded d idx enc e.1] := by
    rw [indexEntryKeys, hv, h.notFulltext, henc]
    rfl
  exact ⟨_, hkeys, hafter.get_entry he h.mem (by rw [hkeys]; exact mem_singleton_self _)⟩

end

/-- The index that a statement adds to a consistent table with typed rows is a sound unique index
exactly when the tuples of the rows without NULL have an encoding and are distinct, and no entry is
one of another index. Over columns of key types, whatever is stored later is enforced too. -/
theorem unique_index_sound (env : Env) (x : Env.CreateIndexStmt) (s : Store) (d d' : TableDef)
    (idx : IndexDef) (rows : List (Bytes × Row)) (hunique : x.unique = true)
    (hload : (load x.table).eval (answer s) = .ok d) (hname : d.name = x.table)
    (hc : Consistent env d s) (htyped : ∀ e ∈ storedRows d s, RowTyped d e.2)
    (hfuel : EnoughFuel s x.fuel)
    (hrun : (env.createIndex x).eval (answer s) = .ok (.buildIndex d' rows))
    (hidx : d'.indexes.getLast? = some idx) :
    (SoundIndex env d' idx s (env.applyEffect s (.buildIndex d' rows)) ↔ Indexable env d' idx s) ∧
    ((∀ ty ∈ idx.types d', ty.isKeyType = true) →
      Enforced env d' idx fun e => RowTyped d' e.2) := by
  obtain ⟨name, cols, hin, hne, rfl, hscan⟩ := createIndex_built hload hrun
  rw [getLast?_concat] at hidx
  obtain rfl := Option.some.inj hidx
  have hnew : NewUnique { d with indexes := d.indexes ++ [newIndex x d name cols] }
      (newIndex x d name cols) := by
    refine ⟨by rw [dropLast_concat], hunique, rfl, hin, fun hv => ?_⟩
    simp only [newIndex, Bool.and_eq_true, decide_eq_true_eq] at hv
    obtain ⟨c, rfl⟩ := length_eq_one_iff.mp hv.1
    refine ⟨d.typeOf c, mem_singleton_self _, ?_⟩
    obtain ⟨col, hcol, hty⟩ := (Option.any_eq_true _ _).mp hv.2
    rw [TableDef.typeOf]
    cases h : col.ty <;> simp_all [ColumnType.isKeyType]
  have hold : TableDef.withoutLast
      { d with indexes := d.indexes ++ [newIndex x d name cols] } = d := by
    rw [TableDef.withoutLast, dropLast_concat]
  obtain ⟨found, hfound, hmem⟩ := hc.eval_scanRows hfuel
  cases hscan.symm.trans hfound
  refine ⟨⟨fun hs => hs.indexable hnew, fun hf => ?_⟩, fun hkey => hnew.enforced fun e he => ?_⟩
  · exact hf.soundIndex hnew htyped (by rw [hold, hname]; exact hload) (by rw [hold]; exact hc) hmem
  · exact ⟨he, fun hp => (encodedOf_isSome_iff he hnew.within hp).mpr hkey⟩

/-- The table `t` with a key and a column `v` of the given type. -/
def plainTable (ty : ColumnType) : TableDef :=
  { counterTable with columns := [⟨['i', 'd'], .int, false, .ci⟩, ⟨['v'], ty, true, .ci⟩] }

def plainKey (n : Int) : Bytes :=
  counterTable.dataKey (KeyOrder.bigEndian 256 8 (flipSign 64 n))

def twoRows (ty : ColumnType) (v w : Value) : Store :=
  write OMap.empty [(catalogKey ['t'], (plainTable ty).encode),
    (plainKey 1, .row [.int 1, v]), (plainKey 2, .row [.int 2, w])] []

/-- `CREATE UNIQUE INDEX u ON t (v)`. -/
def createUnique : Env.CreateIndexStmt := ⟨['t'], some ['u'], [['v']], true, false, 4⟩

def uniqueOnV : IndexDef := ⟨['u'], [1], true, false, false, [.ci], true⟩

def withUnique (ty : ColumnType) : TableDef := { plainTable ty with indexes := [uniqueOnV] }

def uniqueBuilt (ty : ColumnType) (v w : Value) : Effect :=
  .buildIndex (withUnique ty) [(plainKey 1, [.int 1, v]), (plainKey 2, [.int 2, w])]

/-- `INSERT INTO t VALUES (3, v)`. -/
def insertThird (v : Value) : InsertStmt where
  table := ['t']
  replace := false
  ignore := false
  deleteTriggers := false
  merge := none
  rows := fun _ => pure ([[.int 3, v]], none)
  widths := fun _ _ => pure ()

theorem unique_index_sound_texts :
    SoundIndex .plain (withUnique .text) uniqueOnV (twoRows .text (.text ['a']) (.text ['b']))
      (plain.applyEffect (twoRows .text (.text ['a']) (.text ['b']))
        (uniqueBuilt .text (.text ['a']) (.text ['b']))) ∧
    insertFails .plain (plain.applyEffect (twoRows .text (.text ['a']) (.text ['b']))
      (uniqueBuilt .text (.text ['a']) (.text ['b']))) (insertThird (.text ['A'])) = true := by
  refine ⟨(unique_index_sound .plain createUnique _ (plainTable .text) (withUnique .text) uniqueOnV
    [(plainKey 1, [.int 1, .text ['a']]), (plainKey 2, [.int 2, .text ['b']])] rfl ?_
      rfl ?_ ?_ ?_ ?_
    rfl).1.mpr ?_, ?_⟩ <;> decide +kernel

/-- Two rows with one tuple: the index is built, and one of them has no entry. A column of floats:
the index is built without entries, and a third row with the tuple of the first is inserted. -/
theorem unique_index_unsound :
    (plain.createIndex createUnique).eval
        (answer (twoRows .text (.text ['a']) (.text ['A']))) =
      .ok (uniqueBuilt .text (.text ['a']) (.text ['A'])) ∧
    ¬ SoundIndex .plain (withUnique .text) uniqueOnV (twoRows .text (.text ['a']) (.text ['A']))
      (plain.applyEffect (twoRows .text (.text ['a']) (.text ['A']))
        (uniqueBuilt .text (.text ['a']) (.text ['A']))) ∧
    (plain.createIndex createUnique).eval (answer (twoRows .float (.float 1) (.float 2))) =
      .ok (uniqueBuilt .float (.float 1) (.float 2)) ∧
    ¬ SoundIndex .plain (withUnique .float) uniqueOnV (twoRows .float (.float 1) (.float 2))
      (plain.applyEffect (twoRows .float (.float 1) (.float 2))
        (uniqueBuilt .float (.float 1) (.float 2))) ∧
    insertFails .plain (plain.applyEffect (twoRows .float (.float 1) (.float 2))
      (uniqueBuilt .float (.float 1) (.float 2))) (insertThird (.float 1)) = false := by
  refine ⟨by decide +kernel, fun h => ?_, by decide +kernel, fun h => ?_, by decide +kernel⟩
  · have heq := h.distinct (plainKey 1, [.int 1, .text ['a']]) (by decide +kernel)
      (plainKey 2, [.int 2, .text ['A']]) (by decide +kernel) (by decide +kernel)
    exact absurd heq (by decide +kernel)
  · obtain ⟨k, hk, -⟩ := h.oneToOne.entry (plainKey 1, [.int 1, .float 1]) (by decide +kernel)
      (by decide +kernel)
    exact nomatch hk

end ElyraSql.Engine
