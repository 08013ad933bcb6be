import ElyraSql.Engine.Autocommit

/-!
# Index entries and rows

A table is consistent when its stored index entries are exactly those `entries_for_row` gives for
its stored rows. Autocommit statements do not keep this in every run: a statement deletes the
entries of the row it read and writes those of the row it computed, whatever has been committed in
between.
-/

namespace ElyraSql.Engine

open Transition OrderedMap List OMap Prod

/-! ## Kinds of keys -/

def IsRowKey (d : TableDef) (k : Bytes) : Prop := d.dataPrefix <+: k

instance (d : TableDef) (k : Bytes) : Decidable (IsRowKey d k) :=
  inferInstanceAs (Decidable (d.dataPrefix <+: k))

def IsIndexKey (d : TableDef) (k : Bytes) : Prop :=
  indexTablePrefix d.storageName <+: k ∨ indexnullTablePrefix d.storageName <+: k

instance (d : TableDef) (k : Bytes) : Decidable (IsIndexKey d k) :=
  inferInstanceAs (Decidable (_ ∨ _))

variable {k : Bytes} {d : TableDef}

/-- The first letters of the four keyspaces tell them apart. -/
theorem head_of_rowKey (h : IsRowKey d k) : k.head? = some 100 := by
  obtain ⟨t, rfl⟩ := h
  rfl

theorem head_of_indexKey (h : IsIndexKey d k) : k.head? = some 105 := by
  rcases h with ⟨t, rfl⟩ | ⟨t, rfl⟩ <;> rfl

theorem head_catalogKey (t : Text) : (catalogKey t).head? = some 99 := rfl

theorem head_generationKey (t : Text) : (generationKey t).head? = some 109 := rfl

/-- The key of a row id or auto-increment counter. -/
def IsCounterKey (k : Bytes) : Prop := ∃ t, k = rowidKey t ∨ k = autoincKey t

theorem head_of_counterKey (h : IsCounterKey k) : k.head? = some 109 := by
  obtain ⟨t, rfl | rfl⟩ := h <;> rfl

theorem not_isCounterKey_generationKey (t : Text) : ¬ IsCounterKey (generationKey t) := by
  have hg : (generationKey t)[6]? = some 103 := rfl
  rintro ⟨t', h | h⟩
  · have hr : (rowidKey t')[6]? = some 114 := rfl
    rw [← h, hg] at hr
    exact absurd hr (by decide)
  · have hr : (autoincKey t')[6]? = some 97 := rfl
    rw [← h, hg] at hr
    exact absurd hr (by decide)

variable {e : Bytes × Cell}

theorem isCounterKey_of_mem {rowid autoinc : Option UInt64} (h : e ∈ counterPuts d rowid autoinc) :
    IsCounterKey e.1 := by
  simp only [counterPuts, mem_append, mem_map] at h
  rcases h with ⟨n, -, rfl⟩ | ⟨n, -, rfl⟩
  · exact ⟨d.name, .inl rfl⟩
  · exact ⟨d.name, .inr rfl⟩

theorem isIndexKey_indexPrefix (d : TableDef) (index : Text) (rest : Bytes) :
    IsIndexKey d (indexPrefix d.storageName index ++ rest) :=
  Or.inl ⟨utf8 index ++ ascii [':', ':'] ++ rest, by simp [indexPrefix]⟩

theorem isIndexKey_indexnullPrefix (d : TableDef) (index : Text) (rest : Bytes) :
    IsIndexKey d (indexnullPrefix d.storageName index ++ rest) :=
  Or.inr ⟨utf8 index ++ ascii [':', ':'] ++ rest, by simp [indexnullPrefix]⟩

variable {dk : Bytes} {r : Row} {env : Env}

theorem isIndexKey_of_mem (h : k ∈ env.entryKeysForRow d r dk) : IsIndexKey d k := by
  obtain ⟨idx, -, hk⟩ := mem_flatMap.mp h
  unfold Env.indexEntryKeys at hk
  split at hk
  case isTrue => exact nomatch hk
  split at hk
  case isTrue =>
    obtain ⟨term, -, rfl⟩ := mem_map.mp hk
    rw [append_assoc, append_assoc]
    exact isIndexKey_indexPrefix d _ _
  split at hk
  case h_1 =>
    rw [mem_singleton.mp hk, Env.entryKeyEncoded, append_assoc, append_assoc]
    exact isIndexKey_indexPrefix d _ _
  split at hk
  case isTrue =>
    rw [mem_singleton.mp hk]
    exact isIndexKey_indexnullPrefix d _ _
  case isFalse => exact nomatch hk

variable {c : Cell} {s : Store}

theorem mem_entriesForRow :
    (k, c) ∈ env.entriesForRow d r dk ↔ k ∈ env.entryKeysForRow d r dk ∧ c = .entry dk := by
  simp only [Env.entriesForRow, mem_map, mk.injEq]
  constructor
  · rintro ⟨k', hk, rfl, rfl⟩
    exact ⟨hk, rfl⟩
  · rintro ⟨hk, rfl⟩
    exact ⟨k, hk, rfl, rfl⟩

theorem mem_partitionEntriesForRow :
    e ∈ (env.partitionEntriesForRow d r dk).1 ∨ e ∈ (env.partitionEntriesForRow d r dk).2 ↔
      e ∈ env.entriesForRow d r dk := by
  simp only [Env.partitionEntriesForRow, Env.entriesForRow, Env.entryKeysForRow, mem_map,
    mem_flatMap, mem_filter]
  constructor
  · rintro (⟨k, ⟨idx, ⟨hi, -⟩, hk⟩, rfl⟩ | ⟨k, ⟨idx, ⟨hi, -⟩, hk⟩, rfl⟩)
    · exact ⟨k, ⟨idx, hi, hk⟩, rfl⟩
    · exact ⟨k, ⟨idx, hi, hk⟩, rfl⟩
  · rintro ⟨k, ⟨idx, hi, hk⟩, rfl⟩
    cases hu : env.isUniqueEntry r idx with
    | false => exact Or.inl ⟨k, ⟨idx, ⟨hi, by simp [hu]⟩, hk⟩, rfl⟩
    | true => exact Or.inr ⟨k, ⟨idx, ⟨hi, hu⟩, hk⟩, rfl⟩

/-! ## Consistency -/

/-- The entries of the table's indexes are those of its rows. -/
structure Consistent (env : Env) (d : TableDef) (s : Store) : Prop where
  rows : ∀ k c, IsRowKey d k → s.get k = some c → ∃ r, c = .row r
  entries : ∀ k c, IsIndexKey d k → (s.get k = some c ↔
    ∃ dk r, IsRowKey d dk ∧ s.get dk = some (.row r) ∧ (k, c) ∈ env.entriesForRow d r dk)

/-- The table as the catalog defines it is consistent. -/
def TableConsistent (env : Env) (table : Text) (s : Store) : Prop :=
  ∃ d, (load table).eval (answer s) = .ok d ∧ d.name = table ∧ Consistent env d s

def Cell.row? : Cell → Option Row
  | .row r => some r
  | _ => none

def storedRows (d : TableDef) (s : Store) : List (Bytes × Row) :=
  s.entries.filterMap fun e => if IsRowKey d e.1 then e.2.row?.map (e.1, ·) else none

theorem Cell.row?_eq_some : c.row? = some r ↔ c = .row r := by
  cases c <;> simp [Cell.row?]

theorem mem_storedRows : (k, r) ∈ storedRows d s ↔ IsRowKey d k ∧ s.get k = some (.row r) := by
  rw [storedRows, mem_filterMap, get_eq_some]
  constructor
  · rintro ⟨e, he, h⟩
    split_ifs at h with hk
    obtain ⟨r', hr, hpair⟩ := Option.map_eq_some_iff.mp h
    cases hpair
    rw [← Cell.row?_eq_some.mp hr]
    exact ⟨hk, he⟩
  · rintro ⟨hk, he⟩
    exact ⟨(k, .row r), he, by simp [hk, Cell.row?]⟩

/-- Consistency looks at the stored pairs only, so it can be evaluated. -/
theorem consistent_iff : Consistent env d s ↔
    (∀ e ∈ s.entries, IsRowKey d e.1 → e.2.row?.isSome = true) ∧
    (∀ e ∈ s.entries, IsIndexKey d e.1 → ∃ x ∈ storedRows d s, e ∈ env.entriesForRow d x.2 x.1) ∧
    (∀ x ∈ storedRows d s, ∀ e ∈ env.entriesForRow d x.2 x.1, s.get e.1 = some e.2) := by
  constructor
  · intro h
    refine ⟨fun e he hk => ?_, fun e he hk => ?_, fun x hx e he => ?_⟩
    · obtain ⟨r, hr⟩ := h.rows e.1 e.2 hk (mem_entries_iff.mp he)
      rw [hr]
      rfl
    · obtain ⟨dk, r, hdk, hr, hmem⟩ := (h.entries e.1 e.2 hk).mp (mem_entries_iff.mp he)
      exact ⟨(dk, r), mem_storedRows.mpr ⟨hdk, hr⟩, hmem⟩
    · obtain ⟨hdk, hr⟩ := mem_storedRows.mp hx
      have hk := isIndexKey_of_mem (mem_entriesForRow.mp he).1
      exact (h.entries e.1 e.2 hk).mpr ⟨x.1, x.2, hdk, hr, he⟩
  · rintro ⟨hrow, hentry, hall⟩
    refine ⟨fun k c hk hg => ?_, fun k c hk => ⟨fun hg => ?_, ?_⟩⟩
    · obtain ⟨r, hr⟩ := Option.isSome_iff_exists.mp (hrow (k, c) (get_eq_some.mp hg) hk)
      exact ⟨r, Cell.row?_eq_some.mp hr⟩
    · obtain ⟨x, hx, hmem⟩ := hentry (k, c) (get_eq_some.mp hg) hk
      obtain ⟨hdk, hr⟩ := mem_storedRows.mp hx
      exact ⟨x.1, x.2, hdk, hr, hmem⟩
    · rintro ⟨dk, r, hdk, hr, hmem⟩
      exact hall (dk, r) (mem_storedRows.mpr ⟨hdk, hr⟩) (k, c) hmem

instance (env : Env) (d : TableDef) (s : Store) : Decidable (Consistent env d s) :=
  decidable_of_iff _ consistent_iff.symm

instance (env : Env) (table : Text) (s : Store) : Decidable (TableConsistent env table s) :=
  match h : (load table).eval (answer s) with
  | .ok d => decidable_of_iff (d.name = table ∧ Consistent env d s)
      ⟨fun hd => ⟨d, h, hd⟩, fun ⟨_, he, hd⟩ => by cases h.symm.trans he; exact hd⟩
  | .error _ => .isFalse fun ⟨_, he, _⟩ => nomatch h.symm.trans he

/-! ## Batches of rows -/

variable {x : Bytes × Row} {changes : List Change}

section Batch

variable {env : Env} {d : TableDef} {s : Store} {old new : List (Bytes × Row)}

/-- The rows `old` go and the rows `new` come: the old rows are stored as the statement takes them
to be, and what the new rows need is free, or given up by an old row. -/
@[mk_iff] structure RowsFit (env : Env) (d : TableDef) (s : Store)
    (old new : List (Bytes × Row)) : Prop where
  stored : ∀ e ∈ old, IsRowKey d e.1 ∧ s.get e.1 = some (.row e.2)
  room : ∀ e ∈ new, IsRowKey d e.1 ∧ (s.get e.1 = none ∨ e.1 ∈ old.map fst)
  distinct : (new.map fst).Nodup
  free : ∀ e ∈ new, ∀ k ∈ env.entryKeysForRow d e.2 e.1,
    s.get k = none ∨ ∃ o ∈ old, k ∈ env.entryKeysForRow d o.2 o.1
  apart : ∀ e ∈ new, ∀ e' ∈ new, ∀ k ∈ env.entryKeysForRow d e.2 e.1,
    k ∈ env.entryKeysForRow d e'.2 e'.1 → e.1 = e'.1

instance (env : Env) (d : TableDef) (s : Store) (old new : List (Bytes × Row)) :
    Decidable (RowsFit env d s old new) :=
  decidable_of_iff' _ (rowsFit_iff ..)

/-- The puts and deletes that take the old rows and their entries away and write the new ones. -/
structure RowBatch (env : Env) (d : TableDef) (old new : List (Bytes × Row))
    (puts : List (Bytes × Cell)) (deletes : List Bytes) : Prop where
  rowPut : ∀ x ∈ new, (x.1, .row x.2) ∈ puts
  entryPut : ∀ x ∈ new, ∀ e ∈ env.entriesForRow d x.2 x.1, e ∈ puts
  put_cases : ∀ e ∈ puts, (∃ x ∈ new, e = (x.1, .row x.2)) ∨
    (∃ x ∈ new, e ∈ env.entriesForRow d x.2 x.1) ∨ IsCounterKey e.1
  deleteEntries : ∀ o ∈ old, ∀ k ∈ env.entryKeysForRow d o.2 o.1, k ∈ deletes
  deleteRows : ∀ o ∈ old, o.1 ∈ deletes ∨ o.1 ∈ new.map fst
  deleted : ∀ k ∈ deletes,
    (∃ o ∈ old, k ∈ env.entryKeysForRow d o.2 o.1) ∨ k ∈ old.map fst

namespace RowBatch

variable {puts : List (Bytes × Cell)} {deletes : List Bytes}

theorem eq_of_key {y : Bytes × Row} (hd : (new.map fst).Nodup) (hx : x ∈ new) (hy : y ∈ new)
    (hk : x.1 = y.1) : x = y :=
  inj_on_of_nodup_map hd hx hy hk

variable (hb : RowBatch env d old new puts deletes)
include hb

theorem row_of_put (hk : IsRowKey d k) (hc : (k, c) ∈ puts) :
    ∃ x ∈ new, k = x.1 ∧ c = .row x.2 := by
  rcases hb.put_cases _ hc with ⟨x, hx, he⟩ | ⟨x, hx, he⟩ | he
  · cases he
    exact ⟨x, hx, rfl, rfl⟩
  · have hi := head_of_indexKey (isIndexKey_of_mem (mem_entriesForRow.mp he).1)
    rw [head_of_rowKey hk] at hi
    exact absurd hi (by decide)
  · have hm := head_of_counterKey he
    rw [head_of_rowKey hk] at hm
    exact absurd hm (by decide)

variable (hf : RowsFit env d s old new)
include hf

theorem entry_of_put (hk : IsIndexKey d k) (hc : (k, c) ∈ puts) :
    ∃ x ∈ new, k ∈ env.entryKeysForRow d x.2 x.1 ∧ c = .entry x.1 := by
  rcases hb.put_cases _ hc with ⟨x, hx, he⟩ | ⟨x, hx, he⟩ | he
  · cases he
    have hr := head_of_rowKey (hf.room x hx).1
    rw [head_of_indexKey hk] at hr
    exact absurd hr (by decide)
  · exact ⟨x, hx, mem_entriesForRow.mp he⟩
  · have hm := head_of_counterKey he
    rw [head_of_indexKey hk] at hm
    exact absurd hm (by decide)

theorem get_new (hx : x ∈ new) : (write s puts deletes).get x.1 = some (.row x.2) := by
  rw [get_write, lastValue_eq_some (hb.rowPut x hx), Option.some_or]
  intro w hw
  obtain ⟨y, hy, hk, rfl⟩ := hb.row_of_put (hf.room x hx).1 hw
  rw [eq_of_key hf.distinct hx hy hk]

theorem get_newEntry (hx : x ∈ new) (hk : k ∈ env.entryKeysForRow d x.2 x.1) :
    (write s puts deletes).get k = some (.entry x.1) := by
  rw [get_write, lastValue_eq_some (hb.entryPut x hx _ (mem_entriesForRow.mpr ⟨hk, rfl⟩)),
    Option.some_or]
  intro w hw
  obtain ⟨y, hy, hky, rfl⟩ := hb.entry_of_put hf (isIndexKey_of_mem hk) hw
  rw [hf.apart x hx y hy k hk hky]

omit hf in
/-- A row key that gets no new row keeps its row, unless that is an old row. -/
theorem get_row_of_not_new (hk : IsRowKey d k)
    (hn : k ∉ new.map fst) :
    (write s puts deletes).get k = if k ∈ old.map fst then none else s.get k := by
  have hlast : lastValue puts k = none := by
    refine lastValue_eq_none fun hm => ?_
    obtain ⟨⟨k', c⟩, he, rfl⟩ := mem_map.mp hm
    obtain ⟨x, hx, hkx, -⟩ := hb.row_of_put hk he
    exact hn (hkx ▸ mem_map_of_mem hx)
  have hdel : k ∈ deletes ↔ k ∈ old.map fst := by
    constructor
    · intro hd
      rcases hb.deleted k hd with ⟨o, -, ho⟩ | ho
      · have hi := head_of_indexKey (isIndexKey_of_mem ho)
        rw [head_of_rowKey hk] at hi
        exact absurd hi (by decide)
      · exact ho
    · intro ho
      obtain ⟨o, hmem, rfl⟩ := mem_map.mp ho
      exact (hb.deleteRows o hmem).resolve_right hn
  rw [get_write, hlast, Option.none_or]
  simp only [hdel]

/-- An index key that no new row needs keeps its entry, unless it is one of an old row. -/
theorem get_entry_of_not_new (hk : IsIndexKey d k)
    (hn : ∀ x ∈ new, k ∉ env.entryKeysForRow d x.2 x.1) :
    ((∃ o ∈ old, k ∈ env.entryKeysForRow d o.2 o.1) → (write s puts deletes).get k = none) ∧
    ((∀ o ∈ old, k ∉ env.entryKeysForRow d o.2 o.1) → (write s puts deletes).get k = s.get k) := by
  have hlast : lastValue puts k = none := by
    refine lastValue_eq_none fun hm => ?_
    obtain ⟨⟨k', c⟩, he, rfl⟩ := mem_map.mp hm
    obtain ⟨x, hx, hkx, -⟩ := hb.entry_of_put hf hk he
    exact hn x hx hkx
  rw [get_write, hlast, Option.none_or]
  constructor
  · rintro ⟨o, ho, hko⟩
    rw [if_pos (hb.deleteEntries o ho k hko)]
  · intro hno
    rw [if_neg]
    intro hd
    rcases hb.deleted k hd with ⟨o, ho, hko⟩ | ho
    · exact hno o ho hko
    · obtain ⟨o, hmem, rfl⟩ := mem_map.mp ho
      have hr := head_of_rowKey (hf.stored o hmem).1
      rw [head_of_indexKey hk] at hr
      exact absurd hr (by decide)

theorem consistent (hc : Consistent env d s) : Consistent env d (write s puts deletes) := by
  refine ⟨fun k c hk hg => ?_, fun k c hk => ⟨fun hg => ?_, ?_⟩⟩
  · by_cases hn : k ∈ new.map fst
    · obtain ⟨x, hx, rfl⟩ := mem_map.mp hn
      rw [hb.get_new hf hx] at hg
      exact ⟨x.2, (Option.some.inj hg).symm⟩
    · rw [hb.get_row_of_not_new hk hn] at hg
      split_ifs at hg
      exact hc.rows k c hk hg
  · by_cases hn : ∃ x ∈ new, k ∈ env.entryKeysForRow d x.2 x.1
    · obtain ⟨x, hx, hkx⟩ := hn
      rw [hb.get_newEntry hf hx hkx] at hg
      cases hg
      exact ⟨x.1, x.2, (hf.room x hx).1, hb.get_new hf hx, mem_entriesForRow.mpr ⟨hkx, rfl⟩⟩
    · -- The entry was there before, and its row is not among the old rows: it stays.
      have hno : ∀ o ∈ old, k ∉ env.entryKeysForRow d o.2 o.1 := fun o ho hko => by
        rw [(hb.get_entry_of_not_new hf hk fun x hx hkx => hn ⟨x, hx, hkx⟩).1 ⟨o, ho, hko⟩] at hg
        exact nomatch hg
      rw [(hb.get_entry_of_not_new hf hk fun x hx hkx => hn ⟨x, hx, hkx⟩).2 hno] at hg
      obtain ⟨dk, r, hdk, hr, he⟩ := (hc.entries k c hk).mp hg
      have hold : dk ∉ old.map fst := fun ho => by
        obtain ⟨o, hmem, rfl⟩ := mem_map.mp ho
        rw [(hf.stored o hmem).2] at hr
        cases hr
        exact hno o hmem (mem_entriesForRow.mp he).1
      have hnew : dk ∉ new.map fst := fun hm => by
        obtain ⟨x, hx, rfl⟩ := mem_map.mp hm
        rcases (hf.room x hx).2 with h | h
        · rw [h] at hr
          exact nomatch hr
        · exact hold h
      refine ⟨dk, r, hdk, ?_, he⟩
      rw [hb.get_row_of_not_new hdk hnew, if_neg hold, hr]
  · rintro ⟨dk, r, hdk, hr, he⟩
    obtain ⟨hkey, rfl⟩ := mem_entriesForRow.mp he
    by_cases hn : dk ∈ new.map fst
    · obtain ⟨x, hx, rfl⟩ := mem_map.mp hn
      rw [hb.get_new hf hx] at hr
      cases hr
      exact hb.get_newEntry hf hx hkey
    · -- A row that stays: its entry was there, and neither a new nor an old row can have it.
      rw [hb.get_row_of_not_new hdk hn] at hr
      split_ifs at hr with hold
      have hentry : s.get k = some (.entry dk) := (hc.entries k _ hk).mpr ⟨dk, r, hdk, hr, he⟩
      have hno : ∀ o ∈ old, k ∉ env.entryKeysForRow d o.2 o.1 := fun o ho hko => by
        obtain ⟨hrow, hget⟩ := hf.stored o ho
        have hown := (hc.entries k _ hk).mpr
          ⟨o.1, o.2, hrow, hget, mem_entriesForRow.mpr ⟨hko, rfl⟩⟩
        rw [hentry] at hown
        cases hown
        exact hold (mem_map_of_mem ho)
      have hnone : ∀ x ∈ new, k ∉ env.entryKeysForRow d x.2 x.1 := fun x hx hkx => by
        rcases hf.free x hx k hkx with h | ⟨o, ho, hko⟩
        · rw [hentry] at h
          exact nomatch h
        · exact hno o ho hko
      rw [(hb.get_entry_of_not_new hf hk hnone).2 hno, hentry]

theorem load_eq (table : Text) :
    (load table).eval (answer (write s puts deletes)) = (load table).eval (answer s) := by
  have keep : ∀ k, k.head? ≠ some 100 → k.head? ≠ some 105 → ¬ IsCounterKey k →
      (write s puts deletes).get k = s.get k := by
    intro k hrow hindex hcounter
    rw [get_write, lastValue_eq_none, Option.none_or, if_neg]
    · intro hd
      rcases hb.deleted k hd with ⟨o, -, ho⟩ | ho
      · exact hindex (head_of_indexKey (isIndexKey_of_mem ho))
      · obtain ⟨o, hmem, rfl⟩ := mem_map.mp ho
        exact hrow (head_of_rowKey (hf.stored o hmem).1)
    · intro hm
      obtain ⟨⟨k', c⟩, he, rfl⟩ := mem_map.mp hm
      rcases hb.put_cases _ he with ⟨x, hx, hxe⟩ | ⟨x, -, hxe⟩ | hce
      · cases hxe
        exact hrow (head_of_rowKey (hf.room x hx).1)
      · exact hindex (head_of_indexKey (isIndexKey_of_mem (mem_entriesForRow.mp hxe).1))
      · exact hcounter hce
  rw [eval_load, eval_load]
  rw [keep (catalogKey table) (by rw [head_catalogKey]; decide) (by rw [head_catalogKey]; decide)
      fun h => absurd (head_of_counterKey h) (by rw [head_catalogKey]; decide),
    keep (generationKey table) (by rw [head_generationKey]; decide)
      (by rw [head_generationKey]; decide) (not_isCounterKey_generationKey table)]

end RowBatch

end Batch

/-! ## The batches of the statements -/

theorem mem_oldRows {e : Bytes × Row} :
    e ∈ oldRows changes ↔ ∃ c ∈ changes, c.old = some e := mem_filterMap

theorem mem_newRows {e : Bytes × Row} :
    e ∈ newRows changes ↔ ∃ c ∈ changes, c.new = some e := mem_filterMap

theorem mem_changeDeletes {c : Change} :
    k ∈ env.changeDeletes d c ↔ ∃ e, c.old = some e ∧
      (k ∈ env.entryKeysForRow d e.2 e.1 ∨ (k = e.1 ∧ c.new.map fst ≠ some e.1)) := by
  unfold Env.changeDeletes
  cases c.old with
  | none => simp
  | some e =>
    simp only [Option.elim_some, Option.some.injEq]
    split_ifs with h <;> simp [h]

/-- `commit_write` removes the old rows of a statement and writes the new ones. -/
theorem rowBatch_writes (env : Env) (w : Writes) :
    RowBatch env w.table (oldRows w.changes) (newRows w.changes) (env.writePuts w)
      (env.writeDeletes w) := by
  refine ⟨?_, ?_, ?_, ?_, ?_, ?_⟩
  · intro x hx
    exact mem_append_left _ (mem_flatMap.mpr ⟨x, hx, mem_cons_self⟩)
  · intro x hx e he
    exact mem_append_left _ (mem_flatMap.mpr ⟨x, hx, mem_cons_of_mem _ he⟩)
  · intro e he
    rcases mem_append.mp he with he | he
    · obtain ⟨x, hx, he⟩ := mem_flatMap.mp he
      rcases mem_cons.mp he with rfl | he
      · exact .inl ⟨x, hx, rfl⟩
      · exact .inr (.inl ⟨x, hx, he⟩)
    · exact .inr (.inr (isCounterKey_of_mem he))
  · intro o ho k hk
    obtain ⟨c, hc, hco⟩ := mem_oldRows.mp ho
    exact mem_flatMap.mpr ⟨c, hc, mem_changeDeletes.mpr ⟨o, hco, .inl hk⟩⟩
  · intro o ho
    obtain ⟨c, hc, hco⟩ := mem_oldRows.mp ho
    by_cases hn : c.new.map fst = some o.1
    · obtain ⟨x, hx, hxo⟩ := Option.map_eq_some_iff.mp hn
      exact .inr (hxo ▸ mem_map_of_mem (mem_newRows.mpr ⟨c, hc, hx⟩))
    · exact .inl (mem_flatMap.mpr ⟨c, hc, mem_changeDeletes.mpr ⟨o, hco, .inr ⟨rfl, hn⟩⟩⟩)
  · intro k hk
    obtain ⟨c, hc, hkc⟩ := mem_flatMap.mp hk
    obtain ⟨e, he, hke | ⟨rfl, -⟩⟩ := mem_changeDeletes.mp hkc
    · exact .inl ⟨e, mem_oldRows.mpr ⟨c, hc, he⟩, hke⟩
    · exact .inr (mem_map_of_mem (mem_oldRows.mpr ⟨c, hc, he⟩))

theorem rowBatch_insert (env : Env) (d : TableDef) (rows : List (Bytes × Row))
    (autoinc : Option UInt64) :
    RowBatch env d [] rows (env.insertKeys d rows ++ env.insertAux d rows autoinc) [] := by
  refine ⟨?_, ?_, ?_, by simp, by simp, by simp⟩
  · intro x hx
    exact mem_append_left _ (mem_flatMap.mpr ⟨x, hx, mem_cons_self⟩)
  · intro x hx e he
    rcases mem_partitionEntriesForRow.mpr he with h | h
    · refine mem_append_right _ (mem_append_left _ ?_)
      exact mem_flatMap.mpr ⟨x, hx, h⟩
    · exact mem_append_left _ (mem_flatMap.mpr ⟨x, hx, mem_cons_of_mem _ h⟩)
  · intro e he
    rcases mem_append.mp he with he | he
    · obtain ⟨x, hx, he⟩ := mem_flatMap.mp he
      rcases mem_cons.mp he with rfl | he
      · exact .inl ⟨x, hx, rfl⟩
      · exact .inr (.inl ⟨x, hx, mem_partitionEntriesForRow.mp (.inr he)⟩)
    · rcases mem_append.mp he with he | he
      · obtain ⟨x, hx, he⟩ := mem_flatMap.mp he
        exact .inr (.inl ⟨x, hx, mem_partitionEntriesForRow.mp (.inl he)⟩)
      · exact .inr (.inr (isCounterKey_of_mem he))

/-! ## Building an index -/

def TableDef.withoutLast (d : TableDef) : TableDef := { d with indexes := d.indexes.dropLast }

/-- The statement adds one index to the current definition, has read exactly the stored rows, and
no two of them have an entry in common. -/
@[mk_iff] structure IndexFits (env : Env) (s : Store) (d : TableDef)
    (rows : List (Bytes × Row)) : Prop where
  current : (load d.name).eval (answer s) = .ok d.withoutLast
  stored : ∀ x ∈ rows, x ∈ storedRows d s
  complete : ∀ x ∈ storedRows d s, x ∈ rows
  apart : ∀ x ∈ rows, ∀ y ∈ rows, ∀ k ∈ env.entryKeysForRow d x.2 x.1,
    k ∈ env.entryKeysForRow d y.2 y.1 → x.1 = y.1

instance (env : Env) (s : Store) (d : TableDef) (rows : List (Bytes × Row)) :
    Decidable (IndexFits env s d rows) :=
  decidable_of_iff' _ (indexFits_iff ..)

variable {table : Text}

namespace IndexFits

variable {env : Env} {s : Store} {d : TableDef} {rows : List (Bytes × Row)}

theorem put_cases (h : e ∈ env.indexPuts d rows) :
    e = (catalogKey d.name, d.encode) ∨ ∃ x ∈ rows, e ∈ env.entriesForRow d x.2 x.1 := by
  rcases mem_cons.mp h with rfl | h
  · exact .inl rfl
  · exact .inr (mem_flatMap.mp h)

theorem get_other (env : Env) (s : Store) (d : TableDef) (rows : List (Bytes × Row))
    (hi : k.head? ≠ some 105) (hc : k ≠ catalogKey d.name) :
    (write s (env.indexPuts d rows) []).get k = s.get k := by
  rw [get_write, lastValue_eq_none, Option.none_or, if_neg not_mem_nil]
  intro hm
  obtain ⟨⟨k', c⟩, he, rfl⟩ := mem_map.mp hm
  rcases put_cases he with h | ⟨x, -, hx⟩
  · exact hc (congrArg fst h)
  · exact hi (head_of_indexKey (isIndexKey_of_mem (mem_entriesForRow.mp hx).1))

theorem get_row (env : Env) (s : Store) (d : TableDef) (rows : List (Bytes × Row))
    (hk : IsRowKey d k) : (write s (env.indexPuts d rows) []).get k = s.get k := by
  refine get_other env s d rows ?_ ?_
  · rw [head_of_rowKey hk]
    decide
  · rintro rfl
    exact absurd (head_of_rowKey hk) (by rw [head_catalogKey]; decide)

theorem get_entry (hf : IndexFits env s d rows) (hx : x ∈ rows)
    (hk : k ∈ env.entryKeysForRow d x.2 x.1) :
    (write s (env.indexPuts d rows) []).get k = some (.entry x.1) := by
  have hmem : (k, Cell.entry x.1) ∈ env.indexPuts d rows :=
    mem_cons_of_mem _ (mem_flatMap.mpr ⟨x, hx, mem_entriesForRow.mpr ⟨hk, rfl⟩⟩)
  rw [get_write, lastValue_eq_some hmem, Option.some_or]
  intro w hw
  rcases put_cases hw with h | ⟨y, hy, hyw⟩
  · have hi := head_of_indexKey (isIndexKey_of_mem hk)
    rw [show k = catalogKey d.name from congrArg fst h, head_catalogKey] at hi
    exact absurd hi (by decide)
  · obtain ⟨hky, rfl⟩ := mem_entriesForRow.mp hyw
    rw [hf.apart x hx y hy k hk hky]

/-- An entry of one of the indexes that were there is an entry under the new definition. -/
theorem mem_entries_of_withoutLast (h : e ∈ env.entriesForRow d.withoutLast r dk) :
    e ∈ env.entriesForRow d r dk := by
  obtain ⟨hk, hc⟩ := mem_entriesForRow.mp (show (e.1, e.2) ∈ _ from h)
  obtain ⟨idx, hidx, hk⟩ := mem_flatMap.mp hk
  exact mem_entriesForRow.mpr ⟨mem_flatMap.mpr ⟨idx, mem_of_mem_dropLast hidx, hk⟩, hc⟩

/-- The generation that a definition is loaded with. -/
def generationOf : Option Cell → UInt64
  | some (.counter n) => n
  | _ => 0

theorem decodeDef_table (table : Text) (d : TableDef) (g : Option Cell) :
    decodeDef table [some (.table d), g] = .ok { d with storageGeneration := generationOf g } := by
  cases g with
  | none => rfl
  | some c => cases c <;> rfl

theorem generation_of_decodeDef {a g : Option Cell} (h : decodeDef table [a, g] = .ok d) :
    d.storageGeneration = generationOf g := by
  cases a with
  | none => exact nomatch h
  | some c =>
    cases c with
    | table d' =>
      rw [decodeDef_table] at h
      cases h
      rfl
    | row r | entry k | counter n => exact nomatch h

theorem consistent (hf : IndexFits env s d rows) (hc : Consistent env d.withoutLast s) :
    Consistent env d (write s (env.indexPuts d rows) []) := by
  refine ⟨fun k c hk hg => ?_, fun k c hk => ⟨fun hg => ?_, ?_⟩⟩
  · rw [get_row env s d rows hk] at hg
    exact hc.rows k c hk hg
  · by_cases hn : ∃ x ∈ rows, k ∈ env.entryKeysForRow d x.2 x.1
    · obtain ⟨x, hx, hkx⟩ := hn
      rw [hf.get_entry hx hkx] at hg
      cases hg
      obtain ⟨hrow, hget⟩ := mem_storedRows.mp (hf.stored x hx)
      exact ⟨x.1, x.2, hrow, by rw [get_row env s d rows hrow, hget],
        mem_entriesForRow.mpr ⟨hkx, rfl⟩⟩
    · -- Not one of the entries that are put: it was there, under the old definition.
      rw [get_write, lastValue_eq_none] at hg
      · obtain ⟨dk, r, hdk, hr, he⟩ := (hc.entries k c hk).mp hg
        exact ⟨dk, r, hdk, by rw [get_row env s d rows hdk, hr], mem_entries_of_withoutLast he⟩
      · intro hm
        obtain ⟨⟨k', c'⟩, he, rfl⟩ := mem_map.mp hm
        rcases put_cases he with h | ⟨x, hx, hxe⟩
        · have hi := head_of_indexKey hk
          rw [show k' = catalogKey d.name from congrArg fst h, head_catalogKey] at hi
          exact absurd hi (by decide)
        · exact hn ⟨x, hx, (mem_entriesForRow.mp hxe).1⟩
  · rintro ⟨dk, r, hdk, hr, he⟩
    obtain ⟨hkey, rfl⟩ := mem_entriesForRow.mp he
    rw [get_row env s d rows hdk] at hr
    exact hf.get_entry (hf.complete (dk, r) (mem_storedRows.mpr ⟨hdk, hr⟩)) hkey

theorem load_eq (hf : IndexFits env s d rows) :
    (load d.name).eval (answer (write s (env.indexPuts d rows) [])) = .ok d := by
  have hcat : (write s (env.indexPuts d rows) []).get (catalogKey d.name) = some d.encode := by
    have hmem : (catalogKey d.name, d.encode) ∈ env.indexPuts d rows := mem_cons_self
    rw [get_write, lastValue_eq_some hmem, Option.some_or]
    intro w hw
    rcases put_cases hw with h | ⟨x, -, hx⟩
    · exact congrArg snd h
    · have hi := head_of_indexKey (isIndexKey_of_mem (mem_entriesForRow.mp hx).1)
      rw [head_catalogKey] at hi
      exact absurd hi (by decide)
  have hgen : (write s (env.indexPuts d rows) []).get (generationKey d.name) =
      s.get (generationKey d.name) := by
    refine get_other env s d rows (by rw [head_generationKey]; decide) fun h => ?_
    have hh := head_generationKey d.name
    rw [h, head_catalogKey] at hh
    exact absurd hh (by decide)
  have hcur := hf.current
  rw [eval_load] at hcur ⊢
  rw [hcat, hgen, TableDef.encode, decodeDef_table]
  have hgeneration := generation_of_decodeDef hcur
  rw [← hgeneration]
  rfl

end IndexFits

/-! ## Runs -/

/-- The commit of an effect fits the store of the table: the definition the statement worked with
is the current one, and so are the rows it replaces. -/
def CommitFits (env : Env) (table : Text) (s : Store) : Effect → Prop
  | .commit w => (load table).eval (answer s) = .ok w.table ∧
      RowsFit env w.table s (oldRows w.changes) (newRows w.changes)
  | .insertNew d rows _ => env.insertRefused s d rows = true ∨
      ((load table).eval (answer s) = .ok d ∧ RowsFit env d s [] rows)
  | .buildIndex d rows => d.name = table ∧ IndexFits env s d rows
  | .nothing => True

instance (env : Env) (table : Text) (s : Store) :
    (e : Effect) → Decidable (CommitFits env table s e)
  | .commit _ => inferInstanceAs (Decidable (_ ∧ _))
  | .insertNew .. => inferInstanceAs (Decidable (_ ∨ (_ ∧ _)))
  | .buildIndex .. => inferInstanceAs (Decidable (_ ∧ _))
  | .nothing => .isTrue trivial

/-- The commits of a run fit the store they are made to. -/
def Fits (env : Env) (table : Text) (s : Sys) : Act → Prop
  | .finish i => ∀ e, (s.tasks[i]?).bind Phase.outcome = some (.ok e) →
      CommitFits env table s.db.store e
  | _ => True

instance (env : Env) (table : Text) (s : Sys) : (a : Act) → Decidable (Fits env table s a)
  | .finish i =>
    match h : (s.tasks[i]?).bind Phase.outcome with
    | some (.ok e) => decidable_of_iff (CommitFits env table s.db.store e)
        ⟨fun hf _ he => by cases h.symm.trans he; exact hf, fun hf => hf e h⟩
    | some (.error _) | none => .isTrue fun _ he => nomatch h.symm.trans he
  | .read _ | .count _ => .isTrue trivial

theorem TableConsistent.applyEffect {e : Effect} (h : TableConsistent env table s)
    (hf : CommitFits env table s e) : TableConsistent env table (env.applyEffect s e) := by
  obtain ⟨d, hload, hname, hc⟩ := h
  cases e with
  | commit w =>
    obtain ⟨hcur, hfit⟩ := hf
    rw [hload] at hcur
    cases hcur
    have hb := rowBatch_writes env w
    exact ⟨w.table, (hb.load_eq hfit table).trans hload, hname, hb.consistent hfit hc⟩
  | insertNew d' rows autoinc =>
    by_cases hr : env.insertRefused s d' rows = true
    · rw [Env.applyEffect, if_pos hr]
      exact ⟨d, hload, hname, hc⟩
    · obtain ⟨hcur, hfit⟩ := hf.resolve_left hr
      rw [hload] at hcur
      cases hcur
      have hb := rowBatch_insert env d rows autoinc
      rw [Env.applyEffect, if_neg hr]
      exact ⟨d, (hb.load_eq hfit table).trans hload, hname, hb.consistent hfit hc⟩
  | buildIndex d' rows =>
    obtain ⟨rfl, hfit⟩ := hf
    have hcur := hfit.current
    rw [hload] at hcur
    cases hcur
    exact ⟨d', hfit.load_eq, rfl, hfit.consistent hc⟩
  | nothing => exact ⟨d, hload, hname, hc⟩

theorem TableConsistent.step {s s' : Sys} {a : Act} (h : TableConsistent env table s.db.store)
    (hf : Fits env table s a) (hs : s.step env a = some s') :
    TableConsistent env table s'.db.store := by
  obtain ⟨i, trace, q, k, rfl, hp, rfl⟩ | ⟨i, trace, e, rfl, hp, rfl⟩ |
    ⟨i, p, e, rfl, hp, ho, rfl⟩ | ⟨i, p, e, n, rfl, hp, ho, rfl⟩ := Sys.step_cases hs
  · exact h
  · exact h
  · exact h
  · have hfit := hf e (by rw [hp]; exact ho)
    have hstore := h.applyEffect hfit
    rw [← Db.store_commit env s.db e n] at hstore
    exact hstore

/-- From a consistent table, in every run whose commits fit the store, the entries of the table's
indexes are those of its rows in every state reached. -/
theorem index_consistency (env : Env) (table : Text) (db : Db) (stmts : List Stmt) {s : Sys}
    (h₀ : TableConsistent env table db.store)
    (h : Reach (Sys.step env) (Fits env table) (Sys.start env db stmts) s) :
    TableConsistent env table s.db.store := by
  have hinv := Reach.invariant (I := fun s : Sys => TableConsistent env table s.db.store) h₀
    (fun hc hok hs => hc.step hok hs) h
  exact hinv

/-- The table `t` with an index on `v`. -/
def indexedTable : TableDef :=
  { counterTable with indexes := [⟨['b', 'y', 'v'], [1], false, false, false, [.ci], false⟩] }

/-- The table holds the row `(1, 10)` and its index entry. -/
def indexedDb : Db :=
  ⟨write empty
    ((catalogKey ['t'], indexedTable.encode) ::
      Env.plain.rowPuts indexedTable (counterKey, [.int 1, .int 10])) [], 0⟩

/-- `UPDATE t SET v = n`. -/
def assignV (n : Int64) : Stmt := .update
  { table := ['t']
    choices := ⟨none, [], 2⟩
    selection := fun _ => .all
    sort := fun _ rows => .ok rows
    limit := none
    ignore := false
    assign := fun _ row => pure (row.set 1 (.int n))
    rules := fun _ _ new => pure (some new)
    widths := fun _ _ => pure () }

/-- Each of two overlapping updates removes the entry of the row it read and writes one for its own
value: the row has one value, and the entry of the other stays. -/
theorem index_entries_diverge :
    TableConsistent .plain ['t'] indexedDb.store ∧
    ∃ s, run (Sys.step .plain) (Sys.start .plain indexedDb [assignV 20, assignV 30]) overlapped =
        some s ∧ ¬ TableConsistent .plain ['t'] s.db.store := by
  refine ⟨by decide +kernel, ?_⟩
  have hrun : (run (Sys.step .plain) (Sys.start .plain indexedDb [assignV 20, assignV 30])
      overlapped).map (fun s => decide (TableConsistent .plain ['t'] s.db.store)) = some false := by
    decide +kernel
  obtain ⟨s, hs, hd⟩ := Option.map_eq_some_iff.mp hrun
  exact ⟨s, hs, of_decide_eq_false hd⟩

theorem index_consistency_interleaved :
    ∃ s : Sys, TableConsistent .plain ['t'] indexedDb.store ∧
      Reach (Sys.step .plain) (Fits .plain ['t'])
        (Sys.start .plain indexedDb [assignV 20, deleteAll]) s ∧
      TableConsistent .plain ['t'] s.db.store := by
  have h₀ : TableConsistent .plain ['t'] indexedDb.store := by decide +kernel
  refine exists_and_left.mpr ⟨h₀, ?_⟩
  exact Reach.exists_of_run (P := fun _ => True) interleaved (by decide +kernel)
    fun s hreach _ => index_consistency _ _ _ _ h₀ hreach

end ElyraSql.Engine
