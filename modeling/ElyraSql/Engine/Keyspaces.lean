import ElyraSql.Engine.DropTable
import ElyraSql.Engine.StatementKeys

/-!
# Statements on different tables

Every statement on a table reads and writes keys made from the physical name of the table. Whether
it stays away from the rows and entries of the other tables depends on their names alone.
-/

namespace ElyraSql.Engine

open ReadProgram Transition OrderedMap List Prod TableDef Env

/-! ## All statements on a table -/

inductive TableStmt
  | dml (x : Stmt)
  /-- The rows that a `WHERE` clause selects. -/
  | select (table : Text) (ch : Choices) (filter : Option Expr) (limit : Option Nat)
  | dropTable (x : DropTableStmt)
  | truncate (x : TruncateStmt)
  | dropIndex (x : DropIndexStmt)

inductive TableEffect
  | rows (e : Effect)
  | batch (b : Batch)
  | result (found : List (Bytes × Row))

def TableStmt.table : TableStmt → Text
  | .dml x => x.table
  | .select table .. => table
  | .dropTable x => x.table
  | .truncate x => x.table
  | .dropIndex x => x.table

def TableStmt.program (env : Env) : TableStmt → Read TableEffect
  | .dml x => do
    let e ← x.program env
    pure (.rows e)
  | .select table ch filter limit => do
    let d ← load table
    let found ← env.collectMatches ch d filter limit
    pure (.result found)
  | .dropTable x => do
    let b ← Engine.dropTable x
    pure (.batch b)
  | .truncate x => do
    let b ← Engine.truncate x
    pure (.batch b)
  | .dropIndex x => do
    let b ← Engine.dropIndex x
    pure (.batch b)

/-- The parts of a statement that are not on behalf of its table look at none of the keys; the keys
of its triggers begin with `sys::`. -/
def TableStmt.Local (F : Bytes → Prop) : TableStmt → Prop
  | .dml x => x.Local F
  | .dropTable x =>
    x.triggerKeys.Safe (Outside F) (fun _ _ => True) fun ks => ∀ k ∈ ks, k.head? = some 115
  | .select .. | .truncate _ | .dropIndex _ => True

namespace TableEffect

variable (env : Env)

def puts : TableEffect → List (Bytes × Cell)
  | .rows (.commit w) => env.writePuts w
  | .rows (.insertNew d new autoinc) => env.insertKeys d new ++ env.insertAux d new autoinc
  | .rows (.buildIndex d found) => env.indexPuts d found
  | .rows .nothing => []
  | .batch b => b.puts
  | .result _ => []

def deletes : TableEffect → List Bytes
  | .rows (.commit w) => env.writeDeletes w
  | .batch b => b.deletes
  | _ => []

def keys (e : TableEffect) : List Bytes := (e.puts env).map Prod.fst ++ e.deletes env

def apply (s : Store) : TableEffect → Store
  | .rows e => env.applyEffect s e
  | .batch b => write s b.puts b.deletes
  | .result _ => s

theorem apply_cases (s : Store) (e : TableEffect) :
    e.apply env s = write s (e.puts env) (e.deletes env) ∨ e.apply env s = s := by
  cases e with
  | rows e =>
    cases e with
    | commit w => exact .inl rfl
    | insertNew d new autoinc =>
      simp only [apply, applyEffect]
      split_ifs
      · exact .inr rfl
      · exact .inl rfl
    | buildIndex d found => exact .inl rfl
    | nothing => exact .inr rfl
  | batch b => exact .inl rfl
  | result found => exact .inr rfl

end TableEffect

/-! ## Writes of one table -/

/-- The keys of a table besides those of its rows and entries. -/
def metaKeys (table : Text) : List Bytes :=
  [catalogKey table, rowidKey table, autoincKey table, wcountKey table, tempOwnerKey table,
    colwidthKey table, coldeclKey table]

structure WritesOwn (a : TableDef) (puts : List (Bytes × Cell)) (deletes : List Bytes) : Prop where
  put : ∀ e ∈ puts, InSpace a e.1 ∨ e.1 ∈ metaKeys a.name
  delete : ∀ k ∈ deletes, InSpace a k ∨ k ∈ metaKeys a.name ∨ k.head? = some 115
  entries : ∀ k dk, (k, Cell.entry dk) ∈ puts → IsIndexKey a k → IsRowKey a dk
  named : ∀ d, (catalogKey a.name, Cell.table d) ∈ puts → d.name = a.name

/-- A key that neither the contents nor the definition of a table is stored under. -/
def Spares (b : TableDef) (k : Bytes) : Prop :=
  ¬ InSpace b k ∧ k ≠ catalogKey b.name ∧ k ≠ generationKey b.name

variable {k : Bytes} {a : TableDef}

section Writes

variable {env : Env} {a b d : TableDef} {s : Store} {puts : List (Bytes × Cell)}
  {deletes : List Bytes} {rows : List (Bytes × Row)} {autoinc : Option UInt64}

theorem head_of_inSpace (h : InSpace d k) : k.head? = some 100 ∨ k.head? = some 105 :=
  h.imp head_of_rowKey head_of_indexKey

theorem not_inSpace_of_head {c : Byte} (h : k.head? = some c) (hd : c ≠ 100) (hi : c ≠ 105) :
    ¬ InSpace d k := by
  intro hk
  rcases head_of_inSpace hk with hh | hh
  · exact hd (Option.some.inj (h.symm.trans hh))
  · exact hi (Option.some.inj (h.symm.trans hh))

theorem ne_of_getElem {x y : Bytes} (n : Nat) {c c' : Byte} (hx : x[n]? = some c)
    (hy : y[n]? = some c') (h : c ≠ c') : x ≠ y := by
  rintro rfl
  exact h (Option.some.inj (hx.symm.trans hy))

theorem catalogKey_injective {x y : Text} (h : catalogKey x = catalogKey y) : x = y :=
  utf8_injective (append_cancel_left h)

theorem not_inSpace_of_meta {table : Text} (hk : k ∈ metaKeys table) : ¬ InSpace d k := by
  simp only [metaKeys, mem_cons, not_mem_nil, or_false] at hk
  rcases hk with rfl | rfl | rfl | rfl | rfl | rfl | rfl <;>
    exact not_inSpace_of_head rfl (by decide) (by decide)

/-- No key of the one table's writes defines the other table. -/
theorem spares_of_own (hab : Apart a b) (hk : InSpace a k) : Spares b k := by
  have hne : ∀ {k' : Bytes} {c : Byte}, k'.head? = some c → c ≠ 100 → c ≠ 105 → k ≠ k' := by
    rintro k' c hc hd hi rfl
    exact not_inSpace_of_head hc hd hi hk
  exact ⟨hab.disjoint hk, hne (head_catalogKey b.name) (by decide) (by decide),
    hne (head_generationKey b.name) (by decide) (by decide)⟩

theorem spares_of_meta (hname : a.name ≠ b.name) (hk : k ∈ metaKeys a.name) : Spares b k := by
  simp only [metaKeys, mem_cons, not_mem_nil, or_false] at hk
  rcases hk with rfl | rfl | rfl | rfl | rfl | rfl | rfl
  · exact ⟨not_inSpace_of_head rfl (by decide) (by decide),
      fun h => hname (catalogKey_injective h), ne_of_getElem 0 rfl rfl (by decide)⟩
  all_goals
    refine ⟨not_inSpace_of_head rfl (by decide) (by decide), ?_, ?_⟩
    · first
        | exact ne_of_getElem 0 rfl rfl (by decide)
        | exact ne_of_getElem 1 rfl rfl (by decide)
    · first
        | exact ne_of_getElem 0 rfl rfl (by decide)
        | exact ne_of_getElem 6 rfl rfl (by decide)

theorem spares_of_head (hk : k.head? = some 115) : Spares b k := by
  refine ⟨not_inSpace_of_head hk (by decide) (by decide), ?_, ?_⟩
  · rintro rfl
    exact absurd ((head_catalogKey b.name).symm.trans hk) (by decide)
  · rintro rfl
    exact absurd ((head_generationKey b.name).symm.trans hk) (by decide)

/-- What keeps the keys of a table keeps the table. -/
theorem Owned.congr {s' : Store} (h : Owned b s) (hs : ∀ k, ¬ Spares b k → s'.get k = s.get k) :
    Owned b s' := by
  have hcat : s'.get (catalogKey b.name) = s.get (catalogKey b.name) :=
    hs _ fun hsp => hsp.2.1 rfl
  have hgen : s'.get (generationKey b.name) = s.get (generationKey b.name) :=
    hs _ fun hsp => hsp.2.2 rfl
  refine ⟨fun d hd => h.named d (hcat ▸ hd), by rw [hgen]; exact h.generation,
    fun k dk hk hget => ?_⟩
  rw [hs k fun hsp => hsp.1 (.inr hk)] at hget
  exact h.entries k dk hk hget

theorem get_write_of_notMem (hp : k ∉ puts.map fst) (hd : k ∉ deletes) :
    (write s puts deletes).get k = s.get k := by
  rw [get_write, OMap.lastValue_eq_none hp, if_neg hd, Option.none_or]

variable (h : WritesOwn a puts deletes)
include h

theorem WritesOwn.spares (hab : Apart a b)
    (hname : a.name ≠ b.name) (hk : k ∈ puts.map fst ++ deletes) : Spares b k := by
  rcases mem_append.mp hk with hk | hk
  · obtain ⟨e, he, rfl⟩ := mem_map.mp hk
    exact (h.put e he).elim (spares_of_own hab) (spares_of_meta hname)
  · rcases h.delete k hk with hk | hk | hk
    · exact spares_of_own hab hk
    · exact spares_of_meta hname hk
    · exact spares_of_head hk

theorem WritesOwn.owned_other (hab : Apart a b)
    (hname : a.name ≠ b.name) (hs : Owned b s) : Owned b (write s puts deletes) := by
  refine hs.congr fun k hk => get_write_of_notMem (fun hp => hk ?_) fun hd => hk ?_
  · exact h.spares hab hname (mem_append_left _ hp)
  · exact h.spares hab hname (mem_append_right _ hd)

omit h in
theorem get_write_cases {c : Cell} (h : (write s puts deletes).get k = some c) :
    (k, c) ∈ puts ∨ s.get k = some c := by
  rw [get_write] at h
  cases hl : OMap.lastValue puts k with
  | some c' =>
    rw [hl] at h
    cases h
    exact .inl (OMap.mem_of_lastValue hl)
  | none =>
    rw [hl, Option.none_or] at h
    split_ifs at h
    exact .inr h

theorem WritesOwn.generation : generationKey a.name ∉ puts.map fst ++ deletes := by
  have hspace : ¬ InSpace a (generationKey a.name) :=
    not_inSpace_of_head (head_generationKey a.name) (by decide) (by decide)
  have hmeta : generationKey a.name ∉ metaKeys a.name := by
    simp only [metaKeys, mem_cons, not_mem_nil, or_false, not_or]
    refine ⟨?_, ?_, ?_, ?_, ?_, ?_, ?_⟩ <;>
      first
        | exact ne_of_getElem 0 rfl rfl (by decide)
        | exact ne_of_getElem 6 rfl rfl (by decide)
  intro hk
  rcases mem_append.mp hk with hk | hk
  · obtain ⟨e, he, heq⟩ := mem_map.mp hk
    rcases h.put e he with hp | hp
    · exact hspace (heq ▸ hp)
    · exact hmeta (heq ▸ hp)
  · rcases h.delete _ hk with hk | hk | hk
    · exact hspace hk
    · exact hmeta hk
    · exact absurd (hk.symm.trans (head_generationKey a.name)) (by decide)

theorem WritesOwn.owned (hs : Owned a s) : Owned a (write s puts deletes) := by
  have hgen := h.generation
  rw [mem_append, not_or] at hgen
  refine ⟨fun d hd => ?_, ?_, fun k dk hk hget => ?_⟩
  · exact (get_write_cases hd).elim (h.named d) (hs.named d)
  · rw [get_write_of_notMem hgen.1 hgen.2]
    exact hs.generation
  · exact (get_write_cases hget).elim (fun hp => h.entries k dk hp hk) (hs.entries k dk hk)

omit h

theorem inSpace_of_mem_entries {r : Row} {dk : Bytes} {c : Cell} (hd : SameTable a d)
    (h : (k, c) ∈ env.entriesForRow d r dk) : IsIndexKey a k ∧ c = .entry dk := by
  obtain ⟨hk, hc⟩ := mem_entriesForRow.mp h
  exact ⟨hd.isIndexKey ▸ isIndexKey_of_mem hk, hc⟩

/-- The rows and entries that an effect writes. -/
structure RowWrites (a : TableDef) (puts : List (Bytes × Cell)) : Prop where
  put : ∀ e ∈ puts, InSpace a e.1
  entries : ∀ k dk, (k, Cell.entry dk) ∈ puts → IsRowKey a dk

theorem rowWrites_rows (hd : SameTable a d) (hr : RowsOwn a rows) :
    RowWrites a (rows.flatMap (env.rowPuts d)) := by
  refine ⟨fun e he => ?_, fun k dk he => ?_⟩
  · obtain ⟨x, hx, he⟩ := mem_flatMap.mp he
    rcases mem_cons.mp he with rfl | he
    · exact .inl (hr x hx)
    · exact .inr (inSpace_of_mem_entries hd he).1
  · obtain ⟨x, hx, he⟩ := mem_flatMap.mp he
    rcases mem_cons.mp he with he | he
    · exact nomatch (mk.inj he).2
    · cases (inSpace_of_mem_entries hd he).2
      exact hr x hx

/-- A batch of rows, entries, counters and the definition. -/
theorem RowWrites.writesOwn {rows rest : List (Bytes × Cell)} (h : RowWrites a rows)
    (hall : ∀ e ∈ puts, e ∈ rows ∨ e ∈ rest) (hrest : ∀ e ∈ rest, e.1 ∈ metaKeys a.name)
    (hnamed : ∀ d, (catalogKey a.name, Cell.table d) ∈ rest → d.name = a.name)
    (hdel : ∀ k ∈ deletes, InSpace a k ∨ k ∈ metaKeys a.name ∨ k.head? = some 115) :
    WritesOwn a puts deletes where
  put e he := (hall e he).imp (h.put e) (hrest e)
  delete := hdel
  entries k dk he hk := by
    rcases hall _ he with he | he
    · exact h.entries k dk he
    · exact absurd (.inr hk) (not_inSpace_of_meta (hrest _ he))
  named d he := by
    rcases hall _ he with he | he
    · exact absurd (h.put _ he) (not_inSpace_of_head (head_catalogKey a.name)
        (by decide) (by decide))
    · exact hnamed d he

theorem counterPuts_meta (hd : SameTable a d) {rowid : Option UInt64} :
    ∀ e ∈ counterPuts d rowid autoinc, e.1 ∈ metaKeys a.name ∧ ∃ n, e.2 = .counter n := by
  intro e he
  simp only [counterPuts, mem_append, mem_map] at he
  rcases he with ⟨n, -, rfl⟩ | ⟨n, -, rfl⟩ <;> exact ⟨by simp [metaKeys, hd.name], n, rfl⟩

theorem mem_insertPuts {e : Bytes × Cell}
    (h : e ∈ env.insertKeys d rows ++ env.insertAux d rows autoinc) :
    e ∈ rows.flatMap (env.rowPuts d) ∨ e ∈ counterPuts d none autoinc := by
  have hentries : ∀ {x : Bytes × Row}, x ∈ rows →
      e ∈ (env.partitionEntriesForRow d x.2 x.1).1 ∨ e ∈ (env.partitionEntriesForRow d x.2 x.1).2 →
      e ∈ rows.flatMap (env.rowPuts d) := fun hx he =>
    mem_flatMap.mpr ⟨_, hx, mem_cons_of_mem _ (mem_partitionEntriesForRow.mp he)⟩
  rcases mem_append.mp h with h | h
  · obtain ⟨x, hx, he⟩ := mem_flatMap.mp h
    rcases mem_cons.mp he with rfl | he
    · exact .inl (mem_flatMap.mpr ⟨x, hx, mem_cons_self⟩)
    · exact .inl (hentries hx (.inr he))
  · rcases mem_append.mp h with h | h
    · obtain ⟨x, hx, he⟩ := mem_flatMap.mp h
      exact .inl (hentries hx (.inl he))
    · exact .inr h

theorem ChangesOwn.newRows {changes : List Change} (h : ChangesOwn a changes) :
    RowsOwn a (newRows changes) := by
  intro e he
  obtain ⟨c, hc, hce⟩ := mem_filterMap.mp he
  exact (h c hc).2 e hce

theorem ChangesOwn.inSpace {w : Writes} (hd : SameTable a w.table) (h : ChangesOwn a w.changes) :
    ∀ k ∈ env.writeDeletes w, InSpace a k := by
  intro k hk
  obtain ⟨c, hc, hk⟩ := mem_flatMap.mp hk
  cases hold : c.old with
  | none =>
    rw [changeDeletes, hold] at hk
    exact nomatch hk
  | some e =>
    rw [changeDeletes, hold] at hk
    rcases mem_append.mp hk with hk | hk
    · exact .inr (hd.isIndexKey ▸ isIndexKey_of_mem hk)
    · split_ifs at hk
      · exact nomatch hk
      · rw [mem_singleton.mp hk]
        exact .inl ((h c hc).1 e hold)

theorem Effect.Own.writesOwn {e : Effect} (h : e.Own a) :
    WritesOwn a ((TableEffect.rows e).puts env) ((TableEffect.rows e).deletes env) := by
  have hcounter : ∀ {d d' : TableDef} {rowid autoinc : Option UInt64}, SameTable a d →
      (catalogKey a.name, Cell.table d') ∈ counterPuts d rowid autoinc → d'.name = a.name := by
    intro d d' rowid autoinc hd he
    obtain ⟨n, hn⟩ := (counterPuts_meta hd _ he).2
    exact nomatch hn
  cases e with
  | commit w =>
    exact (rowWrites_rows h.1 h.2.newRows).writesOwn (fun e he => mem_append.mp he)
      (fun e he => (counterPuts_meta h.1 e he).1) (fun d => hcounter h.1)
      fun k hk => .inl (ChangesOwn.inSpace h.1 h.2 k hk)
  | insertNew d rows autoinc =>
    exact (rowWrites_rows h.1 h.2).writesOwn (fun e he => mem_insertPuts he)
      (fun e he => (counterPuts_meta h.1 e he).1) (fun d => hcounter h.1) nofun
  | buildIndex d rows =>
    have hall : ∀ e ∈ env.indexPuts d rows,
        e ∈ rows.flatMap (env.rowPuts d) ∨ e ∈ [(catalogKey d.name, d.encode)] := by
      intro e he
      rcases mem_cons.mp he with rfl | he
      · exact .inr mem_cons_self
      · obtain ⟨x, hx, he⟩ := mem_flatMap.mp he
        exact .inl (mem_flatMap.mpr ⟨x, hx, mem_cons_of_mem _ he⟩)
    refine (rowWrites_rows h.1 h.2).writesOwn hall (fun e he => ?_) (fun d' he => ?_) nofun
    · rw [mem_singleton.mp he, h.1.name]
      exact mem_cons_self
    · cases (mk.inj (mem_singleton.mp he)).2
      exact h.1.name
  | nothing => exact ⟨nofun, nofun, nofun, nofun⟩

end Writes

/-! ## DROP TABLE, DROP INDEX and TRUNCATE -/

section Drops

variable {env : Env} {a d : TableDef} {F : Bytes → Prop}

theorem inSpace_of_keyspace {pfx : Bytes} (hp : pfx ∈ d.keyspaces) (hk : pfx <+: k) :
    InSpace d k := by
  simp only [keyspaces, mem_cons, not_mem_nil, or_false] at hp
  rcases hp with rfl | rfl | rfl
  · exact .inl hk
  · exact .inr (.inl hk)
  · exact .inr (.inr hk)

theorem safe_keysUnder (hF : Foreign d F) {fuel : Nat} {prefixes : List Bytes}
    (hp : ∀ pfx ∈ prefixes, ∀ k, pfx <+: k → InSpace d k) :
    Stays F d (fun ks => ∀ k ∈ ks, InSpace d k) (keysUnder fuel prefixes) := by
  refine Prog.Safe.bind (Prog.safe_mapList (fun ks => ∀ k ∈ ks, InSpace d k) fun pfx hpfx => ?_)
    fun lists hlists => Prog.safe_pure fun k hk => ?_
  · refine safe_scanLoop (fun k hk => hF.not_own (hp pfx hpfx k hk)) (fun e _ hk st r hst hr => ?_)
      ?_ ?_
    · cases hr
      exact forall_mem_append.mpr
        ⟨hst, forall_mem_singleton.mpr (hp pfx hpfx e.1 hk)⟩
    · exact nofun
    · exact nofun
  · obtain ⟨l, hl, hk⟩ := mem_flatten.mp hk
    exact hlists l hl k hk

theorem safe_getMeta (hF : Foreign d F) (table : Text) (hk : k ∈ metaKeys table) :
    Stays F d (fun _ => True) (Read.get k) := by
  refine (Prog.safe_query fun k' hk' h => ?_).imp fun _ _ => trivial
  rw [show k' = k from hk'] at h
  obtain ⟨-, hh⟩ := hF k h
  simp only [metaKeys, mem_cons, not_mem_nil, or_false] at hk
  rcases hk with rfl | rfl | rfl | rfl | rfl | rfl | rfl <;>
    exact hh.elim (fun hh => absurd (Option.some.inj hh) (by decide))
      fun hh => absurd (Option.some.inj hh) (by decide)

theorem safe_bumpWcount (hF : Foreign d F) {table : Text} :
    Stays F d (fun e => ∃ n, e = (wcountKey table, .counter n)) (bumpWcount table) := by
  refine Prog.Safe.bind (P := fun _ => True) ?_ fun n _ => Prog.safe_pure ⟨_, rfl⟩
  refine Prog.Safe.bind (safe_getMeta hF table (by simp [metaKeys])) fun c _ => ?_
  split <;> exact Prog.safe_pure trivial

def Batch.Own (a : TableDef) (b : Batch) : Prop := WritesOwn a b.puts b.deletes

variable (hF : Foreign a F)
include hF

theorem safe_dropTable {x : DropTableStmt} (ht : x.table = a.name)
    (hx : x.triggerKeys.Safe (Outside F) (fun _ _ => True) fun ks => ∀ k ∈ ks, k.head? = some 115) :
    Stays F a (Batch.Own a) (dropTable x) := by
  rw [dropTable, ht]
  refine Prog.Safe.bind (safe_getMeta hF a.name (by simp [metaKeys])) fun found _ => ?_
  split
  case isTrue =>
    split
    case isTrue => exact Prog.safe_pure ⟨nofun, nofun, nofun, nofun⟩
    case isFalse => trivial
  case isFalse =>
    refine Prog.Safe.bind (P := fun ks => ∀ k ∈ ks, InSpace a k ∨ k ∈ metaKeys a.name ∨
      k.head? = some 115) ?_ fun ks hks => Prog.safe_pure ⟨nofun, hks, nofun, nofun⟩
    rw [tableDeleteKeys, ht]
    refine safe_loaded hF fun d hd hF => ?_
    refine Prog.Safe.bind (hx.mono (fun _ h => h) (fun _ _ _ => trivial) fun _ h => h)
      fun triggers htriggers => ?_
    refine Prog.Safe.bind (safe_keysUnder hF fun pfx hp k => inSpace_of_keyspace hp)
      fun keys hkeys => Prog.safe_pure ?_
    rw [hd.inSpace] at hkeys
    intro k hk
    rcases mem_append.mp hk with hk | hk
    · rcases mem_append.mp hk with hk | hk
      · exact .inr (.inl (by
          simp only [mem_cons, not_mem_nil, or_false] at hk
          rcases hk with rfl | rfl | rfl | rfl | rfl | rfl <;> simp [metaKeys]))
      · exact .inr (.inr (htriggers k hk))
    · exact .inl (hkeys k hk)

theorem safe_truncate {x : TruncateStmt} (ht : x.table = a.name) :
    Stays F a (Batch.Own a) (truncate x) := by
  rw [truncate, ht]
  refine safe_loaded hF fun d hd hF => ?_
  refine Prog.Safe.bind (safe_keysUnder hF fun pfx hp k => inSpace_of_keyspace hp)
    fun keys hkeys => ?_
  rw [hd.inSpace] at hkeys
  refine Prog.Safe.bind (safe_bumpWcount hF) fun e he => Prog.safe_pure ?_
  obtain ⟨n, rfl⟩ := he
  have hnone : RowWrites a [] := ⟨nofun, nofun⟩
  refine hnone.writesOwn (fun e he => .inr he) (fun e he => ?_) (fun d he => ?_) fun k hk => ?_
  · rw [mem_singleton.mp he]
    simp [metaKeys]
  · exact nomatch (mk.inj (mem_singleton.mp he)).2
  · rcases mem_append.mp hk with hk | hk
    · simp only [mem_cons, not_mem_nil, or_false] at hk
      rcases hk with rfl | rfl <;> exact .inr (.inl (by simp [metaKeys]))
    · exact .inl (hkeys k hk)

theorem safe_dropIndex {x : DropIndexStmt} (ht : x.table = a.name) :
    Stays F a (Batch.Own a) (dropIndex x) := by
  rw [dropIndex, ht]
  refine safe_loaded hF fun d hd _ => ?_
  split
  case h_1 => trivial
  case h_2 position _ =>
    refine Prog.Safe.bind (P := fun ks => ∀ k ∈ ks, InSpace a k) ?_ fun keys hkeys =>
      Prog.safe_pure ?_
    · rw [← hd.given]
      refine safe_loaded hF fun d' hd' hF' => ?_
      rw [← hd'.inSpace]
      refine safe_keysUnder hF' fun pfx hp k hk => .inr ?_
      obtain ⟨n, -, hp⟩ := mem_flatMap.mp hp
      simp only [mem_cons, not_mem_nil, or_false] at hp
      rcases hp with rfl | rfl
      · obtain ⟨t, rfl⟩ := hk
        exact isIndexKey_indexPrefix d' n t
      · obtain ⟨t, rfl⟩ := hk
        exact isIndexKey_indexnullPrefix d' n t
    · have hnone : RowWrites a [] := ⟨nofun, nofun⟩
      refine hnone.writesOwn (fun e he => .inr he) (fun e he => ?_) (fun d' he => ?_)
        fun k hk => .inl (hkeys k hk)
      · rw [mem_singleton.mp he]
        exact mem_cons_self
      · cases (mk.inj (mem_singleton.mp he)).2
        exact hd.name

def TableEffect.Own (env : Env) (a : TableDef) (e : TableEffect) : Prop :=
  WritesOwn a (e.puts env) (e.deletes env)

/-- Every statement on a table stays with its table. -/
theorem TableStmt.safe_program {x : TableStmt} (ht : x.table = a.name) (hx : x.Local F) :
    Stays F a (TableEffect.Own env a) (x.program env) := by
  cases x with
  | dml x =>
    exact Prog.Safe.bind (Stmt.safe_program hF ht hx) fun e he => Prog.safe_pure he.writesOwn
  | select table ch filter limit =>
    obtain rfl : table = a.name := ht
    refine safe_loaded hF fun d hd hF => ?_
    exact Prog.Safe.bind (safe_collectMatches hF) fun found _ =>
      Prog.safe_pure ⟨nofun, nofun, nofun, nofun⟩
  | dropTable x => exact Prog.Safe.bind (safe_dropTable hF ht hx) fun b hb => Prog.safe_pure hb
  | truncate x => exact Prog.Safe.bind (safe_truncate hF ht) fun b hb => Prog.safe_pure hb
  | dropIndex x => exact Prog.Safe.bind (safe_dropIndex hF ht) fun b hb => Prog.safe_pure hb

end Drops

/-! ## Statements side by side -/

/-- A statement on a table, with what it has still to do. -/
structure Task where
  table : TableDef
  program : Read TableEffect

/-- The committed state, and the statements that are running. -/
structure TaskSys where
  store : Store
  tasks : List Task

inductive TaskAct
  | start (table : TableDef) (x : TableStmt)
  /-- The next question of a statement is answered. -/
  | read (i : Nat)
  /-- A statement commits, or ends with an error. -/
  | finish (i : Nat)

def TaskSys.step (env : Env) (s : TaskSys) : TaskAct → Option TaskSys
  | .start table x => some { s with tasks := s.tasks ++ [⟨table, x.program env⟩] }
  | .read i =>
    match s.tasks[i]? with
    | some ⟨table, .ask q k⟩ => some { s with tasks := s.tasks.set i ⟨table, k (answer s.store q)⟩ }
    | _ => none
  | .finish i =>
    match s.tasks[i]? with
    | some ⟨_, .pure e⟩ => some ⟨e.apply env s.store, s.tasks.eraseIdx i⟩
    | some ⟨_, .fail _⟩ => some { s with tasks := s.tasks.eraseIdx i }
    | _ => none

/-- The keys of the rows and entries of the other tables. -/
def Others (ts : List TableDef) (a : TableDef) (k : Bytes) : Prop :=
  ∃ b ∈ ts, b.name ≠ a.name ∧ InSpace b k

/-- The statements are on the tables of the database; their parts that are not on behalf of their
table look at no other. -/
def Admitted (ts : List TableDef) (_ : TaskSys) : TaskAct → Prop
  | .start table x => table ∈ ts ∧ x.table = table.name ∧ x.Local (Others ts table)
  | _ => True

/-- No statement looks at a key of another table, none writes or deletes one, and none changes what
is stored under one. -/
structure Separate (env : Env) (ts : List TableDef) (s : TaskSys) : Prop where
  reads : ∀ t ∈ s.tasks, ∀ q k, t.program = .ask q k →
    ∀ key, q.Touches key → ¬ Others ts t.table key
  writes : ∀ t ∈ s.tasks, ∀ e, t.program = .pure e → ∀ key ∈ e.keys env, ¬ Others ts t.table key
  keeps : ∀ t ∈ s.tasks, ∀ e, t.program = .pure e → ∀ key, Others ts t.table key →
    (e.apply env s.store).get key = s.store.get key

section Runs

variable {env : Env} {ts : List TableDef}

/-- No physical name, ended by the separator, is the beginning of another table's. -/
def NamesApart (ts : List TableDef) : Prop :=
  ∀ a ∈ ts, ∀ b ∈ ts, a.name ≠ b.name → ¬ NamesClash a.storageName b.storageName

instance (ts : List TableDef) : Decidable (NamesApart ts) :=
  inferInstanceAs (Decidable (∀ a ∈ ts, ∀ b ∈ ts, _ → _))

variable (h : NamesApart ts)
include h

theorem NamesApart.apart {b : TableDef} (ha : a ∈ ts) (hb : b ∈ ts)
    (hne : a.name ≠ b.name) : Apart a b :=
  ⟨h a ha b hb hne, h b hb a ha hne.symm⟩

theorem NamesApart.foreign (ha : a ∈ ts) : Foreign a (Others ts a) := by
  rintro k ⟨b, hb, hne, hk⟩
  exact ⟨(h.apart hb ha hne).disjoint hk, head_of_inSpace hk⟩

/-- The tables are as their statements leave them, and so every running statement keeps to its own
table. -/
structure TasksOwn (env : Env) (ts : List TableDef) (s : TaskSys) : Prop where
  owned : ∀ a ∈ ts, Owned a s.store
  tasks : ∀ t ∈ s.tasks, t.table ∈ ts ∧
    t.program.Safe (Outside (Others ts t.table)) (Given t.table) (TableEffect.Own env t.table)

theorem TableEffect.Own.owned (ha : a ∈ ts) {e : TableEffect} (he : e.Own env a)
    {s : Store} (hs : ∀ b ∈ ts, Owned b s) : ∀ b ∈ ts, Owned b (e.apply env s) := by
  intro b hb
  rcases e.apply_cases env s with happ | happ
  · rw [happ]
    by_cases hname : b.name = a.name
    · -- one name has one generation, so this is the table itself
      have hsame : SameTable b a :=
        ⟨hname.symm, by rw [← (hs a ha).generation, ← (hs b hb).generation, hname]⟩
      exact hsame.symm.owned (WritesOwn.owned he (hs a ha))
    · exact WritesOwn.owned_other he (h.apart ha hb (Ne.symm hname)) (Ne.symm hname) (hs b hb)
  · rw [happ]
    exact hs b hb

theorem TasksOwn.step {s s' : TaskSys} {x : TaskAct} (hs : TasksOwn env ts s)
    (hx : Admitted ts s x) (hstep : s.step env x = some s') : TasksOwn env ts s' := by
  cases x with
  | start table x =>
    cases hstep
    obtain ⟨ht, hname, hlocal⟩ := hx
    refine ⟨hs.owned, forall_mem_append.mpr ⟨hs.tasks, forall_mem_singleton.mpr ⟨ht, ?_⟩⟩⟩
    exact TableStmt.safe_program (h.foreign ht) hname hlocal
  | read i =>
    simp only [TaskSys.step] at hstep
    split at hstep
    case h_1 table q k ht =>
      cases hstep
      refine ⟨hs.owned, fun t htask => ?_⟩
      rcases mem_or_eq_of_mem_set htask with htask | rfl
      · exact hs.tasks t htask
      · obtain ⟨hmem, -, hsafe⟩ := hs.tasks _ (mem_of_getElem? ht)
        exact ⟨hmem, hsafe _ ⟨s.store, hs.owned table hmem, rfl⟩⟩
    case h_2 => exact nomatch hstep
  | finish i =>
    simp only [TaskSys.step] at hstep
    split at hstep
    case h_1 table e ht =>
      cases hstep
      obtain ⟨hmem, hown⟩ := hs.tasks _ (mem_of_getElem? ht)
      exact ⟨TableEffect.Own.owned h hmem hown hs.owned,
        fun t htask => hs.tasks t (mem_of_mem_eraseIdx htask)⟩
    case h_2 =>
      cases hstep
      exact ⟨hs.owned, fun t htask => hs.tasks t (mem_of_mem_eraseIdx htask)⟩
    case h_3 => exact nomatch hstep

theorem TasksOwn.separate {s : TaskSys} (hs : TasksOwn env ts s) : Separate env ts s := by
  have hwrites : ∀ t ∈ s.tasks, ∀ e, t.program = .pure e → ∀ key ∈ e.keys env,
      ¬ Others ts t.table key := by
    rintro t ht e hp key hkey ⟨b, hb, hne, hk⟩
    obtain ⟨hmem, hsafe⟩ := hs.tasks t ht
    rw [hp] at hsafe
    exact (WritesOwn.spares hsafe (h.apart hmem hb hne.symm) hne.symm hkey).1 hk
  refine ⟨fun t ht q k hp key hkey => ?_, hwrites, fun t ht e hp key hkey => ?_⟩
  · have hsafe := (hs.tasks t ht).2
    rw [hp] at hsafe
    exact hsafe.1 key hkey
  · rcases e.apply_cases env s.store with happ | happ
    · rw [happ]
      refine get_write_of_notMem (fun hm => ?_) fun hm => ?_
      · exact hwrites t ht e hp key (mem_append_left _ hm) hkey
      · exact hwrites t ht e hp key (mem_append_right _ hm) hkey
    · rw [happ]

omit h

/-- Once `TRUNCATE` has loaded the definition, it scans what lies under the table's prefix. -/
theorem truncate_scans (env : Env) {s₀ : Store} (ha : Owned a s₀) {d₀ : TableDef}
    (hd : s₀.get (catalogKey a.name) = some (.table d₀)) (hmem : a ∈ ts) :
    ∃ s t q k, Reach (TaskSys.step env) (Admitted ts) ⟨s₀, []⟩ s ∧ t ∈ s.tasks ∧ t.table = a ∧
      t.program = .ask q k ∧ q = .scanBatch a.dataPrefix none batchSize := by
  have hload : decodeDef a.name (answer s₀ (.multiGet [catalogKey a.name, generationKey a.name])) =
      .ok { d₀ with storageGeneration := a.storageGeneration } := by
    change decodeDef a.name [s₀.get (catalogKey a.name), s₀.get (generationKey a.name)] = _
    rw [hd, decodeDef_table, ha.generation]
  have hprefix : dataPrefix { d₀ with storageGeneration := a.storageGeneration } =
      a.dataPrefix := by
    have hsame : SameTable a { d₀ with storageGeneration := a.storageGeneration } :=
      ⟨ha.named d₀ hd, rfl⟩
    rw [dataPrefix, hsame.storageName, dataPrefix]
  have hstart : Reach (TaskSys.step env) (Admitted ts) ⟨s₀, []⟩
      ⟨s₀, [⟨a, (TableStmt.truncate ⟨a.name, 1⟩).program env⟩]⟩ :=
    Reach.refl.tail (a := .start a (.truncate ⟨a.name, 1⟩)) ⟨hmem, rfl, trivial⟩ rfl
  obtain ⟨k, hk⟩ : ∃ k, (TableStmt.truncate ⟨a.name, 1⟩).program env =
      .ask (.multiGet [catalogKey a.name, generationKey a.name]) k ∧
      ∃ k', k (answer s₀ (.multiGet [catalogKey a.name, generationKey a.name])) =
        .ask (.scanBatch a.dataPrefix none batchSize) k' := by
    refine ⟨_, rfl, ?_⟩
    change ∃ k', ((Prog.lift (decodeDef a.name (answer s₀
      (.multiGet [catalogKey a.name, generationKey a.name])))).bind _).bind _ = _
    rw [hload, ← hprefix]
    exact ⟨_, rfl⟩
  obtain ⟨hprogram, k', hscan⟩ := hk
  have hread : Reach (TaskSys.step env) (Admitted ts) ⟨s₀, []⟩
      ⟨s₀, [⟨a, k (answer s₀ (.multiGet [catalogKey a.name, generationKey a.name]))⟩]⟩ := by
    refine hstart.tail (a := .read 0) (show Admitted ts _ (.read 0) from trivial) ?_
    rw [hprogram]
    rfl
  exact ⟨_, _, _, k', hread, mem_singleton.mpr rfl, rfl, hscan, rfl⟩

/-- In every run of statements on the tables of a database, no statement reads or writes the rows
or entries of another table, exactly if no physical name, ended by the separator, is the beginning
of another one so ended. -/
theorem tables_separate (env : Env) (ts : List TableDef) (s₀ : Store)
    (howned : ∀ a ∈ ts, Owned a s₀)
    (hdef : ∀ a ∈ ts, ∃ d, s₀.get (catalogKey a.name) = some (.table d)) :
    (∀ s, Reach (TaskSys.step env) (Admitted ts) ⟨s₀, []⟩ s → Separate env ts s) ↔
      NamesApart ts := by
  constructor
  · intro h a ha b hb hne hclash
    obtain ⟨d₀, hd⟩ := hdef a ha
    obtain ⟨s, t, q, k, hreach, ht, rfl, hp, rfl⟩ :=
      truncate_scans env (howned a ha) hd ha
    refine (h s hreach).reads t ht _ k hp b.dataPrefix (fun _ => hclash.dataPrefix) ?_
    exact ⟨b, hb, hne.symm, .inl (prefix_refl _)⟩
  · intro h s hreach
    have h₀ : TasksOwn env ts ⟨s₀, []⟩ := ⟨howned, fun _ ht => absurd ht not_mem_nil⟩
    have hinv : TasksOwn env ts s := hreach.invariant h₀ fun hs hx hstep => hs.step h hx hstep
    exact hinv.separate h

end Runs

/-! ## Two small databases -/

/-- What `Owned` asks of one stored pair. -/
def OwnedPair (a : TableDef) (e : Bytes × Cell) : Prop :=
  match e.2 with
  | .table d => e.1 = catalogKey a.name → d.name = a.name
  | .entry dk => IsIndexKey a e.1 → IsRowKey a dk
  | _ => True

instance (a : TableDef) (e : Bytes × Cell) : Decidable (OwnedPair a e) :=
  match e with
  | (k, .table d) => inferInstanceAs (Decidable (k = catalogKey a.name → d.name = a.name))
  | (k, .entry dk) => inferInstanceAs (Decidable (IsIndexKey a k → IsRowKey a dk))
  | (_, .row _) | (_, .counter _) => .isTrue trivial

theorem owned_of_entries {s : Store} (h : ∀ e ∈ s.entries, OwnedPair a e)
    (hg : generationOf (s.get (generationKey a.name)) = a.storageGeneration) : Owned a s where
  named _ hd := h _ (OMap.get_eq_some.mp hd) rfl
  generation := hg
  entries _ _ hk hget := h _ (OMap.get_eq_some.mp hget) hk

def smallTable (name : Text) : TableDef := ⟨name, [⟨['n'], .int, true, .ci⟩], [], [], 0⟩

/-- A table called `a` and one with another name, which has one row. -/
def smallStore (other : Text) : Store :=
  write .empty
    [(catalogKey ['a'], (smallTable ['a']).encode), (catalogKey other, (smallTable other).encode),
      ((smallTable other).dataKey (encodeRowid 1), .row [.int 7])] []

theorem tables_separate_small : NamesApart [smallTable ['a'], smallTable ['b']] ∧
    ∀ s, Reach (TaskSys.step Env.plain) (Admitted [smallTable ['a'], smallTable ['b']])
      ⟨smallStore ['b'], []⟩ s → Separate Env.plain [smallTable ['a'], smallTable ['b']] s := by
  have hnames : NamesApart [smallTable ['a'], smallTable ['b']] := by decide +kernel
  refine ⟨hnames, (tables_separate Env.plain [smallTable ['a'], smallTable ['b']]
    (smallStore ['b']) ?_ ?_).mpr hnames⟩
  · have h : ∀ a ∈ [smallTable ['a'], smallTable ['b']],
        (∀ e ∈ (smallStore ['b']).entries, OwnedPair a e) ∧
        generationOf ((smallStore ['b']).get (generationKey a.name)) = a.storageGeneration := by
      decide +kernel
    exact fun a ha => owned_of_entries (h a ha).1 (h a ha).2
  · have h : ∀ a ∈ [smallTable ['a'], smallTable ['b']],
        (smallStore ['b']).get (catalogKey a.name) = some (.table a) := by
      decide +kernel
    exact fun a ha => ⟨a, h a ha⟩

/-- `TRUNCATE` of `a` removes the row of the table `a::b`. -/
theorem truncate_empties_other :
    (smallStore ['a', ':', ':', 'b']).get
        ((smallTable ['a', ':', ':', 'b']).dataKey (encodeRowid 1)) = some (.row [.int 7]) ∧
      (run (TaskSys.step Env.plain) ⟨smallStore ['a', ':', ':', 'b'], []⟩
        [.start (smallTable ['a']) (.truncate ⟨['a'], 1⟩), .read 0, .read 0, .read 0, .read 0,
          .read 0, .finish 0]).map (fun s => s.store.get
            ((smallTable ['a', ':', ':', 'b']).dataKey (encodeRowid 1))) = some none := by
  decide +kernel

end ElyraSql.Engine
