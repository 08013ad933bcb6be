import ElyraSql.Engine.Upsert

/-!
# What ON DUPLICATE KEY UPDATE does to a table

The rows that `apply_dup` makes are written under the key of the row they were made of, and nothing
is checked of them: not the primary key, nor a unique index, nor NOT NULL, nor a CHECK, and
generated columns are not computed again. A table stays right under assignments that touch none of
this.
-/

namespace ElyraSql.Engine

open ReadProgram OrderedMap List Env Cell

/-! ## The statement -/

namespace Env

variable (env : Env)

/-- The keys that the built rows land on. -/
def remap (d : TableDef) (built : List (Bytes × Row)) : Read (List (Bytes × Row)) :=
  if hasUnique d then do
    let c ← env.candidates d built
    Prog.lift (remapRows c.1 c.2)
  else pure built

end Env

/-- Rows can collide: the table has a primary key or a unique index. -/
def collides (d : TableDef) : Bool := d.hasPk || hasUnique d

variable {e : Bytes × Row} {landed : List (Bytes × Row)}

section

variable {env : Env} {x : UpsertStmt} {d : TableDef} {s : Store}
  {merge : Row → Row → Except Error Row}

theorem eval_multiGet (ks : List Bytes) :
    (Read.multiGet ks).eval (answer s) = .ok (ks.map s.get) := rfl

theorem insert_upsert (hdup : x.dupSets ≠ []) (hignore : x.ignore = false)
    (hload : (load x.table).eval (answer s) = .ok d) {eff : Effect}
    (h : (env.insert (env.upsertStmt x)).eval (answer s) = .ok eff) :
    ∃ rows auto n built landed rowid out,
      ((env.upsertStmt x).rows d).eval (answer s) = .ok (rows, auto) ∧
      env.buildKeys d n rows = .ok built ∧
      (env.remap d built.1).eval (answer s) = .ok landed ∧
      upsertRows (env.upsertStmt x) d (collides d) ([], 0)
        (landed.map fun e => (e, if collides d then s.get e.1 else none)) = .ok out ∧
      eff = .commit ⟨d, out.1, rowid, auto, out.2⟩ := by
  have hmerge : (env.upsertStmt x).merge = some (env.mergeInto x) := by
    simp [upsertStmt, hdup]
  have hreplace : (env.upsertStmt x).replace = false := rfl
  have hign : (env.upsertStmt x).ignore = false := hignore
  obtain ⟨_, hd, h⟩ := Prog.eval_bind_ok.mp h
  cases hload.symm.trans hd
  obtain ⟨⟨rows, auto⟩, hrows, h⟩ := Prog.eval_bind_ok.mp h
  rw [Prog.ite_bind] at h
  obtain ⟨n, hn, h⟩ := Prog.eval_bind_ok.mp h
  obtain ⟨built, hbuilt, h⟩ := Prog.eval_bind_ok.mp h
  rw [Prog.eval_lift] at hbuilt
  simp only [hmerge, hign, Option.isSome_some, Bool.true_and] at h
  obtain ⟨landed, hlanded, hslow⟩ : ∃ landed, (env.remap d built.1).eval (answer s) = .ok landed ∧
      (env.insertSlow (env.upsertStmt x) d landed (if d.hasPk then none else some built.2)
        auto).eval (answer s) = .ok eff := by
    rw [remap]
    split at h
    case isTrue hu =>
      obtain ⟨c, hc, h⟩ := Prog.eval_bind_ok.mp h
      obtain ⟨landed, hlanded, h⟩ := Prog.eval_bind_ok.mp h
      rw [if_pos hu]
      exact ⟨landed, Prog.eval_bind_ok.mpr ⟨c, hc, hlanded⟩, h⟩
    case isFalse hu =>
      rw [if_neg hu]
      exact Prog.eval_bind_ok.mp h
  simp only [insertSlow, hmerge, Option.isSome_some, Bool.true_and] at hslow
  rw [Prog.ite_bind] at hslow
  obtain ⟨existing, hexisting, hslow⟩ := Prog.eval_bind_ok.mp hslow
  obtain ⟨out, hout, hslow⟩ := Prog.eval_bind_ok.mp hslow
  rw [Prog.eval_lift] at hout
  obtain ⟨_, -, hslow⟩ := Prog.eval_bind_ok.mp hslow
  cases hslow
  have hzip : landed.zip existing =
      landed.map fun e => (e, if collides d then s.get e.1 else none) := by
    rw [map_prod_left_eq_zip]
    congr 1
    cases hcol : collides d <;> rw [show (d.hasPk || hasUnique d) = _ from hcol] at hexisting <;>
      simp only [if_true, Bool.false_eq_true, if_false, eval_multiGet, Prog.eval_pure,
        Except.ok.injEq] at hexisting <;>
      simp [← hexisting]
  rw [hzip] at hout
  exact ⟨rows, auto, n, built, landed, _, out, hrows, hbuilt, hlanded, hout, rfl⟩

/-! ## Where the rows land -/

theorem buildKeys_spec {n : UInt64} {rows : List Row} {built : List (Bytes × Row) × UInt64}
    (h : env.buildKeys d n rows = .ok built) :
    ∀ e ∈ built.1, e.2 ∈ rows ∧ (d.hasPk = true → Keyed env d e) := by
  induction rows generalizing n built with
  | nil =>
    cases h
    exact nofun
  | cons row rows ih =>
    obtain ⟨key, n', rest, hrest, rfl, hkey⟩ := buildKeys_cons h
    exact forall_mem_cons.mpr ⟨⟨mem_cons_self, hkey⟩,
      fun e he => (ih hrest e he).imp_left (mem_cons_of_mem _)⟩

theorem eval_candidates (built : List (Bytes × Row)) :
    (env.candidates d built).eval (answer s) =
      .ok (probeOwners (built.flatMap fun e => env.uniqueProbeKeys d e.2)
          ((built.flatMap fun e => env.uniqueProbeKeys d e.2).map s.get),
        built.map fun e => ⟨e.1, e.2, env.uniqueProbeKeys d e.2,
          if d.hasPk then s.get e.1 else none⟩) := by
  unfold candidates
  rw [Prog.eval_bind, eval_multiGet]
  cases hpk : d.hasPk <;> simp only [if_true, Bool.false_eq_true, if_false, Except.bind] <;>
    rw [Prog.eval_bind] <;> simp only [eval_multiGet, Prog.eval_pure, Except.bind, map_map] <;>
    rw [← map_prod_left_eq_zip, map_map] <;> rfl

section

variable {rows : List Row} {n : UInt64} {built : List (Bytes × Row) × UInt64}
  {landed : List (Bytes × Row)}

variable (hbuilt : env.buildKeys d n rows = .ok built)
  (hlanded : (env.remap d built.1).eval (answer s) = .ok landed)
include hbuilt hlanded

/-- The rows that land are the rows of the statement, and all rows with a common probe, stored ones
among them, land on one key. -/
theorem landed_owner :
    (∀ e ∈ landed, e.2 ∈ rows) ∧ (hasUnique d = true → ∃ own : List (Bytes × Bytes),
      ∀ e ∈ landed, ∀ p ∈ env.uniqueProbeKeys d e.2, own.lookup p = some e.1 ∧
        ∀ w, s.get p = some (.entry w) → w = e.1) := by
  unfold remap at hlanded
  split at hlanded
  case isFalse hu =>
    cases hlanded
    exact ⟨fun e he => (buildKeys_spec hbuilt e he).1, fun h => absurd h hu⟩
  case isTrue =>
    obtain ⟨c, hc, hremap⟩ := Prog.eval_bind_ok.mp hlanded
    rw [eval_candidates] at hc
    cases hc
    rw [Prog.eval_lift] at hremap
    obtain ⟨own, hext, hall⟩ := remapRows_owner hremap
    rw [forall₂_map_left_iff] at hall
    -- A landed row is a built row, with an owner for each of its probes.
    have hrow : ∀ e ∈ landed, ∃ b ∈ built.1, e.2 = b.2 ∧
        ∀ p ∈ env.uniqueProbeKeys d b.2, own.lookup p = some e.1 := by
      clear hremap hlanded hbuilt hext
      generalize built.1 = bs at hall ⊢
      induction hall with
      | nil => exact nofun
      | cons hhead _ ih =>
        exact forall_mem_cons.mpr ⟨⟨_, mem_cons_self, hhead.1, hhead.2⟩,
          fun e he => (ih e he).imp fun b hb => ⟨mem_cons_of_mem _ hb.1, hb.2⟩⟩
    refine ⟨fun e he => ?_, fun _ => ⟨own, fun e he p hp => ?_⟩⟩
    · obtain ⟨b, hb, heq, -⟩ := hrow e he
      rw [heq]
      exact (buildKeys_spec hbuilt b hb).1
    · obtain ⟨b, hb, heq, hown⟩ := hrow e he
      rw [heq] at hp
      refine ⟨hown p hp, fun w hw => ?_⟩
      have hstored := hext p w (by
        rw [lookup_probeOwners, if_pos (mem_flatMap.mpr ⟨b, hb, hp⟩), hw]
        rfl)
      exact Option.some.inj (hstored.symm.trans (hown p hp))

/-- The first row that lands on a key where no row is stored has this key. -/
theorem landed_keyed (hc : Consistent env d s) (hpk : d.hasPk = true) {k : Bytes} {r : Row}
    {rest : List Row} (hland : landing landed k = r :: rest) (hnone : s.get k = none) :
    Keyed env d (k, r) := by
  obtain ⟨i, hi, hfirst⟩ := landing_head hland
  unfold remap at hlanded
  split at hlanded
  case isFalse hu =>
    cases hlanded
    exact (buildKeys_spec hbuilt _ (mem_of_getElem? hi)).2 hpk
  case isTrue =>
    obtain ⟨c, hc', hremap⟩ := Prog.eval_bind_ok.mp hlanded
    rw [eval_candidates] at hc'
    cases hc'
    rw [Prog.eval_lift] at hremap
    obtain ⟨c, hcand, hrow, hcases⟩ := remapRows_key hremap hi
    rw [List.getElem?_map] at hcand
    obtain ⟨b, hb, rfl⟩ := Option.map_eq_some_iff.mp hcand
    rcases hcases with hkey | ⟨p, hp, howner⟩ | ⟨j, hj, e', he', hsame⟩
    · have hbuiltRow : (k, r) = b := Prod.ext hkey hrow
      rw [hbuiltRow]
      exact (buildKeys_spec hbuilt b (mem_of_getElem? hb)).2 hpk
    · -- The owner of a stored probe is a stored row.
      rw [lookup_probeOwners] at howner
      split at howner
      case isFalse => exact nomatch howner
      case isTrue =>
        obtain ⟨cell, hcell, hentry⟩ := Option.bind_eq_some_iff.mp howner
        have hidx : IsIndexKey d p := by
          obtain ⟨idx, -, hmap⟩ := mem_filterMap.mp hp
          obtain ⟨enc, -, rfl⟩ := Option.map_eq_some_iff.mp hmap
          rw [append_assoc]
          exact isIndexKey_indexPrefix d _ _
        obtain ⟨dk, r, hdk, -, rfl⟩ := (hc.entry_iff hidx).mp hcell
        cases hentry
        exact nomatch hnone.symm.trans (mem_storedRows.mp hdk).2
    · exact absurd hsame (hfirst j hj e' he')

end

/-! ## The rows afterwards -/

/-- The row under a key after the statement. -/
def upserted (merge : Row → Row → Except Error Row) (s : Store) (landed : List (Bytes × Row))
    (k : Bytes) : Option Row :=
  match landFrom merge (s.get k) none (landing landed k) with
  | .ok (some m) => some m
  | _ => (s.get k).bind Cell.row?

/-- What is stored under a row key after the batch of the statement. -/
theorem get_upsert {w : Writes} (hc : Consistent env d s) (htable : w.table = d)
    (hnodup : ((newRows w.changes).map Prod.fst).Nodup) (hkeeps : ∀ c ∈ w.changes, c.KeepsKey)
    (hland : ∀ k, landFrom merge (s.get k) none (landing landed k) = .ok ((newRows
      w.changes).lookup k)) {k : Bytes} (hk : IsRowKey d k) (m : Row) :
    (env.applyEffect s (.commit w)).get k = some (.row m) ↔ upserted merge s landed k = some m := by
  subst htable
  have hb := rowBatch_writes env w
  have hafter : (env.applyEffect s (.commit w)).get k =
      (((newRows w.changes).lookup k).map row).or (s.get k) := by
    cases hlook : (newRows w.changes).lookup k with
    | some r =>
      have hin : (k, r) ∈ newRows w.changes := by
        obtain ⟨l₁, l₂, hl, -⟩ := lookup_eq_some_iff.mp hlook
        rw [hl]
        exact mem_append_right _ mem_cons_self
      rw [applyEffect, get_write, OMap.lastValue_eq_some (hb.rowPut _ hin)]
      · rfl
      · intro c hput
        obtain ⟨y, hy, hkey, rfl⟩ := hb.row_of_put hk hput
        rw [RowBatch.eq_of_key hnodup hy hin hkey.symm]
    | none =>
      have hnot := not_mem_of_lookup hlook
      rw [applyEffect, hb.get_row_of_not_new hk hnot, if_neg]
      · rfl
      · intro hold
        obtain ⟨o, ho, rfl⟩ := mem_map.mp hold
        obtain ⟨c, hcmem, hco⟩ := mem_oldRows.mp ho
        obtain ⟨y, hy, hykey⟩ := Option.map_eq_some_iff.mp (hkeeps c hcmem o hco)
        exact hnot (hykey ▸ mem_map_of_mem (mem_newRows.mpr ⟨c, hcmem, hy⟩))
  rw [hafter, upserted, hland k]
  cases (newRows w.changes).lookup k with
  | some r => simp
  | none =>
    cases hget : s.get k with
    | none => simp
    | some c =>
      obtain ⟨r, rfl⟩ := hc.rows k c hk hget
      simp [row?]

end

/-! ## The rules of the table -/

/-- A unique index with entries for all tuples without NULL. -/
structure UniqueKey (d : TableDef) (idx : IndexDef) : Prop where
  notVector : idx.vector = false
  notFulltext : idx.fulltext = false
  within : idx.Within d
  types : ∀ ty ∈ idx.types d, ty.isKeyType = true

/-- Rows are stored under their primary keys, the tuples of unique indexes are distinct, and every
row keeps the rules for rows. -/
structure TableOk (env : Env) (rules : RowRules) (d : TableDef) (s : Store) : Prop where
  keyed : d.hasPk = true → ∀ e ∈ storedRows d s, Keyed env d e
  distinct : ∀ idx ∈ d.indexes, idx.unique = true → Distinct env d idx s
  rows : ∀ e ∈ storedRows d s, RowOk env rules d e.2

/-- An assignment of ON DUPLICATE KEY UPDATE that no rule of the table depends on: it is to a column
outside the primary key, the unique indexes and the generated columns, which no CHECK and no
generated column reads, and it makes no NULL of rows without NULL where the column has to have a
value. -/
structure SparesRules (env : Env) (x : UpsertStmt) (d : TableDef)
    (set : Nat × (Row → Row → Except Error Value)) : Prop where
  pk : set.1 ∉ d.pkCols
  unique : ∀ idx ∈ d.indexes, idx.unique = true → set.1 ∉ idx.cols
  notNull : ∀ c, d.columns[set.1]? = some c → c.nullable = true ∨ ∀ insert merged v w,
    NotNull d insert → NotNull d merged → set.2 insert merged = .ok v →
    env.coerceWithMode x.strict (d.typeOf set.1) v = .ok w → w.isNull = false
  checks : ∀ c ∈ (x.rules d).checks, ∀ r w, c.expr (r.set set.1 w) = c.expr r
  generated : ∀ g ∈ (x.rules d).generated, g.1 ≠ set.1 ∧ ∀ r w, g.2 (r.set set.1 w) = g.2 r

/-- The rows agree on the columns of the primary key and of the unique indexes. -/
structure SameKeys (d : TableDef) (r r' : Row) : Prop where
  pk : ∀ i ∈ d.pkCols, r'[i]? = r[i]?
  unique : ∀ idx ∈ d.indexes, idx.unique = true → ∀ i ∈ idx.cols, r'[i]? = r[i]?

/-! ## Merging -/

section

variable {env : Env} {x : UpsertStmt} {d : TableDef} {s : Store} {old insert m : Row}

theorem SameKeys.trans {r r' r'' : Row} (h : SameKeys d r r') (h' : SameKeys d r' r'') :
    SameKeys d r r'' where
  pk i hi := (h'.pk i hi).trans (h.pk i hi)
  unique idx hidx hu i hi := (h'.unique idx hidx hu i hi).trans (h.unique idx hidx hu i hi)

theorem SameKeys.keyed {r r' : Row} {k : Bytes} (h : SameKeys d r r') (hk : Keyed env d (k, r)) :
    Keyed env d (k, r') := by
  have hcols : ∀ (cols : List Nat) (colls : List Collation), (∀ i ∈ cols, r'[i]? = r[i]?) →
      env.encodeColumnsColl r' cols colls = env.encodeColumnsColl r cols colls := by
    intro cols
    induction cols with
    | nil => exact fun _ _ => rfl
    | cons c cols ih =>
      intro colls hall
      obtain ⟨hc, hrest⟩ := forall_mem_cons.mp hall
      rw [encodeColumnsColl, encodeColumnsColl, hc, ih _ hrest]
  obtain ⟨enc, henc, hkey⟩ := hk
  exact ⟨enc, (hcols _ _ h.pk).trans henc, hkey⟩

theorem SameKeys.tuple {idx : IndexDef} {r r' : Row} (h : SameKeys d r r') (hidx : idx ∈ d.indexes)
    (hu : idx.unique = true) : idx.tuple r' = idx.tuple r := by
  refine map_congr_left fun i hi => ?_
  rw [getD_eq_getElem?_getD, getD_eq_getElem?_getD, h.unique idx hidx hu i hi]

section

variable {set : Nat × (Row → Row → Except Error Value)} {v w : Value}
  (h : SparesRules env x d set) (hins : NotNull d insert) (hold : RowOk env (x.rules d) d old)
  (hv : set.2 insert old = .ok v) (hw : env.coerceWithMode x.strict (d.typeOf set.1) v = .ok w)
include h hins hold hv hw

theorem SparesRules.notNull_set : NotNull d (old.set set.1 w) := by
  intro e he
  obtain ⟨i, hi⟩ := mem_iff_getElem?.mp he
  obtain ⟨hcol, hval⟩ := List.getElem?_zip_eq_some.mp hi
  by_cases hset : set.1 = i
  · subst hset
    rw [getElem?_set_self'] at hval
    obtain ⟨_, -, hval⟩ := Option.map_eq_some_iff.mp hval
    rw [← hval]
    exact (h.notNull e.1 hcol).imp_right fun hnull => hnull insert old v w hins hold.notNull hv hw
  · rw [getElem?_set_ne hset] at hval
    exact hold.notNull e (mem_iff_getElem?.mpr ⟨i, List.getElem?_zip_eq_some.mpr ⟨hcol, hval⟩⟩)

/-- Such an assignment keeps the rules for rows, the primary key and the tuples. -/
theorem SparesRules.set_ok :
    RowOk env (x.rules d) d (old.set set.1 w) ∧ SameKeys d old (old.set set.1 w) := by
  refine ⟨⟨h.notNull_set hins hold hv hw, fun c hc => ?_, fun g hg => ?_⟩, fun i hi => ?_,
    fun idx hidx hu i hi => ?_⟩
  · rw [h.checks c hc]
    exact hold.checks c hc
  · obtain ⟨hne, hread⟩ := h.generated g hg
    rw [hread, hold.generated g hg, getD_eq_getElem?_getD, getD_eq_getElem?_getD,
      getElem?_set_ne hne.symm]
  · exact getElem?_set_ne (ne_of_mem_of_not_mem hi h.pk).symm
  · exact getElem?_set_ne (ne_of_mem_of_not_mem hi (h.unique idx hidx hu)).symm

end

theorem applyDup_ok {sets : List (Nat × (Row → Row → Except Error Value))}
    (h : ∀ set ∈ sets, SparesRules env x d set) (hins : NotNull d insert)
    (hold : RowOk env (x.rules d) d old)
    (hm : env.applyDup x.strict d insert sets old = .ok m) :
    RowOk env (x.rules d) d m ∧ SameKeys d old m := by
  induction sets generalizing old with
  | nil =>
    cases hm
    exact ⟨hold, fun _ _ => rfl, fun _ _ _ _ _ => rfl⟩
  | cons set sets ih =>
    obtain ⟨hset, hsets⟩ := forall_mem_cons.mp h
    obtain ⟨v, hv, hm⟩ := except_bind_ok hm
    obtain ⟨w, hw, hm⟩ := except_bind_ok hm
    obtain ⟨hnew, hsame⟩ := hset.set_ok hins hold hv hw
    obtain ⟨hrow, hsame'⟩ := ih hsets hnew hm
    exact ⟨hrow, hsame.trans hsame'⟩

variable (h : ∀ set ∈ x.dupSets, SparesRules env x d set)
include h

theorem landFrom_written {stored : Option Cell} {rows : List Row} {r : Row}
    (hrows : ∀ row ∈ rows, NotNull d row) (hr : RowOk env (x.rules d) d r)
    (hm : landFrom (env.mergeInto x d) stored (some r) rows = .ok (some m)) :
    RowOk env (x.rules d) d m ∧ SameKeys d r m := by
  induction rows generalizing r with
  | nil =>
    cases hm
    exact ⟨hr, fun _ _ => rfl, fun _ _ _ _ _ => rfl⟩
  | cons row rows ih =>
    obtain ⟨hrow, hrest⟩ := forall_mem_cons.mp hrows
    obtain ⟨m', hm', hm⟩ := except_bind_ok hm
    obtain ⟨hok, hsame⟩ := applyDup_ok h hrow hr hm'
    obtain ⟨hok', hsame'⟩ := ih hrest hok hm
    exact ⟨hok', hsame.trans hsame'⟩

/-- Where a row comes from: it was stored under its key, or is the first that lands on it. -/
def Base (s : Store) (landed : List (Bytes × Row)) (k : Bytes) (r : Row) : Prop :=
  s.get k = some (.row r) ∨ s.get k = none ∧ ∃ rest, landing landed k = r :: rest

/-- A row afterwards keeps the rules, and has the primary key and the tuples of the row that it
comes from. -/
theorem upserted_base {k : Bytes} (hlanded : ∀ e ∈ landed, RowOk env (x.rules d) d e.2)
    (hstored : ∀ r, s.get k = some (.row r) → RowOk env (x.rules d) d r)
    (hm : upserted (env.mergeInto x d) s landed k = some m) :
    ∃ r, Base s landed k r ∧ RowOk env (x.rules d) d m ∧ SameKeys d r m := by
  have hland : ∀ row ∈ landing landed k, RowOk env (x.rules d) d row :=
    fun row hrow => hlanded _ (mem_landing.mp hrow)
  -- A row that is not touched comes from itself.
  have hkept : (s.get k).bind Cell.row? = some m →
      ∃ r, Base s landed k r ∧ RowOk env (x.rules d) d m ∧ SameKeys d r m := fun hrow => by
    obtain ⟨c, hc, hrow⟩ := Option.bind_eq_some_iff.mp hrow
    rw [row?_eq_some.mp hrow] at hc
    exact ⟨m, .inl hc, hstored m hc, fun _ _ => rfl, fun _ _ _ _ _ => rfl⟩
  unfold upserted at hm
  split at hm
  case h_2 => exact hkept hm
  case h_1 hrun =>
  cases hm
  cases hrows : landing landed k with
  | nil =>
    rw [hrows] at hrun
    cases hrun
  | cons row rest =>
    rw [hrows] at hrun hland
    obtain ⟨hrow, hrest⟩ := forall_mem_cons.mp hland
    cases hget : s.get k with
    | none =>
      rw [hget] at hrun
      obtain ⟨hok, hsame⟩ := landFrom_written h (fun r hr => (hrest r hr).notNull) hrow hrun
      exact ⟨row, .inr ⟨hget, rest, hrows⟩, hok, hsame⟩
    | some c =>
      rw [hget] at hrun
      obtain ⟨old, hold, hrun⟩ := except_bind_ok hrun
      obtain ⟨m', hm', hrun⟩ := except_bind_ok hrun
      have hcell : s.get k = some (.row old) := by
        cases c <;> cases hold
        exact hget
      obtain ⟨hok, hsame⟩ := applyDup_ok h hrow.notNull (hstored old hcell) hm'
      obtain ⟨hok', hsame'⟩ := landFrom_written h (fun r hr => (hrest r hr).notNull) hok hrun
      exact ⟨old, .inl hcell, hok', hsame.trans hsame'⟩

end

section

variable {env : Env} {x : UpsertStmt} {d : TableDef} {s : Store} {idx : IndexDef}

theorem UniqueKey.encodedOf (h : UniqueKey d idx) {r r' : Row} (hr : RowTyped d r)
    (hr' : RowTyped d r') (hsame : idx.Same env r r') :
    ∃ enc, env.encodedOf idx r = some enc ∧ env.encodedOf idx r' = some enc := by
  have hsome : ∀ {r : Row}, RowTyped d r → idx.Present r → (env.encodedOf idx r).isSome = true :=
    fun hr hp => (encodedOf_isSome_iff hr h.within hp).mpr h.types
  obtain ⟨hp, hp'⟩ := hsame.present
  obtain ⟨enc, henc⟩ := Option.isSome_iff_exists.mp (hsome hr hp)
  obtain ⟨enc', henc'⟩ := Option.isSome_iff_exists.mp (hsome hr' hp')
  obtain rfl := (encodedOf_eq_iff hr hr' h.within henc henc').mpr hsame
  exact ⟨enc, henc, henc'⟩

theorem UniqueKey.hasUnique (h : UniqueKey d idx) (hmem : idx ∈ d.indexes)
    (hu : idx.unique = true) : hasUnique d = true :=
  any_eq_true.mpr ⟨idx, hmem, by simp [hu, h.notVector]⟩

/-- The rows of a statement and the keys they land on: they have passed the first pass, those with a
common probe land on one key, and the first on a key where nothing is stored has this key. -/
structure Brings (env : Env) (rules : RowRules) (d : TableDef) (s : Store)
    (landed : List (Bytes × Row)) : Prop where
  checked : ∀ e ∈ landed, RowTyped d e.2 ∧ RowOk env rules d e.2
  owner : hasUnique d = true → ∃ own : List (Bytes × Bytes),
    ∀ e ∈ landed, ∀ p ∈ env.uniqueProbeKeys d e.2, own.lookup p = some e.1 ∧
      ∀ w, s.get p = some (.entry w) → w = e.1
  keyed : d.hasPk = true → ∀ k r rest, landing landed k = r :: rest → s.get k = none →
    Keyed env d (k, r)

namespace Brings

variable {rules : RowRules} {landed : List (Bytes × Row)}

variable (hb : Brings env rules d s landed) (hkey : UniqueKey d idx) (hmem : idx ∈ d.indexes)
  (hu : idx.unique = true)
include hb hkey hmem hu

/-- Two rows of the statement with one tuple land on one key. -/
theorem lands_together {e' : Bytes × Row} (he : e ∈ landed)
    (he' : e' ∈ landed) (hsame : idx.Same env e.2 e'.2) : e.1 = e'.1 := by
  obtain ⟨own, hown⟩ := hb.owner (hkey.hasUnique hmem hu)
  obtain ⟨enc, henc, henc'⟩ := hkey.encodedOf (hb.checked e he).1 (hb.checked e' he').1 hsame
  have hprobe := mem_uniqueProbeKeys hmem hu hkey.notVector henc e.1
  have hprobe' := mem_uniqueProbeKeys hmem hu hkey.notVector henc' e.1
  exact Option.some.inj ((hown e he _ hprobe).1.symm.trans (hown e' he' _ hprobe').1)

variable (hc : Consistent env d s) (htyped : ∀ e ∈ storedRows d s, RowTyped d e.2)
include hc htyped

/-- A row of the statement lands on the stored row that has one of its tuples. -/
theorem lands_on {z : Bytes × Row} (he : e ∈ landed)
    (hz : z ∈ storedRows d s) (hsame : idx.Same env e.2 z.2 ∨ idx.Same env z.2 e.2) :
    z.1 = e.1 := by
  obtain ⟨own, hown⟩ := hb.owner (hkey.hasUnique hmem hu)
  obtain ⟨enc, hencE, hencZ⟩ : ∃ enc, env.encodedOf idx e.2 = some enc ∧
      env.encodedOf idx z.2 = some enc := by
    rcases hsame with h | h
    · exact hkey.encodedOf (hb.checked e he).1 (htyped z hz) h
    · obtain ⟨enc, hz, he⟩ := hkey.encodedOf (htyped z hz) (hb.checked e he).1 h
      exact ⟨enc, he, hz⟩
  have hprobe := mem_uniqueProbeKeys hmem hu hkey.notVector hencE z.1
  refine (hown e he _ hprobe).2 z.1 (hc.get_entry hz hmem ?_)
  exact (mem_indexEntryKeys hkey.notVector hkey.notFulltext).mpr (.inl ⟨enc, hencZ, rfl⟩)

/-- Rows with one tuple come from under one key. -/
theorem distinct (hdistinct : Distinct env d idx s) {k k' : Bytes} {r r' : Row}
    (hk : IsRowKey d k) (hk' : IsRowKey d k') (he : Base s landed k r) (he' : Base s landed k' r')
    (hsame : idx.Same env r r') : k = k' := by
  have hin : ∀ {k : Bytes} {r : Row}, (∃ rest, landing landed k = r :: rest) → (k, r) ∈ landed :=
    fun ⟨_, hrest⟩ => mem_landing.mp (by rw [hrest]; exact mem_cons_self)
  rcases he with hget | ⟨-, hrest⟩ <;> rcases he' with hget' | ⟨-, hrest'⟩
  · exact hdistinct (k, r) (mem_storedRows.mpr ⟨hk, hget⟩) (k', r')
      (mem_storedRows.mpr ⟨hk', hget'⟩) hsame
  · exact hb.lands_on hkey hmem hu hc htyped (hin hrest')
      (mem_storedRows.mpr ⟨hk, hget⟩) (.inr hsame)
  · exact (hb.lands_on hkey hmem hu hc htyped (hin hrest) (mem_storedRows.mpr ⟨hk', hget'⟩)
      (.inl hsame)).symm
  · exact hb.lands_together hkey hmem hu (hin hrest) (hin hrest') hsame

end Brings

theorem upsert_brings (hdup : x.dupSets ≠ []) (hignore : x.ignore = false)
    (hload : (load x.table).eval (answer s) = .ok d) (hc : Consistent env d s)
    (hbuilt : ∀ rows auto, ((env.upsertStmt x).rows d).eval (answer s) = .ok (rows, auto) →
      ∀ r ∈ rows, RowTyped d r ∧ GeneratedOk env d (x.rules d).generated r) {eff : Effect}
    (hrun : (env.insert (env.upsertStmt x)).eval (answer s) = .ok eff) :
    ∃ landed rowid auto out, Brings env (x.rules d) d s landed ∧
      upsertRows (env.upsertStmt x) d (collides d) ([], 0)
        (landed.map fun e => (e, if collides d then s.get e.1 else none)) = .ok out ∧
      eff = .commit ⟨d, out.1, rowid, auto, out.2⟩ := by
  obtain ⟨rows, auto, n, built, landed, rowid, out, hrows, hkeys, hremap, hout, rfl⟩ :=
    insert_upsert hdup hignore hload hrun
  obtain ⟨hmemRows, howners⟩ := landed_owner hkeys hremap
  refine ⟨landed, rowid, auto, out, ⟨fun e he => ?_, howners, fun hpk k r rest hland hnone => ?_⟩,
    hout, rfl⟩
  · obtain ⟨htypedE, hgen⟩ := hbuilt rows auto hrows e.2 (hmemRows e he)
    obtain ⟨given, -, hgiven⟩ := Prog.eval_bind_ok.mp hrows
    obtain ⟨built', hbuilt', hpair⟩ := Prog.eval_bind_ok.mp hgiven
    rw [Prog.eval_lift] at hbuilt'
    cases hpair
    obtain ⟨hnull, hchecks⟩ := buildRows_ok hignore hbuilt' (hmemRows e he)
    exact ⟨htypedE, hnull, hchecks, hgen⟩
  · exact landed_keyed hkeys hremap hc hpk hland hnone

/-- Where no rows collide, they are all written as they are. -/
theorem TableOk.of_not_collides {rules : RowRules} {w : Writes} (hok : TableOk env rules d s)
    (hb : Brings env rules d s landed)
    (hunique : ∀ idx ∈ d.indexes, idx.unique = true → UniqueKey d idx) (hcol : collides d = false)
    (htable : w.table = d) (hnew : newRows w.changes = landed) :
    TableOk env rules d (env.applyEffect s (.commit w)) := by
  obtain ⟨hpk, hu⟩ := Bool.or_eq_false_iff.mp hcol
  refine ⟨fun h => absurd h (by rw [hpk]; decide), fun idx hidx huniq => ?_, fun e he => ?_⟩
  · exact absurd ((hunique idx hidx huniq).hasUnique hidx huniq) (by rw [hu]; decide)
  · subst htable
    obtain ⟨hk, hget⟩ := mem_storedRows.mp he
    rw [applyEffect, get_write] at hget
    rcases Option.or_eq_some_iff.mp hget with hlast | ⟨-, hold⟩
    · obtain ⟨y, hy, -, hrow⟩ :=
        (rowBatch_writes env w).row_of_put hk (OMap.mem_of_lastValue hlast)
      rw [show e.2 = y.2 by simpa using hrow]
      exact (hb.checked y (hnew ▸ hy)).2
    · split at hold
      case isTrue => cases hold
      case isFalse => exact hok.rows e (mem_storedRows.mpr ⟨hk, hold⟩)

end

/-- `t (id INT PRIMARY KEY, v INT NOT NULL, n INT)` with a unique index on `v`. -/
def upsertTable : TableDef :=
  { counterTable with
    columns := [⟨['i', 'd'], .int, false, .ci⟩, ⟨['v'], .int, false, .ci⟩, ⟨['n'], .int, true, .ci⟩]
    indexes := [⟨['u'], [1], true, false, false, [.ci], true⟩] }

/-- The table holds the rows `(1, 10, 0)` and `(2, 20, 0)`. -/
def upsertStore : Store :=
  write OMap.empty ((catalogKey ['t'], upsertTable.encode) ::
    plain.rowPuts upsertTable (plainKey 1, [.int 1, .int 10, .int 0]) ++
    plain.rowPuts upsertTable (plainKey 2, [.int 2, .int 20, .int 0])) []

/-- `INSERT INTO t VALUES rows ON DUPLICATE KEY UPDATE` with one assignment. -/
def upsertInto (rows : List Row) (set : Nat × (Row → Row → Except Error Value)) : UpsertStmt where
  table := ['t']
  ignore := false
  strict := true
  rules := fun _ => ⟨[], []⟩
  before := fun _ row => .ok row
  fix := fun _ row => row
  values := fun _ => pure (rows, none)
  dupSets := [set]
  widths := fun _ _ => pure ()

/-- What the statement writes if it makes these rows of the first row of the table and the second.
-/
def upsertEffect (first second : Option Row) : Effect :=
  let change := fun (n : Int) (old : Row) (new : Option Row) =>
    new.map fun row => (⟨some (plainKey n, old), some (plainKey n, row)⟩ : Change)
  let changes := (change 1 [.int 1, .int 10, .int 0] first).toList ++
    (change 2 [.int 2, .int 20, .int 0] second).toList
  .commit ⟨upsertTable, changes, none, none, 2 * changes.length⟩

theorem upsertStore_ok : TableOk .plain ⟨[], []⟩ upsertTable upsertStore := by
  have hnull : ∀ e ∈ storedRows upsertTable upsertStore, NotNull upsertTable e.2 := by
    decide +kernel
  exact ⟨by decide +kernel, by decide +kernel, fun e he => ⟨hnull e he, nofun, nofun⟩⟩

end ElyraSql.Engine
