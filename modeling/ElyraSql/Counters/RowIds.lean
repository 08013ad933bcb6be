import ElyraSql.Counters.Sessions
import ElyraSql.Engine.DropTable
import ElyraSql.Engine.IndexConsistency

/-!
# INSERT into a table without a primary key

Such a table numbers its rows: `insert` reads the counter under `rowid_key`, gives the rows the
numbers after it and writes the new counter with them. The batch of a statement on its own is
written as it is; inside a transaction COMMIT validates the row keys against the snapshot, and never
the counter.
-/

namespace ElyraSql.Counters

open OrderedMap Transition ElyraSql.Engine List OMap Prod Overlay UInt64 TxnState Nat Sys KeyOrder

/-! ## Numbers -/

variable (d : TableDef)

/-- The counter of row numbers in a table of keys and values. -/
def rowCounter (t : Table) : Nat := (decodeCounter (t.get (rowidKey d.name))).toNat

/-- The key of the row with a number. -/
def numberKey (id : Nat) : Bytes := d.dataKey (encodeRowid (UInt64.ofNat id))

/-- The rows with the keys of the numbers after `next`, and the last number. -/
def numberRows : UInt64 → List Row → List (Bytes × Row) × UInt64
  | next, [] => ([], next)
  | next, row :: rows =>
    let rest := numberRows (next + 1) rows
    ((d.dataKey (encodeRowid (next + 1)), row) :: rest.1, rest.2)

variable {d} {n : UInt64}

theorem numberKey_injective {m n : Nat} (hm : m < 2 ^ 64) (hn : n < 2 ^ 64)
    (h : numberKey d m = numberKey d n) : m = n := by
  have h' : bigEndian 256 8 m = bigEndian 256 8 n := by
    have := append_cancel_left h
    rwa [encodeRowid, encodeRowid, toNat_ofNat_of_lt' hm, toNat_ofNat_of_lt' hn] at this
  rcases lt_trichotomy m n with hlt | heq | hlt
  · exact absurd h' (ne_of_lt (bigEndian_below hlt (by simpa using hn)).lt)
  · exact heq
  · exact absurd h'.symm (ne_of_lt (bigEndian_below hlt (by simpa using hm)).lt)

theorem toNat_add_one (h : n.toNat + 1 < 2 ^ 64) : (n + 1).toNat = n.toNat + 1 := by
  exact mod_eq_of_lt h

variable {rows : List Row} (hfit : n.toNat + rows.length < 2 ^ 64)
include hfit

/-- Without running over, the rows have the numbers after `n`, in order. -/
theorem numberRows_spec : (numberRows d n rows).2.toNat = n.toNat + rows.length ∧
    (numberRows d n rows).1.map fst =
      (range' (n.toNat + 1) rows.length).map (numberKey d) := by
  induction rows generalizing n with
  | nil => exact ⟨rfl, rfl⟩
  | cons row rows ih =>
    rw [length_cons] at hfit
    have hnext : (n + 1).toNat = n.toNat + 1 := toNat_add_one (by omega)
    obtain ⟨hlast, hkeys⟩ := ih (n := n + 1) (by omega)
    rw [hnext] at hlast hkeys
    constructor
    · exact hlast.trans (add_right_comm _ _ _)
    · rw [numberRows, map_cons, hkeys, length_cons, range'_succ, map_cons,
        numberKey, ← hnext, UInt64.ofNat_toNat]

variable {e : Bytes × Row}

theorem numberRows_id (he : e ∈ (numberRows d n rows).1) :
    ∃ id, n.toNat < id ∧ id ≤ n.toNat + rows.length ∧ e.1 = numberKey d id := by
  have hmem : e.1 ∈ (numberRows d n rows).1.map fst := mem_map_of_mem he
  rw [(numberRows_spec hfit).2] at hmem
  obtain ⟨id, hid, hkey⟩ := mem_map.mp hmem
  obtain ⟨hlow, hhigh⟩ := mem_range'_1.mp hid
  exact ⟨id, hlow, by omega, hkey.symm⟩

theorem numberRows_nodup : ((numberRows d n rows).1.map fst).Nodup := by
  rw [(numberRows_spec hfit).2]
  refine List.Nodup.map_on (fun a ha b hb hab => ?_) nodup_range'
  have ha := (mem_range'_1.mp ha).2
  have hb := (mem_range'_1.mp hb).2
  exact numberKey_injective (by omega) (by omega) hab

omit hfit

/-! ## The statement -/

structure RowInsert where
  /-- The rows it builds, with what it has read. -/
  rows : List (Option Bytes) → List Row
  /-- A row that has got its number may be left out by `IGNORE`. -/
  keep : Bytes × Row → Bool
  /-- The table has an `AUTO_INCREMENT` column. -/
  auto : Bool
  /-- The value it stores for the `AUTO_INCREMENT` column, and the write counter. -/
  autoinc : List (Option Bytes) → UInt64
  wcount : List (Option Bytes) → UInt64

/-- How rows are stored, and the keys of their index entries. -/
structure RowFormat where
  env : Env
  table : TableDef
  /-- `bincode::serialize` of a row. -/
  rowBytes : Row → Bytes

namespace RowFormat

variable (F : RowFormat)

def rowPuts (e : Bytes × Row) : List (Bytes × Bytes) :=
  (e.1, F.rowBytes e.2) :: (F.env.entryKeysForRow F.table e.2 e.1).map fun k => (k, e.1)

/-- The rows with their numbers, before `IGNORE` leaves any out, and the new counter. -/
def built (x : RowInsert) (got : List (Option Bytes)) : List (Bytes × Row) × UInt64 :=
  numberRows F.table (decodeCounter (got.headD none)) (x.rows got)

/-- The rows an INSERT writes. -/
def kept (x : RowInsert) (got : List (Option Bytes)) : List (Bytes × Row) :=
  (F.built x got).1.filter x.keep

def counterPuts (x : RowInsert) (got : List (Option Bytes)) : List (Bytes × Bytes) :=
  (rowidKey F.table.name, leBytes (F.built x got).2) ::
    ((if x.auto then [(autoincKey F.table.name, leBytes (x.autoinc got))] else []) ++
      [(wcountKey F.table.name, leBytes (x.wcount got))])

/-- `insert` into a table without a primary key. -/
def insertProgram : Program RowInsert where
  reads x := rowidKey F.table.name ::
    ((if x.auto then [autoincKey F.table.name] else []) ++ [wcountKey F.table.name])
  batch x _ got :=
    { new := none
      put := (F.kept x got).flatMap F.rowPuts ++ F.counterPuts x got
      delete := [] }

def rowsOf (done : List (Done RowInsert)) : List (Bytes × Row) :=
  done.flatMap fun e => F.kept e.stmt e.got

/-- The rows of every INSERT that has committed. -/
def inserted (σ : Sys RowInsert) : List (Bytes × Row) :=
  σ.commits.flatMap fun c => F.rowsOf c.done

end RowFormat

/-! ## What the puts do to the numbers -/

variable {F : RowFormat} {x : RowInsert} {got : List (Option Bytes)} {n n' : Nat}

/-- Puts that write no row up to number `n`, and the counter only with a row under every number up
to it. -/
structure Fills (F : RowFormat) (puts : List (Bytes × Bytes)) (n n' : Nat) : Prop where
  low : ∀ id ≤ n, lastValue puts (numberKey F.table id) = none
  counter : lastValue puts (rowidKey F.table.name) = none ∨
    (lastValue puts (rowidKey F.table.name) = some (leBytes (UInt64.ofNat n')) ∧
      ∀ id, n < id → id ≤ n' → (lastValue puts (numberKey F.table id)).isSome = true)

/-- The statement takes numbers without running over, and leaves out no row that has got one. -/
@[mk_iff] structure Numbered (F : RowFormat) (x : RowInsert)
    (got : List (Option Bytes)) : Prop where
  fits : (decodeCounter (got.headD none)).toNat + (x.rows got).length < 2 ^ 64
  keepsAll : ∀ e ∈ (F.built x got).1, x.keep e = true

section Puts

/-- A put of a row's part is the row under its key, or an index entry. -/
theorem mem_rowPuts {k v : Bytes} (h : (k, v) ∈ (F.kept x got).flatMap F.rowPuts) :
    (∃ e ∈ F.kept x got, k = e.1 ∧ v = F.rowBytes e.2) ∨ k.head? = some 105 := by
  obtain ⟨e, he, hk⟩ := mem_flatMap.mp h
  rcases mem_cons.mp hk with heq | hk
  · exact .inl ⟨e, he, (mk.inj heq).1, (mk.inj heq).2⟩
  · obtain ⟨j, hj, heq⟩ := mem_map.mp hk
    refine .inr ?_
    rw [← (mk.inj heq).1]
    exact head_of_indexKey (isIndexKey_of_mem hj)

theorem mem_counterPuts {k v : Bytes} (h : (k, v) ∈ F.counterPuts x got) :
    k.head? = some 109 ∧ (k = rowidKey F.table.name → v = leBytes (F.built x got).2) := by
  have hauto : autoincKey F.table.name ≠ rowidKey F.table.name := by
    simp [autoincKey, rowidKey, ascii]
  have hwcount : wcountKey F.table.name ≠ rowidKey F.table.name := by
    simp [wcountKey, rowidKey, ascii]
  rcases mem_cons.mp h with heq | h
  · cases heq
    exact ⟨rfl, fun _ => rfl⟩
  · rcases mem_append.mp h with h | h
    · split at h
      · cases mem_singleton.mp h
        exact ⟨rfl, fun hk => absurd hk hauto⟩
      · cases h
    · cases mem_singleton.mp h
      exact ⟨rfl, fun hk => absurd hk hwcount⟩

variable (h : Numbered F x got)
include h

theorem kept_id (he : e ∈ F.kept x got) :
    ∃ id, (decodeCounter (got.headD none)).toNat < id ∧
      id ≤ (decodeCounter (got.headD none)).toNat + (x.rows got).length ∧
      e.1 = numberKey F.table id :=
  numberRows_id h.fits (mem_filter.mp he).1

theorem kept_nodup : ((F.kept x got).map fst).Nodup :=
  (numberRows_nodup h.fits).sublist (filter_sublist.map _)

theorem exists_kept {id : Nat} (hlow : (decodeCounter (got.headD none)).toNat < id)
    (hhigh : id ≤ (decodeCounter (got.headD none)).toNat + (x.rows got).length) :
    ∃ e ∈ F.kept x got, e.1 = numberKey F.table id := by
  have hmem : numberKey F.table id ∈ (F.built x got).1.map fst := by
    rw [RowFormat.built, (numberRows_spec h.fits).2]
    exact mem_map_of_mem (mem_range'_1.mpr ⟨hlow, by omega⟩)
  obtain ⟨e, he, hkey⟩ := mem_map.mp hmem
  exact ⟨e, mem_filter.mpr ⟨he, h.keepsAll e he⟩, hkey⟩

theorem built_last :
    (F.built x got).2 = ofNat ((decodeCounter (got.headD none)).toNat + (x.rows got).length) := by
  rw [← (numberRows_spec (d := F.table) h.fits).1, UInt64.ofNat_toNat]
  rfl

omit h

theorem insert_puts (b : Bool) : (F.insertProgram.batch x b got).puts =
    (F.kept x got).flatMap F.rowPuts ++ F.counterPuts x got := rfl

theorem counter_put (b : Bool) : (lastValue (F.insertProgram.batch x b got).puts
    (rowidKey F.table.name)).isSome = true := by
  rw [insert_puts]
  exact lastValue_isSome.mpr
    (mem_map.mpr ⟨_, mem_append_right _ mem_cons_self, rfl⟩)

/-- However many of its puts are made, a statement fills numbers. -/
theorem Numbered.fills (h : Numbered F x got) (b : Bool) (m : Nat) :
    Fills F ((F.insertProgram.batch x b got).puts.take m) (decodeCounter (got.headD none)).toNat
      ((decodeCounter (got.headD none)).toNat + (x.rows got).length) := by
  rw [insert_puts]
  constructor
  · intro id hid
    refine lastValue_eq_none fun hmem => ?_
    obtain ⟨⟨k, v⟩, he, rfl⟩ := mem_map.mp hmem
    rcases mem_append.mp (mem_of_mem_take he) with he | he
    · rcases mem_rowPuts he with ⟨e, he, hkey, -⟩ | hhead
      · obtain ⟨id', hlow, hhigh, hkey'⟩ := kept_id h he
        have := h.fits
        have hsame := numberKey_injective (by omega) (by omega) (hkey.trans hkey')
        omega
      · exact nomatch hhead
    · exact nomatch (mem_counterPuts he).1
  · by_cases hm : m ≤ ((F.kept x got).flatMap F.rowPuts).length
    · -- The counter comes after the rows.
      refine .inl (lastValue_eq_none fun hmem => ?_)
      rw [take_append_of_le_length hm] at hmem
      obtain ⟨⟨k, v⟩, he, hk⟩ := mem_map.mp hmem
      rcases mem_rowPuts (mem_of_mem_take he) with ⟨e, he, hkey, -⟩ | hhead
      · obtain ⟨id, -, -, hkey'⟩ := kept_id h he
        exact nomatch (congrArg head? (hk.symm.trans (hkey.trans hkey')))
      · rw [show k = rowidKey F.table.name from hk] at hhead
        exact nomatch hhead
    · obtain ⟨j, rfl⟩ : ∃ j, m = ((F.kept x got).flatMap F.rowPuts).length + (j + 1) :=
        ⟨m - ((F.kept x got).flatMap F.rowPuts).length - 1, by omega⟩
      rw [take_length_add_append]
      refine .inr ⟨?_, fun id hlow hhigh => ?_⟩
      · rw [← built_last h]
        refine lastValue_eq_some (mem_append_right _ mem_cons_self) fun w hw => ?_
        rcases mem_append.mp hw with hw | hw
        · rcases mem_rowPuts hw with ⟨e, he, hkey, -⟩ | hhead
          · obtain ⟨id, -, -, hkey'⟩ := kept_id h he
            exact nomatch (congrArg head? (hkey.trans hkey'))
          · exact nomatch hhead
        · exact (mem_counterPuts (mem_of_mem_take hw)).2 rfl
      · obtain ⟨e, he, hkey⟩ := exists_kept h hlow hhigh
        refine lastValue_isSome.mpr (mem_map.mpr
          ⟨(e.1, F.rowBytes e.2), mem_append_left _ ?_, hkey⟩)
        exact mem_flatMap.mpr ⟨e, he, mem_cons_self⟩

/-- With all its puts made, every row of a statement is there. -/
theorem Numbered.row_put (h : Numbered F x got) (b : Bool) (he : e ∈ F.kept x got) :
    lastValue (F.insertProgram.batch x b got).puts e.1 = some (F.rowBytes e.2) := by
  rw [insert_puts]
  refine lastValue_eq_some (mem_append_left _
    (mem_flatMap.mpr ⟨e, he, mem_cons_self⟩)) fun w hw => ?_
  obtain ⟨id, -, -, hid⟩ := kept_id h he
  rcases mem_append.mp hw with hw | hw
  · rcases mem_rowPuts hw with ⟨e', he', hkey, hw⟩ | hhead
    · rw [hw, inj_on_of_nodup_map (kept_nodup h) he he' hkey]
    · rw [hid] at hhead
      exact nomatch hhead
  · have hhead := (mem_counterPuts hw).1
    rw [hid] at hhead
    exact nomatch hhead

end Puts

/-! ## Commits that start from the present counter -/

/-- The numbers up to the counter are left alone, and those up to the new counter have rows. -/
structure Advance (F : RowFormat) (t t' : Table) : Prop where
  le : rowCounter F.table t ≤ rowCounter F.table t'
  low : ∀ id ≤ rowCounter F.table t, t'.get (numberKey F.table id) = t.get (numberKey F.table id)
  filled : ∀ id, rowCounter F.table t < id → id ≤ rowCounter F.table t' →
    (t'.get (numberKey F.table id)).isSome = true

/-- A transaction, seen from the committed table: the numbers it has taken, and those that others
have taken since its snapshot. -/
structure TxnInv (F : RowFormat) (t : Table) (tx : TxnState) (done : List (Done RowInsert)) :
    Prop where
  base_le : rowCounter F.table tx.snapshot ≤ rowCounter F.table t
  bound : ∀ id, rowCounter F.table tx.snapshot < id → id ≤ rowCounter F.table t →
    (t.get (numberKey F.table id)).isSome = true
  le_view : rowCounter F.table tx.snapshot ≤ rowCounter F.table tx.view
  old : ∀ id ≤ rowCounter F.table tx.snapshot, tx.overlay.lookup (numberKey F.table id) = none
  fresh : ∀ id, rowCounter F.table tx.snapshot < id → id ≤ rowCounter F.table tx.view →
    ∃ v, tx.overlay.lookup (numberKey F.table id) = some (some v)
  rows : ∀ e ∈ F.rowsOf done, tx.overlay.lookup e.1 = some (some (F.rowBytes e.2)) ∧
    ∃ id, rowCounter F.table tx.snapshot < id ∧ id ≤ rowCounter F.table tx.view ∧
      e.1 = numberKey F.table id
  nodup : ((F.rowsOf done).map fst).Nodup

variable {t t' : Table} {tx tx' : TxnState} {done : List (Done RowInsert)}

theorem rowCounter_lt (t : Table) : rowCounter d t < 2 ^ 64 := toNat_lt _

theorem TxnInv.start (t : Table) (ro : Bool) (iso : Isolation) :
    TxnInv F t (start t ro iso) [] := by
  have hview : rowCounter F.table (TxnState.start t ro iso).view = rowCounter F.table t := by
    unfold rowCounter view
    rfl
  refine ⟨le_rfl, fun id h h' => ?_, hview.ge, fun _ _ => rfl, fun id h h' => ?_, nofun, .nil⟩ <;>
    exact absurd h (not_lt_of_ge h')

variable (h : TxnInv F t tx done)
include h

theorem TxnInv.congr (hsnapshot : tx'.snapshot = tx.snapshot)
    (hoverlay : tx'.overlay = tx.overlay) : TxnInv F t tx' done := by
  have hview : tx'.view = tx.view := by rw [view, hsnapshot, hoverlay, view]
  exact ⟨hsnapshot ▸ h.base_le, hsnapshot ▸ h.bound, hsnapshot ▸ hview ▸ h.le_view,
    hsnapshot ▸ hoverlay ▸ h.old, hsnapshot ▸ hview ▸ hoverlay ▸ h.fresh,
    hsnapshot ▸ hview ▸ hoverlay ▸ h.rows, h.nodup⟩

theorem TxnInv.advance (hadv : Advance F t t') : TxnInv F t' tx done := by
  refine ⟨h.base_le.trans hadv.le, fun id hlow hhigh => ?_, h.le_view, h.old, h.fresh, h.rows,
    h.nodup⟩
  by_cases hid : id ≤ rowCounter F.table t
  · rw [hadv.low id hid]
    exact h.bound id hlow hid
  · exact hadv.filled id (not_le.mp hid) hhigh

/-- COMMIT, when no number has been taken since the snapshot. -/
theorem TxnInv.commit_advance (hbase : rowCounter F.table t = rowCounter F.table tx.snapshot) :
    Advance F t (tx.overlay.onto t) ∧
      rowCounter F.table (tx.overlay.onto t) = rowCounter F.table tx.view := by
  have hcounter : rowCounter F.table (tx.overlay.onto t) = rowCounter F.table tx.view := by
    rw [rowCounter, rowCounter, view, get_onto, get_onto]
    cases tx.overlay.lookup (rowidKey F.table.name) with
    | none => exact hbase
    | some v => rfl
  refine ⟨⟨?_, fun id hid => ?_, fun id hlow hhigh => ?_⟩, hcounter⟩
  · rw [hcounter, hbase]
    exact h.le_view
  · rw [get_onto, h.old id (hbase ▸ hid)]
    rfl
  · obtain ⟨v, hv⟩ := h.fresh id (hbase ▸ hlow) (hcounter ▸ hhigh)
    rw [get_onto, hv]
    rfl

section

variable {puts : List (Bytes × Bytes)} (hfills : Fills F puts n n') (hn' : n' < 2 ^ 64)
  (hle : n ≤ n') (hn : rowCounter F.table tx.view = n) (hsnapshot : tx'.snapshot = tx.snapshot)
  (hlookup : ∀ k, tx'.overlay.lookup k = ((lastValue puts k).map some).or (tx.overlay.lookup k))
include hfills hn' hle hn hsnapshot hlookup

omit h in
theorem Fills.view :
    n ≤ rowCounter F.table tx'.view ∧
    (∀ id, n < id → id ≤ rowCounter F.table tx'.view →
      (lastValue puts (numberKey F.table id)).isSome = true) ∧
    ((lastValue puts (rowidKey F.table.name)).isSome = true →
      rowCounter F.table tx'.view = n') := by
  have hget : tx'.view.get (rowidKey F.table.name) =
      (((lastValue puts (rowidKey F.table.name)).map some).or
        (tx.overlay.lookup (rowidKey F.table.name))).getD
          (tx.snapshot.get (rowidKey F.table.name)) := by
    rw [TxnState.view, get_onto, hlookup, hsnapshot]
  rcases hfills.counter with hnone | ⟨hsome, hrows⟩
  · have hsame : rowCounter F.table tx'.view = n := by
      rw [← hn, rowCounter, rowCounter, hget, hnone, TxnState.view, get_onto]
      rfl
    rw [hsame, hnone]
    exact ⟨le_rfl, fun id h h' => absurd h (not_lt_of_ge h'), by rintro ⟨⟩⟩
  · have hlast : rowCounter F.table tx'.view = n' := by
      rw [rowCounter, hget, hsome]
      exact (congrArg toNat (decodeCounter_leBytes _)).trans (toNat_ofNat_of_lt' hn')
    rw [hlast]
    exact ⟨hle, hrows, fun _ => rfl⟩

/-- What a statement of the transaction leaves, whether it succeeds or not. -/
theorem TxnInv.filled : TxnInv F t tx' done := by
  obtain ⟨hview, hrows, -⟩ := hfills.view hn' hle hn hsnapshot hlookup
  have hlow : ∀ id ≤ n, tx'.overlay.lookup (numberKey F.table id) =
      tx.overlay.lookup (numberKey F.table id) := fun id hid => by
    rw [hlookup, hfills.low id hid]
    rfl
  have hbase : rowCounter F.table tx.snapshot ≤ n := hn ▸ h.le_view
  refine ⟨hsnapshot ▸ h.base_le, hsnapshot ▸ h.bound, hsnapshot ▸ hbase.trans hview,
    fun id hid => ?_, fun id hlo hhi => ?_, fun e he => ?_, h.nodup⟩
  · rw [hsnapshot] at hid
    rw [hlow id (hid.trans hbase)]
    exact h.old id hid
  · rw [hsnapshot] at hlo
    by_cases hid : id ≤ n
    · rw [hlow id hid]
      exact h.fresh id hlo (hn.symm ▸ hid)
    · obtain ⟨v, hv⟩ := Option.isSome_iff_exists.mp (hrows id (not_le.mp hid) hhi)
      exact ⟨v, by rw [hlookup, hv]; rfl⟩
  · obtain ⟨hlook, id, hlo, hhi, hkey⟩ := h.rows e he
    rw [hn] at hhi
    refine ⟨?_, id, hsnapshot.symm ▸ hlo, hhi.trans hview, hkey⟩
    rw [hkey, hlow id hhi, ← hkey]
    exact hlook

end

theorem TxnInv.exec {budget : Nat}
    (hnum : Numbered F x ((F.insertProgram.reads x).map tx.view.get)) :
    TxnInv F t (execIn F.insertProgram budget tx x).2.2 done ∧
    ((execIn F.insertProgram budget tx x).2.1 = .ok () →
      TxnInv F t (execIn F.insertProgram budget tx x).2.2
        (done ++ [⟨x, true, (execIn F.insertProgram budget tx x).1⟩])) := by
  obtain ⟨hgot, hsnapshot, m, hlookup, hok⟩ :=
      execIn_spec (P := F.insertProgram) budget tx (x := x) rfl
  replace hlookup := fun k => hlookup k not_mem_nil
  generalize hg : (F.insertProgram.reads x).map tx.view.get = got at hnum hgot hlookup hok
  have hn : rowCounter F.table tx.view = (decodeCounter (got.headD none)).toNat := by
    rw [← hg]
    rfl
  have hfills := hnum.fills true m
  have hstays := h.filled hfills hnum.fits (le_add_right _ _) hn hsnapshot hlookup
  refine ⟨hstays, fun hsuccess => ?_⟩
  rw [hok hsuccess] at hfills hlookup
  obtain ⟨-, -, hlast⟩ := hfills.view hnum.fits (le_add_right _ _) hn hsnapshot hlookup
  have hrows : F.rowsOf (done ++ [⟨x, true, (execIn F.insertProgram budget tx x).1⟩]) =
      F.rowsOf done ++ F.kept x got := by
    rw [RowFormat.rowsOf, hgot]
    simp [RowFormat.rowsOf]
  refine { hstays with rows := fun e he => ?_, nodup := ?_ }
  · rcases mem_append.mp (hrows ▸ he) with he | he
    · exact hstays.rows e he
    · obtain ⟨id, hlo, hhi, hkey⟩ := kept_id hnum he
      refine ⟨by rw [hlookup, hnum.row_put true he]; rfl, id, ?_, ?_, hkey⟩
      · rw [hsnapshot]
        exact (h.le_view.trans_eq hn).trans_lt hlo
      · rw [hlast (counter_put true)]
        exact hhi
  · rw [hrows, map_append, nodup_append]
    refine ⟨h.nodup, kept_nodup hnum, fun a ha b hb hab => ?_⟩
    obtain ⟨e, he, rfl⟩ := mem_map.mp ha
    obtain ⟨e', he', rfl⟩ := mem_map.mp hb
    obtain ⟨-, id, -, hhi, hkey⟩ := h.rows e he
    obtain ⟨id', hlo', hhi', hkey'⟩ := kept_id hnum he'
    have := hnum.fits
    have hsame := numberKey_injective (by omega) (by omega) (hkey.symm.trans (hab.trans hkey'))
    omega

omit h

/-- A statement on its own, when no number has been taken since it read the counter. -/
theorem Numbered.write_advance (h : Numbered F x got)
    (hbase : rowCounter F.table t = (decodeCounter (got.headD none)).toNat) :
    Advance F t (t.write (F.insertProgram.batch x false got).puts []) ∧
      rowCounter F.table (t.write (F.insertProgram.batch x false got).puts []) =
        rowCounter F.table t + (x.rows got).length := by
  have hfills := h.fills false (F.insertProgram.batch x false got).puts.length
  rw [take_length] at hfills
  have hget : ∀ k, (t.write (F.insertProgram.batch x false got).puts []).get k =
      (lastValue (F.insertProgram.batch x false got).puts k).or (t.get k) := fun k => by
    rw [Table.get_write, if_neg not_mem_nil]
  have hcounter : (lastValue (F.insertProgram.batch x false got).puts
      (rowidKey F.table.name)).isSome = true := counter_put false
  rcases hfills.counter with hnone | ⟨hsome, hrows⟩
  · rw [hnone] at hcounter
    exact nomatch hcounter
  · have hlast : rowCounter F.table (t.write (F.insertProgram.batch x false got).puts []) =
        rowCounter F.table t + (x.rows got).length := by
      rw [rowCounter, hget, hsome, hbase]
      exact (congrArg toNat (decodeCounter_leBytes _)).trans
        (toNat_ofNat_of_lt' h.fits)
    refine ⟨⟨hlast ▸ le_add_right _ _, fun id hid => ?_, fun id hlo hhi => ?_⟩, hlast⟩
    · rw [hget, hfills.low id (hbase ▸ hid)]
      rfl
    · rw [hlast, hbase] at hhi
      rw [hget, Option.isSome_or, hrows id (hbase ▸ hlo) hhi]
      rfl

/-! ## Runs -/

/-- The condition of a step: a statement on its own writes when the counter is still the one it
read; a transaction commits when the counter is still that of its snapshot, or when it has written
the number after that, which the snapshot does not have; and a statement leaves out no row that has
got a number, of which there are enough. -/
def Admitted (F : RowFormat) (σ : Sys RowInsert) : Act RowInsert → Prop
  | .write s => match σ.session s with
    | .reading x got =>
      rowCounter F.table σ.store = (decodeCounter (got.headD none)).toNat ∧ Numbered F x got
    | _ => True
  | .exec s x => match σ.session s with
    | .txn tx _ => Numbered F x ((F.insertProgram.reads x).map tx.view.get)
    | _ => True
  | .commit s => match σ.session s with
    | .txn tx _ => rowCounter F.table σ.store = rowCounter F.table tx.snapshot ∨
        (tx.overlay.touches (numberKey F.table (rowCounter F.table tx.snapshot + 1)) = true ∧
          tx.snapshot.get (numberKey F.table (rowCounter F.table tx.snapshot + 1)) = none)
    | _ => True
  | _ => True

structure RowsKept (F : RowFormat) (σ : Sys RowInsert) : Prop where
  present : ∀ e ∈ F.inserted σ, σ.store.get e.1 = some (F.rowBytes e.2)
  ids : ∀ e ∈ F.inserted σ, ∃ id ≤ rowCounter F.table σ.store, e.1 = numberKey F.table id
  nodup : ((F.inserted σ).map fst).Nodup
  txns : ∀ s tx done, σ.session s = .txn tx done → TxnInv F σ.store tx done

variable {σ σ' : Sys RowInsert} {s : Nat}

theorem RowsKept.start (t : Table) : RowsKept F (.start t) := ⟨nofun, nofun, .nil, nofun⟩

theorem RowsKept.set (h : RowsKept F σ) {p : Session RowInsert}
    (hp : ∀ tx done, p = .txn tx done → TxnInv F σ.store tx done) : RowsKept F (σ.set s p) :=
  ⟨h.present, h.ids, h.nodup, forall_txns_set h.txns hp⟩

theorem RowsKept.committed (h : RowsKept F σ) (hadv : Advance F σ.store t)
    (hrows : ∀ e ∈ F.rowsOf done, t.get e.1 = some (F.rowBytes e.2) ∧
      ∃ id, rowCounter F.table σ.store < id ∧ id ≤ rowCounter F.table t ∧ e.1 =
        numberKey F.table id)
    (hnodup : ((F.rowsOf done).map fst).Nodup) : RowsKept F (σ.committed s done t) := by
  have hinserted : F.inserted (σ.committed s done t) = F.inserted σ ++ F.rowsOf done := by
    simp [RowFormat.inserted, Sys.committed]
  refine ⟨fun e he => ?_, fun e he => ?_, ?_,
    Sys.forall_txns_committed (fun s tx done hs => (h.txns s tx done hs).advance hadv) done t⟩
  · rcases mem_append.mp (hinserted ▸ he) with he | he
    · obtain ⟨id, hid, hkey⟩ := h.ids e he
      rw [← h.present e he, hkey]
      exact hadv.low id hid
    · exact (hrows e he).1
  · rcases mem_append.mp (hinserted ▸ he) with he | he
    · obtain ⟨id, hid, hkey⟩ := h.ids e he
      exact ⟨id, hid.trans hadv.le, hkey⟩
    · obtain ⟨-, id, -, hid, hkey⟩ := hrows e he
      exact ⟨id, hid, hkey⟩
  · rw [hinserted, map_append, nodup_append]
    refine ⟨h.nodup, hnodup, fun a ha b hb hab => ?_⟩
    obtain ⟨e, he, rfl⟩ := mem_map.mp ha
    obtain ⟨e', he', rfl⟩ := mem_map.mp hb
    obtain ⟨id, hid, hkey⟩ := h.ids e he
    obtain ⟨-, id', hlo, hhi, hkey'⟩ := hrows e' he'
    have hmax := rowCounter_lt (d := F.table) t
    have hsame := numberKey_injective (by omega) (by omega) (hkey.symm.trans (hab.trans hkey'))
    omega

/-- A transaction whose commit is admitted and passes its validation starts from the present
counter: otherwise the number after that of its snapshot would have a row. -/
theorem TxnInv.base_eq {cap : Nat} {job : WriteJob} (h : TxnInv F t tx done)
    (hjob : tx.commitJob cap = .ok job) (hturn : jobTurn t job = (.ok (), t'))
    (hok : rowCounter F.table t = rowCounter F.table tx.snapshot ∨
      (tx.overlay.touches (numberKey F.table (rowCounter F.table tx.snapshot + 1)) = true ∧
        tx.snapshot.get (numberKey F.table (rowCounter F.table tx.snapshot + 1)) = none)) :
    rowCounter F.table t = rowCounter F.table tx.snapshot := by
  refine hok.elim id fun ⟨htouches, hnone⟩ => ?_
  by_contra hne
  have hlt : rowCounter F.table tx.snapshot < rowCounter F.table t :=
    lt_of_le_of_ne h.base_le (Ne.symm hne)
  have hbound := h.bound _ (lt_succ_self _) hlt
  have hsame := (commit_spec hjob hturn).2 _ htouches (by rfl)
  rw [hsame, hnone] at hbound
  exact nomatch hbound

theorem RowsKept.step {lim : Limits} {a : Act RowInsert} (h : RowsKept F σ) (hok : Admitted F σ a)
    (hstep : σ.step F.insertProgram lim a = some σ') : RowsKept F σ' := by
  obtain ⟨s, p, rfl, hmoved⟩ | ⟨s, tx, done, job, t, rfl, hs, hjob, hturn, rfl⟩ |
    ⟨s, x, got, t, rfl, hs, hturn, rfl⟩ := step_cases hstep
  · refine h.set fun tx done hp => ?_
    cases hmoved with
    | begin =>
      cases hp
      exact .start _ _ _
    | op hs hkeeps =>
      cases hp
      exact (h.txns _ _ _ hs).congr (exec_snapshot _ _ _)
        (overlay_of_buffer (exec_buffer hkeeps _ _))
    | execOk hs hsuccess =>
      cases hp
      simp only [Admitted, hs] at hok
      exact ((h.txns _ _ _ hs).exec hok).2 hsuccess
    | execFailed hs _ =>
      cases hp
      simp only [Admitted, hs] at hok
      exact ((h.txns _ _ _ hs).exec hok).1
    | reading | idle => exact nomatch hp
  · simp only [Admitted, hs] at hok
    have htx := h.txns s tx done hs
    have hbase := htx.base_eq hjob hturn hok
    obtain ⟨rfl, -⟩ := commit_spec hjob hturn
    obtain ⟨hadv, hcounter⟩ := htx.commit_advance hbase
    refine h.committed hadv (fun e he => ?_) htx.nodup
    obtain ⟨hlook, id, hlo, hhi, hkey⟩ := htx.rows e he
    exact ⟨by rw [get_onto, hlook]; rfl, id, hbase ▸ hlo, hcounter ▸ hhi, hkey⟩
  · simp only [Admitted, hs] at hok
    obtain ⟨hbase, hnum⟩ := hok
    obtain rfl := write_spec hturn
    obtain ⟨hadv, hcounter⟩ := hnum.write_advance hbase
    have hrows : F.rowsOf [⟨x, false, got⟩] = F.kept x got := by simp [RowFormat.rowsOf]
    refine h.committed hadv (fun e he => ?_) (hrows ▸ kept_nodup hnum)
    rw [hrows] at he
    obtain ⟨id, hlo, hhi, hkey⟩ := kept_id hnum he
    refine ⟨?_, id, hbase ▸ hlo, hcounter ▸ hbase ▸ hhi, hkey⟩
    exact (Table.get_write _ _ _ _).trans (by rw [hnum.row_put false he]; rfl)

/-- In every admitted run, every row of a committed INSERT is in the table, under a number that no
other has. -/
theorem inserts_kept {F : RowFormat} {lim : Limits} {t : Table} {σ : Sys RowInsert}
    (h : Reach (Sys.step F.insertProgram lim) (Admitted F) (.start t) σ) :
    (∀ e ∈ F.inserted σ, σ.store.get e.1 = some (F.rowBytes e.2) ∧
      ∃ id, e.1 = numberKey F.table id) ∧
    ((F.inserted σ).map fst).Nodup := by
  have hinv : RowsKept F σ := h.invariant (.start t) fun hinv hok hstep => hinv.step hok hstep
  refine ⟨fun e he => ⟨hinv.present e he, ?_⟩, hinv.nodup⟩
  obtain ⟨id, -, hkey⟩ := hinv.ids e he
  exact ⟨id, hkey⟩

/-! ## Two sessions -/

instance (F : RowFormat) (x : RowInsert) (got : List (Option Bytes)) :
    Decidable (Numbered F x got) :=
  decidable_of_iff' _ (numbered_iff ..)

instance (F : RowFormat) (σ : Sys RowInsert) (a : Act RowInsert) : Decidable (Admitted F σ a) := by
  delta Admitted
  split <;> try split
  all_goals infer_instance

def heapFormat : RowFormat where
  env := .plain
  table :=
    { name := ['t'], columns := [⟨['v'], .int, true, .ci⟩], pkCols := [], indexes := [],
      storageGeneration := 0 }
  rowBytes
    | [.int v] => [Fin.ofNat 256 v.toNatClampNeg]
    | _ => []

/-- `INSERT INTO t VALUES (v)`. -/
def insertOne (v : Int64) : RowInsert where
  rows _ := [[.int v]]
  keep _ := true
  auto := false
  autoinc _ := 0
  wcount got := decodeCounter ((got.getD 1) none) + 1

/-- One session inserts a row on its own, and then the other two in a transaction. -/
theorem inserts_kept_in_turn :
    ∃ σ : Sys RowInsert, Reach (Sys.step heapFormat.insertProgram ⟨1000, 10⟩) (Admitted heapFormat)
        (.start empty) σ ∧ (heapFormat.inserted σ).length = 3 ∧
      (∀ e ∈ heapFormat.inserted σ, σ.store.get e.1 = some (heapFormat.rowBytes e.2) ∧
        ∃ id, e.1 = numberKey heapFormat.table id) ∧
      ((heapFormat.inserted σ).map fst).Nodup := by
  exact Reach.exists_of_run (P := fun σ => (heapFormat.inserted σ).length = 3)
    [.start 0 (insertOne 5), .read 0, .read 0, .write 0, .begin 1 false .snapshot,
      .exec 1 (insertOne 6), .exec 1 (insertOne 7), .commit 1]
    (by decide +kernel) fun σ hreach hlength => ⟨hlength, inserts_kept hreach⟩

/-- Two sessions read the counter before either writes: both rows get number 1. -/
theorem insert_lost :
    ∃ σ : Sys RowInsert, Reach (Sys.step heapFormat.insertProgram ⟨1000, 10⟩) (fun _ _ => True)
        (.start empty) σ ∧
      ∃ e ∈ heapFormat.inserted σ, σ.store.get e.1 ≠ some (heapFormat.rowBytes e.2) := by
  exact Reach.exists_of_run
    [.start 0 (insertOne 5), .start 1 (insertOne 6), .read 0, .read 1, .read 0, .read 1, .write 0,
      .write 1] (by decide +kernel) fun σ _ hlost => hlost

end ElyraSql.Counters
