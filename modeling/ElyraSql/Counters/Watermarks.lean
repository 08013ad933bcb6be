import ElyraSql.Counters.RowIds

/-!
# The AUTO_INCREMENT counter and the write counter

Every INSERT, UPDATE and DELETE stores a larger write counter with its rows (`bump_wcount`), and an
INSERT into a table with an `AUTO_INCREMENT` column stores the counter it has raised to its ids.
Both are computed from what the statement read, and neither is validated by COMMIT. The statements
that replace a table as a whole do not keep them up.
-/

namespace ElyraSql.Counters

open OrderedMap Transition ElyraSql.Engine List OMap TxnState Overlay Sys Int64

/-! ## Ids -/

/-- The value an INSERT has for the `AUTO_INCREMENT` column of a row: one to be generated, or the
number it was given. -/
inductive GivenId
  | generate
  | given (n : Int)
  deriving DecidableEq, Repr

/-- The counter raised to a given id, if that is a number of its type and larger. -/
def raiseTo (autoinc : Int64) (n : Int) : Int64 :=
  if 0 ≤ n ∧ n < 2 ^ 63 ∧ autoinc.toInt < n then Int64.ofInt n else autoinc

/-- The counter after the rows of an INSERT, and their ids. -/
def assignIds : Int64 → List GivenId → Int64 × List Int
  | autoinc, [] => (autoinc, [])
  | autoinc, .generate :: ids =>
    let rest := assignIds (autoinc + 1) ids
    (rest.1, (autoinc + 1).toInt :: rest.2)
  | autoinc, .given n :: ids =>
    let rest := assignIds (raiseTo autoinc n) ids
    (rest.1, n :: rest.2)

/-- No id goes over the counter's type. -/
def IdsFit : Int64 → List GivenId → Prop
  | _, [] => True
  | autoinc, .generate :: ids => autoinc.toInt + 1 < 2 ^ 63 ∧ IdsFit (autoinc + 1) ids
  | autoinc, .given n :: ids => n < 2 ^ 63 ∧ IdsFit (raiseTo autoinc n) ids

instance decidableIdsFit : (autoinc : Int64) → (ids : List GivenId) → Decidable (IdsFit autoinc ids)
  | _, [] => .isTrue trivial
  | autoinc, .generate :: ids =>
    have := decidableIdsFit (autoinc + 1) ids
    inferInstanceAs (Decidable (_ ∧ _))
  | autoinc, .given n :: ids =>
    have := decidableIdsFit (raiseTo autoinc n) ids
    inferInstanceAs (Decidable (_ ∧ _))

theorem toInt_add_one {n : Int64} (h : n.toInt + 1 < 2 ^ 63) : (n + 1).toInt = n.toInt + 1 := by
  have hlow := n.le_toInt
  have hone : (1 : Int64).toInt = 1 := rfl
  rw [toInt_add]
  exact Int.bmod_eq_of_le (by omega) (by omega)

theorem raiseTo_spec {autoinc : Int64} {n : Int} (h : n < 2 ^ 63) (h0 : 0 ≤ autoinc.toInt) :
    autoinc.toInt ≤ (raiseTo autoinc n).toInt ∧ n ≤ (raiseTo autoinc n).toInt := by
  unfold raiseTo
  split_ifs with hn
  · have : (ofInt n).toInt = n := toInt_ofInt_of_le (by omega) (by omega)
    omega
  · omega

theorem assignIds_spec {autoinc : Int64} {ids : List GivenId} (h : IdsFit autoinc ids)
    (h0 : 0 ≤ autoinc.toInt) :
    autoinc.toInt ≤ (assignIds autoinc ids).1.toInt ∧
      ∀ id ∈ (assignIds autoinc ids).2, id ≤ (assignIds autoinc ids).1.toInt := by
  induction ids generalizing autoinc with
  | nil => exact ⟨le_rfl, nofun⟩
  | cons i ids ih =>
    cases i with
    | generate =>
      have hnext := toInt_add_one h.1
      obtain ⟨hle, hids⟩ := ih h.2 (by omega)
      rw [assignIds]
      refine ⟨by dsimp only; omega, fun id hid => ?_⟩
      rcases mem_cons.mp hid with rfl | hid
      · exact hle
      · exact hids id hid
    | given n =>
      obtain ⟨hself, hn⟩ := raiseTo_spec h.1 h0
      obtain ⟨hle, hids⟩ := ih h.2 (h0.trans hself)
      refine ⟨hself.trans hle, fun id hid => ?_⟩
      rcases mem_cons.mp hid with rfl | hid
      · exact hn.trans hle
      · exact hids id hid

/-! ## Statements -/

/-- Statements that create, empty, remove or rename a table. -/
inductive WholeTable
  | truncate
  | dropTable
  | createTableAs
  | renameTo (new : Text)
  | renameFrom (old : Text)
  deriving DecidableEq

structure CountedStmt where
  /-- What it is, if not an INSERT, UPDATE or DELETE. -/
  whole : Option WholeTable
  /-- For an INSERT into a table with an `AUTO_INCREMENT` column, the values it has for it. -/
  ids : Option (List GivenId)
  /-- The rows and index entries it writes and deletes, with what it has read. -/
  rows : Bool → List (Option Bytes) → Batch
  /-- None of them is a bookkeeping key. -/
  rows_put : ∀ b got, ∀ e ∈ (rows b got).puts, isMeta e.1 = false
  rows_delete : ∀ b got, ∀ k ∈ (rows b got).delete, isMeta k = false

/-- The counter of a table's `AUTO_INCREMENT` column. -/
def decodeAuto (v : Option Bytes) : Int64 := (decodeCounter v).toInt64

variable (table : Text)

def autoCounter (t : Table) : Int := (decodeAuto (t.get (autoincKey table))).toInt

def writeCounter (t : Table) : Nat := (decodeCounter (t.get (wcountKey table))).toNat

/-- The counter a statement stores for the `AUTO_INCREMENT` column, and the ids of its rows. -/
def CountedStmt.assigned (x : CountedStmt) (got : List (Option Bytes)) : Int64 × List Int :=
  assignIds (decodeAuto (got.headD none)) (x.ids.getD [])

/-- The write counter a statement has read, the last of its reads. -/
def readWrites (got : List (Option Bytes)) : UInt64 := decodeCounter (got.getLastD none)

def CountedStmt.counterPuts (x : CountedStmt) (got : List (Option Bytes)) : List (Bytes × Bytes) :=
  (if x.ids.isSome then [(autoincKey table, leBytes (x.assigned got).1.toUInt64)] else []) ++
    [(wcountKey table, leBytes (readWrites got + 1))]

/-- The counters read for a table as a whole. -/
def WholeTable.reads : WholeTable → List Bytes
  | .truncate => [wcountKey table]
  | .dropTable | .createTableAs => []
  | .renameTo _ => [autoincKey table, wcountKey table]
  | .renameFrom old => [autoincKey old, wcountKey old]

/-- The counters written with the rows. DROP TABLE leaves the write counter, CREATE TABLE AS writes
neither, and RENAME moves those that are there. -/
def WholeTable.counterPuts (got : List (Option Bytes)) : WholeTable → List (Bytes × Bytes)
  | .truncate => [(wcountKey table, leBytes (readWrites got + 1))]
  | .dropTable | .createTableAs => []
  | .renameTo new => moved [autoincKey new, wcountKey new]
  | .renameFrom _ => moved [autoincKey table, wcountKey table]
where
  moved (keys : List Bytes) : List (Bytes × Bytes) :=
    (keys.zip got).filterMap fun (k, v) => v.map (k, ·)

def WholeTable.counterDeletes (got : List (Option Bytes)) : WholeTable → List Bytes
  | .truncate | .dropTable => [autoincKey table]
  | .createTableAs => []
  | .renameTo _ => moved [autoincKey table, wcountKey table]
  | .renameFrom old => moved [autoincKey old, wcountKey old]
where
  moved (keys : List Bytes) : List Bytes :=
    (keys.zip got).filterMap fun (k, v) => v.map fun _ => k

/-- The statements, as far as the counters go. -/
def countedProgram : Program CountedStmt where
  reads x := match x.whole with
    | none => (if x.ids.isSome then [autoincKey table] else []) ++ [wcountKey table]
    | some d => d.reads table
  batch x b got := match x.whole with
    | none => { x.rows b got with put := (x.rows b got).put ++ x.counterPuts table got }
    | some d =>
      { x.rows b got with
        put := (x.rows b got).put ++ d.counterPuts table got
        delete := (x.rows b got).delete ++ d.counterDeletes table got }

/-- The ids of every INSERT that has committed. -/
def handedOut (σ : Sys CountedStmt) : List Int :=
  σ.commits.flatMap fun c => c.done.flatMap fun e => (e.stmt.assigned e.got).2

variable {table : Text}

theorem isMeta_autoincKey : isMeta (autoincKey table) = true := rfl

theorem isMeta_wcountKey : isMeta (wcountKey table) = true := rfl

theorem autoincKey_ne_wcountKey : autoincKey table ≠ wcountKey table := by
  simp [autoincKey, wcountKey, ascii]

variable {x : CountedStmt} {got : List (Option Bytes)} {b : Bool} (hx : x.whole = none)

include hx in
theorem counted_puts : ((countedProgram table).batch x b got).puts =
    (x.rows b got).puts ++ x.counterPuts table got := by
  simp [countedProgram, Batch.puts, hx]

include hx in
theorem counted_delete : ((countedProgram table).batch x b got).delete = (x.rows b got).delete := by
  simp [countedProgram, hx]

theorem mem_counterPuts_counted {k v : Bytes} (h : (k, v) ∈ x.counterPuts table got) :
    (x.ids.isSome = true ∧ k = autoincKey table ∧ v = leBytes (x.assigned got).1.toUInt64) ∨
      (k = wcountKey table ∧ v = leBytes (readWrites got + 1)) := by
  rcases mem_append.mp h with h | h
  · split at h
    case isTrue hids =>
      cases mem_singleton.mp h
      exact .inl ⟨hids, rfl, rfl⟩
    case isFalse => exact nomatch h
  · cases mem_singleton.mp h
    exact .inr ⟨rfl, rfl⟩

include hx in
theorem meta_put {k v : Bytes} (hmeta : isMeta k = true)
    (h : (k, v) ∈ ((countedProgram table).batch x b got).puts) :
    (k, v) ∈ x.counterPuts table got := by
  rw [counted_puts hx] at h
  rcases mem_append.mp h with h | h
  · exact nomatch (x.rows_put b got _ h).symm.trans hmeta
  · exact h

include hx in
theorem wcount_put :
    lastValue ((countedProgram table).batch x b got).puts (wcountKey table) =
      some (leBytes (readWrites got + 1)) := by
  refine lastValue_eq_some ?_ fun w hw => ?_
  · rw [counted_puts hx]
    exact mem_append_right _ (mem_append_right _ (mem_singleton.mpr rfl))
  · rcases mem_counterPuts_counted (meta_put hx isMeta_wcountKey hw) with ⟨-, hkey, -⟩ | ⟨-, hw⟩
    · exact absurd hkey.symm autoincKey_ne_wcountKey
    · exact hw

include hx in
theorem autoinc_put (hids : x.ids.isSome = true) :
    lastValue ((countedProgram table).batch x b got).puts (autoincKey table) =
      some (leBytes (x.assigned got).1.toUInt64) := by
  refine lastValue_eq_some ?_ fun w hw => ?_
  · rw [counted_puts hx]
    refine mem_append_right _ (mem_append_left _ ?_)
    rw [if_pos hids]
    exact mem_singleton.mpr rfl
  · rcases mem_counterPuts_counted (meta_put hx isMeta_autoincKey hw) with ⟨-, -, hw⟩ | ⟨hkey, -⟩
    · exact hw
    · exact absurd hkey autoincKey_ne_wcountKey

include hx in
theorem autoinc_not_put (hids : x.ids.isSome = false) :
    lastValue ((countedProgram table).batch x b got).puts (autoincKey table) = none := by
  refine lastValue_eq_none fun hmem => ?_
  obtain ⟨⟨k, v⟩, he, rfl⟩ := mem_map.mp hmem
  rcases mem_counterPuts_counted (meta_put hx isMeta_autoincKey he) with ⟨hsome, -⟩ | ⟨hkey, -⟩
  · exact nomatch hids.symm.trans hsome
  · exact autoincKey_ne_wcountKey hkey

/-! ## What a statement does to the counters -/

variable {t t' : Table}

include hx in
theorem read_wcount (f : Bytes → Option Bytes) :
    (((countedProgram table).reads x).map f).getLastD none = f (wcountKey table) := by
  simp [countedProgram, hx]

include hx in
theorem read_autoinc (h : x.ids.isSome = true) (f : Bytes → Option Bytes) :
    (((countedProgram table).reads x).map f).headD none = f (autoincKey table) := by
  simp [countedProgram, hx, h]

/-- An INSERT, UPDATE or DELETE, with room for its ids and for one more write. -/
@[mk_iff] structure CountsFit (x : CountedStmt) (got : List (Option Bytes)) : Prop where
  dml : x.whole = none
  ids : IdsFit (decodeAuto (got.headD none)) (x.ids.getD [])
  writes : (readWrites got).toNat + 1 < 2 ^ 64

/-- A statement whose puts are all made on top of the table it has read. -/
theorem counters_after (hgot : got = ((countedProgram table).reads x).map t.get)
    (hget : ∀ k, isMeta k = true → t'.get k =
      (lastValue ((countedProgram table).batch x b got).puts k).or (t.get k))
    (hfit : CountsFit x got) (h0 : 0 ≤ autoCounter table t) :
    autoCounter table t ≤ autoCounter table t' ∧
    (∀ id ∈ (x.assigned got).2, id ≤ autoCounter table t') ∧
    writeCounter table t' = writeCounter table t + 1 := by
  have hwrites : readWrites got = decodeCounter (t.get (wcountKey table)) := by
    rw [readWrites, hgot, read_wcount hfit.dml]
  refine and_assoc.mp ⟨?_, ?_⟩
  · cases hids : x.ids.isSome with
    | false =>
      have hsame : autoCounter table t' = autoCounter table t := by
        rw [autoCounter, hget _ isMeta_autoincKey, autoinc_not_put hfit.dml hids]
        rfl
      have hnone : x.ids = none := by simpa using hids
      refine ⟨hsame.ge, fun id hid => ?_⟩
      rw [CountedStmt.assigned, hnone] at hid
      exact nomatch hid
    | true =>
      have hstart : (decodeAuto (got.headD none)).toInt = autoCounter table t := by
        rw [hgot, read_autoinc hfit.dml hids]
        rfl
      have hlast : autoCounter table t' = (x.assigned got).1.toInt := by
        rw [autoCounter, hget _ isMeta_autoincKey, autoinc_put hfit.dml hids]
        exact congrArg toInt (by simp [decodeAuto])
      obtain ⟨hle, hids⟩ := assignIds_spec hfit.ids (hstart ▸ h0)
      rw [hlast, ← hstart]
      exact ⟨hle, hids⟩
  · rw [writeCounter, hget _ isMeta_wcountKey, wcount_put hfit.dml, writeCounter, ← hwrites]
    exact (congrArg UInt64.toNat (decodeCounter_leBytes _)).trans (toNat_add_one hfit.writes)

/-! ## Transactions -/

def idsOf (done : List (Done CountedStmt)) : List Int :=
  done.flatMap fun e => (e.stmt.assigned e.got).2

/-- A transaction, seen from the committed table. -/
structure LeadTxn (table : Text) (t : Table) (tx : TxnState) (done : List (Done CountedStmt)) :
    Prop where
  nonneg : 0 ≤ autoCounter table tx.snapshot
  base_le : autoCounter table tx.snapshot ≤ autoCounter table t
  le_view : autoCounter table tx.snapshot ≤ autoCounter table tx.view
  ids : ∀ id ∈ idsOf done, id ≤ autoCounter table tx.view
  writes_le : writeCounter table tx.snapshot ≤ writeCounter table tx.view
  writes_lt : done ≠ [] → writeCounter table tx.snapshot < writeCounter table tx.view
  touched : ∀ k, isMeta k = false → tx.overlay.touches k = true → done ≠ []

variable {tx tx' : TxnState} {done : List (Done CountedStmt)}

theorem LeadTxn.start (h0 : 0 ≤ autoCounter table t) (ro : Bool) (iso : Isolation) :
    LeadTxn table t (start t ro iso) [] := by
  have hview : ∀ k, (TxnState.start t ro iso).view.get k = t.get k := fun k => by
    rfl
  refine ⟨h0, le_rfl, ?_, nofun, ?_, fun h => absurd rfl h, nofun⟩
  · rfl
  · rfl

variable (h : LeadTxn table t tx done)
include h

theorem LeadTxn.congr (hsnapshot : tx'.snapshot = tx.snapshot)
    (hoverlay : tx'.overlay = tx.overlay) : LeadTxn table t tx' done := by
  have hview : tx'.view = tx.view := by rw [view, hsnapshot, hoverlay, view]
  exact ⟨hsnapshot ▸ h.nonneg, hsnapshot ▸ h.base_le, hsnapshot ▸ hview ▸ h.le_view,
    hview ▸ h.ids, hsnapshot ▸ hview ▸ h.writes_le, hsnapshot ▸ hview ▸ h.writes_lt,
    hoverlay ▸ h.touched⟩

/-- Another session has committed. -/
theorem LeadTxn.mono (hle : autoCounter table t ≤ autoCounter table t') :
    LeadTxn table t' tx done := { h with base_le := h.base_le.trans hle }

theorem LeadTxn.exec {budget : Nat}
    (hgot : got = ((countedProgram table).reads x).map tx.view.get) (hfit : CountsFit x got)
    (hroom : tx.Fits budget ((countedProgram table).batch x true got).puts
      ((countedProgram table).batch x true got).delete) :
    (execIn (countedProgram table) budget tx x).2.1 = .ok () ∧
    LeadTxn table t (execIn (countedProgram table) budget tx x).2.2
      (done ++ [⟨x, true, (execIn (countedProgram table) budget tx x).1⟩]) := by
  subst hgot
  obtain ⟨hgot, hsnapshot, m, hlookup, hall⟩ :=
    execIn_spec (P := countedProgram table) budget tx (x := x) rfl
  have hok : (execIn (countedProgram table) budget tx x).2.1 = .ok () := by
    have := (hroom.congr
      (foldl_recordRead_buffer ((countedProgram table).reads x) tx)).commitWrite_ok
    rw [← hgot] at this
    exact this
  rw [hall hok] at hlookup
  have hview : ∀ k, isMeta k = true → (execIn (countedProgram table) budget tx x).2.2.view.get k =
      (lastValue ((countedProgram table).batch x true
        (((countedProgram table).reads x).map tx.view.get)).puts k).or (tx.view.get k) := by
    intro k hmeta
    have hk : k ∉ ((countedProgram table).batch x true
        (((countedProgram table).reads x).map tx.view.get)).delete :=
      fun hk => nomatch (x.rows_delete _ _ k (counted_delete hfit.dml ▸ hk)).symm.trans hmeta
    rw [view, get_onto, hlookup k hk, hsnapshot, view, get_onto]
    cases lastValue ((countedProgram table).batch x true
        (((countedProgram table).reads x).map (tx.overlay.onto tx.snapshot).get)).puts k <;> rfl
  obtain ⟨hauto, hids, hwrites⟩ := counters_after rfl hview hfit (h.nonneg.trans h.le_view)
  refine ⟨hok, ⟨hsnapshot ▸ h.nonneg, hsnapshot ▸ h.base_le, hsnapshot ▸ h.le_view.trans hauto,
    fun id hid => ?_, ?_, fun _ => ?_, fun _ _ _ => by simp⟩⟩
  · rw [idsOf, flatMap_append, hgot] at hid
    rcases mem_append.mp hid with hid | hid
    · exact (h.ids id hid).trans hauto
    · refine hids id ?_
      simpa using hid
  · rw [hsnapshot, hwrites]
    exact h.writes_le.trans (Nat.le_succ _)
  · rw [hsnapshot, hwrites]
    exact Nat.lt_succ_of_le h.writes_le

omit h

/-! ## Runs -/

/-- The condition of a step: no table is created, emptied, removed or renamed as a whole, a
statement on its own writes while the counters it has read are still
stored so, a transaction commits while the counters in its buffer are still stored as its snapshot
had them, and there is room for what is counted and for what is buffered. -/
def Steady (table : Text) (lim : Limits) (σ : Sys CountedStmt) : Act CountedStmt → Prop
  | .write s => match σ.session s with
    | .reading x got =>
      got = ((countedProgram table).reads x).map σ.store.get ∧ CountsFit x got
    | _ => True
  | .exec s x => match σ.session s with
    | .txn tx _ =>
      let got := ((countedProgram table).reads x).map tx.view.get
      CountsFit x got ∧ tx.Fits lim.budget ((countedProgram table).batch x true got).puts
        ((countedProgram table).batch x true got).delete
    | _ => True
  | .commit s => match σ.session s with
    | .txn tx _ => ∀ k ∈ [autoincKey table, wcountKey table], tx.overlay.touches k = true →
        σ.store.get k = tx.snapshot.get k
    | _ => True
  | _ => True

/-- A commit of some statement, or one that changes a row. -/
def Commit.Changes (c : Commit CountedStmt) : Prop :=
  c.done ≠ [] ∨ ∃ k, isMeta k = false ∧ c.before.get k ≠ c.after.get k

/-- The `AUTO_INCREMENT` counter is no less than any id that has been committed, every committed
change raises the write counter, and it never falls between commits. -/
structure CountersLead (table : Text) (σ : Sys CountedStmt) : Prop where
  auto : ∀ id ∈ handedOut σ, id ≤ autoCounter table σ.store
  writes : ∀ c ∈ σ.commits, c.Changes → writeCounter table c.before < writeCounter table c.after
  order : σ.commits.Pairwise fun c c' => writeCounter table c.after ≤ writeCounter table c'.before
  last : ∀ c ∈ σ.commits, writeCounter table c.after ≤ writeCounter table σ.store

/-- What carries it. -/
structure Lead (table : Text) (σ : Sys CountedStmt) : Prop extends CountersLead table σ where
  nonneg : 0 ≤ autoCounter table σ.store
  txns : ∀ s tx done, σ.session s = .txn tx done → LeadTxn table σ.store tx done

variable {σ σ' : Sys CountedStmt} {s : Nat}

theorem Lead.start (h0 : 0 ≤ autoCounter table t) : Lead table (.start t) where
  auto := nofun
  writes := nofun
  order := .nil
  last := nofun
  nonneg := h0
  txns := nofun

theorem Lead.set (h : Lead table σ) {p : Session CountedStmt}
    (hp : ∀ tx done, p = .txn tx done → LeadTxn table σ.store tx done) :
    Lead table (σ.set s p) :=
  { h with txns := forall_txns_set h.txns hp }

/-- A commit that lets no counter fall. -/
theorem Lead.committed (h : Lead table σ) (hauto : autoCounter table σ.store ≤ autoCounter table t)
    (hids : ∀ id ∈ idsOf done, id ≤ autoCounter table t)
    (hle : writeCounter table σ.store ≤ writeCounter table t)
    (hlt : Commit.Changes ⟨done, σ.store, t⟩ → writeCounter table σ.store < writeCounter table t) :
    Lead table (σ.committed s done t) := by
  have hcommits : (σ.committed s done t).commits = σ.commits ++ [⟨done, σ.store, t⟩] := rfl
  refine ⟨⟨fun id hid => ?_, fun c hc => ?_, ?_, fun c hc => ?_⟩, h.nonneg.trans hauto,
    forall_txns_committed (fun s tx done hs => (h.txns s tx done hs).mono hauto) done t⟩
  · rw [handedOut, hcommits, flatMap_append] at hid
    rcases mem_append.mp hid with hid | hid
    · exact (h.auto id hid).trans hauto
    · exact hids id (by simpa [idsOf] using hid)
  · rcases mem_append.mp (hcommits ▸ hc) with hc | hc
    · exact h.writes c hc
    · exact mem_singleton.mp hc ▸ hlt
  · rw [hcommits, pairwise_append]
    refine ⟨h.order, pairwise_singleton _ _, fun c hc c' hc' => ?_⟩
    rw [mem_singleton.mp hc']
    exact h.last c hc
  · rcases mem_append.mp (hcommits ▸ hc) with hc | hc
    · exact (h.last c hc).trans hle
    · rw [mem_singleton.mp hc]
      exact le_rfl

/-- What COMMIT makes of a key: the view's value if the buffer has it, and the stored one if not. -/
theorem onto_get_cases (tx : TxnState) (t : Table) (k : Bytes) :
    (tx.overlay.touches k = true ∧ (tx.overlay.onto t).get k = tx.view.get k) ∨
    ((tx.overlay.onto t).get k = t.get k ∧ tx.view.get k = tx.snapshot.get k) := by
  rw [view, get_onto, get_onto]
  cases htouches : tx.overlay.touches k with
  | true =>
    refine .inl ⟨rfl, ?_⟩
    cases hlook : tx.overlay.lookup k with
    | none => cases (lookup_eq_none_iff.mp hlook).symm.trans htouches
    | some v => rfl
  | false =>
    rw [lookup_eq_none_iff.mpr htouches]
    exact .inr ⟨rfl, rfl⟩

/-- COMMIT, while the counters of the buffer are stored as the snapshot had them. -/
theorem Lead.commit (h : Lead table σ) (hs : σ.session s = .txn tx done)
    (hok : ∀ k ∈ [autoincKey table, wcountKey table], tx.overlay.touches k = true →
      σ.store.get k = tx.snapshot.get k) :
    Lead table (σ.committed s done (tx.overlay.onto σ.store)) := by
  have htx := h.txns s tx done hs
  have hauto : autoCounter table σ.store ≤ autoCounter table (tx.overlay.onto σ.store) ∧
      autoCounter table tx.view ≤ autoCounter table (tx.overlay.onto σ.store) := by
    rcases onto_get_cases tx σ.store (autoincKey table) with ⟨htouches, hnew⟩ | ⟨hnew, hview⟩
    · have hsame := hok _ mem_cons_self htouches
      have hle := htx.le_view
      rw [autoCounter, autoCounter] at hle ⊢
      rw [hnew, hsame]
      exact ⟨hle, le_rfl⟩
    · have hle := htx.base_le
      rw [autoCounter, autoCounter] at hle ⊢
      rw [hnew, autoCounter, hview]
      exact ⟨le_rfl, hle⟩
  have hwrites : writeCounter table σ.store ≤ writeCounter table (tx.overlay.onto σ.store) ∧
      (done ≠ [] → writeCounter table σ.store < writeCounter table (tx.overlay.onto σ.store)) := by
    have hle := htx.writes_le
    have hlt := htx.writes_lt
    rw [writeCounter, writeCounter] at hle hlt ⊢
    rcases onto_get_cases tx σ.store (wcountKey table) with ⟨htouches, hnew⟩ | ⟨hnew, hview⟩
    · rw [hnew, hok _ (mem_cons_of_mem _ mem_cons_self) htouches]
      exact ⟨hle, hlt⟩
    · rw [hnew]
      rw [hview] at hlt
      exact ⟨le_rfl, fun hdone => absurd (hlt hdone) (lt_irrefl _)⟩
  refine h.committed hauto.1 (fun id hid => (htx.ids id hid).trans hauto.2) hwrites.1 ?_
  rintro (hdone | ⟨k, hmeta, hne⟩)
  · exact hwrites.2 hdone
  · rcases onto_get_cases tx σ.store k with ⟨htouches, -⟩ | ⟨hsame, -⟩
    · exact hwrites.2 (htx.touched k hmeta htouches)
    · exact absurd hsame.symm hne

theorem Lead.step {lim : Limits} {a : Act CountedStmt} (h : Lead table σ)
    (hok : Steady table lim σ a) (hstep : σ.step (countedProgram table) lim a = some σ') :
    Lead table σ' := by
  obtain ⟨s, p, rfl, hmoved⟩ | ⟨s, tx, done, job, t, rfl, hs, hjob, hturn, rfl⟩ |
    ⟨s, x, got, t, rfl, hs, hturn, rfl⟩ := step_cases hstep
  · refine h.set fun tx done hp => ?_
    cases hmoved with
    | begin =>
      cases hp
      exact .start h.nonneg _ _
    | op hs hkeeps =>
      cases hp
      exact (h.txns _ _ _ hs).congr (exec_snapshot _ _ _)
        (overlay_of_buffer (exec_buffer hkeeps _ _))
    | execOk hs _ =>
      cases hp
      simp only [Steady, hs] at hok
      exact ((h.txns _ _ _ hs).exec rfl hok.1 hok.2).2
    | execFailed hs hfailed =>
      simp only [Steady, hs] at hok
      exact nomatch hfailed.symm.trans ((h.txns _ _ _ hs).exec rfl hok.1 hok.2).1
    | reading | idle => exact nomatch hp
  · simp only [Steady, hs] at hok
    obtain ⟨rfl, -⟩ := commit_spec hjob hturn
    exact h.commit hs hok
  · simp only [Steady, hs] at hok
    obtain ⟨hgot, hfit⟩ := hok
    obtain rfl := write_spec hturn
    have hget : ∀ k, isMeta k = true →
        (σ.store.write ((countedProgram table).batch x false got).puts
          ((countedProgram table).batch x false got).delete).get k =
        (lastValue ((countedProgram table).batch x false got).puts k).or (σ.store.get k) := by
      intro k hmeta
      have hk : k ∉ ((countedProgram table).batch x false got).delete :=
        fun hk => nomatch (x.rows_delete _ _ k (counted_delete hfit.dml ▸ hk)).symm.trans hmeta
      rw [Table.get_write, if_neg hk]
    obtain ⟨hauto, hids, hwrites⟩ := counters_after hgot hget hfit h.nonneg
    refine h.committed hauto (fun id hid => hids id (by simpa [idsOf] using hid)) ?_ fun _ => ?_
    · rw [hwrites]
      exact Nat.le_succ _
    · rw [hwrites]
      exact Nat.lt_succ_self _

instance (x : CountedStmt) (got : List (Option Bytes)) : Decidable (CountsFit x got) :=
  decidable_of_iff' _ (countsFit_iff ..)

instance (table : Text) (lim : Limits) (σ : Sys CountedStmt) (a : Act CountedStmt) :
    Decidable (Steady table lim σ a) := by
  delta Steady
  split <;> try split
  all_goals infer_instance

/-- `INSERT INTO t` of one row whose key and bytes are given. -/
def insertId (id : GivenId) (key : Byte) : CountedStmt where
  whole := none
  ids := some [id]
  rows _ _ := { new := none, put := [([100, key], [key])], delete := [] }
  rows_put := by
    intro _ _ e he
    cases mem_singleton.mp he
    rfl
  rows_delete := nofun

/-- `DROP TABLE t` of a table with the row of `insertId .generate 1`. -/
def dropRow : CountedStmt where
  whole := some .dropTable
  ids := none
  rows _ _ := { new := none, put := [], delete := [[100, 1]] }
  rows_put := nofun
  rows_delete := by
    intro _ _ k hk
    cases mem_singleton.mp hk
    rfl

/-- One session alone: DROP TABLE deletes the row and leaves the write counter. -/
theorem drop_not_counted :
    ∃ σ : Sys CountedStmt, Reach (Sys.step (countedProgram ['t']) ⟨1000, 10⟩) (fun _ _ => True)
        (.start empty) σ ∧ ¬ CountersLead ['t'] σ := by
  refine Reach.exists_of_run (P := fun σ => ∃ c ∈ σ.commits, c.done ≠ [] ∧
      writeCounter ['t'] c.before = writeCounter ['t'] c.after)
    [.start 0 (insertId .generate 1), .read 0, .read 0, .write 0, .start 0 dropRow, .write 0]
    (by decide +kernel) ?_
  rintro σ - ⟨c, hc, hdone, hsame⟩ hlead
  exact absurd (hlead.writes c hc (.inl hdone)) (hsame ▸ lt_irrefl _)

end ElyraSql.Counters
