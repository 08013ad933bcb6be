import ElyraSql.Engine.UniqueIndex

/-!
# INSERT ... ON DUPLICATE KEY UPDATE

The first pass of `insert` builds each row (generated columns, BEFORE triggers, NOT NULL, CHECK) and
its key. `remap_unique_upsert_conflicts` then points a row that collides on a unique index at the
row it collides with, and the second pass merges the rows that land on one key, by `apply_dup`.
-/

namespace ElyraSql.Engine

open ReadProgram List

/-! ## Rules for rows -/

/-- `CheckRule`: the members of an ENUM or SET column, or a constraint. -/
inductive CheckRule
  | member (col : Nat)
  | constraint (name : Text)

/-- `RowCheck`, with its expression as a function of the row. -/
structure RowCheck where
  expr : Row → Except Error Value
  rule : CheckRule

/-- The checks and the generated columns of a table, the latter in the order of the columns. -/
structure RowRules where
  checks : List RowCheck
  generated : List (Nat × (Row → Except Error Value))

namespace Env

variable (env : Env)

/-- A check fails if its expression is false. An unsigned or decimal zero does not make it fail. -/
def checkFails : Value → Bool
  | .bool b => !b
  | .int i => i == 0
  | .float f => env.f64IsZero f
  | _ => false

/-- `check_row` of a new row. -/
def checkRow (d : TableDef) (rowNumber : Nat) (lenient : Bool) :
    List RowCheck → Row → Except Error Row
  | [], row => .ok row
  | c :: cs, row => do
    let v ← c.expr row
    if env.checkFails v then
      match c.rule with
      | .member i =>
        if lenient then checkRow d rowNumber lenient cs (row.set i (.text []))
        else .error (.dataTruncated ((d.columns[i]?).elim [] Column.name) rowNumber)
      | .constraint name => .error (.checkViolated name)
    else checkRow d rowNumber lenient cs row

/-- The generated columns, one after another. -/
def fillGenerated (d : TableDef) : List (Nat × (Row → Except Error Value)) → Row → Except Error Row
  | [], row => .ok row
  | (i, g) :: gs, row => do
    let v ← g row
    let w ← env.coerce (d.typeOf i) v
    fillGenerated d gs (row.set i w)

/-- The first column that is NULL and must not be. -/
def nullViolation (d : TableDef) (row : Row) : Option Column :=
  ((d.columns.zip row).find? fun e => !e.1.nullable && e.2.isNull).map Prod.fst

end Env

structure UpsertStmt where
  table : Text
  ignore : Bool
  /-- The session's SQL mode is strict. -/
  strict : Bool
  rules : TableDef → RowRules
  /-- The BEFORE INSERT triggers. -/
  before : TableDef → Row → Except Error Row
  /-- `Leniency::fix`. -/
  fix : TableDef → Row → Row
  /-- The rows with their given values, defaults and AUTO_INCREMENT values, each of its column's
  type, and the counter to store. -/
  values : TableDef → Read (List Row × Option UInt64)
  /-- `dup_sets`: each assigned value as a function of the inserted row (`VALUES(...)`) and of the
  row as merged so far. -/
  dupSets : List (Nat × (Row → Row → Except Error Value))
  widths : TableDef → List (Bytes × Row) → Read Unit

namespace Env

variable (env : Env)

/-- The first pass over one row: none if an IGNORE statement leaves it out. -/
def buildRow (x : UpsertStmt) (d : TableDef) (rowNumber : Nat) (row : Row) :
    Except Error (Option Row) := do
  let row ← env.fillGenerated d (x.rules d).generated row
  let row ← x.before d row
  let row := if x.ignore then x.fix d row else row
  match nullViolation d row with
  | some col => .error (.notNull col.name)
  | none =>
    match env.checkRow d rowNumber x.ignore (x.rules d).checks row with
    | .error (.checkViolated name) => if x.ignore then .ok none else .error (.checkViolated name)
    | .error e => .error e
    | .ok row => .ok (some row)

def buildRows (x : UpsertStmt) (d : TableDef) : Nat → List Row → Except Error (List Row)
  | _, [] => .ok []
  | n, row :: rows => do
    let built ← env.buildRow x d n row
    let rest ← buildRows x d (n + 1) rows
    .ok (built.toList ++ rest)

/-- `apply_dup`: the values are coerced to their columns' types, and nothing else is looked at. -/
def applyDup (strict : Bool) (d : TableDef) (insert : Row) :
    List (Nat × (Row → Row → Except Error Value)) → Row → Except Error Row
  | [], merged => .ok merged
  | (i, value) :: sets, merged => do
    let v ← value insert merged
    let w ← env.coerceWithMode strict (d.typeOf i) v
    applyDup strict d insert sets (merged.set i w)

/-- The row that a row makes of the one it lands on. -/
def mergeInto (x : UpsertStmt) (d : TableDef) (old insert : Row) : Except Error Row :=
  env.applyDup x.strict d insert x.dupSets old

def upsertStmt (x : UpsertStmt) : InsertStmt where
  table := x.table
  replace := false
  ignore := x.ignore
  deleteTriggers := false
  merge := if x.dupSets.isEmpty then none else some (env.mergeInto x)
  rows := fun d => do
    let given ← x.values d
    let rows ← Prog.lift (env.buildRows x d 1 given.1)
    pure (rows, given.2)
  widths := x.widths

end Env

/-! ## What the first pass checks -/

def NotNull (d : TableDef) (r : Row) : Prop :=
  ∀ e ∈ d.columns.zip r, e.1.nullable = true ∨ e.2.isNull = false

instance (d : TableDef) (r : Row) : Decidable (NotNull d r) :=
  inferInstanceAs (Decidable (∀ e ∈ d.columns.zip r, _ ∨ _))

def ChecksPass (env : Env) (checks : List RowCheck) (r : Row) : Prop :=
  ∀ c ∈ checks, ∃ v, c.expr r = .ok v ∧ env.checkFails v = false

def GeneratedOk (env : Env) (d : TableDef) (generated : List (Nat × (Row → Except Error Value)))
    (r : Row) : Prop :=
  ∀ g ∈ generated, ((g.2 r).bind fun v => env.coerce (d.typeOf g.1) v) = .ok (r.getD g.1 .null)

/-- The rules that each row keeps. -/
structure RowOk (env : Env) (rules : RowRules) (d : TableDef) (r : Row) : Prop where
  notNull : NotNull d r
  checks : ChecksPass env rules.checks r
  generated : GeneratedOk env d rules.generated r

variable {r : Row} {n : Nat} {k : Bytes}

section

variable {env : Env} {d : TableDef} {x : UpsertStmt}

theorem notNull_of_nullViolation (h : Env.nullViolation d r = none) : NotNull d r := by
  intro e he
  have hnone := find?_eq_none.mp (Option.map_eq_none_iff.mp h) e he
  cases hn : e.1.nullable <;> cases hnull : e.2.isNull <;> simp_all

theorem checkRow_ok {checks : List RowCheck} {r' : Row}
    (h : env.checkRow d n false checks r = .ok r') : r' = r ∧ ChecksPass env checks r := by
  induction checks with
  | nil =>
    cases h
    exact ⟨rfl, nofun⟩
  | cons c cs ih =>
    obtain ⟨v, hv, h⟩ := except_bind_ok h
    split at h
    case isTrue => split at h <;> exact nomatch h
    case isFalse hpass =>
      obtain ⟨rfl, hrest⟩ := ih h
      exact ⟨rfl, forall_mem_cons.mpr ⟨⟨v, hv, by simpa using hpass⟩, hrest⟩⟩

theorem buildRow_ok (hignore : x.ignore = false) {r' : Row}
    (h : env.buildRow x d n r = .ok (some r')) :
    NotNull d r' ∧ ChecksPass env (x.rules d).checks r' := by
  obtain ⟨filled, -, h⟩ := except_bind_ok h
  obtain ⟨row, -, h⟩ := except_bind_ok h
  simp only [hignore] at h
  split at h
  case h_1 => exact nomatch h
  case h_2 hnull =>
    split at h
    case h_1 => exact nomatch h
    case h_2 => exact nomatch h
    case h_3 hcheck =>
      cases h
      obtain ⟨rfl, hchecks⟩ := checkRow_ok hcheck
      exact ⟨notNull_of_nullViolation hnull, hchecks⟩

theorem buildRows_ok (hignore : x.ignore = false) {rows built : List Row}
    (h : env.buildRows x d n rows = .ok built) (hr : r ∈ built) :
    NotNull d r ∧ ChecksPass env (x.rules d).checks r := by
  induction rows generalizing n built with
  | nil =>
    cases h
    exact nomatch hr
  | cons row rows ih =>
    obtain ⟨r', hrow, h⟩ := except_bind_ok h
    obtain ⟨rest, hrest, h⟩ := except_bind_ok h
    cases h
    rcases mem_append.mp hr with hr | hr
    · rw [Option.mem_toList] at hr
      subst hr
      exact buildRow_ok hignore hrow
    · exact ih hrest hr

end

/-! ## Rows that land on one key -/

/-- The rows under a key, in order. -/
def landing (rows : List (Bytes × Row)) (k : Bytes) : List Row :=
  (rows.filter fun e => e.1 = k).map Prod.snd

theorem landing_cons_self (k : Bytes) (r : Row) (rows : List (Bytes × Row)) :
    landing ((k, r) :: rows) k = r :: landing rows k := by simp [landing]

theorem landing_cons_ne {k' : Bytes} (h : k' ≠ k) (r : Row) (rows : List (Bytes × Row)) :
    landing ((k', r) :: rows) k = landing rows k := by simp [landing, h]

variable {rows : List (Bytes × Row)}

theorem mem_landing : r ∈ landing rows k ↔ (k, r) ∈ rows := by
  simp only [landing, mem_map, mem_filter, decide_eq_true_eq, Prod.exists]
  constructor
  · rintro ⟨k', r', ⟨h, rfl⟩, rfl⟩
    exact h
  · exact fun h => ⟨k, r, ⟨h, rfl⟩, rfl⟩

/-- The rows that land on a key are merged one after another: into the row written so far, or else
into the stored one; the first row is written as it is if there is none. -/
def landFrom (merge : Row → Row → Except Error Row) (stored : Option Cell) :
    Option Row → List Row → Except Error (Option Row)
  | written, [] => .ok written
  | some r, row :: rows => do
    let merged ← merge r row
    landFrom merge stored (some merged) rows
  | none, row :: rows =>
    match stored with
    | none => landFrom merge stored (some row) rows
    | some c => do
      let old ← decodeRow c
      let merged ← merge old row
      landFrom merge stored (some merged) rows

section

variable {x : InsertStmt} {d : TableDef} {s : Store} {batch : List Change}

theorem findSome?_new (batch : List Change) (k : Bytes) :
    (batch.findSome? fun c => c.new.filter fun e => e.1 == k) =
      ((newRows batch).lookup k).map fun r => (k, r) := by
  induction batch with
  | nil => rfl
  | cons c batch ih =>
    obtain ⟨old, new⟩ := c
    cases new with
    | none => simpa [newRows] using ih
    | some e =>
      obtain ⟨k', r⟩ := e
      by_cases h : k' = k
      · subst h
        simp [newRows]
      · have hne : (k == k') = false := by simpa using fun he => h he.symm
        simp only [findSome?_cons, newRows, filterMap_cons, lookup_cons, hne,
          Option.filter_some, beq_eq_false_iff_ne.mpr h]
        exact ih

theorem newRows_replace (batch : List Change) (k : Bytes) (m : Row) :
    newRows (batch.map fun c => if c.new.map Prod.fst = some k then { c with new := some (k, m) }
      else c) = (newRows batch).map fun e => if e.1 = k then (k, m) else e := by
  induction batch with
  | nil => rfl
  | cons c batch ih =>
    obtain ⟨old, new⟩ := c
    cases new with
    | none => simpa [newRows] using ih
    | some e =>
      by_cases h : e.1 = k <;> simp only [newRows, map_cons, filterMap_cons,
        Option.map_some, Option.some.injEq, h] <;> exact congrArg _ ih

theorem lookup_replace (rows : List (Bytes × Row)) (k : Bytes) (m : Row) (j : Bytes) :
    (rows.map fun e => if e.1 = k then (k, m) else e).lookup j =
      if j = k then (rows.lookup j).map fun _ => m else rows.lookup j := by
  induction rows with
  | nil => simp
  | cons e rows ih =>
    obtain ⟨k', r⟩ := e
    rw [map_cons, lookup_cons, ih]
    by_cases hj : j = k <;> by_cases hk : k' = k
    · subst hj hk
      simp
    · subst hj
      have hne : (j == k') = false := by simpa using fun h => hk h.symm
      simp [hk, lookup_cons, hne]
    · subst hk
      have hne : (j == k') = false := by simpa using hj
      simp [lookup_cons, hne]
    · simp [hj, hk, lookup_cons]

theorem keys_replace (rows : List (Bytes × Row)) (k : Bytes) (m : Row) :
    (rows.map fun e => if e.1 = k then (k, m) else e).map Prod.fst = rows.map Prod.fst := by
  rw [map_map]
  refine map_congr_left fun e _ => ?_
  by_cases h : e.1 = k <;> simp [h]

theorem not_mem_of_lookup (h : rows.lookup k = none) : k ∉ rows.map Prod.fst := by
  intro hk
  obtain ⟨e, he, rfl⟩ := mem_map.mp hk
  exact absurd (lookup_eq_none_iff.mp h e he) (by simp)

/-- A row that goes gives its key to the one that comes. -/
def Change.KeepsKey (c : Change) : Prop := ∀ e, c.old = some e → c.new.map Prod.fst = some e.1

theorem keepsKey_replace (h : ∀ c ∈ batch, c.KeepsKey) (k : Bytes) (m : Row) :
    ∀ c ∈ batch.map fun c =>
        if c.new.map Prod.fst = some k then { c with new := some (k, m) } else c,
      c.KeepsKey := by
  intro c hc
  obtain ⟨c', hc', rfl⟩ := mem_map.mp hc
  intro e he
  split at he
  case isTrue hk => rw [if_pos hk, ← h c' hc' e he, hk]; rfl
  case isFalse hk => rw [if_neg hk, h c' hc' e he]

/-- The second pass writes, under each key, what becomes of the rows that land on it. -/
theorem upsertRows_landFrom {merge : TableDef → Row → Row → Except Error Row}
    (hm : x.merge = some merge) {out : List Change × Nat}
    (h : Env.upsertRows x d true (batch, n) (rows.map fun e => (e, s.get e.1)) = .ok out)
    (hnodup : ((newRows batch).map Prod.fst).Nodup) (hkeeps : ∀ c ∈ batch, c.KeepsKey) :
    ((newRows out.1).map Prod.fst).Nodup ∧ (∀ c ∈ out.1, c.KeepsKey) ∧
    ∀ k, landFrom (merge d) (s.get k) ((newRows batch).lookup k) (landing rows k) =
      .ok ((newRows out.1).lookup k) := by
  induction rows generalizing batch n with
  | nil =>
    cases h
    exact ⟨hnodup, hkeeps, fun k => by simp [landing, landFrom]⟩
  | cons e rows ih =>
    obtain ⟨key, row⟩ := e
    rw [map_cons, Env.upsertRows, hm, findSome?_new] at h
    simp only at h
    -- What is written under the row's own key, and that nothing else changes.
    have hstep : ∀ (batch' : List Change) (n' : Nat) (m : Row),
        Env.upsertRows x d true (batch', n') (rows.map fun e => (e, s.get e.1)) = .ok out →
        ((newRows batch').map Prod.fst).Nodup → (∀ c ∈ batch', c.KeepsKey) →
        (∀ k, (newRows batch').lookup k = if k = key then some m else (newRows batch).lookup k) →
        landFrom (merge d) (s.get key) ((newRows batch).lookup key) (row :: landing rows key) =
          landFrom (merge d) (s.get key) (some m) (landing rows key) →
        ((newRows out.1).map Prod.fst).Nodup ∧ (∀ c ∈ out.1, c.KeepsKey) ∧
        ∀ k, landFrom (merge d) (s.get k) ((newRows batch).lookup k)
          (landing ((key, row) :: rows) k) = .ok ((newRows out.1).lookup k) := by
      intro batch' n' m hrun hnodup' hkeeps' hlookup hland
      obtain ⟨hout, houtKeeps, hrest⟩ := ih hrun hnodup' hkeeps'
      refine ⟨hout, houtKeeps, fun k => ?_⟩
      have hk := hrest k
      rw [hlookup k] at hk
      by_cases hkey : k = key
      · subst hkey
        rw [if_pos rfl] at hk
        rw [landing_cons_self, hland, hk]
      · rw [if_neg hkey] at hk
        rw [landing_cons_ne (Ne.symm hkey), hk]
    cases hwritten : (newRows batch).lookup key with
    | some r =>
      rw [hwritten] at h hstep
      obtain ⟨m, hmerged, h⟩ := except_bind_ok h
      refine hstep _ _ m h (by rw [newRows_replace, keys_replace]; exact hnodup)
        (keepsKey_replace hkeeps key m) (fun k => ?_) ?_
      · rw [newRows_replace, lookup_replace]
        by_cases hk : k = key
        · rw [if_pos hk, if_pos hk, hk, hwritten]
          rfl
        · rw [if_neg hk, if_neg hk]
      · rw [landFrom, hmerged]
        rfl
    | none =>
      rw [hwritten] at h hstep
      simp only [Option.map_none] at h
      have happend : ∀ (old : Option Row) (m : Row),
          ((newRows (batch ++ [⟨old.map (key, ·), some (key, m)⟩])).map Prod.fst).Nodup ∧
          (∀ c ∈ batch ++ [⟨old.map (key, ·), some (key, m)⟩], c.KeepsKey) ∧
          ∀ k, (newRows (batch ++ [⟨old.map (key, ·), some (key, m)⟩])).lookup k =
            if k = key then some m else (newRows batch).lookup k := by
        intro old m
        have hnew : newRows (batch ++ [⟨old.map (key, ·), some (key, m)⟩]) =
            newRows batch ++ [(key, m)] := by simp [newRows]
        rw [hnew]
        refine ⟨?_, fun c hc => ?_, fun k => ?_⟩
        · rw [map_append]
          exact hnodup.append (by simp) (by simpa using not_mem_of_lookup hwritten)
        · rcases mem_append.mp hc with hc | hc
          · exact hkeeps c hc
          · rw [mem_singleton.mp hc]
            intro e he
            obtain ⟨_, -, rfl⟩ := Option.map_eq_some_iff.mp he
            rfl
        · rw [lookup_append]
          by_cases hk : k = key
          · subst hk
            simp [hwritten]
          · have hne : (k == key) = false := by simpa using hk
            simp [hk, lookup_cons, hne]
      cases hstored : s.get key with
      | none =>
        rw [hstored] at h hstep
        exact hstep _ _ row h (happend none row).1 (happend none row).2.1 (happend none row).2.2 rfl
      | some c =>
        rw [hstored] at h hstep
        obtain ⟨old, hold, h⟩ := except_bind_ok h
        obtain ⟨m, hmerged, h⟩ := except_bind_ok h
        refine hstep _ _ m h (happend (some old) m).1 (happend (some old) m).2.1
          (happend (some old) m).2.2 ?_
        rw [landFrom, hold]
        simp only [bind, Except.bind, hmerged]

/-! ## Rows pointed at the rows they collide with -/

variable {owners : List (Bytes × Bytes)}

/-- The conflict is that of the row key, if there is one, and the owner of every owned probe. -/
theorem conflictOf_ok {probes : List Bytes} {first conflict : Option Bytes}
    (h : conflictOf owners first probes = .ok conflict) :
    (∀ k, first = some k → conflict = some k) ∧
    (∀ p ∈ probes, ∀ w, owners.lookup p = some w → conflict = some w) ∧
    ∀ k, conflict = some k → first = some k ∨ ∃ p ∈ probes, owners.lookup p = some k := by
  induction probes generalizing first with
  | nil =>
    cases h
    exact ⟨fun _ hk => hk, nofun, fun _ hk => .inl hk⟩
  | cons p ps ih =>
    cases howner : owners.lookup p with
    | none =>
      simp only [conflictOf, howner] at h
      obtain ⟨hfirst, hprobes, horigin⟩ := ih h
      refine ⟨hfirst, forall_mem_cons.mpr ⟨fun w hw => ?_, hprobes⟩, fun k hk => ?_⟩
      · exact nomatch howner.symm.trans hw
      · exact (horigin k hk).imp_right fun ⟨q, hq, hw⟩ => ⟨q, mem_cons_of_mem _ hq, hw⟩
    | some owner =>
      -- Either way the rest is checked against this owner.
      have hrest : conflictOf owners (some owner) ps = .ok conflict ∧
          (first = none ∨ first = some owner) := by
        cases first with
        | none =>
          simp only [conflictOf, howner] at h
          exact ⟨h, .inl rfl⟩
        | some k =>
          simp only [conflictOf, howner] at h
          split at h
          case isTrue hk => exact ⟨hk ▸ h, .inr (by rw [hk])⟩
          case isFalse => exact nomatch h
      obtain ⟨hkeep, hprobes, horigin⟩ := ih hrest.1
      have howned := hkeep owner rfl
      refine ⟨fun k hk => ?_, forall_mem_cons.mpr ⟨fun w hw => ?_, hprobes⟩, fun k hk => ?_⟩
      · rcases hrest.2 with hnone | hsome
        · exact nomatch hnone.symm.trans hk
        · rw [howned, ← hsome, hk]
      · rw [howned, ← howner, hw]
      · rw [howned] at hk
        exact .inr ⟨p, mem_cons_self, howner.trans hk⟩

theorem lookup_addOwners (owners : List (Bytes × Bytes)) (probes : List Bytes) (key p : Bytes) :
    (addOwners owners probes key).lookup p =
      (owners.lookup p).or (if p ∈ probes then some key else none) := by
  rw [addOwners, lookup_append]
  cases howner : owners.lookup p with
  | some w => rfl
  | none =>
    induction probes with
    | nil => rfl
    | cons q probes ih =>
      rw [filter_cons]
      by_cases hq : p = q
      · subst hq
        simp [howner]
      · have hne : (p == q) = false := by simpa using hq
        split
        case isTrue => simp [lookup_cons, hne, hq, ih]
        case isFalse => simp [hq, ih]

/-- Some owner of each probe is the key that every row with this probe lands on. -/
theorem remapRows_owner {cs : List Candidate} (h : remapRows owners cs = .ok rows) :
    ∃ own : List (Bytes × Bytes), (∀ p w, owners.lookup p = some w → own.lookup p = some w) ∧
      List.Forall₂ (fun c e => e.2 = c.row ∧ ∀ p ∈ c.probes, own.lookup p = some e.1) cs rows := by
  induction cs generalizing owners rows with
  | nil =>
    cases h
    exact ⟨owners, fun _ _ hw => hw, .nil⟩
  | cons c cs ih =>
    obtain ⟨conflict, hconflict, h⟩ := except_bind_ok h
    obtain ⟨rest, hrest, h⟩ := except_bind_ok h
    cases h
    obtain ⟨own, hext, hall⟩ := ih hrest
    refine ⟨own, fun p w hw => hext p w ?_, .cons ⟨rfl, fun p hp => hext p _ ?_⟩ hall⟩
    · rw [lookup_addOwners, hw, Option.some_or]
    · rw [lookup_addOwners]
      cases howner : owners.lookup p with
      | none => rw [if_pos hp, Option.none_or]
      | some w => rw [(conflictOf_ok hconflict).2.1 p hp w howner]; rfl

/-- A row lands on its own key, on the owner of one of its probes, or where an earlier row does. -/
theorem remapRows_key {cs : List Candidate} (h : remapRows owners cs = .ok rows) {i : Nat}
    {e : Bytes × Row} (he : rows[i]? = some e) :
    ∃ c, cs[i]? = some c ∧ e.2 = c.row ∧
      (e.1 = c.key ∨ (∃ p ∈ c.probes, owners.lookup p = some e.1) ∨
        ∃ j, j < i ∧ ∃ e', rows[j]? = some e' ∧ e'.1 = e.1) := by
  induction cs generalizing owners rows i with
  | nil =>
    cases h
    exact nomatch he
  | cons c' cs ih =>
    obtain ⟨conflict, hconflict, h⟩ := except_bind_ok h
    obtain ⟨rest, hrest, h⟩ := except_bind_ok h
    cases h
    cases i with
    | zero =>
      cases he
      refine ⟨c', rfl, rfl, ?_⟩
      cases hk : conflict with
      | none => exact .inl rfl
      | some k =>
        rcases (conflictOf_ok hconflict).2.2 k hk with hstored | howned
        · obtain ⟨_, -, hkey⟩ := Option.map_eq_some_iff.mp hstored
          exact .inl hkey.symm
        · exact .inr (.inl howned)
    | succ i =>
      obtain ⟨c, hc, hrow, hcases⟩ := ih hrest he
      refine ⟨c, hc, hrow, ?_⟩
      rcases hcases with hkey | ⟨p, hp, howner⟩ | ⟨j, hj, e', he', hsame⟩
      · exact .inl hkey
      · rw [lookup_addOwners] at howner
        cases hold : owners.lookup p with
        | some w =>
          rw [hold] at howner
          exact .inr (.inl ⟨p, hp, hold.trans howner⟩)
        | none =>
          rw [hold] at howner
          split at howner
          case isTrue =>
            exact .inr (.inr ⟨0, Nat.succ_pos i, _, rfl, Option.some.inj howner⟩)
          case isFalse => exact nomatch howner
      · exact .inr (.inr ⟨j + 1, Nat.succ_lt_succ hj, e', he', hsame⟩)

/-- The first row that lands on a key. -/
theorem landing_head {rest : List Row} (h : landing rows k = r :: rest) :
    ∃ i : Nat, rows[i]? = some (k, r) ∧ ∀ j < i, ∀ e : Bytes × Row, rows[j]? = some e →
      e.1 ≠ k := by
  induction rows with
  | nil => exact nomatch h
  | cons x rows ih =>
    obtain ⟨k', r'⟩ := x
    by_cases hk : k' = k
    · subst hk
      rw [landing_cons_self] at h
      cases h
      exact ⟨0, rfl, fun j hj => absurd hj (Nat.not_lt_zero j)⟩
    · rw [landing_cons_ne hk] at h
      obtain ⟨i, hi, hbefore⟩ := ih h
      refine ⟨i + 1, hi, fun j hj e he => ?_⟩
      cases j with
      | zero =>
        cases he
        exact hk
      | succ j => exact hbefore j (Nat.lt_of_succ_lt_succ hj) e he

theorem lookup_probeOwners (s : Store) (probes : List Bytes) (p : Bytes) :
    (probeOwners probes (probes.map s.get)).lookup p =
      if p ∈ probes then (s.get p).bind fun c => match c with | .entry w => some w | _ => none
      else none := by
  induction probes with
  | nil => rfl
  | cons q probes ih =>
    have htail : probeOwners (q :: probes) ((q :: probes).map s.get) =
        ((s.get q).bind fun c => match c with | .entry w => some (q, w) | _ => none).toList ++
          probeOwners probes (probes.map s.get) := by
      simp only [map_cons]
      cases s.get q with
      | none => rfl
      | some c => cases c <;> rfl
    rw [htail, lookup_append, ih]
    by_cases hp : p = q
    · subst hp
      cases hget : s.get p with
      | none => simp
      | some c => cases c <;> simp
    · have hne : (p == q) = false := by simpa using hp
      cases hget : s.get q with
      | none => simp [hp]
      | some c => cases c <;> simp [hp, hne]

end

end ElyraSql.Engine
