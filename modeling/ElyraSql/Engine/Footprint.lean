import ElyraSql.Engine.ReadLoops

/-!
# Keyspaces of tables, and which keys the readers look at

The rows and the index entries of a table lie under three prefixes that are made of its physical
name and the separator `::`. A name may contain the separator, so one table's prefix can be the
beginning of another's. The readers of a table stay under its own prefixes, as long as the entries
of its indexes hold keys of its own rows.
-/

namespace ElyraSql.Engine

open ReadProgram OrderedMap List Prog TxnState Except KeyOrder Option

/-! ## Keyspaces -/

/-- Keys of the rows, the index entries and the NULL entries of a table. -/
def InSpace (d : TableDef) (k : Bytes) : Prop := IsRowKey d k ∨ IsIndexKey d k

/-- One physical name, ended by the separator, is the beginning of another one. -/
def NamesClash (x y : Text) : Prop := utf8 x ++ ascii [':', ':'] <+: utf8 y ++ ascii [':', ':']

instance (x y : Text) : Decidable (NamesClash x y) := inferInstanceAs (Decidable (_ <+: _))

def Apart (a b : TableDef) : Prop :=
  ¬ NamesClash a.storageName b.storageName ∧ ¬ NamesClash b.storageName a.storageName

theorem utf8_injective : Function.Injective utf8 := by
  intro x y h
  have hbytes : x.flatMap String.utf8EncodeChar = y.flatMap String.utf8EncodeChar := by
    rw [utf8, utf8, ← map_flatMap, ← map_flatMap] at h
    exact map_injective_iff.mpr (fun _ _ => UInt8.toFin_inj.mp) h
  have hencode : x.utf8Encode = y.utf8Encode := by
    rw [List.utf8Encode, List.utf8Encode, hbytes]
  have hdecode := congrArg ByteArray.utf8Decode? hencode
  simpa using hdecode

variable {k : Bytes}

/-- Two keyspaces of the same kind meet only where one name is the beginning of the other. -/
theorem clash_of_common {tag : Bytes} {x y : Text} (hx : tag ++ utf8 x ++ ascii [':', ':'] <+: k)
    (hy : tag ++ utf8 y ++ ascii [':', ':'] <+: k) : NamesClash x y ∨ NamesClash y x := by
  rw [append_assoc] at hx hy
  rcases List.prefix_or_prefix_of_prefix hx hy with h | h
  · exact .inl ((prefix_append_right_inj tag).mp h)
  · exact .inr ((prefix_append_right_inj tag).mp h)

theorem index_ne_indexnull {x y : Text} (hx : indexTablePrefix x <+: k)
    (hy : indexnullTablePrefix y <+: k) : False := by
  obtain ⟨t, rfl⟩ := hx
  obtain ⟨t', ht⟩ := hy
  have h : (58 : Byte) = 110 := by
    have h5 := congrArg (fun l : Bytes => l[5]?) ht
    exact some.inj h5.symm
  exact absurd h (by decide)

variable {a : TableDef}

theorem Apart.disjoint {b : TableDef} (h : Apart a b) (ha : InSpace a k) : ¬ InSpace b k := by
  intro hb
  have hclash : NamesClash a.storageName b.storageName ∨
      NamesClash b.storageName a.storageName := by
    rcases ha with ha | ha <;> rcases hb with hb | hb
    · exact clash_of_common ha hb
    · exact absurd ((head_of_rowKey ha).symm.trans (head_of_indexKey hb)) (by decide)
    · exact absurd ((head_of_indexKey ha).symm.trans (head_of_rowKey hb)) (by decide)
    · rcases ha with ha | ha <;> rcases hb with hb | hb
      · exact clash_of_common ha hb
      · exact (index_ne_indexnull ha hb).elim
      · exact (index_ne_indexnull hb ha).elim
      · exact clash_of_common ha hb
  exact hclash.elim h.1 h.2

theorem NamesClash.dataPrefix {b : TableDef} (h : NamesClash a.storageName b.storageName) :
    a.dataPrefix <+: b.dataPrefix := by
  rw [TableDef.dataPrefix, TableDef.dataPrefix, dataPrefixOf, dataPrefixOf, append_assoc]
  exact (prefix_append_right_inj _).mpr h

/-! ## What a question looks at -/

/-- The keys an answer depends on. A batch is taken from the keys under the prefix if it starts
there. -/
def Query.Touches : Query → Bytes → Prop
  | .get k', k => k = k'
  | .multiGet ks, k => k ∈ ks
  | .scanBatch pfx after _, k => (∀ a, after = some a → pfx <+: a) → pfx <+: k
  | .scanRange start stop _, k => inRange start stop k = true

/-- The table of a definition: its name and its generation. -/
structure SameTable (a d : TableDef) : Prop where
  name : d.name = a.name
  generation : d.storageGeneration = a.storageGeneration

def generationOf : Option Cell → UInt64
  | some (.counter n) => n
  | _ => 0

/-- The store as the statements on a table leave it: the catalog defines the table under its own
name, and the entries of its indexes hold keys of its rows. -/
structure Owned (a : TableDef) (s : Store) : Prop where
  named : ∀ d, s.get (catalogKey a.name) = some (.table d) → d.name = a.name
  generation : generationOf (s.get (generationKey a.name)) = a.storageGeneration
  entries : ∀ k dk, IsIndexKey a k → s.get k = some (.entry dk) → IsRowKey a dk

section
variable {d : TableDef} (h : SameTable a d)
include h

theorem SameTable.storageName : d.storageName = a.storageName := by
  rw [TableDef.storageName, TableDef.storageName, h.name, h.generation]

theorem SameTable.isRowKey : IsRowKey d = IsRowKey a := by
  unfold IsRowKey TableDef.dataPrefix
  rw [h.storageName]

theorem SameTable.isIndexKey : IsIndexKey d = IsIndexKey a := by
  unfold IsIndexKey
  rw [h.storageName]

theorem SameTable.inSpace : InSpace d = InSpace a := by
  unfold InSpace
  rw [h.isRowKey, h.isIndexKey]

theorem SameTable.owned {s : Store} (hs : Owned a s) : Owned d s where
  named d' := by
    rw [h.name]
    exact hs.named d'
  generation := by
    rw [h.name, h.generation]
    exact hs.generation
  entries := by
    rw [h.isRowKey, h.isIndexKey]
    exact hs.entries

theorem SameTable.symm : SameTable d a :=
  ⟨h.name.symm, h.generation.symm⟩

/-- An answer from the store as the statements on the table leave it. -/
def Given (d : TableDef) (q : Query) (r : q.Answer) : Prop := ∃ s, Owned d s ∧ answer s q = r

theorem SameTable.given : Given a = Given d := by
  funext q r
  refine propext ⟨?_, ?_⟩
  · rintro ⟨s, hs, hr⟩
    exact ⟨s, h.owned hs, hr⟩
  · rintro ⟨s, hs, hr⟩
    exact ⟨s, h.symm.owned hs, hr⟩

end

/-! ## Reading one table -/

/-- Keys of rows and entries that are not this table's. -/
def Foreign (d : TableDef) (F : Bytes → Prop) : Prop :=
  ∀ k, F k → ¬ InSpace d k ∧ (k.head? = some 100 ∨ k.head? = some 105)

/-- A question that looks at none of the keys. -/
def Outside (F : Bytes → Prop) (q : Query) : Prop := ∀ k, q.Touches k → ¬ F k

/-- On answers that the table's store can give, the program looks at none of the keys. -/
abbrev Stays {α : Type} (F : Bytes → Prop) (d : TableDef) (P : α → Prop) (p : Read α) : Prop :=
  p.Safe (Outside F) (Given d) P

section Reading

variable {d : TableDef} {F : Bytes → Prop} {σ : Type}

theorem Foreign.not_own (hF : Foreign d F) (hk : InSpace d k) : ¬ F k :=
  fun h => (hF k h).1 hk

theorem Foreign.not_head (hF : Foreign d F) {c : Byte} (hk : k.head? = some c) (hd : c ≠ 100)
    (hi : c ≠ 105) : ¬ F k := by
  intro h
  rcases (hF k h).2 with hh | hh
  · exact hd (some.inj (hk.symm.trans hh))
  · exact hi (some.inj (hk.symm.trans hh))

theorem SameTable.foreign (h : SameTable a d) (hF : Foreign a F) : Foreign d F := by
  unfold Foreign
  rw [h.inSpace]
  exact hF

/-- A stored pair that an answer can show. -/
def Stored (d : TableDef) (e : Bytes × Cell) : Prop := ∃ s, Owned d s ∧ s.get e.1 = some e.2

variable {f : σ → Bytes × Cell → Except Error (Bool × σ)}
variable {I : σ → Prop}

theorem foldRows_keeps {l : List (Bytes × Cell)} {st : σ} {r : Bool × σ}
    (hf : ∀ e ∈ l, ∀ st r, I st → f st e = .ok r → I r.2) (hst : I st)
    (h : foldRows f st l = .ok r) : I r.2 := by
  induction l generalizing st with
  | nil =>
    cases h
    exact hst
  | cons e l ih =>
    obtain ⟨he, hl⟩ := forall_mem_cons.mp hf
    obtain ⟨r', hfe, h⟩ := except_bind_ok h
    split_ifs at h with hstop
    · cases h
      exact he st _ hst hfe
    · exact ih hl (he st r' hst hfe) h

variable {e : Bytes × Cell} {pfx : Bytes}
variable {r : List (Bytes × Cell)} {cursor : Option Bytes} {start stop : Bytes}

theorem scanBatch_given {limit : Nat} (hc : ∀ a, cursor = some a → pfx <+: a)
    (h : Given d (.scanBatch pfx cursor limit) r) (he : e ∈ r) : Stored d e ∧ pfx <+: e.1 := by
  obtain ⟨s, hs, rfl⟩ := h
  rw [answer_scanBatch hc] at he
  obtain ⟨hget, hp⟩ := OMap.mem_list.mp (mem_of_mem_take he)
  rw [Bool.and_eq_true, List.isPrefixOf_iff_prefix] at hp
  exact ⟨⟨s, hs, hget⟩, hp.1⟩

theorem scanRange_given {limit : Nat} (h : Given d (.scanRange start (some stop) limit) r)
    (he : e ∈ r) : Stored d e ∧ start ≤ e.1 ∧ e.1 < stop := by
  obtain ⟨s, hs, rfl⟩ := h
  obtain ⟨hget, hp⟩ := OMap.mem_list.mp (mem_of_mem_take he)
  obtain ⟨hlo, hhi⟩ := inRange_iff.mp hp
  exact ⟨⟨s, hs, hget⟩, hlo, hhi stop rfl⟩

variable {fuel : Nat}

/-- A loop over a prefix asks for keys under it. -/
theorem safe_scanLoop (hp : ∀ k, pfx <+: k → ¬ F k)
    (hf : ∀ e, Stored d e → pfx <+: e.1 → ∀ st r, I st → f st e = .ok r → I r.2)
    (hc : ∀ a, cursor = some a → pfx <+: a) {st : σ} (hst : I st) :
    Stays F d I (scanLoop pfx f fuel cursor st) := by
  induction fuel generalizing cursor st with
  | zero => trivial
  | succ fuel ih =>
    refine Prog.Safe.bind (safe_query fun k hk => hp k (hk hc)) fun chunk hchunk => ?_
    have hmem : ∀ e ∈ chunk, Stored d e ∧ pfx <+: e.1 := fun e he => scanBatch_given hc hchunk he
    split_ifs
    · exact safe_pure hst
    · refine safe_lift_bind fun r hr => ?_
      have hr := foldRows_keeps (fun e he => hf e (hmem e he).1 (hmem e he).2) hst hr
      split_ifs
      · exact safe_pure hr
      · refine ih (fun a ha => ?_) hr
        obtain ⟨e, he, rfl⟩ := map_eq_some_iff.mp ha
        exact (hmem e (mem_of_getLast? he)).2

theorem safe_rangeLoop {lo : Bytes} (hp : ∀ k, lo ≤ k → k < stop → ¬ F k)
    (hf : ∀ e, Stored d e → lo ≤ e.1 → e.1 < stop → ∀ st r, I st → f st e = .ok r → I r.2)
    (hlo : lo ≤ start) {st : σ} (hst : I st) : Stays F d I (rangeLoop stop f fuel start st) := by
  induction fuel generalizing start st with
  | zero => trivial
  | succ fuel ih =>
    refine Prog.Safe.bind (safe_query fun k hk => ?_) fun batch hbatch => ?_
    · obtain ⟨h1, h2⟩ := inRange_iff.mp hk
      exact hp k (hlo.trans h1) (h2 stop rfl)
    · have hmem : ∀ e ∈ batch, Stored d e ∧ start ≤ e.1 ∧ e.1 < stop :=
        fun e he => scanRange_given hbatch he
      split
      case h_1 => exact safe_pure hst
      case h_2 last hlast =>
        refine safe_lift_bind fun r hr => ?_
        have hr := foldRows_keeps
          (fun e he => hf e (hmem e he).1 (hlo.trans (hmem e he).2.1) (hmem e he).2.2) hst hr
        split_ifs
        · exact safe_pure hr
        · have h := (hmem last (mem_of_getLast? hlast)).2.1
          exact ih ((hlo.trans h).trans (le_append last.1 [0])) hr

/-! ### Readers -/

/-- Keys of rows of the table. -/
def KeysOwn (d : TableDef) (keys : List Bytes) : Prop := ∀ k ∈ keys, IsRowKey d k

def RowsOwn (d : TableDef) (rows : List (Bytes × Row)) : Prop := ∀ e ∈ rows, IsRowKey d e.1

theorem Stored.entry (h : Stored d e) (hk : IsIndexKey d e.1) {dk : Bytes} (he : e.2 = .entry dk) :
    IsRowKey d dk := by
  obtain ⟨s, hs, hget⟩ := h
  rw [he] at hget
  exact hs.entries e.1 dk hk hget

theorem pushEntry_own (h : Stored d e) (hk : IsIndexKey d e.1) (keys : List Bytes)
    (r : Bool × List Bytes) (hkeys : KeysOwn d keys) (hr : pushEntry keys e = .ok r) :
    KeysOwn d r.2 := by
  obtain ⟨key, cell⟩ := e
  cases cell with
  | entry dk =>
    cases hr
    exact forall_mem_append.mpr ⟨hkeys, forall_mem_singleton.mpr (h.entry hk rfl)⟩
  | row | table | counter => exact nomatch hr

theorem pushRow_own (hk : IsRowKey d e.1) (rows : List (Bytes × Row))
    (r : Bool × List (Bytes × Row)) (hrows : RowsOwn d rows) (hr : pushRow rows e = .ok r) :
    RowsOwn d r.2 := by
  obtain ⟨key, cell⟩ := e
  cases cell with
  | row x =>
    cases hr
    exact forall_mem_append.mpr ⟨hrows, forall_mem_singleton.mpr hk⟩
  | entry | table | counter => exact nomatch hr

variable {index : Text}

theorem isIndexKey_of_extends {storage : Text} {rest : Bytes} (hs : storage = d.storageName)
    (h : indexPrefix storage index ++ rest <+: k) : IsIndexKey d k := by
  obtain ⟨t, rfl⟩ := h
  rw [hs, append_assoc]
  exact isIndexKey_indexPrefix d index _

/-- An end of a range under a prefix: a key under it, or the bound of such keys. -/
def EndsUnder (pfx stop : Bytes) : Prop :=
  pfx <+: stop ∨ ∃ e, stop = prefixUpperBound (pfx ++ e)

theorem EndsUnder.isPrefix (h : EndsUnder pfx stop) (hlow : hasLow pfx = true)
    (hlo : pfx ≤ k) (hhi : k < stop) : pfx <+: k := by
  rcases h with ⟨t, rfl⟩ | ⟨e, rfl⟩
  · exact LexOrder.isPrefix_of_between hlo (le_of_lt hhi)
  · rcases lt_or_ge k (pfx ++ e) with hlt | hge
    · exact LexOrder.isPrefix_of_between hlo (le_of_lt hlt)
    · have hlow' : hasLow (pfx ++ e) = true := by
        rw [hasLow, any_append, Bool.or_eq_true]
        exact .inl hlow
      exact (prefix_append pfx e).trans
        ((TxnState.ScanLemmas.prefixUpperBound_spec hlow').mp ⟨hge, hhi⟩)

section
variable {env : Env} {mark : Bytes} {coll : Collation} {bound : Env.Bound} {beyond : Bool → Bool}

theorem rangeEnd_cases {dflt r : Bytes} (h : env.rangeEnd pfx coll bound beyond mark dflt = .ok r) :
    r = dflt ∨ pfx <+: r := by
  cases bound with
  | none =>
    cases h
    exact .inl rfl
  | some v =>
    obtain ⟨b, -, h⟩ := except_bind_ok h
    cases h
    rw [append_assoc]
    exact .inr (prefix_append _ _)

theorem rangeEnd_start (h : env.rangeEnd pfx coll bound beyond mark pfx = .ok start) :
    pfx ≤ start := by
  rcases rangeEnd_cases h with rfl | ⟨t, rfl⟩
  · exact le_refl _
  · exact le_append _ _

theorem rangeEnd_stop
    (h : env.rangeEnd pfx coll bound beyond mark (prefixUpperBound pfx) = .ok stop) :
    EndsUnder pfx stop :=
  (rangeEnd_cases h).symm.imp_right fun h => ⟨[], by rw [h, append_nil]⟩

end

variable (hF : Foreign d F)
include hF

theorem safe_entries {rest : Bytes} : Stays F d (KeysOwn d)
      (scanLoop (indexPrefix d.storageName index ++ rest) pushEntry fuel none []) := by
  refine safe_scanLoop (fun k hk => hF.not_own (.inr (isIndexKey_of_extends rfl hk)))
    (fun e he hk => pushEntry_own he (isIndexKey_of_extends rfl hk)) ?_ ?_ <;> exact nofun

theorem safe_rangeEntries {e : Bytes} (hlo : indexPrefix d.storageName index ++ e ≤ start)
    (hstop : EndsUnder (indexPrefix d.storageName index ++ e) stop) :
    Stays F d (KeysOwn d) (rangeLoop stop pushEntry fuel start []) := by
  have hkey : ∀ k, indexPrefix d.storageName index ++ e ≤ k → k < stop → IsIndexKey d k :=
    fun k h1 h2 => isIndexKey_of_extends rfl (hstop.isPrefix rfl h1 h2)
  exact safe_rangeLoop (fun k h1 h2 => hF.not_own (.inr (hkey k h1 h2)))
    (fun x hx h1 h2 => pushEntry_own hx (hkey x.1 h1 h2)) hlo (fun k hk => nomatch hk)

omit hF

namespace Env

variable {env : Env} {idx : IndexDef} {values : List Value} {lo hi : Bound}
  {rows : List (Bytes × Row)}
  {keys : List Bytes} {schema : List Column} {limit : Option Nat} {filter : Option Expr}

theorem prefixRange_stop {equality lower : Bytes} {bound : Value → Except Error Bytes}
    (hb : ∀ v z, bound v = .ok z → equality <+: z) (h : (match hi with
      | some (v, true) => do
        let stop ← (bound v).map prefixUpperBound
        if stop ≤ lower then .ok none else .ok (some (lower, stop))
      | some (v, false) => do
        let stop ← bound v
        if stop ≤ lower then .ok none else .ok (some (lower, stop))
      | none => do
        let stop ← .ok (prefixUpperBound equality)
        if stop ≤ lower then .ok none else .ok (some (lower, stop))) =
      (.ok (some (start, stop)) : Except Error (Option (Bytes × Bytes)))) :
    start = lower ∧ EndsUnder equality stop := by
  have hpair : ∀ {stop' : Bytes}, (if stop' ≤ lower then .ok none
      else .ok (some (lower, stop')) : Except Error (Option (Bytes × Bytes))) =
        .ok (some (start, stop)) →
      start = lower ∧ stop = stop' := by
    intro stop' hif
    split_ifs at hif with hle
    · exact nomatch ok.inj hif
    · obtain ⟨h1, h2⟩ := Prod.mk.inj (some.inj (ok.inj hif))
      exact ⟨h1.symm, h2.symm⟩
  split at h
  case h_1 v =>
    obtain ⟨stop', hv, h⟩ := except_bind_ok h
    obtain ⟨rfl, rfl⟩ := hpair h
    obtain ⟨z, hz, rfl⟩ := except_map_ok hv
    obtain ⟨e, rfl⟩ := hb v z hz
    exact ⟨rfl, .inr ⟨e, rfl⟩⟩
  case h_2 v =>
    obtain ⟨stop', hv, h⟩ := except_bind_ok h
    obtain ⟨rfl, rfl⟩ := hpair h
    exact ⟨rfl, .inl (hb v _ hv)⟩
  case h_3 =>
    obtain ⟨stop', hv, h⟩ := except_bind_ok h
    obtain ⟨rfl, rfl⟩ := hpair h
    refine ⟨rfl, .inr ⟨[], ?_⟩⟩
    rw [append_nil]
    exact (ok.inj hv).symm

/-- The bounds of a composite range lie under the prefix of its equalities. -/
theorem prefixRangeScanBounds_under {storage : Text}
    (h : env.prefixRangeScanBounds storage idx values lo hi = .ok (some (start, stop))) :
    ∃ e, indexPrefix storage idx.name ++ e ≤ start ∧
      EndsUnder (indexPrefix storage idx.name ++ e) stop := by
  have hbind := except_bind_ok h
  clear h
  obtain ⟨encoded, -, h⟩ := hbind
  refine ⟨encoded, ?_⟩
  have hb : ∀ v z, (env.encodeColl (idx.colCollations.getD values.length .ci) v).map
      (indexPrefix storage idx.name ++ encoded ++ ·) = .ok z →
      indexPrefix storage idx.name ++ encoded <+: z := by
    intro v z hz
    obtain ⟨b, -, rfl⟩ := except_map_ok hz
    exact ⟨b, rfl⟩
  dsimp only at h
  split at h
  case h_1 v =>
    obtain ⟨lower, hv, h⟩ := except_bind_ok h
    obtain ⟨rfl, hstop⟩ := prefixRange_stop hb h
    obtain ⟨t, rfl⟩ := hb v _ hv
    exact ⟨le_append _ t, hstop⟩
  case h_2 v =>
    obtain ⟨lower, hv, h⟩ := except_bind_ok h
    obtain ⟨rfl, hstop⟩ := prefixRange_stop hb h
    obtain ⟨z, hz, rfl⟩ := except_map_ok hv
    obtain ⟨t, rfl⟩ := hb v _ hz
    have hlt := ((TxnState.ScanLemmas.prefixUpperBound_spec rfl).mpr
      (prefix_refl (indexPrefix storage idx.name ++ encoded ++ t))).2
    exact ⟨(le_append _ t).trans (le_of_lt hlt), hstop⟩
  case h_3 =>
    obtain ⟨lower, hv, h⟩ := except_bind_ok h
    obtain ⟨rfl, hstop⟩ := prefixRange_stop hb h
    exact ⟨le_of_eq (ok.inj hv), hstop⟩

theorem isRowKey_dataKey (encoded : Bytes) : IsRowKey d (d.dataKey encoded) :=
  prefix_append _ _

theorem decodeFound_own {l : List (Bytes × Option Cell)} (hl : ∀ e ∈ l, IsRowKey d e.1)
    (h : decodeFound l = .ok rows) : RowsOwn d rows := by
  induction l generalizing rows with
  | nil =>
    cases h
    exact nofun
  | cons e l ih =>
    obtain ⟨he, hrest⟩ := forall_mem_cons.mp hl
    obtain ⟨k, c⟩ := e
    cases c with
    | none => exact ih hrest h
    | some c =>
      obtain ⟨r, -, h⟩ := except_bind_ok h
      obtain ⟨rs, hrs, h⟩ := except_bind_ok h
      cases h
      exact forall_mem_cons.mpr ⟨he, ih hrest hrs⟩

/-! ### Matching rows -/

theorem keepRow_own (he : IsRowKey d e.1) (out : List (Bytes × Row)) (r : Bool × List (Bytes × Row))
    (hout : RowsOwn d out) (h : env.keepRow schema filter limit out e = .ok r) : RowsOwn d r.2 := by
  obtain ⟨row, -, h⟩ := except_bind_ok h
  obtain ⟨keep, -, h⟩ := except_bind_ok h
  split_ifs at h
  · cases h
    exact forall_mem_append.mpr ⟨hout, forall_mem_singleton.mpr he⟩
  · cases h
    exact hout

theorem selectRows_own {candidates : List (Bytes × Cell)} (hc : ∀ e ∈ candidates, IsRowKey d e.1)
    (h : env.selectRows schema filter limit candidates = .ok rows) : RowsOwn d rows := by
  obtain ⟨r, hfold, rfl⟩ := except_map_ok h
  have hnil : RowsOwn d [] := nofun
  exact foldRows_keeps (fun e he => keepRow_own (hc e he)) hnil hfold

theorem safe_selectFetched (hrows : RowsOwn d rows) :
    Stays F d (RowsOwn d) (env.selectFetched schema filter limit rows) := by
  refine safe_lift fun out h => selectRows_own (fun e he => ?_) h
  obtain ⟨x, hx, rfl⟩ := mem_map.mp he
  exact hrows x hx

theorem mem_foundCells {cells : List (Option Cell)} (h : e ∈ foundCells keys cells) :
    e.1 ∈ keys := by
  obtain ⟨x, hx, he⟩ := mem_filterMap.mp h
  obtain ⟨c, -, rfl⟩ := map_eq_some_iff.mp he
  exact (of_mem_zip hx).1

theorem mem_pushNew {more : List Bytes} (h : k ∈ pushNew keys more) : k ∈ keys ∨ k ∈ more := by
  induction more generalizing keys with
  | nil => exact .inl h
  | cons m more ih =>
    rcases ih h with hk | hk
    · dsimp only at hk
      split_ifs at hk
      · exact .inl hk
      · rcases mem_append.mp hk with hk | hk
        · exact .inl hk
        · exact .inr (mem_cons.mpr (.inl (mem_singleton.mp hk)))
    · exact .inr (mem_cons_of_mem m hk)

theorem pushNew_own {more : List Bytes} (hk : KeysOwn d keys) (hm : KeysOwn d more) :
    KeysOwn d (pushNew keys more) :=
  fun k h => (mem_pushNew h).elim (hk k) (hm k)

include hF

theorem safe_lookupEq : Stays F d (KeysOwn d) (env.lookupEq fuel d.storageName idx values) := by
  refine safe_lift_bind fun encoded _ => ?_
  rw [append_assoc]
  exact safe_entries hF

theorem safe_fulltextLookup {term : Text} :
    Stays F d (KeysOwn d) (fulltextLookup fuel d.storageName index term) := by
  rw [fulltextLookup, append_assoc]
  exact safe_entries hF

theorem safe_lookupRange :
    Stays F d (KeysOwn d) (env.lookupRange fuel d.storageName idx lo hi) := by
  refine safe_lift_bind fun start hstart => ?_
  refine safe_lift_bind fun stop hstop => ?_
  rw [← append_nil (indexPrefix d.storageName idx.name)] at hstart hstop
  exact safe_rangeEntries hF (rangeEnd_start hstart) (rangeEnd_stop hstop)

theorem safe_lookupPrefixRange :
    Stays F d (KeysOwn d) (env.lookupPrefixRange fuel d.storageName idx values lo hi) := by
  refine safe_lift_bind fun bounds hbounds => ?_
  split
  case h_1 => exact safe_pure nofun
  case h_2 start stop =>
    obtain ⟨e, hlo, hstop⟩ := prefixRangeScanBounds_under hbounds
    exact safe_rangeEntries hF hlo hstop

theorem safe_get (hk : InSpace d k) : Stays F d (Given d (.get k)) (Read.get k) :=
  safe_query fun k' hk' => by
    rw [show k' = k from hk']
    exact hF.not_own hk

theorem safe_multiGet {ks : List Bytes} (hk : ∀ k ∈ ks, InSpace d k) :
    Stays F d (Given d (.multiGet ks)) (Read.multiGet ks) :=
  safe_query fun k h => hF.not_own (hk k h)

theorem safe_lookupKeysByEq {col : Nat} {v : Value} :
    Stays F d (KeysOwn d) (env.lookupKeysByEq fuel d col v) := by
  rw [lookupKeysByEq]
  split_ifs with hpk
  · refine safe_lift_bind fun encoded _ => ?_
    refine Prog.Safe.bind (safe_get hF (.inl (isRowKey_dataKey encoded))) fun found _ => ?_
    refine safe_pure fun k hk => ?_
    split_ifs at hk
    · rw [mem_singleton.mp hk]
      exact isRowKey_dataKey encoded
    · exact nomatch hk
  · split
    case h_1 => exact safe_pure nofun
    case h_2 idx _ => exact safe_lookupEq hF

theorem safe_clusteredRange : Stays F d (RowsOwn d) (env.clusteredRange fuel d lo hi) := by
  refine safe_lift_bind fun start hstart => ?_
  refine safe_lift_bind fun stop hstop => ?_
  have hkey : ∀ k, d.dataPrefix ≤ k → k < stop → IsRowKey d k :=
    fun k h1 h2 => (rangeEnd_stop hstop).isPrefix rfl h1 h2
  refine safe_rangeLoop (fun k h1 h2 => hF.not_own (.inl (hkey k h1 h2)))
    (fun x _ h1 h2 => pushRow_own (hkey x.1 h1 h2)) (rangeEnd_start hstart) ?_
  exact nofun

section

variable (hk : KeysOwn d keys)
include hk

theorem safe_fetchRows : Stays F d (RowsOwn d) (fetchRows keys) := by
  refine Prog.Safe.bind (safe_multiGet hF fun k h => .inl (hk k h)) fun blobs _ => ?_
  refine safe_lift fun rows h => decodeFound_own (fun e he => ?_) h
  exact hk e.1 (of_mem_zip he).1

theorem safe_fetchWithin {budget : Option Nat} :
    Stays F d (fun rows => ∀ r, rows = some r → RowsOwn d r) (fetchWithin budget keys) := by
  rw [fetchWithin]
  split_ifs
  · exact safe_pure nofun
  · refine Prog.Safe.bind (safe_fetchRows hF hk) fun rows hrows => safe_pure ?_
    rintro r ⟨⟩
    exact hrows

theorem safe_selectKeys : Stays F d (RowsOwn d) (env.selectKeys schema filter limit keys) := by
  refine Prog.Safe.bind (safe_multiGet hF fun k h => .inl (hk k h)) fun cells _ => ?_
  exact safe_lift fun rows h => selectRows_own (fun e he => hk e.1 (mem_foundCells he)) h

theorem safe_postings {stems : List Text} :
    Stays F d (KeysOwn d) (postings fuel d idx keys stems) := by
  induction stems generalizing keys with
  | nil => exact safe_pure hk
  | cons stem stems ih =>
    exact Prog.Safe.bind (safe_fulltextLookup hF) fun found hfound => ih (pushNew_own hk hfound)

theorem safe_listKeys {ch : Choices} {col : Nat} {vals : List Value} :
    Stays F d (fun r => ∀ ks, r = some ks → KeysOwn d ks) (env.listKeys ch d col keys vals) := by
  induction vals generalizing keys with
  | nil =>
    rintro ks ⟨⟩
    exact hk
  | cons v vals ih =>
    refine Prog.Safe.bind (safe_lookupKeysByEq hF) fun found hfound => ?_
    split_ifs
    · exact safe_pure nofun
    · exact ih (pushNew_own hk hfound)

end

variable {ch : Choices}

theorem safe_scanMatches : Stays F d (RowsOwn d) (env.scanMatches ch d filter limit) := by
  refine safe_scanLoop (fun k hk => hF.not_own (.inl hk)) (fun e _ hk => keepRow_own hk) ?_ ?_ <;>
    exact nofun

theorem safe_rangeMatches : Stays F d (RowsOwn d) (env.rangeMatches ch d filter limit) := by
  refine safe_lift_bind fun rq _ => ?_
  split
  case h_1 => exact safe_scanMatches hF
  case h_2 col lo hi =>
    split_ifs with hpk
    · exact Prog.Safe.bind (safe_clusteredRange hF) fun rows hrows => safe_selectFetched hrows
    · split
      case h_1 => exact safe_scanMatches hF
      case h_2 idx _ =>
        refine Prog.Safe.bind (safe_lookupRange hF) fun keys hkeys => ?_
        refine Prog.Safe.bind (safe_fetchWithin hF hkeys) fun rows hrows => ?_
        split
        case h_1 rows => exact safe_selectFetched (hrows rows rfl)
        case h_2 => exact safe_scanMatches hF

theorem safe_compositeMatches : Stays F d (RowsOwn d) (env.compositeMatches ch d filter limit) := by
  refine safe_lift_bind fun query _ => ?_
  split
  case h_1 => exact safe_rangeMatches hF
  case h_2 q =>
    refine Prog.Safe.bind (safe_lookupPrefixRange hF) fun keys hkeys => ?_
    refine Prog.Safe.bind (safe_fetchWithin hF hkeys) fun rows hrows => ?_
    split
    case h_1 rows => exact safe_selectFetched (hrows rows rfl)
    case h_2 => exact safe_rangeMatches hF

theorem safe_inListMatches : Stays F d (RowsOwn d) (env.inListMatches ch d filter limit) := by
  rw [inListMatches]
  split
  case h_1 => exact safe_compositeMatches hF
  case h_2 col vals _ =>
    refine Prog.Safe.bind (safe_listKeys hF (show KeysOwn d [] from nofun)) fun keys hkeys => ?_
    split
    case h_1 keys => exact safe_selectKeys hF (hkeys keys rfl)
    case h_2 => exact safe_compositeMatches hF

theorem safe_equalityMatches : Stays F d (RowsOwn d) (env.equalityMatches ch d filter limit) := by
  refine safe_lift_bind fun pk _ => ?_
  split
  case h_1 vals =>
    refine safe_lift_bind fun encoded _ => ?_
    refine Prog.Safe.bind (safe_get hF (.inl (isRowKey_dataKey encoded))) fun found _ => ?_
    refine safe_lift fun rows h => selectRows_own (fun e he => ?_) h
    obtain ⟨c, -, rfl⟩ := mem_map.mp he
    exact isRowKey_dataKey encoded
  case h_2 =>
    refine safe_lift_bind fun hit _ => ?_
    split
    case h_1 idx vals =>
      exact Prog.Safe.bind (safe_lookupEq hF) fun keys hkeys => safe_selectKeys hF hkeys
    case h_2 => exact safe_inListMatches hF

/-- The rows a filter matches are found under the table's own prefixes, by every access path. -/
theorem safe_collectMatches : Stays F d (RowsOwn d) (env.collectMatches ch d filter limit) := by
  rw [collectMatches]
  split_ifs
  · exact safe_pure nofun
  · split
    case h_1 => exact safe_equalityMatches hF
    case h_2 cols query boolean _ =>
      split
      case h_1 => exact safe_equalityMatches hF
      case h_2 idx _ =>
        exact Prog.Safe.bind (safe_postings hF (show KeysOwn d [] from nofun)) fun keys hkeys =>
          safe_selectKeys hF hkeys

end Env

end Reading

end ElyraSql.Engine
