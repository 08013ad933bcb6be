import ElyraSql.Schema.Cache

/-!
# When a cached lookup is fresh

The generation is raised after the commit it belongs to, so for a moment a cached value of the old
state still carries the present generation. A lookup that loads the generation in that moment is
served a value that was not stored while it ran. A listing or a table definition that is read in
parts can mix two states.
-/

namespace ElyraSql.Schema

open OrderedMap VersionTags Transition List TxnState Versioned Prod

variable {D : Type} {codec : DefCodec D}

/-! ## States that the readers cannot tell apart -/

/-- The two states have the same schema keys. -/
def SameSchema (s s' : Storage) : Prop := ∀ k, isSchemaKey k = true → s.kv.get k = s'.kv.get k

theorem SameSchema.refl (s : Storage) : SameSchema s s := fun _ _ => rfl

theorem SameSchema.trans {a b c : Storage} (h : SameSchema a b) (h' : SameSchema b c) :
    SameSchema a c :=
  fun k hk => (h k hk).trans (h' k hk)

variable {k : Bytes} (table : Bytes)

theorem isSchemaKey_of_prefix {p : Bytes} (h : isSchemaKey p = true) (hp : p <+: k) :
    isSchemaKey k = true := by
  obtain ⟨q, hq, hqp⟩ := any_eq_true.mp h
  refine any_eq_true.mpr ⟨q, hq, ?_⟩
  exact List.isPrefixOf_iff_prefix.mpr ((List.isPrefixOf_iff_prefix.mp hqp).trans hp)

theorem isSchemaKey_append {p : Bytes} (h : isSchemaKey p = true) (k : Bytes) :
    isSchemaKey (p ++ k) = true :=
  isSchemaKey_of_prefix h (prefix_append p k)

theorem isSchemaKey_catalogKey : isSchemaKey (catalogKey table) = true :=
  isSchemaKey_append (by decide) table

theorem isSchemaKey_generationKey : isSchemaKey (generationKey table) = true :=
  isSchemaKey_append (by decide) table

theorem isSchemaKey_coldeclKey : isSchemaKey (coldeclKey table) = true :=
  isSchemaKey_append (by decide) table

variable {pfx : Bytes} {s' s : Storage} (hsame : SameSchema s s')
include hsame

theorem SameSchema.rowsUnder (hpfx : isSchemaKey pfx = true) :
    rowsUnder s.kv pfx none = rowsUnder s'.kv pfx none := by
  refine OMap.list_congr fun k hk => hsame k ?_
  have hunder := (Bool.and_eq_true_iff.mp hk).1
  exact isSchemaKey_of_prefix hpfx (List.isPrefixOf_iff_prefix.mp hunder)

theorem SameSchema.keysUnder (hpfx : isSchemaKey pfx = true) :
    keysUnder s.kv pfx = keysUnder s'.kv pfx :=
  congrArg (List.map fst) (hsame.rowsUnder hpfx)

theorem SameSchema.parse (table : Bytes) :
    codec.parse table (s.kv.get (catalogKey table)) (s.kv.get (generationKey table)) =
      codec.parse table (s'.kv.get (catalogKey table)) (s'.kv.get (generationKey table)) := by
  rw [hsame _ (isSchemaKey_catalogKey table), hsame _ (isSchemaKey_generationKey table)]

theorem SameSchema.definition (table : Bytes) :
    codec.definition s.kv table = codec.definition s'.kv table := by
  rw [DefCodec.definition, DefCodec.definition, hsame.parse, hsame _ (isSchemaKey_coldeclKey table)]

omit hsame

/-- A transaction that touches no schema key changes nothing for the readers. -/
theorem sameSchema_run {w : WriteTxn} (h : w.run s = some s') (hw : touchesSchema w.keys = false) :
    SameSchema s s' := by
  obtain ⟨t, rfl, ht⟩ := WriteTxn.run_spec h
  intro k hk
  have hkeys : k ∉ w.keys := fun hmem => by
    rw [touchesSchema, any_eq_false] at hw
    exact hw k hmem hk
  have hwseq : k ≠ wseqKey := fun heq => by
    rw [heq] at hk
    exact absurd hk (by decide)
  rw [Storage.get_commitTable hwseq, ht k hkeys]

/-! ## The caches -/

/-- What an entry says about a state of the store. -/
def Holds : CacheKey → Cached → Storage → Prop
  | .get k, .value v, s => s.kv.get k = v
  | .keys pfx, .keys ks, s => keysUnder s.kv pfx = ks
  | _, _, _ => False

def CacheOk (store : Versioned Storage) (c : Cache) : Prop :=
  ∀ e ∈ c, store.Noted e.2.1 (Holds e.1 e.2.2)

def DefsOk (codec : DefCodec D) (store : Versioned Storage) (c : Defs D) : Prop :=
  ∀ e ∈ c, store.Noted e.2.1.2 fun s => codec.definition s.kv e.1 = .ok e.2.2

variable {store store' : Versioned Storage} {cache : Cache} {defs : Defs D}

theorem CacheOk.mono (h : CacheOk store cache) (hv : store.Extends store') : CacheOk store' cache :=
  fun e he => (h e he).mono hv

theorem DefsOk.mono (h : DefsOk codec store defs) (hv : store.Extends store') :
    DefsOk codec store' defs :=
  fun e he => (h e he).mono hv

theorem CacheOk.cached (h : CacheOk store cache) {key : CacheKey} {generation : Nat} {read : Cached}
    (hc : cache.cached key generation = some read) : store.Noted generation (Holds key read) := by
  unfold Cache.cached at hc
  split at hc
  case h_1 e he =>
    split_ifs at hc with hgen
    obtain rfl := Option.some.inj hc
    obtain rfl : e.1 = key := by simpa using find?_some he
    exact hgen ▸ h e (mem_of_find?_eq_some he)
  case h_2 => cases hc

theorem CacheOk.insert (h : CacheOk store cache) {key : CacheKey} {generation : Nat} {read : Cached}
    (hr : store.Noted generation (Holds key read)) :
    CacheOk store (cache.store key generation read) := by
  intro e he
  rcases mem_cons.mp he with rfl | he
  · exact hr
  · have hmem := (mem_filter.mp he).1
    split_ifs at hmem
    · cases hmem
    · exact h e hmem

variable {table : Bytes}

theorem DefsOk.cached (h : DefsOk codec store defs) {tag : Nat × Nat} {d : D}
    (hc : defs.cached table tag = some d) :
    store.Noted tag.2 fun s => codec.definition s.kv table = .ok d := by
  unfold Defs.cached at hc
  split at hc
  case h_1 e he =>
    split_ifs at hc with htag
    obtain rfl := Option.some.inj hc
    obtain rfl : e.1 = table := by simpa using find?_some he
    exact htag ▸ h e (mem_of_find?_eq_some he)
  case h_2 => cases hc

theorem DefsOk.insert (h : DefsOk codec store defs) {tag : Nat × Nat} {d : D}
    (hd : store.Noted tag.2 fun s => codec.definition s.kv table = .ok d) :
    DefsOk codec store (defs.store table tag d) := by
  intro e he
  rcases mem_cons.mp he with rfl | he
  · exact hd
  · exact h e (mem_filter.mp he).1

/-! ## Point lookups -/

/-- The generation was loaded when it stood for one state, and the value was stored since. -/
structure GetRun.Ok (store : Versioned Storage) (r : GetRun) : Prop where
  schema : isSchemaKey r.key = true
  settled : store.Settled SameSchema r.generation r.began
  read : ∀ v, r.phase = .read v → store.Noted r.generation (Holds (.get r.key) (.value v)) ∧
    store.Sometime r.began (Holds (.get r.key) (.value v))
  done : ∀ v, r.phase = .done v → store.Sometime r.began (Holds (.get r.key) (.value v))

theorem GetRun.Ok.mono {r : GetRun} (h : r.Ok store) (hv : store.Extends store') : r.Ok store' where
  schema := h.schema
  settled := h.settled.mono hv
  read v hp := ⟨(h.read v hp).1.mono hv, (h.read v hp).2.mono hv⟩
  done v hp := (h.done v hp).mono hv

theorem GetRun.ok_start (hs : store.Ok SameSchema) (hdue : store.due = 0)
    (hk : isSchemaKey k = true) : (GetRun.start store k).Ok store :=
  ⟨hk, hs.settled hdue, nofun, nofun⟩

theorem Holds.congr_get {v : Option Bytes} (hk : isSchemaKey k = true) (h : SameSchema s s')
    (hh : Holds (.get k) (.value v) s) : Holds (.get k) (.value v) s' :=
  (h k hk).symm.trans hh

theorem GetRun.Ok.advance {r : GetRun} (hs : store.Ok SameSchema) (hc : CacheOk store cache)
    (h : r.Ok store) :
    (r.advance store.now.kv cache).1.Ok store ∧ CacheOk store (r.advance store.now.kv cache).2 := by
  obtain ⟨k, generation, began, phase⟩ := r
  have hbegan : began ≤ store.today := h.settled.le_today
  cases phase with
  | tagged =>
    simp only [GetRun.advance]
    split
    case h_1 v hv =>
      have hnoted := hc.cached hv
      refine ⟨⟨h.schema, h.settled, nofun, fun w hw => ?_⟩, hc⟩
      cases hw
      exact hnoted.sometime (Holds.congr_get h.schema) h.settled
    case h_2 => exact ⟨⟨h.schema, h.settled, nofun, nofun⟩, hc⟩
  | missed =>
    refine ⟨⟨h.schema, h.settled, fun w hw => ?_, nofun⟩, hc⟩
    cases hw
    exact ⟨hs.noted h.settled.1 rfl, sometime_now hbegan rfl⟩
  | read v =>
    obtain ⟨hnoted, hsome⟩ := h.read v rfl
    refine ⟨⟨h.schema, h.settled, nofun, fun w hw => ?_⟩, hc.insert hnoted⟩
    cases hw
    exact hsome
  | done v => exact ⟨h, hc⟩

theorem GetRun.advance_key (kv : Table) (c : Cache) (r : GetRun) :
    (r.advance kv c).1.key = r.key ∧ (r.advance kv c).1.began = r.began := by
  unfold GetRun.advance
  split
  · split <;> exact ⟨rfl, rfl⟩
  all_goals exact ⟨rfl, rfl⟩

/-! ## Listings -/

variable {ks : List Bytes}

/-- After the keys of the first rows there remain the rows beyond them. -/
theorem rowsUnder_getLast {t : Table} (h : ks <+: keysUnder t pfx) :
    (∀ a, ks.getLast? = some a → pfx <+: a) ∧
      rowsUnder t pfx ks.getLast? = (rowsUnder t pfx none).drop ks.length := by
  have hlen : ks.length ≤ (rowsUnder t pfx none).length := by
    simpa [keysUnder] using h.length_le
  have hks : ks = ((rowsUnder t pfx none).take ks.length).map fst := by
    rw [map_take]
    exact prefix_iff_eq_take.mp h
  generalize hn : ks.length = n at hks hlen ⊢
  cases hlast : ((rowsUnder t pfx none).take n).getLast? with
  | none =>
    have hnil := getLast?_eq_none_iff.mp hlast
    obtain rfl : ks = [] := by rw [hks, hnil]; rfl
    subst hn
    exact ⟨nofun, rfl⟩
  | some last =>
    have hcursor : ks.getLast? = some last.1 := by rw [hks, getLast?_map, hlast]; rfl
    have hmem := mem_of_mem_take (mem_of_getLast? hlast)
    obtain ⟨hunder, hafter⟩ := rowsUnder_after hmem
    rw [hcursor]
    have hfull : ¬ ((rowsUnder t pfx none).take n).length < n := by
      rw [length_take, Nat.min_eq_left hlen]
      exact lt_irrefl n
    refine ⟨fun a ha => Option.some.inj ha ▸ hunder, hafter.trans ?_⟩
    exact filter_after_batch (OMap.increasing_list t _) hlast hfull

/-- A batch adds the next keys, or it completes the listing. -/
theorem scan_cases {t : Table} (h : ks <+: keysUnder t pfx) :
    (∃ ks', KeysRun.scan t pfx ks = .scanning ks' ∧ ks' <+: keysUnder t pfx) ∨
      KeysRun.scan t pfx ks = .read (keysUnder t pfx) := by
  obtain ⟨hunder, hrest⟩ := rowsUnder_getLast h
  have hbatch : Table.scanBatch t pfx ks.getLast? listBatch =
      ((rowsUnder t pfx none).drop ks.length).take listBatch := by
    rw [← hrest]
    exact congrArg (scanUpTo listBatch) (takeWhile_rowsUnder t hunder)
  have hsplit : keysUnder t pfx = ks ++ ((rowsUnder t pfx none).drop ks.length).map fst := by
    rw [map_drop]
    exact (prefix_iff_eq_append.mp h).symm
  unfold KeysRun.scan
  rw [hbatch]
  dsimp only
  split
  · refine .inl ⟨_, rfl, ?_⟩
    rw [hsplit]
    exact prefix_append_right_inj ks |>.mpr ((List.take_prefix _ _).map fst)
  case isFalse hshort =>
    refine .inr ?_
    rw [hsplit, take_of_length_le]
    rw [length_take] at hshort
    omega

/-- As for point lookups; between two batches the keys read so far are those of the present state.
-/
structure KeysRun.Ok (store : Versioned Storage) (r : KeysRun) : Prop where
  schema : isSchemaKey r.pfx = true
  settled : store.Settled SameSchema r.generation r.began
  scanning : ∀ ks, r.phase = .scanning ks → ks <+: keysUnder store.now.kv r.pfx
  read : ∀ ks, r.phase = .read ks → store.Noted r.generation (Holds (.keys r.pfx) (.keys ks)) ∧
    store.Sometime r.began (Holds (.keys r.pfx) (.keys ks))
  done : ∀ ks, r.phase = .done ks → store.Sometime r.began (Holds (.keys r.pfx) (.keys ks))

variable (hs : store.Ok SameSchema)
include hs

theorem KeysRun.ok_start (hdue : store.due = 0)
    (hpfx : isSchemaKey pfx = true) : (KeysRun.start store pfx).Ok store :=
  ⟨hpfx, hs.settled hdue, nofun, nofun, nofun⟩

theorem KeysRun.Ok.advance {r : KeysRun} (hc : CacheOk store cache) (h : r.Ok store) :
    (r.advance store.now.kv cache).1.Ok store ∧ CacheOk store (r.advance store.now.kv cache).2 := by
  obtain ⟨pfx, generation, began, phase⟩ := r
  have hbegan : began ≤ store.today := h.settled.le_today
  cases phase with
  | tagged =>
    simp only [KeysRun.advance]
    split
    case h_1 ks hks =>
      have hnoted := hc.cached hks
      refine ⟨⟨h.schema, h.settled, nofun, nofun, fun w hw => ?_⟩, hc⟩
      cases hw
      exact hnoted.sometime (fun hsame => (hsame.keysUnder h.schema).symm.trans) h.settled
    case h_2 =>
      refine ⟨⟨h.schema, h.settled, fun w hw => ?_, nofun, nofun⟩, hc⟩
      cases hw
      exact nil_prefix
  | scanning ks =>
    simp only [KeysRun.advance]
    rcases scan_cases (h.scanning ks rfl) with ⟨ks', heq, hpre⟩ | heq
    · rw [heq]
      refine ⟨⟨h.schema, h.settled, fun w hw => ?_, nofun, nofun⟩, hc⟩
      cases hw
      exact hpre
    · rw [heq]
      refine ⟨⟨h.schema, h.settled, nofun, fun w hw => ?_, nofun⟩, hc⟩
      cases hw
      exact ⟨hs.noted h.settled.1 rfl, sometime_now hbegan rfl⟩
  | read ks =>
    obtain ⟨hnoted, hsome⟩ := h.read ks rfl
    refine ⟨⟨h.schema, h.settled, nofun, nofun, fun w hw => ?_⟩, hc.insert hnoted⟩
    cases hw
    exact hsome
  | done ks => exact ⟨h, hc⟩

/-! ## Table definitions -/

/-- Once the definition is read, it is the one of the present state, and so are the declarations
that the inner lookup can still come to. -/
structure LoadRun.Ok (codec : DefCodec D) (store : Versioned Storage) (r : LoadRun D) : Prop where
  settled : store.Settled SameSchema r.tag.2 r.began
  parsed : ∀ d, r.phase = .parsed d → codec.parse r.table (store.now.kv.get (catalogKey r.table))
    (store.now.kv.get (generationKey r.table)) = .ok d
  declaring : ∀ d run, r.phase = .declaring d run →
    codec.parse r.table (store.now.kv.get (catalogKey r.table))
      (store.now.kv.get (generationKey r.table)) = .ok d ∧
    run.key = coldeclKey r.table ∧ run.Ok store ∧
    store.Always run.began fun s => SameSchema s store.now
  done : ∀ res, r.phase = .done res →
    store.Sometime r.began fun s => codec.definition s.kv r.table = res

theorem LoadRun.ok_start (hdue : store.due = 0) (epoch : Nat)
    (table : Bytes) : (LoadRun.start store epoch table : LoadRun D).Ok codec store :=
  ⟨hs.settled hdue, nofun, nofun, nofun⟩

open SameSchema

theorem LoadRun.Ok.advance {r : LoadRun D} (hc : CacheOk store cache)
    (hd : DefsOk codec store defs) (h : r.Ok codec store)
    (hdue : (Task.load r).loadsGeneration = true → store.due = 0) :
    (r.advance codec store cache defs).1.Ok codec store ∧
      CacheOk store (r.advance codec store cache defs).2.1 ∧
      DefsOk codec store (r.advance codec store cache defs).2.2 := by
  obtain ⟨table, tag, began, phase⟩ := r
  have hbegan : began ≤ store.today := h.settled.le_today
  cases phase with
  | tagged =>
    simp only [LoadRun.advance]
    split
    case h_1 d hcached =>
      refine ⟨⟨h.settled, nofun, nofun, fun res hres => ?_⟩, hc, hd⟩
      cases hres
      exact (hd.cached hcached).sometime
        (fun hR hdef => (hR.definition table).symm.trans hdef) h.settled
    case h_2 => exact ⟨⟨h.settled, nofun, nofun, nofun⟩, hc, hd⟩
  | missed =>
    simp only [LoadRun.advance]
    split
    case h_1 e hparse =>
      refine ⟨⟨h.settled, nofun, nofun, fun res hres => ?_⟩, hc, hd⟩
      cases hres
      refine sometime_now hbegan ?_
      rw [DefCodec.definition, hparse]
      rfl
    case h_2 d hparse =>
      refine ⟨⟨h.settled, fun d' hd' => ?_, nofun, nofun⟩, hc, hd⟩
      cases hd'
      exact hparse
  | parsed d =>
    refine ⟨⟨h.settled, nofun, fun d' run hphase => ?_, nofun⟩, hc, hd⟩
    cases hphase
    exact ⟨h.parsed d rfl, rfl, GetRun.ok_start hs (hdue rfl) (isSchemaKey_coldeclKey table),
      always_today refl store⟩
  | declaring d run =>
    obtain ⟨hparse, hkey, hrun, hsame⟩ := h.declaring d run rfl
    simp only [LoadRun.advance]
    split
    case h_1 v hphase =>
      -- the inner lookup returned what is stored now
      have hnow : Holds (.get run.key) (.value v) store.now :=
        (hrun.done v hphase).now (Holds.congr_get hrun.schema) hsame
      have hdef : codec.definition store.now.kv table = .ok (codec.declare d v) := by
        rw [DefCodec.definition, hparse, ← hkey]
        exact congrArg (fun w => Except.ok (codec.declare d w)) hnow
      refine ⟨⟨h.settled, nofun, nofun, fun res hres => ?_⟩, hc,
        hd.insert (hs.noted h.settled.1 hdef)⟩
      cases hres
      exact sometime_now hbegan hdef
    case h_2 =>
      obtain ⟨hrun', hc'⟩ := hrun.advance hs hc
      obtain ⟨hkey', hbegan'⟩ := GetRun.advance_key store.now.kv cache run
      refine ⟨⟨h.settled, nofun, fun d' run' hphase => ?_, nofun⟩, hc', hd⟩
      cases hphase
      exact ⟨hparse, hkey'.trans hkey, hrun', hbegan'.symm ▸ hsame⟩
  | done res => exact ⟨h, hc, hd⟩

omit hs

/-! ## Lookups of all kinds -/

def TaskOk (codec : DefCodec D) (store : Versioned Storage) : Task D → Prop
  | .get r => r.Ok store
  | .keys r => r.Ok store
  | .load r => r.Ok codec store
  | .own _ _ => False

variable {task : Task D}

/-- The present state may be replaced under a lookup that is not between two reads, or by one that
reads the same. -/
theorem TaskOk.mono (h : TaskOk codec store task) (hv : store.Extends store')
    (hnow : task.betweenReads = true → SameSchema store.now store'.now ∧ ∀ n, (store.Always n
      fun s => SameSchema s store.now) → store'.Always n fun s => SameSchema s store'.now) :
    TaskOk codec store' task := by
  match task, h with
  | .get r, h => exact GetRun.Ok.mono h hv
  | .keys ⟨pfx, generation, began, phase⟩, h =>
    refine ⟨h.schema, h.settled.mono hv, fun ks hks => ?_,
      fun ks hks => ⟨(h.read ks hks).1.mono hv, (h.read ks hks).2.mono hv⟩,
      fun ks hks => (h.done ks hks).mono hv⟩
    cases hks
    cases ks with
    | nil => exact nil_prefix
    | cons k ks =>
      obtain ⟨hsame, -⟩ := hnow rfl
      exact hsame.keysUnder h.schema ▸ h.scanning _ rfl
  | .load ⟨table, tag, began, phase⟩, h =>
    refine ⟨h.settled.mono hv, fun d hd => ?_, fun d run hd => ?_, fun r hr =>
      (h.done r hr).mono hv⟩
    · cases hd
      obtain ⟨hsame, -⟩ := hnow rfl
      exact (hsame.parse table).symm.trans (h.parsed d rfl)
    · cases hd
      obtain ⟨hsame, halways⟩ := hnow rfl
      obtain ⟨hparse, hkey, hrun, hr⟩ := h.declaring d run rfl
      exact ⟨(hsame.parse table).symm.trans hparse, hkey, hrun.mono hv, halways _ hr⟩

/-- An answer was stored while the lookup ran. -/
theorem TaskOk.answer (h : TaskOk codec store task) {a : Answer D} (ha : task.answer = some a) :
    store.Sometime task.began fun s => stored codec s.kv task.lookup = a := by
  match task, h with
  | .get ⟨k, generation, began, .done v⟩, h =>
    cases ha
    obtain ⟨i, s, hi, hs, hv⟩ := h.done v rfl
    exact ⟨i, s, hi, hs, congrArg Answer.value hv⟩
  | .keys ⟨pfx, generation, began, .done ks⟩, h =>
    cases ha
    obtain ⟨i, s, hi, hs, hks⟩ := h.done ks rfl
    exact ⟨i, s, hi, hs, congrArg Answer.keys hks⟩
  | .load ⟨table, tag, began, .done r⟩, h =>
    cases ha
    obtain ⟨i, s, hi, hs, hr⟩ := h.done r rfl
    exact ⟨i, s, hi, hs, congrArg Answer.table hr⟩

/-! ## Lookups inside a transaction -/

/-- A listing takes its batches from committed rows that suffice for them. -/
def ListsWhole (tx : TxnState) : Lookup → Prop
  | .keys pfx =>
    ∀ j ≤ (batchVisible tx.snapshot tx.overlay pfx none).length,
      j * listBatch ≤ (batchVisible tx.snapshot tx.overlay pfx none).length →
        TxnState.BatchOk tx.snapshot tx.overlay pfx
          (cursorAt (batchVisible tx.snapshot tx.overlay pfx none) (j * listBatch))
          listBatch
  | .get _ | .load _ => True

theorem ownKeys_eq {tx : TxnState} (h : ListsWhole tx (.keys pfx)) :
    ownKeys tx pfx = keysUnder tx.view pfx := by
  refine congrArg (List.map fst) ((scanAll_exact_iff tx (by decide)).mpr ?_)
  intro j hj
  have hle : j ≤ j * listBatch := Nat.le_mul_of_pos_right j (by decide)
  exact h j (hle.trans hj) hj

theorem ownLookup_eq {tx : TxnState} {q : Lookup} (h : ListsWhole tx q) :
    ownLookup codec tx q = stored codec tx.view q := by
  cases q with
  | get k => exact congrArg Answer.value (tx.get_eq_view k)
  | keys pfx => exact congrArg Answer.keys (ownKeys_eq h)
  | load table =>
    simp only [ownLookup, multiGet_eq_view, get_eq_view]
    rfl

/-! ## Runs -/

def Session.betweenReads (sess : Session D) : Bool := sess.task.any Task.betweenReads

/-- A session may begin a lookup: outside a transaction when no bump is due, inside one when the
committed rows suffice. -/
def MayBegin (due : Nat) (q : Lookup) : Option (Session D) → Prop
  | some ⟨none, _⟩ => due = 0
  | some ⟨some tx, _⟩ => ListsWhole tx q
  | none => True

/-- The next step of a session may load the generation only when no bump is due. -/
def MayAdvance (due : Nat) : Option (Session D) → Prop
  | some ⟨_, some task⟩ => task.loadsGeneration = true → due = 0
  | _ => True

/-- The generation is loaded when no bump is due, a schema write commits when no lookup is between
two of its reads, and a transaction lists what its committed rows suffice for. -/
def Careful (s : State D) : Act → Prop
  | .write w => touchesSchema w.keys = true → ∀ sess ∈ s.sessions, sess.betweenReads = false
  | .start i q => MayBegin s.store.due q s.sessions[i]?
  | .advance i => MayAdvance s.store.due s.sessions[i]?
  | _ => True

def SessionOk (codec : DefCodec D) (store : Versioned Storage) (sess : Session D) : Prop :=
  ∀ task, sess.task = some task →
    match sess.txn with
    | none => TaskOk codec store task
    | some tx => ∃ q, task = .own q (stored codec tx.view q)

structure Inv (codec : DefCodec D) (s : State D) : Prop where
  store : s.store.Ok SameSchema
  cache : CacheOk s.store s.cache
  defs : DefsOk codec s.store s.defs
  sessions : ∀ sess ∈ s.sessions, SessionOk codec s.store sess

theorem sessionOk_idle (txn : Option TxnState) : SessionOk codec store ⟨txn, none⟩ := nofun

variable {s : State D}
variable {i : Nat}

section
variable (h : Inv codec s) {txn : Option TxnState}
include h

theorem Inv.setSession {sess : Session D} (hsess : SessionOk codec s.store sess) :
    Inv codec (s.setSession i sess) where
  store := h.store
  cache := h.cache
  defs := h.defs
  sessions x hx := by
    rcases mem_or_eq_of_mem_set hx with hx | rfl
    · exact h.sessions x hx
    · exact hsess

theorem Inv.setStore (hok : store'.Ok SameSchema) (hv : s.store.Extends store')
    (hnow : ∀ sess ∈ s.sessions, sess.betweenReads = true → SameSchema s.store.now store'.now ∧
      ∀ n, (s.store.Always n fun t => SameSchema t s.store.now) → store'.Always n fun t =>
      SameSchema t store'.now) : Inv codec { s with store := store' } where
  store := hok
  cache := h.cache.mono hv
  defs := h.defs.mono hv
  sessions sess hsess task htask := by
    have hold := h.sessions sess hsess task htask
    cases htxn : sess.txn with
    | none =>
      rw [htxn] at hold
      refine TaskOk.mono hold hv fun hbetween => hnow sess hsess ?_
      rw [Session.betweenReads, htask]
      exact hbetween
    | some tx => rwa [htxn] at hold

theorem Inv.write {w : WriteTxn} (hw : Careful s (.write w)) {next : Storage}
    (hrun : w.run s.store.now = some next) :
    Inv codec { s with store := s.store.change next (touchesSchema w.keys) } := by
  have hunseen : touchesSchema w.keys = false → SameSchema s.store.now next := sameSchema_run hrun
  refine h.setStore (h.store.change refl trans hunseen)
    (s.store.extends_change next _) fun sess hsess hbetween => ?_
  -- a lookup between two reads sees only writes outside the schema
  have hno : touchesSchema w.keys = false := by
    cases htouch : touchesSchema w.keys with
    | false => rfl
    | true =>
      rw [hw htouch sess hsess] at hbetween
      exact absurd hbetween Bool.false_ne_true
  exact ⟨hunseen hno, fun n hn => hn.change refl trans (hunseen hno)⟩

theorem Inv.raise (due : Nat) : Inv codec { s with store := s.store.raise due } :=
  h.setStore (h.store.raise refl due) (s.store.extends_raise due)
    fun _ _ _ => ⟨refl _, fun _ hn => hn⟩

theorem Inv.begun {q : Lookup} (hi : s.sessions[i]? = some ⟨txn, none⟩) (hq : q.isSchema = true)
    (hc : Careful s (.start i q)) : SessionOk codec s.store ⟨txn, some (s.begun codec txn q)⟩ := by
  intro task htask
  cases htask
  simp only [Careful, hi] at hc
  cases txn with
  | some tx => exact ⟨q, congrArg (Task.own q) (ownLookup_eq hc)⟩
  | none =>
    cases q with
    | get k => exact GetRun.ok_start h.store hc hq
    | keys pfx => exact KeysRun.ok_start h.store hc hq
    | load table => exact LoadRun.ok_start h.store hc s.epoch table

theorem Inv.advanced (hi : s.sessions[i]? = some ⟨txn, some task⟩) (hc : Careful s (.advance i)) :
    Inv codec { s with
      cache := (s.advanced codec task).2.1
      defs := (s.advanced codec task).2.2
      sessions := s.sessions.set i ⟨txn, some (s.advanced codec task).1⟩ } := by
  simp only [Careful, hi] at hc
  have hold := h.sessions _ (mem_of_getElem? hi) task rfl
  suffices hnext : SessionOk codec s.store ⟨txn, some (s.advanced codec task).1⟩ ∧
      CacheOk s.store (s.advanced codec task).2.1 ∧
        DefsOk codec s.store (s.advanced codec task).2.2 by
    refine ⟨h.store, hnext.2.1, hnext.2.2, fun x hx => ?_⟩
    rcases mem_or_eq_of_mem_set hx with hx | rfl
    · exact h.sessions x hx
    · exact hnext.1
  cases txn with
  | some tx =>
    obtain ⟨q, rfl⟩ := hold
    exact ⟨fun t ht => ⟨q, (Option.some.inj ht).symm⟩, h.cache, h.defs⟩
  | none =>
    have hsess : ∀ {t : Task D}, TaskOk codec s.store t →
        SessionOk codec s.store ⟨none, some t⟩ := by
      intro t ht t' ht'
      cases ht'
      exact ht
    cases task with
    | get r =>
      obtain ⟨hr, hcache⟩ := GetRun.Ok.advance h.store h.cache hold
      exact ⟨hsess hr, hcache, h.defs⟩
    | keys r =>
      obtain ⟨hr, hcache⟩ := KeysRun.Ok.advance h.store h.cache hold
      exact ⟨hsess hr, hcache, h.defs⟩
    | load r =>
      obtain ⟨hr, hcache, hdefs⟩ := LoadRun.Ok.advance h.store h.cache h.defs hold hc
      exact ⟨hsess hr, hcache, hdefs⟩
    | own q a => exact hold.elim

theorem Inv.step {s' : State D} {a : Act} (hc : Careful s a)
    (hstep : s.step codec a = some s') : Inv codec s' := by
  cases a with
  | write w =>
    simp only [State.step] at hstep
    split at hstep
    case h_1 next hrun =>
      cases hstep
      exact h.write hc hrun
    case h_2 =>
      cases hstep
      exact h
  | bump =>
    simp only [State.step] at hstep
    split_ifs at hstep
    cases hstep
    exact h.raise _
  | bumpElsewhere =>
    cases hstep
    exact h.raise _
  | bumpEpoch =>
    cases hstep
    exact ⟨h.store, h.cache, h.defs, h.sessions⟩
  | begin i readOnly isolation | call i budget op | endTxn i =>
    simp only [State.step] at hstep
    split at hstep
    · cases hstep
      exact h.setSession (sessionOk_idle _)
    · cases hstep
  | start i q =>
    simp only [State.step] at hstep
    split at hstep
    case h_1 txn hi =>
      split_ifs at hstep with hq
      cases hstep
      exact h.setSession (h.begun hi hq hc)
    case h_2 => cases hstep
  | advance i =>
    simp only [State.step] at hstep
    split at hstep
    case h_1 txn task hi =>
      cases hstep
      exact h.advanced hi hc
    case h_2 => cases hstep
  | finish i =>
    simp only [State.step] at hstep
    split at hstep
    · split_ifs at hstep
      cases hstep
      exact h.setSession (sessionOk_idle _)
    · cases hstep

theorem Inv.fresh : s.Fresh codec := by
  intro sess hsess task htask a ha
  have hok := h.sessions sess hsess task htask
  cases htxn : sess.txn with
  | none =>
    rw [htxn] at hok
    exact TaskOk.answer hok ha
  | some tx =>
    rw [htxn] at hok
    obtain ⟨q, rfl⟩ := hok
    exact Option.some.inj ha

end

/-- In every run of a process, from any stored state and with any number of sessions, whose steps
are careful, every lookup is fresh. -/
theorem lookups_fresh {kv : Storage} {generation epoch n : Nat} {s : State D}
    (h : Reach (State.step codec) Careful (State.start kv generation epoch n) s) :
    s.Fresh codec := by
  have hstart : Inv codec (State.start kv generation epoch n) := by
    refine ⟨ok_start SameSchema.refl kv generation, forall_mem_nil _, forall_mem_nil _,
      fun sess hsess task htask => ?_⟩
    rw [eq_of_mem_replicate hsess] at htask
    cases htask
  exact (h.invariant (I := Inv codec) hstart fun h => h.step).fresh

/-! ## A grant that is taken away -/

instance (snapshot : Table) (o : Overlay) (start : Bytes) (stop : Option Bytes) (limit : Nat) :
    Decidable (TxnState.WindowSuffices snapshot o start stop limit) :=
  inferInstanceAs (Decidable (∀ e ∈ _, _ ∨ _))

instance (snapshot : Table) (o : Overlay) (pfx : Bytes) (after : Option Bytes) (limit : Nat) :
    Decidable (TxnState.BatchOk snapshot o pfx after limit) := by
  delta TxnState.BatchOk
  infer_instance

instance (tx : TxnState) : ∀ q, Decidable (ListsWhole tx q)
  | .keys _ => inferInstanceAs (Decidable (∀ j ≤ _, _ → _))
  | .get _ | .load _ => .isTrue trivial

instance (due : Nat) (q : Lookup) : ∀ sess : Option (Session D), Decidable (MayBegin due q sess)
  | some ⟨none, _⟩ => inferInstanceAs (Decidable (due = 0))
  | some ⟨some tx, _⟩ => inferInstanceAs (Decidable (ListsWhole tx q))
  | none => .isTrue trivial

instance (due : Nat) : ∀ sess : Option (Session D), Decidable (MayAdvance due sess)
  | some ⟨_, some task⟩ => inferInstanceAs (Decidable (task.loadsGeneration = true → due = 0))
  | some ⟨_, none⟩ | none => .isTrue trivial

instance (s : State D) (a : Act) : Decidable (Careful s a) := by
  delta Careful
  split <;> infer_instance

def rawCodec : DefCodec Bytes := ⟨.ok, fun d _ => d, fun d _ => d⟩

/-- The record of an account. -/
def userKey : Bytes := ascii ['s', 'y', 's', ':', ':', 'u', 's', 'e', 'r', ':', ':', 'b', 'o', 'b']

def withUser : State Bytes := State.start ⟨OMap.empty.insert userKey [1], 0⟩ 1 1 2

/-- A session looks the record up, which leaves it in the cache. -/
def lookUp (i : Nat) : List Act := [.start i (.get userKey), .advance i, .advance i, .advance i]

def answered (s : State Bytes) (i : Nat) : Option (Option Bytes) :=
  match s.sessions[i]?.bind fun sess => sess.task.bind Task.answer with
  | some (.value v) => some v
  | _ => none

/-- The record is deleted and the generation raised before the next lookup, and a transaction that
began before still sees it. -/
theorem lookups_fresh_deleted :
    ∃ s, Reach (State.step rawCodec) Careful withUser s ∧
      answered s 0 = some none ∧ answered s 1 = some (some [1]) ∧ s.Fresh rawCodec := by
  exact Reach.exists_of_run
    (P := fun s => answered s 0 = some none ∧ answered s 1 = some (some [1]))
    (lookUp 0 ++ [.finish 0, .begin 1 false .snapshot, .write (.apply [] [userKey]), .bump] ++
      lookUp 0 ++ [.start 1 (.get userKey)])
    (by decide +kernel) fun s hreach ⟨h0, h1⟩ => ⟨h0, h1, lookups_fresh hreach⟩

/-- The key, the beginning and the answer of a point lookup that a session has made outside a
transaction. -/
def finished (s : State Bytes) (i : Nat) : Option (Bytes × Nat × Option Bytes) :=
  match s.sessions[i]? with
  | some ⟨none, some (.get ⟨k, _, began, .done v⟩)⟩ => some (k, began, v)
  | _ => none

theorem State.Fresh.finished {s : State Bytes} (h : s.Fresh rawCodec) {began : Nat}
    {v : Option Bytes} (hf : finished s i = some (k, began, v)) :
    s.store.Sometime began fun store => store.kv.get k = v := by
  unfold Schema.finished at hf
  split at hf
  case h_1 hi =>
    cases hf
    obtain ⟨j, t, hj, ht, hv⟩ := h _ (mem_of_getElem? hi) _ rfl _ rfl
    exact ⟨j, t, hj, ht, Answer.value.inj hv⟩
  case h_2 => cases hf

/-- Between the commit that deletes a record and the bump, another lookup is served the record,
although the store has not held it since the lookup began. -/
theorem revoked_grant_served :
    ∃ s, Reach (State.step rawCodec) (fun _ _ => True) withUser s ∧ ¬ s.Fresh rawCodec := by
  refine Reach.exists_of_run (P := fun s => finished s 1 = some (userKey, 1, some [1]) ∧
      s.store.moments.map (fun t => t.kv.get userKey) = [some [1], none])
    (lookUp 0 ++ [.write (.apply [] [userKey]), .start 1 (.get userKey), .advance 1])
    (by decide +kernel) fun s _ ⟨hans, hmoments⟩ hfresh => ?_
  obtain ⟨i, t, hi, ht, hv⟩ := hfresh.finished hans
  have hvalue : ([some [1], none] : List (Option Bytes))[i]? = some (some [1]) := by
    rw [← hmoments, getElem?_map, ht, Option.map_some, hv]
  match i, hi with
  | 1, _ => exact absurd hvalue (by decide)
  | i + 2, _ => cases hvalue

end ElyraSql.Schema
