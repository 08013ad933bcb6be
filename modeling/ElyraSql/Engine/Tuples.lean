import Mathlib.Data.List.GetD
import ElyraSql.Engine.KeyEncoding
import ElyraSql.Engine.ReadLoops

/-!
# The tuples of an index

An index holds the tuples of its columns: a row has an entry under the encoding of its tuple, unless
a value of it is NULL or of a type without an encoding. For rows whose values have the types of
their columns, the encodings of two tuples are the same exactly when the tuples are equal under the
collations of the columns.
-/

namespace ElyraSql.Engine

open ReadProgram List Env

/-! ## Rows of a table -/

/-- Every value is NULL or of its column's type. -/
def RowOf (schema : List Column) (row : Row) : Prop :=
  List.Forall₂ (fun (c : Column) (v : Value) => v.isNull = true ∨ c.ty.Holds v) schema row

theorem RowOf.holds {schema : List Column} {row : Row} (h : RowOf schema row) {i : Nat} {c : Column}
    (hc : schema[i]? = some c) (hnull : (row.getD i .null).isNull = false) :
    c.ty.Holds (row.getD i .null) := by
  obtain ⟨hi, rfl⟩ := List.getElem?_eq_some_iff.mp hc
  have hr : i < row.length := List.Forall₂.length_eq h ▸ hi
  have hvalue := List.Forall₂.get h hi hr
  rw [getD_eq_getElem _ _ hr] at hnull ⊢
  exact hvalue.resolve_left (by simpa using hnull)

def RowTyped (d : TableDef) (r : Row) : Prop := RowOf d.columns r

instance (d : TableDef) (r : Row) : Decidable (RowTyped d r) :=
  inferInstanceAs (Decidable (List.Forall₂ _ _ _))

def TableDef.typeOf (d : TableDef) (col : Nat) : ColumnType := (d.columns[col]?).elim .int Column.ty

theorem RowTyped.length_eq {d : TableDef} {r : Row} (h : RowTyped d r) :
    r.length = d.columns.length := (List.Forall₂.length_eq h).symm

theorem RowTyped.holds {d : TableDef} {r : Row} (h : RowTyped d r) {col : Nat}
    (hcol : col < d.columns.length) (hnull : (r.getD col .null).isNull = false) :
    (d.typeOf col).Holds (r.getD col .null) := by
  rw [TableDef.typeOf, getElem?_eq_getElem hcol]
  exact RowOf.holds h (getElem?_eq_getElem hcol) hnull

/-! ## Tuples -/

namespace IndexDef

def tuple (idx : IndexDef) (r : Row) : List Value := idx.cols.map fun c => r.getD c .null

def Present (idx : IndexDef) (r : Row) : Prop := ∀ v ∈ idx.tuple r, v.isNull = false

instance (idx : IndexDef) (r : Row) : Decidable (idx.Present r) :=
  inferInstanceAs (Decidable (∀ v ∈ idx.tuple r, v.isNull = false))

def Within (idx : IndexDef) (d : TableDef) : Prop := ∀ c ∈ idx.cols, c < d.columns.length

instance (idx : IndexDef) (d : TableDef) : Decidable (idx.Within d) :=
  inferInstanceAs (Decidable (∀ c ∈ idx.cols, c < d.columns.length))

def types (idx : IndexDef) (d : TableDef) : List ColumnType := idx.cols.map d.typeOf

/-- The tuples are equal under the collations of the columns. -/
def Same (env : Env) (idx : IndexDef) (r r' : Row) : Prop :=
  compareTuple env (idx.tuple r) (idx.tuple r') idx.colCollations = some .eq

instance (env : Env) (idx : IndexDef) (r r' : Row) : Decidable (idx.Same env r r') :=
  inferInstanceAs (Decidable (_ = _))

end IndexDef

section

variable {env : Env} {d : TableDef} {idx : IndexDef} {r r' : Row} {x dk : Bytes}
  {colls : List Collation}

theorem holdsAll_tuple (hr : RowTyped d r) (hin : idx.Within d) (hp : idx.Present r) :
    HoldsAll (idx.types d) (idx.tuple r) := by
  rw [IndexDef.types, IndexDef.tuple, HoldsAll, forall₂_map_left_iff,
    forall₂_map_right_iff, forall₂_same]
  exact fun c hc => hr.holds (hin c hc) (hp _ (mem_map_of_mem hc))

theorem encodeColumnsColl_eq (cols : List Nat) (colls : List Collation)
    (hin : ∀ c ∈ cols, c < r.length) :
    env.encodeColumnsColl r cols colls =
      env.encodeKeyColl (cols.map fun c => r.getD c .null) colls := by
  induction cols generalizing colls with
  | nil => rfl
  | cons c cols ih =>
    obtain ⟨hc, hcols⟩ := forall_mem_cons.mp hin
    rw [encodeColumnsColl, ih colls.tail hcols, getElem?_eq_getElem hc, map_cons,
      getD_eq_getElem _ _ hc]
    rfl

theorem encodedOf_eq (hr : RowTyped d r) (hin : idx.Within d) (hp : idx.Present r) :
    env.encodedOf idx r = (env.encodeKeyColl (idx.tuple r) idx.colCollations).toOption := by
  rw [encodedOf, if_neg, encodeColumnsColl_eq _ _ fun c hc => hr.length_eq ▸ hin c hc]
  · rfl
  · rw [any_eq_true]
    rintro ⟨c, hc, hnull⟩
    exact absurd hnull (by rw [hp _ (mem_map_of_mem hc)]; decide)

theorem present_of_encodedOf (h : env.encodedOf idx r = some x) : idx.Present r := by
  unfold encodedOf at h
  split at h
  case isTrue => exact nomatch h
  case isFalse hany =>
    intro v hv
    obtain ⟨c, hc, rfl⟩ := mem_map.mp hv
    simpa using fun hnull => hany (any_eq_true.mpr ⟨c, hc, hnull⟩)

/-- A list of values has a key only if all its types can be part of one. -/
theorem isKeyType_of_encodeKeyColl {tys : List ColumnType} {vs : List Value} (hv : HoldsAll tys vs)
    (h : env.encodeKeyColl vs colls = .ok x) : ∀ ty ∈ tys, ty.isKeyType = true := by
  induction hv generalizing colls x with
  | nil => exact fun _ hty => nomatch hty
  | cons hhead _ ih =>
    obtain ⟨b, hb, h⟩ := except_bind_ok h
    obtain ⟨bs, hbs, -⟩ := except_bind_ok h
    exact forall_mem_cons.mpr ⟨(encodeColl_isOk hhead).mpr ⟨b, hb⟩, ih hbs⟩

theorem encodedOf_isSome_iff (hr : RowTyped d r) (hin : idx.Within d) (hp : idx.Present r) :
    (env.encodedOf idx r).isSome = true ↔ ∀ ty ∈ idx.types d, ty.isKeyType = true := by
  have hholds := holdsAll_tuple hr hin hp
  rw [encodedOf_eq hr hin hp]
  constructor
  · intro h
    cases henc : env.encodeKeyColl (idx.tuple r) idx.colCollations with
    | error e => rw [henc] at h; exact nomatch h
    | ok x => exact isKeyType_of_encodeKeyColl hholds henc
  · intro hkey
    obtain ⟨x, _, hx, -, -⟩ := encodeKeyColl_compared env idx.colCollations hkey hholds hholds
    rw [hx]
    rfl

theorem isNull_of_compareTuple {vs ws : List Value} (h : compareTuple env vs ws colls = some .eq) :
    (∀ v ∈ vs, v.isNull = false) ∧ ∀ w ∈ ws, w.isNull = false := by
  induction vs generalizing ws colls with
  | nil =>
    cases ws with
    | nil => simp
    | cons w ws => exact nomatch h
  | cons v vs ih =>
    cases ws with
    | nil => exact nomatch h
    | cons w ws =>
      rw [compareTuple] at h
      cases hc : env.compareColl (colls.headD .ci) v w with
      | none => rw [hc] at h; exact nomatch h
      | some c =>
        rw [hc] at h
        cases c with
        | lt | gt => exact nomatch h
        | eq =>
          obtain ⟨hvs, hws⟩ := ih h
          have hv : v.isNull = false := by cases v <;> first | rfl | exact nomatch hc
          have hw : w.isNull = false := by
            cases w <;> first | rfl | (cases v <;> exact nomatch hc)
          exact ⟨forall_mem_cons.mpr ⟨hv, hvs⟩, forall_mem_cons.mpr ⟨hw, hws⟩⟩

theorem IndexDef.Same.present (h : idx.Same env r r') : idx.Present r ∧ idx.Present r' :=
  isNull_of_compareTuple h

theorem encodedOf_eq_iff (hr : RowTyped d r) (hr' : RowTyped d r') (hin : idx.Within d) {y : Bytes}
    (hx : env.encodedOf idx r = some x) (hy : env.encodedOf idx r' = some y) :
    x = y ↔ idx.Same env r r' := by
  have hp := present_of_encodedOf hx
  have hp' := present_of_encodedOf hy
  have hkey := (encodedOf_isSome_iff hr hin hp).mp (by rw [hx]; rfl)
  obtain ⟨x', y', hx', hy', hcompared⟩ := encodeKeyColl_compared env idx.colCollations hkey
    (holdsAll_tuple hr hin hp) (holdsAll_tuple hr' hin hp')
  rw [encodedOf_eq hr hin hp, hx'] at hx
  rw [encodedOf_eq hr' hin hp', hy'] at hy
  cases hx
  cases hy
  exact hcompared.eq_iff

/-! ## Entries -/

theorem not_vector_of_mem {k : Bytes} (h : k ∈ env.indexEntryKeys d r dk idx) :
    idx.vector = false := by
  rw [← Bool.not_eq_true]
  intro hv
  rw [indexEntryKeys, if_pos hv] at h
  exact nomatch h

/-- The entry of a row in a B-tree index is under its encoded tuple, or in the keyspace for NULL. -/
theorem mem_indexEntryKeys (hv : idx.vector = false) (hf : idx.fulltext = false) {k : Bytes} :
    k ∈ env.indexEntryKeys d r dk idx ↔
      (∃ x, env.encodedOf idx r = some x ∧ k = entryKeyEncoded d idx x dk) ∨
      (env.encodedOf idx r = none ∧ idx.indexesNulls = true ∧ idx.cols.length = 1 ∧
        (r.getD (idx.cols.headD 0) .null).isNull = true ∧
        k = indexnullPrefix d.storageName idx.name ++ clusteredKey d dk) := by
  unfold indexEntryKeys
  rw [hv, hf]
  cases env.encodedOf idx r with
  | some x => simp
  | none =>
    simp only [if_false, reduceCtorEq, false_and, exists_false, false_or, true_and]
    split
    case isTrue h =>
      simp only [Bool.and_eq_true, beq_iff_eq] at h
      simp only [mem_singleton, h, true_and]
    case isFalse h =>
      simp only [Bool.and_eq_true, beq_iff_eq, not_and] at h
      simp only [not_mem_nil, false_iff, not_and]
      exact fun hnulls hlen hnull => absurd hnull (h ⟨hnulls, hlen⟩)

theorem indexPrefix_ne_indexnullPrefix (storage storage' name name' : Text) (x y : Bytes) :
    indexPrefix storage name ++ x ≠ indexnullPrefix storage' name' ++ y := by
  intro h
  have hfifth : (some 58 : Option (Fin 256)) = some 110 := congrArg (fun k : Bytes => k[5]?) h
  exact absurd hfifth (by decide)

theorem eq_of_clusteredKey {dk' : Bytes} (hk : IsRowKey d dk) (hk' : IsRowKey d dk')
    (h : clusteredKey d dk = clusteredKey d dk') : dk = dk' := by
  obtain ⟨x, rfl⟩ := hk
  obtain ⟨y, rfl⟩ := hk'
  rw [clusteredKey, clusteredKey, drop_left, drop_left] at h
  rw [h]

end

end ElyraSql.Engine
