import ElyraSql.Joins.Loops

/-!
# Materialised joins and the `ON` condition

`combine` against the definition of a join: every left row with every right row, the pairs for
which the condition is true, and the padded rows of the kept sides.
-/

namespace ElyraSql.Joins

open Engine Pairing List Env

/-- A materialised input. Its values need not have the types of the columns: the schema of a
`UNION` is that of its first `SELECT`. -/
structure Relation where
  schema : List Column
  rows : List Row
  width : ∀ r ∈ rows, r.length = schema.length

/-! ## Rows of pairs -/

section
variable {L R : Relation} {kind : JoinKind} {on on' : Row → Row → Bool}

/-- Whether a row has a value. -/
def HasValue (row : Row) : Prop := ∃ v ∈ row, v.isNull = false

theorem hasValue_of_getD {row : Row} {i : Nat} (h : (row.getD i .null).isNull = false) :
    HasValue row := by
  by_cases hi : i < row.length
  · rw [getD_eq_getElem _ _ hi] at h
    exact ⟨_, getElem_mem hi, h⟩
  · rw [getD_eq_default _ _ (by omega)] at h
    exact nomatch h

theorem HasValue.ne_nulls {row : Row} (h : HasValue row) (n : Nat) : row ≠ nulls n := by
  rintro rfl
  obtain ⟨v, hv, hnull⟩ := h
  rw [eq_of_mem_replicate hv] at hnull
  exact nomatch hnull

theorem mem_join_lengths {p : Option Row × Option Row}
    (hp : p ∈ join kind.keepsLeft kind.keepsRight on ↑L.rows ↑R.rows) :
    (p.1.getD (nulls L.schema.length)).length = L.schema.length ∧
      (p.2.getD (nulls R.schema.length)).length = R.schema.length := by
  simp only [join, Multiset.mem_add, or_assoc] at hp
  rcases hp with hp | hp | hp
  · obtain ⟨q, hq, rfl⟩ := Multiset.mem_map.mp hp
    obtain ⟨hq₁, hq₂, -⟩ := mem_pairs.mp hq
    exact ⟨L.width _ hq₁, R.width _ hq₂⟩
  · split at hp
    · obtain ⟨l, hlm, rfl⟩ := Multiset.mem_map.mp hp
      exact ⟨L.width _ (Multiset.mem_filter.mp hlm).1, by simp [nulls]⟩
    · exact absurd hp (Multiset.notMem_zero _)
  · split at hp
    · obtain ⟨r, hrm, rfl⟩ := Multiset.mem_map.mp hp
      exact ⟨by simp [nulls], R.width _ (Multiset.mem_filter.mp hrm).1⟩
    · exact absurd hp (Multiset.notMem_zero _)

theorem count_joined {l r : Row} (hl : l ∈ L.rows) (hr : r ∈ R.rows) (hvl : HasValue l)
    (hvr : HasValue r) :
    (joined L.schema R.schema kind on L.rows R.rows).count (l ++ r) =
      if on l r then (L.rows : Multiset Row).count l * (R.rows : Multiset Row).count r else 0 := by
  have hlen := L.width l hl
  have hemit : ∀ p ∈ join kind.keepsLeft kind.keepsRight on (L.rows : Multiset Row) ↑R.rows,
      (l ++ r = emit L.schema.length R.schema.length p ↔ (some l, some r) = p) := by
    rintro ⟨a, b⟩ hp
    have hlens := mem_join_lengths hp
    constructor
    · intro h
      obtain ⟨ha, hb⟩ := append_inj h (hlen.trans hlens.1.symm)
      cases a with
      | none => exact absurd ha (hvl.ne_nulls _)
      | some a =>
        cases b with
        | none => exact absurd hb (hvr.ne_nulls _)
        | some b =>
          cases ha
          cases hb
          rfl
    · rintro ⟨⟩
      rfl
  rw [joined, Multiset.count_map, Multiset.filter_congr hemit, ← Multiset.countP_eq_card_filter,
    ← Multiset.count, join, Multiset.count_add, Multiset.count_add]
  have hpairs : ((pairs on (L.rows : Multiset Row) ↑R.rows).map
      fun p => (some p.1, some p.2)).count (some l, some r) =
        (pairs on (L.rows : Multiset Row) ↑R.rows).count (l, r) := by
    refine Multiset.count_map_eq_count' (fun p => (some p.1, some p.2)) _ ?_ (l, r)
    rintro ⟨a, b⟩ ⟨c, d⟩ h
    simpa using h
  have hleft : (if kind.keepsLeft then (lonely on (L.rows : Multiset Row) ↑R.rows).map
      fun l => (some l, (none : Option Row)) else 0).count (some l, some r) = 0 := by
    split <;> simp
  have hright : (if kind.keepsRight then (lonely (fun r l => on l r) (R.rows : Multiset Row)
      ↑L.rows).map fun r => ((none : Option Row), some r) else 0).count (some l, some r) = 0 := by
    split <;> simp
  rw [hpairs, count_pairs, hleft, hright, Nat.add_zero]

/-- Conditions that give the same rows decide alike every pair of rows with values. -/
theorem joined_inj (h : joined L.schema R.schema kind on L.rows R.rows =
      joined L.schema R.schema kind on' L.rows R.rows) {l r : Row} (hl : l ∈ L.rows)
    (hr : r ∈ R.rows) (hvl : HasValue l) (hvr : HasValue r) : on l r = on' l r := by
  have hcount := congrArg (Multiset.count (l ++ r)) h
  rw [count_joined hl hr hvl hvr, count_joined hl hr hvl hvr] at hcount
  have hpos : 0 < (L.rows : Multiset Row).count l * (R.rows : Multiset Row).count r :=
    Nat.mul_pos (Multiset.count_pos.mpr hl) (Multiset.count_pos.mpr hr)
  cases hon : on l r <;> cases hon' : on' l r <;>
    simp only [hon, hon', if_true, Bool.false_eq_true, if_false] at hcount ⊢ <;> omega

end

/-! ## The fast comparison -/

/-- The verdict of the condition on a pair of rows. -/
def written (env : Env) (L R : Relation) (on : JoinExpr) (l r : Row) : Bool :=
  truth (matchesRow env L.schema R.schema on l r)

def reference (env : Env) (L R : Relation) (kind : JoinKind) (on : JoinExpr) : Multiset Row :=
  joined L.schema R.schema kind (written env L R on) L.rows R.rows

/-- What holds of every two values of two columns that are not NULL. -/
def OnValues (L R : Relation) (i j : Nat) (P : Value → Value → Prop) : Prop :=
  ∀ l ∈ L.rows, ∀ r ∈ R.rows, (l.getD i .null).isNull = false → (r.getD j .null).isNull = false →
    P (l.getD i .null) (r.getD j .null)

/-- A text against a JSON document, which are compared in one order. -/
def mixed : Value → Value → Bool
  | .text _, .json _ | .json _, .text _ => true
  | _, _ => false

/-- Two values for which it does not matter that the comparison is made from the other side. -/
def EitherWay (env : Env) (op : BinaryOp) (x y : Value) : Prop :=
  match op with
  | .eq => True
  | .notEq => (env.compareColl .ci x y).isSome = true
  | _ => mixed x y = true ∨ ∀ o ∈ env.compareColl .ci x y, o = .eq

/-- A condition that is a comparison of two columns. With the left table's column first, `<>` must
meet no values that cannot be compared. With the right table's column first the operator is not
turned: `<`, `<=`, `>` and `>=` must meet no two values of which one is the smaller. -/
def FastAgrees (env : Env) (L R : Relation) : JoinExpr → Prop
  | .binary op a b =>
    isComparison op = true →
    match exprColIndex a, exprColIndex b with
    | some (.left, i), some (.right, j) =>
      let coll := joinKeyCollation L.schema R.schema (i, j)
      op = .notEq → OnValues L R i j fun x y => (env.compareColl coll x y).isSome = true
    | some (.right, j), some (.left, i) => OnValues L R i j (EitherWay env op)
    | _, _ => True
  | _ => True

/-- What is taken for granted of a join. -/
structure Regular (env : Env) (L R : Relation) (kind : JoinKind) (on : JoinExpr) : Prop where
  /-- The condition has a value on every pair of rows. -/
  eval : ∀ l ∈ L.rows, ∀ r ∈ R.rows, ∃ b, matchesRow env L.schema R.schema on l r = .ok b
  /-- `f64::partial_cmp` is antisymmetric. -/
  f64Cmp_swap : ∀ f g, env.f64Cmp g f = (env.f64Cmp f g).map .swap
  /-- The inputs of a hash or merge join hold values of their columns' types. -/
  typed : hashPlan L.schema R.schema kind (some on) ≠ none →
    (∀ l ∈ L.rows, RowOf L.schema l) ∧ ∀ r ∈ R.rows, RowOf R.schema r
  /-- No two inputs that are large enough to be merged have a text key on the left and a JSON key on
  the right. -/
  direction : ∀ key, hashPlan L.schema R.schema kind (some on) = some ([key], none) →
    mergeMin ≤ L.rows.length → mergeMin ≤ R.rows.length → ¬ TextJson L.schema R.schema key
  /-- A binary collation makes no difference to a comparison with the right table's column first. -/
  collation : ∀ op a b i j, on = .binary op a b → exprColIndex a = some (.right, j) →
    exprColIndex b = some (.left, i) → hashPlan L.schema R.schema kind (some on) = none →
    OnValues L R i j fun x y =>
      env.compareColl (joinKeyCollation L.schema R.schema (i, j)) y x = env.compareColl .ci y x

/-! ## Comparisons from the other side -/

section
variable {env : Env}

theorem compare_bytes_swap {x y : Bytes} :
    some (compare y x) = (some (compare x y)).map .swap := by
  simp only [List.compare_eq_compareLex]
  exact congrArg some Std.OrientedCmp.eq_swap

theorem cmpViews_swap (x y : Option Int) : cmpViews y x = (cmpViews x y).map .swap := by
  cases x <;> cases y <;>
    first
      | rfl
      | exact congrArg some Std.OrientedCmp.eq_swap

variable (hf64 : ∀ f g, env.f64Cmp g f = (env.f64Cmp f g).map .swap)
include hf64

theorem cmpNumeric_swap (x y : Value) : env.cmpNumeric y x = (env.cmpNumeric x y).map .swap := by
  rw [cmpNumeric, cmpNumeric]
  cases env.asMysqlF64 x <;> cases env.asMysqlF64 y <;>
    first
      | rfl
      | exact hf64 ..

theorem compareColl_swap (coll : Collation) (x y : Value) :
    env.compareColl coll y x = if mixed x y then env.compareColl coll x y
      else (env.compareColl coll x y).map .swap := by
  cases x <;> cases y <;> simp only [compareColl, mixed, if_true, Bool.false_eq_true, if_false] <;>
    first
      | rfl
      | exact cmpViews_swap ..
      | exact cmpNumeric_swap hf64 ..
      | exact compare_bytes_swap
      | exact congrArg some (cmpDecimal_swap ..)
      | exact congrArg some Std.OrientedCmp.eq_swap

theorem eitherWay_iff {op : BinaryOp} (hop : isComparison op = true) (x y : Value) :
    crossTest op (env.compareColl .ci x y) = orderTest op (env.compareColl .ci y x) ↔
      EitherWay env op x y := by
  have hmixed : mixed x y = true → (env.compareColl .ci x y).isSome = true := by
    cases x <;> cases y <;> simp [mixed, compareColl]
  rw [compareColl_swap hf64 .ci x y]
  unfold EitherWay
  generalize env.compareColl .ci x y = o at hmixed ⊢
  generalize mixed x y = m at hmixed ⊢
  cases op <;> cases hop <;> rcases o with _ | _ | _ | _ <;> cases m <;>
    simp_all [crossTest, orderTest] <;> rfl

end

section
variable {env : Env} {L R : Relation} {l r : Row} {op : BinaryOp} {a b on : JoinExpr} {i j : Nat}
  {made said : Value → Value → Bool}

theorem crossTest_eq_iff (hop : isComparison op = true) (o : Option Ordering) :
    crossTest op o = orderTest op o ↔ (op = .notEq → o.isSome = true) := by
  rcases o with _ | _ | _ | _ <;> cases op <;>
    simp_all [crossTest] <;> rfl

theorem truthy_comparison (coll : Collation) (x y : Value) :
    env.truthy (comparison env op coll x y) =
      (!x.isNull && !y.isNull && orderTest op (env.compareColl coll x y)) := by
  rw [comparison]
  cases x.isNull <;> cases y.isNull <;> simp [truthy_null, truthy_bool]

/-- Every pair is decided by a test of the values of two columns, and so says the condition. -/
structure Decides (env : Env) (L R : Relation) (on : JoinExpr) (i j : Nat)
    (made said : Value → Value → Bool) : Prop where
  made : ∀ l r : Row, truth (pairTest env L.schema R.schema (some on) l r) =
    (!(l.getD i .null).isNull && !(r.getD j .null).isNull && made (l.getD i .null) (r.getD j .null))
  said : ∀ l r : Row, written env L R on l r =
    (!(l.getD i .null).isNull && !(r.getD j .null).isNull && said (l.getD i .null) (r.getD j .null))

/-- The loop decides pairs as the condition says iff the two tests agree. -/
theorem Decides.iff_onValues (h : Decides env L R on i j made said) :
    (∀ l ∈ L.rows, ∀ r ∈ R.rows, truth (pairTest env L.schema R.schema (some on) l r) =
      written env L R on l r) ↔ OnValues L R i j fun x y => made x y = said x y := by
  constructor
  · intro hsame l hl r hr hx hy
    have hlr := hsame l hl r hr
    rw [h.made, h.said, hx, hy] at hlr
    exact hlr
  · intro htests l hl r hr
    rw [h.made, h.said]
    cases hx : (l.getD i .null).isNull
    · cases hy : (r.getD j .null).isNull
      · rw [htests l hl r hr hx hy]
      · rfl
    · rfl

/-- A pair that is decided otherwise than the condition says has values on both sides. -/
theorem Decides.hasValue (h : Decides env L R on i j made said)
    (hne : truth (pairTest env L.schema R.schema (some on) l r) ≠ written env L R on l r) :
    HasValue l ∧ HasValue r := by
  rw [h.made, h.said] at hne
  constructor
  · refine @hasValue_of_getD l i (Bool.eq_false_iff.mpr fun hx => hne ?_)
    rw [hx]
    rfl
  · refine @hasValue_of_getD r j (Bool.eq_false_iff.mpr fun hy => hne ?_)
    rw [hy, Bool.not_true, Bool.and_false]
    rfl

/-- The key of a merge join is a pair of columns of compatible types. -/
theorem compatible_of_split {L R : List Column} {key : JoinKeyPair} {residual : Option JoinExpr}
    (h : equiKeySplit L R on = some ([key], residual)) : hashKeyPairCompatible L R key = true := by
  simp only [equiKeySplit] at h
  split at h
  · cases h
  have hkeys : (splitAnd on).filterMap (hashKeyOf L R) = [key] :=
    congrArg Prod.fst (Option.some.inj h)
  obtain ⟨c, -, hkey⟩ := mem_filterMap.mp (hkeys ▸ mem_singleton_self key)
  exact (hashKeyOf_some hkey).1

theorem decides_inOrder (hop : isComparison op = true) (ha : exprColIndex a = some (.left, i))
    (hb : exprColIndex b = some (.right, j)) :
    let coll := joinKeyCollation L.schema R.schema (i, j)
    Decides env L R (.binary op a b) i j (fun x y => crossTest op (env.compareColl coll x y))
      fun x y => orderTest op (env.compareColl coll x y) := by
  refine ⟨fun l r => ?_, fun l r => ?_⟩
  · have hbin : (if (decide (collationAt L.schema i = .bin) ||
        decide (collationAt R.schema j = .bin)) = true then Collation.bin else .ci) =
          joinKeyCollation L.schema R.schema (i, j) := by
      simp only [joinKeyCollation, Bool.or_eq_true, decide_eq_true_eq]
    simp only [pairTest, crossComparison, hop, ha, hb, Bool.not_true, Bool.false_eq_true, if_false,
      truth, CrossComparison.matchesRow, hbin]
  · rw [written, matchesRow, (eval_comparison hop ha hb).1]
    exact truthy_comparison ..

theorem decides_reversed (hop : isComparison op = true) (ha : exprColIndex a = some (.right, j))
    (hb : exprColIndex b = some (.left, i)) :
    Decides env L R (.binary op a b) i j (fun x y => crossTest op (env.compareColl .ci x y))
      fun x y =>
        orderTest op (env.compareColl (joinKeyCollation L.schema R.schema (i, j)) y x) := by
  refine ⟨fun l r => ?_, fun l r => ?_⟩
  · simp only [pairTest, crossComparison, hop, ha, hb, Bool.not_true, Bool.false_eq_true, if_false,
      truth, CrossComparison.matchesRow]
  · rw [written, matchesRow, (eval_comparison hop hb ha).2,
      Bool.and_comm (!(l.getD i .null).isNull)]
    exact truthy_comparison ..

variable {kind : JoinKind} {keys : List JoinKeyPair} {residual : Option JoinExpr}
  (hreg : Regular env L R kind on)
include hreg

/-- The loop decides every pair as the condition says, or by a test of two columns. -/
theorem pairTest_cases (hplan : hashPlan L.schema R.schema kind (some on) = none) :
    (FastAgrees env L R on ∧ ∀ l r, truth (pairTest env L.schema R.schema (some on) l r) =
      written env L R on l r) ∨
    ∃ i j made said, Decides env L R on i j made said ∧
      ((OnValues L R i j fun x y => made x y = said x y) ↔ FastAgrees env L R on) := by
  have hnone : crossComparison L.schema R.schema on = none →
      ∀ l r, truth (pairTest env L.schema R.schema (some on) l r) = written env L R on l r :=
    fun h l r => by simp only [pairTest, h, written]
  cases on with
  | binary op a b =>
    by_cases hop : isComparison op = true
    · simp only [FastAgrees, hop, true_imp_iff]
      simp only [crossComparison, hop, Bool.not_true, Bool.false_eq_true, if_false] at hnone
      split
      · next i j ha hb =>
        refine .inr ⟨i, j, _, _, decides_inOrder hop ha hb, ?_⟩
        simp only [OnValues, crossTest_eq_iff hop]
        constructor
        · exact fun h hne l hl r hr hx hy => h l hl r hr hx hy hne
        · exact fun h l hl r hr hx hy hne => h hne l hl r hr hx hy
      · next j i ha hb =>
        refine .inr ⟨i, j, _, _, decides_reversed hop ha hb, ?_⟩
        have hcoll := hreg.collation op a b i j rfl ha hb hplan
        refine forall₂_congr fun l hl => forall₂_congr fun r hr => forall₂_congr fun hx hy => ?_
        dsimp only
        rw [hcoll l hl r hr hx hy, eitherWay_iff hreg.f64Cmp_swap hop]
      · next h₁ h₂ =>
        refine .inl ⟨trivial, hnone ?_⟩
        split
        · next i j ha hb => exact absurd hb (h₁ i j ha)
        · next j i ha hb => exact absurd hb (h₂ j i ha)
        · rfl
    · refine .inl ⟨fun h => absurd h hop, hnone ?_⟩
      simp only [crossComparison, hop, Bool.not_false, if_true]
  | _ => exact .inl ⟨trivial, hnone rfl⟩

/-! ## The join -/

/-- The fast comparison, which is made where the join has no hash keys, agrees with the condition.
-/
def Agrees (env : Env) (L R : Relation) (kind : JoinKind) (on : JoinExpr) : Prop :=
  hashPlan L.schema R.schema kind (some on) = none → FastAgrees env L R on

theorem combine_nested (hplan : hashPlan L.schema R.schema kind (some on) = none) :
    ∃ out, combine env L.schema R.schema L.rows R.rows kind (some on) = .ok out ∧
      ((out : Multiset Row) = reference env L R kind on ↔ Agrees env L R kind on) := by
  have htest : ∀ l ∈ L.rows, ∀ r ∈ R.rows,
      ∃ v, pairTest env L.schema R.schema (some on) l r = .ok v := fun l hl r hr => by
    simp only [pairTest]
    split
    · exact ⟨_, rfl⟩
    · exact hreg.eval l hl r hr
  obtain ⟨out, hout, hrows⟩ := nestedJoin_ok htest
  refine ⟨out, by rw [combine, hplan]; exact hout, ?_⟩
  rw [hrows, Agrees, imp_iff_right hplan]
  rcases pairTest_cases hreg hplan with ⟨hagree, hsame⟩ | ⟨i, j, made, said, hdec, hiff⟩
  · exact iff_of_true (joined_congr fun l _ r _ => hsame l r) hagree
  · rw [← hiff, ← hdec.iff_onValues]
    constructor
    · intro heq l hl r hr
      by_contra hne
      obtain ⟨hvl, hvr⟩ := hdec.hasValue hne
      exact hne (joined_inj heq hl hr hvl hvr)
    · exact joined_congr

/-- Keys and residual condition decide every pair as the condition says. -/
theorem hash_agrees (hplan : hashPlan L.schema R.schema kind (some on) = some (keys, residual))
    (hsplit : equiKeySplit L.schema R.schema on = some (keys, residual))
    (hl : l ∈ L.rows) (hr : r ∈ R.rows) :
    (keys.all (keyEqual env L.schema R.schema l r) = true →
      ∃ v, residualMatches env L.schema R.schema residual l r = .ok v) ∧
    (keys.all (keyEqual env L.schema R.schema l r) &&
      truth (residualMatches env L.schema R.schema residual l r)) = written env L R on l r := by
  obtain ⟨v, hv⟩ := hreg.eval l hl r hr
  have htyped := hreg.typed (by rw [hplan]; exact Option.some_ne_none _)
  have hdec := keys_and_rest hsplit (htyped.1 l hl) (htyped.2 r hr) hv
  rw [written, hv]
  split at hdec
  · next hall => exact ⟨fun _ => ⟨v, hdec⟩, by rw [hall, hdec]; rfl⟩
  · next hall =>
    refine ⟨fun h => absurd h hall, ?_⟩
    rw [Bool.eq_false_iff.mpr hall, hdec]
    rfl

theorem combine_hash (hplan : hashPlan L.schema R.schema kind (some on) = some (keys, residual)) :
    ∃ out, combine env L.schema R.schema L.rows R.rows kind (some on) = .ok out ∧
      (out : Multiset Row) = reference env L R kind on := by
  obtain ⟨hkind, hsplit⟩ : kind ≠ .full ∧
      equiKeySplit L.schema R.schema on = some (keys, residual) := by
    rw [hashPlan] at hplan
    split at hplan
    · exact nomatch hplan
    · next hkind => exact ⟨hkind, hplan⟩
  have hpairs : ∀ l ∈ L.rows, ∀ r ∈ R.rows, _ :=
    fun l hl r hr => hash_agrees hreg hplan hsplit hl hr
  cases hmerge : tryMerge env L.schema R.schema L.rows R.rows keys residual kind with
  | none =>
    obtain ⟨out, hout, hrows⟩ := hashJoin_ok hkind fun l hl r hr => (hpairs l hl r hr).1
    refine ⟨out, by rw [combine, hplan]; simp only [hmerge]; exact hout, ?_⟩
    rw [hrows]
    exact joined_congr fun l hl r hr => (hpairs l hl r hr).2
  | some out =>
    obtain ⟨key, ls, rs, ⟨rfl, rfl, rfl, hminl, hminr⟩, hci, hls, hrs, hout⟩ :=
      merges_of_tryMerge hmerge
    obtain ⟨hl, hr⟩ := hreg.typed (by rw [hplan]; exact Option.some_ne_none _)
    refine ⟨out, by rw [combine, hplan]; simp only [hmerge], ?_⟩
    rw [mergeJoinInner_joined (compatible_of_split hsplit) hl hr
      (hreg.direction key hplan hminl hminr) hci hls hrs hout]
    refine joined_congr fun l hl r hr => ?_
    have h := (hpairs l hl r hr).2
    simpa only [all_cons, all_nil, Bool.and_true, residualMatches, truth] using h

/-- The rows of the join are those of the definition iff the fast comparison agrees with the
condition. -/
theorem combine_agrees_iff :
    (∃ out, combine env L.schema R.schema L.rows R.rows kind (some on) = .ok out ∧
      (out : Multiset Row) = reference env L R kind on) ↔ Agrees env L R kind on := by
  cases hplan : hashPlan L.schema R.schema kind (some on) with
  | none =>
    obtain ⟨out, hout, hiff⟩ := combine_nested hreg hplan
    rw [hout, ← hiff]
    constructor
    · rintro ⟨out', heq, href⟩
      cases heq
      exact href
    · exact fun href => ⟨out, rfl, href⟩
  | some plan =>
    exact iff_of_true (combine_hash hreg hplan) fun hnone => nomatch hnone.symm.trans hplan

omit hreg

end

/-! ## Tables of equal rows -/

def copies (n : Nat) (v : Int64) : Relation where
  schema := [⟨['v'], .int, true, .ci⟩]
  rows := List.replicate n [.int v]
  width := fun r hr => by rw [eq_of_mem_replicate hr]; rfl

theorem copies_regular {n m : Nat} {v w : Int64} {kind : JoinKind} {on : JoinExpr} {b : Bool}
    (h : matchesRow Env.plain (copies n v).schema
      (copies m w).schema on [.int v] [.int w] = .ok b) :
    Regular Env.plain (copies n v) (copies m w) kind on where
  eval l hl r hr := ⟨b, by rw [eq_of_mem_replicate hl, eq_of_mem_replicate hr]; exact h⟩
  f64Cmp_swap _ _ := congrArg some Std.OrientedCmp.eq_swap
  typed _ := by
    constructor <;> intro r hr <;> rw [eq_of_mem_replicate hr] <;>
      exact .cons (.inr (.int _)) .nil
  direction key _ _ _ h := by
    rcases key with ⟨_ | i, j⟩ <;> exact nomatch h.1
  collation op a b i j _ _ _ _ := by
    have hci : ∀ n v i, collationAt (copies n v).schema i = .ci := fun n v i => by
      cases i <;> rfl
    rw [joinKeyCollation, hci, hci]
    exact fun _ _ _ _ _ _ => rfl

/-- `a.v < b.v`, a nested loop; `LEFT JOIN … ON a.v = b.v AND a.v < b.v`, a hash join with a
residual condition; and `b.v = a.v` between tables of 2048 rows, a merge join. -/
theorem combine_agrees_iff_loops :
    let lt : JoinExpr := .binary .lt (.column .left 0) (.column .right 0)
    let eq : JoinExpr := .binary .eq (.column .right 0) (.column .left 0)
    let agree := fun (L R : Relation) (kind : JoinKind) (on : JoinExpr) =>
      ∃ out, combine Env.plain L.schema R.schema L.rows R.rows kind (some on) = .ok out ∧
        (out : Multiset Row) = reference Env.plain L R kind on
    agree (copies 1 1) (copies 2 2) .full lt ∧
      agree (copies 2 1) (copies 3 1) .left (.binary .and eq lt) ∧
      agree (copies 2048 1) (copies 2048 1) .inner eq := by
  refine ⟨?_, ?_, ?_⟩
  · exact (combine_agrees_iff (copies_regular (b := true) rfl)).mpr fun _ _ h => nomatch h
  · exact (combine_agrees_iff (copies_regular (b := false) rfl)).mpr fun h => nomatch h
  · exact (combine_agrees_iff (copies_regular (b := true) rfl)).mpr fun h => nomatch h

/-- `a JOIN b ON b.v < a.v` with 1 in `a` and 2 in `b`: the comparison made is 1 < 2. -/
theorem combine_keeps_reversed_pair :
    combine Env.plain (copies 1 1).schema (copies 1 2).schema (copies 1 1).rows (copies 1 2).rows
        .inner (some (.binary .lt (.column .right 0) (.column .left 0))) =
          .ok [[.int 1, .int 2]] ∧
      reference Env.plain (copies 1 1) (copies 1 2) .inner
        (.binary .lt (.column .right 0) (.column .left 0)) = 0 := by
  decide +kernel

end ElyraSql.Joins
