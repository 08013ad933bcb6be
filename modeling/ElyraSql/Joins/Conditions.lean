import ElyraSql.Engine.CompiledAgreement
import ElyraSql.Engine.Decimals
import ElyraSql.Engine.Logic
import ElyraSql.Engine.Tuples
import ElyraSql.Joins.Combine

/-!
# What a join condition says of a pair of rows
-/

namespace ElyraSql.Joins

open Engine ReadProgram List Except Kleene

/-- A test's verdict, where it has one. -/
def truth : Result Bool → Bool
  | .ok b => b
  | .error _ => false

/-- The truth value of a list of conjuncts, evaluated up to the first false one. -/
def conjunction (env : Env) (L R : List Column) (l r : Row) : List JoinExpr → Result (Option Bool)
  | [] => .ok (some true)
  | e :: es => do
    let v ← evalRow env L R l r e
    if env.bool3 v = some false then .ok (some false)
    else do
      let t ← conjunction env L R l r es
      .ok (Kleene.and (env.bool3 v) t)

section
variable {env : Env} {L R : List Column} {l r : Row}

/-! ## Conjunctions -/

theorem conjunction_append (xs ys : List JoinExpr) :
    conjunction env L R l r (xs ++ ys) =
      (conjunction env L R l r xs).bind fun s =>
        if s = some false then .ok (some false)
        else (conjunction env L R l r ys).map (Kleene.and s) := by
  induction xs with
  | nil =>
    cases h : conjunction env L R l r ys with
    | error e => simp [conjunction, h, Except.bind, Except.map]
    | ok t => rcases t with _ | _ | _ <;> simp [conjunction, h, Except.bind, Except.map, Kleene.and]
  | cons x xs ih =>
    simp only [cons_append, conjunction, ih]
    cases evalRow env L R l r x with
    | error e => rfl
    | ok v =>
      simp only [bind, Except.bind]
      by_cases hv : env.bool3 v = some false
      · simp [hv]
      simp only [hv]
      cases conjunction env L R l r xs with
      | error e => rfl
      | ok s =>
        rcases hb : env.bool3 v with _ | _ | _ <;> rcases s with _ | _ | _ <;>
          first
            | exact absurd hb hv
            | (cases conjunction env L R l r ys with
                | error e => simp [Kleene.and, Except.map]
                | ok t => rcases t with _ | _ | _ <;> simp [Kleene.and, Except.map])

theorem bool3_bool (b : Bool) : env.bool3 (.bool b) = some b := rfl

/-- A condition is evaluated conjunct by conjunct, up to the first false one. -/
theorem conjunction_splitAnd (e : JoinExpr) :
    conjunction env L R l r (splitAnd e) = (evalRow env L R l r e).map env.bool3 := by
  induction e using splitAnd.induct with
  | case1 a b iha ihb =>
    rw [splitAnd, conjunction_append, iha, ihb, evalRow]
    cases evalRow env L R l r a with
    | error e => rfl
    | ok x =>
      cases evalRow env L R l r b with
      | error e =>
        by_cases hx : env.bool3 x = some false <;>
          simp [Except.map, bind, Except.bind, Env.binaryOp, hx, bool3_bool]
      | ok y =>
        rcases hx : env.bool3 x with _ | _ | _ <;> rcases hy : env.bool3 y with _ | _ | _ <;>
          simp [Except.map, bind, Except.bind, Env.binaryOp, hx, hy] <;> rfl
  | case2 e h =>
    rw [show splitAnd e = [e] by rw [splitAnd]; exact h, conjunction]
    cases evalRow env L R l r e with
    | error e => rfl
    | ok v =>
      simp only [bind, Except.bind, conjunction, Except.map]
      rcases env.bool3 v with _ | _ | _ <;> simp [Kleene.and]

theorem matchesRow_eq (e : JoinExpr) :
    matchesRow env L R e l r =
      (conjunction env L R l r (splitAnd e)).map fun t => t == some true := by
  rw [conjunction_splitAnd, matchesRow]
  cases evalRow env L R l r e with
  | error e => rfl
  | ok v =>
    simp only [Except.map, Except.ok.injEq]
    rw [Bool.eq_iff_iff, truthy_iff_bool3, beq_iff_eq]

variable {e : JoinExpr} {es : List JoinExpr} {op : BinaryOp}

/-- A list of conjuncts with a value: the first has one, and the others do unless it is false. -/
theorem conjunction_cons {t : Option Bool} (h : conjunction env L R l r (e :: es) = .ok t) :
    ∃ v, evalRow env L R l r e = .ok v ∧
      (env.bool3 v = some false ∧ t = some false ∨ env.bool3 v ≠ some false ∧
        ∃ s, conjunction env L R l r es = .ok s ∧ t = and (env.bool3 v) s) := by
  obtain ⟨v, hv, h⟩ := except_bind_ok h
  refine ⟨v, hv, ?_⟩
  split at h
  · next hfalse => exact .inl ⟨hfalse, (ok.inj h).symm⟩
  · next hfalse =>
    obtain ⟨s, hs, h⟩ := except_bind_ok h
    exact .inr ⟨hfalse, s, hs, (ok.inj h).symm⟩

theorem conjunct_true (h : conjunction env L R l r es = .ok (some true)) (he : e ∈ es) :
    ∃ v, evalRow env L R l r e = .ok v ∧ env.bool3 v = some true := by
  induction es with
  | nil => exact nomatch he
  | cons x xs ih =>
    obtain ⟨v, hv, ⟨-, ht⟩ | ⟨-, s, hs, ht⟩⟩ := conjunction_cons h
    · exact nomatch ht
    have hand : ∀ x y : Option Bool,
        some true = and x y → x = some true ∧ y = some true := by decide
    have hboth := hand _ _ ht
    rcases mem_cons.mp he with rfl | he
    · exact ⟨v, hv, hboth.1⟩
    · exact ih (hboth.2 ▸ hs) he

/-- Conjuncts that are true whenever they are evaluated can be left out. -/
theorem conjunction_filter {p : JoinExpr → Bool} {t : Option Bool}
    (hp : ∀ e ∈ es, p e = false → ∀ v, evalRow env L R l r e = .ok v → env.bool3 v = some true)
    (h : conjunction env L R l r es = .ok t) : conjunction env L R l r (es.filter p) = .ok t := by
  induction es generalizing t with
  | nil => exact h
  | cons x xs ih =>
    have ih' := fun {t} => @ih t fun e he => hp e (mem_cons_of_mem _ he)
    obtain ⟨v, hv, hrest⟩ := conjunction_cons h
    by_cases hpx : p x = true
    · rw [filter_cons_of_pos hpx, conjunction, hv]
      rcases hrest with ⟨hfalse, rfl⟩ | ⟨hfalse, s, hs, rfl⟩
      · simp only [bind, Except.bind, hfalse, if_true]
      · simp only [bind, Except.bind, hfalse, if_false, ih' hs]
    · have htrue := hp x mem_cons_self (Bool.eq_false_iff.mpr hpx) v hv
      rw [filter_cons_of_neg hpx]
      rcases hrest with ⟨hfalse, -⟩ | ⟨-, s, hs, rfl⟩
      · exact nomatch htrue.symm.trans hfalse
      · rw [ih' hs, htrue]
        rcases s with _ | _ | _ <;> rfl

/-! ## Columns -/

def cell (l r : Row) : Side × Nat → Value
  | (.left, i) => l.getD i .null
  | (.right, j) => r.getD j .null

def collationOf (L R : List Column) : Side × Nat → Collation
  | (.left, i) => collationAt L i
  | (.right, j) => collationAt R j

variable {c : Side × Nat} (h : exprColIndex e = some c)
include h

theorem evalRow_column : evalRow env L R l r e = .ok (cell l r c) := by
  induction e with
  | column side i => cases h; cases side <;> rfl
  | nested e ih => exact ih h
  | _ => exact nomatch h

theorem explicitCollation_column : explicitCollation e = none := by
  induction e with
  | column side i => rfl
  | nested e ih => exact ih h
  | _ => exact nomatch h

theorem exprCollation_column : exprCollation L R e = some (collationOf L R c) := by
  induction e with
  | column side i => cases h; cases side <;> rfl
  | nested e ih => exact ih h
  | _ => exact nomatch h

omit h

def comparison (env : Env) (op : BinaryOp) (coll : Collation) (x y : Value) : Value :=
  if x.isNull || y.isNull then .null else .bool (Env.orderTest op (env.compareColl coll x y))

theorem binaryOp_comparison_eq (hop : isComparison op = true) (x y : Value) (coll : Collation) :
    env.binaryOp op x (.ok y) coll = .ok (comparison env op coll x y) := by
  cases op <;> simp only [isComparison, Bool.false_eq_true] at hop <;>
    · simp only [Env.binaryOp, bind, Except.bind, comparison]
      split <;> rfl

theorem eval_comparison (hop : isComparison op = true) {a b : JoinExpr} {i j : Nat}
    (ha : exprColIndex a = some (.left, i)) (hb : exprColIndex b = some (.right, j)) :
    evalRow env L R l r (.binary op a b) = .ok (comparison env op (joinKeyCollation L R (i, j))
      (l.getD i .null) (r.getD j .null)) ∧
    evalRow env L R l r (.binary op b a) = .ok (comparison env op (joinKeyCollation L R (i, j))
      (r.getD j .null) (l.getD i .null)) := by
  simp only [evalRow, evalRow_column ha, evalRow_column hb, bind, Except.bind, cell,
    binaryOp_comparison_eq hop, cmpCollation, explicitCollation_column ha,
    explicitCollation_column hb, Option.or_none, exprCollation_column ha, exprCollation_column hb,
    collationOf, Option.some.injEq, joinKeyCollation, true_and]
  simp only [or_comm]

/-! ## Keys -/

/-- The two rows have the same key, and none is NULL. -/
def keyEqual (env : Env) (L R : List Column) (l r : Row) (key : JoinKeyPair) : Bool :=
  let x := l.getD key.1 .null
  let y := r.getD key.2 .null
  let coll := joinKeyCollation L R key
  !x.isNull && !y.isNull && env.collationKey coll x == env.collationKey coll y

variable {key : JoinKeyPair} {c : JoinExpr}

theorem compatible_columns (h : hashKeyPairCompatible L R key = true) :
    ∃ c d, L[key.1]? = some c ∧ R[key.2]? = some d ∧ hashKeyTypesCompatible c.ty d.ty = true := by
  unfold hashKeyPairCompatible at h
  split at h
  · next c d hc hd => exact ⟨c, d, hc, hd, h⟩
  · exact nomatch h

theorem hashKeyTypesCompatible_comm (s t : ColumnType) :
    hashKeyTypesCompatible s t = hashKeyTypesCompatible t s := by
  cases s <;> cases t <;> simp [hashKeyTypesCompatible, Bool.beq_comm]

/-- The keys are the same iff the comparison finds the columns equal, either way round. -/
theorem keyEqual_eq (h : hashKeyPairCompatible L R key = true) (hl : RowOf L l) (hr : RowOf R r) :
    let x := l.getD key.1 .null
    let y := r.getD key.2 .null
    let same := fun x y => env.compareColl (joinKeyCollation L R key) x y == some .eq
    keyEqual env L R l r key = (!x.isNull && !y.isNull && same x y) ∧
      keyEqual env L R l r key = (!y.isNull && !x.isNull && same y x) := by
  intro x y same
  set coll := joinKeyCollation L R key
  obtain ⟨c, d, hc, hd, hcd⟩ := compatible_columns h
  rw [Bool.and_comm (!y.isNull), show keyEqual env L R l r key =
    (!x.isNull && !y.isNull && env.collationKey coll x == env.collationKey coll y) from rfl]
  cases hx : x.isNull
  · cases hy : y.isNull
    · have hxc := hl.holds hc hx
      have hyd := hr.holds hd hy
      have hdc : hashKeyTypesCompatible d.ty c.ty = true := hashKeyTypesCompatible_comm .. ▸ hcd
      constructor <;> rw [Bool.eq_iff_iff] <;>
        simp only [Bool.not_false, Bool.true_and, beq_iff_eq, same]
      · exact collationKey_eq_iff hxc hyd hcd
      · exact eq_comm.trans (collationKey_eq_iff hyd hxc hdc)
    · exact ⟨rfl, rfl⟩
  · exact ⟨rfl, rfl⟩

theorem bool3_comparison {coll : Collation} {x y : Value} :
    env.bool3 (comparison env op coll x y) = some true ↔
      (!x.isNull && !y.isNull && Env.orderTest op (env.compareColl coll x y)) = true := by
  rw [comparison]
  cases x.isNull <;> cases y.isNull <;> simp [bool3_bool] <;> exact nofun

/-- A conjunct taken as a hash key is an equality of two columns. -/
theorem hashKeyOf_some (h : hashKeyOf L R c = some key) :
    hashKeyPairCompatible L R key = true ∧ ∃ a b, exprColIndex a = some (.left, key.1) ∧
      exprColIndex b = some (.right, key.2) ∧ (c = .binary .eq a b ∨ c = .binary .eq b a) := by
  obtain ⟨hkeys, hcompat⟩ := Option.filter_eq_some_iff.mp h
  refine ⟨hcompat, ?_⟩
  unfold equiKeys at hkeys
  split at hkeys
  · next a b =>
    split at hkeys
    · next i j ha hb =>
      cases hkeys
      exact ⟨a, b, ha, hb, .inl rfl⟩
    · next j i ha hb =>
      cases hkeys
      exact ⟨b, a, hb, ha, .inr rfl⟩
    · exact nomatch hkeys
  · exact nomatch hkeys

/-- On a pair of rows a conjunct taken as a key is true iff the rows have the same key. -/
theorem hashKey_conjunct (hl : RowOf L l) (hr : RowOf R r) (h : hashKeyOf L R c = some key)
    {v : Value} (hv : evalRow env L R l r c = .ok v) :
    env.bool3 v = some true ↔ keyEqual env L R l r key = true := by
  obtain ⟨hcompat, a, b, ha, hb, rfl | rfl⟩ := hashKeyOf_some h
  · rw [(eval_comparison rfl ha hb).1] at hv
    rw [← ok.inj hv, bool3_comparison, (keyEqual_eq hcompat hl hr).1]
    rfl
  · rw [(eval_comparison rfl ha hb).2] at hv
    rw [← ok.inj hv, bool3_comparison, (keyEqual_eq hcompat hl hr).2]
    rfl

/-! ## The rest of the condition -/

theorem splitAnd_leaf {on : JoinExpr} (h : c ∈ splitAnd on) : splitAnd c = [c] := by
  induction on using splitAnd.induct with
  | case1 l r ihl ihr =>
    rw [splitAnd, mem_append] at h
    exact h.elim ihl ihr
  | case2 e he =>
    have hsplit : splitAnd e = [e] := by
      rw [splitAnd]
      exact he
    rw [hsplit] at h
    rw [mem_singleton.mp h, hsplit]

theorem splitAnd_foldl (e : JoinExpr) (es : List JoinExpr) :
    splitAnd (es.foldl (.binary .and) e) = splitAnd e ++ es.flatMap splitAnd := by
  induction es generalizing e with
  | nil => simp
  | cons x es ih => rw [foldl_cons, ih, splitAnd, flatMap_cons, append_assoc]

/-- The residual condition is the conjunction of the conjuncts it was made of. -/
theorem residualMatches_conjoin (h : ∀ e ∈ es, splitAnd e = [e]) :
    residualMatches env L R (conjoin es) l r =
      (conjunction env L R l r es).map fun t => t == some true := by
  cases es with
  | nil => rfl
  | cons e es =>
    have hflat : es.flatMap splitAnd = es := by
      calc es.flatMap splitAnd = es.flatMap fun x => [x] :=
            flatMap_congr fun x hx => h x (mem_cons_of_mem _ hx)
        _ = es := by simp
    rw [conjoin, residualMatches, matchesRow_eq, splitAnd_foldl, hflat, h e mem_cons_self,
      singleton_append]

/-- The keys and the rest together decide a pair as the condition does. -/
theorem keys_and_rest {on : JoinExpr} {keys : List JoinKeyPair} {residual : Option JoinExpr}
    (hsplit : equiKeySplit L R on = some (keys, residual)) (hl : RowOf L l) (hr : RowOf R r)
    {b : Bool} (hon : matchesRow env L R on l r = .ok b) :
    if keys.all (keyEqual env L R l r) then residualMatches env L R residual l r = .ok b
    else b = false := by
  simp only [equiKeySplit] at hsplit
  split at hsplit
  · exact nomatch hsplit
  cases hsplit
  rw [matchesRow_eq] at hon
  obtain ⟨t, hconj, rfl⟩ := except_map_ok hon
  split
  · next hall =>
    rw [residualMatches_conjoin fun e he => splitAnd_leaf (mem_filter.mp he).1,
      conjunction_filter (fun e he hkey v hv => ?_) hconj]
    · rfl
    · obtain ⟨key, hkey⟩ := Option.isSome_iff_exists.mp (by simpa using hkey)
      refine (hashKey_conjunct hl hr hkey hv).mpr ?_
      exact all_eq_true.mp hall key (mem_filterMap.mpr ⟨e, he, hkey⟩)
  · next hnot =>
    rw [beq_eq_false_iff_ne]
    rintro rfl
    refine hnot (all_eq_true.mpr fun key hkey => ?_)
    obtain ⟨c, hc, hkey⟩ := mem_filterMap.mp hkey
    obtain ⟨v, hv, htrue⟩ := conjunct_true hconj hc
    exact (hashKey_conjunct hl hr hkey hv).mp htrue

end

end ElyraSql.Joins
