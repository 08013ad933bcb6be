import ElyraSql.Engine.Predicate
import ElyraSql.Library.Kleene
import Mathlib.Logic.Relation

/-!
# Three-valued logic

The logical part of `predicate::eval_row`: comparisons, `AND`, `OR`, `NOT`, `BETWEEN`, the `IS`
tests and `IN`, also over row values. `Env.logicExpr` gives `Logic` to the evaluator of
`Engine/Predicate.lean`, and `Env.meaning` is its value in Kleene's logic, where `IN` is the
disjunction of its comparisons and a row comparison the conjunction of its components.
-/

namespace ElyraSql.Engine

open List Env Kleene

/-! ## Expressions -/

/-- The tests `IS [NOT] NULL`, `TRUE`, `FALSE` and `UNKNOWN`. -/
inductive IsTest
  | null
  | notNull
  | isTrue
  | notTrue
  | isFalse
  | notFalse
  | unknown
  | notUnknown
  deriving DecidableEq, Repr

/-- The logical part of `sqlparser::ast::Expr`. An item of a row-value list that is no row of the
same length is passed over; one that is no row at all stands here as a row of one. -/
inductive Logic
  | operand (e : Expr)
  | nested (x : Logic)
  | not (x : Logic)
  | is (t : IsTest) (x : Logic)
  | binary (op : BinaryOp) (l r : Logic)
  | between (negated : Bool) (x lo hi : Logic)
  | inList (negated : Bool) (x : Logic) (items : List Logic)
  | inRows (negated : Bool) (xs : List Logic) (rows : List (List Logic))

namespace Env

variable (env : Env)

/-! ## Evaluation -/

/-- `unary_value` of `NOT`. -/
def unaryNot (v : Value) : Value := if v.isNull then .null else .bool !(env.truthy v)

def isTest : IsTest → Value → Bool
  | .null, v => v.isNull
  | .notNull, v => !v.isNull
  | .isTrue, v => env.truthy v
  | .notTrue, v => !env.truthy v
  | .isFalse, v => !v.isNull && !env.truthy v
  | .notFalse, v => v.isNull || env.truthy v
  | .unknown, v => v.isNull
  | .notUnknown, v => !v.isNull

/-- The comparison of a row value with one item, up to the first component that is not equal. -/
def rowEq : List Value → List (Except Error Value) → Except Error Bool
  | v :: vs, item :: items => do
    let rv ← item
    if env.compareValues v rv = some .eq then rowEq vs items else .ok false
  | _, _ => .ok true

/-- The loop of `IN` over row values. -/
def rowIn (negated : Bool) (lhs : List Value) : List (List (Except Error Value)) →
    Except Error Value
  | [] => .ok (.bool negated)
  | item :: items =>
    if item.length = lhs.length then do
      if ← env.rowEq lhs item then .ok (.bool !negated) else rowIn negated lhs items
    else rowIn negated lhs items

mutual

/-- The expression as `eval_row` sees it. -/
def logicExpr : Logic → Expr
  | .operand e => e
  | .nested x => .nested (logicExpr x)
  | .not x => .other none fun schema row => do
    .ok (env.unaryNot (← env.evalRow schema row (logicExpr x)))
  | .is t x => .other none fun schema row => do
    .ok (.bool (env.isTest t (← env.evalRow schema row (logicExpr x))))
  | .binary op l r => .binary op (logicExpr l) (logicExpr r)
  | .between negated x lo hi => .between negated (logicExpr x) (logicExpr lo) (logicExpr hi)
  | .inList negated x items => .inList negated (logicExpr x) (logicExprs items)
  | .inRows negated xs rows => .other none fun schema row => do
    let lhs ← (logicExprs xs).mapM (env.evalRow schema row)
    env.rowIn negated lhs ((logicRows rows).map fun r => r.map (env.evalRow schema row))

def logicExprs : List Logic → List Expr
  | [] => []
  | x :: xs => logicExpr x :: logicExprs xs

def logicRows : List (List Logic) → List (List Expr)
  | [] => []
  | r :: rs => logicExprs r :: logicRows rs

end

/-- `eval_row` of a logical expression. -/
def evalLogic (schema : List Column) (row : Row) (x : Logic) : Except Error Value :=
  env.evalRow schema row (env.logicExpr x)

/-! ## Kleene values -/

def ofTruth : Option Bool → Value
  | none => .null
  | some b => .bool b

/-- A comparison: unknown if one side is. -/
def compareTruth (op : BinaryOp) (coll : Collation) (l r : Value) : Option Bool :=
  if l.isNull || r.isNull then none else some (orderTest op (env.compareColl coll l r))

def isTruth : IsTest → Option Bool → Bool
  | .null, t | .unknown, t => t == none
  | .notNull, t | .notUnknown, t => t != none
  | .isTrue, t => t == some true
  | .notTrue, t => t != some true
  | .isFalse, t => t == some false
  | .notFalse, t => t != some false

/-- `NOT` in front of a condition. -/
def signed (negated : Bool) (t : Option Bool) : Option Bool := if negated then Kleene.neg t else t

def operandValue (schema : List Column) (row : Row) (e : Expr) : Value :=
  match env.evalRow schema row e with
  | .ok v => v
  | .error _ => .null

/-- The collation two operands are compared under. -/
def logicCollation (schema : List Column) (x y : Logic) : Collation :=
  env.cmpCollation schema (env.logicExpr x) (env.logicExpr y)

/-- The comparisons `x = i` with the items of a list. -/
def itemTruths (schema : List Column) (x : Logic) (v : Value) (items : List Logic)
    (ws : List Value) : List (Option Bool) :=
  List.zipWith (fun i w => env.compareTruth .eq (env.logicCollation schema x i) v w) items ws

def components (schema : List Column) (xs : List Logic) (vs : List Value) (r : List Logic)
    (ws : List Value) : List (Option Bool) :=
  List.zipWith (fun (x : Logic × Value) (i : Logic × Value) =>
    env.compareTruth .eq (env.logicCollation schema x.1 i.1) x.2 i.2) (xs.zip vs) (r.zip ws)

mutual

/-- The Kleene value of an expression. -/
def meaning (schema : List Column) (row : Row) : Logic → Value
  | .operand e => env.operandValue schema row e
  | .nested x => meaning schema row x
  | .not x => ofTruth (Kleene.neg (env.bool3 (meaning schema row x)))
  | .is t x => .bool (isTruth t (env.bool3 (meaning schema row x)))
  | .binary .and l r =>
    ofTruth (and (env.bool3 (meaning schema row l)) (env.bool3 (meaning schema row r)))
  | .binary .or l r =>
    ofTruth (or (env.bool3 (meaning schema row l)) (env.bool3 (meaning schema row r)))
  | .binary op l r =>
    ofTruth (env.compareTruth op (env.logicCollation schema l r) (meaning schema row l)
      (meaning schema row r))
  | .between negated x lo hi =>
    let v := meaning schema row x
    ofTruth (signed negated (and
      (env.compareTruth .gtEq (env.logicCollation schema x lo) v (meaning schema row lo))
      (env.compareTruth .ltEq (env.logicCollation schema x hi) v (meaning schema row hi))))
  | .inList negated x items =>
    ofTruth (signed negated (Kleene.any
      (env.itemTruths schema x (meaning schema row x) items (meanings schema row items))))
  | .inRows negated xs rows =>
    let vs := meanings schema row xs
    ofTruth (signed negated (Kleene.any
      (List.zipWith (fun r ws => all (env.components schema xs vs r ws)) rows
        (meaningRows schema row rows))))

def meanings (schema : List Column) (row : Row) : List Logic → List Value
  | [] => []
  | x :: xs => meaning schema row x :: meanings schema row xs

def meaningRows (schema : List Column) (row : Row) : List (List Logic) → List (List Value)
  | [] => []
  | r :: rs => meanings schema row r :: meaningRows schema row rs

end

/-! ## Regular nodes -/

/-- The collation of `BETWEEN`. -/
def betweenCollation (schema : List Column) (x lo hi : Logic) : Collation :=
  (((explicitCollation (env.logicExpr lo)).or (explicitCollation (env.logicExpr hi))).or
    (env.exprCollation schema (env.logicExpr x))).getD .ci

/-- The collation of `IN`, one for the whole list. -/
def listCollation (schema : List Column) (x : Logic) (items : List Logic) : Collation :=
  ((items.map fun i => env.logicCollation schema x i).find? (· ≠ .ci)).getD .ci

/-- A test of `BETWEEN`: unknown also where the operands are incomparable. -/
def boundTruth (op : BinaryOp) (coll : Collation) (l r : Value) : Option Bool :=
  (env.compareColl coll l r).map fun o => orderTest op (some o)

/-- The item `i` is equal to `x`, as the comparison `x = i` has it. -/
def ItemEq (schema : List Column) (row : Row) (x i : Logic) : Prop :=
  env.compareTruth .eq (env.logicCollation schema x i) (env.meaning schema row x)
    (env.meaning schema row i) = some true

instance (schema : List Column) (row : Row) (x i : Logic) : Decidable (env.ItemEq schema row x i) :=
  inferInstanceAs (Decidable (_ = _))

def rowTruths (schema : List Column) (row : Row) (xs r : List Logic) : List (Option Bool) :=
  (xs.zip r).map fun p => env.compareTruth .eq (env.logicCollation schema p.1 p.2)
    (env.meaning schema row p.1) (env.meaning schema row p.2)

/-- What a node needs to have its Kleene value on operands that have theirs.

* `BETWEEN`: its two tests, under its one collation and unknown on incomparable operands,
  conjoin to what the two comparisons conjoin to.
* `IN`: an unknown left side has a list to be compared with, and under the collation of the list
  the left side is equal to an item iff it is under the collation of a comparison.
* `IN` over rows: the same for rows, whose components are compared under the default collation;
  and if no row is equal, each of them has a component that is different, not just unknown. -/
def Regular (schema : List Column) (row : Row) : Logic → Prop
  | .between _ x lo hi =>
    and
      (env.boundTruth .gtEq (env.betweenCollation schema x lo hi) (env.meaning schema row x)
        (env.meaning schema row lo))
      (env.boundTruth .ltEq (env.betweenCollation schema x lo hi) (env.meaning schema row x)
        (env.meaning schema row hi)) =
    and
      (env.compareTruth .gtEq (env.logicCollation schema x lo) (env.meaning schema row x)
        (env.meaning schema row lo))
      (env.compareTruth .ltEq (env.logicCollation schema x hi) (env.meaning schema row x)
        (env.meaning schema row hi))
  | .inList _ x items =>
    if (env.meaning schema row x).isNull then items ≠ []
    else
      (∃ i ∈ items, env.compareColl (env.listCollation schema x items)
        (env.meaning schema row x) (env.meaning schema row i) = some .eq) ↔
      ∃ i ∈ items, env.ItemEq schema row x i
  | .inRows _ xs rows =>
    ((∃ r ∈ rows, ∀ p ∈ xs.zip r, env.compareValues (env.meaning schema row p.1)
      (env.meaning schema row p.2) = some .eq) ↔
      ∃ r ∈ rows, ∀ t ∈ env.rowTruths schema row xs r, t = some true) ∧
    ((¬∃ r ∈ rows, ∀ t ∈ env.rowTruths schema row xs r, t = some true) →
      ∀ r ∈ rows, some false ∈ env.rowTruths schema row xs r)
  | _ => True

end Env

/-! ## Operands and parts -/

/-- `x` is an operand of `y`. -/
inductive Operand : Logic → Logic → Prop
  | nested (x : Logic) : Operand x (.nested x)
  | not (x : Logic) : Operand x (.not x)
  | is (t : IsTest) (x : Logic) : Operand x (.is t x)
  | left (op : BinaryOp) (l r : Logic) : Operand l (.binary op l r)
  | right (op : BinaryOp) (l r : Logic) : Operand r (.binary op l r)
  | between (negated : Bool) (x lo hi : Logic) : Operand x (.between negated x lo hi)
  | lo (negated : Bool) (x lo hi : Logic) : Operand lo (.between negated x lo hi)
  | hi (negated : Bool) (x lo hi : Logic) : Operand hi (.between negated x lo hi)
  | inList (negated : Bool) (x : Logic) (items : List Logic) : Operand x (.inList negated x items)
  | item (negated : Bool) (x : Logic) {i : Logic} {items : List Logic} (h : i ∈ items) :
    Operand i (.inList negated x items)
  | inRows (negated : Bool) {x : Logic} {xs : List Logic} (rows : List (List Logic))
    (h : x ∈ xs) : Operand x (.inRows negated xs rows)
  | component (negated : Bool) (xs : List Logic) {i : Logic} {r : List Logic}
    {rows : List (List Logic)} (hr : r ∈ rows) (hi : i ∈ r) : Operand i (.inRows negated xs rows)

variable {x : Logic}

theorem Operand.sizeOf_lt {y : Logic} (h : Operand x y) : sizeOf x < sizeOf y := by
  cases h with
  | item negated x h | inRows negated rows h =>
    have := sizeOf_lt_of_mem h
    simp
    omega
  | component negated xs hr hi =>
    have := sizeOf_lt_of_mem hr
    have := sizeOf_lt_of_mem hi
    simp
    omega
  | _ => simp <;> omega

/-- `x` is `y` or a part of it. -/
abbrev Part : Logic → Logic → Prop := Relation.ReflTransGen Operand

variable {P : Logic → Prop}

/-- What holds of an expression whenever it holds of its operands holds of every expression. -/
theorem Logic.induct (h : ∀ y, (∀ x, Operand x y → P x) → P y) (y : Logic) : P y :=
  h y fun x _ => Logic.induct h x
termination_by sizeOf y
decreasing_by exact Operand.sizeOf_lt ‹_›

section Nodes

variable {env : Env} {schema : List Column} {row : Row} (xs : List Logic) (rs : List (List Logic))
  (coll : Collation)

/-! ## Lists -/

theorem logicExprs_eq : env.logicExprs xs = xs.map env.logicExpr := by
  induction xs with
  | nil => rfl
  | cons x xs ih => rw [logicExprs, ih, map_cons]

theorem logicRows_eq : env.logicRows rs = rs.map fun r => r.map env.logicExpr := by
  induction rs with
  | nil => rfl
  | cons r rs ih => rw [logicRows, ih, logicExprs_eq, map_cons]

theorem meanings_eq : env.meanings schema row xs = xs.map (env.meaning schema row) := by
  induction xs with
  | nil => rfl
  | cons x xs ih => rw [meanings, ih, map_cons]

theorem meaningRows_eq :
    env.meaningRows schema row rs = rs.map fun r => r.map (env.meaning schema row) := by
  induction rs with
  | nil => rfl
  | cons r rs ih => rw [meaningRows, ih, meanings_eq, map_cons]

theorem evalItems_eq (es : List Expr) :
    env.evalItems schema row es = es.map (env.evalRow schema row) := by
  induction es with
  | nil => rfl
  | cons e es ih => rw [evalItems, ih, map_cons]

theorem eval_list {xs : List Logic}
    (h : ∀ x ∈ xs, env.evalLogic schema row x = .ok (env.meaning schema row x)) :
    (xs.map env.logicExpr).map (env.evalRow schema row) =
      (xs.map (env.meaning schema row)).map .ok := by
  rw [map_map, map_map]
  exact map_congr_left h

theorem mapM_ok {xs : List Logic}
    (h : ∀ x ∈ xs, env.evalLogic schema row x = .ok (env.meaning schema row x)) :
    (xs.map env.logicExpr).mapM (env.evalRow schema row) =
      .ok (xs.map (env.meaning schema row)) := by
  induction xs with
  | nil => rfl
  | cons x xs ih =>
    obtain ⟨hx, hxs⟩ := forall_mem_cons.mp h
    rw [evalLogic] at hx
    rw [map_cons, mapM_cons, hx, ih hxs]
    rfl

theorem components_eq (r : List Logic) :
    env.components schema xs (xs.map (env.meaning schema row)) r
      (r.map (env.meaning schema row)) = env.rowTruths schema row xs r := by
  have hzip : ∀ l : List Logic, l.zip (l.map (env.meaning schema row)) =
      l.map fun x => (x, env.meaning schema row x) := fun l => by
    induction l with
    | nil => rfl
    | cons x l ih => rw [map_cons, zip_cons_cons, ih, map_cons]
  rw [components, hzip, hzip, zipWith_map, rowTruths, zip, map_zipWith]

/-! ## Comparisons -/

theorem compareColl_null_right (v : Value) : env.compareColl coll v .null = none := by
  cases v <;> rfl

theorem isNull_iff {v : Value} : v.isNull = true ↔ v = .null := by
  cases v <;> simp [Value.isNull]

theorem compareTruth_eq_none {op : BinaryOp} {coll : Collation} {l r : Value} :
    env.compareTruth op coll l r = none ↔ l.isNull = true ∨ r.isNull = true := by
  rw [compareTruth]
  split
  · next h => simpa using h
  · next h => simpa using h

variable {t : Option Bool}

theorem ofTruth_inj {s : Option Bool} : ofTruth s = ofTruth t ↔ s = t := by
  rcases s with _ | _ <;> rcases t with _ | _ <;> simp [ofTruth]

variable {negated : Bool}

theorem signed_inj {s : Option Bool} : signed negated s = signed negated t ↔ s = t := by
  cases negated <;> rcases s with _ | _ | _ <;> rcases t with _ | _ | _ <;>
    simp [signed, neg]

/-! ## One node -/

theorem unaryNot_eq (v : Value) : env.unaryNot v = ofTruth (neg (env.bool3 v)) := by
  rw [unaryNot, bool3]
  split <;> rfl

theorem isTest_eq (t : IsTest) (v : Value) : env.isTest t v = isTruth t (env.bool3 v) := by
  cases hv : v.isNull with
  | true =>
    rw [isNull_iff.mp hv]
    cases t <;> rfl
  | false =>
    have hb : env.bool3 v = some (env.truthy v) := by rw [bool3, if_neg (by simp [hv])]
    rw [hb]
    cases t <;> cases htr : env.truthy v <;> simp [isTest, isTruth, hv, htr]

theorem binaryOp_meaning (op : BinaryOp) (l r : Logic) :
    env.binaryOp op (env.meaning schema row l) (.ok (env.meaning schema row r))
      (env.logicCollation schema l r) = .ok (env.meaning schema row (.binary op l r)) := by
  cases op with
  | and | or =>
    simp only [binaryOp, meaning, bind, Except.bind]
    rcases env.bool3 (env.meaning schema row l) with _ | _ | _ <;>
      rcases env.bool3 (env.meaning schema row r) with _ | _ | _ <;> rfl
  | _ =>
    simp only [binaryOp, meaning, compareTruth, bind, Except.bind]
    split <;> rfl

theorem insideOf_eq (negated : Bool) (s t : Option Bool) :
    insideOf negated s t = ofTruth (signed negated (and s t)) := by
  cases negated <;> rcases s with _ | _ | _ <;> rcases t with _ | _ | _ <;> rfl

theorem boundTruth_ge (l r : Value) :
    (env.compareColl coll l r).map (fun o => o != .lt) = env.boundTruth .gtEq coll l r := by
  congr 1
  funext o
  cases o <;> rfl

theorem boundTruth_le (l r : Value) :
    (env.compareColl coll l r).map (fun o => o != .gt) = env.boundTruth .ltEq coll l r := by
  congr 1
  funext o
  cases o <;> rfl

theorem eval_between_iff {lo hi : Logic}
    (hx : env.evalLogic schema row x = .ok (env.meaning schema row x))
    (hlo : env.evalLogic schema row lo = .ok (env.meaning schema row lo))
    (hhi : env.evalLogic schema row hi = .ok (env.meaning schema row hi)) :
    env.evalLogic schema row (.between negated x lo hi) =
        .ok (env.meaning schema row (.between negated x lo hi)) ↔
      env.Regular schema row (.between negated x lo hi) := by
  rw [evalLogic] at hx hlo hhi
  simp only [evalLogic, logicExpr, evalRow, hx, hlo, hhi, bind, Except.bind, boundTruth_ge,
    boundTruth_le, insideOf_eq, meaning, Except.ok.injEq, ofTruth_inj, signed_inj]
  rfl

theorem inItems_ok (negated : Bool) (v : Value) (ws : List Value) (sawNull : Bool) :
    env.inItems coll negated v sawNull (ws.map .ok) =
      .ok (if ∃ w ∈ ws, env.compareColl coll v w = some .eq then .bool !negated
        else if sawNull = true ∨ ∃ w ∈ ws, w.isNull = true then .null else .bool negated) := by
  induction ws generalizing sawNull with
  | nil => simp [inItems]
  | cons w ws ih =>
    simp only [map_cons, inItems, bind, Except.bind, exists_mem_cons_iff]
    cases hw : w.isNull with
    | true =>
      rw [isNull_iff.mp hw, compareColl_null_right]
      simp [ih]
    | false =>
      by_cases heq : env.compareColl coll v w = some .eq
      · simp [heq]
      · simp [heq, ih]

theorem eq_false_of_ne (hn : t ≠ none) (ht : t ≠ some true) : t = some false := by
  rcases t with _ | _ | _ <;> simp_all

theorem eq_none_of_ne (ht : t ≠ some true) (hf : t ≠ some false) : t = none := by
  rcases t with _ | _ | _ <;> simp_all

theorem any_items {items : List Logic} (hv : (env.meaning schema row x).isNull = false) :
    Kleene.any (items.map fun i => env.compareTruth .eq (env.logicCollation schema x i)
      (env.meaning schema row x) (env.meaning schema row i)) =
      if ∃ i ∈ items, env.ItemEq schema row x i then some true
      else if ∃ i ∈ items, (env.meaning schema row i).isNull = true then none
      else some false := by
  split
  · next h =>
    obtain ⟨i, hi, heq⟩ := h
    exact any_eq_true.mpr (mem_map.mpr ⟨i, hi, heq⟩)
  · next h =>
    split
    · next hnull =>
      obtain ⟨i, hi, hin⟩ := hnull
      apply eq_none_of_ne
      · intro htrue
        obtain ⟨j, hj, heq⟩ := mem_map.mp (any_eq_true.mp htrue)
        exact h ⟨j, hj, heq⟩
      · intro hfalse
        have := any_eq_false.mp hfalse _ (mem_map.mpr ⟨i, hi, rfl⟩)
        rw [compareTruth_eq_none.mpr (.inr hin)] at this
        cases this
    · next hnull =>
      refine any_eq_false.mpr fun t ht => ?_
      obtain ⟨i, hi, rfl⟩ := mem_map.mp ht
      refine eq_false_of_ne (fun hn => ?_) fun heq => h ⟨i, hi, heq⟩
      obtain hn | hn := compareTruth_eq_none.mp hn
      · rw [hv] at hn
        cases hn
      · exact hnull ⟨i, hi, hn⟩

theorem eval_inList_iff {items : List Logic}
    (hx : env.evalLogic schema row x = .ok (env.meaning schema row x))
    (hi : ∀ i ∈ items, env.evalLogic schema row i = .ok (env.meaning schema row i)) :
    env.evalLogic schema row (.inList negated x items) =
        .ok (env.meaning schema row (.inList negated x items)) ↔
      env.Regular schema row (.inList negated x items) := by
  rw [evalLogic] at hx
  simp only [evalLogic, logicExpr, evalRow, hx, bind, Except.bind, meaning,
    meanings_eq, itemTruths, zipWith_map_right, zipWith_self, logicExprs_eq, evalItems_eq,
    eval_list hi, inItems_ok, Env.Regular]
  cases hv : (env.meaning schema row x).isNull with
  | true =>
    -- every comparison is unknown, and so is their disjunction unless there is none
    have hnone : ∀ i, env.compareTruth .eq (env.logicCollation schema x i)
        (env.meaning schema row x) (env.meaning schema row i) = none := fun i =>
      compareTruth_eq_none.mpr (.inl hv)
    simp only [hnone]
    cases items with
    | nil => cases negated <;> simp [Kleene.any, signed, neg, ofTruth]
    | cons i is =>
      have hany : Kleene.any ((i :: is).map fun _ => none) = none :=
        eq_none_of_ne (by simp [Kleene.any_eq_true]) (by simp [Kleene.any_eq_false])
      rw [hany]
      cases negated <;> simp [signed, neg, ofTruth]
  | false =>
    simp only [any_items hv]
    have hcoll : ((map (fun e => env.cmpCollation schema (env.logicExpr x) e)
        (map env.logicExpr items)).find? (· ≠ .ci)).getD .ci =
        env.listCollation schema x items := by
      rw [map_map]
      rfl
    rw [hcoll]
    by_cases ha : ∃ i ∈ items, env.compareColl (env.listCollation schema x items)
        (env.meaning schema row x) (env.meaning schema row i) = some .eq <;>
      by_cases hb : ∃ i ∈ items, env.ItemEq schema row x i <;>
      by_cases hn : ∃ i ∈ items, (env.meaning schema row i).isNull = true <;>
      cases negated <;> simp [hb, hn, signed, neg, ofTruth]

theorem rowEq_ok (vs ws : List Value) : env.rowEq vs (ws.map .ok) =
    .ok (decide (∀ p ∈ vs.zip ws, env.compareValues p.1 p.2 = some .eq)) := by
  induction vs generalizing ws with
  | nil => cases ws <;> simp [rowEq]
  | cons v vs ih =>
    cases ws with
    | nil => simp [rowEq]
    | cons w ws =>
      simp only [map_cons, rowEq, bind, Except.bind, zip_cons_cons, forall_mem_cons]
      by_cases h : env.compareValues v w = some .eq
      · simp [h, ih]
      · simp [h]

theorem rowIn_ok (negated : Bool) (vs : List Value) {rows : List (List Value)}
    (hlen : ∀ ws ∈ rows, ws.length = vs.length) :
    env.rowIn negated vs (rows.map fun ws => ws.map .ok) =
      .ok (.bool (decide (∃ ws ∈ rows, ∀ p ∈ vs.zip ws,
        env.compareValues p.1 p.2 = some .eq) != negated)) := by
  induction rows with
  | nil => simp [rowIn]
  | cons ws rows ih =>
    obtain ⟨hws, hrows⟩ := forall_mem_cons.mp hlen
    simp only [map_cons, rowIn, length_map, hws, if_true, rowEq_ok, bind,
      Except.bind, exists_mem_cons_iff]
    by_cases h : ∀ p ∈ vs.zip ws, env.compareValues p.1 p.2 = some .eq
    · rw [decide_eq_true h, decide_eq_true (.inl h)]
      cases negated <;> rfl
    · rw [decide_eq_false h, if_neg Bool.false_ne_true, ih hrows]
      simp only [h, false_or]

theorem any_rows (rows : List (List Logic)) :
    any (rows.map fun r => all (env.rowTruths schema row xs r)) =
      if ∃ r ∈ rows, ∀ t ∈ env.rowTruths schema row xs r, t = some true then some true
      else if ∀ r ∈ rows, some false ∈ env.rowTruths schema row xs r then some false
      else none := by
  have htrue : any (rows.map fun r => all (env.rowTruths schema row xs r)) =
      some true ↔ ∃ r ∈ rows, ∀ t ∈ env.rowTruths schema row xs r, t = some true := by
    simp only [Kleene.any_eq_true, mem_map, Kleene.all_eq_true]
  have hfalse : any (rows.map fun r => all (env.rowTruths schema row xs r)) =
      some false ↔ ∀ r ∈ rows, some false ∈ env.rowTruths schema row xs r := by
    simp only [Kleene.any_eq_false, forall_mem_map, Kleene.all_eq_false]
  split
  · next h => exact htrue.mpr h
  · next h =>
    split
    · next h' => exact hfalse.mpr h'
    · next h' => exact eq_none_of_ne (fun ht => h (htrue.mp ht)) fun hf => h' (hfalse.mp hf)

/-- A verdict that is never unknown against a truth value. -/
theorem bool_eq_ofTruth_iff {A B C : Prop} [Decidable A] [Decidable B] [Decidable C]
    (negated : Bool) : Value.bool (decide A != negated) =
      ofTruth (signed negated
        (if B then some true else if C then some false else none)) ↔ (A ↔ B) ∧ (¬B → C) := by
  by_cases ha : A <;> by_cases hb : B <;> by_cases hc : C <;> cases negated <;>
    simp [hb, hc, signed, neg, ofTruth]

theorem eval_inRows_iff {xs : List Logic} {rows : List (List Logic)}
    (hlen : ∀ r ∈ rows, r.length = xs.length)
    (hx : ∀ x ∈ xs, env.evalLogic schema row x = .ok (env.meaning schema row x))
    (hi : ∀ r ∈ rows, ∀ i ∈ r, env.evalLogic schema row i = .ok (env.meaning schema row i)) :
    env.evalLogic schema row (.inRows negated xs rows) =
        .ok (env.meaning schema row (.inRows negated xs rows)) ↔
      env.Regular schema row (.inRows negated xs rows) := by
  have hrows : (env.logicRows rows).map (fun r => r.map (env.evalRow schema row)) =
      (rows.map fun r => r.map (env.meaning schema row)).map fun ws => ws.map .ok := by
    rw [logicRows_eq, map_map, map_map]
    exact map_congr_left fun r hr => eval_list (hi r hr)
  have hlen' : ∀ ws ∈ rows.map fun r => r.map (env.meaning schema row),
      ws.length = (xs.map (env.meaning schema row)).length := by
    simpa using hlen
  have hmean : env.meaning schema row (.inRows negated xs rows) =
      ofTruth (signed negated (Kleene.any
        (rows.map fun r => all (env.rowTruths schema row xs r)))) := by
    simp only [meaning, meanings_eq, meaningRows_eq]
    rw [zipWith_map_right, zipWith_self]
    simp only [components_eq]
  rw [hmean, any_rows]
  simp only [evalLogic, logicExpr, evalRow, logicExprs_eq, mapM_ok hx, hrows, bind,
    Except.bind, rowIn_ok negated _ hlen', Except.ok.injEq]
  have hfound : (∃ ws ∈ rows.map fun r => r.map (env.meaning schema row),
      ∀ p ∈ (xs.map (env.meaning schema row)).zip ws, env.compareValues p.1 p.2 = some .eq) ↔
      ∃ r ∈ rows, ∀ p ∈ xs.zip r, env.compareValues (env.meaning schema row p.1)
        (env.meaning schema row p.2) = some .eq := by
    simp only [mem_map, exists_exists_and_eq_and, zip_map, forall_exists_index, and_imp,
      forall_apply_eq_imp_iff₂, Prod.map]
  simp only [hfound]
  exact bool_eq_ofTruth_iff negated

/-! ## Whole expressions -/

/-- The rows of a row-value list have the length of the left side. -/
def Logic.ArityOk : Logic → Prop
  | .inRows _ xs rows => ∀ r ∈ rows, r.length = xs.length
  | _ => True

/-- The operand, if it is one, has a value on the row. -/
def Evaluates (env : Env) (schema : List Column) (row : Row) : Logic → Prop
  | .operand e => ∃ v, env.evalRow schema row e = .ok v
  | _ => True

/-- On operands that have their Kleene values a node has its own iff it is regular. -/
theorem eval_node_iff {y : Logic} (ha : y.ArityOk) (he : Evaluates env schema row y)
    (h : ∀ x, Operand x y → env.evalLogic schema row x = .ok (env.meaning schema row x)) :
    env.evalLogic schema row y = .ok (env.meaning schema row y) ↔ env.Regular schema row y := by
  cases y with
  | operand e =>
    obtain ⟨v, hv⟩ := he
    simp [evalLogic, logicExpr, meaning, operandValue, hv, Env.Regular]
  | nested x =>
    have hx := h x (.nested x)
    rw [evalLogic] at hx
    simp [evalLogic, logicExpr, evalRow, meaning, hx, Env.Regular]
  | not x =>
    have hx := h x (.not x)
    rw [evalLogic] at hx
    simp [evalLogic, logicExpr, evalRow, meaning, hx, bind, Except.bind, unaryNot_eq, Env.Regular]
  | is t x =>
    have hx := h x (.is t x)
    rw [evalLogic] at hx
    simp [evalLogic, logicExpr, evalRow, meaning, hx, bind, Except.bind, isTest_eq, Env.Regular]
  | binary op l r =>
    have hl := h l (.left op l r)
    have hr := h r (.right op l r)
    rw [evalLogic] at hl hr
    have hb := @binaryOp_meaning env schema row op l r
    rw [logicCollation] at hb
    simp [evalLogic, logicExpr, evalRow, hl, hr, bind, Except.bind, hb, Env.Regular]
  | between negated x lo hi =>
    exact eval_between_iff (h x (.between negated x lo hi)) (h lo (.lo negated x lo hi))
      (h hi (.hi negated x lo hi))
  | inList negated x items =>
    exact eval_inList_iff (h x (.inList negated x items)) fun i hi => h i (.item negated x hi)
  | inRows negated xs rows =>
    exact eval_inRows_iff ha (fun x hx => h x (.inRows negated rows hx))
      fun r hr i hi => h i (.component negated xs hr hi)

/-- An expression and all its parts have their Kleene values iff every node of it is regular. -/
theorem three_valued_iff (x : Logic) (ha : ∀ y, Part y x → y.ArityOk)
    (he : ∀ y, Part y x → Evaluates env schema row y) :
    (∀ y, Part y x → env.evalLogic schema row y = .ok (env.meaning schema row y)) ↔
      ∀ y, Part y x → env.Regular schema row y := by
  constructor
  · intro h y hy
    exact (eval_node_iff (ha y hy) (he y hy) fun z hz => h z (.head hz hy)).mp (h y hy)
  · intro h y
    -- the operands of a part are parts
    induction y using Logic.induct with
    | h y ih =>
      intro hy
      exact (eval_node_iff (ha y hy) (he y hy) fun z hz => ih z hz (.head hz hy)).mpr (h y hy)

end Nodes

/-- What holds of an expression and of the parts of its operands holds of all its parts. -/
theorem forall_part (hx : P x) (h : ∀ z, Operand z x → ∀ y, Part y z → P y) (y : Logic)
    (hy : Part y x) : P y := by
  obtain rfl | ⟨z, hyz, hz⟩ := Relation.ReflTransGen.cases_tail hy
  · exact hx
  · exact h z hz y hyz

/-- The literal `v`. -/
def lit (v : Value) : Logic := .operand (.value v)

theorem forall_part_lit {v : Value} (h : P (lit v)) (y : Logic) (hy : Part y (lit v)) : P y :=
  forall_part h (fun z hz => by cases hz) y hy

/-- `NOT (1 IN (NULL, 2))`. -/
def notInNull : Logic := .not (.inList false (lit (.int 1)) [lit .null, lit (.int 2)])

theorem forall_part_notInNull (h : P notInNull)
    (hin : P (.inList false (lit (.int 1)) [lit .null, lit (.int 2)])) (hl : ∀ v, P (lit v))
    (y : Logic) (hy : Part y notInNull) : P y := by
  refine forall_part h ?_ y hy
  rintro z ⟨⟩
  refine forall_part hin ?_
  rintro z hz
  cases hz with
  | inList => exact forall_part_lit (hl _)
  | item _ _ hi =>
    obtain rfl | hi := mem_cons.mp hi
    · exact forall_part_lit (hl _)
    · rw [mem_singleton.mp hi]
      exact forall_part_lit (hl _)

/-- An unknown item leaves the disjunction, and its negation, unknown. -/
theorem three_valued_iff_notInNull :
    plain.meaning [] [] notInNull = .null ∧ ∀ y, Part y notInNull →
      plain.evalLogic [] [] y = .ok (plain.meaning [] [] y) := by
  refine ⟨rfl, (three_valued_iff notInNull (forall_part_notInNull trivial trivial fun v => trivial)
    (forall_part_notInNull trivial trivial fun v => ⟨v, rfl⟩)).mpr
    (forall_part_notInNull trivial ?_ fun v => trivial)⟩
  simp only [Env.Regular]
  decide

/-- `(NULL, 1) NOT IN ((1, 1))`. -/
def nullRowNotIn : Logic :=
  .inRows true [lit .null, lit (.int 1)] [[lit (.int 1), lit (.int 1)]]

/-- The row comparison is unknown, and the evaluator answers true. -/
theorem row_in_loses_unknown :
    plain.evalLogic [] [] nullRowNotIn = .ok (.bool true) ∧
      plain.meaning [] [] nullRowNotIn = .null :=
  ⟨rfl, rfl⟩

end ElyraSql.Engine
