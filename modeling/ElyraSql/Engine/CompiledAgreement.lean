import ElyraSql.Engine.CompiledPredicate
import ElyraSql.Library.Rounding
import Mathlib.Data.List.Forall2

/-!
# Compiled predicates against the interpreter

A compiled comparison of a `BIGINT` column with an integer literal converts both to doubles, of
which there is one for every 53 significant bits. The interpreter compares the numbers.
-/

namespace ElyraSql.Engine

open Rounding List Value Env Nat

/-! ## Doubles -/

/-- The value of the double an integer is converted to. What passes the largest double is
infinite, which stands here as `2 ^ 1024`. -/
def double (n : Int) : Int := max (-2 ^ 1024) (min (2 ^ 1024) (roundInt 53 n))

theorem double_mono {a b : Int} (h : a ≤ b) : double a ≤ double b :=
  max_le_max le_rfl (min_le_min le_rfl (roundInt_mono (by decide) h))

theorem double_neg (n : Int) : double (-n) = -double n := by
  simp only [double, roundInt_neg]
  omega

theorem double_exact : double 0 = 0 ∧ double (2 ^ 63) = 2 ^ 63 ∧ double (2 ^ 64) = 2 ^ 64 := by
  decide +kernel

/-- What the development needs of floating point: the doubles that integers and their negations
are converted to are compared, and told apart by their bits, by the rounded values. -/
structure IntDoubles (env : Env) where
  Whole : F64 → Prop
  val : F64 → Int
  whole_ofInt : ∀ n, Whole (env.f64OfInt n)
  val_ofInt : ∀ n, val (env.f64OfInt n) = double n
  whole_neg : ∀ {f}, Whole f → Whole (env.f64Neg f)
  val_neg : ∀ {f}, Whole f → val (env.f64Neg f) = -val f
  cmp : ∀ {f g}, Whole f → Whole g → env.f64Cmp f g = some (compare (val f) (val g))
  bits : ∀ {f g}, Whole f → Whole g →
    (env.canonicalF64Bits f = env.canonicalF64Bits g ↔ val f = val g)

/-- `Op::test` on whole numbers. -/
def Op.test (op : Op) (a b : Int) : Bool := op.holds (some (compare a b))

theorem compare_double {a b : Int} (h : double a ≠ double b) :
    compare (double a) (double b) = compare a b := by
  obtain hab | rfl | hab := lt_trichotomy a b
  · rw [compare_lt_iff_lt.mpr hab, compare_lt_iff_lt]
    exact lt_of_le_of_ne (double_mono hab.le) h
  · exact absurd rfl h
  · rw [compare_gt_iff_gt.mpr hab, compare_gt_iff_gt]
    exact lt_of_le_of_ne (double_mono hab.le) h.symm

/-- Two numbers with different doubles are compared as they are; the others count as equal. -/
theorem test_double (op : Op) (a b : Int) :
    op.test (double a) (double b) = if double a = double b then op.test b b else op.test a b := by
  split
  · next h => rw [h, Op.test, Op.test, compare_eq_iff_eq.mpr rfl, compare_eq_iff_eq.mpr rfl]
  · next h => rw [Op.test, Op.test, compare_double h]

theorem Op.holds_flip (op : Op) (a b : Int) :
    op.flip.holds (some (compare a b)) = op.holds (some (compare b a)) := by
  have hswap : compare a b = (compare b a).swap := Std.OrientedCmp.eq_swap
  rw [hswap]
  cases op <;> cases compare b a <;> rfl

/-! ## Exact terms -/

/-- An integer literal: its number, and whether the interpreter can apply all its minus signs. -/
structure Lit where
  value : Int
  inRange : Bool
  deriving DecidableEq, Repr

/-- A number whose negation the interpreter computes: it is negated as a 64-bit integer if it is
one, and as a double beyond. -/
def negatable (v : Int) : Bool := v ≠ -2 ^ 63 ∧ ¬(2 ^ 63 < v ∧ v < 2 ^ 64)

/-- The literal of an expression that `num_lit` accepts. -/
def literal : Filter → Option Lit
  | .number n => some ⟨n, true⟩
  | .minus e => (literal e).map fun l => ⟨-l.value, l.inRange && negatable l.value⟩
  | _ => none

/-- The terms of a filter with their literals as they are written. -/
def Env.terms (env : Env) (schema : List Column) (f : Filter) : List (Term Lit) :=
  (env.collectWith literal (fun _ => false) schema f).getD []

/-- Whether `i` is in a list of literals, read in order: a literal out of range stops the search
with an error. -/
def found (i : Int) : List Lit → Option Bool
  | [] => some false
  | l :: ls => if l.inRange then if l.value = i then some true else found i ls else none

/-- Whether a literal of the list has the double of `i`. -/
def near (i : Int) (ls : List Lit) : Bool := ls.any fun l => double l.value = double i

namespace Term

/-- The term holds of the row, its numbers compared as they are. -/
def Exact (row : Row) : Term Lit → Prop
  | .cmp col op l => ∃ i, row.getD col .null = .int i ∧ l.inRange ∧ op.test i.toInt l.value
  | .inSet col ls negated => ∃ i, row.getD col .null = .int i ∧ found i.toInt ls = some !negated

/-- The term holds of the row, its numbers compared as doubles. -/
def Rounded (row : Row) : Term Lit → Prop
  | .cmp col op l =>
    ∃ i, row.getD col .null = .int i ∧ op.test (double i.toInt) (double l.value)
  | .inSet col ls negated => ∃ i, row.getD col .null = .int i ∧ near i.toInt ls = !negated

/-- Doubles cannot decide the term on the row. A comparison: the column's number and the literal
have the same double and the operator tells them apart, or it holds of a literal the interpreter
refuses. `IN`: a literal has the double of the column's number, and the number itself is not
found. `NOT IN`: the same, or a literal is refused and none has the double of the number. -/
def Blurred (row : Row) : Term Lit → Prop
  | .cmp col op l => ∃ i, row.getD col .null = .int i ∧
    if l.inRange then
      double i.toInt = double l.value ∧ op.test i.toInt l.value ≠ op.test l.value l.value
    else op.test (double i.toInt) (double l.value)
  | .inSet col ls negated => ∃ i, row.getD col .null = .int i ∧
    if negated then
      if near i.toInt ls then found i.toInt ls = some false else found i.toInt ls = none
    else near i.toInt ls ∧ found i.toInt ls ≠ some true

end Term

instance decidableInt (v : Value) (P : Int64 → Prop) [DecidablePred P] :
    Decidable (∃ i, v = .int i ∧ P i) :=
  match v with
  | .int i => decidable_of_iff (P i) (by simp)
  | .null | .bool _ | .float _ | .text _ | .bytes _ | .vector _ | .date _ | .dateTime _
  | .decimal .. | .time _ | .json _ | .uint _ => isFalse (by simp)

instance (row : Row) (t : Term Lit) : Decidable (t.Blurred row) :=
  match t with
  | .cmp .. => decidableInt _ _
  | .inSet .. => decidableInt _ _

variable {ls : List Lit}

theorem near_of_found {i : Int} (h : found i ls = some true) : near i ls = true := by
  induction ls with
  | nil => simp [found] at h
  | cons l ls ih =>
    rw [near, any_cons]
    simp only [found] at h
    split at h
    · split at h
      · next heq => simp [heq]
      · rw [show (ls.any fun l => decide (double l.value = double i)) = true from ih h,
          Bool.or_true]
    · cases h

theorem Term.blurred_iff (t : Term Lit) (row : Row) :
    t.Blurred row ↔ ¬(t.Rounded row ↔ t.Exact row) := by
  cases t with
  | cmp col op l =>
    simp only [Term.Blurred, Term.Rounded, Term.Exact]
    cases row.getD col .null with
    | int i =>
      simp only [int.injEq, exists_eq_left', test_double]
      cases l.inRange with
      | true =>
        by_cases hd : double i.toInt = double l.value
        · cases op.test i.toInt l.value <;> cases op.test l.value l.value <;> simp
        · simp [hd]
      | false => simp
    | _ => simp
  | inSet col ls negated =>
    simp only [Term.Blurred, Term.Rounded, Term.Exact]
    cases row.getD col .null with
    | int i =>
      have hn : found i.toInt ls = some true → near i.toInt ls = true := near_of_found
      cases negated <;> rcases hf : found i.toInt ls with _ | _ | _ <;> simp_all
    | _ => simp

/-! ## The compiled form -/

variable {n : Int} {row : Row} {α : Type} {col : Nat} {l e r f : Filter} {items : List Filter}

section Compiled

variable {env : Env} (d : IntDoubles env)

/-- A compiled literal is the double of the written one. -/
def Reads (f : F64) (l : Lit) : Prop := d.Whole f ∧ d.val f = double l.value

theorem Reads.isNan {f : F64} {l : Lit} (h : Reads d f l) : env.isNan f = false := by
  simp [Env.isNan, d.cmp h.1 h.1]

theorem reads_numLit : (e : Filter) → Option.Rel (Reads d) (env.numLit e) (literal e)
  | .number n => .some ⟨d.whole_ofInt n, d.val_ofInt n⟩
  | .minus e => by
    have h := reads_numLit e
    simp only [numLit, literal]
    generalize env.numLit e = x, literal e = y at h ⊢
    cases h with
    | none => exact .none
    | some h => exact .some ⟨d.whole_neg h.1, by rw [d.val_neg h.1, h.2, double_neg]⟩
  | .ident _ | .compound _ | .nested _ | .binary .. | .inList .. | .other _ => .none

theorem rel_bind {β γ δ : Type} {R : α → β → Prop} {S : γ → δ → Prop} {x : Option α} {y : Option β}
    {f : α → Option γ} {g : β → Option δ} (h : Option.Rel R x y)
    (hf : ∀ a b, R a b → Option.Rel S (f a) (g b)) : Option.Rel S (x.bind f) (y.bind g) := by
  cases h with
  | none => exact .none
  | some h => exact hf _ _ h

theorem reads_mapM (items : List Filter) :
    Option.Rel (List.Forall₂ (Reads d)) (items.mapM env.numLit) (items.mapM literal) := by
  induction items with
  | nil => exact .some .nil
  | cons e es ih =>
    simp only [mapM_cons]
    exact rel_bind (reads_numLit d e) fun _ _ h => rel_bind ih fun _ _ hs => .some (.cons h hs)

theorem filter_not_nan {fs : List F64} (h : List.Forall₂ (Reads d) fs ls) :
    fs.filter (fun v => !env.isNan v) = fs := by
  induction h with
  | nil => rfl
  | cons h _ ih => simp [h.isNan, ih]

/-- A compiled term against the term of the filter. -/
inductive Corresponds : Term F64 → Term Lit → Prop
  | cmp {col : Nat} {op : Op} {f : F64} {l : Lit} (h : Reads d f l) :
    Corresponds (.cmp col op f) (.cmp col op l)
  | inSet {col : Nat} {negated : Bool} {fs : List F64} {ls : List Lit}
    (h : List.Forall₂ (Reads d) fs ls) : Corresponds (.inSet col fs negated) (.inSet col ls negated)

theorem corresponds_comparison (schema : List Column) (op : Op) (l r : Filter) :
    Option.Rel (List.Forall₂ (Corresponds d)) (env.comparisonWith env.numLit schema op l r)
      (env.comparisonWith literal schema op l r) := by
  have hl := reads_numLit d l
  have hr := reads_numLit d r
  rw [comparisonWith, comparisonWith]
  generalize env.numLit l = fl, literal l = ll at hl
  generalize env.numLit r = fr, literal r = lr at hr
  cases hl <;> cases hr <;> cases env.numericCol schema l <;> cases env.numericCol schema r <;>
    constructor <;> exact .cons (.cmp ‹_›) .nil

/-- The compiled terms are those of the filter, with the literals' doubles. -/
theorem corresponds_collect (schema : List Column) : (f : Filter) →
    Option.Rel (List.Forall₂ (Corresponds d)) (env.collectWith env.numLit env.isNan schema f)
      (env.collectWith literal (fun _ => false) schema f)
  | .nested e => by
    exact corresponds_collect schema e
  | .binary op l r => by
    cases op with
    | and =>
      exact rel_bind (corresponds_collect schema l) fun _ _ ha =>
        rel_bind (corresponds_collect schema r) fun _ _ hb => .some (rel_append ha hb)
    | or => exact .none
    | _ =>
      apply corresponds_comparison d schema
  | .inList negated e items => by
    simp only [collectWith, Option.bind_eq_bind]
    cases env.numericCol schema e with
    | none => exact .none
    | some col =>
      simp only [Option.bind_some]
      refine rel_bind (reads_mapM d items) fun fs ls h => ?_
      rw [filter_not_nan d h]
      cases h with
      | nil => exact .none
      | cons h hs => exact .some (.cons (.inSet (by simpa using ⟨h, hs⟩)) .nil)
  | .number _ | .minus _ | .ident _ | .compound _ | .other _ => .none

/-- A cell of a `BIGINT` column. -/
def BigintCell (row : Row) (col : Nat) : Prop :=
  row.getD col .null = .null ∨ ∃ i, row.getD col .null = .int i

theorem cell_asF64 (h : BigintCell row col) :
    (row[col]?).bind env.asF64 =
      match row.getD col .null with
      | .int i => some (env.f64OfInt i.toInt)
      | _ => none := by
  rw [BigintCell, getD_eq_getElem?_getD] at h
  rw [getD_eq_getElem?_getD]
  cases hv : row[col]? with
  | none => rfl
  | some v =>
    rw [hv] at h
    obtain rfl | ⟨i, rfl⟩ := h <;> rfl

theorem contains_bits {fs : List F64} (h : List.Forall₂ (Reads d) fs ls) (i : Int) :
    (fs.map env.canonicalF64Bits).contains (env.canonicalF64Bits (env.f64OfInt i)) =
      near i ls := by
  induction h with
  | nil => rfl
  | @cons f l _ _ h _ ih =>
    have hb := d.bits (d.whole_ofInt i) h.1
    rw [d.val_ofInt, h.2] at hb
    rw [map_cons, contains_cons, ih, near, near, any_cons, Bool.eq_iff_iff]
    simp only [Bool.or_eq_true, beq_iff_eq, hb, decide_eq_true_eq]
    rw [eq_comm]

theorem termMatches_iff {t : Term F64} {t' : Term Lit} (h : Corresponds d t t')
    (hc : BigintCell row t'.col) : env.termMatches row t = true ↔ t'.Rounded row := by
  cases h with
  | @cmp col op f l h =>
    rw [termMatches, cell_asF64 (show BigintCell row col from hc), Term.Rounded]
    cases row.getD col .null with
    | int i => simp [d.cmp (d.whole_ofInt _) h.1, d.val_ofInt, h.2, Op.test]
    | _ => simp
  | @inSet col negated fs ls h =>
    rw [termMatches, cell_asF64 (show BigintCell row col from hc), Term.Rounded]
    cases row.getD col .null with
    | int i =>
      simp only [contains_bits d h, int.injEq, exists_eq_left']
      cases negated <;> cases near i.toInt ls <;> simp
    | _ => simp

/-! ## The interpreter -/

/-- A value the interpreter gives a whole number: exact in 64 bits, a double only beyond. -/
inductive Stands : Value → Int → Prop
  | int {i : Int64} {n : Int} (h : i.toInt = n) : Stands (.int i) n
  | uint {u : UInt64} {n : Int} (h : (u.toNat : Int) = n) (hn : 2 ^ 63 ≤ n) : Stands (.uint u) n
  | float {f : F64} {n : Int} (hw : d.Whole f) (hv : d.val f = double n)
    (hn : 2 ^ 64 ≤ n ∨ n ≤ -2 ^ 64) : Stands (.float f) n

variable {v : Value}

theorem Stands.isNull (h : Stands d v n) : v.isNull = false := by
  cases h <;> rfl

/-- A 64-bit number and one beyond 64 bits have different doubles. -/
theorem double_ne (i : Int64) (hn : 2 ^ 64 ≤ n ∨ n ≤ -2 ^ 64) : double i.toInt ≠ double n := by
  obtain ⟨-, hhi, h64⟩ := double_exact
  have hlo := double_neg (2 ^ 63)
  have hm64 := double_neg (2 ^ 64)
  have h1 : double (-2 ^ 63) ≤ double i.toInt := double_mono i.le_toInt
  have h2 : double i.toInt ≤ double (2 ^ 63) := double_mono i.toInt_lt.le
  obtain h | h := hn
  · have h3 := double_mono h
    omega
  · have h3 := double_mono h
    omega

theorem Stands.compare (h : Stands d v n) (coll : Collation) (i : Int64) :
    env.compareColl coll (.int i) v = some (Ord.compare i.toInt n) := by
  cases h with
  | int h | uint h => rw [← h]; rfl
  | @float f _ hw hv hn =>
    have hc : env.compareColl coll (.int i) (.float f) = env.f64Cmp (env.f64OfInt i.toInt) f := rfl
    rw [hc, d.cmp (d.whole_ofInt _) hw, d.val_ofInt, hv, compare_double (double_ne i hn)]

theorem Stands.compare_left (h : Stands d v n) (coll : Collation) (i : Int64) :
    env.compareColl coll v (.int i) = some (Ord.compare n i.toInt) := by
  cases h with
  | int h | uint h => rw [← h]; rfl
  | @float f _ hw hv hn =>
    have hc : env.compareColl coll (.float f) (.int i) = env.f64Cmp f (env.f64OfInt i.toInt) := rfl
    rw [hc, d.cmp hw (d.whole_ofInt _), d.val_ofInt, hv, compare_double (double_ne i hn).symm]

theorem stands_number (n : Nat) : Stands d (env.numberLiteral n) n := by
  rw [numberLiteral]
  split
  · exact .int (Int64.toInt_ofNat_of_lt ‹_›)
  · split
    · refine .uint ?_ (by omega)
      rw [UInt64.toNat_ofNat_of_lt' ‹_›]
    · exact .float (d.whole_ofInt _) (d.val_ofInt _) (by omega)

theorem stands_minus (h : Stands d v n) :
    (negatable n = true ∧ ∃ w, env.unaryMinus v = .ok w ∧ Stands d w (-n)) ∨
      negatable n = false ∧ ∃ e, env.unaryMinus v = .error e := by
  have hneg : n ≠ -2 ^ 63 ∧ ¬(2 ^ 63 < n ∧ n < 2 ^ 64) → negatable n = true := decide_eq_true
  cases h with
  | @int i _ h =>
    have hlt := i.toInt_lt
    by_cases hmin : i = Int64.minValue
    · have hn : n = -2 ^ 63 := by rw [← h, hmin]; rfl
      exact .inr ⟨by simp [negatable, hn], _, if_pos hmin⟩
    · have hne : n ≠ -2 ^ 63 := by
        intro hn
        exact hmin (Int64.toInt.inj (by rw [h, hn]; rfl))
      refine .inl ⟨hneg (by omega), _, if_neg hmin, .int ?_⟩
      have hle := i.le_toInt
      rw [Int64.toInt_neg, h, Int.bmod_eq_of_le (by omega) (by omega)]
  | @uint u _ h hn =>
    have hlt := u.toNat_lt
    by_cases hle : u.toNat ≤ 2 ^ 63
    · refine .inl ⟨hneg (by omega), _, if_pos hle, .int ?_⟩
      rw [Int64.toInt_ofInt_of_le (by omega) (by omega), h]
    · exact .inr ⟨decide_eq_false (by omega), _, if_neg hle⟩
  | float hw hv hn =>
    exact .inl ⟨hneg (by omega), _, rfl,
      .float (d.whole_neg hw) (by rw [d.val_neg hw, hv, double_neg]) (by omega)⟩

theorem eval_literal (schema : List Column) (row : Row) : (e : Filter) → {l : Lit} →
    literal e = some l →
    (l.inRange = true ∧ ∃ v, env.evalRow schema row (env.toExpr e) = .ok v ∧ Stands d v l.value) ∨
      l.inRange = false ∧ ∃ err, env.evalRow schema row (env.toExpr e) = .error err
  | .number n, l, h => by
    cases h
    exact .inl ⟨rfl, _, rfl, stands_number d n⟩
  | .minus e, l, h => by
    simp only [literal, Option.map_eq_some_iff] at h
    obtain ⟨l', hl', rfl⟩ := h
    simp only [toExpr, evalRow]
    obtain ⟨hr, v, hv, hs⟩ | ⟨hr, err, herr⟩ := eval_literal schema row e hl'
    · rw [hv, hr]
      exact stands_minus d hs
    · rw [herr, hr]
      exact .inr ⟨rfl, err, rfl⟩

end Compiled

/-- No reference of the filter is a system variable. -/
def Filter.namesColumns : Filter → Bool
  | .ident name => !isSystemVar name
  | .compound parts => !isSystemVar (parts.headD [])
  | .nested e => e.namesColumns
  | .minus e => e.namesColumns
  | .binary _ l r => l.namesColumns && r.namesColumns
  | .inList _ e _ => e.namesColumns
  | _ => true

def DistinctNames (env : Env) (schema : List Column) : Prop :=
  schema.Pairwise fun a b => env.identifierEq a.name b.name = false

section Interpreted

variable {env : Env} {schema : List Column}

theorem truthy_null : env.truthy .null = false := rfl

theorem truthy_bool (b : Bool) : env.truthy (.bool b) = b := rfl

theorem identifierEq_of_common {a b c : Text} (ha : env.identifierEq a c = true)
    (hb : env.identifierEq b c = true) : env.identifierEq a b = true := by
  simp only [identifierEq, beq_iff_eq] at *
  rw [ha, hb]

theorem filter_eq_singleton {p : α → Bool} {l : List α} {a : α} (hn : l.Nodup) (ha : a ∈ l)
    (hp : p a = true) (hu : ∀ b ∈ l, p b = true → b = a) : l.filter p = [a] := by
  refine perm_singleton.mp ((perm_ext_iff_of_nodup (hn.filter p)
    (nodup_singleton a)).mpr fun b => ?_)
  rw [mem_filter, mem_singleton]
  constructor
  · exact fun h => hu b h.1 h.2
  · rintro rfl
    exact ⟨ha, hp⟩

theorem columnHits_eq (hd : DistinctNames env schema) {name : Text} {i : Nat}
    (h : (schema.findIdx? fun c => env.identifierEq c.name name) = some i) :
    env.columnHits schema name = [i] := by
  obtain ⟨hi, hname, -⟩ := findIdx?_eq_some_iff_getElem.mp h
  refine filter_eq_singleton nodup_range (mem_range.mpr hi) (by simp [hi, hname]) ?_
  intro j hj hjn
  have hj' := mem_range.mp hj
  simp only [getElem?_eq_getElem hj'] at hjn
  by_contra hne
  have hp := pairwise_iff_getElem.mp hd
  obtain hlt | hlt := lt_or_gt_of_ne hne
  · simpa [hp j i hj' hi hlt] using identifierEq_of_common hjn hname
  · simpa [hp i j hi hj' hlt] using identifierEq_of_common hname hjn

theorem numericNamed_some {name : Text} (h : env.numericNamed schema name = some col) :
    (schema.findIdx? fun c => env.identifierEq c.name name) = some col :=
  (Option.filter_eq_some_iff.mp h).1

/-- What `numeric_col` takes for a column is that column to the interpreter. -/
theorem eval_column (hd : DistinctNames env schema) (h : env.numericCol schema e = some col)
    (hn : e.namesColumns = true) (row : Row) :
    env.evalRow schema row (env.toExpr e) = .ok (row.getD col .null) := by
  cases e with
  | ident name =>
    have hhits := columnHits_eq hd (numericNamed_some h)
    have hsys : isSystemVar name = false := by simpa [Filter.namesColumns] using hn
    simp only [toExpr, evalRow, hsys, hhits, resolve]
    rfl
  | compound parts =>
    simp only [numericCol, Option.bind_eq_some_iff] at h
    obtain ⟨name, hlast, h⟩ := h
    have hhits := columnHits_eq hd (numericNamed_some h)
    have hsys : isSystemVar (parts.headD []) = false := by simpa [Filter.namesColumns] using hn
    have hname : parts.getLastD [] = name := by simp [hlast]
    simp only [toExpr, evalRow, hsys, hname, hhits, resolve]
    rfl
  | _ => cases h

variable {op : BinaryOp} {op' : Op}

theorem binaryOp_comparison (h : cmpOp op = some op') (l r : Value) (coll : Collation) :
    env.binaryOp op l (.ok r) coll =
      if l.isNull || r.isNull then .ok .null
      else .ok (.bool (op'.holds (env.compareColl coll l r))) := by
  cases op <;> cases h <;> rfl

theorem binaryOp_error (h : cmpOp op = some op') (l : Value) (err : Error) (coll : Collation) :
    env.binaryOp op l (.error err) coll = .error err := by
  cases op <;> cases h <;> rfl

theorem matchesRow_binary (op : BinaryOp) (l r : Expr) (row : Row) :
    env.matchesRow schema (.binary op l r) row =
      Except.map env.truthy (do
        let x ← env.evalRow schema row l
        env.binaryOp op x (env.evalRow schema row r) (env.cmpCollation schema l r)) := rfl

theorem matchesRow_inList (negated : Bool) (e : Expr) (items : List Expr) (row : Row) :
    env.matchesRow schema (.inList negated e items) row =
      Except.map env.truthy (do
        let v ← env.evalRow schema row e
        if v.isNull then .ok .null
        else
          let coll := ((items.map fun i => env.cmpCollation schema e i).find? (· ≠ .ci)).getD .ci
          env.inItems coll negated v false (env.evalItems schema row items)) := rfl

theorem matches_comparison (h : cmpOp op = some op') {l r : Expr} {x y : Value}
    (hl : env.evalRow schema row l = .ok x) (hr : env.evalRow schema row r = .ok y) :
    env.matchesRow schema (.binary op l r) row = .ok true ↔
      (x.isNull || y.isNull) = false ∧
        op'.holds (env.compareColl (env.cmpCollation schema l r) x y) = true := by
  simp only [matchesRow_binary, hl, hr, bind, Except.bind, binaryOp_comparison h]
  cases x.isNull || y.isNull <;> simp [Except.map, truthy_null, truthy_bool]

variable (d : IntDoubles env) (hd : DistinctNames env schema)
include d hd

/-- The column stands on the left of the literal. -/
theorem matches_column_literal (hop : cmpOp op = some op') {lit : Lit}
    (hl : env.numericCol schema l = some col) (hr : literal r = some lit)
    (hn : l.namesColumns = true) (hb : BigintCell row col) :
    env.matchesRow schema (env.toExpr (.binary op l r)) row = .ok true ↔
      (Term.cmp col op' lit).Exact row := by
  have hl := eval_column hd hl hn row
  obtain ⟨hrange, v, hv, hs⟩ | ⟨hrange, err, herr⟩ := eval_literal d schema row r hr
  · rw [toExpr, matches_comparison hop hl hv, hs.isNull, Term.Exact]
    obtain hc | ⟨i, hc⟩ := hb
    · rw [hc]
      simp [isNull]
    · rw [hc, hs.compare]
      simp [isNull, hrange, Op.test]
  · show env.matchesRow schema (.binary op (env.toExpr l) (env.toExpr r)) row = _ ↔ _
    simp [matchesRow_binary, hl, herr, binaryOp_error hop, bind, Except.bind,
      Except.map, Term.Exact,
      hrange]

/-- The column stands on the right of the literal, and the compiled operator is turned. -/
theorem matches_literal_column (hop : cmpOp op = some op') {lit : Lit} (hl : literal l = some lit)
    (hr : env.numericCol schema r = some col) (hn : r.namesColumns = true)
    (hb : BigintCell row col) :
    env.matchesRow schema (env.toExpr (.binary op l r)) row = .ok true ↔
      (Term.cmp col op'.flip lit).Exact row := by
  have hr := eval_column hd hr hn row
  obtain ⟨hrange, v, hv, hs⟩ | ⟨hrange, err, herr⟩ := eval_literal d schema row l hl
  · rw [toExpr, matches_comparison hop hv hr, hs.isNull, Term.Exact]
    obtain hc | ⟨i, hc⟩ := hb
    · rw [hc]
      simp [isNull]
    · rw [hc, hs.compare_left]
      simp [isNull, hrange, Op.test, Op.holds_flip]
  · show env.matchesRow schema (.binary op (env.toExpr l) (env.toExpr r)) row = _ ↔ _
    simp [matchesRow_binary, herr, bind, Except.bind, Except.map, Term.Exact, hrange]

omit hd in
theorem inItems_literals (coll : Collation) (negated : Bool) (i : Int64) (row : Row)
    (h : items.mapM literal = some ls) :
    match found i.toInt ls with
    | some b => env.inItems coll negated (.int i) false
        (env.evalItems schema row (env.toExprs items)) = .ok (.bool (b != negated))
    | none => ∃ err, env.inItems coll negated (.int i) false
        (env.evalItems schema row (env.toExprs items)) = .error err := by
  induction items generalizing ls with
  | nil =>
    cases h
    simp [found, toExprs, evalItems, inItems]
  | cons e es ih =>
    simp only [mapM_cons, Option.pure_def, Option.bind_eq_bind, Option.bind_eq_some_iff,
      Option.some.injEq] at h
    obtain ⟨l, hl, ls', hls, rfl⟩ := h
    simp only [toExprs, evalItems, inItems, found]
    obtain ⟨hrange, v, hv, hs⟩ | ⟨hrange, err, herr⟩ := eval_literal d schema row e hl
    · simp only [hv, hrange, bind, Except.bind, hs.isNull, hs.compare, if_true]
      by_cases heq : l.value = i.toInt
      · simp [heq]
      · have hne : compare i.toInt l.value ≠ .eq := fun h => heq (compare_eq_iff_eq.mp h).symm
        simp only [heq, if_false, Option.some.injEq, hne, Bool.false_eq_true]
        exact ih hls
    · rw [herr, hrange]
      exact ⟨err, rfl⟩

theorem matches_in {negated : Bool} (he : env.numericCol schema e = some col)
    (hi : items.mapM literal = some ls) (hn : e.namesColumns = true) (hb : BigintCell row col) :
    env.matchesRow schema (env.toExpr (.inList negated e items)) row = .ok true ↔
      (Term.inSet col ls negated).Exact row := by
  show env.matchesRow schema (.inList negated (env.toExpr e) (env.toExprs items)) row = _ ↔ _
  rw [matchesRow_inList, eval_column hd he hn, Term.Exact]
  obtain hc | ⟨i, hc⟩ := hb
  · rw [hc]
    simp [bind, Except.bind, isNull, Except.map, truthy_null]
  · rw [hc]
    simp only [bind, Except.bind, isNull, int.injEq, exists_eq_left']
    generalize (((env.toExprs items).map fun x => env.cmpCollation schema (env.toExpr e) x).find?
      (· ≠ .ci)).getD .ci = coll
    have hin := @inItems_literals ls items env schema d coll negated i row hi
    cases hf : found i.toInt ls with
    | none =>
      rw [hf] at hin
      obtain ⟨err, herr⟩ := hin
      rw [herr]
      simp [Except.map]
    | some b =>
      rw [hf] at hin
      rw [hin]
      cases b <;> cases negated <;> simp [Except.map, truthy_bool]

omit d hd in
theorem truthy_iff_bool3 (v : Value) : env.truthy v = true ↔ env.bool3 v = some true := by
  cases hv : v.isNull with
  | true =>
    obtain rfl : v = .null := by cases v <;> first | rfl | cases hv
    simp [bool3, truthy_null, isNull]
  | false => simp [bool3, hv]

omit d hd in
theorem matches_and (l r : Expr) (row : Row) :
    env.matchesRow schema (.binary .and l r) row = .ok true ↔
      env.matchesRow schema l row = .ok true ∧ env.matchesRow schema r row = .ok true := by
  rw [matchesRow_binary, matchesRow, matchesRow]
  cases hl : env.evalRow schema row l with
  | error err => simp [bind, Except.bind, Except.map]
  | ok x =>
    cases hr : env.evalRow schema row r with
    | error err =>
      simp only [bind, Except.bind, binaryOp]
      split <;> simp [Except.map, truthy_bool]
    | ok y =>
      simp only [bind, Except.bind, binaryOp, Except.map, Except.ok.injEq, truthy_iff_bool3]
      rcases env.bool3 x with _ | _ | _ <;> rcases env.bool3 y with _ | _ | _ <;>
        simp [truthy_null, truthy_bool]

/-- The interpreter accepts a row iff every term of the filter holds exactly. -/
theorem matches_iff_exact : (f : Filter) → {ts : List (Term Lit)} →
    env.collectWith literal (fun _ => false) schema f = some ts → f.namesColumns = true →
    (∀ t ∈ ts, BigintCell row t.col) →
    (env.matchesRow schema (env.toExpr f) row = .ok true ↔ ∀ t ∈ ts, t.Exact row)
  | .nested e, ts, h, hn, hb => by
    exact matches_iff_exact e h hn hb
  | .binary op l r, ts, h, hn, hb => by
    simp only [Filter.namesColumns, Bool.and_eq_true] at hn
    cases hop : cmpOp op with
    | none =>
      cases op with
      | and =>
        simp only [collectWith, Option.bind_eq_bind, Option.bind_eq_some_iff,
          Option.some.injEq] at h
        obtain ⟨a, ha, b, hb', rfl⟩ := h
        rw [toExpr, matches_and,
          matches_iff_exact l ha hn.1 fun t ht => hb t (mem_append_left b ht),
          matches_iff_exact r hb' hn.2 fun t ht => hb t (mem_append_right a ht), forall_mem_append]
      | or => simp [collectWith, hop] at h
      | _ => cases hop
    | some op' =>
      have hcmp : env.comparisonWith literal schema op' l r = some ts := by
        cases op <;> cases hop <;> exact h
      rw [comparisonWith] at hcmp
      split at hcmp
      · next col lit hl hr =>
        cases hcmp
        simpa using matches_column_literal d hd hop hl hr hn.1 (hb _ mem_cons_self)
      · split at hcmp
        · next lit col hl hr =>
          cases hcmp
          simpa using matches_literal_column d hd hop hl hr hn.2 (hb _ mem_cons_self)
        · cases hcmp
  | .inList negated e items, ts, h, hn, hb => by
    simp only [collectWith, Option.bind_eq_bind, Option.bind_eq_some_iff] at h
    obtain ⟨col, hcol, ls, hls, h⟩ := h
    split at h
    · cases h
    · cases h
      simpa using matches_in d hd hcol hls hn (hb _ mem_cons_self)
  | .number _, _, h, _, _ | .minus _, _, h, _, _ | .ident _, _, h, _, _
  | .compound _, _, h, _, _ | .other _, _, h, _, _ => by cases h

end Interpreted

/-! ## Agreement -/

/-- A filter and the filters it is a conjunction of. -/
def Filter.parts : Filter → List Filter
  | .nested e => .nested e :: e.parts
  | .binary .and l r => .binary .and l r :: (l.parts ++ r.parts)
  | f => [f]

section Parts

variable {env : Env} {schema : List Column} {α : Type} {lit : Filter → Option α} {nan : α → Bool}

open Engine.Filter

theorem Filter.mem_parts (f : Filter) : f ∈ f.parts := by
  cases f with
  | nested e => simp [parts]
  | binary op l r => cases op <;> simp [parts]
  | _ => simp [parts]

variable {ts : List (Term α)}

theorem comparison_single {op : Op} (h : env.comparisonWith lit schema op l r = some ts) :
    ∃ t, ts = [t] := by
  rw [comparisonWith] at h
  split at h
  · exact ⟨_, (Option.some.inj h).symm⟩
  · split at h
    · exact ⟨_, (Option.some.inj h).symm⟩
    · cases h

theorem inList_single {negated : Bool}
    (h : env.collectWith lit nan schema (.inList negated e items) = some ts) : ∃ t, ts = [t] := by
  simp only [collectWith, Option.bind_eq_bind, Option.bind_eq_some_iff] at h
  obtain ⟨_, -, _, -, h⟩ := h
  split at h
  · cases h
  · exact ⟨_, (Option.some.inj h).symm⟩

variable (env lit nan schema) in
/-- The parts of `f` compile to parts of `ts`, down to each single term. -/
def PartsCollect (f : Filter) (ts : List (Term α)) : Prop :=
  (∀ g ∈ f.parts, ∃ us, env.collectWith lit nan schema g = some us ∧ us ≠ [] ∧ us ⊆ ts) ∧
    ∀ t ∈ ts, ∃ g ∈ f.parts, env.collectWith lit nan schema g = some [t]

theorem PartsCollect.ne_nil (h : PartsCollect env schema lit nan f ts) : ts ≠ [] := by
  obtain ⟨us, -, hne, hsub⟩ := h.1 f f.mem_parts
  rintro rfl
  exact hne (subset_nil.mp hsub)

theorem PartsCollect.of_single {t : Term α} (hp : f.parts = [f])
    (h : env.collectWith lit nan schema f = some [t]) : PartsCollect env schema lit nan f [t] := by
  rw [PartsCollect, hp]
  simp [h]

theorem collect_parts : (f : Filter) → {ts : List (Term α)} →
    env.collectWith lit nan schema f = some ts → PartsCollect env schema lit nan f ts
  | .nested e, ts, h => by
    have he := h
    have ih := collect_parts e he
    refine ⟨?_, fun t ht => ?_⟩
    · simp only [parts, forall_mem_cons]
      exact ⟨⟨ts, h, ih.ne_nil, List.Subset.refl ts⟩, ih.1⟩
    · obtain ⟨g, hg, hgt⟩ := ih.2 t ht
      exact ⟨g, mem_cons_of_mem _ hg, hgt⟩
  | .binary op l r, ts, h => by
    cases op with
    | and =>
      have hlr := h
      simp only [collectWith, Option.bind_eq_bind, Option.bind_eq_some_iff,
        Option.some.injEq] at hlr
      obtain ⟨a, ha, b, hb, rfl⟩ := hlr
      have ihl := collect_parts l ha
      have ihr := collect_parts r hb
      refine ⟨?_, fun t ht => ?_⟩
      · simp only [parts, forall_mem_cons, forall_mem_append]
        refine ⟨⟨_, h, by simp [ihl.ne_nil], List.Subset.refl _⟩, fun g hg => ?_, fun g hg => ?_⟩
        · obtain ⟨us, hus, hne, hsub⟩ := ihl.1 g hg
          exact ⟨us, hus, hne, List.Subset.trans hsub (subset_append_left a b)⟩
        · obtain ⟨us, hus, hne, hsub⟩ := ihr.1 g hg
          exact ⟨us, hus, hne, List.Subset.trans hsub (subset_append_right a b)⟩
      · obtain ht | ht := mem_append.mp ht
        · obtain ⟨g, hg, hgt⟩ := ihl.2 t ht
          exact ⟨g, mem_cons_of_mem _ (mem_append_left _ hg), hgt⟩
        · obtain ⟨g, hg, hgt⟩ := ihr.2 t ht
          exact ⟨g, mem_cons_of_mem _ (mem_append_right _ hg), hgt⟩
    | or => simp [collectWith, cmpOp] at h
    | _ =>
      obtain ⟨t, rfl⟩ := comparison_single h
      exact .of_single rfl h
  | .inList negated e items, ts, h => by
    obtain ⟨t, rfl⟩ := inList_single h
    exact .of_single rfl h
  | .number _, _, h | .minus _, _, h | .ident _, _, h | .compound _, _, h | .other _, _, h => by
    cases h

end Parts

section Agreement

variable {env : Env} {schema : List Column}

theorem namesColumns_parts : (f : Filter) → f.namesColumns = true → ∀ g ∈ f.parts,
    g.namesColumns = true
  | .nested e, h => by
    simp only [Filter.parts, forall_mem_cons]
    exact ⟨h, namesColumns_parts e h⟩
  | .binary op l r, h => by
    cases op with
    | and =>
      have hlr := h
      simp only [Filter.namesColumns, Bool.and_eq_true] at hlr
      simp only [Filter.parts, forall_mem_cons, forall_mem_append]
      exact ⟨h, namesColumns_parts l hlr.1, namesColumns_parts r hlr.2⟩
    | _ => simpa [Filter.parts] using h
  | .inList .., h | .number _, h | .minus _, h | .ident _, h | .compound _, h | .other _, h => by
    simpa [Filter.parts] using h

theorem forall_of_forall₂ {β : Type} {R : α → β → Prop} {p : α → Prop} {q : β → Prop} {xs : List α}
    {ys : List β} (h : List.Forall₂ R xs ys) (hpq : ∀ x y, R x y → y ∈ ys → (p x ↔ q y)) :
    (∀ x ∈ xs, p x) ↔ ∀ y ∈ ys, q y := by
  induction h with
  | nil => simp
  | cons hxy _ ih =>
    simp only [forall_mem_cons]
    rw [hpq _ _ hxy mem_cons_self, ih fun x y hr hy => hpq x y hr (mem_cons_of_mem _ hy)]

theorem agrees_iff (d : IntDoubles env) (hd : DistinctNames env schema) {g : Filter}
    {us : List (Term Lit)} (hg : env.collectWith literal (fun _ => false) schema g = some us)
    (hne : us ≠ []) (hn : g.namesColumns = true) (hb : ∀ t ∈ us, BigintCell row t.col) :
    ∃ q, env.compile schema g = some q ∧
      (env.compiledMatches q row = true ↔ ∀ t ∈ us, t.Rounded row) ∧
      (env.matchesRow schema (env.toExpr g) row = .ok true ↔ ∀ t ∈ us, t.Exact row) := by
  have hrel := corresponds_collect d schema g
  rw [hg] at hrel
  cases hq : env.collectWith env.numLit env.isNan schema g with
  | none =>
    rw [hq] at hrel
    cases hrel
  | some q =>
    rw [hq] at hrel
    obtain ⟨hrel⟩ := hrel
    refine ⟨q, ?_, ?_, matches_iff_exact d hd g hg hn hb⟩
    · have hqne : q ≠ [] := by
        rintro rfl
        exact hne (forall₂_nil_left_iff.mp hrel)
      simp [compile, hq, hqne]
    · rw [compiledMatches, all_eq_true]
      exact forall_of_forall₂ hrel fun t t' h ht' => termMatches_iff d h (hb t' ht')

theorem Corresponds.col_eq {d : IntDoubles env} {t : Term F64} {t' : Term Lit}
    (h : Corresponds d t t') : t.col = t'.col := by
  cases h <;> rfl

theorem terms_of_compile (d : IntDoubles env) {p : List (Term F64)}
    (hc : env.compile schema f = some p) :
    env.collectWith literal (fun _ => false) schema f = some (env.terms schema f) ∧
      List.Forall₂ (Corresponds d) p (env.terms schema f) := by
  have hp := (Option.filter_eq_some_iff.mp hc).1
  have hrel := corresponds_collect d schema f
  rw [hp] at hrel
  rw [terms]
  generalize env.collectWith literal (fun _ => false) schema f = x at hrel
  obtain ⟨hrel⟩ := hrel
  exact ⟨rfl, hrel⟩

/-- The compiled form and the interpreter agree on a filter and on all its parts iff doubles can
decide every term of it on the row. -/
theorem compiled_agrees_iff (d : IntDoubles env) (hd : DistinctNames env schema) {f : Filter}
    {p : List (Term F64)} (hc : env.compile schema f = some p) (hn : f.namesColumns = true)
    {row : Row} (hb : ∀ t ∈ p, BigintCell row t.col) :
    (∀ g ∈ f.parts, ∃ q, env.compile schema g = some q ∧
      (env.compiledMatches q row = true ↔
        env.matchesRow schema (env.toExpr g) row = .ok true)) ↔
      ∀ t ∈ env.terms schema f, ¬t.Blurred row := by
  obtain ⟨hts, hrel⟩ := terms_of_compile d hc
  have hb' : ∀ t ∈ env.terms schema f, BigintCell row t.col :=
    (forall_of_forall₂ hrel fun t t' h _ => by rw [h.col_eq]).mp hb
  have hparts := collect_parts f hts
  have hnames := namesColumns_parts f hn
  constructor
  · -- a term is a part of its own
    intro hagree t ht
    obtain ⟨g, hg, hgt⟩ := hparts.2 t ht
    obtain ⟨q, hq, hround, hexact⟩ := agrees_iff d hd hgt (cons_ne_nil t [])
      (hnames g hg) (by simpa using hb' t ht)
    obtain ⟨q', hq', hiff⟩ := hagree g hg
    obtain rfl : q = q' := Option.some.inj (hq.symm.trans hq')
    rw [Term.blurred_iff]
    simpa [hround, hexact] using hiff
  · intro hclear g hg
    obtain ⟨us, hus, hne, hsub⟩ := hparts.1 g hg
    obtain ⟨q, hq, hround, hexact⟩ := agrees_iff d hd hus hne (hnames g hg)
      fun t ht => hb' t (hsub ht)
    refine ⟨q, hq, ?_⟩
    rw [hround, hexact]
    refine forall₂_congr fun t ht => ?_
    have := hclear t (hsub ht)
    rwa [Term.blurred_iff, not_not] at this

end Agreement

/-! ## An environment with whole doubles

Doubles packed into 64 bits: a sign, ten bits for the power of two and 53 for the significant
digits. It is not the layout of the hardware, but it holds the same whole numbers. -/

/-- A number the doubles hold: 53 significant bits, and `2 ^ 1024` for infinity. -/
def Representable (a : Nat) : Prop := 2 ^ excess 53 a ∣ a ∧ a ≤ 2 ^ 1024

def magnitudeBits (a : Nat) : Nat := excess 53 a * 2 ^ 53 + a / 2 ^ excess 53 a

def packWhole (negative : Bool) (a : Nat) : F64 :=
  UInt64.ofNat ((if negative then 2 ^ 63 else 0) + magnitudeBits a)

def wholeValue (f : F64) : Int :=
  let c := f.toNat % 2 ^ 63
  let a : Nat := c % 2 ^ 53 * 2 ^ (c / 2 ^ 53)
  if f.toNat < 2 ^ 63 then (a : Int) else -a

def negateWhole (f : F64) : F64 :=
  if f.toNat < 2 ^ 63 then UInt64.ofNat (f.toNat + 2 ^ 63) else UInt64.ofNat (f.toNat - 2 ^ 63)

def Env.whole : Env :=
  { plain with
    f64OfInt := fun n => packWhole (decide (n < 0)) (double n).natAbs
    f64Neg := negateWhole
    f64Cmp := fun f g => some (compare (wholeValue f) (wholeValue g))
    f64IsZero := fun f => wholeValue f == 0 }

variable {a : Nat}

theorem excess_lt (h : a ≤ 2 ^ 1024) : excess 53 a < 1024 := by
  obtain rfl | ha := eq_or_ne a 0
  · decide
  · have : a.log2 < 1025 := (log2_lt ha).mpr (by omega)
    rw [excess]
    omega

theorem digits_lt (a : Nat) : a / 2 ^ excess 53 a < 2 ^ 53 := by
  rw [div_lt_iff_lt_mul (Nat.two_pow_pos _), ← pow_add]
  refine lt_of_lt_of_le (lt_log2_self) (Nat.pow_le_pow_right two_pos ?_)
  rw [excess]
  omega

theorem magnitudeBits_lt (h : a ≤ 2 ^ 1024) : magnitudeBits a < 2 ^ 63 := by
  have h1 := excess_lt h
  have h2 := digits_lt a
  rw [magnitudeBits]
  omega

theorem toNat_packWhole (h : a ≤ 2 ^ 1024) (negative : Bool) :
    (packWhole negative a).toNat = (if negative then 2 ^ 63 else 0) + magnitudeBits a := by
  have := magnitudeBits_lt h
  rw [packWhole, UInt64.toNat_ofNat_of_lt']
  change _ < 2 ^ 64
  split <;> omega

theorem wholeValue_packWhole (h : Representable a) (negative : Bool) :
    wholeValue (packWhole negative a) = if negative then -(a : Int) else a := by
  have hlt := magnitudeBits_lt h.2
  have hd := digits_lt a
  have hmod : magnitudeBits a % 2 ^ 53 = a / 2 ^ excess 53 a := by
    rw [magnitudeBits, mul_comm, mul_add_mod, mod_eq_of_lt hd]
  have hdiv : magnitudeBits a / 2 ^ 53 = excess 53 a := by
    rw [magnitudeBits, mul_comm, mul_add_div (Nat.two_pow_pos 53), div_eq_of_lt hd, add_zero]
  have ha : a / 2 ^ excess 53 a * 2 ^ excess 53 a = a := Nat.div_mul_cancel h.1
  cases negative with
  | false =>
    simp only [wholeValue, toNat_packWhole h.2, Bool.false_eq_true, if_false, zero_add,
      mod_eq_of_lt hlt, hmod, hdiv, ha, if_pos hlt]
  | true =>
    have hm : (2 ^ 63 + magnitudeBits a) % 2 ^ 63 = magnitudeBits a := by omega
    simp only [wholeValue, toNat_packWhole h.2, if_true, hm, hmod, hdiv, ha]
    rw [if_neg (by omega)]

theorem negateWhole_packWhole (h : a ≤ 2 ^ 1024) (negative : Bool) :
    negateWhole (packWhole negative a) = packWhole (!negative) a := by
  have hlt := magnitudeBits_lt h
  rw [negateWhole, toNat_packWhole h]
  cases negative with
  | false =>
    rw [if_pos (by simpa using hlt)]
    simp [packWhole, add_comm]
  | true =>
    simp [packWhole]

theorem natAbs_roundInt (p : Nat) (n : Int) : (roundInt p n).natAbs = roundNat p n.natAbs := by
  cases n with
  | ofNat n => rfl
  | negSucc n => simp [roundInt]

theorem natAbs_double (n : Int) : (double n).natAbs = min (2 ^ 1024) (roundNat 53 n.natAbs) := by
  rw [← natAbs_roundInt, double]
  omega

theorem representable_double (n : Int) : Representable (double n).natAbs := by
  rw [natAbs_double]
  refine ⟨?_, min_le_left _ _⟩
  obtain h | h := le_total (2 ^ 1024) (roundNat 53 n.natAbs)
  · rw [min_eq_left h]
    exact pow_dvd_pow 2 (by rw [excess, log2_two_pow]; omega)
  · rw [min_eq_right h]
    exact two_pow_excess_dvd_roundNat (by decide) _

theorem double_nonneg (h : 0 ≤ n) : 0 ≤ double n :=
  double_exact.1 ▸ double_mono h

theorem double_nonpos (h : n ≤ 0) : double n ≤ 0 :=
  double_exact.1 ▸ double_mono h

theorem wholeValue_ofInt (n : Int) : wholeValue (whole.f64OfInt n) = double n := by
  have hv : wholeValue (whole.f64OfInt n) =
      if decide (n < 0) then -((double n).natAbs : Int) else (double n).natAbs :=
    wholeValue_packWhole (representable_double n) _
  rw [hv]
  by_cases hn : n < 0
  · have := double_nonpos hn.le
    simp only [hn, decide_true, if_true]
    omega
  · have := double_nonneg (not_lt.mp hn)
    simp only [hn, decide_false, Bool.false_eq_true, if_false]
    omega

theorem canonicalF64Bits_whole (f : F64) :
    whole.canonicalF64Bits f = if wholeValue f = 0 then 0 else f := by
  have hnan : whole.isNan f = false := by simp [Env.isNan, whole]
  have hzero : whole.f64IsZero f = (wholeValue f == 0) := rfl
  simp [canonicalF64Bits, hnan, hzero]

theorem packWhole_inj {b : Nat} (ha : Representable a) (hb : Representable b) {m n : Bool}
    (h0 : wholeValue (packWhole m a) ≠ 0)
    (h : wholeValue (packWhole m a) = wholeValue (packWhole n b)) :
    packWhole m a = packWhole n b := by
  rw [wholeValue_packWhole ha] at h h0
  rw [wholeValue_packWhole hb] at h
  have hmn : m = n := by cases m <;> cases n <;> simp_all
  have hab : a = b := by cases m <;> simp_all
  rw [hmn, hab]

/-- The packed doubles are doubles. -/
def wholeDoubles : IntDoubles whole where
  Whole f := ∃ negative a, Representable a ∧ f = packWhole negative a
  val := wholeValue
  whole_ofInt n := ⟨_, _, representable_double n, rfl⟩
  val_ofInt := wholeValue_ofInt
  whole_neg := by
    rintro f ⟨negative, a, ha, rfl⟩
    exact ⟨!negative, a, ha, negateWhole_packWhole ha.2 negative⟩
  val_neg := by
    rintro f ⟨negative, a, ha, rfl⟩
    have hneg : whole.f64Neg (packWhole negative a) = packWhole (!negative) a :=
      negateWhole_packWhole ha.2 negative
    rw [hneg, wholeValue_packWhole ha, wholeValue_packWhole ha]
    cases negative <;> simp
  cmp _ _ := rfl
  bits := by
    rintro f g ⟨m, a, ha, rfl⟩ ⟨n, b, hb, rfl⟩
    rw [canonicalF64Bits_whole, canonicalF64Bits_whole]
    have hzero : wholeValue 0 = 0 := by decide
    constructor
    · intro h
      split at h
      · next h0 =>
        split at h
        · next h1 => rw [h0, h1]
        · next h1 => exact absurd (h ▸ hzero) h1
      · next h0 =>
        split at h
        · exact absurd (h ▸ hzero) h0
        · rw [h]
    · intro h
      rw [← h]
      split
      · rfl
      · next h0 => exact packWhole_inj ha hb h0 h

/-! ## Filters on one column -/

/-- A table with one `BIGINT` column. -/
def bigintSchema : List Column :=
  [{ name := ['g'], ty := .int, nullable := true, collation := .ci }]

theorem bigintSchema_distinct : DistinctNames whole bigintSchema :=
  pairwise_singleton _ _

/-- `g >= -5 AND (g IN (7, 9007199254740993))`. -/
def smallFilter : Filter :=
  .binary .and (.binary .gtEq (.ident ['g']) (.minus (.number 5)))
    (.nested (.inList false (.ident ['g']) [.number 7, .number 9007199254740993]))

theorem compiled_agrees_iff_small :
    (∀ t ∈ whole.terms bigintSchema smallFilter, ¬t.Blurred [.int 7]) ∧
      ∀ g ∈ smallFilter.parts, ∃ q, whole.compile bigintSchema g = some q ∧
        (whole.compiledMatches q [.int 7] = true ↔
          whole.matchesRow bigintSchema (whole.toExpr g) [.int 7] = .ok true) := by
  have hclear : ∀ t ∈ whole.terms bigintSchema smallFilter, ¬t.Blurred [.int 7] := by
    decide +kernel
  obtain ⟨p, hp, hcol⟩ : ∃ p, whole.compile bigintSchema smallFilter = some p ∧
      ∀ t ∈ p, t.col = 0 := ⟨_, rfl, by decide +kernel⟩
  refine ⟨hclear, (compiled_agrees_iff wholeDoubles bigintSchema_distinct hp rfl ?_).mpr hclear⟩
  intro t ht
  rw [hcol t ht]
  exact .inr ⟨7, rfl⟩

/-- `g = 9007199254740992`, the last number before the doubles grow apart. -/
def edgeFilter : Filter := .binary .eq (.ident ['g']) (.number 9007199254740992)

/-- The compiled filter accepts the row of another number. -/
theorem compiled_accepts_other_number :
    ∃ q, whole.compile bigintSchema edgeFilter = some q ∧
      whole.compiledMatches q [.int 9007199254740993] = true ∧
      whole.matchesRow bigintSchema (whole.toExpr edgeFilter) [.int 9007199254740993] =
        .ok false :=
  ⟨_, rfl, by decide +kernel, by decide +kernel⟩

end ElyraSql.Engine
