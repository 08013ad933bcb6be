import ElyraSql.Engine.CompiledAgreement

/-!
# Bit aggregates

`BIT_AND`, `BIT_OR` and `BIT_XOR` of one group. An input becomes a double and then a signed number
before its bits are folded in.
-/

namespace ElyraSql.Olap

open Engine List BitVec Option

/-- The bit functions of `AggFunc`. -/
inductive BitFunc
  | bitOr
  | bitAnd
  | bitXor

namespace BitFunc

def op : BitFunc → BitVec 64 → BitVec 64 → BitVec 64
  | bitOr, a, b => a ||| b
  | bitAnd, a, b => a &&& b
  | bitXor, a, b => a ^^^ b

/-- What `finish` gives without an input. -/
def empty : BitFunc → BitVec 64
  | bitAnd => BitVec.allOnes 64
  | _ => 0

variable (f : BitFunc)

theorem op_assoc (a b c : BitVec 64) : f.op (f.op a b) c = f.op a (f.op b c) := by
  cases f with
  | bitOr => exact or_assoc a b c
  | bitAnd => exact and_assoc a b c
  | bitXor => exact BitVec.xor_assoc a b c

theorem op_comm (a b : BitVec 64) : f.op a b = f.op b a := by
  cases f with
  | bitOr => exact or_comm a b
  | bitAnd => exact and_comm a b
  | bitXor => exact BitVec.xor_comm a b

theorem empty_op (a : BitVec 64) : f.op f.empty a = a := by
  cases f with
  | bitOr => exact zero_or
  | bitAnd => exact allOnes_and
  | bitXor => exact zero_xor

theorem op_empty (a : BitVec 64) : f.op a f.empty = a :=
  (f.op_comm a _).trans (f.empty_op a)

def fold (xs : List (BitVec 64)) : BitVec 64 := xs.foldr f.op f.empty

theorem fold_append (xs ys : List (BitVec 64)) :
    f.fold (xs ++ ys) = f.op (f.fold xs) (f.fold ys) := by
  induction xs with
  | nil => exact (f.empty_op _).symm
  | cons x xs ih =>
    show f.op x (f.fold (xs ++ ys)) = f.op (f.op x (f.fold xs)) (f.fold ys)
    rw [ih, op_assoc]

theorem fold_perm {xs ys : List (BitVec 64)} (h : xs.Perm ys) : f.fold xs = f.fold ys :=
  have : LeftCommutative f.op := ⟨fun a b c => by rw [← op_assoc, f.op_comm a b, op_assoc]⟩
  h.foldr_eq _

end BitFunc

/-- `n as i64` for a double of the value `n`. -/
def asI64 (n : Int) : BitVec 64 := BitVec.ofInt 64 (max (-2 ^ 63) (min (2 ^ 63 - 1) n))

variable (other : Value → Option (BitVec 64))

/-- `num` and `as i64`; `other` is what they make of a value that is no integer. -/
def bitsOf : Value → Option (BitVec 64)
  | .null => none
  | .int i => some (asI64 (double i.toInt))
  | .uint u => some (asI64 (double u.toNat))
  | v => other v

def pattern : Value → Option (BitVec 64)
  | .null => none
  | .int i => some i.toBitVec
  | .uint u => some u.toBitVec
  | v => other v

/-- The fields of `Acc` that the bit functions use. -/
structure Acc where
  bits : BitVec 64 := 0
  bitsInit : Bool := false

namespace Acc

variable (f : BitFunc) (a : Acc)

/-- How `update` and `merge_acc` fold in some bits. -/
def add (i : BitVec 64) : Acc := if a.bitsInit then { a with bits := f.op a.bits i } else ⟨i, true⟩

def update (val : Option Value) : Acc :=
  match val.bind (bitsOf other) with
  | some i => a.add f i
  | none => a

def mergeAcc (b : Acc) : Acc := if b.bitsInit then a.add f b.bits else a

/-- The bits that `finish` returns. -/
def total : BitVec 64 := if a.bitsInit then a.bits else f.empty

def finish : Value := .uint ⟨a.total f⟩

theorem total_add (i : BitVec 64) : (a.add f i).total f = f.op (a.total f) i := by
  obtain ⟨bits, _ | _⟩ := a
  · exact (f.empty_op i).symm
  · rfl

theorem total_mergeAcc (b : Acc) : (a.mergeAcc f b).total f = f.op (a.total f) (b.total f) := by
  obtain ⟨bits, _ | _⟩ := b
  · exact (f.op_empty _).symm
  · exact total_add f a bits

end Acc

/-- The ways in which the rows of a group come to an accumulator: one after the other, or through
accumulators that are merged. -/
inductive Feed
  | start
  | row (p : Feed) (v : Value)
  | merge (p q : Feed)

namespace Feed

def values : Feed → List Value
  | start => []
  | row p v => p.values ++ [v]
  | merge p q => p.values ++ q.values

def acc (f : BitFunc) : Feed → Acc
  | start => {}
  | row p v => (p.acc f).update other f (some v)
  | merge p q => (p.acc f).mergeAcc f (q.acc f)

/-- Every way to feed the rows leads to the fold of what they are converted to. -/
theorem total_acc (f : BitFunc) (p : Feed) :
    (p.acc other f).total f = f.fold (p.values.filterMap (bitsOf other)) := by
  induction p with
  | start => rfl
  | row p v ih =>
    rw [values, filterMap_append, f.fold_append, ← ih, acc, Acc.update, bind_some]
    match hv : bitsOf other v with
    | some i =>
      rw [filterMap_cons_some hv]
      show _ = f.op _ (f.op i f.empty)
      rw [f.op_empty, ← Acc.total_add]
    | none =>
      rw [filterMap_cons_none hv]
      exact (f.op_empty _).symm
  | merge p q ihp ihq => rw [values, filterMap_append, f.fold_append, ← ihp, ← ihq, acc,
      Acc.total_mergeAcc]

end Feed

/-- The numbers that a double holds, up to the greatest signed number, and that number: its double
is greater by one, and is converted back to it. -/
def Fits (n : Int) : Prop := n < 2 ^ 63 ∧ (double n = n ∨ n = 2 ^ 63 - 1)

theorem asI64_double_iff {n : Int} (hl : -2 ^ 63 ≤ n) (hu : n < 2 ^ 64) :
    asI64 (double n) = BitVec.ofInt 64 n ↔ Fits n := by
  have hlow : -2 ^ 63 ≤ double n := by
    have := double_mono hl
    rwa [double_neg, double_exact.2.1] at this
  have hhigh : 2 ^ 63 ≤ n → 2 ^ 63 ≤ double n := fun h => double_exact.2.1 ▸ double_mono h
  have hmax : n = 2 ^ 63 - 1 → double n = 2 ^ 63 := by
    rintro rfl
    decide +kernel
  unfold asI64 Fits
  rw [← toNat_inj, toNat_ofInt, toNat_ofInt]
  omega

def Survives : Value → Prop
  | .int i => Fits i.toInt
  | .uint u => Fits u.toNat
  | _ => True

theorem bitsOf_eq_iff (v : Value) : bitsOf other v = pattern other v ↔ Survives v := by
  cases v with
  | int i =>
    have hi : i.toBitVec = BitVec.ofInt 64 i.toInt := (ofInt_toInt).symm
    show some _ = some _ ↔ Fits _
    rw [some_inj, hi, asI64_double_iff i.le_toInt (i.toInt_lt.trans (by decide))]
  | uint u =>
    have hu : u.toBitVec = BitVec.ofInt 64 u.toNat := by
      exact u.toBitVec.eq_of_toNat_eq (by simp)
    have := u.toNat_lt
    show some _ = some _ ↔ Fits _
    rw [some_inj, hu, asI64_double_iff (by omega) (by omega)]
  | _ => exact iff_of_true rfl trivial

/-- The bit aggregates of values from `S` are the folds of their patterns, in whatever order and
through whatever partial accumulators they are fed, iff every value of `S` survives. -/
theorem bitAggregates_exact_iff (f : BitFunc) (S : Set Value) :
    (∀ (p : Feed) (vs : List Value), p.values.Perm vs → (∀ v ∈ vs, v ∈ S) →
      (p.acc other f).finish f = .uint ⟨f.fold (vs.filterMap (pattern other))⟩) ↔
    ∀ v ∈ S, Survives v := by
  constructor
  · intro h v hv
    -- One row with the value alone.
    have hone := h (.row .start v) [v] (.refl _) (by simpa using hv)
    rw [Acc.finish, Feed.total_acc] at hone
    have hone := congrArg UInt64.toBitVec (Value.uint.inj hone)
    refine (bitsOf_eq_iff other v).mp ?_
    cases v with
    | int i | uint u =>
      exact congrArg some ((f.op_empty _).symm.trans (hone.trans (f.op_empty _)))
    | _ => rfl
  · intro h p vs hp hvs
    have hsame : vs.filterMap (bitsOf other) = vs.filterMap (pattern other) :=
      filterMap_congr fun v hv => (bitsOf_eq_iff other v).mpr (h v (hvs v hv))
    rw [Acc.finish, Feed.total_acc, f.fold_perm (hp.filterMap _), hsame]

/-- `2^53 + 1` loses its last bit, and the greatest unsigned number its first. -/
theorem bitAggregates_round :
    Acc.finish .bitOr (Feed.acc (fun _ => none) .bitOr (.row .start (.uint 9007199254740993))) =
      .uint 9007199254740992 ∧
    Acc.finish .bitAnd (Feed.acc (fun _ => none) .bitAnd
      (.row .start (.uint 18446744073709551615))) =
      .uint 9223372036854775807 := by
  decide +kernel

end ElyraSql.Olap
