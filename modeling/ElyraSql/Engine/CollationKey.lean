import ElyraSql.Engine.CompiledPredicate
import ElyraSql.Engine.KeyEncoding

/-!
# Collation keys

`Value::push_collation_key_coll`, the type-tagged key by which values are hashed for joins,
grouping and `DISTINCT`, and `hash_key_types_compatible`, the pairs of column types for which a
join may use it. The byte string of the source is kept by its parts: the tag and what follows it.
-/

namespace ElyraSql.Engine

open Env

/-- The key of one value. Bytes, dates and times are keyed by what they print as. -/
inductive CollationKey
  | null
  | int (i : Int)
  | bool (b : Bool)
  | float (bits : F64)
  | text (s : Bytes)
  | uint (u : UInt64)
  | decimal (unscaled : Int) (scale : Nat)
  | other (v : Value)
  deriving DecidableEq, Repr

/-- The trailing zeros of a decimal are dropped. -/
def stripZeros (unscaled : Int) : Nat → Int × Nat
  | 0 => (unscaled, 0)
  | scale + 1 =>
    if unscaled % 10 = 0 then stripZeros (unscaled / 10) scale else (unscaled, scale + 1)

/-- `collation_key_coll`. An unsigned number that fits is keyed as a signed one. -/
def Env.collationKey (env : Env) (coll : Collation) : Value → CollationKey
  | .null => .null
  | .int i => .int i.toInt
  | .bool b => .bool b
  | .float f => .float (env.canonicalF64Bits f)
  | .text s | .json s => .text (env.collated coll s)
  | .uint u => if u.toNat < 2 ^ 63 then .int u.toNat else .uint u
  | .decimal u scale =>
    let p := stripZeros u.toInt scale
    .decimal p.1 p.2
  | v => .other v

def hashKeyTypesCompatible : ColumnType → ColumnType → Bool
  | .int, .int | .int, .uint | .uint, .int | .uint, .uint => true
  | .bool, .bool | .bytes, .bytes | .date, .date | .dateTime, .dateTime | .time, .time => true
  | .text, .text | .text, .json | .json, .text | .json, .json => true
  | .decimal _ s, .decimal _ t => s == t
  | _, _ => false

/-! ## Equal keys -/

theorem stripZeros_value (u : Int) (scale : Nat) :
    (stripZeros u scale).2 ≤ scale ∧
      u = (stripZeros u scale).1 * 10 ^ (scale - (stripZeros u scale).2) := by
  induction scale generalizing u with
  | zero => simp [stripZeros]
  | succ scale ih =>
    rw [stripZeros]
    split
    · next hdvd =>
      obtain ⟨hle, hval⟩ := ih (u / 10)
      rw [Nat.succ_sub hle, pow_succ, ← mul_assoc]
      omega
    · simp

theorem stripZeros_inj {u v : Int} {scale : Nat} (h : stripZeros u scale = stripZeros v scale) :
    u = v := by
  rw [(stripZeros_value u scale).2, (stripZeros_value v scale).2, h]

/-! ## Places of values -/

/-- Where a value stands among those of compatible types: a number or a byte string. -/
def Env.place (env : Env) (coll : Collation) : Value → ℤ ×ₗ Bytes
  | .int i => toLex (i.toInt, [])
  | .uint u => toLex (u.toNat, [])
  | .bool b => toLex (b.toNat, [])
  | .date d => toLex (d.toInt, [])
  | .dateTime t => toLex (t.toInt, [])
  | .time t => toLex (t.toInt, [])
  | .decimal u _ => toLex (u.toInt, [])
  | .text s | .json s => toLex (0, env.collated coll s)
  | .bytes b => toLex (0, b)
  | _ => toLex (0, [])

theorem cmp_numbers (m n : Int) :
    cmp (toLex (m, ([] : Bytes))) (toLex (n, ([] : Bytes))) = compare m n := by
  have hlt : ∀ {m n : Int}, m < n → toLex (m, ([] : Bytes)) < toLex (n, ([] : Bytes)) :=
    fun h => Prod.Lex.toLex_lt_toLex.mpr (.inl h)
  rcases lt_trichotomy m n with h | rfl | h
  · rw [compare_lt_iff_lt.mpr h, (cmp_eq_lt_iff _ _).mpr (hlt h)]
  · rw [compare_eq_iff_eq.mpr rfl, (cmp_eq_eq_iff _ _).mpr rfl]
  · rw [compare_gt_iff_gt.mpr h, (cmp_eq_gt_iff _ _).mpr (hlt h)]

theorem cmp_bytes (x y : Bytes) :
    cmp (toLex ((0 : Int), x)) (toLex ((0 : Int), y)) = compare x y := by
  have hlt : ∀ {x y : Bytes}, x < y → toLex ((0 : Int), x) < toLex ((0 : Int), y) :=
    fun h => Prod.Lex.toLex_lt_toLex.mpr (.inr ⟨rfl, h⟩)
  have hswap : x.compareLex compare y = (y.compareLex compare x).swap := Std.OrientedCmp.eq_swap
  have hself : x.compareLex compare x = .eq := Std.ReflCmp.compare_self
  rw [List.compare_eq_compareLex]
  rcases lt_trichotomy x y with h | rfl | h
  · rw [compareLex_of_lt h, (cmp_eq_lt_iff _ _).mpr (hlt h)]
  · rw [hself, (cmp_eq_eq_iff _ _).mpr rfl]
  · rw [hswap, compareLex_of_lt h, (cmp_eq_gt_iff _ _).mpr (hlt h)]
    rfl

section
variable {env : Env} {coll : Collation} {s t : ColumnType} {x y : Value}
variable (hx : s.Holds x) (hy : t.Holds y) (hc : hashKeyTypesCompatible s t = true)
include hx hy hc

/-- Values of compatible types are compared by their places, a text and a JSON document with the
sides exchanged. -/
theorem compareColl_place :
    env.compareColl coll x y =
      some (if s = .text ∧ t = .json then cmp (env.place coll y) (env.place coll x)
        else cmp (env.place coll x) (env.place coll y)) := by
  cases hx <;> cases hy <;> simp only [hashKeyTypesCompatible, Bool.false_eq_true] at hc
  case decimal.decimal p scale u q scale' v =>
    cases eq_of_beq hc
    dsimp only [place]
    simp [compareColl, ↓cmp_numbers, cmpDecimal_same]
  case bool.bool b b' => cases b <;> cases b' <;> rfl
  case uint.uint u v =>
    dsimp only [place]
    simp only [compareColl, ↓cmp_numbers, reduceCtorEq, and_self, if_false]
    rcases lt_trichotomy u.toNat v.toNat with h | h | h
    · rw [compare_lt_iff_lt.mpr h, compare_lt_iff_lt.mpr (by exact_mod_cast h)]
    · rw [h, compare_eq_iff_eq.mpr rfl, compare_eq_iff_eq.mpr rfl]
    · rw [compare_gt_iff_gt.mpr h, compare_gt_iff_gt.mpr (by exact_mod_cast h)]
  all_goals
    dsimp only [place]
    simp [compareColl, ↓cmp_numbers, ↓cmp_bytes, cmpViews, toDays, toMicros, toMicrosOfDay]

theorem collationKey_eq_iff_place :
    env.collationKey coll x = env.collationKey coll y ↔ env.place coll x = env.place coll y := by
  cases hx <;> cases hy <;> simp only [hashKeyTypesCompatible, Bool.false_eq_true] at hc
  case decimal.decimal p scale u q scale' v =>
    cases eq_of_beq hc
    constructor
    · intro h
      have hstrip : stripZeros u.toInt scale = stripZeros v.toInt scale := by
        simpa [collationKey, Prod.ext_iff] using h
      rw [place, place, stripZeros_inj hstrip]
    · intro h
      have huv : u.toInt = v.toInt := by simpa [place] using h
      rw [collationKey, collationKey, huv]
  case uint.uint u v =>
    have huv : (u.toNat : Int) = v.toNat ↔ u = v := by
      rw [Int.natCast_inj, UInt64.toNat_inj]
    simp only [collationKey, place]
    split <;> split <;> simp <;> grind
  case int.uint i u =>
    have hi : i.toInt < 2 ^ 63 := Int64.toInt_lt i
    simp only [collationKey, place]
    split <;> simp
    omega
  case uint.int u i =>
    have hi : i.toInt < 2 ^ 63 := Int64.toInt_lt i
    simp only [collationKey, place]
    split <;> simp
    omega
  case bool.bool b b' => cases b <;> cases b' <;> simp [collationKey, place]
  all_goals simp [collationKey, place, Int32.toInt_inj, Int64.toInt_inj]

theorem collationKey_eq_iff :
    env.collationKey coll x = env.collationKey coll y ↔ env.compareColl coll x y = some .eq := by
  rw [collationKey_eq_iff_place hx hy hc, compareColl_place hx hy hc, Option.some_inj]
  by_cases hsides : s = .text ∧ t = .json
  · rw [if_pos hsides, cmp_eq_eq_iff, eq_comm]
  · rw [if_neg hsides, cmp_eq_eq_iff]

end

end ElyraSql.Engine
