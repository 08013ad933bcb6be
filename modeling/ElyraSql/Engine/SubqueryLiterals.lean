import ElyraSql.Engine.Predicate

/-!
# Subquery results as literals

`value_to_expr` of `exec.rs` writes the value of a subquery into the statement as a literal, and
`literal` of `eval.rs` reads it again. There are no literals of decimals, dates, times and bytes:
they are written as text.
-/

namespace ElyraSql.Engine

open Env Int64

/-- The literals `value_to_expr` writes. -/
inductive SqlValue
  | null
  | boolean (b : Bool)
  | number (s : Text)
  | singleQuotedString (s : Text)

/-- What follows the first point of a number. -/
def fraction : Text → Option Text
  | [] => none
  | c :: t => if c = '.' then some t else fraction t

namespace Env

variable (env : Env)

def valueToExpr (v : Value) : SqlValue :=
  match v with
  | .null => .null
  | .bool b => .boolean b
  | .int _ | .uint _ | .float _ => .number ((env.toWireString v).getD [])
  | _ => .singleQuotedString ((env.toWireString v).getD [])

/-- `number_literal`. -/
def numberText (s : Text) : Except Error Value :=
  match if s.contains 'e' || s.contains 'E' then none else fraction s with
  | some f =>
    if 255 < f.length then .error (.row "DECIMAL literal scale exceeds 255".toList)
    else if 38 < f.length then
      .error (.row "DECIMAL literal scale exceeds the supported maximum of 38".toList)
    else match env.parseDecimal s f.length with
      | some (u, scale) => .ok (.decimal u scale)
      | none => .error (.row ("DECIMAL literal is out of range: ".toList ++ s))
  | none =>
    match env.parseI64 s, env.parseU64 s, env.parseF64 s with
    | some i, _, _ => .ok (.int i)
    | none, some u, _ => .ok (.uint u)
    | none, none, some f => .ok (.float f)
    | none, none, none => .error (.row ("invalid number literal: ".toList ++ s))

/-- `literal`, of the literals that are written. -/
def readLiteral : SqlValue → Except Error Value
  | .null => .ok .null
  | .boolean b => .ok (.bool b)
  | .number s => env.numberText s
  | .singleQuotedString s => .ok (.text s)

/-- The value that takes the place of a value. -/
def substituted (v : Value) : Except Error Value := env.readLiteral (env.valueToExpr v)

/-- The standard library reads back the integers it prints, and a text begins with a number that is
no NaN. -/
structure ReadsBack : Prop where
  int : ∀ i s, env.toWireString (.int i) = some s → env.parseI64 s = some i
  uint : ∀ u, env.parseU64 (digits (UInt64.toNat u)) = some u
  signed : ∀ u, env.parseI64 (digits (UInt64.toNat u)) =
    if u.toNat < 2 ^ 63 then some (ofNat u.toNat) else none
  number : ∀ s, env.f64Cmp (env.numericPrefix s) (env.f64OfInt 0) ≠ none

end Env

/-- The types of the values that are compared exactly, and NULL. -/
def Value.Exact : Value → Prop
  | .float _ | .vector _ | .json _ => False
  | _ => True

/-- The operators that compare. -/
def Compares (op : BinaryOp) : Prop := op ≠ .and ∧ op ≠ .or

/-- The literal of `v` compares with every stored value as `v` does, on either side. -/
def KeepsComparisons (env : Env) (v : Value) : Prop :=
  ∀ op coll (w : Value), Compares op → w.Exact →
    (env.substituted v >>= fun l => env.binaryOp op l (.ok w) coll) =
        env.binaryOp op v (.ok w) coll ∧
      env.binaryOp op w (env.substituted v) coll = env.binaryOp op w (.ok v) coll

/-- The values that have a literal of their own: an unsigned integer is read as a signed one if it
is one. -/
def Value.HasLiteral : Value → Prop
  | .null | .bool _ | .int _ | .text _ => True
  | .uint u => 2 ^ 63 ≤ u.toNat
  | _ => False

/-- Numbers that are integers, booleans, texts and NULL. -/
def Value.Plain : Value → Prop
  | .null | .bool _ | .int _ | .uint _ | .text _ => True
  | _ => False

/-! ## Numbers -/

theorem fraction_of_noPoint {s : Text} (h : '.' ∉ s) : fraction s = none := by
  induction s with
  | nil => rfl
  | cons c s ih =>
    rw [List.mem_cons, not_or] at h
    rw [fraction, if_neg (Ne.symm h.1), ih h.2]

theorem noPoint_digits (n : Nat) : '.' ∉ digits n := fun h =>
  absurd (Nat.isDigit_of_mem_toDigits (by decide) (by decide) h) (by decide)

section
variable {env : Env} (h : env.ReadsBack)
include h

theorem numberText_int {i : Int64} {s : Text} (hs : env.toWireString (.int i) = some s) :
    env.numberText s = .ok (.int i) := by
  have hpoint : fraction s = none := by
    refine fraction_of_noPoint ?_
    obtain rfl := Option.some.inj hs
    split
    · exact List.not_mem_cons_of_ne_of_not_mem (by decide) (noPoint_digits _)
    · exact noPoint_digits _
  rw [numberText, hpoint, ite_self, h.int i s hs]

theorem numberText_uint (u : UInt64) : env.numberText (digits u.toNat) =
    .ok (if u.toNat < 2 ^ 63 then .int (ofNat u.toNat) else .uint u) := by
  rw [numberText, fraction_of_noPoint (noPoint_digits _), ite_self, h.signed, h.uint]
  by_cases hu : u.toNat < 2 ^ 63
  · rw [if_pos hu, if_pos hu]
  · rw [if_neg hu, if_neg hu]

theorem substituted_int (i : Int64) : env.substituted (.int i) = .ok (.int i) :=
  numberText_int h rfl

theorem substituted_of_hasLiteral {v : Value} (hv : v.HasLiteral) : env.substituted v = .ok v := by
  cases v with
  | null | bool | text => rfl
  | int i => exact substituted_int h i
  | uint u => exact (numberText_uint h u).trans (by rw [if_neg (Nat.not_lt.mpr hv)])
  | _ => cases hv

theorem substituted_uint {u : UInt64} (hu : u.toNat < 2 ^ 63) :
    env.substituted (.uint u) = .ok (.int (ofNat u.toNat)) :=
  (numberText_uint h u).trans (by rw [if_pos hu])

end

/-! ## Comparisons -/

theorem eq_of_orderTest {x y : Option Ordering}
    (h : ∀ op, Compares op → orderTest op x = orderTest op y) : x = y := by
  have heq := h .eq ⟨nofun, nofun⟩
  have hlt := h .lt ⟨nofun, nofun⟩
  have hgt := h .gt ⟨nofun, nofun⟩
  revert heq hlt hgt
  rcases x with _ | _ | _ | _ <;> rcases y with _ | _ | _ | _ <;> decide

theorem binaryOp_compares (env : Env) {op : BinaryOp} (hop : Compares op) (v w : Value)
    (coll : Collation) : env.binaryOp op v (.ok w) coll =
      if v.isNull || w.isNull then .ok .null
      else .ok (.bool (orderTest op (env.compareColl coll v w))) := by
  cases op with
  | and => exact absurd rfl hop.1
  | or => exact absurd rfl hop.2
  | eq | notEq | lt | ltEq | gt | gtEq => rfl

theorem KeepsComparisons.compareColl {env : Env} {v l w : Value} (h : KeepsComparisons env v)
    (hl : env.substituted v = .ok l) (hv : v.isNull = false) (hln : l.isNull = false)
    (hw : w.isNull = false) (hexact : w.Exact) :
    env.compareColl .ci l w = env.compareColl .ci v w := by
  refine eq_of_orderTest fun op hop => ?_
  have hkeep := (h op .ci w hop hexact).1
  rw [hl, binaryOp_compares env hop] at hkeep
  change env.binaryOp op l (.ok w) .ci = _ at hkeep
  rw [binaryOp_compares env hop, hv, hln, hw] at hkeep
  injection hkeep with hkeep
  injection hkeep

/-- Among integers, booleans and texts a small unsigned integer compares as the signed one. -/
theorem compareColl_signed (env : Env) {u : UInt64} (hu : u.toNat < 2 ^ 63) {w : Value}
    (hw : w.Plain) (coll : Collation) :
    env.compareColl coll (.int (ofNat u.toNat)) w = env.compareColl coll (.uint u) w ∧
      env.compareColl coll w (.int (ofNat u.toNat)) = env.compareColl coll w (.uint u) := by
  have hcast : ∀ m n : Nat, compare (m : Int) n = compare m n := fun m n => by
    simp [compare, compareOfLessAndEq]
  cases w <;> simp only [Value.Plain] at hw <;>
    simp [compareColl, cmpNumeric, asMysqlF64, toInt_ofNat_of_lt hu, hcast]

section
variable {env : Env} (h : env.ReadsBack) {v w : Value}
include h

theorem substituted_of_plain (hv : v.Plain) : ∃ l, env.substituted v = .ok l ∧ l.Plain ∧
    l.isNull = v.isNull ∧ ∀ w : Value, w.Plain → ∀ coll,
      env.compareColl coll l w = env.compareColl coll v w ∧
        env.compareColl coll w l = env.compareColl coll w v := by
  by_cases hl : v.HasLiteral
  · exact ⟨v, substituted_of_hasLiteral h hl, hv, rfl, fun _ _ _ => ⟨rfl, rfl⟩⟩
  · cases v <;> simp only [Value.Plain, Value.HasLiteral, not_true_eq_false] at hv hl
    have hu := Nat.not_le.mp hl
    exact ⟨_, substituted_uint h hu, trivial, rfl, fun w hw => compareColl_signed env hu hw⟩

theorem plain_keeps (hv : v.Plain) (hw : w.Plain) {op : BinaryOp} (hop : Compares op)
    (coll : Collation) :
    (env.substituted v >>= fun l => env.binaryOp op l (env.substituted w) coll) =
      env.binaryOp op v (.ok w) coll := by
  obtain ⟨l, hl, hplain, hnull, hcmp⟩ := substituted_of_plain h hv
  obtain ⟨r, hr, -, hnull', hcmp'⟩ := substituted_of_plain h hw
  rw [hl, hr]
  change env.binaryOp op l (.ok r) coll = _
  rw [binaryOp_compares env hop, binaryOp_compares env hop, hnull, hnull', (hcmp' l hplain coll).2,
    (hcmp w hw coll).1]

/-- A value without a literal of its own compares with some stored value in another way. -/
theorem hasLiteral_of_keeps (hv : v.Exact) (hkeep : KeepsComparisons env v) : v.HasLiteral := by
  -- decimals, dates and times are not comparable with bytes, and text is
  have htext : ∀ s, env.substituted v = .ok (.text s) → v.isNull = false →
      env.compareColl .ci v (.bytes []) ≠ none := fun s hs hnull hnone =>
    nomatch (hkeep.compareColl hs hnull rfl rfl (w := .bytes []) trivial).trans hnone
  cases v with
  | null | bool | int | text => trivial
  | float | vector | json => exact hv.elim
  | uint u =>
    by_contra! hlt
    -- days are counted by signed integers only
    have hdate := hkeep.compareColl (substituted_uint h (Nat.not_le.mp hlt)) rfl rfl rfl
      (w := .date 0) trivial
    exact nomatch hdate
  | bytes b =>
    have hint := hkeep.compareColl rfl rfl rfl rfl (w := .int 0) trivial
    exact absurd hint (h.number _)
  | decimal | date | dateTime | time => exact absurd rfl (htext _ rfl rfl)

end

/-- The literal of a value compares with all stored values as the value does exactly when the value
has a literal of its own, and the literals of two integers, booleans or texts compare as the two. -/
theorem literals_keep_iff (env : Env) (h : env.ReadsBack) :
    (∀ v : Value, v.Exact → (KeepsComparisons env v ↔ v.HasLiteral)) ∧
    ∀ v w : Value, v.Plain → w.Plain → ∀ op coll, Compares op →
      (env.substituted v >>= fun l => env.binaryOp op l (env.substituted w) coll) =
        env.binaryOp op v (.ok w) coll := by
  refine ⟨fun v hv => ⟨hasLiteral_of_keeps h hv, fun hl op coll w _ _ => ?_⟩,
    fun v w hv hw op coll hop => plain_keeps h hv hw hop coll⟩
  rw [substituted_of_hasLiteral h hl]
  exact ⟨rfl, rfl⟩

/-- Integers are read digit by digit, and decimals are printed without their point. -/
def Env.reading : Env where
  __ := plain
  parseI64
    | '-' :: ds => some (ofInt (-Nat.ofDigitChars 10 ds 0))
    | s =>
      let n := Nat.ofDigitChars 10 s 0
      if n < 2 ^ 63 then some (ofNat n) else none
  parseU64 s := some (UInt64.ofNat (Nat.ofDigitChars 10 s 0))
  wireOther
    | .decimal u _ => digits u.toNat
    | _ => []

theorem parseI64_digits (n : Nat) : reading.parseI64 (digits n) =
    if n < 2 ^ 63 then some (ofNat n) else none := by
  dsimp only [reading]
  split
  · next heq =>
    have hmem : '-' ∈ digits n := heq ▸ List.mem_cons_self
    exact absurd (Nat.isDigit_of_mem_toDigits (by decide) (by decide) hmem) (by decide)
  · rw [digits, Nat.ofDigitChars_ten_toDigits]

theorem readsBack_reading : reading.ReadsBack where
  int i s hs := by
    obtain rfl := Option.some.inj hs
    have hhi := i.toInt_lt
    split
    · change some (ofInt (-Nat.ofDigitChars 10 (Nat.toDigits 10 i.toInt.natAbs) 0)) = _
      rw [Nat.ofDigitChars_ten_toDigits, show -(i.toInt.natAbs : Int) = i.toInt by omega,
        ofInt_toInt]
    · rw [parseI64_digits, if_pos (by omega), ← ofInt_eq_ofNat,
        show (i.toInt.natAbs : Int) = i.toInt by omega, ofInt_toInt]
  uint u := by
    change some (UInt64.ofNat (Nat.ofDigitChars 10 (Nat.toDigits 10 u.toNat) 0)) = _
    rw [Nat.ofDigitChars_ten_toDigits, UInt64.ofNat_toNat]
  signed u := parseI64_digits u.toNat
  number _ := nofun

theorem literals_keep_iff_five :
    KeepsComparisons .reading (.int 5) ∧ ¬ KeepsComparisons .reading (.uint 5) := by
  obtain ⟨hiff, -⟩ := literals_keep_iff .reading readsBack_reading
  exact ⟨(hiff (.int 5) trivial).mpr trivial,
    fun h => absurd ((hiff (.uint 5) trivial).mp h) (show ¬ 2 ^ 63 ≤ (5 : UInt64).toNat by decide)⟩

/-- The decimals 10 and 9, as subqueries return them: `'10' < '9'`. -/
theorem decimals_compared_as_text :
    (reading.substituted (.decimal 10 0) >>= fun l =>
      reading.binaryOp .lt l (reading.substituted (.decimal 9 0)) .ci) =
        .ok (.bool true) ∧
    reading.binaryOp .lt (.decimal 10 0) (.ok (.decimal 9 0)) .ci = .ok (.bool false) := by
  decide +kernel

end ElyraSql.Engine
