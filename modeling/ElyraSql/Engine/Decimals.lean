import ElyraSql.Engine.KeyBytes
import Mathlib.Algebra.Order.Field.Rat

/-!
# The order of decimals

`cmp_decimal` brings two decimals to the larger scale and saturates where that leaves 128 bits, so a
number out of range takes the place of the largest or the smallest one.
-/

namespace ElyraSql.Engine

open Env Nat

/-- The number of a decimal. -/
def decimalValue (units : I128) (scale : Nat) : ℚ := units.toInt / 10 ^ scale

/-- The number `u` with `k` more digits is out of range, and `v` is what stands in for it, or
beyond: the factor saturates too, so -1 with 39 digits or more becomes the second smallest number.
-/
def Hidden (u : I128) (k : Nat) (v : I128) : Prop :=
  2 ^ 127 ≤ u.toInt * 10 ^ k ∧ v.toInt = 2 ^ 127 - 1 ∨
    u.toInt * 10 ^ k < -2 ^ 127 ∧
      (v.toInt = -2 ^ 127 ∨ u.toInt = -1 ∧ 39 ≤ k ∧ v.toInt = 1 - 2 ^ 127)

theorem cmp_decimalValue (a b : I128) (s t : Nat) :
    cmp (decimalValue a s) (decimalValue b t) = compare (a.toInt * 10 ^ t) (b.toInt * 10 ^ s) := by
  have hs : (0 : ℚ) < 10 ^ s := by positivity
  have ht : (0 : ℚ) < 10 ^ t := by positivity
  have hlt : ∀ {u v : Int} {x y : ℚ}, 0 < x → 0 < y → ((u : ℚ) / x < v / y ↔ u * y < v * x) :=
    fun hx hy => div_lt_div_iff₀ hx hy
  unfold decimalValue
  rcases lt_trichotomy (a.toInt * 10 ^ t) (b.toInt * 10 ^ s) with h | h | h
  · rw [compare_lt_iff_lt.mpr h, cmp_eq_lt_iff, hlt hs ht]
    exact_mod_cast h
  · rw [compare_eq_iff_eq.mpr h, cmp_eq_eq_iff, div_eq_div_iff hs.ne' ht.ne']
    exact_mod_cast h
  · rw [compare_gt_iff_gt.mpr h, cmp_eq_gt_iff, hlt ht hs]
    exact_mod_cast h

/-! ## One number brought to a larger scale -/

section
variable {u v : I128} {k : Nat}

theorem saturatingScale_above (h : 2 ^ 127 ≤ u.toInt * 10 ^ k) :
    saturatingScale u k = 2 ^ 127 - 1 := by
  have hu : 1 ≤ u.toInt := by
    have hpow : (0 : Int) < 10 ^ k := by positivity
    by_contra hneg
    have := mul_nonpos_of_nonpos_of_nonneg (show u.toInt ≤ 0 by omega) hpow.le
    omega
  unfold saturatingScale
  rcases le_total ((10 : Int) ^ k) (2 ^ 127 - 1) with hk | hk
  · rw [min_eq_left hk]
    omega
  · rw [min_eq_right hk]
    omega

/-- Below the range the factor matters: if it saturates, -1 does not reach the smallest number. -/
theorem saturatingScale_below (h : u.toInt * 10 ^ k < -2 ^ 127) :
    saturatingScale u k = if u.toInt = -1 ∧ 39 ≤ k then 1 - 2 ^ 127 else -2 ^ 127 := by
  have hu : u.toInt ≤ -1 := by
    have hpow : (0 : Int) < 10 ^ k := by positivity
    by_contra hneg
    have := mul_nonneg (show 0 ≤ u.toInt by omega) hpow.le
    omega
  unfold saturatingScale
  rcases lt_or_ge k 39 with hk | hk
  · have hmax : (10 : Int) ^ k ≤ 2 ^ 127 - 1 :=
      (pow_le_pow_right₀ (by norm_num) (le_of_lt_succ hk)).trans (by norm_num)
    rw [min_eq_left hmax]
    omega
  · have hmax : (2 : Int) ^ 127 - 1 ≤ 10 ^ k :=
      (show (2 : Int) ^ 127 - 1 ≤ 10 ^ 39 by norm_num).trans (pow_le_pow_right₀ (by norm_num) hk)
    rw [min_eq_right hmax]
    split_ifs <;> omega

/-- A scaled number is compared with `v` as it is unless `v` stands where it was moved to. -/
theorem compare_saturatingScale_iff :
    compare (saturatingScale u k) v.toInt = compare (u.toInt * 10 ^ k) v.toInt ↔ ¬Hidden u k v := by
  have hle : -2 ^ 127 ≤ v.toInt := BitVec.le_toInt v
  have hlt : v.toInt < 2 ^ 127 := BitVec.toInt_lt
  unfold Hidden
  rcases le_or_gt (2 ^ 127) (u.toInt * 10 ^ k) with hx | hx
  · rw [saturatingScale_above hx, compare_gt_iff_gt.mpr (by omega : u.toInt * 10 ^ k > v.toInt),
      compare_gt_iff_gt]
    omega
  rcases lt_or_ge (u.toInt * 10 ^ k) (-2 ^ 127) with hx' | hx'
  · rw [saturatingScale_below hx', compare_lt_iff_lt.mpr (by omega : u.toInt * 10 ^ k < v.toInt),
      compare_lt_iff_lt]
    split_ifs <;> omega
  · -- In range, the number is that of some 128 bits.
    have hfit : (BitVec.ofInt 128 (u.toInt * 10 ^ k)).toInt = u.toInt * 10 ^ k := by
      rw [BitVec.toInt_ofInt]
      exact Int.bmod_eq_of_le (by omega) (by omega)
    have hexact : saturatingScale u k = u.toInt * 10 ^ k := by
      rw [← hfit]
      exact saturatingScale_exact (s := 0) (by rw [hfit, zero_add, pow_zero, mul_one])
    rw [hexact]
    exact iff_of_true rfl (by omega)

theorem not_hidden_zero : ¬Hidden u 0 v := by
  have hle : -2 ^ 127 ≤ u.toInt := BitVec.le_toInt u
  have hlt : u.toInt < 2 ^ 127 := BitVec.toInt_lt
  unfold Hidden
  omega

end

/-! ## Two decimals -/

theorem compare_mul_pow (m n : Int) (k : Nat) :
    compare (m * 10 ^ k) (n * 10 ^ k) = compare m n := by
  have hpow : (0 : Int) < 10 ^ k := by positivity
  rcases lt_trichotomy m n with h | rfl | h
  · rw [compare_lt_iff_lt.mpr h, compare_lt_iff_lt]
    exact mul_lt_mul_of_pos_right h hpow
  · rw [compare_eq_iff_eq.mpr rfl, compare_eq_iff_eq.mpr rfl]
  · rw [compare_gt_iff_gt.mpr h, compare_gt_iff_gt]
    exact mul_lt_mul_of_pos_right h hpow

theorem cmpDecimal_swap (a b : I128) (s t : Nat) :
    cmpDecimal a s b t = (cmpDecimal b t a s).swap := by
  show compare (saturatingScale a _) (saturatingScale b _) = (compare _ _).swap
  rw [max_comm t s]
  exact Std.OrientedCmp.eq_swap

theorem cmpDecimal_order_iff (a b : I128) (s k : Nat) :
    cmpDecimal a s b (s + k) = compare (a.toInt * 10 ^ (s + k)) (b.toInt * 10 ^ s) ↔
      ¬Hidden a k b := by
  have hcmp : cmpDecimal a s b (s + k) = compare (saturatingScale a k) b.toInt := by
    show compare (saturatingScale a (max s (s + k) - s)) (saturatingScale b _) = _
    rw [max_eq_right (Nat.le_add_right s k), Nat.sub_self, Nat.add_sub_cancel_left,
      saturatingScale_zero]
  rw [hcmp, add_comm, pow_add, ← mul_assoc, compare_mul_pow]
  exact compare_saturatingScale_iff

theorem cmpDecimal_exact (a b : I128) (s t : Nat) :
    cmpDecimal a s b t = compare (a.toInt * 10 ^ t) (b.toInt * 10 ^ s) ↔
      ¬Hidden a (t - s) b ∧ ¬Hidden b (s - t) a := by
  rcases le_total s t with h | h
  · obtain ⟨k, rfl⟩ := Nat.exists_eq_add_of_le h
    rw [cmpDecimal_order_iff, Nat.add_sub_cancel_left, Nat.sub_eq_zero_of_le h]
    exact (and_iff_left not_hidden_zero).symm
  · obtain ⟨k, rfl⟩ := Nat.exists_eq_add_of_le h
    have hswap : compare (a.toInt * 10 ^ t) (b.toInt * 10 ^ (t + k)) =
        (compare (b.toInt * 10 ^ (t + k)) (a.toInt * 10 ^ t)).swap := Std.OrientedCmp.eq_swap
    rw [cmpDecimal_swap, hswap, Ordering.swap_inj, cmpDecimal_order_iff, Nat.add_sub_cancel_left,
      Nat.sub_eq_zero_of_le h]
    exact (and_iff_right not_hidden_zero).symm

/-- `cmp_decimal` orders two decimals as their numbers and calls them equal exactly when their keys
are the same bytes, if and only if neither hides the other where it leaves the range. -/
theorem cmpDecimal_exact_iff (env : Env) (debug : Value → Bytes) (coll : Collation) (a b : I128)
    {s t : Nat} (hs : s < 256) (ht : t < 256) :
    cmpDecimal a s b t = cmp (decimalValue a s) (decimalValue b t) ∧
        (cmpDecimal a s b t = .eq ↔ (env.collationKey coll (.decimal a s)).bytes debug =
          (env.collationKey coll (.decimal b t)).bytes debug) ↔
      ¬Hidden a (t - s) b ∧ ¬Hidden b (s - t) a := by
  have hkey : (env.collationKey coll (.decimal a s)).bytes debug =
      (env.collationKey coll (.decimal b t)).bytes debug ↔ a.toInt * 10 ^ t = b.toInt * 10 ^ s := by
    have hfit : (Value.decimal a s).ScaleFits := hs
    have hfit' : (Value.decimal b t).ScaleFits := ht
    rw [bytes_eq_iff (fits_collationKey hfit) (fits_collationKey hfit') (fun _ _ h => nomatch h),
      ← stripZeros_eq_iff]
    simp [collationKey, Prod.ext_iff]
  rw [cmp_decimalValue, hkey, ← cmpDecimal_exact, and_iff_left_iff_imp]
  intro h
  rw [h, compare_eq_iff_eq]

/-- 1 against 1.5 and against 0.5. -/
theorem cmpDecimal_exact_iff_halves :
    cmpDecimal 1 0 15 1 = cmp (decimalValue 1 0) (decimalValue 15 1) ∧
      cmpDecimal 1 0 5 1 = cmp (decimalValue 1 0) (decimalValue 5 1) := by
  have h : ∀ v : I128, v.toInt < 100 → 0 < v.toInt → ¬Hidden 1 1 v ∧ ¬Hidden v 0 1 := fun v _ _ =>
    ⟨by unfold Hidden; omega, not_hidden_zero⟩
  exact ⟨((cmpDecimal_exact_iff .plain printed .ci 1 15 (by decide) (by decide)).mpr
      (h 15 (by decide) (by decide))).1,
    ((cmpDecimal_exact_iff .plain printed .ci 1 5 (by decide) (by decide)).mpr
      (h 5 (by decide) (by decide))).1⟩

/-- `2 ^ 127 - 1` with scale 1 is a tenth of the same units with scale 0, and called equal to it. -/
theorem cmpDecimal_saturates :
    cmpDecimal (BitVec.intMax 128) 0 (BitVec.intMax 128) 1 = .eq ∧
      cmp (decimalValue (BitVec.intMax 128) 0) (decimalValue (BitVec.intMax 128) 1) = .gt := by
  rw [cmp_decimalValue]
  decide +kernel

end ElyraSql.Engine
