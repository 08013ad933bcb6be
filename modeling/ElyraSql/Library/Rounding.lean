import Mathlib.Algebra.Order.Ring.Int
import Mathlib.Algebra.Order.Ring.Nat
import Mathlib.Data.Nat.Log
import Mathlib.Tactic.Linarith
import Mathlib.Tactic.Positivity

/-!
# Rounding to a number of significant bits

An integer rounded to `p` significant bits, to the nearest and on a tie to the even one, as a
binary floating-point format with an unbounded exponent does.
-/

namespace Rounding

open Nat

/-! ## One position -/

/-- `n / 2 ^ s` rounded to the nearest, a tie to the even one. -/
def halfEven (n s : Nat) : Nat :=
  let q := n / 2 ^ s
  let r := n % 2 ^ s
  if 2 * r < 2 ^ s then q
  else if 2 ^ s < 2 * r then q + 1
  else q + q % 2

theorem div_le_halfEven (n s : Nat) : n / 2 ^ s ≤ halfEven n s := by
  simp only [halfEven]
  split
  · exact le_rfl
  · split <;> omega

theorem halfEven_le (n s : Nat) : halfEven n s ≤ n / 2 ^ s + 1 := by
  simp only [halfEven]
  split
  · omega
  · split <;> omega

theorem halfEven_mono {a b : Nat} (s : Nat) (h : a ≤ b) : halfEven a s ≤ halfEven b s := by
  obtain hq | hq := (Nat.div_le_div_right (c := 2 ^ s) h).lt_or_eq
  · -- the quotients already differ, and rounding adds at most one
    calc halfEven a s ≤ a / 2 ^ s + 1 := halfEven_le a s
      _ ≤ b / 2 ^ s := hq
      _ ≤ halfEven b s := div_le_halfEven b s
  · have hr : a % 2 ^ s ≤ b % 2 ^ s := by
      have ha := div_add_mod a (2 ^ s)
      have hb := div_add_mod b (2 ^ s)
      rw [hq] at ha
      omega
    simp only [halfEven]
    split_ifs <;> omega

/-! ## Natural numbers -/

/-- The number of bits of `n` beyond the first `p`. -/
def excess (p n : Nat) : Nat := n.log2 + 1 - p

/-- `n` rounded to `p` significant bits. -/
def roundNat (p n : Nat) : Nat := halfEven n (excess p n) * 2 ^ excess p n

theorem excess_eq_zero {p n : Nat} (hp : 0 < p) (h : n < 2 ^ p) : excess p n = 0 := by
  obtain rfl | hn := eq_or_ne n 0
  · simp only [excess, log2_zero]
    omega
  · have := (log2_lt hn).mpr h
    rw [excess]
    omega

theorem roundNat_of_lt {p n : Nat} (h : n < 2 ^ p) : roundNat p n = n := by
  obtain rfl | hp := Nat.eq_zero_or_pos p
  · obtain rfl : n = 0 := by omega
    simp [roundNat, halfEven]
  · rw [roundNat, excess_eq_zero hp h]
    simp [halfEven, mod_one]

theorem roundNat_le_two_pow (p n : Nat) : roundNat p n ≤ 2 ^ (n.log2 + 1) := by
  have hlt : n < 2 ^ (n.log2 + 1) := lt_log2_self
  obtain hp | hp := lt_or_ge n (2 ^ p)
  · rw [roundNat_of_lt hp]
    exact hlt.le
  · have hlog : p ≤ n.log2 := (le_log2 (by have := Nat.two_pow_pos p; omega)).mpr hp
    have hsum : p + excess p n = n.log2 + 1 := by rw [excess]; omega
    have hdiv : n / 2 ^ excess p n < 2 ^ p := by
      rw [div_lt_iff_lt_mul (Nat.two_pow_pos _), ← pow_add, hsum]
      exact hlt
    calc roundNat p n ≤ 2 ^ p * 2 ^ excess p n :=
          mul_le_mul_right _ ((halfEven_le n _).trans hdiv)
      _ = 2 ^ (n.log2 + 1) := by rw [← pow_add, hsum]

theorem two_pow_le_roundNat {p n : Nat} (hp : 0 < p) (hn : n ≠ 0) : 2 ^ n.log2 ≤ roundNat p n := by
  have hle : 2 ^ n.log2 ≤ n := log2_self_le hn
  obtain hlt | hge := lt_or_ge n (2 ^ p)
  · rwa [roundNat_of_lt hlt]
  · have hlog : p ≤ n.log2 := (le_log2 hn).mpr hge
    have hsum : n.log2 = (p - 1) + excess p n := by rw [excess]; omega
    have hdiv : 2 ^ (p - 1) ≤ n / 2 ^ excess p n := by
      rw [le_div_iff_mul_le (Nat.two_pow_pos _), ← pow_add, ← hsum]
      exact hle
    calc 2 ^ n.log2 = 2 ^ (p - 1) * 2 ^ excess p n := by rw [← pow_add, ← hsum]
      _ ≤ roundNat p n := mul_le_mul_right _ (hdiv.trans (div_le_halfEven n _))

theorem two_pow_excess_dvd_roundNat {p : Nat} (hp : 0 < p) (n : Nat) :
    2 ^ excess p (roundNat p n) ∣ roundNat p n := by
  obtain hlt | hge := lt_or_ge n (2 ^ p)
  · rw [roundNat_of_lt hlt, excess_eq_zero hp hlt]
    exact one_dvd n
  · have hn : n ≠ 0 := by have := Nat.two_pow_pos p; omega
    have hlog : p ≤ n.log2 := (le_log2 hn).mpr hge
    obtain hfull | hless := (roundNat_le_two_pow p n).eq_or_lt
    · -- carried into the next power of two
      rw [hfull]
      refine pow_dvd_pow 2 ?_
      rw [excess, log2_two_pow]
      omega
    · refine (pow_dvd_pow 2 ?_).trans (Dvd.intro_left _ rfl)
      have hr : roundNat p n ≠ 0 := by
        have := two_pow_le_roundNat hp hn
        omega
      have := (log2_lt hr).mpr hless
      rw [excess, excess]
      omega

theorem roundNat_mono {p a b : Nat} (hp : 0 < p) (h : a ≤ b) : roundNat p a ≤ roundNat p b := by
  obtain rfl | ha := eq_or_ne a 0
  · rw [roundNat_of_lt (Nat.two_pow_pos p)]
    exact zero_le _
  have hb : b ≠ 0 := by omega
  have hlog : a.log2 ≤ b.log2 := (le_log2 hb).mpr ((log2_self_le ha).trans h)
  obtain hlt | heq := hlog.lt_or_eq
  · calc roundNat p a ≤ 2 ^ (a.log2 + 1) := roundNat_le_two_pow p a
      _ ≤ 2 ^ b.log2 := Nat.pow_le_pow_right two_pos hlt
      _ ≤ roundNat p b := two_pow_le_roundNat hp hb
  · have hx : excess p a = excess p b := by rw [excess, excess, heq]
    rw [roundNat, hx]
    exact mul_le_mul_right _ (halfEven_mono _ h)

/-! ## Integers -/

/-- `n` rounded to `p` significant bits, the same way on both sides of zero. -/
def roundInt (p : Nat) : Int → Int
  | .ofNat n => roundNat p n
  | .negSucc n => -(roundNat p (n + 1) : Int)

theorem roundInt_neg (p : Nat) (n : Int) : roundInt p (-n) = -roundInt p n := by
  match n with
  | .ofNat 0 => simp [roundInt, roundNat_of_lt (Nat.two_pow_pos p)]
  | .ofNat (n + 1) => rfl
  | .negSucc n => simp only [Int.neg_negSucc, roundInt, neg_neg]

theorem roundInt_mono {p : Nat} {a b : Int} (hp : 0 < p) (h : a ≤ b) :
    roundInt p a ≤ roundInt p b := by
  cases a with
  | ofNat a =>
    cases b with
    | ofNat b => exact Int.ofNat_le.mpr (roundNat_mono hp (Int.ofNat_le.mp h))
    | negSucc b =>
      exact absurd (lt_of_le_of_lt h (Int.negSucc_lt_zero b)) (Int.natCast_nonneg a).not_gt
  | negSucc a =>
    cases b with
    | ofNat b =>
      simp only [roundInt]
      omega
    | negSucc b =>
      have hba : b + 1 ≤ a + 1 := by omega
      exact neg_le_neg (Int.ofNat_le.mpr (roundNat_mono hp hba))

end Rounding
