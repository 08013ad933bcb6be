import ElyraSql.Library.LexOrder

/-!
# Encodings that keep the order

`Below x y` says that `x` comes before `y` whatever is appended to either. An encoding that takes
`<` to `Below` keeps the order of the values and can be followed by further components.
-/

namespace KeyOrder

open List Nat

/-! ## Keys that stay in order -/

section Below

variable {α : Type} [LinearOrder α]

/-- `x` comes before `y` whatever follows them. -/
def Below (x y : List α) : Prop := ∀ s t, x ++ s < y ++ t

theorem Below.lt {x y : List α} (h : Below x y) : x < y := by
  simpa using h [] []

theorem Below.not_isPrefix {x y : List α} (h : Below x y) : ¬ (x <+: y ∨ y <+: x) := by
  rintro (⟨r, rfl⟩ | ⟨r, rfl⟩)
  · have hlt := h r []
    rw [append_nil] at hlt
    exact lt_irrefl _ hlt
  · have hlt := h [] r
    rw [append_nil] at hlt
    exact lt_irrefl _ hlt

theorem Below.append_right {x y : List α} (h : Below x y) (u w : List α) :
    Below (x ++ u) (y ++ w) := by
  intro s t
  rw [append_assoc, append_assoc]
  exact h (u ++ s) (w ++ t)

theorem append_lt_append_iff {p x y : List α} : p ++ x < p ++ y ↔ x < y := by
  induction p with
  | nil => rfl
  | cons a p ih =>
    rw [cons_append, cons_append, cons_lt_cons_iff, ih]
    constructor
    · rintro (h | ⟨-, h⟩)
      · exact absurd h (lt_irrefl a)
      · exact h
    · exact fun h => Or.inr ⟨rfl, h⟩

theorem append_le_append_iff {p x y : List α} : p ++ x ≤ p ++ y ↔ x ≤ y := by
  rw [← not_lt, ← not_lt, append_lt_append_iff]

theorem Below.append_left {x y : List α} (h : Below x y) (p : List α) :
    Below (p ++ x) (p ++ y) := by
  intro s t
  rw [append_assoc, append_assoc, append_lt_append_iff]
  exact h s t

theorem below_cons {a b : α} (h : a < b) (x y : List α) : Below (a :: x) (b :: y) := by
  intro s t
  exact cons_lt_cons_iff.mpr (Or.inl h)

theorem Below.cons {x y : List α} (h : Below x y) (a : α) : Below (a :: x) (a :: y) :=
  h.append_left [a]

theorem le_append (x s : List α) : x ≤ x ++ s := by
  have h := append_le_append_iff (p := x) (x := []) (y := s)
  rw [append_nil] at h
  exact h.mpr (LexOrder.nil_le s)

end Below

/-! ## Digits -/

section Digits

variable {b : Nat} [NeZero b]

/-- The last `w` digits of `n` to the base `b`, most significant first. -/
def bigEndian (b : Nat) [NeZero b] : Nat → Nat → List (Fin b)
  | 0, _ => []
  | w + 1, n => Fin.ofNat b (n / b ^ w) :: bigEndian b w (n % b ^ w)

/-- Numbers of at most `w` digits are ordered as their digits are. -/
theorem bigEndian_below {w m n : Nat} (hmn : m < n) (hn : n < b ^ w) :
    Below (bigEndian b w m) (bigEndian b w n) := by
  induction w generalizing m n with
  | zero =>
    rw [pow_zero] at hn
    omega
  | succ w ih =>
    have hb : 0 < b ^ w := Nat.pow_pos (NeZero.pos b)
    have hnd : n / b ^ w < b := Nat.div_lt_of_lt_mul (by rwa [← pow_succ])
    have hmd : m / b ^ w ≤ n / b ^ w := Nat.div_le_div_right (le_of_lt hmn)
    have hm : m / b ^ w * b ^ w + m % b ^ w = m := div_add_mod' m (b ^ w)
    have hn' : n / b ^ w * b ^ w + n % b ^ w = n := div_add_mod' n (b ^ w)
    rw [bigEndian]
    rcases hmd.lt_or_eq with h | h
    · refine below_cons ?_ _ _
      rw [Fin.lt_def, Fin.val_ofNat, Fin.val_ofNat, mod_eq_of_lt hnd, mod_eq_of_lt (lt_trans h hnd)]
      exact h
    · rw [h]
      refine (ih ?_ (mod_lt _ hb)).cons _
      rw [h] at hm
      omega

end Digits

/-! ## Terminated lists -/

section Terminated

variable {α : Type} [DecidableEq α]

/-- Every letter `z` is followed by the letter `m`, every other stands for itself. -/
def escape (z m : α) : List α → List α
  | [] => []
  | a :: l => if a = z then z :: m :: escape z m l else a :: escape z m l

/-- Two letters `z` end the list. -/
def terminated (z m : α) (l : List α) : List α := escape z m l ++ [z, z]

/-- Terminated lists are ordered as the lists are, if `z` is the least letter. -/
theorem terminated_below [LinearOrder α] {z m : α} (hz : ∀ a, z ≤ a) (hm : z < m) {x y : List α}
    (h : x < y) : Below (terminated z m x) (terminated z m y) := by
  have hpos : ∀ {a : α}, a ≠ z → z < a := fun ha => lt_of_le_of_ne (hz _) (Ne.symm ha)
  induction x generalizing y with
  | nil =>
    cases y with
    | nil => exact absurd h (lt_irrefl _)
    | cons b y =>
      by_cases hb : b = z
      · -- the terminator's second letter is below the escape letter
        simp only [terminated, escape, if_pos hb]
        exact (below_cons hm _ _).cons _
      · simp only [terminated, escape, if_neg hb]
        exact below_cons (hpos hb) _ _
  | cons a x ih =>
    cases y with
    | nil => exact absurd h (not_lt_nil _)
    | cons b y =>
      rcases cons_lt_cons_iff.mp h with hab | ⟨rfl, hxy⟩
      · have hb : b ≠ z := (lt_of_le_of_lt (hz a) hab).ne'
        by_cases ha : a = z
        · simp only [terminated, escape, if_pos ha, if_neg hb]
          exact below_cons (hpos hb) _ _
        · simp only [terminated, escape, if_neg ha, if_neg hb]
          exact below_cons hab _ _
      · have hrest := ih hxy
        by_cases ha : a = z
        · simp only [terminated, escape, if_pos ha] at hrest ⊢
          exact (hrest.cons m).cons z
        · simp only [terminated, escape, if_neg ha] at hrest ⊢
          exact hrest.cons a

end Terminated

end KeyOrder
