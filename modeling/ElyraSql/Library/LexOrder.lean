import Mathlib.Data.List.Lex
import Mathlib.Order.Cover
import Mathlib.Order.BoundedOrder.Basic
import Mathlib.Tactic

/-!
# Lexicographic order on lists: successors and prefix intervals

In the lexicographic order the immediate successor of a list is the list with a least element
appended, and the lists that extend a given list form an interval, whose end is found by dropping
trailing greatest elements and raising the last one left.
-/

namespace LexOrder

open List

variable {α : Type} [LinearOrder α] {l k : List α}

theorem not_cons_le_nil (a : α) (l : List α) : ¬ a :: l ≤ [] := by
  rw [not_le]
  exact nil_lt_cons a l

theorem nil_le (l : List α) : [] ≤ l := not_lt.mp (not_lt_nil l)

theorem cons_le_cons_iff {a b : α} {m : List α} : a :: l ≤ b :: m ↔ a < b ∨ a = b ∧ l ≤ m := by
  rw [← not_lt, cons_lt_cons_iff, ← not_lt (a := m)]
  constructor
  · intro h
    rw [not_or, not_lt] at h
    rcases h.1.lt_or_eq with hlt | heq
    · exact Or.inl hlt
    · exact Or.inr ⟨heq, fun hm => h.2 ⟨heq.symm, hm⟩⟩
  · rintro (hlt | ⟨rfl, hm⟩)
    · rintro (h | ⟨rfl, -⟩)
      · exact absurd h hlt.asymm
      · exact lt_irrefl _ hlt
    · rintro (h | ⟨-, h⟩)
      · exact lt_irrefl _ h
      · exact hm h

/-- Between a list and an extension of it there are only extensions. -/
theorem isPrefix_of_between {p t : List α} (h : p ≤ k) (h' : k ≤ p ++ t) : p <+: k := by
  induction p generalizing k with
  | nil => exact nil_prefix
  | cons a p ih =>
    cases k with
    | nil => exact absurd h (not_cons_le_nil a p)
    | cons b k =>
      rcases cons_le_cons_iff.mp h with hab | ⟨rfl, hpk⟩
      · rcases cons_le_cons_iff.mp h' with hba | ⟨rfl, -⟩
        · exact absurd hab hba.asymm
        · exact absurd hab (lt_irrefl _)
      · rcases cons_le_cons_iff.mp h' with hlt | ⟨-, hk⟩
        · exact absurd hlt (lt_irrefl _)
        · exact cons_prefix_cons.mpr ⟨rfl, ih hpk hk⟩

/-- Nothing lies between `l` and `l` followed by the least element. -/
theorem append_bot_le_iff [OrderBot α] : l ++ [⊥] ≤ k ↔ l < k := by
  induction l generalizing k with
  | nil =>
    cases k with
    | nil => simp [not_cons_le_nil]
    | cons x k =>
      simp only [nil_append, cons_le_cons_iff, nil_lt_cons, iff_true]
      rcases (bot_le : ⊥ ≤ x).lt_or_eq with h | h
      · exact Or.inl h
      · exact Or.inr ⟨h, nil_le k⟩
  | cons a l ih =>
    cases k with
    | nil => simp [not_cons_le_nil]
    | cons x k => rw [cons_append, cons_le_cons_iff, cons_lt_cons_iff, ih]

/-- A run of greatest elements is below exactly the lists that extend it. -/
theorem replicate_top_le_iff [OrderTop α] {n : Nat} : replicate n ⊤ ≤ k ↔ replicate n ⊤ <+: k := by
  induction n generalizing k with
  | zero => simp [nil_le]
  | succ n ih =>
    cases k with
    | nil => simp [replicate_succ]
    | cons x k =>
      rw [replicate_succ, cons_le_cons_iff, cons_prefix_cons, ih]
      constructor
      · rintro (h | h)
        · exact absurd h not_top_lt
        · exact h
      · exact Or.inr

/-- The lists that extend `l ++ b :: ⊤ ⊤ …` are those from it up to `l ++ [c]`, for `c` the
successor of `b`. -/
theorem prefix_iff_between [OrderTop α] {b c : α} {n : Nat} (hbc : b ⋖ c) :
    l ++ b :: replicate n ⊤ ≤ k ∧ k < l ++ [c] ↔ l ++ b :: replicate n ⊤ <+: k := by
  induction l generalizing k with
  | nil =>
    cases k with
    | nil => simp [not_cons_le_nil]
    | cons x k =>
      rw [nil_append, nil_append, cons_le_cons_iff, cons_lt_cons_iff,
        cons_prefix_cons, replicate_top_le_iff]
      simp only [not_lt_nil, and_false, or_false]
      constructor
      · rintro ⟨hb | hb, hx⟩
        · exact absurd hx (hbc.2 hb)
        · exact hb
      · rintro ⟨rfl, hp⟩
        exact ⟨Or.inr ⟨rfl, hp⟩, hbc.1⟩
  | cons a l ih =>
    cases k with
    | nil => simp [not_cons_le_nil]
    | cons x k =>
      simp only [cons_append, cons_le_cons_iff, cons_lt_cons_iff, cons_prefix_cons, ← ih]
      constructor
      · rintro ⟨h | ⟨rfl, h⟩, h' | ⟨hx, h'⟩⟩
        · exact absurd h h'.asymm
        · exact absurd h (hx ▸ lt_irrefl _)
        · exact absurd h' (lt_irrefl _)
        · exact ⟨rfl, h, h'⟩
      · rintro ⟨rfl, h, h'⟩
        exact ⟨Or.inr ⟨rfl, h⟩, Or.inr ⟨rfl, h'⟩⟩

end LexOrder
