import Mathlib.Data.List.Basic
import Mathlib.Tactic

/-!
# Lists numbered consecutively

The elements of a list carry numbers, and these are consecutive from some base on. Then looking up
a number is indexing, and dropping small numbers is dropping elements.
-/

namespace Numbered

open List

variable {α : Type} {f : α → Nat} {b : Nat} {l l' : List α}

/-- The numbers are `b + 1`, `b + 2`, and so on. -/
def Consecutive (f : α → Nat) (b : Nat) (l : List α) : Prop :=
  ∀ (k : Nat) (a : α), l[k]? = some a → f a = b + 1 + k

theorem consecutive_nil : Consecutive f b [] := nofun

theorem consecutive_cons {a : α} :
    Consecutive f b (a :: l) ↔ f a = b + 1 ∧ Consecutive f (b + 1) l := by
  constructor
  · intro h
    refine ⟨h 0 a rfl, fun k x hx => ?_⟩
    rw [h (k + 1) x (by simpa using hx)]
    omega
  · rintro ⟨ha, h⟩ k x hx
    cases k with
    | zero =>
      cases hx
      exact ha
    | succ k =>
      rw [h k x (by simpa using hx)]
      omega

variable (h : Consecutive f b l)
include h

theorem Consecutive.of_le (hp : l' <+: l) : Consecutive f b l' := by
  obtain ⟨r, rfl⟩ := hp
  intro k a ha
  exact h k a (by rw [List.getElem?_append_left (List.getElem?_eq_some_iff.mp ha).1, ha])

theorem Consecutive.drop (k : Nat) : Consecutive f (b + k) (l.drop k) := by
  intro j a ha
  rw [getElem?_drop] at ha
  rw [h _ a ha]
  omega

theorem Consecutive.append (h' : Consecutive f (b + l.length) l') : Consecutive f b (l ++ l') := by
  intro k a ha
  rcases lt_or_ge k l.length with hk | hk
  · rw [List.getElem?_append_left hk] at ha
    exact h k a ha
  · rw [getElem?_append_right hk] at ha
    rw [h' _ a ha]
    omega

theorem Consecutive.concat {a : α} (ha : f a = b + l.length + 1) : Consecutive f b (l ++ [a]) :=
  h.append (consecutive_cons.mpr ⟨ha, consecutive_nil⟩)

theorem Consecutive.last_eq : (l.getLast?.map f).getD b = b + l.length := by
  rw [getLast?_eq_getElem?]
  cases hl : l[l.length - 1]? with
  | none =>
    have := getElem?_eq_none_iff.mp hl
    simp only [Option.map_none, Option.getD_none]
    omega
  | some a =>
    have := (List.getElem?_eq_some_iff.mp hl).1
    simp only [Option.map_some, Option.getD_some]
    rw [h _ a hl]
    omega

theorem Consecutive.find?_eq (i : Nat) :
    l.find? (fun a => f a = i) = if b < i then l[i - b - 1]? else none := by
  induction l generalizing b with
  | nil => simp
  | cons a l ih =>
    obtain ⟨ha, hl⟩ := consecutive_cons.mp h
    rw [find?_cons, ha]
    rcases lt_trichotomy i (b + 1) with hi | rfl | hi
    · have hne : ¬ b + 1 = i := by omega
      rw [if_neg (by omega)]
      simp only [hne, decide_false]
      rw [ih hl, if_neg (by omega)]
    · simp
    · have hne : ¬ b + 1 = i := by omega
      simp only [hne, decide_false]
      rw [ih hl, if_pos (by omega), if_pos (by omega),
        show i - b - 1 = (i - (b + 1) - 1) + 1 by omega,
        getElem?_cons_succ]

theorem Consecutive.findIdx?_eq {i : Nat} (hi : b < i) :
    l.findIdx? (fun a => f a = i) = if i ≤ b + l.length then some (i - b - 1) else none := by
  induction l generalizing b with
  | nil =>
    rw [findIdx?_nil, length_nil, if_neg (by omega)]
  | cons a l ih =>
    obtain ⟨ha, hl⟩ := consecutive_cons.mp h
    rw [findIdx?_cons, ha, length_cons]
    by_cases heq : b + 1 = i
    · subst heq
      simp
    · simp only [heq, decide_false, Bool.false_eq_true, if_false]
      rw [ih hl (by omega)]
      split_ifs with h₁ h₂ h₂
      · simp only [Option.map_some, Option.some.injEq]
        omega
      · omega
      · omega
      · rfl

theorem Consecutive.filter_eq (u : Nat) : l.filter (fun a => u < f a) = l.drop (u - b) := by
  induction l generalizing b with
  | nil => simp
  | cons a l ih =>
    obtain ⟨ha, hl⟩ := consecutive_cons.mp h
    rw [filter_cons, ha, ih hl]
    by_cases hu : u < b + 1
    · rw [if_pos (by simpa using hu), show u - b = 0 by omega, show u - (b + 1) = 0 by omega]
      rfl
    · rw [if_neg (by simpa using hu), show u - b = (u - (b + 1)) + 1 by omega, drop_succ_cons]

theorem Consecutive.filter_le_eq (u : Nat) : l.filter (fun a => f a ≤ u) = l.take (u - b) := by
  induction l generalizing b with
  | nil => simp
  | cons a l ih =>
    obtain ⟨ha, hl⟩ := consecutive_cons.mp h
    rw [filter_cons, ha, ih hl]
    by_cases hu : b + 1 ≤ u
    · rw [if_pos (by simpa using hu), show u - b = (u - (b + 1)) + 1 by omega, take_succ_cons]
    · rw [if_neg (by simpa using hu), show u - b = 0 by omega, show u - (b + 1) = 0 by omega]
      rfl

theorem Consecutive.filter_between_eq {u : Nat} (hu : b ≤ u) (v : Nat) :
    l.filter (fun a => decide (u < f a) && decide (f a ≤ v)) = (l.drop (u - b)).take (v - u) := by
  have hsuffix := h.drop (u - b)
  rw [show b + (u - b) = u by omega] at hsuffix
  rw [← filter_filter, ← hsuffix.filter_le_eq, ← h.filter_eq, filter_filter, filter_filter]
  exact filter_congr fun a _ => Bool.and_comm _ _

end Numbered
