import Mathlib.Data.Multiset.Bind
import Mathlib.Data.Multiset.Count
import Mathlib.Data.Multiset.Filter

/-!
# Joins of multisets

Two multisets joined under a condition: the pairs that satisfy it, and the elements of a kept side
that are in no pair, with nothing on the other side.
-/

namespace Pairing

open Multiset

variable {α β : Type*}

def pairs (on : α → β → Bool) (L : Multiset α) (R : Multiset β) : Multiset (α × β) :=
  L.bind fun l => (R.filter fun r => on l r = true).map fun r => (l, r)

/-- The elements of the left side in no pair. -/
def lonely (on : α → β → Bool) (L : Multiset α) (R : Multiset β) : Multiset α :=
  L.filter fun l => ∀ r ∈ R, on l r = false

/-- The join, which keeps the lonely elements of the left or right side if asked to. -/
def join (keepLeft keepRight : Bool) (on : α → β → Bool) (L : Multiset α) (R : Multiset β) :
    Multiset (Option α × Option β) :=
  (pairs on L R).map (fun p => (some p.1, some p.2)) +
    (if keepLeft then (lonely on L R).map fun l => (some l, none) else 0) +
    if keepRight then (lonely (fun r l => on l r) R L).map fun r => (none, some r) else 0

/-! ## Congruence -/

variable {keepLeft keepRight : Bool} {on on' : α → β → Bool} {L : Multiset α} {R : Multiset β}

section
variable (h : ∀ l ∈ L, ∀ r ∈ R, on l r = on' l r)
include h

theorem pairs_congr : pairs on L R = pairs on' L R := by
  refine bind_congr fun l hl => ?_
  rw [filter_congr fun r hr => by rw [h l hl r hr]]

theorem lonely_congr : lonely on L R = lonely on' L R := by
  refine filter_congr fun l hl => ?_
  exact forall₂_congr fun r hr => by rw [h l hl r hr]

theorem join_congr :
    join keepLeft keepRight on L R = join keepLeft keepRight on' L R := by
  rw [join, join, pairs_congr h, lonely_congr h, lonely_congr fun r hr l hl => h l hl r hr]

end

/-! ## Parts of the sides -/

theorem mem_pairs {p : α × β} : p ∈ pairs on L R ↔ p.1 ∈ L ∧ p.2 ∈ R ∧ on p.1 p.2 = true := by
  obtain ⟨l, r⟩ := p
  simp only [pairs, mem_bind, mem_map, mem_filter, Prod.mk.injEq]
  constructor
  · rintro ⟨l', hl, r', ⟨hr, hon⟩, rfl, rfl⟩
    exact ⟨hl, hr, hon⟩
  · rintro ⟨hl, hr, hon⟩
    exact ⟨l, hl, r, ⟨hr, hon⟩, rfl, rfl⟩

theorem pairs_eq_zero_iff : pairs on L R = 0 ↔ ∀ l ∈ L, ∀ r ∈ R, on l r = false := by
  rw [eq_zero_iff_forall_notMem]
  simp only [mem_pairs, Prod.forall, not_and, Bool.not_eq_true]
  exact ⟨fun h l hl r hr => h l r hl hr, fun h l r hl hr => h l hl r hr⟩

variable (keepLeft keepRight on L R)

theorem pairs_cons (l : α) :
    pairs on (l ::ₘ L) R = (R.filter fun r => on l r = true).map (fun r => (l, r)) + pairs on L R :=
  cons_bind ..

theorem pairs_add_left (L' : Multiset α) :
    pairs on (L + L') R = pairs on L R + pairs on L' R := add_bind ..

theorem pairs_add_right (R' : Multiset β) :
    pairs on L (R + R') = pairs on L R + pairs on L R' := by
  simp only [pairs, filter_add, map_add, bind_add]

theorem pairs_map {α' β' : Type*} (on : α' → β' → Bool) (f : α → α') (g : β → β') :
    pairs on (L.map f) (R.map g) = (pairs (fun l r => on (f l) (g r)) L R).map (Prod.map f g) := by
  rw [pairs, pairs, bind_map, map_bind]
  refine bind_congr fun l _ => ?_
  rw [filter_map, map_map, map_map]
  rfl

theorem pairs_filter (p : α → Bool) (q : β → Bool) :
    pairs on (L.filter fun l => p l = true) (R.filter fun r => q r = true) =
      pairs (fun l r => p l && q r && on l r) L R := by
  induction L using Multiset.induction with
  | empty => rfl
  | cons l L ih =>
    rw [pairs_cons, ← ih]
    by_cases hl : p l = true
    · rw [filter_cons_of_pos L hl, pairs_cons]
      simp [hl, Bool.and_comm]
    · simp [hl]

variable {on} in
/-- Where every pair satisfies the condition, the two loops give all the pairs. -/
theorem coe_product {ls : List α} {rs : List β} (h : ∀ l ∈ ls, ∀ r ∈ rs, on l r = true) :
    ((ls.flatMap fun l => rs.map fun r => (l, r) : List (α × β)) : Multiset (α × β)) =
      pairs on ls rs := by
  induction ls with
  | nil => rfl
  | cons l ls ih =>
    rw [List.flatMap_cons, ← coe_add, ih fun l hl => h l (List.mem_cons_of_mem _ hl), ← cons_coe,
      pairs_cons, filter_eq_self.mpr fun r hr => h l List.mem_cons_self r hr, map_coe]

theorem join_keepRight : join keepLeft keepRight on L R = join keepLeft false on L R +
      if keepRight then (lonely (fun r l => on l r) R L).map fun r => (none, some r) else 0 := by
  simp only [join, Bool.false_eq_true, if_false, add_zero]

/-! ## Exchanging the sides -/

theorem pairs_eq_bind :
    pairs on L R = L.bind fun l => R.bind fun r => if on l r then {(l, r)} else 0 := by
  refine bind_congr fun l _ => ?_
  induction R using Multiset.induction with
  | empty => rfl
  | cons r R ih =>
    rw [cons_bind, ← ih]
    by_cases h : on l r = true <;> simp [h]

theorem pairs_swap : (pairs (fun r l => on l r) R L).map Prod.swap = pairs on L R := by
  rw [pairs_eq_bind, pairs_eq_bind, bind_bind, map_bind]
  refine bind_congr fun l _ => ?_
  rw [map_bind]
  refine bind_congr fun r _ => ?_
  split <;> simp

theorem join_swap : (join keepRight keepLeft (fun r l => on l r) R L).map Prod.swap =
      join keepLeft keepRight on L R := by
  have hpairs : ((pairs (fun r l => on l r) R L).map fun p => (some p.1, some p.2)).map Prod.swap =
      (pairs on L R).map fun p => (some p.1, some p.2) := by
    rw [← pairs_swap on L R, map_map, map_map]
    rfl
  simp only [join, map_add, hpairs]
  cases keepLeft <;> cases keepRight <;>
    simp [add_right_comm]

/-! ## The loop over one side -/

/-- What one element of the left side contributes: its pairs, or itself if it has none and is to
be kept. -/
def rowOf (keep : Bool) (on : α → β → Bool) (rs : List β) (l : α) : List (Option α × Option β) :=
  if rs.any (on l) then (rs.filter (on l)).map fun r => (some l, some r)
  else if keep then [(some l, none)] else []

/-- The loop that pairs every element of one list with the other and pads those without a partner.
-/
theorem coe_flatMap_rowOf (keep : Bool) (ls : List α) (rs : List β) :
    ((ls.flatMap (rowOf keep on rs) : List _) : Multiset (Option α × Option β)) =
      join keep false on ls rs := by
  induction ls with
  | nil => cases keep <;> rfl
  | cons l ls ih =>
    rw [List.flatMap_cons, ← coe_add, ih]
    have hpairs : pairs on ((l :: ls : List α) : Multiset α) rs =
        ((rs.filter (on l)).map fun r => (l, r) : List (α × β)) + pairs on ls rs := by
      rw [← cons_coe, pairs_cons]
      simp
    have hmap : ((rs.filter (on l)).map fun r => (some l, some r) : List (Option α × Option β)) =
        (((rs.filter (on l)).map fun r => (l, r) : List (α × β)) : Multiset (α × β)).map
          fun p => (some p.1, some p.2) := by
      simp [Function.comp_def]
    by_cases h : rs.any (on l) = true
    · have hl : lonely on ((l :: ls : List α) : Multiset α) rs = lonely on ls rs := by
        rw [lonely, ← cons_coe, filter_cons_of_neg _ fun hall => ?_, lonely]
        obtain ⟨r, hr, hon⟩ := List.any_eq_true.mp h
        exact Bool.false_ne_true ((hall r hr).symm.trans hon)
      rw [rowOf, if_pos h, join, join, hpairs, hl, map_add, ← hmap]
      simp only [add_assoc, Bool.false_eq_true, if_false]
    · have hnone : ∀ r ∈ rs, on l r = false := fun r hr => by
        simpa using fun hon => h (List.any_eq_true.mpr ⟨r, hr, hon⟩)
      have hl : lonely on ((l :: ls : List α) : Multiset α) rs = l ::ₘ lonely on ls rs := by
        rw [lonely, ← cons_coe, filter_cons_of_pos _ hnone, lonely]
      have hf : rs.filter (on l) = [] := List.filter_eq_nil_iff.mpr fun r hr => by
        simp [hnone r hr]
      rw [rowOf, if_neg h, join, join, hpairs, hl, hf]
      cases keep <;> simp

/-! ## Counting -/

theorem count_pairs [DecidableEq α] [DecidableEq β] (l : α) (r : β) :
    (pairs on L R).count (l, r) = if on l r then L.count l * R.count r else 0 := by
  have hinner : ∀ l', ((R.filter fun r => on l' r = true).map fun r => (l', r)).count (l, r) =
      if l' = l then (if on l r then R.count r else 0) else 0 := by
    intro l'
    by_cases hl : l' = l
    · subst hl
      rw [if_pos rfl, count_map_eq_count' _ _ (Prod.mk_right_injective l') r]
      rw [count_filter]
    · simp [hl]
  rw [pairs, count_bind]
  simp only [hinner]
  by_cases hon : on l r = true
  · simp only [hon]
    induction L using Multiset.induction with
    | empty => simp
    | cons a L ih =>
      rw [map_cons, sum_cons, ih, count_cons]
      by_cases ha : a = l
      · subst ha
        simp [Nat.add_mul, Nat.add_comm]
      · rw [if_neg ha, if_neg (Ne.symm ha), Nat.zero_add, Nat.add_zero]
  · simp [hon]

end Pairing
