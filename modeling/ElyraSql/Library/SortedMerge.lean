import Mathlib.Order.Compare
import ElyraSql.Library.Pairing

/-!
# The merge join of two sorted lists

Two lists, each sorted by a key, are walked together: the side with the smaller key moves on, and
where the keys meet the two runs of equal keys are paired. Three comparisons are used, one between
the sides and one within each, and all may fail.
-/

namespace SortedMerge

open Pairing List Multiset

variable {α β ω : Type*}

/-- The elements of the leading run with the key of `a`, and what follows. -/
def run (same : α → α → Option Ordering) (a : α) : List α → Option (List α × List α)
  | [] => some ([], [])
  | x :: xs =>
    match same x a with
    | none => none
    | some .eq => (run same a xs).map fun p => (x :: p.1, p.2)
    | some _ => some ([], x :: xs)

variable {a : α} {same : α → α → Option Ordering}
variable {xs zs : List α}

theorem run_length {ys : List α} (h : run same a xs = some (ys, zs)) : zs.length ≤ xs.length := by
  induction xs generalizing ys zs with
  | nil =>
    cases h
    exact Nat.le_refl _
  | cons x xs ih =>
    rw [run] at h
    split at h
    · cases h
    · obtain ⟨p, hp, hpair⟩ := Option.map_eq_some_iff.mp h
      cases hpair
      exact Nat.le_succ_of_le (ih hp)
    · cases h
      exact Nat.le_refl _

/-- The merge. The run of an element contains the element itself. -/
def merge (cross : α → β → Option Ordering) (left : α → α → Option Ordering)
    (right : β → β → Option Ordering) : List α → List β → Option (List (α × β))
  | [], _ => some []
  | _ :: _, [] => some []
  | a :: as, b :: bs =>
    match cross a b with
    | none => none
    | some .lt => merge cross left right as (b :: bs)
    | some .gt => merge cross left right (a :: as) bs
    | some .eq =>
      match _hl : run left a as, _hr : run right b bs with
      | some (xs, as'), some (ys, bs') =>
        (merge cross left right as' bs').map fun rest =>
          ((a :: xs).flatMap fun x => (b :: ys).map fun y => (x, y)) ++ rest
      | _, _ => none
termination_by as bs => as.length + bs.length
decreasing_by
  · simp
  · simp
  · have h₁ := run_length _hl
    have h₂ := run_length _hr
    simp only [length_cons]
    omega

section
variable [LinearOrder ω] (key : α → ω) (key' : β → ω)

/-- Sorted by the key. -/
def Ascending (key : α → ω) (as : List α) : Prop := as.Pairwise fun x y => key x ≤ key y

def sameKey (a : α) (b : β) : Bool := decide (key a = key' b)

variable {b : β}

theorem sameKey_eq_true {key : α → ω} {key' : β → ω} :
    sameKey key key' a b = true ↔ key a = key' b := decide_eq_true_iff

/-- The comparison within a side is that of the keys. -/
def Orders (key : α → ω) (same : α → α → Option Ordering) (as : List α) : Prop :=
  ∀ x ∈ as, ∀ y ∈ as, same x y = some (cmp (key x) (key y))

variable {key key'}

variable {as : List α}

/-- The run of the first element of a sorted list: the elements with its key, and those above. -/
theorem run_sorted (hs : Ascending key (a :: as)) (ho : Orders key same (a :: as)) :
    ∃ xs zs, run same a as = some (xs, zs) ∧ as = xs ++ zs ∧ (∀ x ∈ xs, key x = key a) ∧
      ∀ z ∈ zs, key a < key z := by
  induction as with
  | nil => exact ⟨[], [], rfl, rfl, by simp, by simp⟩
  | cons x as ih =>
    have hax : key a ≤ key x := (pairwise_cons.mp hs).1 x mem_cons_self
    have hx : same x a = some (cmp (key x) (key a)) :=
      ho x (by simp) a (by simp)
    rcases hax.eq_or_lt with heq | hlt
    · obtain ⟨xs, zs, hrun, rfl, hxs, hzs⟩ := ih (hs.sublist (by simp))
        fun y hy z hz => ho y (by simp at hy ⊢; tauto) z (by simp at hz ⊢; tauto)
      refine ⟨x :: xs, zs, ?_, rfl, ?_, hzs⟩
      · rw [run, hx, heq, (cmp_eq_eq_iff _ _).mpr rfl, hrun]
        rfl
      · simpa [heq] using hxs
    · refine ⟨[], x :: as, ?_, rfl, by simp, ?_⟩
      · rw [run, hx, (cmp_eq_gt_iff _ _).mpr hlt]
      · intro z hz
        rcases mem_cons.mp hz with rfl | hz
        · exact hlt
        · exact hlt.trans_le ((pairwise_cons.mp (pairwise_cons.mp hs).2).1 z hz)

/-! ## One step -/

variable {bs : List β} {cross : α → β → Option Ordering} {left : α → α → Option Ordering}
  {right : β → β → Option Ordering}

/-- Where the first keys meet: the two runs, all paired with each other, and the pairs of what is
above them. -/
theorem merge_eq_step (hl : Ascending key (a :: as)) (hr : Ascending key' (b :: bs))
    (hol : Orders key left (a :: as)) (hor : Orders key' right (b :: bs)) (heq : key a = key' b)
    (hc : cross a b = some .eq) :
    ∃ (block : List (α × β)) (xs : List α) (ys : List β) (zs : List α) (ws : List β),
      as = xs ++ zs ∧ bs = ys ++ ws ∧
      merge cross left right (a :: as) (b :: bs) =
        (merge cross left right zs ws).map (block ++ ·) ∧
      pairs (sameKey key key') ↑(a :: as) ↑(b :: bs) =
        (block : Multiset (α × β)) + pairs (sameKey key key') ↑zs ↑ws := by
  obtain ⟨xs, zs, hrunl, rfl, hxs, hzs⟩ := run_sorted hl hol
  obtain ⟨ys, ws, hrunr, rfl, hys, hws⟩ := run_sorted hr hor
  have hxs' : ∀ x ∈ a :: xs, key x = key a := by simpa using hxs
  have hys' : ∀ y ∈ b :: ys, key' y = key a := by
    simpa [← heq] using fun y hy => (hys y hy).trans heq.symm
  have hws' : ∀ w ∈ ws, key a < key' w := fun w hw => heq ▸ hws w hw
  refine ⟨(a :: xs).flatMap fun x => (b :: ys).map fun y => (x, y), xs, ys, zs, ws, rfl, rfl, ?_,
    ?_⟩
  · rw [merge, hc]
    dsimp only
    split
    · next hl' hr' =>
      cases hrunl.symm.trans hl'
      cases hrunr.symm.trans hr'
      rfl
    · next hnot => exact absurd hrunr (hnot _ _ _ _ hrunl)
  · have hprod : ((a :: xs).flatMap fun x => (b :: ys).map fun y => (x, y) : List (α × β)) =
        pairs (sameKey key key') ↑(a :: xs) ↑(b :: ys) := coe_product
      fun x hx y hy => decide_eq_true ((hxs' x hx).trans (hys' y hy).symm)
    have hxw : pairs (sameKey key key') ↑(a :: xs) ↑ws = 0 := pairs_eq_zero_iff.mpr
      fun x hx w hw => decide_eq_false (by rw [hxs' x hx]; exact (hws' w hw).ne)
    have hzy : pairs (sameKey key key') ↑zs ↑(b :: ys) = 0 := pairs_eq_zero_iff.mpr
      fun z hz y hy => decide_eq_false (by rw [hys' y hy]; exact (hzs z hz).ne')
    rw [hprod, ← cons_append, ← cons_append, ← coe_add, ← coe_add, pairs_add_left, pairs_add_right,
      pairs_add_right, hxw, hzy, add_zero, zero_add]

theorem Ascending.of_append (h : Ascending key (a :: (xs ++ zs))) : Ascending key zs :=
  h.sublist ((sublist_append_right xs zs).trans (sublist_cons_self ..))

theorem Orders.of_append (h : Orders key same (a :: (xs ++ zs))) : Orders key same zs :=
  fun x hx y hy => h x (by simp [hx]) y (by simp [hy])

theorem Orders.tail (h : Orders key same (a :: as)) : Orders key same as :=
  fun x hx y hy => h x (mem_cons_of_mem _ hx) y (mem_cons_of_mem _ hy)

/-- An element below everything of the other side is in no pair. -/
theorem pairs_cons_below (h : ∀ b ∈ bs, key a < key' b) :
    pairs (sameKey key key') ↑(a :: as) ↑bs = pairs (sameKey key key') ↑as ↑bs := by
  rw [← cons_coe, ← singleton_add, pairs_add_left,
    pairs_eq_zero_iff.mpr fun x hx b hb => ?_, zero_add]
  rw [Multiset.mem_singleton.mp hx]
  exact decide_eq_false (h b hb).ne

theorem pairs_cons_above (h : ∀ a ∈ as, key' b < key a) :
    pairs (sameKey key key') ↑as ↑(b :: bs) = pairs (sameKey key key') ↑as ↑bs := by
  rw [← cons_coe, ← singleton_add, pairs_add_right,
    pairs_eq_zero_iff.mpr fun a ha y hy => ?_, zero_add]
  rw [Multiset.mem_singleton.mp hy]
  exact decide_eq_false (h a ha).ne'

/-- The first element of a sorted list is below another key if that is so of the first ones. -/
theorem Ascending.below {k : ω} (h : Ascending key (a :: as)) (hk : k < key a) :
    ∀ x ∈ a :: as, k < key x := by
  intro x hx
  rcases mem_cons.mp hx with rfl | hx
  · exact hk
  · exact hk.trans_le ((pairwise_cons.mp h).1 x hx)

/-! ## The comparison of the keys -/

/-- If the comparison between the sides is that of the keys, the merge pairs the equal keys. -/
theorem merge_forward (hl : Ascending key as) (hr : Ascending key' bs) (hol : Orders key left as)
    (hor : Orders key' right bs)
    (hc : ∀ a ∈ as, ∀ b ∈ bs, cross a b = some (cmp (key a) (key' b))) :
    ∃ out, merge cross left right as bs = some out ∧
      (out : Multiset (α × β)) = pairs (sameKey key key') ↑as ↑bs := by
  -- Each step removes from the lists at least one element, with all its pairs.
  induction hn : as.length + bs.length using Nat.strong_induction_on generalizing as bs with
  | _ n ih =>
  match as, bs with
  | [], bs => exact ⟨[], by rw [merge], rfl⟩
  | a :: as, [] => exact ⟨[], by rw [merge], (pairs_eq_zero_iff.mpr (by simp)).symm⟩
  | a :: as, b :: bs =>
    have hab := hc a mem_cons_self b mem_cons_self
    subst hn
    rcases lt_trichotomy (key a) (key' b) with hlt | heq | hgt
    · rw [pairs_cons_below (hr.below hlt), merge, hab, (cmp_eq_lt_iff _ _).mpr hlt]
      exact ih _ (by simp) hl.of_cons hr hol.tail hor
        (fun x hx => hc x (mem_cons_of_mem _ hx)) rfl
    · rw [(cmp_eq_eq_iff _ _).mpr heq] at hab
      obtain ⟨block, xs, ys, zs, ws, rfl, rfl, hmerge, hpairs⟩ :=
        merge_eq_step hl hr hol hor heq hab
      obtain ⟨out, hout, hpairs'⟩ := ih (zs.length + ws.length) (by simp; omega) hl.of_append
        hr.of_append hol.of_append hor.of_append
        (fun z hz w hw => hc z (by simp [hz]) w (by simp [hw])) rfl
      refine ⟨block ++ out, by rw [hmerge, hout]; rfl, ?_⟩
      rw [hpairs, ← hpairs', coe_add]
    · rw [pairs_cons_above (hl.below hgt), merge, hab, (cmp_eq_gt_iff _ _).mpr hgt]
      exact ih _ (by simp) hl hr.of_cons hol hor.tail
        (fun x hx y hy => hc x hx y (mem_cons_of_mem _ hy)) rfl

end

end SortedMerge
