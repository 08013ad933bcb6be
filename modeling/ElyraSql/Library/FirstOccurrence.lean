import Mathlib.Data.List.Nodup

/-!
# First occurrences under a key

A loop goes over a list with a set of the keys it has seen, and keeps an element when its key is
new.
-/

namespace FirstOccurrence

open List

variable {α κ : Type*} [DecidableEq κ] (key : α → κ)

/-- The elements of a list whose key is neither in `seen` nor the key of an earlier element. -/
def firsts : List κ → List α → List α
  | _, [] => []
  | seen, a :: l => if key a ∈ seen then firsts seen l else a :: firsts (key a :: seen) l

def occurrences (k : κ) (l : List α) : Nat := (l.map key).count k

theorem occurrences_filter (p : κ → Bool) (k : κ) (l : List α) :
    occurrences key k (l.filter fun a => p (key a)) = if p k then occurrences key k l else 0 := by
  show ((l.filter (p ∘ key)).map key).count k = _
  rw [← filter_map]
  split
  · rename_i h
    exact count_filter h
  · rename_i h
    exact count_eq_zero_of_not_mem fun hk => h (mem_filter.mp hk).2

variable {key} {seen seen' : List κ} {l l' : List α} {k : κ}

theorem occurrences_pos : 0 < occurrences key k l ↔ k ∈ l.map key := count_pos_iff

theorem occurrences_append :
    occurrences key k (l ++ l') = occurrences key k l + occurrences key k l' := by
  unfold occurrences
  rw [map_append, count_append]

theorem firsts_congr (h : ∀ k, k ∈ seen ↔ k ∈ seen') : firsts key seen l = firsts key seen' l := by
  induction l generalizing seen seen' with
  | nil => rfl
  | cons a l ih =>
    have hcons : ∀ k, k ∈ key a :: seen ↔ k ∈ key a :: seen' := by
      intro k
      rw [mem_cons, mem_cons, h k]
    rw [firsts, ih h, ih hcons]
    exact if_congr (h _) rfl rfl

theorem firsts_append :
    firsts key seen (l ++ l') = firsts key seen l ++ firsts key (l.map key ++ seen) l' := by
  induction l generalizing seen with
  | nil => rfl
  | cons a l ih =>
    rw [cons_append, firsts, firsts, map_cons]
    split
    · rename_i hin
      rw [ih]
      refine congrArg _ (firsts_congr fun k => ?_)
      -- the key of `a` was in the set before
      simp only [cons_append, mem_append, mem_cons]
      exact ⟨.inr, Or.rec (fun hk => .inr (hk ▸ hin)) id⟩
    · rw [ih]
      refine congrArg (a :: _ ++ ·) (firsts_congr fun k => ?_)
      simp only [cons_append, mem_append, mem_cons]
      exact or_left_comm

theorem firsts_sublist : firsts key seen l <+ l := by
  induction l generalizing seen with
  | nil => exact .slnil
  | cons a l ih =>
    rw [firsts]
    split
    · exact ih.cons a
    · exact ih.cons_cons a

theorem key_mem_firsts : k ∈ (firsts key seen l).map key ↔ k ∈ l.map key ∧ k ∉ seen := by
  induction l generalizing seen with
  | nil => simp [firsts]
  | cons a l ih =>
    rw [firsts]
    split
    · rename_i hin
      rw [ih, map_cons, mem_cons]
      exact and_congr_left fun hk => ⟨.inr, Or.rec (fun ha => absurd (ha ▸ hin) hk) id⟩
    · grind

theorem nodup_firsts : ((firsts key seen l).map key).Nodup := by
  induction l generalizing seen with
  | nil => exact nodup_nil
  | cons a l ih =>
    rw [firsts]
    split
    · exact ih
    · rw [map_cons, nodup_cons, key_mem_firsts]
      exact ⟨fun h => h.2 mem_cons_self, ih⟩

theorem firsts_eq_self (h : (l.map key).Nodup) : firsts key [] l = l := by
  refine firsts_sublist.eq_of_length ?_
  have hperm : ((firsts key [] l).map key).Perm (l.map key) := by
    rw [perm_ext_iff_of_nodup nodup_firsts h]
    intro k
    rw [key_mem_firsts, and_iff_left not_mem_nil]
  rw [← length_map key, hperm.length_eq, length_map]

/-- Keeping the first occurrences of a part of a list beforehand changes nothing. -/
theorem firsts_firsts_append : firsts key [] (firsts key [] l ++ l') = firsts key [] (l ++ l') := by
  rw [firsts_append, firsts_append, firsts_eq_self nodup_firsts]
  refine congrArg _ (firsts_congr fun k => ?_)
  rw [mem_append, mem_append, key_mem_firsts, and_iff_left not_mem_nil]

theorem occurrences_firsts :
    occurrences key k (firsts key [] l) = if 0 < occurrences key k l then 1 else 0 := by
  refine nodup_firsts.count.trans (if_congr ?_ rfl rfl)
  rw [key_mem_firsts, occurrences_pos, and_iff_left not_mem_nil]

end FirstOccurrence
