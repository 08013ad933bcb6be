import Mathlib.Tactic

/-!
# Sequences of overwrites

A write sets a value or leaves it as it is. After a sequence of writes, the value is what the last
write set it to, or the old value if no write set it. So a sequence that has taken effect can be
applied again without effect, from any of its writes on.
-/

namespace Overwrite

variable {V : Type}

/-- The value after these writes, from first to last. -/
def final (ws : List (Option V)) (v : V) : V := ws.foldl (fun v w => w.getD v) v

@[simp] theorem final_cons (w : Option V) (ws : List (Option V)) (v : V) :
    final (w :: ws) v = final ws (w.getD v) := rfl

theorem final_append (ws us : List (Option V)) (v : V) :
    final (ws ++ us) v = final us (final ws v) := List.foldl_append

/-- A sequence leaves every value as it is, or it leads to the same value from everywhere. -/
theorem final_cases (ws : List (Option V)) : (∀ v, final ws v = v) ∨ ∃ c, ∀ v, final ws v = c := by
  induction ws with
  | nil => exact .inl fun _ => rfl
  | cons w ws ih =>
    rcases ih with hid | ⟨c, hc⟩
    · cases w with
      | none => exact .inl fun v => hid v
      | some c => exact .inr ⟨c, fun _ => hid c⟩
    · exact .inr ⟨c, fun v => hc _⟩

/-- Where a sequence has led to, its last writes have no effect. -/
theorem final_of_append {a us : List (Option V)} {v v' : V} (h : final (a ++ us) v = v') :
    final us v' = v' := by
  rw [final_append] at h
  rcases final_cases us with hid | ⟨c, hc⟩
  · exact hid v'
  · rw [hc, ← h, hc]

/-- If a sequence has no effect, it has none before and after further writes either. -/
theorem final_settled {a : List (Option V)} {v : V} (h : final a v = v) (us : List (Option V)) :
    final (a ++ us) (final us v) = final us v := by
  rw [final_append]
  rcases final_cases us with hid | ⟨c, hc⟩
  · rw [hid, hid, h]
  · rw [hc, hc]

end Overwrite
