/-!
# Labelled transition systems

A system is a partial function from a state and a label to the next state. `Reach step ok s₀ s`
holds when some run from `s₀` ends in `s` and every step of it satisfies `ok`, a condition on the
label and the state before the step. With `ok` always true these are the reachable states.
-/

namespace Transition

open Option

variable {S A : Type}

/-- Follow a list of labels. -/
def run (step : S → A → Option S) : S → List A → Option S
  | s, [] => some s
  | s, a :: as => (step s a).bind fun s' => run step s' as

/-- The states of the runs from `s₀` whose steps all satisfy `ok`. -/
inductive Reach (step : S → A → Option S) (ok : S → A → Prop) (s₀ : S) : S → Prop
  | refl : Reach step ok s₀ s₀
  | tail {s s' : S} {a : A} :
      Reach step ok s₀ s → ok s a → step s a = some s' → Reach step ok s₀ s'

variable {step : S → A → Option S} {ok : S → A → Prop} {s₀ s : S} {as : List A}

/-- What holds at the start and is kept by every step holds in every state reached. -/
theorem Reach.invariant {I : S → Prop} (h₀ : I s₀)
    (hstep : ∀ {s s' a}, I s → ok s a → step s a = some s' → I s') (h : Reach step ok s₀ s) :
    I s := by
  induction h with
  | refl => exact h₀
  | tail _ hok hs ih => exact hstep ih hok hs

theorem Reach.mono {ok' : S → A → Prop} (himp : ∀ s a, ok s a → ok' s a) (h : Reach step ok s₀ s) :
    Reach step ok' s₀ s := by
  induction h with
  | refl => exact .refl
  | tail _ hok hs ih => exact ih.tail (himp _ _ hok) hs

/-- Every label of the list satisfies `ok` in the state in which it is followed. -/
def Along (step : S → A → Option S) (ok : S → A → Prop) : S → List A → Prop
  | _, [] => True
  | s, a :: as => ok s a ∧ ∀ s', step s a = some s' → Along step ok s' as

/-- A run whose labels satisfy `ok` reaches what it runs to. -/
theorem Reach.of_run (h : run step s₀ as = some s) (hok : Along step ok s₀ as) :
    Reach step ok s₀ s := by
  suffices ∀ {s₁ : S}, Reach step ok s₀ s₁ → Along step ok s₁ as → run step s₁ as = some s →
      Reach step ok s₀ s from this .refl hok h
  clear h hok
  induction as with
  | nil =>
    intro s₁ h₁ _ h
    cases h
    exact h₁
  | cons a as ih =>
    intro s₁ h₁ hok h
    obtain ⟨s₂, h₂, h⟩ := bind_eq_some_iff.mp h
    exact ih (h₁.tail hok.1 h₂) (hok.2 s₂ h₂) h

/-- Steps that do not satisfy `ok` are refused. -/
def guarded (step : S → A → Option S) (ok : S → A → Prop) [∀ s a, Decidable (ok s a)] :
    S → A → Option S :=
  fun s a => if ok s a then step s a else none

/-- The condition holds along a list whose labels satisfy it in every state. -/
theorem Along.of_forall (h : ∀ a ∈ as, ∀ s, ok s a) : Along step ok s as := by
  induction as generalizing s with
  | nil => trivial
  | cons a as ih =>
    exact ⟨h a List.mem_cons_self s, fun _ _ => ih fun b hb => h b (List.mem_cons_of_mem _ hb)⟩

/-- A run of the guarded system is a run whose labels satisfy the guard. -/
theorem Reach.of_guarded_run [∀ s a, Decidable (ok s a)]
    (h : run (guarded step ok) s₀ as = some s) :
    Reach step ok s₀ s := by
  have hguarded : Reach (guarded step ok) (fun _ _ => True) s₀ s :=
    .of_run h (Along.of_forall fun _ _ _ => trivial)
  refine hguarded.invariant .refl fun hs _ hstep => ?_
  unfold guarded at hstep
  split at hstep
  case isTrue hok => exact hs.tail hok hstep
  case isFalse => exact nomatch hstep

/-- A run of the guarded system to where `P` holds, evaluated at once. -/
theorem Reach.exists_of_run [∀ s a, Decidable (ok s a)] {P Q : S → Prop} [DecidablePred P]
    (as : List A) (h : (run (guarded step ok) s₀ as).any (fun s => decide (P s)) = true)
    (hQ : ∀ s, Reach step ok s₀ s → P s → Q s) : ∃ s, Reach step ok s₀ s ∧ Q s := by
  obtain ⟨s, hs, hP⟩ := (any_eq_true _ _).mp h
  have hreach := Reach.of_guarded_run hs
  exact ⟨s, hreach, hQ s hreach (of_decide_eq_true hP)⟩

/-- The same with one more step, which need not satisfy the guard. -/
theorem Reach.exists_step_of_run [∀ s a, Decidable (ok s a)] {R Q : S → S → Prop}
    [∀ s s', Decidable (R s s')] (as : List A) (a : A)
    (h : (run (guarded step ok) s₀ as).any
      (fun s => (step s a).any fun s' => decide (R s s')) = true)
    (hQ : ∀ s s', Reach step ok s₀ s → step s a = some s' → R s s' → Q s s') :
    ∃ s s', Reach step ok s₀ s ∧ step s a = some s' ∧ Q s s' := by
  obtain ⟨s, hs, hany⟩ := (any_eq_true _ _).mp h
  obtain ⟨s', hs', hR⟩ := (any_eq_true _ _).mp hany
  have hreach := Reach.of_guarded_run hs
  exact ⟨s, s', hreach, hs', hQ s s' hreach hs' (of_decide_eq_true hR)⟩

end Transition
