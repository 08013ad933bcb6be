import Mathlib.Order.Nat

/-!
# Values tagged with a version

A counter is raised after each change of a store that matters to a group of readers; a reader loads
the counter, reads the store, and keeps what it read under the number it loaded. Between a change
and its raise, the counter does not show the change yet.

`Versioned σ` keeps the states the store has had, and for each number the moment at which the
counter came to it. `R s s'` says that the readers see no difference between two states.
-/

namespace VersionTags

open Nat List

variable {σ : Type}

/-- The states so far, the counter, the changes whose raise is due, and the moment at which the
counter came to each number. -/
structure Versioned (σ : Type) where
  past : List σ
  now : σ
  version : Nat
  due : Nat
  since : Nat → Nat

namespace Versioned

def start (s : σ) (version : Nat) : Versioned σ := ⟨[], s, version, 0, fun _ => 0⟩

def moments (v : Versioned σ) : List σ := v.past ++ [v.now]

/-- The index of the present state. -/
def today (v : Versioned σ) : Nat := v.past.length

/-- A change of the store. `watched` says whether a raise of the counter is due for it. -/
def change (v : Versioned σ) (s : σ) (watched : Bool) : Versioned σ :=
  { v with past := v.moments, now := s, due := if watched then v.due + 1 else v.due }

/-- The counter goes up by one, and `due` raises remain. -/
def raise (v : Versioned σ) (due : Nat) : Versioned σ :=
  { v with
    version := v.version + 1
    due := due
    since := fun n => if n = v.version + 1 then v.today else v.since n }

theorem moments_today (v : Versioned σ) : v.moments[v.today]? = some v.now := by
  simp [moments, today]

theorem le_today_of_moments {v : Versioned σ} {i : Nat} {s : σ} (h : v.moments[i]? = some s) :
    i ≤ v.today := by
  obtain ⟨hi, -⟩ := List.getElem?_eq_some_iff.mp h
  rw [moments, length_append] at hi
  exact le_of_lt_succ hi

/-! ## Time passes -/

/-- `v'` is what `v` is or has become. -/
structure Extends (v v' : Versioned σ) : Prop where
  version : v.version ≤ v'.version
  since : ∀ n ≤ v.version, v'.since n = v.since n
  moments : ∀ {i : Nat} {s : σ}, v.moments[i]? = some s → v'.moments[i]? = some s

theorem Extends.refl (v : Versioned σ) : Extends v v := ⟨le_rfl, fun _ _ => rfl, id⟩

theorem extends_change (v : Versioned σ) (s : σ) (watched : Bool) :
    Extends v (v.change s watched) where
  version := le_rfl
  since _ _ := rfl
  moments h := by
    obtain ⟨hi, -⟩ := List.getElem?_eq_some_iff.mp h
    exact (getElem?_append_left hi).trans h

theorem extends_raise (v : Versioned σ) (due : Nat) : Extends v (v.raise due) where
  version := le_succ _
  since _ hn := if_neg (Nat.ne_of_lt (Nat.lt_succ_of_le hn))
  moments := id

/-! ## Claims about moments -/

/-- `P` was true at moment `n` or later. -/
def Sometime (v : Versioned σ) (n : Nat) (P : σ → Prop) : Prop :=
  ∃ i s, n ≤ i ∧ v.moments[i]? = some s ∧ P s

/-- `P` has been true of every state since moment `n`. -/
def Always (v : Versioned σ) (n : Nat) (P : σ → Prop) : Prop :=
  ∀ i s, n ≤ i → v.moments[i]? = some s → P s

/-- `P` was true after the counter had come to `version`: what a reader that loaded it may have
read. -/
def Noted (v : Versioned σ) (version : Nat) (P : σ → Prop) : Prop :=
  version ≤ v.version ∧ v.Sometime (v.since version) P

/-- From the moment at which the counter came to `version` to the moment `n` the readers saw no
difference. -/
def Settled (R : σ → σ → Prop) (v : Versioned σ) (version n : Nat) : Prop :=
  version ≤ v.version ∧ ∃ s, v.moments[n]? = some s ∧
    ∀ i s', v.since version ≤ i → i ≤ n → v.moments[i]? = some s' → R s' s

variable {v v' : Versioned σ} {P : σ → Prop} {R : σ → σ → Prop} {version n : Nat}

theorem Sometime.mono (h : v.Sometime n P) (hv : Extends v v') : v'.Sometime n P := by
  obtain ⟨i, s, hi, hs, hP⟩ := h
  exact ⟨i, s, hi, hv.moments hs, hP⟩

theorem Noted.mono (h : v.Noted version P) (hv : Extends v v') : v'.Noted version P := by
  refine ⟨h.1.trans hv.version, ?_⟩
  rw [hv.since _ h.1]
  exact h.2.mono hv

theorem Settled.le_today (h : v.Settled R version n) : n ≤ v.today := by
  obtain ⟨-, s, hs, -⟩ := h
  exact le_today_of_moments hs

theorem Settled.mono (h : v.Settled R version n) (hv : Extends v v') : v'.Settled R version n := by
  obtain ⟨hle, s, hs, hR⟩ := h
  refine ⟨hle.trans hv.version, s, hv.moments hs, fun i s' hi hin hs' => ?_⟩
  rw [hv.since _ hle] at hi
  -- the moments up to `n` are those of `v`
  obtain ⟨hn, -⟩ := List.getElem?_eq_some_iff.mp hs
  have hi' := getElem?_eq_getElem (lt_of_le_of_lt hin hn)
  have heq : v.moments[i] = s' := Option.some.inj ((hv.moments hi').symm.trans hs')
  exact hR i s' hi hin (heq ▸ hi')

theorem sometime_now (hn : n ≤ v.today) (hP : P v.now) : v.Sometime n P :=
  ⟨v.today, v.now, hn, v.moments_today, hP⟩

/-- What was kept under a settled number was true at the moment `n` or later. -/
theorem Noted.sometime (hP : ∀ {s s'}, R s s' → P s → P s') (h : v.Noted version P)
    (hset : v.Settled R version n) : v.Sometime n P := by
  obtain ⟨-, i, s, hi, hs, hPs⟩ := h
  obtain ⟨-, s', hs', hR⟩ := hset
  rcases le_total n i with hni | hin
  · exact ⟨i, s, hni, hs, hPs⟩
  · exact ⟨n, s', le_rfl, hs', hP (hR i s hi hin hs) hPs⟩

theorem Sometime.now (hP : ∀ {s s'}, R s s' → P s → P s') (h : v.Sometime n P)
    (hsame : v.Always n fun s => R s v.now) : P v.now := by
  obtain ⟨i, s, hi, hs, hPs⟩ := h
  exact hP (hsame i s hi hs) hPs

/-! ## What holds throughout -/

/-- The counter came to its number in the past, and when no raise is due nothing has changed for the
readers since. -/
structure Ok (R : σ → σ → Prop) (v : Versioned σ) : Prop where
  since_le : ∀ n, v.since n ≤ v.today
  same : v.due = 0 → v.Always (v.since v.version) fun s => R s v.now

variable (hrefl : ∀ s, R s s)
include hrefl

theorem always_today (v : Versioned σ) : v.Always v.today fun s => R s v.now := by
  intro i s hi hs
  obtain rfl := le_antisymm hi (le_today_of_moments hs)
  obtain rfl := Option.some.inj (v.moments_today.symm.trans hs)
  exact hrefl _

theorem ok_start (s : σ) (version : Nat) : Ok R (start s version) where
  since_le _ := le_rfl
  same _ := always_today hrefl (start s version)

/-- A state that the readers cannot tell from the present one takes its place. -/
theorem Always.change {s : σ} {watched : Bool}
    (htrans : ∀ {a b c}, R a b → R b c → R a c) (h : v.Always n fun s' => R s' v.now)
    (hs : R v.now s) : (v.change s watched).Always n fun s' => R s' (v.change s watched).now := by
  intro i s' hi hs'
  rcases lt_or_ge i v.moments.length with hlt | hge
  · exact htrans (h i s' hi ((getElem?_append_left hlt).symm.trans hs')) hs
  · exact always_today hrefl (v.change s watched) i s' hge hs'

theorem Ok.change {s : σ} {watched : Bool}
    (htrans : ∀ {a b c}, R a b → R b c → R a c) (h : v.Ok R) (hs : watched = false → R v.now s) :
    (v.change s watched).Ok R where
  since_le n := (h.since_le n).trans (by simp [Versioned.change, today, moments])
  same hdue := by
    cases watched with
    | true => exact absurd hdue (succ_ne_zero _)
    | false => exact (h.same hdue).change hrefl htrans (hs rfl)

theorem Ok.raise (h : v.Ok R) (due : Nat) : (v.raise due).Ok R where
  since_le n := by
    show (if n = v.version + 1 then v.today else v.since n) ≤ v.today
    split
    · exact le_rfl
    · exact h.since_le n
  same _ := by
    have hsince : (v.raise due).since (v.raise due).version = (v.raise due).today := if_pos rfl
    rw [hsince]
    exact always_today hrefl _

omit hrefl

/-- A number loaded while no raise is due is settled. -/
theorem Ok.settled (h : v.Ok R) (hdue : v.due = 0) : v.Settled R v.version v.today :=
  ⟨le_rfl, v.now, v.moments_today, fun i s hi _ hs => h.same hdue i s hi hs⟩

/-- What is read now may be kept under any number loaded before. -/
theorem Ok.noted (h : v.Ok R) (hversion : version ≤ v.version) (hP : P v.now) : v.Noted version P :=
  ⟨hversion, sometime_now (h.since_le _) hP⟩

end Versioned

end VersionTags
