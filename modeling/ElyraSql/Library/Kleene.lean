import Mathlib.Data.List.Basic

/-!
# Kleene's three-valued logic

Truth values as `Option Bool`, `none` being the unknown one, with the connectives and their
versions over a list.
-/

namespace Kleene

open List

def neg (t : Option Bool) : Option Bool := t.map not

def and : Option Bool → Option Bool → Option Bool
  | some false, _ => some false
  | _, some false => some false
  | some true, some true => some true
  | _, _ => none

def or : Option Bool → Option Bool → Option Bool
  | some true, _ => some true
  | _, some true => some true
  | some false, some false => some false
  | _, _ => none

def any (ts : List (Option Bool)) : Option Bool := ts.foldr or (some false)

def all (ts : List (Option Bool)) : Option Bool := ts.foldr and (some true)

variable {ts : List (Option Bool)}

theorem any_eq_true : any ts = some true ↔ some true ∈ ts := by
  induction ts with
  | nil => simp [any]
  | cons t ts ih =>
    rw [any, foldr_cons, ← any, mem_cons, ← ih]
    rcases t with _ | _ | _ <;> rcases any ts with _ | _ | _ <;> simp [or]

theorem any_eq_false : any ts = some false ↔ ∀ t ∈ ts, t = some false := by
  induction ts with
  | nil => simp [any]
  | cons t ts ih =>
    rw [any, foldr_cons, ← any, forall_mem_cons, ← ih]
    rcases t with _ | _ | _ <;> rcases any ts with _ | _ | _ <;> simp [or]

theorem all_eq_true : all ts = some true ↔ ∀ t ∈ ts, t = some true := by
  induction ts with
  | nil => simp [all]
  | cons t ts ih =>
    rw [all, foldr_cons, ← all, forall_mem_cons, ← ih]
    rcases t with _ | _ | _ <;> rcases all ts with _ | _ | _ <;> simp [and]

theorem all_eq_false : all ts = some false ↔ some false ∈ ts := by
  induction ts with
  | nil => simp [all]
  | cons t ts ih =>
    rw [all, foldr_cons, ← all, mem_cons, ← ih]
    rcases t with _ | _ | _ <;> rcases all ts with _ | _ | _ <;> simp [and]

end Kleene
