/-!
# Programs that only read

A program asks questions and computes a result, or fails, from the answers; it never writes.
`eval` answers every question at once, from one store. `Follows` is the other way to run a
program: its questions are answered one at a time, each at a moment of its own, and the answers
are kept in a trace.
-/

namespace ReadProgram

open List

theorem except_bind_ok {ε α β : Type} {x : Except ε α} {f : α → Except ε β} {b : β}
    (h : (x >>= f) = .ok b) : ∃ a, x = .ok a ∧ f a = .ok b := by
  cases x with
  | error e => exact nomatch h
  | ok a => exact ⟨a, rfl, h⟩

theorem except_map_ok {ε α β : Type} {x : Except ε α} {f : α → β} {b : β}
    (h : x.map f = .ok b) : ∃ a, x = .ok a ∧ f a = b := by
  cases x with
  | error e => exact nomatch h
  | ok a => exact ⟨a, rfl, Except.ok.inj h⟩

/-- A program with questions `Q`, answers `R` and errors `E`. -/
inductive Prog (Q : Type) (R : Q → Type) (E α : Type) : Type
  | pure (a : α) : Prog Q R E α
  | fail (e : E) : Prog Q R E α
  | ask (q : Q) (k : R q → Prog Q R E α) : Prog Q R E α

namespace Prog

variable {Q : Type} {R : Q → Type} {E α β : Type}

/-- Run `f` on the result. -/
def bind : Prog Q R E α → (α → Prog Q R E β) → Prog Q R E β
  | .pure a, f => f a
  | .fail e, _ => .fail e
  | .ask q k, f => .ask q fun r => (k r).bind f

instance : Monad (Prog Q R E) where
  pure := .pure
  bind := bind

def query (q : Q) : Prog Q R E (R q) := .ask q .pure

/-- A result that was computed without reading. -/
def lift : Except E α → Prog Q R E α
  | .ok a => .pure a
  | .error e => .fail e

/-- Run `f` on the members of a list in turn. -/
def mapList (f : α → Prog Q R E β) : List α → Prog Q R E (List β)
  | [] => .pure []
  | a :: as => (f a).bind fun b => (mapList f as).bind fun bs => .pure (b :: bs)

/-- The result on a store that gives the answers `ans`. -/
def eval (ans : (q : Q) → R q) : Prog Q R E α → Except E α
  | .pure a => .ok a
  | .fail e => .error e
  | .ask q k => (k (ans q)).eval ans

variable {ans : (q : Q) → R q}

@[simp] theorem eval_pure (a : α) : (Pure.pure a : Prog Q R E α).eval ans = .ok a := rfl

@[simp] theorem eval_ask (q : Q) (k : R q → Prog Q R E α) :
    (Prog.ask q k).eval ans = (k (ans q)).eval ans := rfl

@[simp] theorem eval_lift (x : Except E α) : (lift x : Prog Q R E α).eval ans = x := by
  cases x <;> rfl

theorem eval_bind (p : Prog Q R E α) (f : α → Prog Q R E β) :
    (p >>= f).eval ans = (p.eval ans).bind fun a => (f a).eval ans := by
  induction p with
  | pure a => rfl
  | fail e => rfl
  | ask q k ih => exact ih (ans q)

/-- What follows both branches follows the choice. -/
theorem ite_bind (c : Prop) [Decidable c] (p q : Prog Q R E α) (f : α → Prog Q R E β) :
    (if c then p >>= f else q >>= f) = (if c then p else q) >>= f := by
  split <;> rfl

theorem eval_bind_ok {p : Prog Q R E α} {f : α → Prog Q R E β} {b : β} :
    (p >>= f).eval ans = .ok b ↔ ∃ a, p.eval ans = .ok a ∧ (f a).eval ans = .ok b := by
  rw [eval_bind]
  cases p.eval ans with
  | error e => exact iff_of_false nofun nofun
  | ok a => exact ⟨fun h => ⟨a, rfl, h⟩, fun ⟨_, ha, h⟩ => by cases ha; exact h⟩

end Prog

/-! ## Answers at different moments -/

variable {Q : Type} {R : Q → Type} {E α : Type}

/-- `p` has been given the answers of the trace, in order, and `p'` is left to run. -/
inductive Follows (p : Prog Q R E α) : List (Sigma R) → Prog Q R E α → Prop
  | start : Follows p [] p
  | answer {trace : List (Sigma R)} {q : Q} {k : R q → Prog Q R E α} (r : R q) :
      Follows p trace (.ask q k) → Follows p (trace ++ [⟨q, r⟩]) (k r)

/-- Every answer of the trace is the one given now. -/
def Current (ans : (q : Q) → R q) (trace : List (Sigma R)) : Prop :=
  ∀ e ∈ trace, ans e.1 = e.2

instance [∀ q, DecidableEq (R q)] (ans : (q : Q) → R q) (trace : List (Sigma R)) :
    Decidable (Current ans trace) :=
  inferInstanceAs (Decidable (∀ e ∈ trace, ans e.1 = e.2))

/-- With current answers, what is left to run decides the result of the whole program. -/
theorem Follows.eval_eq {p p' : Prog Q R E α} {trace : List (Sigma R)} (h : Follows p trace p')
    {ans : (q : Q) → R q} (hc : Current ans trace) : p.eval ans = p'.eval ans := by
  induction h with
  | start => rfl
  | answer r _ ih =>
    rw [ih fun e he => hc e (mem_append_left _ he), Prog.eval_ask]
    rw [hc _ (mem_append_right _ mem_cons_self)]

/-! ## What a program asks -/

namespace Prog

variable {β : Type}

/-- As long as the answers satisfy `G`, every question satisfies `A` and the result `P`. -/
def Safe (A : Q → Prop) (G : (q : Q) → R q → Prop) (P : α → Prop) : Prog Q R E α → Prop
  | .pure a => P a
  | .fail _ => True
  | .ask q k => A q ∧ ∀ r, G q r → (k r).Safe A G P

variable {A : Q → Prop} {G : (q : Q) → R q → Prop} {P : α → Prop}

theorem safe_pure {a : α} (h : P a) : (Pure.pure a : Prog Q R E α).Safe A G P := h

theorem safe_query {q : Q} (h : A q) : (query q : Prog Q R E (R q)).Safe A G (G q) :=
  ⟨h, fun _ hr => hr⟩

theorem safe_lift {x : Except E α} (h : ∀ a, x = .ok a → P a) :
    (lift x : Prog Q R E α).Safe A G P := by
  cases x with
  | ok a => exact h a rfl
  | error e => trivial

theorem Safe.bind {p : Prog Q R E α} {f : α → Prog Q R E β} {P' : β → Prop} (h : p.Safe A G P)
    (hf : ∀ a, P a → (f a).Safe A G P') : (p >>= f).Safe A G P' := by
  induction p with
  | pure a => exact hf a h
  | fail e => trivial
  | ask q k ih => exact ⟨h.1, fun r hr => ih r (h.2 r hr)⟩

theorem safe_lift_bind {x : Except E α} {f : α → Prog Q R E β} {P' : β → Prop}
    (h : ∀ a, x = .ok a → (f a).Safe A G P') : (lift x >>= f).Safe A G P' :=
  Safe.bind (safe_lift h) fun _ h => h

/-- Fewer answers to reckon with, and less to show of the questions and of the result. -/
theorem Safe.mono {p : Prog Q R E α} {A' : Q → Prop} {G' : (q : Q) → R q → Prop} {P' : α → Prop}
    (h : p.Safe A G P) (hA : ∀ q, A q → A' q) (hG : ∀ q r, G' q r → G q r)
    (hP : ∀ a, P a → P' a) : p.Safe A' G' P' := by
  induction p with
  | pure a => exact hP a h
  | fail e => trivial
  | ask q k ih => exact ⟨hA q h.1, fun r hr => ih r (h.2 r (hG q r hr))⟩

theorem Safe.imp {p : Prog Q R E α} {P' : α → Prop} (h : p.Safe A G P) (hP : ∀ a, P a → P' a) :
    p.Safe A G P' :=
  h.mono (fun _ hq => hq) (fun _ _ hr => hr) hP

theorem safe_mapList {f : α → Prog Q R E β} (P' : β → Prop) {l : List α}
    (h : ∀ a ∈ l, (f a).Safe A G P') : (mapList f l).Safe A G fun bs => ∀ b ∈ bs, P' b := by
  induction l with
  | nil => exact fun b hb => nomatch hb
  | cons a l ih =>
    obtain ⟨ha, hl⟩ := forall_mem_cons.mp h
    refine Safe.bind (p := f a) ha fun b hb => ?_
    refine Safe.bind (p := mapList f l) (ih hl) fun bs hbs => ?_
    exact forall_mem_cons.mpr ⟨hb, hbs⟩

end Prog

end ReadProgram
