import Mathlib.Data.List.Basic
import Mathlib.Data.Prod.Lex
import Mathlib.Order.WellFounded

/-!
# Matching with wildcards

A pattern is a list of tokens: a letter, any one letter, or any run of letters. The matcher reads
text and pattern from the left and remembers only the last run token it passed, with the place in
the text from which to try again. `run_exact`: this finds a match whenever there is one.
-/

namespace Wildcards

open List Nat

variable {α : Type}

inductive Token (α : Type) where
  | lit (a : α) | one | any
deriving DecidableEq

/-- The words that a token stands for. -/
def Token.Fits : Token α → List α → Prop
  | .lit a, w => w = [a]
  | .one, w => w.length = 1
  | .any, _ => True

/-- The text can be cut into words for the tokens, in order. -/
def Matches : List (Token α) → List α → Prop
  | [], t => t = []
  | k :: p, t => ∃ w t', k.Fits w ∧ Matches p t' ∧ t = w ++ t'

variable {p : List (Token α)} {t : List α} {a : α}

theorem matches_lit {b : α} : Matches (.lit b :: p) (a :: t) ↔ b = a ∧ Matches p t := by
  constructor
  · rintro ⟨w, t', rfl, h, ht⟩
    cases ht
    exact ⟨rfl, h⟩
  · rintro ⟨rfl, h⟩
    exact ⟨[b], t, rfl, h, rfl⟩

theorem matches_one : Matches (.one :: p) (a :: t) ↔ Matches p t := by
  constructor
  · rintro ⟨w, t', hw, h, ht⟩
    obtain ⟨b, rfl⟩ := length_eq_one_iff.mp hw
    cases ht
    exact h
  · intro h
    exact ⟨[a], t, rfl, h, rfl⟩

theorem matches_any : Matches (.any :: p) t ↔ ∃ w t', Matches p t' ∧ t = w ++ t' :=
  exists₂_congr fun _ _ => and_iff_right trivial

/-- The empty text is matched by runs alone. -/
theorem matches_empty : Matches p ([] : List α) ↔ ∀ k ∈ p, k = .any := by
  induction p with
  | nil => simp [Matches]
  | cons k p ih =>
    rw [forall_mem_cons, ← ih]
    constructor
    · rintro ⟨w, t', hw, h, ht⟩
      obtain ⟨rfl, rfl⟩ := append_eq_nil_iff.mp ht.symm
      refine ⟨?_, h⟩
      cases k with
      | any => rfl
      | lit | one => cases hw
    · rintro ⟨rfl, h⟩
      exact ⟨[], [], trivial, h, rfl⟩

/-- Tokens other than runs stand for one letter each. -/
theorem Matches.drop {seg : List (Token α)} (hseg : .any ∉ seg) (h : Matches (seg ++ p) t) :
    ∃ w t', w.length = seg.length ∧ Matches p t' ∧ t = w ++ t' := by
  induction seg generalizing t with
  | nil => exact ⟨[], t, rfl, h, rfl⟩
  | cons k seg ih =>
    obtain ⟨hk, hseg⟩ := not_or.mp (mt mem_cons.mpr hseg)
    obtain ⟨v, t₁, hv, h₁, rfl⟩ := h
    obtain ⟨w, t', hw, h', rfl⟩ := ih hseg h₁
    have hone : v.length = 1 := by
      cases k with
      | lit => rw [show v = [_] from hv]; rfl
      | one => exact hv
      | any => exact absurd rfl hk
    exact ⟨v ++ w, t', by rw [length_append, hone, hw, length_cons, Nat.add_comm], h',
      (append_assoc _ _ _).symm⟩

/-! ## The matcher -/

/-- The rest of the text and of the tokens, and the place to go back to: the text from where the
last run began, and the tokens after the run. -/
structure Cursor (α : Type) where
  text : List α
  tokens : List (Token α)
  back : Option (List α × List (Token α)) := none

def Cursor.retry (c : Cursor α) : Bool ⊕ Cursor α :=
  match c.back with
  | some (_ :: t, p) => .inr ⟨t, p, some (t, p)⟩
  | _ => .inl false

variable [DecidableEq α]

def Cursor.step (c : Cursor α) : Bool ⊕ Cursor α :=
  match c.text, c.tokens with
  | [], p => .inl (p.all (· = .any))
  | a :: t, .any :: p => .inr ⟨a :: t, p, some (a :: t, p)⟩
  | _ :: t, .one :: p => .inr ⟨t, p, c.back⟩
  | a :: t, .lit b :: p => if b = a then .inr ⟨t, p, c.back⟩ else c.retry
  | _ :: _, [] => c.retry

/-- The loop; `none` if it has not ended in so many rounds. -/
def run : Nat → Cursor α → Option Bool
  | 0, _ => none
  | n + 1, c =>
    match c.step with
    | .inl b => some b
    | .inr c' => run n c'

namespace Cursor

/-- Since the last run no other run was passed, and as many tokens as letters. -/
def Ok (c : Cursor α) : Prop :=
  ∀ m p, c.back = some (m, p) → ∃ seg pre, p = seg ++ c.tokens ∧ m = pre ++ c.text ∧
    seg.length = pre.length ∧ .any ∉ seg

/-- The rest matches, or it does after the last run has taken more letters. -/
def Succeeds (c : Cursor α) : Prop :=
  Matches c.tokens c.text ∨
    ∃ m p, c.back = some (m, p) ∧ ∃ w t, w ≠ [] ∧ m = w ++ t ∧ Matches p t

/-- The runs ahead of the last one, the letters ahead of its place, the letters ahead. -/
def rank (c : Cursor α) : ℕ ×ₗ ℕ ×ₗ ℕ :=
  match c.back with
  | some (m, p) => toLex (p.count .any, toLex (m.length, c.text.length))
  | none => toLex (c.tokens.count .any + 1, toLex (0, c.text.length))

theorem lt_last {x y m n : ℕ} (h : m < n) : toLex (x, toLex (y, m)) < toLex (x, toLex (y, n)) :=
  Prod.Lex.toLex_lt_toLex.mpr (.inr ⟨rfl, Prod.Lex.toLex_lt_toLex.mpr (.inr ⟨rfl, h⟩)⟩)

variable {c : Cursor α}

def Good (c : Cursor α) : Bool ⊕ Cursor α → Prop
  | .inl b => b = true ↔ c.Succeeds
  | .inr c' => c'.Ok ∧ (c.Succeeds ↔ c'.Succeeds) ∧ c'.rank < c.rank

variable (h : c.Ok)
include h

theorem good_retry (ht : c.text ≠ []) (hno : ¬Matches c.tokens c.text) : c.Good c.retry := by
  unfold retry
  match hb : c.back with
  | none =>
    refine ⟨nofun, fun hs => ?_⟩
    obtain hm | ⟨m, p, hmp, -⟩ := hs
    · exact absurd hm hno
    · rw [hb] at hmp
      cases hmp
  | some ([], p) =>
    obtain ⟨seg, pre, -, hm, -⟩ := h [] p hb
    exact absurd (append_eq_nil_iff.mp hm.symm).2 ht
  | some (a :: t, p) =>
    refine ⟨?_, ?_, ?_⟩
    · rintro m q ⟨⟩
      exact ⟨[], [], rfl, rfl, rfl, not_mem_nil⟩
    · constructor
      · rintro (hm | ⟨m, q, hmq, w, t', hw, hm, hmatch⟩)
        · exact absurd hm hno
        · cases hb.symm.trans hmq
          obtain ⟨b, w, rfl⟩ := exists_cons_of_ne_nil hw
          obtain ⟨rfl, rfl⟩ := cons.inj hm
          cases w with
          | nil => exact .inl hmatch
          | cons d w => exact .inr ⟨_, _, rfl, d :: w, t', cons_ne_nil _ _, rfl, hmatch⟩
      · rintro (hm | ⟨m, q, ⟨⟩, w, t', hw, rfl, hmatch⟩)
        · exact .inr ⟨_, _, hb, [a], t, cons_ne_nil _ _, rfl, hm⟩
        · exact .inr ⟨_, _, hb, a :: w, t', cons_ne_nil _ _, rfl, hmatch⟩
    · unfold rank
      rw [hb]
      exact Prod.Lex.toLex_lt_toLex.mpr (.inr ⟨rfl, Prod.Lex.toLex_lt_toLex.mpr
        (.inl (lt_succ_self _))⟩)

/-- A token that stands for the next letter is passed with it. -/
theorem good_advance {k : Token α} (ht : c.text = a :: t) (hp : c.tokens = k :: p)
    (hk : k ≠ .any) (hiff : Matches (k :: p) (a :: t) ↔ Matches p t) :
    c.Good (.inr ⟨t, p, c.back⟩) := by
  refine ⟨fun m q hmq => ?_, ?_, ?_⟩
  · obtain ⟨seg, pre, hq, hm, hlen, hseg⟩ := h m q hmq
    rw [hp] at hq
    rw [ht] at hm
    refine ⟨seg ++ [k], pre ++ [a], by simpa using hq, by simpa using hm, by simpa using hlen, ?_⟩
    simpa [hseg] using hk.symm
  · unfold Succeeds
    rw [hp, ht, hiff]
  · unfold rank
    rw [ht, hp]
    have hcount : (k :: p).count .any = p.count .any := count_cons_of_ne hk
    match c.back with
    | none =>
      rw [hcount]
      exact lt_last (lt_succ_self _)
    | some (m, q) => exact lt_last (lt_succ_self _)

/-- A new run takes the place of the old one: where the old one could take more letters, the tokens
between the two end further right, and the new run can take the letters up to there. -/
theorem good_any (hp : c.tokens = .any :: p) : c.Good (.inr ⟨c.text, p, some (c.text, p)⟩) := by
  refine ⟨?_, ?_, ?_⟩
  · rintro m q ⟨⟩
    exact ⟨[], [], rfl, rfl, rfl, not_mem_nil⟩
  · have hnew : (⟨c.text, p, some (c.text, p)⟩ : Cursor α).Succeeds ↔
        Matches (.any :: p) c.text := by
      rw [matches_any]
      constructor
      · rintro (hm | ⟨m, q, ⟨⟩, w, t', -, hm, hmatch⟩)
        · exact ⟨[], _, hm, rfl⟩
        · exact ⟨w, t', hmatch, hm⟩
      · rintro ⟨w, t', hmatch, hm⟩
        cases w with
        | nil => exact .inl (by rwa [show c.text = t' from hm])
        | cons b w => exact .inr ⟨_, _, rfl, b :: w, t', cons_ne_nil _ _, hm, hmatch⟩
    rw [hnew]
    constructor
    · rintro (hm | ⟨m, q, hmq, w, t', hw, hm, hmatch⟩)
      · rwa [hp] at hm
      · obtain ⟨seg, pre, rfl, hm', hlen, hseg⟩ := h m q hmq
        obtain ⟨v, t'', hv, hrest, rfl⟩ := hmatch.drop hseg
        rw [hp, matches_any] at hrest
        obtain ⟨x, y, hy, rfl⟩ := hrest
        have hpre : pre.length ≤ (w ++ v).length := by
          rw [length_append]
          omega
        have hcut := hm'.symm.trans (hm.trans (append_assoc w v (x ++ y)).symm)
        obtain ⟨z, hz⟩ := prefix_of_prefix_length_le (prefix_append pre c.text)
          (hcut ▸ prefix_append (w ++ v) (x ++ y)) hpre
        rw [← hz, append_assoc, append_cancel_left_eq] at hcut
        exact matches_any.mpr ⟨z ++ x, y, hy, by rw [hcut, append_assoc]⟩
    · intro hm
      exact .inl (hp ▸ hm)
  · unfold rank
    match hb : c.back with
    | none =>
      rw [hp]
      exact Prod.Lex.toLex_lt_toLex.mpr (.inl (by simp only [count_cons_self]; omega))
    | some (m, q) =>
      obtain ⟨seg, pre, rfl, -⟩ := h m q hb
      rw [hp]
      exact Prod.Lex.toLex_lt_toLex.mpr (.inl (by simp only [count_append, count_cons_self]; omega))

theorem good_step : c.Good c.step := by
  obtain ⟨t, p, back⟩ := c
  match t, p with
  | [], p =>
    show (p.all (· = .any)) = true ↔ _
    rw [all_eq_true]
    simp only [decide_eq_true_eq]
    rw [← matches_empty]
    refine ⟨.inl, fun hs => ?_⟩
    obtain hm | ⟨m, q, hmq, w, t, hw, rfl, hmatch⟩ := hs
    · exact hm
    · -- The last run has no letters left to take.
      obtain ⟨seg, pre, rfl, hm, hlen, hseg⟩ := h _ q hmq
      obtain ⟨v, t', hv, -, rfl⟩ := hmatch.drop hseg
      have := congrArg List.length hm
      have := length_pos_iff.mpr hw
      simp only [length_append, length_nil] at *
      omega
  | a :: t, .any :: p => exact good_any h rfl
  | a :: t, .one :: p => exact good_advance h rfl rfl nofun matches_one
  | a :: t, .lit b :: p =>
    by_cases hb : b = a
    · simp only [step, if_pos hb]
      exact good_advance h rfl rfl nofun (matches_lit.trans (and_iff_right hb))
    · simp only [step, if_neg hb]
      exact good_retry h (cons_ne_nil a t) fun hm => hb (matches_lit.mp hm).1
  | a :: t, [] => exact good_retry h (cons_ne_nil a t) fun hm => nomatch (hm : a :: t = [])

/-- The loop ends, with the right answer. -/
theorem run_of_ok : ∃ n b, (∀ m, n ≤ m → run m c = some b) ∧ (b = true ↔ c.Succeeds) := by
  induction hr : c.rank using WellFoundedLT.induction generalizing c with
  | _ r ih =>
  have hgood := good_step h
  cases hs : c.step with
  | inl b =>
    rw [hs] at hgood
    refine ⟨1, b, fun m hm => ?_, hgood⟩
    obtain ⟨m, rfl⟩ := Nat.exists_eq_add_of_le' hm
    simp only [run, hs]
  | inr c' =>
    rw [hs] at hgood
    obtain ⟨hok, hiff, hlt⟩ := hgood
    obtain ⟨n, b, hrun, hb⟩ := ih _ (hr ▸ hlt) hok rfl
    refine ⟨n + 1, b, fun m hm => ?_, hb.trans hiff.symm⟩
    obtain ⟨m, rfl⟩ := Nat.exists_eq_add_of_le' (le_of_add_left_le hm)
    simp only [run, hs]
    exact hrun m (le_of_succ_le_succ hm)

end Cursor

theorem run_exact (p : List (Token α)) (t : List α) :
    ∃ n b, (∀ m, n ≤ m → run m ⟨t, p, none⟩ = some b) ∧ (b = true ↔ Matches p t) := by
  obtain ⟨n, b, hrun, hb⟩ := Cursor.run_of_ok (c := ⟨t, p, none⟩) nofun
  refine ⟨n, b, hrun, hb.trans ⟨?_, .inl⟩⟩
  rintro (hm | ⟨m, q, hmq, -⟩)
  · exact hm
  · cases hmq

end Wildcards
