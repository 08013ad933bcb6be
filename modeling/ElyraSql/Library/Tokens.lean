import Mathlib.Tactic

/-!
# Token sequences

A lexer takes a token off the front of a text. The tokens of a text are unique, and a sequence of
tokens is the one of its text exactly when each of them, with the text of those after it, is the
token that the lexer takes. So a change to a sequence of tokens is a change to the tokens of its
text if every token still ends where it did.
-/

namespace Tokens

open List

variable {α τ : Type}

/-- A lexer: the text of a token, and the token at the front of a text. -/
structure Lexer (α τ : Type) where
  text : τ → List α
  next : List α → Option (τ × List α)
  text_ne_nil : ∀ {s t r}, next s = some (t, r) → text t ≠ []
  text_append : ∀ {s t r}, next s = some (t, r) → text t ++ r = s
  next_nil : next [] = none
  next_isSome : ∀ {s}, s ≠ [] → (next s).isSome

namespace Lexer

variable (L : Lexer α τ)

def flat (ts : List τ) : List α := ts.flatMap L.text

/-- The tokens of a text, at most `fuel` of them. -/
def tokensOf : Nat → List α → List τ
  | 0, _ => []
  | fuel + 1, s =>
    match L.next s with
    | none => []
    | some (t, r) => t :: tokensOf fuel r

def tokens (s : List α) : List τ := L.tokensOf s.length s

/-- The token ends before the text. -/
def Ends (t : τ) (r : List α) : Prop := L.next (L.text t ++ r) = some (t, r)

/-- Every token ends where the next one begins. -/
def Canonical : List τ → Prop
  | [] => True
  | t :: ts => L.Ends t (L.flat ts) ∧ Canonical ts

variable {L} {fuel : Nat}

@[simp] theorem flat_nil : L.flat [] = [] := rfl

@[simp] theorem flat_cons (t : τ) (ts : List τ) : L.flat (t :: ts) = L.text t ++ L.flat ts :=
  flatMap_cons

@[simp] theorem flat_append (ts us : List τ) : L.flat (ts ++ us) = L.flat ts ++ L.flat us :=
  flatMap_append

theorem flat_tokensOf {s : List α} (h : s.length ≤ fuel) : L.flat (L.tokensOf fuel s) = s := by
  induction fuel generalizing s with
  | zero => rw [eq_nil_of_length_eq_zero (Nat.le_zero.mp h)]; rfl
  | succ fuel ih =>
    by_cases hs : s = []
    · rw [hs, tokensOf, L.next_nil]
      rfl
    · obtain ⟨⟨t, r⟩, hnext⟩ := Option.isSome_iff_exists.mp (L.next_isSome hs)
      have htext := L.text_append hnext
      have hpos := length_pos_iff.mpr (L.text_ne_nil hnext)
      have hlen : r.length ≤ fuel := by
        rw [← htext, length_append] at h
        omega
      rw [tokensOf, hnext]
      rw [flat_cons, ih hlen, htext]

@[simp] theorem flat_tokens (s : List α) : L.flat (L.tokens s) = s := flat_tokensOf le_rfl

theorem canonical_tokensOf {s : List α} (h : s.length ≤ fuel) :
    L.Canonical (L.tokensOf fuel s) := by
  induction fuel generalizing s with
  | zero => exact trivial
  | succ fuel ih =>
    rw [tokensOf]
    cases hnext : L.next s with
    | none => exact trivial
    | some tr =>
      obtain ⟨t, r⟩ := tr
      have htext := L.text_append hnext
      have hpos := length_pos_iff.mpr (L.text_ne_nil hnext)
      have hlen : r.length ≤ fuel := by
        rw [← htext, length_append] at h
        omega
      refine ⟨?_, ih hlen⟩
      rw [Ends, flat_tokensOf hlen, htext, hnext]

theorem canonical_tokens (s : List α) : L.Canonical (L.tokens s) := canonical_tokensOf le_rfl

theorem Canonical.tokensOf {ts : List τ} (h : L.Canonical ts) (hfuel : (L.flat ts).length ≤ fuel) :
    L.tokensOf fuel (L.flat ts) = ts := by
  induction ts generalizing fuel with
  | nil =>
    cases fuel with
    | zero => rfl
    | succ fuel => rw [flat_nil, Lexer.tokensOf, L.next_nil]
  | cons t ts ih =>
    have hpos := length_pos_iff.mpr (L.text_ne_nil h.1)
    rw [flat_cons, length_append] at hfuel
    obtain ⟨fuel, rfl⟩ := Nat.exists_eq_add_one_of_ne_zero (n := fuel) (by omega)
    rw [flat_cons, Lexer.tokensOf, h.1]
    dsimp only
    rw [ih h.2 (by omega)]

theorem tokens_flat_iff {ts : List τ} : L.tokens (L.flat ts) = ts ↔ L.Canonical ts :=
  ⟨fun h => h ▸ canonical_tokens _, fun h => h.tokensOf le_rfl⟩

end Lexer

end Tokens
