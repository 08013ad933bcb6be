import ElyraSql.Server.Fill
import ElyraSql.Server.Walk

/-!
# Bound values stay values
-/

namespace ElyraSql.Server

open Tokens Wire List Lexer

theorem tokens_literal (F : Floats) {v : ValueInner} (h : ValueOk v) :
    LiteralForm (tokens (valueToLiteral F v)) ∧
      (Denotes F (tokens (valueToLiteral F v)) v ↔ Renderable v) := by
  obtain ⟨l, hl, hflat, hdenotes⟩ := literalForm F h
  have htokens : tokens (valueToLiteral F v) = l := by
    rw [← hflat]
    exact tokens_flat_iff.mpr hl.canonical
  rw [htokens]
  exact ⟨hl, hdenotes⟩

theorem bound_iff (F : Floats) {sql : List Char} {vs : List ValueInner}
    (hcount : vs.length = countPlaceholders sql) (hok : ∀ v ∈ vs, ValueOk v) :
    Bound F sql vs ↔ Agree sql ∧ (∀ v ∈ vs, Renderable v) ∧
      Apart (fill (tokens sql) (vs.map fun v => tokens (valueToLiteral F v))) := by
  have hforms : ∀ l ∈ vs.map (fun v => tokens (valueToLiteral F v)), LiteralForm l := by
    intro l hl
    obtain ⟨v, hv, rfl⟩ := mem_map.mp hl
    exact (tokens_literal F (hok v hv)).1
  have hdenotes : (∀ v ∈ vs, Denotes F (tokens (valueToLiteral F v)) v) ↔ ∀ v ∈ vs, Renderable v :=
    forall₂_congr fun v hv => (tokens_literal F (hok v hv)).2
  have hbind := @bind_eq sql (vs.map (valueToLiteral F)) (by rwa [length_map])
  have hflat : (vs.map fun v => tokens (valueToLiteral F v)).map lexer.flat =
      vs.map (valueToLiteral F) := by
    rw [map_map]
    exact map_congr_left fun v _ => flat_tokens _
  have hcanon : lexer.Canonical (fill (tokens sql) _) ↔ Apart (fill (tokens sql) _) :=
    canonical_fill (lexer.canonical_tokens sql) hforms
  have hfill := flat_fill (tokens sql) (vs.map fun v => tokens (valueToLiteral F v))
  rw [hflat] at hfill
  constructor
  · rintro ⟨out, hout, hplaces, htokens, hdn⟩
    rw [hbind] at hout
    cases hout
    -- the literals are where the lexical rules have the placeholders
    have hsame : substitute (scan sql) (vs.map (valueToLiteral F)) =
        substitute (pieces (tokens sql)) (vs.map (valueToLiteral F)) := by
      rw [← hfill, ← htokens]
      exact (flat_tokens _).symm
    have hagree : scan sql = pieces (tokens sql) := by
      refine substitute_inj ?_ ?_ ?_ ?_ hsame
      · rw [scan, erase_scanFrom, erase_pieces]
        exact (flat_tokens sql).symm
      · intro l hl
        obtain ⟨v, hv, rfl⟩ := mem_map.mp hl
        obtain ⟨a, l', c, w, -, -, hfl, -, hc⟩ := (tokens_literal F (hok v hv)).1.head
        have htext : lexer.flat (tokens (valueToLiteral F v)) = valueToLiteral F v := flat_tokens _
        exact ⟨c, w, htext ▸ hfl, isLiteralHead_ne hc (by decide)⟩
      · rw [length_map, hcount]
        rfl
      · rw [length_map, count_pieces, hplaces]
    refine ⟨hagree, hdenotes.mp hdn, hcanon.mp ?_⟩
    rw [← htokens]
    exact lexer.canonical_tokens _
  · rintro ⟨hagree, hrender, hapart⟩
    refine ⟨_, hbind, ?_, ?_, hdenotes.mpr hrender⟩
    · rw [← count_pieces, ← hagree, hcount]
      rfl
    · rw [hagree, ← hfill]
      exact tokens_flat_iff.mpr (hcanon.mpr hapart)

/-- A bound statement keeps its tokens and has a literal of the bound value for every placeholder
exactly when the walk and the lexical rules find the same placeholders, no value is a NaN, an
infinity or has a million microseconds, and no literal runs together with its neighbours. The walk
follows the lexical rules on every statement without a carriage return within a line comment, a
comment that begins with `/*/`, and dashes before whitespace that is not ASCII. -/
theorem bind_safe (F : Floats) {sql : List Char} {vs : List ValueInner}
    (hcount : vs.length = countPlaceholders sql) (hok : ∀ v ∈ vs, ValueOk v) :
    (Bound F sql vs ↔ Agree sql ∧ (∀ v ∈ vs, Renderable v) ∧
      Apart (fill (tokens sql) (vs.map fun v => tokens (valueToLiteral F v)))) ∧
    (plain (tokens sql) = true → Agree sql) :=
  ⟨bound_iff F hcount hok, agree_of_plain⟩

/-- Floats that are written as the numbers of their bits. -/
def bitFloats : Floats where
  toStr bits := if isFinite bits then Nat.toDigits 10 bits else ['N', 'a', 'N']
  parse w := if w.all Char.isDigit then some (Nat.ofDigitChars 10 w 0) else none
  finite := by
    intro bits _ hfin
    have hdigits : (Nat.toDigits 10 bits).all Char.isDigit = true :=
      all_eq_true.mpr (isDigit_toDigits bits)
    refine ⟨Nat.toDigits 10 bits, .inl (if_pos hfin), Nat.toDigits_ne_nil,
      fun c hc => .inl (isDigit_toDigits bits c hc), ?_⟩
    rw [if_pos hfin, if_pos hdigits, Nat.ofDigitChars_ten_toDigits]
  other := fun _ hfin => .inl (if_neg (by rw [hfin]; exact Bool.false_ne_true))

theorem bind_safe_two :
    Bound bitFloats "a = ? AND b = ?".toList [.int (-5), .bytes (encodeUtf8 "x'y".toList)] := by
  have hlit : valueToLiteral bitFloats (.bytes (encodeUtf8 "x'y".toList)) = "'x''y'".toList := by
    decide
  refine (bind_safe bitFloats (by decide) ?_).1.mpr ⟨by decide, ?_, ?_⟩
  · simp [ValueOk]
  · simp [Renderable]
  · decide

/-- The text `\nDROP`, bound after a carriage return in a comment, ends the comment. -/
theorem bind_in_comment :
    let v : ValueInner := .bytes (encodeUtf8 "\nDROP".toList)
    countPlaceholders "# \r?\n".toList = 1 ∧
    (∃ out, bind "# \r?\n".toList [valueToLiteral bitFloats v] = .ok out ∧
      ⟨.word, "DROP".toList⟩ ∈ tokens out) ∧
    ¬ Bound bitFloats "# \r?\n".toList [v] := by
  have hlit : valueToLiteral bitFloats (.bytes (encodeUtf8 "\nDROP".toList)) =
      "'\nDROP'".toList := by
    decide
  refine ⟨by decide, ⟨"# \r'\nDROP'\n".toList, ?_, by decide⟩, fun hbound => ?_⟩
  · decide
  · have hagree := ((bound_iff bitFloats (by decide) (by simp [ValueOk])).mp hbound).1
    exact absurd hagree (by decide)

end ElyraSql.Server
