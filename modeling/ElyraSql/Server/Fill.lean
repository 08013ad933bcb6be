import ElyraSql.Server.Bind

/-!
# Literals and their neighbours

The tokens of a statement with literals in place of the placeholders, and whether they are the
tokens of their text: a literal can run together with what stands before or after it.
-/

namespace ElyraSql.Server

open Tokens List Option Lexer Bool

/-- The first character of a token tells words and strings from the others. -/
theorem Taken.head {t : Token} {r : List Char} (h : Taken t r) : ∃ c w, t.text = c :: w ∧
    isWordChar c = (t.kind == .word || t.kind == .hex) ∧ (c == '\'') = (t.kind == .single) := by
  cases h with
  | @quoted kind q b r hq h =>
    refine ⟨q, b, rfl, ?_, ?_⟩
    · cases kind <;> cases hq <;> rfl
    · cases kind <;> cases hq <;> rfl
  | @line c b r hopen h =>
    have hc : c = '#' ∨ c = '-' := by
      rw [opensLine_eq] at hopen
      simp only [or_eq_true, and_eq_true, beq_iff_eq] at hopen
      exact hopen.imp id fun h => h.1.1
    refine ⟨c, b, rfl, ?_, ?_⟩ <;> rcases hc with rfl | rfl <;> rfl
  | block h => exact ⟨'/', _, rfl, rfl, rfl⟩
  | @hex x b r hx h => refine ⟨x, _, rfl, ?_, ?_⟩ <;> rcases hx with rfl | rfl <;> rfl
  | @word c w r hall hstop hhex =>
    have hc := hall c mem_cons_self
    refine ⟨c, w, rfl, by rw [hc]; rfl, ?_⟩
    rw [beq_eq_false_iff_ne.mpr]
    · rfl
    · rintro rfl
      exact absurd hc (by decide)
  | @code c r hplain =>
    simp only [plainBefore, not_eq_true', or_eq_false_iff] at hplain
    exact ⟨c, [], rfl, hplain.2, hplain.1.1.1.1.1.1⟩

/-- Words and strings run into the text of a token exactly when they join with it. -/
theorem runsInto_eq_joins {t u : Token} {r s : List Char} (hu : Taken u r)
    (ht : t.kind = .word ∨ t.kind = .single ∨ t.kind = .hex) :
    runsInto t (u.text ++ s) = joins t u := by
  obtain ⟨c, w, htext, hword, hquote⟩ := hu.head
  rw [htext, cons_append]
  rcases ht with hk | hk | hk
  · simp only [runsInto, joins, hk, head?_cons, any_some, opensHex, some_beq_some, hword, hquote]
  · simp only [runsInto, joins, hk, head?_cons, some_beq_some, hquote]
  · simp only [runsInto, joins, hk, head?_cons, some_beq_some, hquote]

/-- The characters that literals begin with. -/
def isLiteralHead (c : Char) : Bool := isWordChar c || c == '\'' || c == '-'

theorem isLiteralHead_ne {c d : Char} (hc : isLiteralHead c = true) (hd : isLiteralHead d = false) :
    c ≠ d := by
  rintro rfl
  rw [hd] at hc
  exact nomatch hc

theorem isAsciiWhitespace_of_head {c : Char} (hc : isLiteralHead c = true) :
    isAsciiWhitespace c = false := by
  rw [eq_false_iff]
  intro hw
  simp only [isAsciiWhitespace, or_eq_true, beq_iff_eq] at hw
  rcases hw with (((rfl | rfl) | rfl) | rfl) | rfl <;> exact absurd hc (by decide)

variable {l : List Token}

/-- The first token of a literal, and its first character. -/
theorem LiteralForm.head (h : LiteralForm l) : ∃ a l' c w, l = a :: l' ∧
    (∃ r, Taken a r) ∧ lexer.flat l = c :: w ∧ a.text.head? = some c ∧ isLiteralHead c = true := by
  cases h with
  | @word c w hall hx =>
    have hc : isLiteralHead c = true := by simp [isLiteralHead, hall c mem_cons_self]
    exact ⟨_, _, c, w, rfl, ⟨[], taken_word hall hx rfl⟩, by simp [lexer], rfl, hc⟩
  | @signed c w hall hx =>
    exact ⟨_, _, '-', c :: w, rfl, ⟨_, taken_minus (w := []) (hall c mem_cons_self) []⟩,
      by simp [lexer, minus], rfl, by decide⟩
  | text cs =>
    exact ⟨_, _, '\'', _, rfl, ⟨[], taken_text cs (by simp)⟩, by rfl, rfl, by decide⟩
  | @hex b hb => exact ⟨_, _, 'x', _, rfl, ⟨[], taken_hex hb (by simp)⟩, by rfl, rfl, by decide⟩

/-- A literal after a dash opens no comment. -/
theorem LiteralForm.opensLine (h : LiteralForm l) (c : Char) (s : List Char) :
    opensLine c (lexer.flat l ++ s) = false := by
  rw [opensLine_eq]
  cases h with
  | @signed d w hall hx =>
    have hd : isLiteralHead d = true := by simp [isLiteralHead, hall d mem_cons_self]
    have hflat : lexer.flat [minus, ⟨.word, d :: w⟩] ++ s = '-' :: d :: (w ++ s) := by
      simp [lexer, minus]
    rw [hflat, tail_cons, head?_cons, head?_cons, all_some,
      isAsciiWhitespace_of_head hd, Bool.and_false]
  | @word d w hall hx =>
    have hd : d ≠ '-' := by
      rintro rfl
      exact absurd (hall _ mem_cons_self) (by decide)
    simp [lexer, hd]
  | text cs => simp [lexer, quoteText]
  | @hex b hb => simp [lexer]

section Fill

variable {t : Token} {ts : List Token} {ls : List (List Token)}

@[simp] theorem fill_nil (ts : List Token) : fill ts [] = ts := by
  cases ts <;> rfl

theorem fill_placeholder (ts : List Token) (l : List Token) (ls : List (List Token)) :
    fill (placeholder :: ts) (l :: ls) = l ++ fill ts ls := by
  rw [fill, if_pos rfl]

theorem fill_cons (h : t = placeholder → ls = []) (ts : List Token) :
    fill (t :: ts) ls = t :: fill ts ls := by
  cases ls with
  | nil => simp
  | cons l ls => rw [fill, if_neg fun ht => by cases h ht]

theorem fill_cases (t : Token) (ls : List (List Token)) :
    (t = placeholder ∧ ∃ l ls', ls = l :: ls') ∨ (t = placeholder → ls = []) := by
  by_cases ht : t = placeholder
  · cases ls with
    | nil => exact .inr fun _ => rfl
    | cons l ls' => exact .inl ⟨ht, l, ls', rfl⟩
  · exact .inr fun h => absurd h ht

/-- The tokens of a literal end before a text exactly when the last of them does not run into it. -/
theorem canonical_literal (h : LiteralForm l) {x : Token} (hx : l.getLast? = some x)
    (us : List Token) :
    lexer.Canonical (l ++ us) ↔ runsInto x (lexer.flat us) = false ∧ lexer.Canonical us := by
  have hlast := h.last_ends hx (lexer.flat us)
  cases h with
  | word hall hxx =>
    cases hx
    exact and_congr_left fun _ => hlast
  | @signed c w hall hxx =>
    cases hx
    have hminus := taken_minus (w := w) (hall c mem_cons_self) (lexer.flat us)
    refine ⟨fun hc => ⟨hlast.mp hc.2.1, hc.2.2⟩, fun hc => ⟨?_, hlast.mpr hc.1, hc.2⟩⟩
    exact ends_iff_taken.mpr hminus
  | text cs | hex hb =>
    cases hx
    exact and_congr_left fun _ => hlast

theorem apart_cons (t : Token) (us : List Token) :
    Apart (t :: us) ↔ us.head?.any (joins t) = false ∧ Apart us := by
  rw [Apart, isChain_cons]
  refine and_congr_left fun _ => ?_
  cases us.head? <;> simp

theorem apart_literal (h : LiteralForm l) {x : Token} (hx : l.getLast? = some x) (us : List Token) :
    Apart (l ++ us) ↔ us.head?.any (joins x) = false ∧ Apart us := by
  cases h with
  | word | text | hex =>
    cases hx
    exact apart_cons _ _
  | signed hall hxx =>
    cases hx
    rw [cons_append, ← apart_cons, Apart, isChain_cons]
    exact and_iff_right fun y _ => rfl

theorem LiteralForm.last (h : LiteralForm l) : ∃ x, l.getLast? = some x ∧
    (x.kind = .word ∨ x.kind = .single ∨ x.kind = .hex) := by
  cases h with
  | word | signed => exact ⟨_, rfl, .inl rfl⟩
  | text => exact ⟨_, rfl, .inr (.inl rfl)⟩
  | hex => exact ⟨_, rfl, .inr (.inr rfl)⟩

variable (hts : lexer.Canonical ts) (hls : ∀ l ∈ ls, LiteralForm l)

include hts hls

theorem head_fill {u : Token} (hu : (fill ts ls).head? = some u) :
    (∃ r, Taken u r) ∧ ∃ s, lexer.flat (fill ts ls) = u.text ++ s := by
  cases ts with
  | nil => exact nomatch hu
  | cons t ts =>
    rcases fill_cases t ls with ⟨rfl, l, ls', rfl⟩ | hkeep
    · obtain ⟨a, l', c, w, rfl, htaken, -⟩ := (hls l mem_cons_self).head
      obtain rfl : a = u := some.inj hu
      exact ⟨htaken, lexer.flat (l' ++ fill ts ls'), rfl⟩
    · rw [fill_cons hkeep] at hu ⊢
      obtain rfl : t = u := some.inj hu
      exact ⟨⟨_, ends_iff_taken.mp hts.1⟩, _, flat_cons _ _⟩

/-- The first character after filling is the one before, or one that a literal begins with. -/
theorem head_flat_fill : (lexer.flat (fill ts ls)).head? = (lexer.flat ts).head? ∨
      ∃ c, (lexer.flat (fill ts ls)).head? = some c ∧ isLiteralHead c = true := by
  cases ts with
  | nil => exact .inl rfl
  | cons t ts =>
    rcases fill_cases t ls with ⟨rfl, l, ls', rfl⟩ | hkeep
    · obtain ⟨a, l', c, w, -, -, hflat, -, hc⟩ := (hls l mem_cons_self).head
      refine .inr ⟨c, ?_, hc⟩
      rw [fill_placeholder, flat_append, hflat]
      rfl
    · obtain ⟨c, w, htext, -⟩ := (ends_iff_taken.mp hts.1).head
      refine .inl ?_
      have hfirst : lexer.text t = c :: w := htext
      rw [fill_cons hkeep, flat_cons, flat_cons, hfirst]
      rfl

/-- A single character that opens nothing still opens nothing. -/
theorem opensLine_fill {c : Char} (h : opensLine c (lexer.flat ts) = false) (hne : ts ≠ []) :
    opensLine c (lexer.flat (fill ts ls)) = false := by
  cases ts with
  | nil => exact absurd rfl hne
  | cons u ts =>
    rcases fill_cases u ls with ⟨rfl, l, ls', rfl⟩ | hkeep
    · rw [fill_placeholder, flat_append]
      exact (hls l mem_cons_self).opensLine c _
    · obtain ⟨d, w, htext, -⟩ := (ends_iff_taken.mp hts.1).head
      have hfirst : lexer.text u = d :: w := htext
      rw [flat_cons, hfirst] at h
      rw [fill_cons hkeep, flat_cons, hfirst]
      rw [opensLine_eq] at h ⊢
      cases w with
      | cons e w => exact h
      | nil =>
        -- the second character is the first one of the next token
        simp only [cons_append, nil_append, tail_cons] at h ⊢
        rcases head_flat_fill hts.2 hls with heq | ⟨e, heq, he⟩
        · rwa [heq]
        · rw [heq, all_some, isAsciiWhitespace_of_head he, Bool.and_false]

theorem opensBlock_fill {c : Char} (h : opensBlock c (lexer.flat ts) = false) :
    opensBlock c (lexer.flat (fill ts ls)) = false := by
  rw [opensBlock_eq] at h ⊢
  rcases head_flat_fill hts hls with heq | ⟨e, heq, he⟩
  · rwa [heq]
  · rw [heq, some_beq_some, beq_eq_false_iff_ne.mpr (isLiteralHead_ne he (by decide)),
      Bool.and_false]

/-- Words and strings run into what follows them exactly when they join with its first token. -/
theorem runsInto_fill_word (hk : t.kind = .word ∨ t.kind = .single ∨ t.kind = .hex) :
    runsInto t (lexer.flat (fill ts ls)) = (fill ts ls).head?.any (joins t) := by
  cases hu : (fill ts ls).head? with
  | none =>
    rw [head?_eq_none_iff.mp hu]
    rcases hk with hk | hk | hk
    · simp [runsInto, hk, opensHex]
    · simp [runsInto, hk]
    · simp [runsInto, hk]
  | some u =>
    obtain ⟨⟨r, htaken⟩, s, hflat⟩ := head_fill hts hls hu
    rw [hflat]
    exact runsInto_eq_joins htaken hk

/-- A token runs into what follows it after filling exactly when it joins with its first token. -/
theorem runsInto_fill (hne : ts ≠ []) (h : runsInto t (lexer.flat ts) = false) :
    runsInto t (lexer.flat (fill ts ls)) = (fill ts ls).head?.any (joins t) := by
  have hjoins : t.kind ≠ .word → t.kind ≠ .single → t.kind ≠ .hex →
      (fill ts ls).head?.any (joins t) = false := by
    intro h1 h2 h3
    have hnone : ∀ u, joins t u = false := by
      intro u
      unfold joins
      split
      · exact absurd ‹_› h1
      · exact absurd ‹_› h2
      · exact absurd ‹_› h3
      · rfl
    cases (fill ts ls).head? with
    | none => rfl
    | some u => exact hnone u
  have hquote : ∀ q : Char, isLiteralHead q = false → (lexer.flat ts).head? ≠ some q →
      (lexer.flat (fill ts ls)).head? ≠ some q := by
    intro q hq hts'
    rcases head_flat_fill hts hls with heq | ⟨e, heq, he⟩
    · rwa [heq]
    · rw [heq, ne_eq, some.injEq]
      exact isLiteralHead_ne he hq
  cases hk : t.kind with
  | word => exact runsInto_fill_word hts hls (.inl hk)
  | single => exact runsInto_fill_word hts hls (.inr (.inl hk))
  | hex => exact runsInto_fill_word hts hls (.inr (.inr hk))
  | double | back =>
    rw [hjoins (by simp [hk]) (by simp [hk]) (by simp [hk])]
    simp only [runsInto, hk, beq_eq_false_iff_ne] at h ⊢
    exact hquote _ (by decide) h
  | line | block =>
    rw [hjoins (by simp [hk]) (by simp [hk]) (by simp [hk])]
    simp [runsInto, hk]
  | code =>
    rw [hjoins (by simp [hk]) (by simp [hk]) (by simp [hk])]
    simp only [runsInto, hk] at h ⊢
    cases hc : t.text.head? with
    | none => rfl
    | some c =>
      rw [hc, any_some, or_eq_false_iff] at h
      rw [any_some, opensLine_fill hts hls h.1 hne, opensBlock_fill hts hls h.2]
      rfl

/-- The filled tokens are those of their text exactly when none of them run together. -/
theorem canonical_fill : lexer.Canonical (fill ts ls) ↔ Apart (fill ts ls) := by
  induction ts generalizing ls with
  | nil => exact ⟨fun _ => List.IsChain.nil, fun _ => trivial⟩
  | cons t ts ih =>
    rcases fill_cases t ls with ⟨rfl, l, ls', rfl⟩ | hkeep
    · have hl := hls l mem_cons_self
      have hls' : ∀ x ∈ ls', LiteralForm x := fun x hx => hls x (mem_cons_of_mem _ hx)
      obtain ⟨x, hx, hk⟩ := hl.last
      rw [fill_placeholder, canonical_literal hl hx, apart_literal hl hx, ih hts.2 hls',
        runsInto_fill_word hts.2 hls' hk]
    · rw [fill_cons hkeep, apart_cons, Lexer.Canonical, ih hts.2 hls]
      refine and_congr_left fun _ => ?_
      cases hempty : ts with
      | nil =>
        rw [hempty] at hts
        exact ⟨fun _ => rfl, fun _ => hts.1⟩
      | cons u us =>
        have hne : ts ≠ [] := by rw [hempty]; exact cons_ne_nil _ _
        rw [← hempty]
        have hflat : lexer.flat ts ≠ [] := by
          rw [hempty]
          rw [hempty] at hts
          exact append_ne_nil_of_left_ne_nil (lexer.text_ne_nil hts.2.1) _
        rw [ends_iff hts.1 hflat, runsInto_fill hts.2 hls hne ((ends_iff hts.1 hflat).mp hts.1)]

end Fill

end ElyraSql.Server
