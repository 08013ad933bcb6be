import ElyraSql.Server.Bind

/-!
# The walk and the lexical rules

The walk of `elyra-server/src/prepared.rs` token by token. It differs from the lexical rules where a
carriage return stands in a line comment, where a comment begins with `/*/`, and where two dashes
stand before whitespace that is not ASCII.
-/

namespace ElyraSql.Server

open Tokens List

/-- A carriage return in a line comment is followed by the end of the line or of the text. -/
def returnsOk : List Char → Bool
  | [] => true
  | c :: b => if c == '\r' then b == [] || b == ['\n'] else returnsOk b

/-- The walk ends the token where it ends, given the text after it. -/
def plainToken (t : Token) (r : List Char) : Bool :=
  match t.kind with
  | .line => returnsOk t.text
  | .block => t.text[2]? != some '/'
  | .code => !(t.text == ['-'] && r.head? == some '-' && r.tail.head?.all isWhitespace)
  | _ => true

/-- The tokens on which the walk follows the lexical rules: no carriage return within a line
comment, no comment that would end with its first star, and no dashes before whitespace that is not
ASCII. -/
def plain : List Token → Bool
  | [] => true
  | t :: ts => plainToken t (lexer.flat ts) && plain ts

variable {state : Q} {c q : Char} {prev : Option Char} {rest : List Char}

theorem scanFrom_cons {state' : Q} {escaped escaped' place : Bool}
    (h : scanStep state escaped prev c rest = (state', escaped', place)) :
    scanFrom state escaped prev (c :: rest) =
      (if place then none else some c) :: scanFrom state' escaped' (some c) rest := by
  rw [scanFrom, h]

theorem scanStep_quoted (hq : state.quote = some q) {escaped : Bool} :
    scanStep state escaped prev c rest =
      if escaped then (state, false, false)
      else if c == '\\' && q != backtick then (state, true, false)
      else if c == q then (.none, false, false)
      else (state, false, false) := by
  have hback : (state != .back) = (q != backtick) := by
    cases state <;> cases hq <;> decide
  have hstep : scanStep state escaped prev c rest =
      if escaped then (state, false, false)
      else if c == '\\' && state != .back then (state, true, false)
      else if some c == state.quote then (.none, false, false)
      else (state, false, false) := by
    cases state <;> cases hq <;> rfl
  rw [hstep, hback, hq, Option.some_beq_some]

/-- A quote opens what it ends. -/
theorem scanStep_open (hq : state.quote = some q) :
    scanStep .none false prev q rest = (state, false, false) := by
  cases state <;> cases hq <;> rfl

/-- The walk leaves a string where it ends; a doubled quote ends it and opens it again. -/
theorem scanFrom_quoted (hq : state.quote = some q) (s : List Char) (prev : Option Char) :
    ∃ prev', scanFrom state false prev s =
      (spanQuoted q s).1.map some ++ scanFrom .none false prev' (spanQuoted q s).2 := by
  fun_induction spanQuoted q s generalizing prev with
  | case1 => exact ⟨prev, rfl⟩
  | case2 c =>
    refine ⟨some c, ?_⟩
    have hplace : (scanStep state false prev c []).2.2 = false := by
      rw [scanStep_quoted hq]
      split_ifs <;> rfl
    have hstep : scanStep state false prev c [] = (_, _, false) :=
      Prod.ext rfl (Prod.ext rfl hplace)
    rw [scanFrom_cons hstep]
    rfl
  | case3 c d rest h b r heq ih =>
    obtain ⟨prev', hrest⟩ := ih (some d)
    refine ⟨prev', ?_⟩
    rw [heq] at hrest
    by_cases hesc : (c == '\\' && q != backtick) = true
    · have h1 : scanStep state false prev c (d :: rest) = (state, true, false) := by
        rw [scanStep_quoted hq, if_neg Bool.false_ne_true, if_pos hesc]
      have h2 : scanStep state true (some c) d rest = (state, false, false) := by
        rw [scanStep_quoted hq, if_pos rfl]
      rw [scanFrom_cons h1, scanFrom_cons h2, hrest]
      rfl
    · have hboth : (c == q && d == q) = true := by
        rw [Bool.or_eq_true] at h
        exact h.resolve_left hesc
      rw [Bool.and_eq_true] at hboth
      have h1 : scanStep state false prev c (d :: rest) = (.none, false, false) := by
        rw [scanStep_quoted hq, if_neg Bool.false_ne_true, if_neg hesc, if_pos hboth.1]
      have h2 : scanStep .none false (some c) d rest = (state, false, false) := by
        rw [eq_of_beq hboth.2]
        exact scanStep_open hq
      rw [scanFrom_cons h1, scanFrom_cons h2, hrest]
      rfl
  | case4 c d rest h hc =>
    rw [Bool.or_eq_true, not_or] at h
    have hstep : scanStep state false prev c (d :: rest) = (.none, false, false) := by
      rw [scanStep_quoted hq, if_neg Bool.false_ne_true, if_neg h.1, if_pos hc]
    exact ⟨some c, scanFrom_cons hstep⟩
  | case5 c d rest h hc b r heq ih =>
    rw [Bool.or_eq_true, not_or] at h
    obtain ⟨prev', hrest⟩ := ih (some c)
    have hstep : scanStep state false prev c (d :: rest) = (state, false, false) := by
      rw [scanStep_quoted hq, if_neg Bool.false_ne_true, if_neg h.1, if_neg hc]
    refine ⟨prev', ?_⟩
    rw [heq] at hrest
    rw [scanFrom_cons hstep, hrest]
    rfl

theorem scanFrom_line {s : List Char} (h : returnsOk (spanLine s).1 = true) (prev : Option Char) :
    ∃ prev', scanFrom .lineComment false prev s =
      (spanLine s).1.map some ++ scanFrom .none false prev' (spanLine s).2 := by
  fun_induction spanLine s generalizing prev with
  | case1 => exact ⟨prev, rfl⟩
  | case2 c rest hc =>
    have hstep : scanStep .lineComment false prev c rest = (.none, false, false) := by
      simp only [scanStep, hc, Bool.true_or, if_true]
    exact ⟨some c, scanFrom_cons hstep⟩
  | case3 c rest hc b r heq ih =>
    rw [heq] at ih
    rw [returnsOk] at h
    split_ifs at h with hr
    · -- after the carriage return comes the end of the line or of the text
      have happ := spanLine_append rest
      rw [heq] at happ
      have hstep : scanStep .lineComment false prev c rest = (.none, false, false) := by
        simp only [scanStep, hr, Bool.or_true, if_true]
      rw [scanFrom_cons hstep]
      simp only [Bool.or_eq_true, beq_iff_eq] at h
      rcases h with rfl | rfl
      · exact ⟨some c, by rw [← happ]; rfl⟩
      · refine ⟨some '\n', ?_⟩
        rw [← happ]
        rfl
    · have hstep : scanStep .lineComment false prev c rest = (.lineComment, false, false) := by
        simp only [scanStep, hc, hr, Bool.or_self, Bool.false_eq_true, if_false]
      obtain ⟨prev', hrest⟩ := ih h (some c)
      exact ⟨prev', by rw [scanFrom_cons hstep, hrest]; rfl⟩

theorem scanFrom_block {s : List Char} {p : Char} (h : ¬ (p = '*' ∧ s.head? = some '/')) :
    ∃ prev', scanFrom .blockComment false (some p) s =
      (spanBlock s).1.map some ++ scanFrom .none false prev' (spanBlock s).2 := by
  have hstay : ∀ {p c : Char} (rest : List Char), ¬ (p = '*' ∧ c = '/') →
      scanStep .blockComment false (some p) c rest = (.blockComment, false, false) := by
    intro p c rest hne
    have : (c == '/' && some p == some '*') = false := by
      rw [Bool.eq_false_iff]
      simp only [Option.some_beq_some, ne_eq, Bool.and_eq_true, beq_iff_eq]
      exact fun hboth => hne ⟨hboth.2, hboth.1⟩
    simp only [scanStep, this, Bool.false_eq_true, if_false]
  fun_induction spanBlock s generalizing p with
  | case1 => exact ⟨some p, rfl⟩
  | case2 c =>
    have hne : ¬ (p = '*' ∧ c = '/') := by simpa using h
    exact ⟨some c, by rfl⟩
  | case3 c d rest hend =>
    have hne : ¬ (p = '*' ∧ c = '/') := by simpa using h
    simp only [Bool.and_eq_true, beq_iff_eq] at hend
    have hlast : scanStep .blockComment false (some c) d rest = (.none, false, false) := by
      rw [hend.1, hend.2]
      rfl
    exact ⟨some d, by rw [scanFrom_cons (hstay _ hne), scanFrom_cons hlast]; rfl⟩
  | case4 c d rest hend b r heq ih =>
    have hne : ¬ (p = '*' ∧ c = '/') := by simpa using h
    have hnext : ¬ (c = '*' ∧ (d :: rest).head? = some '/') := by simpa using hend
    obtain ⟨prev', hrest⟩ := ih hnext
    rw [heq] at hrest
    exact ⟨prev', by rw [scanFrom_cons (hstay _ hne), hrest]; rfl⟩

theorem scanStep_word (hc : isWordChar c = true) :
    scanStep .none false prev c rest = (.none, false, false) := by
  have hne : ∀ d : Char, isWordChar d = false → (c == d) = false := by
    intro d hd
    rw [beq_eq_false_iff_ne]
    rintro rfl
    rw [hd] at hc
    exact nomatch hc
  simp only [scanStep, hne '\'' (by decide), hne '"' (by decide), hne backtick (by decide),
    hne '#' (by decide), hne '-' (by decide), hne '/' (by decide), hne '?' (by decide),
    Bool.false_and,
    Bool.false_eq_true, if_false]

theorem scanFrom_word {w : List Char} (hw : ∀ c ∈ w, isWordChar c = true) (r : List Char)
    (prev : Option Char) : ∃ prev', scanFrom .none false prev (w ++ r) =
      w.map some ++ scanFrom .none false prev' r := by
  induction w generalizing prev with
  | nil => exact ⟨prev, rfl⟩
  | cons c w ih =>
    obtain ⟨prev', hrest⟩ := ih (fun d hd => hw d (mem_cons_of_mem _ hd)) (some c)
    refine ⟨prev', ?_⟩
    rw [cons_append, scanFrom_cons (scanStep_word (hw c mem_cons_self)), hrest]
    rfl

theorem isWhitespace_of_ascii (h : isAsciiWhitespace c = true) : isWhitespace c = true := by
  simp only [isAsciiWhitespace, Bool.or_eq_true, beq_iff_eq] at h
  rcases h with (((rfl | rfl) | rfl) | rfl) | rfl <;> decide

/-- A comment to the end of the line opens for the walk too. -/
theorem scanStep_line (h : (c == '#' || opensLine c rest) = true) :
    scanStep .none false prev c rest = (.lineComment, false, false) := by
  by_cases hhash : c = '#'
  · subst hhash
    rfl
  · rw [opensLine_eq, beq_eq_false_iff_ne.mpr hhash, Bool.false_or] at h
    simp only [Bool.and_eq_true, beq_iff_eq] at h
    obtain ⟨⟨rfl, hdash⟩, hspace⟩ := h
    have hspace' : rest.tail.head?.all isWhitespace = true := by
      cases hh : rest.tail.head? with
      | none => rfl
      | some d =>
        rw [hh] at hspace
        exact isWhitespace_of_ascii hspace
    simp only [scanStep, hdash, hspace']
    rfl

/-- A single character of the code is emitted, or is a placeholder. -/
theorem scanStep_code {r : List Char} (h : plainBefore c r = true)
    (hplain : plainToken ⟨.code, [c]⟩ r = true) :
    scanStep .none false prev c r = (.none, false, c == '?') := by
  simp only [plainBefore, Bool.not_eq_true', Bool.or_eq_false_iff] at h
  obtain ⟨⟨⟨⟨⟨⟨h1, h2⟩, h3⟩, h4⟩, -⟩, h6⟩, -⟩ := h
  rw [opensBlock_eq] at h6
  have hdash : (c == '-' && r.head? == some '-' && r.tail.head?.all isWhitespace) = false := by
    have hsingle : ([c] == ['-']) = (c == '-') := by simp
    simpa only [plainToken, hsingle, Bool.not_eq_true'] using hplain
  simp only [scanStep, h1, h2, h3, h4, h6, hdash]
  cases c == '?' <;> rfl

/-- The walk at the start of a token. -/
theorem scanFrom_token {t : Token} {r : List Char} (h : Taken t r) (hplain : plainToken t r = true)
    (prev : Option Char) : ∃ prev', scanFrom .none false prev (t.text ++ r) =
      (if t = placeholder then [none] else t.text.map some) ++ scanFrom .none false prev' r := by
  have hkeep : t.kind ≠ .code → (if t = placeholder then [none] else t.text.map some) =
      t.text.map some :=
    fun hk => if_neg fun ht => hk (by rw [ht]; rfl)
  cases h with
  | @quoted kind q b r hq h =>
    obtain ⟨state, hstate⟩ : ∃ state : Q, state.quote = some q := by
      cases kind <;> cases hq
      · exact ⟨.single, rfl⟩
      · exact ⟨.double, rfl⟩
      · exact ⟨.back, rfl⟩
    obtain ⟨prev', hrest⟩ := scanFrom_quoted hstate (b ++ r) (some q)
    rw [h] at hrest
    refine ⟨prev', ?_⟩
    rw [hkeep (by cases kind <;> cases hq <;> simp), cons_append,
      scanFrom_cons (scanStep_open hstate), hrest]
    rfl
  | @line c b r hopen h =>
    have hreturns : returnsOk (spanLine (b ++ r)).1 = true := by
      rw [h]
      have hc : (c == '\r') = false := by
        rw [beq_eq_false_iff_ne]
        rintro rfl
        exact nomatch hopen
      simpa only [plainToken, returnsOk, hc, Bool.false_eq_true, if_false] using hplain
    obtain ⟨prev', hrest⟩ := scanFrom_line hreturns (some c)
    rw [h] at hrest
    refine ⟨prev', ?_⟩
    rw [cons_append, scanFrom_cons (scanStep_line hopen), hrest]
    rfl
  | @block b r h =>
    have hfirst : ¬ ('*' = '*' ∧ (b ++ r).head? = some '/') := by
      rintro ⟨-, hslash⟩
      have hb : b ≠ [] := by
        rintro rfl
        cases r with
        | nil => exact nomatch hslash
        | cons d r =>
          obtain ⟨b', hb'⟩ := spanBlock_head d r
          rw [nil_append] at h
          rw [h] at hb'
          exact nomatch hb'
      obtain ⟨d, b', rfl⟩ := exists_cons_of_ne_nil hb
      rw [cons_append, head?_cons] at hslash
      simp [plainToken, hslash] at hplain
    obtain ⟨prev', hrest⟩ := scanFrom_block hfirst
    rw [h] at hrest
    refine ⟨prev', ?_⟩
    have h1 : scanStep .none false prev '/' ('*' :: (b ++ r)) = (.blockComment, false, false) := rfl
    have h2 : scanStep .blockComment false (some '/') '*' (b ++ r) =
        (.blockComment, false, false) := rfl
    rw [cons_append, cons_append, scanFrom_cons h1, scanFrom_cons h2, hrest]
    rfl
  | @hex x b r hx h =>
    have hword : isWordChar x = true := by rcases hx with rfl | rfl <;> decide
    have hsingle : Q.single.quote = some '\'' := rfl
    obtain ⟨prev', hrest⟩ := scanFrom_quoted hsingle (b ++ r) (some '\'')
    rw [h] at hrest
    refine ⟨prev', ?_⟩
    rw [cons_append, cons_append, scanFrom_cons (scanStep_word hword),
      scanFrom_cons (scanStep_open hsingle),
      hrest]
    rfl
  | @word c w r hall hstop hhex =>
    obtain ⟨prev', hrest⟩ := scanFrom_word hall r prev
    exact ⟨prev', by rw [hkeep (by simp), hrest]⟩
  | @code c r hbefore =>
    refine ⟨some c, ?_⟩
    rw [singleton_append, scanFrom_cons (scanStep_code hbefore hplain)]
    by_cases hc : c = '?'
    · subst hc
      rfl
    · have hne : (⟨.code, [c]⟩ : Token) ≠ placeholder := by
        intro heq
        cases heq
        exact hc rfl
      rw [if_neg hne, beq_eq_false_iff_ne.mpr hc]
      rfl

/-- The walk follows the lexical rules on such tokens. -/
theorem agree_of_plain {sql : List Char} (h : plain (tokens sql) = true) : Agree sql := by
  have hrun : ∀ (ts : List Token) (prev : Option Char), lexer.Canonical ts → plain ts = true →
      scanFrom .none false prev (lexer.flat ts) = pieces ts := by
    intro ts
    induction ts with
    | nil => exact fun _ _ _ => rfl
    | cons t ts ih =>
      intro prev hts hplain
      rw [plain, Bool.and_eq_true] at hplain
      obtain ⟨prev', hrest⟩ := scanFrom_token (ends_iff_taken.mp hts.1) hplain.1 prev
      rw [pieces, flatMap_cons, ← pieces, ← ih prev' hts.2 hplain.2]
      exact hrest
  have hsql := hrun (tokens sql) none (lexer.canonical_tokens sql) h
  have hflat : lexer.flat (tokens sql) = sql := Lexer.flat_tokens sql
  rwa [hflat] at hsql

end ElyraSql.Server
