import ElyraSql.Library.Tokens

/-!
# The lexical rules of statements

The rules that `elyra-engine/src/sqllex.rs` documents, as a lexer: strings, quoted identifiers and
the three forms of comments, and in the code between them words, hexadecimal literals and single
characters.
-/

namespace ElyraSql.Server

open Tokens List

/-! ## Rules -/

def isAsciiWhitespace (c : Char) : Bool :=
  c == ' ' || c == '\t' || c == '\n' || c == '\x0c' || c == '\r'

def backtick : Char := '\x60'

/-- The characters of names and numbers. Every character beyond ASCII can stand in a name. -/
def isWordChar (c : Char) : Bool :=
  c.isAlphanum || c == '_' || c == '$' || c == '@' || c == '.' || 128 ≤ c.toNat

inductive Kind
  | single | double | back | hex | line | block | word | code
  deriving DecidableEq, Repr

/-- A token: strings, quoted identifiers and comments with their delimiters, words, hexadecimal
literals and the other characters of the code. -/
structure Token where
  kind : Kind
  text : List Char
  deriving DecidableEq, Repr

/-- The rest of a string or quoted identifier, with its closing quote. A backslash escapes the next
character except in an identifier, and a doubled quote does not close. -/
def spanQuoted (q : Char) : List Char → List Char × List Char
  | [] => ([], [])
  | [c] => ([c], [])
  | c :: d :: rest =>
    if (c == '\\' && q != backtick) || (c == q && d == q) then
      let (b, r) := spanQuoted q rest
      (c :: d :: b, r)
    else if c == q then ([c], d :: rest)
    else
      let (b, r) := spanQuoted q (d :: rest)
      (c :: b, r)

def spanLine : List Char → List Char × List Char
  | [] => ([], [])
  | c :: rest =>
    if c == '\n' then ([c], rest)
    else
      let (b, r) := spanLine rest
      (c :: b, r)

/-- The rest of a comment that ends with its delimiter. -/
def spanBlock : List Char → List Char × List Char
  | [] => ([], [])
  | [c] => ([c], [])
  | c :: d :: rest =>
    if c == '*' && d == '/' then ([c, d], rest)
    else
      let (b, r) := spanBlock (d :: rest)
      (c :: b, r)

/-- A comment begins: two dashes, then whitespace or the end. -/
def opensLine : Char → List Char → Bool
  | '-', '-' :: r => r.head?.all isAsciiWhitespace
  | _, _ => false

def opensBlock : Char → List Char → Bool
  | '/', '*' :: _ => true
  | _, _ => false

/-- The word is the mark of a hexadecimal literal, and a string follows. -/
def opensHex (w r : List Char) : Bool := (w == ['x'] || w == ['X']) && r.head? == some '\''

/-- A token of a kind whose first characters are known, with the rest of it. -/
def spanned (kind : Kind) (first : List Char) (span : List Char × List Char) :
    Option (Token × List Char) := some (⟨kind, first ++ span.1⟩, span.2)

/-- A word, or a hexadecimal literal. -/
def nextWord (w r : List Char) : Option (Token × List Char) :=
  if opensHex w r then spanned .hex (w ++ ['\'']) (spanQuoted '\'' r.tail) else some (⟨.word, w⟩, r)

def next : List Char → Option (Token × List Char)
  | [] => none
  | c :: rest =>
    if c == '\'' then spanned .single [c] (spanQuoted c rest)
    else if c == '"' then spanned .double [c] (spanQuoted c rest)
    else if c == backtick then spanned .back [c] (spanQuoted c rest)
    else if c == '#' || opensLine c rest then spanned .line [c] (spanLine rest)
    else if opensBlock c rest then spanned .block [c, '*'] (spanBlock rest.tail)
    else if isWordChar c then nextWord (c :: rest.takeWhile isWordChar) (rest.dropWhile isWordChar)
    else some (⟨.code, [c]⟩, rest)

variable (q : Char)

theorem spanQuoted_append (s : List Char) : (spanQuoted q s).1 ++ (spanQuoted q s).2 = s := by
  fun_induction spanQuoted q s with
  | case1 => rfl
  | case2 => rfl
  | case3 c d rest h b r heq ih => simpa [heq] using ih
  | case4 c d rest h hq => rfl
  | case5 c d rest h hq b r heq ih => simpa [heq] using ih

theorem spanLine_append (s : List Char) : (spanLine s).1 ++ (spanLine s).2 = s := by
  fun_induction spanLine s with
  | case1 => rfl
  | case2 c rest h => rfl
  | case3 c rest h b r heq ih => simpa [heq] using ih

theorem spanBlock_append (s : List Char) : (spanBlock s).1 ++ (spanBlock s).2 = s := by
  fun_induction spanBlock s with
  | case1 => rfl
  | case2 => rfl
  | case3 c d rest h => rfl
  | case4 c d rest h b r heq ih => simpa [heq] using ih

theorem opensBlock_rest {c : Char} {rest : List Char} (h : opensBlock c rest = true) :
    c = '/' ∧ rest = '*' :: rest.tail := by
  unfold opensBlock at h
  split at h
  · exact ⟨rfl, rfl⟩
  · exact nomatch h

variable {r w : List Char}

theorem opensHex_rest (h : opensHex w r = true) : r = '\'' :: r.tail := by
  rw [opensHex, Bool.and_eq_true, beq_iff_eq] at h
  cases r with
  | nil => exact nomatch h.2
  | cons c r => rw [head?_cons, Option.some.injEq] at h; rw [h.2]; rfl

variable {s : List Char} {t : Token}

theorem nextWord_append (hw : w ≠ []) (h : nextWord w s = some (t, r)) :
    t.text ++ r = w ++ s ∧ t.text ≠ [] := by
  unfold nextWord at h
  split_ifs at h with hhex
  · cases h
    refine ⟨?_, by simp⟩
    rw [append_assoc, spanQuoted_append, append_assoc, singleton_append, ← opensHex_rest hhex]
  · cases h
    exact ⟨rfl, hw⟩

theorem next_append (h : next s = some (t, r)) : t.text ++ r = s ∧ t.text ≠ [] := by
  unfold next at h
  split at h
  · exact nomatch h
  case h_2 c rest =>
    split_ifs at h with h1 h2 h3 h4 h5 h6
    · cases h
      exact ⟨by simp [spanQuoted_append], by simp⟩
    · cases h
      exact ⟨by simp [spanQuoted_append], by simp⟩
    · cases h
      exact ⟨by simp [spanQuoted_append], by simp⟩
    · cases h
      exact ⟨by simp [spanLine_append], by simp⟩
    · cases h
      refine ⟨?_, by simp⟩
      have hrest := (opensBlock_rest h5).2
      rw [append_assoc, spanBlock_append]
      exact congrArg (c :: ·) hrest.symm
    · obtain ⟨happ, hne⟩ := nextWord_append (cons_ne_nil _ _) h
      rw [cons_append, takeWhile_append_dropWhile] at happ
      exact ⟨happ, hne⟩
    · cases h
      exact ⟨rfl, by simp⟩

theorem next_isSome (h : s ≠ []) : (next s).isSome := by
  cases s with
  | nil => exact absurd rfl h
  | cons c rest =>
    rw [next, nextWord]
    split_ifs <;> rfl

theorem opensLine_eq (c : Char) (rest : List Char) :
    opensLine c rest =
      (c == '-' && rest.head? == some '-' && rest.tail.head?.all isAsciiWhitespace) := by
  unfold opensLine
  split
  · rfl
  · rename_i hne
    cases rest with
    | nil => simp
    | cons d rest =>
      by_cases hc : c = '-'
      · by_cases hd : d = '-'
        · subst hc hd
          exact absurd rfl (hne rest rfl)
        · simp [hd]
      · simp [hc]

theorem opensBlock_eq (c : Char) (rest : List Char) :
    opensBlock c rest = (c == '/' && rest.head? == some '*') := by
  unfold opensBlock
  split
  · rfl
  · rename_i hne
    cases rest with
    | nil => simp
    | cons d rest =>
      by_cases hc : c = '/'
      · by_cases hd : d = '*'
        · subst hc hd
          exact absurd rfl (hne rest rfl)
        · simp [hd]
      · simp [hc]

def lexer : Lexer Char Token where
  text := Token.text
  next := next
  text_ne_nil h := (next_append h).2
  text_append h := (next_append h).1
  next_nil := rfl
  next_isSome := next_isSome

def tokens (sql : List Char) : List Token := lexer.tokens sql

example : (tokens "a-- b\n'c''d'\\".toList).map Token.kind =
    [.word, .line, .single, .code] := by decide

/-! ## Where a token ends -/

/-- What follows a closing quote is no such quote. -/
theorem spanQuoted_rest (s : List Char) : (spanQuoted q s).2.head? ≠ some q := by
  fun_induction spanQuoted q s with
  | case1 => exact nofun
  | case2 => exact nofun
  | case3 c d rest h b r heq ih => simpa [heq] using ih
  | case4 c d rest h hc =>
    intro hd
    simp only [head?_cons, Option.some.injEq] at hd
    simp [hc, hd] at h
  | case5 c d rest h hc b r heq ih => simpa [heq] using ih

theorem spanQuoted_head (c : Char) (s : List Char) : ∃ b, (spanQuoted q (c :: s)).1 = c :: b := by
  cases s with
  | nil => exact ⟨[], rfl⟩
  | cons d s =>
    rw [spanQuoted]
    split_ifs <;> exact ⟨_, rfl⟩

theorem spanBlock_head (c : Char) (s : List Char) : ∃ b, (spanBlock (c :: s)).1 = c :: b := by
  cases s with
  | nil => exact ⟨[], rfl⟩
  | cons d s =>
    rw [spanBlock]
    split_ifs <;> exact ⟨_, rfl⟩

/-- A string that is closed is closed before any text that does not begin with its quote. -/
theorem spanQuoted_closed {q : Char} (hs : (spanQuoted q s).2 ≠ []) (hr : r.head? ≠ some q) :
    spanQuoted q ((spanQuoted q s).1 ++ r) = ((spanQuoted q s).1, r) := by
  fun_induction spanQuoted q s with
  | case1 | case2 => exact absurd rfl hs
  | case3 c d rest h b r' heq ih =>
    rw [heq] at ih
    rw [cons_append, cons_append, spanQuoted, if_pos h, ih hs]
  | case4 c d rest h hc =>
    cases r with
    | nil => rfl
    | cons e r =>
      have he : (e == q) = false := by
        simpa using hr
      have hesc : (c == '\\' && q != backtick) = false := by
        rw [Bool.or_eq_true, not_or] at h
        exact Bool.eq_false_iff.mpr h.1
      rw [singleton_append, spanQuoted, hesc, he, Bool.and_false, Bool.or_false,
        if_neg Bool.false_ne_true, if_pos hc]
  | case5 c d rest h hc b r' heq ih =>
    rw [heq] at ih
    obtain ⟨b', hb⟩ := spanQuoted_head q d rest
    rw [heq] at hb
    obtain rfl : b = d :: b' := hb
    rw [cons_append, cons_append, spanQuoted, if_neg h, if_neg hc, ← cons_append, ih hs]

theorem spanLine_closed (hs : (spanLine s).2 ≠ []) (r : List Char) :
    spanLine ((spanLine s).1 ++ r) = ((spanLine s).1, r) := by
  fun_induction spanLine s with
  | case1 => exact absurd rfl hs
  | case2 c rest h => rw [singleton_append, spanLine, if_pos h]
  | case3 c rest h b r' heq ih =>
    rw [heq] at ih
    rw [cons_append, spanLine, if_neg h, ih hs]

theorem spanBlock_closed (hs : (spanBlock s).2 ≠ []) (r : List Char) :
    spanBlock ((spanBlock s).1 ++ r) = ((spanBlock s).1, r) := by
  fun_induction spanBlock s with
  | case1 | case2 => exact absurd rfl hs
  | case3 c d rest h => rw [cons_append, singleton_append, spanBlock, if_pos h]
  | case4 c d rest h b r' heq ih =>
    rw [heq] at ih
    obtain ⟨b', hb⟩ := spanBlock_head d rest
    rw [heq] at hb
    obtain rfl : b = d :: b' := hb
    rw [cons_append, cons_append, spanBlock, if_neg h, ← cons_append, ih hs]

def Kind.quote : Kind → Option Char
  | .single => some '\''
  | .double => some '"'
  | .back => some backtick
  | _ => none

/-- The character opens nothing before the text. -/
def plainBefore (c : Char) (r : List Char) : Bool :=
  !(c == '\'' || c == '"' || c == backtick || c == '#' || opensLine c r || opensBlock c r ||
    isWordChar c)

/-- How a token is taken off the front of a text, with what is left. -/
inductive Taken : Token → List Char → Prop
  | quoted {kind : Kind} {q : Char} {b r : List Char} (hq : kind.quote = some q)
    (h : spanQuoted q (b ++ r) = (b, r)) : Taken ⟨kind, q :: b⟩ r
  | line {c : Char} {b r : List Char} (hopen : (c == '#' || opensLine c (b ++ r)) = true)
    (h : spanLine (b ++ r) = (b, r)) : Taken ⟨.line, c :: b⟩ r
  | block {b r : List Char} (h : spanBlock (b ++ r) = (b, r)) : Taken ⟨.block, '/' :: '*' :: b⟩ r
  | hex {x : Char} {b r : List Char} (hx : x = 'x' ∨ x = 'X')
    (h : spanQuoted '\'' (b ++ r) = (b, r)) : Taken ⟨.hex, x :: '\'' :: b⟩ r
  | word {c : Char} {w r : List Char} (hall : ∀ d ∈ c :: w, isWordChar d = true)
    (hstop : r.head?.any isWordChar = false) (hhex : opensHex (c :: w) r = false) :
    Taken ⟨.word, c :: w⟩ r
  | code {c : Char} {r : List Char} (hplain : plainBefore c r = true) : Taken ⟨.code, [c]⟩ r

theorem spanQuoted_eq (s : List Char) :
    spanQuoted q ((spanQuoted q s).1 ++ (spanQuoted q s).2) =
      ((spanQuoted q s).1, (spanQuoted q s).2) := by
  rw [spanQuoted_append]

theorem taken_of_next (h : next s = some (t, r)) : Taken t r := by
  unfold next at h
  split at h
  · exact nomatch h
  case h_2 c rest =>
    split_ifs at h with h1 h2 h3 h4 h5 h6
    · cases h
      obtain rfl := eq_of_beq h1
      exact .quoted rfl (spanQuoted_eq _ _)
    · cases h
      obtain rfl := eq_of_beq h2
      exact .quoted rfl (spanQuoted_eq _ _)
    · cases h
      obtain rfl := eq_of_beq h3
      exact .quoted rfl (spanQuoted_eq _ _)
    · cases h
      exact .line (b := (spanLine rest).1) (by rwa [spanLine_append]) (by rw [spanLine_append])
    · cases h
      obtain ⟨rfl, -⟩ := opensBlock_rest h5
      exact .block (b := (spanBlock rest.tail).1) (by rw [spanBlock_append])
    · unfold nextWord at h
      split_ifs at h with hhex
      · have hx := hhex
        rw [opensHex, Bool.and_eq_true, Bool.or_eq_true, beq_iff_eq, beq_iff_eq] at hx
        cases h
        rcases hx.1 with hw | hw
        · rw [hw]
          exact .hex (.inl rfl) (spanQuoted_eq _ _)
        · rw [hw]
          exact .hex (.inr rfl) (spanQuoted_eq _ _)
      · cases h
        refine .word (fun d hd => ?_) ?_ (Bool.eq_false_iff.mpr hhex)
        · rcases mem_cons.mp hd with rfl | hd
          · exact h6
          · exact all_eq_true.mp all_takeWhile d hd
        · have := head?_dropWhile_not isWordChar rest
          revert this
          cases (rest.dropWhile isWordChar).head? <;> simp
    · cases h
      refine .code ?_
      simp only [plainBefore]
      simp_all

theorem next_word {c : Char} (hc : isWordChar c = true) (rest : List Char) :
    next (c :: rest) = nextWord (c :: rest.takeWhile isWordChar) (rest.dropWhile isWordChar) := by
  have hne : ∀ d : Char, isWordChar d = false → ¬ (c == d) = true := by
    intro d hd heq
    rw [eq_of_beq heq, hd] at hc
    exact nomatch hc
  have hline : opensLine c rest = false := by
    rw [opensLine_eq, Bool.eq_false_iff.mpr (hne '-' (by decide))]
    rfl
  have hblock : opensBlock c rest = false := by
    rw [opensBlock_eq, Bool.eq_false_iff.mpr (hne '/' (by decide))]
    rfl
  rw [next, if_neg (hne _ (by decide)), if_neg (hne _ (by decide)),
    if_neg (hne _ (by decide)), hline,
    Bool.or_false, if_neg (hne _ (by decide)), hblock, if_neg Bool.false_ne_true, if_pos hc]

theorem takeWhile_word (hall : ∀ d ∈ w, isWordChar d = true)
    (hstop : r.head?.any isWordChar = false) :
    (w ++ r).takeWhile isWordChar = w ∧ (w ++ r).dropWhile isWordChar = r := by
  have hr : r.takeWhile isWordChar = [] ∧ r.dropWhile isWordChar = r := by
    cases r with
    | nil => exact ⟨rfl, rfl⟩
    | cons d r =>
      have hd : isWordChar d = false := by simpa using hstop
      simp [hd]
  rw [takeWhile_append_of_pos hall, dropWhile_append_of_pos hall, hr.1, hr.2]
  exact ⟨append_nil w, rfl⟩

theorem next_of_taken (h : Taken t r) : next (t.text ++ r) = some (t, r) := by
  cases h with
  | @quoted kind q b r hq h =>
    cases kind <;> cases hq <;> simp only [cons_append, next] <;> rw [h] <;> rfl
  | @line c b r hopen h =>
    have hc : c = '#' ∨ c = '-' := by
      rw [opensLine_eq] at hopen
      simp only [Bool.or_eq_true, Bool.and_eq_true, beq_iff_eq] at hopen
      exact hopen.imp id fun h => h.1.1
    have hne : ¬ (c == '\'') = true ∧ ¬ (c == '"') = true ∧ ¬ (c == backtick) = true := by
      rcases hc with rfl | rfl <;> decide
    rw [cons_append, next, if_neg hne.1, if_neg hne.2.1, if_neg hne.2.2, if_pos hopen, h]
    rfl
  | @block b r h =>
    have hline : opensLine '/' ('*' :: (b ++ r)) = false := by
      rfl
    exact congrArg (spanned .block ['/', '*']) h
  | @hex x b r hx h =>
    have hword : isWordChar x = true := by rcases hx with rfl | rfl <;> decide
    have hhex : opensHex [x] ('\'' :: (b ++ r)) = true := by rcases hx with rfl | rfl <;> rfl
    have hspan : ('\'' :: (b ++ r)).takeWhile isWordChar = [] ∧
        ('\'' :: (b ++ r)).dropWhile isWordChar = '\'' :: (b ++ r) := by
      have hquote : isWordChar '\'' = false := by decide
      simp [hquote]
    rw [cons_append, cons_append, next_word hword, hspan.1, hspan.2, nextWord, if_pos hhex]
    exact congrArg (spanned .hex [x, '\'']) h
  | @word c w r hall hstop hhex =>
    obtain ⟨htake, hdrop⟩ := takeWhile_word (fun d hd => hall d (mem_cons_of_mem _ hd)) hstop
    rw [cons_append, next_word (hall c mem_cons_self), htake, hdrop, nextWord, hhex]
    rfl
  | @code c r hplain =>
    simp only [plainBefore, Bool.not_eq_true', Bool.or_eq_false_iff] at hplain
    obtain ⟨⟨⟨⟨⟨⟨h1, h2⟩, h3⟩, h4⟩, h5⟩, h6⟩, h7⟩ := hplain
    simp [next, h1, h2, h3, h4, h5, h6, h7]

theorem ends_iff_taken : lexer.Ends t r ↔ Taken t r :=
  ⟨taken_of_next, next_of_taken⟩

/-- The token does not end before the text, but runs into it. -/
def runsInto (t : Token) (r : List Char) : Bool :=
  match t.kind with
  | .single | .hex => r.head? == some '\''
  | .double => r.head? == some '"'
  | .back => r.head? == some backtick
  | .line | .block => false
  | .word => r.head?.any isWordChar || opensHex t.text r
  | .code => t.text.head?.any fun c => opensLine c r || opensBlock c r

theorem mem_spanLine (hs : (spanLine s).2 ≠ []) : '\n' ∈ (spanLine s).1 := by
  fun_induction spanLine s with
  | case1 => exact absurd rfl hs
  | case2 c rest h => rw [eq_of_beq h]; exact mem_cons_self
  | case3 c rest h b r heq ih =>
    rw [heq] at ih
    exact mem_cons_of_mem _ (ih hs)

/-- Whether a comment begins does not depend on what comes after its end. -/
theorem opensLine_append {c : Char} {b : List Char} (hb : '\n' ∈ b) (r r' : List Char) :
    opensLine c (b ++ r) = opensLine c (b ++ r') := by
  rw [opensLine_eq, opensLine_eq]
  cases b with
  | nil => exact nomatch hb
  | cons d b =>
    cases b with
    | nil =>
      obtain rfl := mem_singleton.mp hb
      simp
    | cons e b => rfl

/-- A token that something follows ends before another text exactly when it does not run into it. -/
theorem ends_iff {r' : List Char} (h : lexer.Ends t r) (hr : r ≠ []) :
    lexer.Ends t r' ↔ runsInto t r' = false := by
  rw [ends_iff_taken] at h ⊢
  cases h with
  | @quoted kind q b r hq h =>
    have hclosed : r'.head? ≠ some q → spanQuoted q (b ++ r') = (b, r') := by
      intro hne
      have := spanQuoted_closed (q := q) (s := b ++ r) (by rw [h]; exact hr) hne
      rwa [h] at this
    have hruns : runsInto ⟨kind, q :: b⟩ r' = (r'.head? == some q) := by
      cases kind <;> cases hq <;> rfl
    rw [hruns, beq_eq_false_iff_ne]
    refine ⟨fun ht => ?_, fun hne => .quoted hq (hclosed hne)⟩
    have hspan : spanQuoted q (b ++ r') = (b, r') := by
      cases ht with
      | quoted hq' h' => exact h'
      | line | block | hex | word | code => exact nomatch hq
    have hrest := spanQuoted_rest q (b ++ r')
    rwa [hspan] at hrest
  | @line c b r hopen h =>
    have hmem : '\n' ∈ b := by
      have := mem_spanLine (s := b ++ r) (by rw [h]; exact hr)
      rwa [h] at this
    have hspan := spanLine_closed (s := b ++ r) (by rw [h]; exact hr) r'
    rw [h] at hspan
    rw [opensLine_append hmem r r'] at hopen
    exact ⟨fun _ => rfl, fun _ => .line hopen hspan⟩
  | @block b r h =>
    have hspan := spanBlock_closed (s := b ++ r) (by rw [h]; exact hr) r'
    rw [h] at hspan
    exact ⟨fun _ => rfl, fun _ => .block hspan⟩
  | @hex x b r hx h =>
    rw [show runsInto ⟨.hex, x :: '\'' :: b⟩ r' = (r'.head? == some '\'') from rfl,
      beq_eq_false_iff_ne]
    constructor
    · intro ht
      cases ht with
      | quoted hq' h' => exact nomatch hq'
      | hex hx' h' =>
        have hrest := spanQuoted_rest '\'' (b ++ r')
        rwa [h'] at hrest
    · intro hne
      have := spanQuoted_closed (q := '\'') (s := b ++ r) (by rw [h]; exact hr) hne
      rw [h] at this
      exact .hex hx this
  | @word c w r hall hstop hhex =>
    rw [show runsInto ⟨.word, c :: w⟩ r' =
      (r'.head?.any isWordChar || opensHex (c :: w) r') from rfl,
      Bool.or_eq_false_iff]
    constructor
    · intro ht
      cases ht with
      | quoted hq' h' => exact nomatch hq'
      | word hall' hstop' hhex' => exact ⟨hstop', hhex'⟩
    · exact fun hne => .word hall hne.1 hne.2
  | @code c r hplain =>
    rw [show runsInto ⟨.code, [c]⟩ r' = (opensLine c r' || opensBlock c r') from rfl]
    have hbefore : plainBefore c r' = !(opensLine c r' || opensBlock c r') := by
      simp only [plainBefore, Bool.not_eq_true', Bool.or_eq_false_iff] at hplain
      simp [plainBefore, hplain]
    constructor
    · intro ht
      cases ht with
      | quoted hq' h' => exact nomatch hq'
      | code hplain' => rwa [hbefore, Bool.not_eq_true'] at hplain'
    · intro hne
      exact .code (by rw [hbefore, hne]; rfl)

end ElyraSql.Server
