import ElyraSql.Server.Lexer
import ElyraSql.Wire.Value

/-!
# Literals of bound values

`value_to_literal` of `elyra-server/src/prepared.rs`: a bound value is rendered as a literal, and
the literal is put into the statement. Next to it stands what a literal denotes.
-/

namespace ElyraSql.Server

open Wire List Nat

/-! ## Rendering -/

/-- The bits of a finite 64-bit float. -/
def isFinite (bits : Nat) : Bool := bits / 2 ^ 52 % 2 ^ 11 != 2047

/-- `Display` and `FromStr` of 64-bit floats, on the bits. -/
structure Floats where
  toStr : Nat → List Char
  parse : List Char → Option Nat
  finite : ∀ {bits}, bits < 2 ^ 64 → isFinite bits = true →
    ∃ w, (toStr bits = w ∨ toStr bits = '-' :: w) ∧
    w ≠ [] ∧ (∀ c ∈ w, c.isDigit = true ∨ c = '.') ∧ parse (toStr bits) = some bits
  other : ∀ {bits}, bits < 2 ^ 64 → isFinite bits = false →
    toStr bits = ['N', 'a', 'N'] ∨ toStr bits = ['i', 'n', 'f'] ∨ toStr bits = ['-', 'i', 'n', 'f']

/-- `from_utf8`. -/
def decodeUtf8 (b : List UInt8) : Option (List Char) :=
  (ByteArray.mk b.toArray).utf8Decode?.map Array.toList

def encodeUtf8 (cs : List Char) : List UInt8 := cs.flatMap String.utf8EncodeChar

def escapeChar (c : Char) : List Char :=
  if c == '\'' then ['\'', '\''] else if c == '\\' then ['\\', '\\'] else [c]

def quoteText (cs : List Char) : List Char := '\'' :: cs.flatMap escapeChar ++ ['\'']

/-- `{b:02x}`. -/
def hexPair (b : UInt8) : List Char := [digitChar (b.toNat / 16), digitChar (b.toNat % 16)]

def hexLiteral (b : List UInt8) : List Char := 'x' :: '\'' :: b.flatMap hexPair ++ ['\'']

def quote (b : List UInt8) : List Char :=
  match decodeUtf8 b with
  | none => hexLiteral b
  | some cs => quoteText cs

/-- `{n:0w}`. -/
def padded (w n : Nat) : List Char :=
  List.replicate (w - (toDigits 10 n).length) '0' ++ toDigits 10 n

/-- The number in the bytes at some places, lowest first. -/
def bytesAt (b : List UInt8) (places : List Nat) : Nat :=
  places.foldr (fun i acc => (b.getD i 0).toNat + 256 * acc) 0

/-- Numbers with a separator before each but the first. -/
def dateText (b : List UInt8) : List Char :=
  padded 4 (bytesAt b [0, 1]) ++ '-' :: padded 2 (bytesAt b [2]) ++ '-' :: padded 2 (bytesAt b [3])

def clockText (h m s : Nat) : List Char := padded 2 h ++ ':' :: padded 2 m ++ ':' :: padded 2 s

/-- The fraction of a second, if there is one. -/
def microText (us : Nat) : List Char := if 0 < us then '.' :: padded 6 us else []

def datetimeText (b : List UInt8) : List Char :=
  if b.length < 4 then ['0', '0', '0', '0', '-', '0', '0', '-', '0', '0']
  else if b.length < 7 then dateText b
  else dateText b ++ ' ' :: clockText (bytesAt b [4]) (bytesAt b [5]) (bytesAt b [6]) ++
    microText (if 11 ≤ b.length then bytesAt b [7, 8, 9, 10] else 0)

def datetimeLiteral (b : List UInt8) : List Char := '\'' :: datetimeText b ++ ['\'']

def timeHours (b : List UInt8) : Nat := (bytesAt b [5] + bytesAt b [1, 2, 3, 4] * 24) % 2 ^ 32

def timeText (b : List UInt8) : List Char :=
  if b.length < 8 then ['0', '0', ':', '0', '0', ':', '0', '0']
  else (if bytesAt b [0] ≠ 0 then ['-'] else []) ++
    (clockText (timeHours b) (bytesAt b [6]) (bytesAt b [7]) ++
      microText (if 12 ≤ b.length then bytesAt b [8, 9, 10, 11] else 0))

def timeLiteral (b : List UInt8) : List Char := '\'' :: timeText b ++ ['\'']

/-- `to_string` of an integer. -/
def intText (n : Int) : List Char :=
  if n < 0 then '-' :: toDigits 10 n.natAbs else toDigits 10 n.natAbs

def valueToLiteral (F : Floats) : ValueInner → List Char
  | .null => ['N', 'U', 'L', 'L']
  | .int n => intText n
  | .uint n => toDigits 10 n
  | .double bits => F.toStr bits
  | .bytes b => quote b
  | .date b | .datetime b => datetimeLiteral b
  | .time b => timeLiteral b

/-! ## What a literal denotes -/

/-- The characters that the text of a string stands for. -/
def unescape : List Char → List Char
  | [] => []
  | [c] => [c]
  | c :: d :: r =>
    if c == '\\' || (c == '\'' && d == '\'') then d :: unescape r else c :: unescape (d :: r)

/-- The number that a hexadecimal digit stands for. -/
def hexValue (c : Char) : Nat := if c.isDigit then c.toNat - 48 else c.toNat - 87

/-- The bytes that hexadecimal digits stand for. -/
def hexBytes : List Char → List UInt8
  | c :: d :: r => UInt8.ofNat (16 * hexValue c + hexValue d) :: hexBytes r
  | _ => []

def numbersFrom : Option Nat → List Char → List Nat
  | current, [] => current.toList
  | current, c :: r =>
    if c.isDigit then numbersFrom (some (10 * current.getD 0 + (c.toNat - 48))) r
    else current.toList ++ numbersFrom none r

/-- The first `n` numbers in a text; those that are not there are zero. -/
def numbers (n : Nat) (s : List Char) : List Nat :=
  let found := numbersFrom none s
  found ++ List.replicate (n - found.length) 0

def datetimeFields (b : List UInt8) : List Nat :=
  [bytesAt b [0, 1], bytesAt b [2], bytesAt b [3], bytesAt b [4], bytesAt b [5], bytesAt b [6],
    bytesAt b [7, 8, 9, 10]]

def timeFields (b : List UInt8) : List Nat :=
  [bytesAt b [5] + bytesAt b [1, 2, 3, 4] * 24, bytesAt b [6], bytesAt b [7],
    bytesAt b [8, 9, 10, 11]]

def minus : Token := ⟨.code, ['-']⟩

/-- The tokens are a literal of the value: one token, or a number with a sign. A fraction of a
second has six digits. -/
inductive Denotes (F : Floats) : List Token → ValueInner → Prop
  | null : Denotes F [⟨.word, ['N', 'U', 'L', 'L']⟩] .null
  | uint {w : List Char} (h : ∀ c ∈ w, c.isDigit = true) :
    Denotes F [⟨.word, w⟩] (.uint (ofDigitChars 10 w 0))
  | int {w : List Char} (h : ∀ c ∈ w, c.isDigit = true) :
    Denotes F [⟨.word, w⟩] (.int (ofDigitChars 10 w 0))
  | negInt {w : List Char} (h : ∀ c ∈ w, c.isDigit = true) :
    Denotes F [minus, ⟨.word, w⟩] (.int (-ofDigitChars 10 w 0))
  | double {w : List Char} {bits : Nat} (h : ∀ c ∈ w, c.isDigit = true ∨ c = '.')
    (hparse : F.parse w = some bits) : Denotes F [⟨.word, w⟩] (.double bits)
  | negDouble {w : List Char} {bits : Nat} (h : ∀ c ∈ w, c.isDigit = true ∨ c = '.')
    (hparse : F.parse ('-' :: w) = some bits) : Denotes F [minus, ⟨.word, w⟩] (.double bits)
  | text {b : List Char} :
    Denotes F [⟨.single, '\'' :: b ++ ['\'']⟩] (.bytes (encodeUtf8 (unescape b)))
  | hex {b : List Char} : Denotes F [⟨.hex, 'x' :: '\'' :: b ++ ['\'']⟩] (.bytes (hexBytes b))
  | date {s : List Char} {b : List UInt8} (h : numbers 7 s = datetimeFields b)
    (hmicros : bytesAt b [7, 8, 9, 10] < 10 ^ 6) :
    Denotes F [⟨.single, '\'' :: s ++ ['\'']⟩] (.date b)
  | datetime {s : List Char} {b : List UInt8} (h : numbers 7 s = datetimeFields b)
    (hmicros : bytesAt b [7, 8, 9, 10] < 10 ^ 6) :
    Denotes F [⟨.single, '\'' :: s ++ ['\'']⟩] (.datetime b)
  | time {s : List Char} {b : List UInt8}
    (hsign : s.head? = some '-' ↔ bytesAt b [0] ≠ 0) (h : numbers 4 s = timeFields b)
    (hmicros : bytesAt b [8, 9, 10, 11] < 10 ^ 6) :
    Denotes F [⟨.single, '\'' :: s ++ ['\'']⟩] (.time b)

/-- A value of the protocol: a float has 64 bits, a date or time has one of the lengths it can be
sent with, and its hours fit in 32 bits. -/
def ValueOk : ValueInner → Prop
  | .double bits => bits < 2 ^ 64
  | .date b | .datetime b => b.length = 0 ∨ b.length = 4 ∨ b.length = 7 ∨ b.length = 11
  | .time b => b.length = 0 ∨
    (b.length = 8 ∨ b.length = 12) ∧ bytesAt b [5] + bytesAt b [1, 2, 3, 4] * 24 < 2 ^ 32
  | _ => True

/-- The values that have a literal. -/
def Renderable : ValueInner → Prop
  | .double bits => isFinite bits = true
  | .date b | .datetime b => bytesAt b [7, 8, 9, 10] < 10 ^ 6
  | .time b => bytesAt b [8, 9, 10, 11] < 10 ^ 6
  | _ => True

/-! ## Numbers in a text -/

theorem numbersFrom_digits {ds : List Char} (h : ∀ c ∈ ds, c.isDigit = true) (n : Nat)
    (r : List Char) :
    numbersFrom (some n) (ds ++ r) = numbersFrom (some (ofDigitChars 10 ds n)) r := by
  induction ds generalizing n with
  | nil => rfl
  | cons c ds ih =>
    rw [cons_append, numbersFrom, if_pos (h c mem_cons_self),
      ih fun d hd => h d (mem_cons_of_mem _ hd)]
    rfl

theorem isDigit_padded (w n : Nat) : ∀ c ∈ padded w n, c.isDigit = true := by
  intro c hc
  rcases mem_append.mp hc with hc | hc
  · rw [eq_of_mem_replicate hc]
    decide
  · exact isDigit_of_mem_toDigits (by decide) (by decide) hc

theorem ofDigitChars_padded (w n : Nat) : ofDigitChars 10 (padded w n) 0 = n := by
  rw [padded, ofDigitChars_append, ofDigitChars_replicate_zero, mul_zero, ofDigitChars_ten_toDigits]

theorem padded_ne_nil (w n : Nat) : padded w n ≠ [] := by
  exact append_ne_nil_of_right_ne_nil _ toDigits_ne_nil

theorem numbersFrom_padded (w n : Nat) (r : List Char) :
    numbersFrom none (padded w n ++ r) = numbersFrom (some n) r := by
  have hdigits := isDigit_padded w n
  have hvalue := ofDigitChars_padded w n
  cases hp : padded w n with
  | nil => exact absurd hp (padded_ne_nil w n)
  | cons c ds =>
    rw [hp] at hdigits hvalue
    rw [cons_append, numbersFrom, if_pos (hdigits c mem_cons_self),
      numbersFrom_digits fun d hd => hdigits d (mem_cons_of_mem _ hd)]
    exact congrArg (fun n => numbersFrom (some n) r) hvalue

variable {c : Char}

theorem numbersFrom_sep (hc : c.isDigit = false) (n : Nat) (r : List Char) :
    numbersFrom (some n) (c :: r) = n :: numbersFrom none r := by
  rw [numbersFrom, hc]
  rfl

theorem numbersFrom_clock (h m s : Nat) (r : List Char) :
    numbersFrom none (clockText h m s ++ r) = h :: m :: numbersFrom (some s) r := by
  rw [clockText]
  simp only [append_assoc, cons_append, numbersFrom_padded,
    numbersFrom_sep (show (':' : Char).isDigit = false by decide)]

theorem numbersFrom_date (b : List UInt8) (r : List Char) :
    numbersFrom none (dateText b ++ r) =
      bytesAt b [0, 1] :: bytesAt b [2] :: numbersFrom (some (bytesAt b [3])) r := by
  rw [dateText]
  simp only [append_assoc, cons_append, numbersFrom_padded,
    numbersFrom_sep (show ('-' : Char).isDigit = false by decide)]

theorem numbersFrom_micro (n us : Nat) :
    numbersFrom (some n) (microText us) = n :: if 0 < us then [us] else [] := by
  rw [microText]
  split_ifs
  · have h := numbersFrom_padded 6 us []
    rw [append_nil] at h
    rw [numbersFrom_sep (by decide), h]
    rfl
  · rfl

variable {b : List UInt8}

theorem numbers_datetimeText (h : b.length = 0 ∨ b.length = 4 ∨ b.length = 7 ∨ b.length = 11) :
    numbers 7 (datetimeText b) = datetimeFields b := by
  rcases h with h | h | h | h
  · rw [eq_nil_of_length_eq_zero h]
    decide
  · have hdate := numbersFrom_date b []
    rw [append_nil] at hdate
    rw [numbers, datetimeText, if_neg (by omega), if_pos (by omega), hdate, datetimeFields]
    simp [numbersFrom, bytesAt, h]
  · have hclock := numbersFrom_clock (bytesAt b [4]) (bytesAt b [5]) (bytesAt b [6]) []
    rw [append_nil] at hclock
    rw [numbers, datetimeText, if_neg (by omega), if_neg (by omega), if_neg (by omega), microText,
      if_neg (by decide), append_nil, numbersFrom_date, numbersFrom_sep (by decide), hclock,
      datetimeFields]
    simp [numbersFrom, bytesAt, h]
  · rw [numbers, datetimeText, if_neg (by omega), if_neg (by omega), if_pos (by omega),
      append_assoc, cons_append, numbersFrom_date,
      numbersFrom_sep (show (' ' : Char).isDigit = false by decide), numbersFrom_clock,
      numbersFrom_micro, datetimeFields]
    split_ifs with hus
    · rfl
    · rw [Nat.eq_zero_of_not_pos hus]
      rfl

theorem numbers_timeText (h : ValueOk (.time b)) : numbers 4 (timeText b) = timeFields b := by
  rcases h with h | ⟨hlen, hhours⟩
  · rw [eq_nil_of_length_eq_zero h]
    decide
  · have hsign : ∀ s, numbersFrom none ((if bytesAt b [0] ≠ 0 then ['-'] else []) ++ s) =
        numbersFrom none s := by
      intro s
      split_ifs <;> rfl
    rw [numbers, timeText, if_neg (by omega), hsign, numbersFrom_clock,
      numbersFrom_micro, timeHours,
      mod_eq_of_lt hhours, timeFields]
    rcases hlen with hlen | hlen
    · simp [bytesAt, hlen]
    · rw [if_pos (show 12 ≤ b.length by omega)]
      split_ifs with hus
      · rfl
      · rw [Nat.eq_zero_of_not_pos hus]
        rfl

/-! ## Strings -/

def Unescaped (c : Char) : Prop := c ≠ '\'' ∧ c ≠ '\\'

instance (c : Char) : Decidable (Unescaped c) := inferInstanceAs (Decidable (_ ∧ _))

theorem escapeChar_of_unescaped (h : Unescaped c) : escapeChar c = [c] := by
  simp [escapeChar, h.1, h.2]

variable {s : List Char}

theorem flatMap_escapeChar (h : ∀ c ∈ s, Unescaped c) : s.flatMap escapeChar = s := by
  induction s with
  | nil => rfl
  | cons c s ih =>
    rw [flatMap_cons, escapeChar_of_unescaped (h c mem_cons_self),
      ih fun d hd => h d (mem_cons_of_mem _ hd)]
    rfl

variable {r : List Char}

/-- An escaped text ends with the first quote after it, if no other follows. -/
theorem spanQuoted_escaped (cs : List Char) (hr : r.head? ≠ some '\'') :
    spanQuoted '\'' (cs.flatMap escapeChar ++ '\'' :: r) =
      (cs.flatMap escapeChar ++ ['\''], r) := by
  induction cs with
  | nil =>
    cases r with
    | nil => rfl
    | cons d r =>
      have hd : d ≠ '\'' := by simpa using hr
      simp [spanQuoted, hd]
  | cons c cs ih =>
    rw [flatMap_cons]
    by_cases hq : c = '\''
    · subst hq
      have hpair : escapeChar '\'' = ['\'', '\''] := rfl
      rw [hpair]
      simp only [cons_append, nil_append]
      rw [spanQuoted, if_pos (by decide), ih]
    · by_cases hb : c = '\\'
      · subst hb
        have hpair : escapeChar '\\' = ['\\', '\\'] := rfl
        rw [hpair]
        simp only [cons_append, nil_append]
        rw [spanQuoted, if_pos (by decide), ih]
      · rw [escapeChar_of_unescaped ⟨hq, hb⟩]
        simp only [cons_append, nil_append]
        cases hrest : cs.flatMap escapeChar ++ '\'' :: r with
        | nil => simp at hrest
        | cons d rest =>
          rw [spanQuoted, if_neg (by simp [hq, hb]), if_neg (by simp [hq]), ← hrest, ih]

theorem unescape_escaped (cs : List Char) : unescape (cs.flatMap escapeChar) = cs := by
  induction cs with
  | nil => rfl
  | cons c cs ih =>
    rw [flatMap_cons]
    by_cases hq : c = '\''
    · subst hq
      exact congrArg ('\'' :: ·) ih
    · by_cases hb : c = '\\'
      · subst hb
        exact congrArg ('\\' :: ·) ih
      · rw [escapeChar_of_unescaped ⟨hq, hb⟩, singleton_append]
        cases hrest : cs.flatMap escapeChar with
        | nil =>
          rw [hrest] at ih
          rw [← ih]
          rfl
        | cons d rest =>
          rw [unescape, if_neg (by simp [hq, hb]), ← hrest, ih]

theorem encodeUtf8_decodeUtf8 {cs : List Char} (h : decodeUtf8 b = some cs) :
    encodeUtf8 cs = b := by
  obtain ⟨a, ha, rfl⟩ := Option.map_eq_some_iff.mp h
  have hsome : (ByteArray.mk b.toArray).utf8Decode?.isSome := by rw [ha]; rfl
  have hencode := @ByteArray.utf8Encode_get_utf8Decode? (ByteArray.mk b.toArray) hsome
  simp only [ha] at hencode
  have hdata := congrArg (fun x => x.data.toList) hencode
  simpa [List.utf8Encode, encodeUtf8] using hdata

theorem hexValue_digitChar {n : Nat} (h : n < 16) : hexValue (digitChar n) = n := by
  interval_cases n <;> decide

theorem hexBytes_hexPair (b : List UInt8) : hexBytes (b.flatMap hexPair) = b := by
  induction b with
  | nil => rfl
  | cons x b ih =>
    have hx := x.toNat_lt
    have hvalue : 16 * hexValue (digitChar (x.toNat / 16)) + hexValue (digitChar (x.toNat % 16)) =
        x.toNat := by
      rw [hexValue_digitChar (by omega), hexValue_digitChar (by omega)]
      omega
    rw [flatMap_cons, hexPair, cons_append, cons_append, nil_append, hexBytes, hvalue,
      ih, UInt8.ofNat_toNat]

theorem unescaped_digitChar {n : Nat} (h : n < 16) : Unescaped (digitChar n) := by
  interval_cases n <;> decide

/-! ## Literals as tokens -/

theorem isWordChar_of_digit (h : c.isDigit = true ∨ c = '.') : isWordChar c = true := by
  rcases h with h | rfl
  · simp [isWordChar, Char.isAlphanum, h]
  · decide

/-- The forms of literals. -/
inductive LiteralForm : List Token → Prop
  | word {c : Char} {w : List Char} (hall : ∀ d ∈ c :: w, isWordChar d = true)
    (hx : c :: w ≠ ['x'] ∧ c :: w ≠ ['X']) : LiteralForm [⟨.word, c :: w⟩]
  | signed {c : Char} {w : List Char} (hall : ∀ d ∈ c :: w, isWordChar d = true)
    (hx : c :: w ≠ ['x'] ∧ c :: w ≠ ['X']) : LiteralForm [minus, ⟨.word, c :: w⟩]
  | text (cs : List Char) : LiteralForm [⟨.single, quoteText cs⟩]
  | hex {b : List Char} (h : ∀ c ∈ b, Unescaped c) :
      LiteralForm [⟨.hex, 'x' :: '\'' :: b ++ ['\'']⟩]

variable {w : List Char}

theorem taken_word (hall : ∀ d ∈ c :: w, isWordChar d = true)
    (hx : c :: w ≠ ['x'] ∧ c :: w ≠ ['X']) (hr : r.head?.any isWordChar = false) :
    Taken ⟨.word, c :: w⟩ r := by
  refine .word hall hr ?_
  have hne : (c :: w == ['x'] || c :: w == ['X']) = false := by
    rw [Bool.or_eq_false_iff, beq_eq_false_iff_ne, beq_eq_false_iff_ne]
    exact hx
  rw [opensHex, hne, Bool.false_and]

theorem taken_minus (hc : isWordChar c = true) (r : List Char) : Taken minus (c :: w ++ r) := by
  have hdash : c ≠ '-' := by
    rintro rfl
    exact absurd hc (by decide)
  refine .code ?_
  rw [plainBefore, opensLine_eq, cons_append, head?_cons]
  have h1 : (some c == some '-') = false := by simpa using hdash
  rw [h1, Bool.and_false]
  rfl

theorem taken_text (cs : List Char) (hr : r.head? ≠ some '\'') :
    Taken ⟨.single, quoteText cs⟩ r := by
  refine .quoted (q := '\'') (b := cs.flatMap escapeChar ++ ['\'']) rfl ?_
  rw [append_assoc]
  exact spanQuoted_escaped cs hr

theorem taken_hex {b : List Char} (h : ∀ c ∈ b, Unescaped c) (hr : r.head? ≠ some '\'') :
    Taken ⟨.hex, 'x' :: '\'' :: b ++ ['\'']⟩ r := by
  refine .hex (b := b ++ ['\'']) (.inl rfl) ?_
  have hspan := spanQuoted_escaped b hr
  rw [flatMap_escapeChar h] at hspan
  rw [append_assoc]
  exact hspan

theorem LiteralForm.canonical {l : List Token} (h : LiteralForm l) : lexer.Canonical l := by
  cases h with
  | word hall hx => exact ⟨ends_iff_taken.mpr (taken_word hall hx rfl), trivial⟩
  | signed hall hx =>
    refine ⟨ends_iff_taken.mpr (taken_minus (hall _ mem_cons_self) _),
      ends_iff_taken.mpr (taken_word hall hx rfl), trivial⟩
  | text cs => exact ⟨ends_iff_taken.mpr (taken_text cs nofun), trivial⟩
  | hex h => exact ⟨ends_iff_taken.mpr (taken_hex h nofun), trivial⟩

/-- The last token of a literal ends before a text exactly when it does not run into it. -/
theorem LiteralForm.last_ends {l : List Token} (h : LiteralForm l) {t : Token}
    (ht : l.getLast? = some t)
    (r : List Char) : lexer.Ends t r ↔ runsInto t r = false := by
  have hspace : lexer.Ends t [' '] := by
    cases h with
    | word hall hx | signed hall hx =>
      cases ht
      exact ends_iff_taken.mpr (taken_word hall hx (by decide))
    | text cs =>
      cases ht
      exact ends_iff_taken.mpr (taken_text cs (by decide))
    | hex h =>
      cases ht
      exact ends_iff_taken.mpr (taken_hex h (by decide))
  exact ends_iff hspace (cons_ne_nil _ _)

/-! ## What the literals of values denote -/

theorem number_not_x (h : ∀ d ∈ c :: w, d.isDigit = true ∨ d = '.') :
    c :: w ≠ ['x'] ∧ c :: w ≠ ['X'] := by
  constructor <;>
  · intro heq
    cases heq
    exact absurd (h _ mem_cons_self) (by decide)

theorem isDigit_toDigits (n : Nat) : ∀ c ∈ toDigits 10 n, c.isDigit = true :=
  fun _ hc => isDigit_of_mem_toDigits (by decide) (by decide) hc

theorem literalForm_number (hne : w ≠ []) (h : ∀ d ∈ w, d.isDigit = true ∨ d = '.') :
    LiteralForm [⟨.word, w⟩] ∧ LiteralForm [minus, ⟨.word, w⟩] := by
  cases w with
  | nil => exact absurd rfl hne
  | cons c w =>
    have hall : ∀ d ∈ c :: w, isWordChar d = true := fun d hd => isWordChar_of_digit (h d hd)
    exact ⟨.word hall (number_not_x h), .signed hall (number_not_x h)⟩

theorem unescaped_of_digit (h : c.isDigit = true) : Unescaped c := by
  constructor <;>
  · rintro rfl
    exact absurd h (by decide)

theorem unescaped_padded (w n : Nat) : ∀ c ∈ padded w n, Unescaped c :=
  fun c hc => unescaped_of_digit (isDigit_padded w n c hc)

/-- The texts of dates and times need no escapes. -/
theorem unescaped_clock (h m s : Nat) : ∀ c ∈ clockText h m s, Unescaped c := by
  simp only [clockText, forall_mem_append, forall_mem_cons]
  exact ⟨⟨unescaped_padded _ _, by decide, unescaped_padded _ _⟩, by decide, unescaped_padded _ _⟩

theorem unescaped_micro (us : Nat) : ∀ c ∈ microText us, Unescaped c := by
  unfold microText
  split_ifs
  · exact forall_mem_cons.mpr ⟨by decide, unescaped_padded _ _⟩
  · exact nofun

theorem unescaped_date (b : List UInt8) : ∀ c ∈ dateText b, Unescaped c := by
  simp only [dateText, forall_mem_append, forall_mem_cons]
  exact ⟨⟨unescaped_padded _ _, by decide, unescaped_padded _ _⟩, by decide, unescaped_padded _ _⟩

theorem unescaped_datetimeText (b : List UInt8) : ∀ c ∈ datetimeText b, Unescaped c := by
  unfold datetimeText
  split_ifs
  · simp [Unescaped]
  · exact unescaped_date b
  all_goals
    simp only [forall_mem_append, forall_mem_cons]
    exact ⟨⟨unescaped_date b, by decide, unescaped_clock _ _ _⟩, unescaped_micro _⟩

theorem unescaped_timeText (b : List UInt8) : ∀ c ∈ timeText b, Unescaped c := by
  unfold timeText
  split_ifs
  · simp [Unescaped]
  all_goals
    simp only [forall_mem_append]
    exact ⟨by simp [Unescaped], unescaped_clock _ _ _, unescaped_micro _⟩

theorem quoteText_unescaped (h : ∀ c ∈ s, Unescaped c) : quoteText s = '\'' :: s ++ ['\''] := by
  rw [quoteText, flatMap_escapeChar h]

theorem padded_head (w n : Nat) (r : List Char) : (padded w n ++ r).head? ≠ some '-' := by
  have hdigits := isDigit_padded w n
  cases hp : padded w n with
  | nil => exact absurd hp (padded_ne_nil w n)
  | cons c ds =>
    rw [hp] at hdigits
    intro h
    rw [cons_append, head?_cons, Option.some.injEq] at h
    exact absurd (h ▸ hdigits c mem_cons_self) (by decide)

theorem timeText_sign (h : ValueOk (.time b)) :
    (timeText b).head? = some '-' ↔ bytesAt b [0] ≠ 0 := by
  rcases h with h | ⟨hlen, -⟩
  · rw [eq_nil_of_length_eq_zero h]
    decide
  · rw [timeText, if_neg (by omega)]
    by_cases hsign : bytesAt b [0] ≠ 0
    · rw [if_pos hsign]
      exact ⟨fun _ => hsign, fun _ => rfl⟩
    · rw [if_neg hsign, clockText, append_assoc, append_assoc]
      exact ⟨fun hd => absurd hd (padded_head _ _ _), fun hd => absurd hd hsign⟩

theorem literalForm_double (F : Floats) {bits : Nat} (h : bits < 2 ^ 64) :
    ∃ l, LiteralForm l ∧ lexer.flat l = F.toStr bits ∧
      (Denotes F l (.double bits) ↔ isFinite bits = true) := by
  by_cases hfin : isFinite bits = true
  · obtain ⟨w, hw, hne, hchars, hparse⟩ := F.finite h hfin
    obtain ⟨hword, hsigned⟩ := literalForm_number hne hchars
    rcases hw with hw | hw
    · exact ⟨_, hword, by rw [hw]; simp [lexer],
        ⟨fun _ => hfin, fun _ => .double hchars (hw ▸ hparse)⟩⟩
    · refine ⟨_, hsigned, by rw [hw]; simp [lexer, minus], ⟨fun _ => hfin, fun _ => ?_⟩⟩
      exact .negDouble hchars (hw ▸ hparse)
  · -- the names of the other floats are words, but no numbers
    rcases F.other h (Bool.eq_false_iff.mpr hfin) with hw | hw | hw
    · refine ⟨[⟨.word, ['N', 'a', 'N']⟩], .word (all_eq_true.mp rfl) (by decide), by rw [hw]; rfl,
        ⟨fun hd => ?_, fun hf => absurd hf hfin⟩⟩
      cases hd with
      | double hchars _ => exact absurd (hchars 'N' (by decide)) (by decide)
    · refine ⟨[⟨.word, ['i', 'n', 'f']⟩], .word (all_eq_true.mp rfl) (by decide), by rw [hw]; rfl,
        ⟨fun hd => ?_, fun hf => absurd hf hfin⟩⟩
      cases hd with
      | double hchars _ => exact absurd (hchars 'i' (by decide)) (by decide)
    · refine ⟨[minus, ⟨.word, ['i', 'n', 'f']⟩], .signed (all_eq_true.mp rfl)
        (by decide), by rw [hw]; rfl,
        ⟨fun hd => ?_, fun hf => absurd hf hfin⟩⟩
      cases hd with
      | negDouble hchars _ => exact absurd (hchars 'i' (by decide)) (by decide)

open Denotes

theorem Denotes.micros {F : Floats} {l : List Token} {b : List UInt8} :
    (Denotes F l (.date b) ∨ Denotes F l (.datetime b) → bytesAt b [7, 8, 9, 10] < 10 ^ 6) ∧
      (Denotes F l (.time b) → bytesAt b [8, 9, 10, 11] < 10 ^ 6) := by
  refine ⟨fun h => ?_, fun h => ?_⟩
  · rcases h with h | h <;> cases h <;> assumption
  · cases h
    assumption

/-- The literal of a value is one token, after a sign if it is a negative number, and denotes the
value exactly when it has a literal. -/
theorem literalForm (F : Floats) {v : ValueInner} (h : ValueOk v) :
    ∃ l, LiteralForm l ∧ lexer.flat l = valueToLiteral F v ∧ (Denotes F l v ↔ Renderable v) := by
  have hdigits : ∀ n, ∀ d ∈ toDigits 10 n, d.isDigit = true ∨ d = '.' :=
    fun n d hd => .inl (isDigit_toDigits n d hd)
  have htemporal : ∀ {s : List Char}, (∀ c ∈ s, Unescaped c) →
      LiteralForm [⟨.single, '\'' :: s ++ ['\'']⟩] := by
    intro s hs
    rw [← quoteText_unescaped hs]
    exact .text s
  cases v with
  | null =>
    exact ⟨[⟨.word, ['N', 'U', 'L', 'L']⟩], .word (all_eq_true.mp rfl) (by decide), rfl,
      iff_of_true .null trivial⟩
  | int n =>
    obtain ⟨hword, hsigned⟩ := literalForm_number toDigits_ne_nil (hdigits n.natAbs)
    by_cases hn : n < 0
    · refine ⟨_, hsigned, by rw [valueToLiteral, intText, if_pos hn]; simp [lexer, minus],
        iff_of_true ?_ trivial⟩
      have hd := negInt (F := F) (isDigit_toDigits n.natAbs)
      rw [ofDigitChars_ten_toDigits] at hd
      rwa [show -(n.natAbs : Int) = n by omega] at hd
    · refine ⟨_, hword, by rw [valueToLiteral, intText, if_neg hn]; simp [lexer],
        iff_of_true ?_ trivial⟩
      have hd := int (F := F) (isDigit_toDigits n.natAbs)
      rw [ofDigitChars_ten_toDigits] at hd
      rwa [show (n.natAbs : Int) = n by omega] at hd
  | uint n =>
    obtain ⟨hword, -⟩ := literalForm_number toDigits_ne_nil (hdigits n)
    refine ⟨_, hword, by simp [lexer, valueToLiteral], iff_of_true ?_ trivial⟩
    have hd := uint (F := F) (isDigit_toDigits n)
    rwa [ofDigitChars_ten_toDigits] at hd
  | double bits => exact literalForm_double F h
  | bytes b =>
    rw [valueToLiteral, quote]
    cases hdec : decodeUtf8 b with
    | none =>
      have hplain : ∀ c ∈ b.flatMap hexPair, Unescaped c := by
        intro c hc
        obtain ⟨x, -, hx⟩ := mem_flatMap.mp hc
        have hlt := x.toNat_lt
        rcases mem_cons.mp hx with rfl | hx
        · exact unescaped_digitChar (by omega)
        · rw [mem_singleton.mp hx]
          exact unescaped_digitChar (by omega)
      refine ⟨_, .hex hplain, by simp [lexer, hexLiteral], iff_of_true ?_ trivial⟩
      have hd := hex (F := F) (b := b.flatMap hexPair)
      rwa [hexBytes_hexPair] at hd
    | some cs =>
      refine ⟨_, .text cs, by simp [lexer], iff_of_true ?_ trivial⟩
      have hd := text (F := F) (b := cs.flatMap escapeChar)
      rwa [unescape_escaped, encodeUtf8_decodeUtf8 hdec] at hd
  | date b =>
    exact ⟨_, htemporal (unescaped_datetimeText b),
      by simp [lexer, valueToLiteral, datetimeLiteral],
        ⟨fun hd => micros.1 (.inl hd), .date (numbers_datetimeText h)⟩⟩
  | time b =>
    exact ⟨_, htemporal (unescaped_timeText b), by simp [lexer, valueToLiteral, timeLiteral],
      ⟨micros.2, .time (timeText_sign h) (numbers_timeText h)⟩⟩
  | datetime b =>
    exact ⟨_, htemporal (unescaped_datetimeText b),
      by simp [lexer, valueToLiteral, datetimeLiteral],
        ⟨fun hd => micros.1 (.inr hd), .datetime (numbers_datetimeText h)⟩⟩

end ElyraSql.Server
