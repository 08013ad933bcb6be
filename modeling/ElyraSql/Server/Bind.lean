import ElyraSql.Server.Literals

/-!
# Binding parameters

`scan` and `bind` of `elyra-server/src/prepared.rs`: the placeholders of a statement are found by a
walk of their own and replaced by the literals of the bound values.
-/

namespace ElyraSql.Server

open Tokens Wire List

/-! ## The walk -/

def isWhitespace (c : Char) : Bool :=
  let n := c.toNat
  (9 ≤ n && n ≤ 13) || n == 0x20 || n == 0x85 || n == 0xa0 || n == 0x1680 ||
    (0x2000 ≤ n && n ≤ 0x200a) || n == 0x2028 || n == 0x2029 || n == 0x202f || n == 0x205f ||
    n == 0x3000

inductive Q
  | none | single | double | back | lineComment | blockComment
  deriving DecidableEq, Repr

/-- The quote that ends what the walk is in. -/
def Q.quote : Q → Option Char
  | .single => some '\''
  | .double => some '"'
  | .back => some backtick
  | _ => Option.none

/-- The walk at a character: the state after it, whether the next one is escaped, and whether it is
a placeholder. -/
def scanStep (state : Q) (escaped : Bool) (prev : Option Char) (c : Char) (rest : List Char) :
    Q × Bool × Bool :=
  match state with
  | .none =>
    if c == '\'' then (.single, escaped, false)
    else if c == '"' then (.double, escaped, false)
    else if c == backtick then (.back, escaped, false)
    else if c == '#' then (.lineComment, escaped, false)
    else if c == '-' && rest.head? == some '-' && rest.tail.head?.all isWhitespace then
      (.lineComment, escaped, false)
    else if c == '/' && rest.head? == some '*' then (.blockComment, escaped, false)
    else if c == '?' then (.none, escaped, true)
    else (.none, escaped, false)
  | .lineComment => (if c == '\n' || c == '\r' then .none else .lineComment, escaped, false)
  | .blockComment => (if c == '/' && prev == some '*' then .none else .blockComment, escaped, false)
  | .single | .double | .back =>
    if escaped then (state, false, false)
    else if c == '\\' && state != .back then (state, true, false)
    else if some c == state.quote then (.none, false, false)
    else (state, false, false)

/-- What the walk emits: a character, or none for a placeholder. -/
def scanFrom (state : Q) (escaped : Bool) (prev : Option Char) : List Char → List (Option Char)
  | [] => []
  | c :: rest =>
    let step := scanStep state escaped prev c rest
    (if step.2.2 then none else some c) :: scanFrom step.1 step.2.1 (some c) rest

def scan (sql : List Char) : List (Option Char) := scanFrom .none false none sql

def countPlaceholders (sql : List Char) : Nat := (scan sql).count none

/-- What `bind` does with what the walk emits. -/
def bindStep (literals : List (List Char)) (s : List Char × Nat × Bool) :
    Option Char → List Char × Nat × Bool
  | none =>
    match literals[s.2.1]? with
    | some lit => (s.1 ++ lit, s.2.1 + 1, s.2.2)
    | none => (s.1, s.2.1 + 1, true)
  | some c => (s.1 ++ [c], s.2.1, s.2.2)

def bind (sql : List Char) (literals : List (List Char)) : Except String (List Char) :=
  let s := (scan sql).foldl (bindStep literals) ([], 0, false)
  if s.2.1 ≠ literals.length || s.2.2 then
    .error s!"parameter count mismatch: statement has {s.2.1} placeholders, {literals.length} bound"
  else .ok s.1

/-! ## What binding is for -/

def placeholder : Token := ⟨.code, ['?']⟩

def fill : List Token → List (List Token) → List Token
  | [], _ => []
  | ts, [] => ts
  | t :: ts, l :: ls => if t = placeholder then l ++ fill ts ls else t :: fill ts (l :: ls)

/-- The statement is made, every placeholder is replaced by a literal of its value, and all other
tokens stay as they are. -/
def Bound (F : Floats) (sql : List Char) (vs : List ValueInner) : Prop :=
  ∃ out, bind sql (vs.map (valueToLiteral F)) = .ok out ∧
    (tokens sql).count placeholder = vs.length ∧
    tokens out = fill (tokens sql) (vs.map fun v => tokens (valueToLiteral F v)) ∧
    ∀ v ∈ vs, Denotes F (tokens (valueToLiteral F v)) v

/-- The characters of some tokens, with none for a placeholder. -/
def pieces (ts : List Token) : List (Option Char) :=
  ts.flatMap fun t => if t = placeholder then [none] else t.text.map some

/-- The walk and the lexical rules find the same placeholders. -/
def Agree (sql : List Char) : Prop := scan sql = pieces (tokens sql)

instance (sql : List Char) : Decidable (Agree sql) := inferInstanceAs (Decidable (_ = _))

/-- Two tokens next to each other run together: words, a mark of a hexadecimal literal and a string,
or two strings. -/
def joins (t u : Token) : Bool :=
  match t.kind with
  | .word => u.kind == .word || u.kind == .hex ||
      ((t.text == ['x'] || t.text == ['X']) && u.kind == .single)
  | .single | .hex => u.kind == .single
  | _ => false

/-- No two tokens next to each other run together. -/
def Apart (ts : List Token) : Prop := ts.IsChain fun t u => joins t u = false

instance (ts : List Token) : Decidable (Apart ts) := inferInstanceAs (Decidable (List.IsChain _ ts))

/-! ## The text that is made -/

/-- The characters with literals in place of the placeholders. -/
def substitute : List (Option Char) → List (List Char) → List Char
  | [], _ => []
  | some c :: ps, ls => c :: substitute ps ls
  | none :: ps, l :: ls => l ++ substitute ps ls
  | none :: ps, [] => '?' :: substitute ps []

variable {ps : List (Option Char)} (ts : List Token)

theorem foldl_bindStep {done rest : List (List Char)} (h : ps.count none = rest.length)
    (out : List Char) :
    ps.foldl (bindStep (done ++ rest)) (out, done.length, false) =
      (out ++ substitute ps rest, (done ++ rest).length, false) := by
  induction ps generalizing done rest out with
  | nil =>
    have hnil : rest = [] := eq_nil_of_length_eq_zero h.symm
    simp [hnil, substitute]
  | cons p ps ih =>
    cases p with
    | some c =>
      have hcount : ps.count none = rest.length := by simpa using h
      rw [foldl_cons, bindStep, ih hcount, substitute]
      simp
    | none =>
      cases rest with
      | nil => simp at h
      | cons l rest =>
        have hcount : ps.count none = rest.length := by simpa using h
        have hget : (done ++ l :: rest)[done.length]? = some l := by simp
        have hnext := @ih (done ++ [l]) rest hcount (out ++ l)
        simp only [append_assoc, singleton_append, length_append, length_singleton] at hnext
        rw [foldl_cons, bindStep]
        rw [hget]
        rw [hnext, substitute, length_append]

theorem bind_eq {sql : List Char} {literals : List (List Char)}
    (h : literals.length = countPlaceholders sql) :
    bind sql literals = .ok (substitute (scan sql) literals) := by
  have hfold := @foldl_bindStep (scan sql) [] literals h.symm []
  simp only [nil_append, length_nil] at hfold
  rw [bind, hfold]
  simp

theorem flat_fill (ls : List (List Token)) :
    lexer.flat (fill ts ls) = substitute (pieces ts) (ls.map lexer.flat) := by
  have hsome : ∀ (cs : List Char) ps ls,
      substitute (cs.map some ++ ps) ls = cs ++ substitute ps ls := by
    intro cs ps ls
    induction cs with
    | nil => rfl
    | cons c cs ih => rw [map_cons, cons_append, substitute, ih]; rfl
  induction ts generalizing ls with
  | nil => rfl
  | cons t ts ih =>
    rw [pieces, flatMap_cons]
    cases ls with
    | nil =>
      have hrest := ih []
      rw [show fill ts [] = ts by cases ts <;> rfl] at hrest
      rw [fill, Lexer.flat_cons, hrest]
      split_ifs with ht
      · rw [ht]
        rfl
      · rw [hsome]
        rfl
      all_goals exact cons_ne_nil _ _
    | cons l ls =>
      rw [fill]
      split_ifs with ht
      · rw [Lexer.flat_append, ih]
        rfl
      · rw [Lexer.flat_cons, ih, hsome]
        rfl

/-! ## Placeholders found in the text -/

/-- The literals say where they were put: two ways to place them that make the same text are one. -/
theorem substitute_inj {qs : List (Option Char)}
    (herase : ps.map (·.getD '?') = qs.map (·.getD '?')) {ls : List (List Char)}
    (hls : ∀ l ∈ ls, ∃ c r, l = c :: r ∧ c ≠ '?') (hp : ps.count none = ls.length)
    (hq : qs.count none = ls.length) (h : substitute ps ls = substitute qs ls) : ps = qs := by
  induction ps generalizing qs ls with
  | nil =>
    cases qs with
    | nil => rfl
    | cons q qs => exact nomatch herase
  | cons p ps ih =>
    cases qs with
    | nil => exact nomatch herase
    | cons q qs =>
      rw [map_cons, map_cons, cons.injEq] at herase
      cases p with
      | some c =>
        cases q with
        | some d =>
          obtain rfl : c = d := herase.1
          rw [substitute, substitute, cons.injEq] at h
          rw [ih herase.2 hls (by simpa using hp) (by simpa using hq) h.2]
        | none =>
          -- one has the placeholder itself where the other has a literal
          cases ls with
          | nil => simp at hq
          | cons l ls =>
            obtain ⟨d, r, rfl, hd⟩ := hls l mem_cons_self
            rw [substitute, substitute, cons_append, cons.injEq] at h
            exact absurd (h.1.symm.trans herase.1) hd
      | none =>
        cases ls with
        | nil => simp at hp
        | cons l ls =>
          cases q with
          | some d =>
            obtain ⟨e, r, rfl, he⟩ := hls l mem_cons_self
            rw [substitute, substitute, cons_append, cons.injEq] at h
            exact absurd (h.1.trans herase.1.symm) he
          | none =>
            rw [substitute, substitute, append_cancel_left_eq] at h
            rw [ih herase.2 (fun x hx => hls x (mem_cons_of_mem _ hx)) (by simpa using hp)
              (by simpa using hq) h]

theorem erase_scanFrom (state : Q) (escaped : Bool) (prev : Option Char) (sql : List Char) :
    (scanFrom state escaped prev sql).map (·.getD '?') = sql := by
  induction sql generalizing state escaped prev with
  | nil => rfl
  | cons c rest ih =>
    have hplace : (scanStep state escaped prev c rest).2.2 = true → c = '?' := by
      intro h
      unfold scanStep at h
      split at h
      · split_ifs at h with h1 h2 h3 h4 h5 h6 h7
        exact eq_of_beq h7
      all_goals split_ifs at h
    rw [scanFrom, map_cons, ih]
    congr 1
    split_ifs with hq
    · exact (hplace hq).symm
    · rfl

theorem erase_pieces : (pieces ts).map (·.getD '?') = lexer.flat ts := by
  induction ts with
  | nil => rfl
  | cons t ts ih =>
    rw [pieces, flatMap_cons, ← pieces, map_append]
    congr 1
    split_ifs with ht
    · rw [ht]
      rfl
    · rw [map_map]
      exact map_id _

theorem count_pieces : (pieces ts).count none = ts.count placeholder := by
  induction ts with
  | nil => rfl
  | cons t ts ih =>
    rw [pieces, flatMap_cons, ← pieces, count_append, ih, count_cons]
    split_ifs with ht hbeq hbeq
    · rw [Nat.add_comm]
      rfl
    · exact absurd (by rw [ht]; exact beq_self_eq_true _) hbeq
    · exact absurd (eq_of_beq hbeq) ht
    · rw [count_eq_zero.mpr (by simp), Nat.zero_add, Nat.add_zero]

end ElyraSql.Server
