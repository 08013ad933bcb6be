import ElyraSql.Engine.Catalog

/-!
# Filters and their evaluation

`predicate.rs`: the part of the expression language that the access paths look into, with
three-valued logic. Every other expression (a function, arithmetic, a cast, `LIKE`, a tuple, ...) is
an `Expr.other`: some function of the row, of which the paths see the collation it makes explicit.
The columns of the schemas here have no qualifiers.
-/

namespace ElyraSql.Engine

/-! ## Expressions -/

/-- The binary operators the paths or the connectives need. -/
inductive BinaryOp
  | and
  | or
  | eq
  | notEq
  | lt
  | ltEq
  | gt
  | gtEq
  deriving DecidableEq, Repr

/-- `sqlparser::ast::Expr`. A literal is given by its value. -/
inductive Expr
  | value (v : Value)
  | ident (name : Text)
  | compound (parts : List Text)
  | nested (e : Expr)
  | collate (e : Expr) (coll : Collation)
  | binary (op : BinaryOp) (l r : Expr)
  | between (negated : Bool) (e lo hi : Expr)
  | inList (negated : Bool) (e : Expr) (items : List Expr)
  | matchAgainst (cols : List Text) (query : Text) (boolean : Bool)
  | other (explicit : Option Collation) (eval : List Column → Row → Except Error Value)

def explicitCollation : Expr → Option Collation
  | .collate _ coll => some coll
  | .other explicit _ => explicit
  | .nested e => explicitCollation e
  | _ => none

namespace Env

variable (env : Env)

/-! ## Columns -/

def columnHits (schema : List Column) (name : Text) : List Nat :=
  (List.range schema.length).filter fun i =>
    (schema[i]?).any fun c => env.identifierEq c.name name

/-- `resolve_index_parts` and `resolve_bare` on a schema without qualifiers; `shown` is how the
reference was written. -/
def resolve (schema : List Column) (name shown : Text) : Except Error Nat :=
  match env.columnHits schema name with
  | [i] => .ok i
  | [] => .error (.unknownColumn shown)
  | _ => .error (.ambiguousColumn shown)

/-- The parts of a qualified reference with dots between them. -/
def dotted : List Text → Text
  | [] => []
  | [p] => p
  | p :: ps => p ++ '.' :: dotted ps

def isSystemVar (name : Text) : Bool := ['@', '@'].isPrefixOf name

def exprCollation (schema : List Column) : Expr → Option Collation
  | .ident name =>
    match env.resolve schema name name with
    | .ok i => (schema[i]?).map Column.collation
    | .error _ => none
  | .compound parts =>
    match env.resolve schema (parts.getLastD []) (dotted parts) with
    | .ok i => (schema[i]?).map Column.collation
    | .error _ => none
  | .nested e => exprCollation schema e
  | .collate _ coll => some coll
  | _ => none

/-- `cmp_collation`: an explicit collation decides, then a binary column. -/
def cmpCollation (schema : List Column) (l r : Expr) : Collation :=
  match (explicitCollation l).or (explicitCollation r) with
  | some coll => coll
  | none =>
    if env.exprCollation schema l = some .bin ∨ env.exprCollation schema r = some .bin then .bin
    else .ci

/-! ## Operators -/

/-- A comparison operator on the order of its operands, `none` if they are incomparable. -/
def orderTest : BinaryOp → Option Ordering → Bool
  | .eq, o => o == some .eq
  | .notEq, o => o != some .eq
  | .lt, o => o == some .lt
  | .ltEq, o => o == some .lt || o == some .eq
  | .gt, o => o == some .gt
  | .gtEq, o => o == some .gt || o == some .eq
  | _, _ => false

/-- `binary`: the right operand is evaluated only when it is needed. -/
def binaryOp (op : BinaryOp) (l : Value) (right : Except Error Value) (coll : Collation) :
    Except Error Value :=
  match op with
  | .and =>
    if env.bool3 l = some false then .ok (.bool false)
    else do
      let r ← right
      match env.bool3 l, env.bool3 r with
      | _, some false => .ok (.bool false)
      | some true, some true => .ok (.bool true)
      | _, _ => .ok .null
  | .or =>
    if env.bool3 l = some true then .ok (.bool true)
    else do
      let r ← right
      match env.bool3 l, env.bool3 r with
      | _, some true => .ok (.bool true)
      | some false, some false => .ok (.bool false)
      | _, _ => .ok .null
  | op => do
    let r ← right
    if l.isNull || r.isNull then .ok .null
    else .ok (.bool (orderTest op (env.compareColl coll l r)))

/-- The value of `BETWEEN` from its two tests. -/
def insideOf (negated : Bool) : Option Bool → Option Bool → Value
  | some false, _ => .bool negated
  | _, some false => .bool negated
  | some true, some true => .bool !negated
  | _, _ => .null

/-- The loop of `IN` over the values of the list, in order. -/
def inItems (coll : Collation) (negated : Bool) (v : Value) :
    Bool → List (Except Error Value) → Except Error Value
  | sawNull, [] => .ok (if sawNull then .null else .bool negated)
  | sawNull, item :: items => do
    let rv ← item
    if rv.isNull then inItems coll negated v true items
    else if env.compareColl coll v rv = some .eq then .ok (.bool !negated)
    else inItems coll negated v sawNull items

/-! ## Full-text search -/

def splitWhitespace (s : Text) : List Text := (s.splitOnP env.isWhitespace).filter (· ≠ [])

/-- The letters and digits of a word. -/
def cleaned (word : Text) : Text := word.filter env.isAlphanumeric

/-- The marks of a word in boolean mode: whether it is required, whether it is excluded, and the
rest of it. -/
def searchMarks (boolean : Bool) : Text → Bool × Bool × Text
  | '+' :: t => if boolean then (true, false, t) else (false, false, '+' :: t)
  | '-' :: t => if boolean then (false, true, t) else (false, false, '-' :: t)
  | t => (false, false, t)

/-- One word of the query: whether the row is still accepted, and the number of words found. -/
def searchWord (words : List Text) (boolean : Bool) (acc : Bool × Nat) (raw : Text) :
    Bool × Nat :=
  let (required, excluded, word) := searchMarks boolean raw
  if env.cleaned word = [] then acc
  else
    let present := words.contains (env.stem (env.cleaned word))
    if (excluded && present) || (required && !present) then (false, acc.2)
    else if present then (acc.1, acc.2 + 1)
    else acc

/-- The columns `MATCH` names that exist; the others are passed over. -/
def matchColumns (schema : List Column) (cols : List Text) : List Nat :=
  cols.filterMap fun n => schema.findIdx? fun c => env.identifierEq c.name n

/-- The relevance of a row: the number of words found, or none if a mark is violated. -/
def relevance (schema : List Column) (row : Row) (cols : List Text) (query : Text)
    (boolean : Bool) : Nat :=
  let words := env.tokenize (env.searchText row (env.matchColumns schema cols))
  let r := (env.splitWhitespace query).foldl (env.searchWord words boolean) (true, 0)
  if r.1 then r.2 else 0

/-! ## Evaluation -/

mutual

def evalRow (schema : List Column) (row : Row) : Expr → Except Error Value
  | .value v => .ok v
  | .ident name =>
    if isSystemVar name then .ok (env.systemVar name)
    else
      match env.columnHits schema name, env.niladic name with
      | [], some v => .ok v
      | _, _ => do
        let i ← env.resolve schema name name
        .ok (row.getD i .null)
  | .compound parts =>
    if isSystemVar (parts.headD []) then .ok (env.systemVar (parts.getLastD []))
    else do
      let i ← env.resolve schema (parts.getLastD []) (dotted parts)
      .ok (row.getD i .null)
  | .nested e => evalRow schema row e
  | .collate e _ => evalRow schema row e
  | .binary op l r => do
    let x ← evalRow schema row l
    env.binaryOp op x (evalRow schema row r) (env.cmpCollation schema l r)
  | .between negated e lo hi => do
    let v ← evalRow schema row e
    let a ← evalRow schema row lo
    let b ← evalRow schema row hi
    let coll := (((explicitCollation lo).or (explicitCollation hi)).or
      (env.exprCollation schema e)).getD .ci
    .ok (insideOf negated ((env.compareColl coll v a).map fun o => o != .lt)
      ((env.compareColl coll v b).map fun o => o != .gt))
  | .inList negated e items => do
    let v ← evalRow schema row e
    if v.isNull then .ok .null
    else
      let coll := ((items.map fun i => env.cmpCollation schema e i).find? (· ≠ .ci)).getD .ci
      env.inItems coll negated v false (evalItems schema row items)
  | .matchAgainst cols query boolean =>
    .ok (.float (env.f64OfInt (env.relevance schema row cols query boolean)))
  | .other _ f => f schema row

def evalItems (schema : List Column) (row : Row) : List Expr → List (Except Error Value)
  | [] => []
  | e :: es => evalRow schema row e :: evalItems schema row es

end

/-- `predicate::matches`. -/
def matchesRow (schema : List Column) (e : Expr) (row : Row) : Except Error Bool :=
  (env.evalRow schema row e).map env.truthy

/-- A filter that may be absent. -/
def recheck (schema : List Column) (filter : Option Expr) (row : Row) : Except Error Bool :=
  match filter with
  | some f => env.matchesRow schema f row
  | none => .ok true

end Env

end ElyraSql.Engine
