import ElyraSql.Engine.Predicate
import ElyraSql.Engine.Reads

/-!
# Literals, bounds and the choice of an access path

`exec.rs`: what the paths extract from a filter. A literal compared with a column is coerced to the
column's type (`coerce_with_mode`); a bound that the coercion moved is compensated for
(`adjust_bound_op`); the conjuncts give equalities, `IN` lists and ranges per column.
-/

namespace ElyraSql.Engine

namespace Env

variable (env : Env)

/-! ## Coercion -/

def roundDecimalToInteger (units : I128) (scale : Nat) : Int :=
  if scale = 0 then units.toInt
  else if 2 ^ 127 - 1 < (10 : Int) ^ scale then 0
  else
    let divisor : Int := 10 ^ scale
    let quotient := units.toInt.tdiv divisor
    if divisor / 2 ≤ (units.toInt.tmod divisor).natAbs then quotient + units.toInt.sign
    else quotient

/-- A value, if there is one, else the error that names the literal and the type. -/
def orInvalid (v : Value) (ty : ColumnType) : Option Value → Except Error Value
  | some c => .ok c
  | none => .error (.invalidLiteral v ty)

/-- A replacement in non-strict mode, an error in strict mode. -/
def orLenient (strict : Bool) (v : Value) (ty : ColumnType) (lenient : Value) :
    Option Value → Except Error Value
  | some c => .ok c
  | none => if strict then .error (.invalidLiteral v ty) else .ok lenient

def zeroDate : Text := ['0', '0', '0', '0', '-', '0', '0', '-', '0', '0']

def zeroTime : Text := ['0', '0', ':', '0', '0', ':', '0', '0']

def daysOf (micros : Int64) : Int32 := Int32.ofInt (micros.toInt.fdiv microsPerDay)

def coerceWithMode (strict : Bool) (ty : ColumnType) (v : Value) : Except Error Value :=
  match ty, v with
  | _, .null => .ok .null
  | .int, .int i => .ok (.int i)
  | .int, .bool b => .ok (.int (if b then 1 else 0))
  | .float, .int i => .ok (.float (env.f64OfInt i.toInt))
  | .float, .float f => .ok (.float f)
  | .float, .decimal u s => .ok (.float (env.f64OfDecimal u s))
  | .bool, .bool b => .ok (.bool b)
  | .bool, .int i => .ok (.bool (i != 0))
  | .text, .text s => .ok (.text s)
  | .bytes, .text s => .ok (.bytes (utf8 s))
  | .bytes, .bytes b => .ok (.bytes b)
  | .date, .date d => .ok (.date d)
  | .date, .text s =>
    orLenient strict v ty (.text zeroDate)
      (((env.parseDate s).or ((env.parseDateTime s).map daysOf)).map .date)
  | .dateTime, .dateTime t => .ok (.dateTime t)
  | .dateTime, .text s =>
    orLenient strict v ty (.text (zeroDate ++ ' ' :: zeroTime))
      ((env.parseDateTime s).map .dateTime)
  | .decimal _ sc, .text s => orInvalid v ty ((env.parseDecimal s sc).map fun r => .decimal r.1 r.2)
  | .decimal _ sc, .int i => .ok (.decimal (BitVec.ofInt 128 (i.toInt * 10 ^ sc)) sc)
  | .decimal _ sc, .float f =>
    orInvalid v ty ((env.parseDecimal (env.wireOther (.float f)) sc).map fun r => .decimal r.1 r.2)
  | .decimal _ sc, .decimal u s => orInvalid v ty ((env.rescaleDecimal u s sc).map (.decimal · sc))
  | .time, .time t => .ok (.time t)
  | .time, .text s => orLenient strict v ty (.text zeroTime) ((env.parseTime s).map .time)
  | .json, .json s => .ok (.json s)
  | .json, .text s => orInvalid v ty (if env.isValidJson s then some (.json s) else none)
  | .vector dim, .text s => orInvalid v ty ((env.parseVector s dim).map .vector)
  | .uint, .uint u => .ok (.uint u)
  | .uint, .int i =>
    orLenient strict v ty (.uint 0) (if 0 ≤ i.toInt then some (.uint i.toUInt64) else none)
  | .uint, .bool b => .ok (.uint (if b then 1 else 0))
  | .uint, .float f => orLenient strict v ty (.uint 0) ((env.f64RoundU64 f).map .uint)
  | .uint, .decimal u s =>
    let rounded := roundDecimalToInteger u s
    orLenient strict v ty (.uint (if rounded < 0 then 0 else UInt64.ofNat (2 ^ 64 - 1)))
      (if 0 ≤ rounded ∧ rounded < 2 ^ 64 then some (.uint (UInt64.ofNat rounded.toNat)) else none)
  | .uint, .text s =>
    match env.parseU64 s, env.parseF64 s with
    | some u, _ => .ok (.uint u)
    | none, some f =>
      orLenient strict v ty
        (.uint (if env.f64IsSignNegative f then 0 else UInt64.ofNat (2 ^ 64 - 1)))
        ((env.f64RoundU64 f).map .uint)
    | none, none =>
      orLenient strict v ty (.uint (UInt64.ofNat (env.integerPrefix s).toInt.toNat)) none
  | .int, .uint u => .ok (.int u.toInt64)
  | .float, .uint u => .ok (.float (env.f64OfInt u.toNat))
  | .int, .float f => .ok (.int (env.f64Round f))
  | .int, .decimal u s =>
    .ok (.int (Int64.ofInt (max (-2 ^ 63) (min (2 ^ 63 - 1) (roundDecimalToInteger u s)))))
  | .int, .text s =>
    orLenient strict v ty (.int (env.integerPrefix s))
      (((env.parseI64 s).or ((env.parseF64 s).map env.f64Round)).map .int)
  | .float, .text s => orInvalid v ty ((env.parseF64 s).map .float)
  | .date, .dateTime m => .ok (.date (daysOf m))
  | .dateTime, .date d => .ok (.dateTime (Int64.ofInt (d.toInt * microsPerDay)))
  | .text, v => .ok (.text ((env.toWireString v).getD []))
  | ty, v => .error (.invalidLiteral v ty)

def coerce (ty : ColumnType) (v : Value) : Except Error Value := env.coerceWithMode true ty v

/-- `numeric_rounding`: where a coerced literal landed relative to the literal as written. -/
def numericRounding (original coerced : Value) : Option Ordering :=
  let numericOriginal := match original, coerced with
    | .float _, _ => true
    | .decimal .., _ => true
    | .text _, .int _ | .text _, .uint _ | .text _, .float _ | .text _, .decimal .. => true
    | .json _, .int _ | .json _, .uint _ | .json _, .float _ | .json _, .decimal .. => true
    | _, _ => false
  if numericOriginal then env.compareValues coerced original else none

def coercionIsExact (original coerced : Value) : Bool :=
  match env.numericRounding original coerced with
  | some .lt | some .gt => false
  | _ => true

def adjustBoundOp (op : BinaryOp) (original coerced : Value) : BinaryOp :=
  match env.numericRounding original coerced with
  | some .gt => if op = .gt ∨ op = .gtEq then .gtEq else .lt
  | some .lt => if op = .gt ∨ op = .gtEq then .gt else .ltEq
  | _ => op

/-! ## Conjuncts -/

def identName : Expr → Option Text
  | .ident name => some name
  | .compound parts => parts.getLast?
  | _ => none

def splitAnd : Expr → List Expr
  | .binary .and l r => splitAnd l ++ splitAnd r
  | e => [e]

def conjuncts (filter : Option Expr) : List Expr := filter.elim [] splitAnd

/-- `eval_expr`: a constant, evaluated without a row. -/
def evalExpr (e : Expr) : Except Error Value := env.evalRow [] [] e

def literalValue (e : Expr) : Option Value :=
  if (explicitCollation e).isSome then none else (env.evalExpr e).toOption

def columnOf (d : TableDef) (name : Text) : Option Nat :=
  d.columns.findIdx? fun c => env.identifierEq c.name name

def coerceTo (d : TableDef) (col : Nat) (v : Value) : Option Value :=
  (d.columns[col]?).bind fun c => (env.coerce c.ty v).toOption

/-! ## Equalities -/

/-- The column and the expression of an equality, when just one side is a column. -/
def equalitySides : Expr → Option (Text × Expr)
  | .binary .eq l r =>
    match identName l, identName r with
    | some n, none => some (n, r)
    | none, some n => some (n, l)
    | _, _ => none
  | _ => none

/-- `eq_col_literal`. An expression that cannot be evaluated without a row is an error. -/
def eqColLiteral (d : TableDef) (e : Expr) : Except Error (Option (Nat × Value)) :=
  match equalitySides e with
  | none => .ok none
  | some (name, lit) =>
    if (explicitCollation lit).isSome then .ok none
    else
      match env.columnOf d name with
      | none => .ok none
      | some col => do
        let original ← env.evalExpr lit
        match env.coerceTo d col original with
        | some v =>
          if !v.isNull && env.coercionIsExact original v then .ok (some (col, v)) else .ok none
        | none => .ok none

def equalities (d : TableDef) : List Expr → Except Error (List (Nat × Value))
  | [] => .ok []
  | e :: es => do
    let r ← env.eqColLiteral d e
    let rs ← equalities d es
    .ok (r.toList ++ rs)

/-- `key_eq_values`: a value for every column of a key. -/
def keyEqValues (d : TableDef) (filter : Option Expr) (keyCols : List Nat) :
    Except Error (Option (List Value)) :=
  if keyCols.isEmpty then .ok none
  else do
    let found ← env.equalities d (conjuncts filter)
    .ok (keyCols.mapM fun c => found.lookup c)

/-! ## `IN` lists -/

/-- The members of a list as values of the column; NULL members are skipped, and one that is not
an exact literal makes the list unusable. -/
def listValues (d : TableDef) (col : Nat) : List Expr → Option (List Value)
  | [] => some []
  | item :: items =>
    match env.literalValue item with
    | none => none
    | some v =>
      if v.isNull then listValues d col items
      else
        match env.coerceTo d col v with
        | none => none
        | some c =>
          if env.coercionIsExact v c then (listValues d col items).map (c :: ·) else none

/-- The column and values of one conjunct that is a usable `IN` list. -/
def usableInList (d : TableDef) : Expr → Option (Nat × List Value)
  | .inList false e items =>
    match (identName e).bind (env.columnOf d) with
    | none => none
    | some col =>
      if d.pkCols ≠ [col] ∧ (indexOn d col).isNone then none
      else
        match env.listValues d col items with
        | some (v :: vs) => some (col, v :: vs)
        | _ => none
  | _ => none

def inListLookup (d : TableDef) (filter : Option Expr) : Option (Nat × List Value) :=
  (conjuncts filter).findSome? (env.usableInList d)

/-! ## Ranges -/

def flipOp : BinaryOp → BinaryOp
  | .gt => .lt
  | .gtEq => .ltEq
  | .lt => .gt
  | .ltEq => .gtEq
  | op => op

def isRangeOp (op : BinaryOp) : Bool := op matches .gt | .gtEq | .lt | .ltEq

/-- A column on one side and a constant on the other, as a bound of the column. -/
def boundOf (d : TableDef) (op : BinaryOp) (column lit : Expr) :
    Option (Nat × BinaryOp × Value) := do
  let col ← (identName column).bind (env.columnOf d)
  let v ← (env.evalExpr lit).toOption
  let c ← env.coerceTo d col v
  some (col, env.adjustBoundOp op v c, c)

def asRange (d : TableDef) : Expr → Option (Nat × BinaryOp × Value)
  | .binary op l r =>
    if !isRangeOp op || (explicitCollation l).isSome || (explicitCollation r).isSome then none
    else (env.boundOf d op l r).or (env.boundOf d (flipOp op) r l)
  | _ => none

def asBetween (d : TableDef) : Expr → Option (Nat × Value × Value)
  | .between false e low high => do
    let col ← (identName e).bind (env.columnOf d)
    if (explicitCollation low).isSome || (explicitCollation high).isSome then none
    else
      let lo ← (env.evalExpr low).toOption
      let hi ← (env.evalExpr high).toOption
      let loC ← env.coerceTo d col lo
      let hiC ← env.coerceTo d col hi
      if env.coercionIsExact lo loC && env.coercionIsExact hi hiC then some (col, loC, hiC)
      else none
  | _ => none

/-- `merge_lower_bound` (`side = .gt`) and `merge_upper_bound` (`side = .lt`): the tighter bound
stays. -/
def mergeBound (side : Ordering) (coll : Collation) (current : Bound) (candidate : Value × Bool) :
    Bound :=
  match current with
  | none => some candidate
  | some (v, inclusive) =>
    match env.compareColl coll candidate.1 v with
    | some .eq => if inclusive && !candidate.2 then some candidate else current
    | o => if o = some side then some candidate else current

/-- The bounds of each column, in the order in which the columns first appear. -/
abbrev Ranges := List (Nat × Bound × Bound)

def updateRange (col : Nat) (f : Bound × Bound → Bound × Bound) : Ranges → Ranges
  | [] => [(col, f (none, none))]
  | (c, b) :: rs => if c = col then (c, f b) :: rs else (c, b) :: updateRange col f rs

def addBound (coll : Collation) (op : BinaryOp) (v : Value) (b : Bound × Bound) : Bound × Bound :=
  match op with
  | .gt => (env.mergeBound .gt coll b.1 (v, false), b.2)
  | .gtEq => (env.mergeBound .gt coll b.1 (v, true), b.2)
  | .lt => (b.1, env.mergeBound .lt coll b.2 (v, false))
  | .ltEq => (b.1, env.mergeBound .lt coll b.2 (v, true))
  | _ => b

def addRange (d : TableDef) (rs : Ranges) (e : Expr) : Ranges :=
  match env.asRange d e with
  | some (col, op, v) => updateRange col (env.addBound (d.collationOf col) op v) rs
  | none =>
    match env.asBetween d e with
    | some (col, lo, hi) =>
      updateRange col (fun b => (env.mergeBound .gt (d.collationOf col) b.1 (lo, true),
        env.mergeBound .lt (d.collationOf col) b.2 (hi, true))) rs
    | none => rs

def predicateConstraints (d : TableDef) (filter : Option Expr) :
    Except Error (List (Nat × Value) × Ranges) := do
  let eqs ← env.equalities d (conjuncts filter)
  .ok (eqs, (conjuncts filter).foldl (env.addRange d) [])

def boundEncodable (coll : Collation) (b : Bound) : Bool :=
  b.all fun e => (env.encodeColl coll e.1).toOption.isSome

structure CompositeRangeQuery where
  index : IndexDef
  values : List Value
  lo : Bound
  hi : Bound

/-- The composite range an index can serve: equalities on its first columns, then a range. -/
def compositeOf (d : TableDef) (eqs : List (Nat × Value)) (ranges : Ranges) (idx : IndexDef) :
    Option CompositeRangeQuery :=
  if idx.vector || idx.fulltext || idx.cols.length < 2 then none
  else
    let fixed := idx.cols.takeWhile fun c => (eqs.lookup c).isSome
    if fixed.length = 0 ∨ idx.cols.length ≤ fixed.length then none
    else
      let rangeCol := idx.cols.getD fixed.length 0
      match ranges.lookup rangeCol with
      | none => none
      | some (lo, hi) =>
        -- A NULL in a later column would leave a matching row without an entry.
        if (idx.cols.drop (fixed.length + 1)).any fun c => (d.columns[c]?).any Column.nullable then
          none
        else
          let values := fixed.filterMap fun c => eqs.lookup c
          if (env.encodeKeyColl values idx.colCollations).toOption.isNone ||
              !env.boundEncodable (d.collationOf rangeCol) lo ||
              !env.boundEncodable (d.collationOf rangeCol) hi then none
          else some ⟨idx, values, lo, hi⟩

def compositeRangeBounds (d : TableDef) (filter : Option Expr) :
    Except Error (Option CompositeRangeQuery) := do
  let (eqs, ranges) ← env.predicateConstraints d filter
  .ok (d.indexes.findSome? (env.compositeOf d eqs ranges))

/-- A column's range that a primary key or an index can serve. -/
def servable (d : TableDef) (ranges : Ranges) (col : Nat) : Option (Nat × Bound × Bound) :=
  match ranges.lookup col with
  | none => none
  | some (lo, hi) =>
    if lo.isNone && hi.isNone then none
    else if (decide (d.pkCols = [col]) || (indexOn d col).isSome) &&
        env.boundEncodable .ci lo && env.boundEncodable .ci hi then some (col, lo, hi)
    else none

/-- `range_bounds`. The columns come in the order of a hash map, which `order` stands for. -/
def rangeBounds (d : TableDef) (order : List Nat) (filter : Option Expr) :
    Except Error (Option (Nat × Bound × Bound)) := do
  let (_, ranges) ← env.predicateConstraints d filter
  .ok (order.findSome? (env.servable d ranges))

/-! ## Full text -/

def matchConjunct (filter : Option Expr) : Option (List Text × Text × Bool) :=
  (conjuncts filter).findSome? fun
    | .matchAgainst cols query boolean => some (cols, query, boolean)
    | _ => none

/-- The columns a full-text index must have, and the words to look up in it. -/
def fulltextIndex (d : TableDef) (cols : List Text) : Option IndexDef :=
  match cols.mapM (env.columnOf d) with
  | none => none
  | some cs => d.indexes.find? fun i => i.fulltext &&
      i.cols.insertionSort (· ≤ ·) == cs.insertionSort (· ≤ ·)

/-- The stems of the words of a query that can make a row match. -/
def searchStems (query : Text) (boolean : Bool) : List Text :=
  (env.splitWhitespace query).filterMap fun raw =>
    if boolean && raw.head? == some '-' then none
    else
      let word := env.cleaned (raw.dropWhile fun c => c == '+' || c == '-')
      if word = [] then none else some (env.stem word)

end Env

end ElyraSql.Engine
