import ElyraSql.Engine.Predicate

/-!
# Compiled predicates

`cpred.rs`: a filter that is a conjunction of comparisons of numeric columns with literals is
compiled to a list of terms over doubles, which the scans test instead of interpreting the filter.
`Filter` is the part of the expression language that `compile` looks into, and `Env.toExpr` gives it
to the interpreter of `Engine/Predicate.lean`, which compares 64-bit integers exactly.
-/

namespace ElyraSql.Engine

/-! ## Filters

Filters as `compile` looks into them. An integer literal is given by its number; what `compile`
declines anyway (a function, `OR`, a text literal, ...) is an `other`. -/

inductive Filter
  | number (n : Nat)
  | minus (e : Filter)
  | ident (name : Text)
  | compound (parts : List Text)
  | nested (e : Filter)
  | binary (op : BinaryOp) (l r : Filter)
  | inList (negated : Bool) (e : Filter) (items : List Filter)
  | other (e : Expr)

namespace Env

variable (env : Env)

/-- `number_literal` of an integer: exact while it fits 64 bits, signed or unsigned. -/
def numberLiteral (n : Nat) : Value :=
  if n < 2 ^ 63 then .int (Int64.ofNat n)
  else if n < 2 ^ 64 then .uint (UInt64.ofNat n)
  else .float (env.f64OfInt n)

def outOfRange (shown : Text) : Error :=
  .row ("BIGINT value is out of range in '-(".toList ++ shown ++ ")'".toList)

/-- `unary_value` of a minus sign. -/
def unaryMinus : Value → Except Error Value
  | .bool b => .ok (.int (if b then -1 else 0))
  | .int i =>
    if i = Int64.minValue then .error (outOfRange ('-' :: digits i.toInt.natAbs))
    else .ok (.int (-i))
  | .float f => .ok (.float (env.f64Neg f))
  | .decimal u s =>
    if u = BitVec.intMin 128 then .error (.row "DECIMAL value is out of range".toList)
    else .ok (.decimal (-u) s)
  | .uint u =>
    if u.toNat ≤ 2 ^ 63 then .ok (.int (Int64.ofInt (-u.toNat)))
    else .error (outOfRange (digits u.toNat))
  | v => .ok (((env.asMysqlF64 v).map fun f => Value.float (env.f64Neg f)).getD .null)

mutual

def toExpr : Filter → Expr
  | .number n => .value (env.numberLiteral n)
  | .minus e => .other none fun schema row => do
    env.unaryMinus (← env.evalRow schema row (toExpr e))
  | .ident name => .ident name
  | .compound parts => .compound parts
  | .nested e => .nested (toExpr e)
  | .binary op l r => .binary op (toExpr l) (toExpr r)
  | .inList negated e items => .inList negated (toExpr e) (toExprs items)
  | .other e => e

def toExprs : List Filter → List Expr
  | [] => []
  | e :: es => toExpr e :: toExprs es

end

end Env

/-! ## Compilation -/

inductive Op
  | eq
  | ne
  | lt
  | le
  | gt
  | ge
  deriving DecidableEq, Repr

/-- `Op::test` on the order of its operands, `none` where one of them is not a number. -/
def Op.holds : Op → Option Ordering → Bool
  | .eq, o => o == some .eq
  | .ne, o => o != some .eq
  | .lt, o => o == some .lt
  | .le, o => o == some .lt || o == some .eq
  | .gt, o => o == some .gt
  | .ge, o => o == some .gt || o == some .eq

def Op.flip : Op → Op
  | .lt => .gt
  | .le => .ge
  | .gt => .lt
  | .ge => .le
  | op => op

def cmpOp : BinaryOp → Option Op
  | .eq => some .eq
  | .notEq => some .ne
  | .lt => some .lt
  | .ltEq => some .le
  | .gt => some .gt
  | .gtEq => some .ge
  | _ => none

/-- `cpred::Term`, with its literals of any type: a comparison of a column with a literal, or the
membership of a column in a set of literals. -/
inductive Term (α : Type)
  | cmp (col : Nat) (op : Op) (rhs : α)
  | inSet (col : Nat) (set : List α) (negated : Bool)
  deriving DecidableEq, Repr

def Term.col {α : Type} : Term α → Nat
  | .cmp col _ _ => col
  | .inSet col _ _ => col

namespace Env

variable (env : Env)

/-- The numeric column of a name: the first column with it, if that is an `Int` or a `Float`. -/
def numericNamed (schema : List Column) (name : Text) : Option Nat :=
  (schema.findIdx? fun c => env.identifierEq c.name name).filter fun i =>
    (schema[i]?).any fun c => c.ty = .int ∨ c.ty = .float

/-- `numeric_col`: of a qualified name, only the last part counts. -/
def numericCol (schema : List Column) : Filter → Option Nat
  | .ident name => env.numericNamed schema name
  | .compound parts => parts.getLast?.bind (env.numericNamed schema)
  | _ => none

def numLit : Filter → Option F64
  | .number n => some (env.f64OfInt n)
  | .minus e => (numLit e).map env.f64Neg
  | _ => none

def isNan (f : F64) : Bool := env.f64Cmp f f == none

section Collect

variable {α : Type} (lit : Filter → Option α) (nan : α → Bool) (schema : List Column)

/-- The comparison arm of `cpred::collect`: the column on the left, else on the right with the
operator turned. -/
def comparisonWith (op : Op) (l r : Filter) : Option (List (Term α)) :=
  match env.numericCol schema l, lit r with
  | some col, some rhs => some [.cmp col op rhs]
  | _, _ =>
    match lit l, env.numericCol schema r with
    | some rhs, some col => some [.cmp col op.flip rhs]
    | _, _ => none

/-- `cpred::collect`, for any reading of the literals. -/
def collectWith : Filter → Option (List (Term α))
  | .nested e => collectWith e
  | .binary .and l r => do
    let a ← collectWith l
    let b ← collectWith r
    some (a ++ b)
  | .binary op l r => do
    let cmp ← cmpOp op
    env.comparisonWith lit schema cmp l r
  | .inList negated e items => do
    let col ← env.numericCol schema e
    let vs ← items.mapM lit
    let set := vs.filter fun v => !nan v
    if set.isEmpty then none else some [.inSet col set negated]
  | _ => none

end Collect

def compile (schema : List Column) (f : Filter) : Option (List (Term F64)) :=
  (env.collectWith env.numLit env.isNan schema f).filter fun conj => !conj.isEmpty

/-! ## Matching -/

def asF64 : Value → Option F64
  | .int i => some (env.f64OfInt i.toInt)
  | .uint u => some (env.f64OfInt u.toNat)
  | .float f => some f
  | .bool b => some (env.f64OfInt (if b then 1 else 0))
  | .decimal u s => some (env.f64OfDecimal u s)
  | _ => none

def canonicalF64Bits (f : F64) : F64 :=
  if env.f64IsZero f then 0 else if env.isNan f then 0x7ff8000000000000 else f

/-- One term of `CompiledPredicate::matches`. -/
def termMatches (row : Row) : Term F64 → Bool
  | .cmp col op rhs =>
    match (row[col]?).bind env.asF64 with
    | some x => op.holds (env.f64Cmp x rhs)
    | none => false
  | .inSet col set negated =>
    match (row[col]?).bind env.asF64 with
    | some x => ((set.map env.canonicalF64Bits).contains (env.canonicalF64Bits x)) != negated
    | none => false

/-- `CompiledPredicate::matches`. -/
def compiledMatches (conj : List (Term F64)) (row : Row) : Bool := conj.all (env.termMatches row)

end Env

end ElyraSql.Engine
