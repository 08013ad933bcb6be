import ElyraSql.Storage.Store

/-!
# Values, collations and comparison

`elyra-core/src/value.rs` and `types.rs`: the runtime values, the text collations, and the SQL
comparison `compare_coll` with its implicit conversions. Floating point, parsing of dates and
numbers, case folding of characters beyond ASCII and stemming are fields of `Env`.
-/

namespace ElyraSql.Engine

/-! ## Types -/

/-- A `String` of the source. -/
abbrev Text := List Char

/-- An `f64`, by its bit pattern. -/
abbrev F64 := UInt64

/-- An `i128`. -/
abbrev I128 := BitVec 128

inductive Collation
  | ci
  | bin
  deriving DecidableEq, Repr

inductive ColumnType
  | bool
  | int
  | float
  | text
  | bytes
  | vector (dim : UInt32)
  | date
  | dateTime
  | decimal (precision scale : Nat)
  | time
  | json
  | uint
  deriving DecidableEq, Repr

/-- `elyra_core::Value`. An `f32` of a vector is its bit pattern. -/
inductive Value
  | null
  | bool (b : Bool)
  | int (i : Int64)
  | float (f : F64)
  | text (s : Text)
  | bytes (b : Bytes)
  | vector (v : List UInt32)
  | date (days : Int32)
  | dateTime (micros : Int64)
  | decimal (units : I128) (scale : Nat)
  | time (micros : Int64)
  | json (s : Text)
  | uint (u : UInt64)
  deriving DecidableEq, Repr

abbrev Row := List Value

def Value.isNull : Value → Bool
  | .null => true
  | _ => false

/-- The functions the engine takes from outside the modelled code. -/
structure Env where
  /-- Folding of one character beyond ASCII: `collfold::fold_char`, else Unicode lower case. -/
  foldWide : Char → Text
  /-- `identifier_lowercase` of one character beyond ASCII. -/
  identifierWide : Char → Text
  parseDate : Text → Option Int32
  parseDateTime : Text → Option Int64
  parseTime : Text → Option Int64
  /-- `str::parse::<i64>`, `u64` and `f64`, after `trim`. -/
  parseI64 : Text → Option Int64
  parseU64 : Text → Option UInt64
  parseF64 : Text → Option F64
  /-- `mysql_numeric_prefix` and `mysql_integer_prefix`. -/
  numericPrefix : Text → F64
  integerPrefix : Text → Int64
  parseDecimal : Text → Nat → Option (I128 × Nat)
  rescaleDecimal : I128 → Nat → Nat → Option I128
  isValidJson : Text → Bool
  parseVector : Text → UInt32 → Option (List UInt32)
  f64OfInt : Int → F64
  /-- `units as f64 / 10f64.powi(scale)`. -/
  f64OfDecimal : I128 → Nat → F64
  /-- `f64::partial_cmp`. -/
  f64Cmp : F64 → F64 → Option Ordering
  f64Neg : F64 → F64
  f64IsZero : F64 → Bool
  /-- `f.round() as i64`, and `f.round() as u64` where `f` is finite and in range. -/
  f64Round : F64 → Int64
  f64RoundU64 : F64 → Option UInt64
  f64IsSignNegative : F64 → Bool
  /-- `to_wire_string` of the values that are not written digit by digit or kept as they are. -/
  wireOther : Value → Text
  isAlphanumeric : Char → Bool
  isWhitespace : Char → Bool
  /-- `ft::stem`: lower case, then the Snowball stemmer. -/
  stem : Text → Text
  /-- The value of a niladic function such as `CURRENT_TIMESTAMP`. -/
  niladic : Text → Option Value
  systemVar : Text → Value

/-! ## Text -/

/-- The bytes of a string. -/
def utf8 (s : Text) : Bytes := s.flatMap fun c => (String.utf8EncodeChar c).map UInt8.toFin

def isAscii (c : Char) : Bool := c.toNat < 128

/-- `char::to_ascii_lowercase`. -/
def asciiLower (c : Char) : Char :=
  if 'A' ≤ c ∧ c ≤ 'Z' then Char.ofNat (c.toNat + 32) else c

namespace Env

variable (env : Env)

/-- `value::fold`: the key under which the default collation compares text. -/
def fold (s : Text) : Text :=
  s.flatMap fun c => if isAscii c then [asciiLower c] else env.foldWide c

def identifierEq (a b : Text) : Bool :=
  let lower := fun c => if isAscii c then [asciiLower c] else env.identifierWide c
  a.flatMap lower == b.flatMap lower

/-- The bytes by which a text is compared and indexed under a collation. -/
def collated (coll : Collation) (s : Text) : Bytes :=
  match coll with
  | .bin => utf8 s
  | .ci => utf8 (env.fold s)

/-! ## Comparison -/

def asMysqlF64 : Value → Option F64
  | .text s | .json s => some (env.numericPrefix s)
  | .int i => some (env.f64OfInt i.toInt)
  | .uint u => some (env.f64OfInt u.toNat)
  | .float f => some f
  | .bool b => some (env.f64OfInt (if b then 1 else 0))
  | .decimal u s => some (env.f64OfDecimal u s)
  | _ => none

def microsPerDay : Int := 86400000000

def toDays : Value → Option Int
  | .date d => some d.toInt
  | .dateTime m => some (m.toInt.fdiv microsPerDay)
  | .int i => some i.toInt
  | .text s =>
    ((env.parseDate s).map Int32.toInt).or
      ((env.parseDateTime s).map fun m => m.toInt.fdiv microsPerDay)
  | _ => none

def toMicros : Value → Option Int
  | .dateTime t => some t.toInt
  | .date d => some (d.toInt * microsPerDay)
  | .int i => some i.toInt
  | .text s => (env.parseDateTime s).map Int64.toInt
  | _ => none

def toMicrosOfDay : Value → Option Int
  | .time t => some t.toInt
  | .text s => (env.parseTime s).map Int64.toInt
  | _ => none

/-- `i128::saturating_mul` of `u` and a power of ten. -/
def saturatingScale (u : I128) (digits : Nat) : Int :=
  max (-2 ^ 127) (min (2 ^ 127 - 1) (u.toInt * min (10 ^ digits) (2 ^ 127 - 1)))

def cmpDecimal (au : I128) (asc : Nat) (bu : I128) (bsc : Nat) : Ordering :=
  let s := max asc bsc
  compare (saturatingScale au (s - asc)) (saturatingScale bu (s - bsc))

/-- The comparison of two numeric views. -/
def cmpNumeric (a b : Value) : Option Ordering :=
  (env.asMysqlF64 a).bind fun x => (env.asMysqlF64 b).bind fun y => env.f64Cmp x y

/-- Two optional views, compared when both exist. -/
def cmpViews (x y : Option Int) : Option Ordering := x.bind fun a => y.map fun b => compare a b

/-- `Value::compare_coll`. The arms stand in the order of the source: a date on either side
decides before a datetime, and so on down to the numeric views. Under either collation a JSON
document against a text is compared in the order document, text, whichever side it is on. -/
def compareColl (coll : Collation) (a b : Value) : Option Ordering :=
  match a, b with
  | .null, _ => none
  | _, .null => none
  | .text s, .text t => some (compare (env.collated coll s) (env.collated coll t))
  | .json s, .json t => some (compare (env.collated coll s) (env.collated coll t))
  | .json s, .text t => some (compare (env.collated coll s) (env.collated coll t))
  | .text t, .json s => some (compare (env.collated coll s) (env.collated coll t))
  | .date _, _ => cmpViews (env.toDays a) (env.toDays b)
  | _, .date _ => cmpViews (env.toDays a) (env.toDays b)
  | .dateTime _, _ => cmpViews (env.toMicros a) (env.toMicros b)
  | _, .dateTime _ => cmpViews (env.toMicros a) (env.toMicros b)
  | .decimal au asc, .decimal bu bsc => some (cmpDecimal au asc bu bsc)
  | .decimal .., _ => env.cmpNumeric a b
  | _, .decimal .. => env.cmpNumeric a b
  | .time _, _ => cmpViews (env.toMicrosOfDay a) (env.toMicrosOfDay b)
  | _, .time _ => cmpViews (env.toMicrosOfDay a) (env.toMicrosOfDay b)
  | .bool x, .bool y => some (compare x.toNat y.toNat)
  | .bytes x, .bytes y => some (compare x y)
  | .bytes x, .text t => some (compare x (utf8 t))
  | .bytes x, .json t => some (compare x (utf8 t))
  | .text s, .bytes y => some (compare (utf8 s) y)
  | .json s, .bytes y => some (compare (utf8 s) y)
  | .uint x, .uint y => some (compare x.toNat y.toNat)
  | .int x, .int y => some (compare x.toInt y.toInt)
  | .uint x, .int y => some (compare (x.toNat : Int) y.toInt)
  | .int x, .uint y => some (compare x.toInt (y.toNat : Int))
  | _, _ => env.cmpNumeric a b

/-- `Value::compare`. -/
def compareValues (a b : Value) : Option Ordering := env.compareColl .ci a b

def truthy : Value → Bool
  | .bool b => b
  | .int i => i != 0
  | .uint u => u != 0
  | .float f => !env.f64IsZero f
  | .decimal u _ => u != 0
  | .null => false
  | v => (env.asMysqlF64 v).any fun f => !env.f64IsZero f

def bool3 (v : Value) : Option Bool := if v.isNull then none else some (env.truthy v)

/-! ## Rendering -/

def digits (n : Nat) : Text := Nat.toDigits 10 n

def toWireString : Value → Option Text
  | .null => none
  | .bool b => some (if b then ['1'] else ['0'])
  | .int i => some (if i.toInt < 0 then '-' :: digits i.toInt.natAbs else digits i.toInt.natAbs)
  | .uint u => some (digits u.toNat)
  | .text s => some s
  | .json s => some s
  | v => some (env.wireOther v)

end Env

/-- Integers and ASCII text only: nothing else is parsed, rounded or stemmed. For evaluating the
model on concrete inputs. -/
def Env.plain : Env where
  foldWide c := [c]
  identifierWide c := [c]
  parseDate _ := none
  parseDateTime _ := none
  parseTime _ := none
  parseI64 _ := none
  parseU64 _ := none
  parseF64 _ := none
  numericPrefix _ := 0
  integerPrefix _ := 0
  parseDecimal _ _ := none
  rescaleDecimal _ _ _ := none
  isValidJson _ := false
  parseVector _ _ := none
  f64OfInt i := UInt64.ofNat i.natAbs
  f64OfDecimal _ _ := 0
  f64Cmp x y := some (compare x.toNat y.toNat)
  f64Neg f := f
  f64IsZero f := f == 0
  f64Round _ := 0
  f64RoundU64 _ := none
  f64IsSignNegative _ := false
  wireOther _ := []
  isAlphanumeric c := c.isAlphanum
  isWhitespace c := c == ' '
  stem s := s
  niladic _ := none
  systemVar _ := .null

/-! ## Errors -/

/-- The errors of the modelled engine functions, with what their texts name. -/
inductive Error
  /-- A message of the storage layer, or a stored value of the wrong kind. -/
  | storage (message : Text)
  | noSuchTable (table : Text)
  | unknownColumn (name : Text)
  | ambiguousColumn (name : Text)
  | notKeyType (v : Value)
  | columnOutsideRow
  | invalidLiteral (v : Value) (ty : ColumnType)
  | notNull (column : Text)
  | checkViolated (name : Text)
  | dataTruncated (column : Text) (row : Nat)
  | duplicateUnique
  | duplicatePrimary
  | indexExists (name : Text)
  | unknownIndex (name : Text)
  | noIndexColumn
  | row (message : Text)
  | outOfBatches
  deriving DecidableEq, Repr

end ElyraSql.Engine
