import ElyraSql.Engine.CollationKey
import ElyraSql.Library.SortedMerge

/-!
# Joining two materialised relations

`exec.rs`: `combine` and what it calls. `equi_key_split` splits an `ON` condition into equalities of
two columns that may be hashed and the rest; with such keys an `INNER`, `LEFT` or `RIGHT` join is a
hash join, or a merge join of two large sorted inputs. Every other join is a nested loop, whose test
is a precomputed comparison of two columns (`cross_comparison`) or the evaluator. References are
taken as resolved. The budget and the cancellation are left out: with them a join can only fail.
-/

namespace ElyraSql.Joins

open Engine

abbrev Result (α : Type) := Except Engine.Error α

/-! ## Conditions -/

inductive Side
  | left
  | right
  deriving DecidableEq, Repr

/-- The expressions of a condition. The join looks into columns, parentheses, `AND` and
comparisons; everything else is some function of the two rows. -/
inductive JoinExpr
  | column (side : Side) (i : Nat)
  | nested (e : JoinExpr)
  | collate (e : JoinExpr) (coll : Collation)
  | binary (op : BinaryOp) (l r : JoinExpr)
  | other (explicit : Option Collation) (eval : Row → Row → Result Value)

/-- `expr_col_index`: the column an expression is, in parentheses or not. -/
def exprColIndex : JoinExpr → Option (Side × Nat)
  | .column side i => some (side, i)
  | .nested e => exprColIndex e
  | _ => none

def explicitCollation : JoinExpr → Option Collation
  | .collate _ coll => some coll
  | .nested e => explicitCollation e
  | .other explicit _ => explicit
  | _ => none

/-- `split_and`: the conjuncts of a condition. -/
def splitAnd : JoinExpr → List JoinExpr
  | .binary .and l r => splitAnd l ++ splitAnd r
  | e => [e]

/-- The collation of a column, the default one outside the schema. -/
def collationAt (schema : List Column) (i : Nat) : Collation :=
  (schema[i]?).elim .ci Column.collation

section
variable (env : Env) (L R : List Column)

/-- `predicate::expr_collation` on the two schemas side by side. -/
def exprCollation : JoinExpr → Option Collation
  | .column .left i => some (collationAt L i)
  | .column .right j => some (collationAt R j)
  | .nested e => exprCollation e
  | .collate _ coll => some coll
  | _ => none

def cmpCollation (l r : JoinExpr) : Collation :=
  match (explicitCollation l).or (explicitCollation r) with
  | some coll => coll
  | none =>
    if exprCollation L R l = some .bin ∨ exprCollation L R r = some .bin then .bin else .ci

/-- `eval_row` on two rows side by side. -/
def evalRow (l r : Row) : JoinExpr → Result Value
  | .column .left i => .ok (l.getD i .null)
  | .column .right j => .ok (r.getD j .null)
  | .nested e => evalRow l r e
  | .collate e _ => evalRow l r e
  | .binary op a b => do
    let x ← evalRow l r a
    env.binaryOp op x (evalRow l r b) (cmpCollation L R a b)
  | .other _ f => f l r

/-- `predicate::matches`. -/
def matchesRow (e : JoinExpr) (l r : Row) : Result Bool := (evalRow env L R l r e).map env.truthy

/-! ## Keys -/

/-- A pair of key columns, by their positions. -/
abbrev JoinKeyPair := Nat × Nat

def joinKeyCollation (key : JoinKeyPair) : Collation :=
  if collationAt L key.1 = .bin ∨ collationAt R key.2 = .bin then .bin else .ci

/-- `equi_keys` where both sides are columns. -/
def equiKeys : JoinExpr → Option JoinKeyPair
  | .binary .eq a b =>
    match exprColIndex a, exprColIndex b with
    | some (.left, i), some (.right, j) => some (i, j)
    | some (.right, j), some (.left, i) => some (i, j)
    | _, _ => none
  | _ => none

/-- `hash_key_pairs_compatible`. -/
def hashKeyPairCompatible (key : JoinKeyPair) : Bool :=
  match L[key.1]?, R[key.2]? with
  | some c, some d => hashKeyTypesCompatible c.ty d.ty
  | _, _ => false

/-- The key a conjunct gives, if it is one that can be hashed. -/
def hashKeyOf (conjunct : JoinExpr) : Option JoinKeyPair :=
  (equiKeys conjunct).filter (hashKeyPairCompatible L R)

/-- Conjuncts ANDed together again, from the left. -/
def conjoin : List JoinExpr → Option JoinExpr
  | [] => none
  | e :: es => some (es.foldl (.binary .and) e)

/-- `equi_key_split`: the keys, and the other conjuncts. -/
def equiKeySplit (on : JoinExpr) : Option (List JoinKeyPair × Option JoinExpr) :=
  let keys := (splitAnd on).filterMap (hashKeyOf L R)
  let rest := (splitAnd on).filter fun c => (hashKeyOf L R c).isNone
  if keys.isEmpty then none else some (keys, conjoin rest)

/-! ## Kinds of joins and loops -/

inductive JoinKind
  | inner
  | left
  | right
  | full
  deriving DecidableEq, Repr

def JoinKind.keepsLeft : JoinKind → Bool
  | .left | .full => true
  | _ => false

def JoinKind.keepsRight : JoinKind → Bool
  | .right | .full => true
  | _ => false

def nulls (n : Nat) : Row := List.replicate n .null

/-- The verdicts of a test on a list of rows. -/
def verdicts (test : Row → Result Bool) : List Row → Result (List Bool)
  | [] => .ok []
  | b :: bs => do
    let v ← test b
    let vs ← verdicts test bs
    .ok (v :: vs)

def kept (bs : List Row) (vs : List Bool) : List Row := ((bs.zip vs).filter Prod.snd).map Prod.fst

/-- A loop that collects the rows of each round. -/
def collect (f : Row → Result (List Row)) : List Row → Result (List Row)
  | [] => .ok []
  | a :: as => do
    let x ← f a
    let xs ← collect f as
    .ok (x ++ xs)

/-! ## The hash join -/

/-- `composite_key_bytes`: `none` if a key is NULL. -/
def compositeKey (row : Row) : List (Nat × Collation) → Option (List CollationKey)
  | [] => some []
  | (i, coll) :: cols =>
    if (row.getD i .null).isNull then none
    else (compositeKey row cols).map (env.collationKey coll (row.getD i .null) :: ·)

def residualMatches (residual : Option JoinExpr) (l r : Row) : Result Bool :=
  match residual with
  | some e => matchesRow env L R e l r
  | none => .ok true

/-- One round of the probe loop: the rows of the built side with the key of this one, in their
order, tested by the residual condition. -/
def probeRow (key : Option (List CollationKey)) (built : List Row)
    (builtKey : Row → Option (List CollationKey)) (test : Row → Result Bool)
    (joined : Row → Row) (padded : List Row) : Result (List Row) := do
  let candidates := if key.isNone then [] else built.filter fun b => builtKey b = key
  let vs ← verdicts test candidates
  let found := kept candidates vs
  .ok (if found.isEmpty then padded else found.map joined)

/-- Which side is built: the side an outer join does not keep, or the smaller one. -/
def buildsLeft (lrows rrows : List Row) : JoinKind → Bool
  | .left => false
  | .right => true
  | _ => decide (lrows.length ≤ rrows.length)

def hashJoin (lrows rrows : List Row) (keys : List JoinKeyPair) (residual : Option JoinExpr)
    (kind : JoinKind) : Result (List Row) :=
  let lkey := fun l => compositeKey env l (keys.map fun k => (k.1, joinKeyCollation L R k))
  let rkey := fun r => compositeKey env r (keys.map fun k => (k.2, joinKeyCollation L R k))
  let rest := residualMatches env L R residual
  let outer := decide (kind ≠ .inner)
  if buildsLeft lrows rrows kind then
    collect (fun r => probeRow (rkey r) lrows lkey (fun l => rest l r) (fun l => l ++ r)
      (if outer then [nulls L.length ++ r] else [])) rrows
  else
    collect (fun l => probeRow (lkey l) rrows rkey (fun r => rest l r) (fun r => l ++ r)
      (if outer then [l ++ nulls R.length] else [])) lrows

/-! ## The merge join -/

/-- `sorted_keyed`: the rows with their keys, without the NULL keys, if the keys ascend. -/
def sortedKeyed (i : Nat) : Option Value → List Row → Option (List (Value × Row))
  | _, [] => some []
  | last, r :: rs =>
    let k := r.getD i .null
    if k.isNull then sortedKeyed i last rs
    else
      match last.map fun p => env.compareValues p k with
      | some (some .gt) | some none => none
      | _ => (sortedKeyed i (some k) rs).map ((k, r) :: ·)

def mergeJoinInner (l r : List (Value × Row)) : Option (List Row) :=
  let cmp := fun (x y : Value × Row) => env.compareValues x.1 y.1
  (SortedMerge.merge cmp cmp cmp l r).map fun out => out.map fun p => p.1.2 ++ p.2.2

def mergeMin : Nat := 2048

/-- The merge join, where the keys and the sizes of the inputs allow it and they are sorted. -/
def tryMerge (lrows rrows : List Row) (keys : List JoinKeyPair) (residual : Option JoinExpr)
    (kind : JoinKind) : Option (List Row) :=
  match keys, residual with
  | [key], none =>
    if joinKeyCollation L R key ≠ .bin ∧ kind = .inner ∧ mergeMin ≤ lrows.length ∧
        mergeMin ≤ rrows.length then do
      let l ← sortedKeyed env key.1 none lrows
      let r ← sortedKeyed env key.2 none rrows
      mergeJoinInner env l r
    else none
  | _, _ => none

/-! ## The nested loop -/

structure CrossComparison where
  leftCol : Nat
  rightCol : Nat
  bin : Bool
  op : BinaryOp
  deriving DecidableEq, Repr

/-- The test of `CrossComparison::matches_row` on the order of two values. -/
def crossTest : BinaryOp → Option Ordering → Bool
  | .eq, o => o == some .eq
  | .notEq, o => o.any (· != .eq)
  | .lt, o => o == some .lt
  | .ltEq, o => o.any (· != .gt)
  | .gt, o => o == some .gt
  | .gtEq, o => o.any (· != .lt)
  | _, _ => false

def CrossComparison.matchesRow (c : CrossComparison) (l r : Row) : Bool :=
  let x := l.getD c.leftCol .null
  let y := r.getD c.rightCol .null
  !x.isNull && !y.isNull && crossTest c.op (env.compareColl (if c.bin then .bin else .ci) x y)

def isComparison : BinaryOp → Bool
  | .and | .or => false
  | _ => true

/-- `cross_comparison`. With the operands in the order right, left only the columns are exchanged,
not the operator, and each operand's collation is looked up in the schema of the other side, where
it is not found. -/
def crossComparison : JoinExpr → Option CrossComparison
  | .binary op a b =>
    if !isComparison op then none
    else
      match exprColIndex a, exprColIndex b with
      | some (.left, i), some (.right, j) =>
        some ⟨i, j, decide (collationAt L i = .bin) || decide (collationAt R j = .bin), op⟩
      | some (.right, j), some (.left, i) => some ⟨i, j, false, op⟩
      | _, _ => none
  | _ => none

/-- The test of the nested loop. -/
def pairTest (on : Option JoinExpr) (l r : Row) : Result Bool :=
  match on with
  | some e =>
    match crossComparison L R e with
    | some c => .ok (c.matchesRow env l r)
    | none => matchesRow env L R e l r
  | none => .ok true

/-- The loops over the left and the right rows: what they emit, and which right rows matched. -/
def nestedLoop (test : Row → Row → Result Bool) (padded : Row → List Row) (rrows : List Row) :
    List Row → Result (List Row × List Bool)
  | [] => .ok ([], List.replicate rrows.length false)
  | l :: ls => do
    let vs ← verdicts (test l) rrows
    let (out, matched) ← nestedLoop test padded rrows ls
    .ok ((if vs.any id then (kept rrows vs).map (l ++ ·) else padded l) ++ out,
      List.zipWith (· || ·) vs matched)

def nestedJoin (lrows rrows : List Row) (kind : JoinKind) (on : Option JoinExpr) :
    Result (List Row) := do
  let padded := fun l => if kind.keepsLeft then [l ++ nulls R.length] else []
  let (out, matched) ← nestedLoop (pairTest env L R on) padded rrows lrows
  let unmatched := kept rrows (matched.map (!·))
  .ok (out ++ if kind.keepsRight then unmatched.map (nulls L.length ++ ·) else [])

/-! ## The choice -/

/-- The keys of a hash or merge join and its residual condition, if the join is one. -/
def hashPlan (kind : JoinKind) (on : Option JoinExpr) :
    Option (List JoinKeyPair × Option JoinExpr) :=
  if kind = .full then none else on.bind (equiKeySplit L R)

/-- `combine`, with an `ON` condition or none. -/
def combine (lrows rrows : List Row) (kind : JoinKind) (on : Option JoinExpr) :
    Result (List Row) :=
  match hashPlan L R kind on with
  | some (keys, residual) =>
    match tryMerge env L R lrows rrows keys residual kind with
    | some out => .ok out
    | none => hashJoin env L R lrows rrows keys residual kind
  | none => nestedJoin env L R lrows rrows kind on

end

end ElyraSql.Joins
