import ElyraSql.Engine.KeyBytes
import ElyraSql.Library.FirstOccurrence

/-!
# UNION, INTERSECT and EXCEPT

A UNION chain is run as one list of branches, the other operations pair by pair. Rows are compared
by their collation keys. ORDER BY and LIMIT of the whole query are left out.
-/

namespace ElyraSql.Engine.SetOperations

open FirstOccurrence List

inductive SetOperator where
  | union | intersect | except
deriving DecidableEq

inductive SetQuantifier where
  | all | distinct | byName | allByName | distinctByName | none
deriving DecidableEq

/-- `matches!(set_quantifier, SetQuantifier::All | SetQuantifier::AllByName)`. -/
def SetQuantifier.isAll : SetQuantifier → Bool
  | .all | .allByName => true
  | _ => false

/-- The body of a query; `rows` is any body but a set operation, with its result. -/
inductive SetExpr where
  | rows (result : List Row)
  | setOperation (op : SetOperator) (quantifier : SetQuantifier) (left right : SetExpr)

/-- The branches of a UNION chain, down its left side as long as the quantifier is the same. -/
def flattenUnionChain (quantifier : SetQuantifier) : SetExpr → List SetExpr
  | .setOperation .union q left right =>
    if q = quantifier then flattenUnionChain quantifier left ++ [right]
    else [.setOperation .union q left right]
  | e => [e]

open SetExpr

theorem sizeOf_flattenUnionChain {q : SetQuantifier} {b e : SetExpr}
    (h : b ∈ flattenUnionChain q e) : sizeOf b ≤ sizeOf e := by
  fun_induction flattenUnionChain q e with
  | case1 left right ih =>
    rw [setOperation.sizeOf_spec]
    rcases mem_append.mp h with hb | hb
    · exact (ih hb).trans (by omega)
    · rw [mem_singleton.mp hb]
      omega
  | case2 | case3 => rw [mem_singleton.mp h]

section
variable (key : Row → Bytes)

/-- The rows of all branches, or their first occurrences: one set of keys for the whole chain. -/
def unionRows (all : Bool) (branches : List (List Row)) : List Row :=
  if all then branches.flatten else firsts key [] branches.flatten

/-- The rows of the left side with the keys wanted. Only their keys are put in the set of the keys
seen. -/
def keepRows (all : Bool) (wanted : Bytes → Bool) (left : List Row) : List Row :=
  let kept := left.filter fun r => wanted (key r)
  if all then kept else firsts key [] kept

/-- One operation on the results of its two sides. -/
def pairwise (op : SetOperator) (all : Bool) (left right : List Row) : List Row :=
  match op with
  | .union => unionRows key all [left, right]
  | .intersect => keepRows key all (fun k => decide (k ∈ right.map key)) left
  | .except => keepRows key all (fun k => !decide (k ∈ right.map key)) left

def executeSetQuery : SetExpr → List Row
  | .rows result => result
  | .setOperation .union q left right =>
    unionRows key q.isAll <|
      (flattenUnionChain q left).attach.map (fun b => executeSetQuery b.1) ++
        [executeSetQuery right]
  | .setOperation op q left right =>
    pairwise key op q.isAll (executeSetQuery left) (executeSetQuery right)
decreasing_by
  all_goals simp only [SetExpr.setOperation.sizeOf_spec]
  · have := sizeOf_flattenUnionChain b.2
    omega
  all_goals omega

end

/-- How often a row is in the result by bag semantics, of `m` and `n` times in the two sides. -/
def bagMultiplicity (op : SetOperator) (all : Bool) (m n : Nat) : Nat :=
  match op, all with
  | .union, true => m + n
  | .union, false => if 0 < m + n then 1 else 0
  | .intersect, true => min m n
  | .intersect, false => if 0 < m ∧ 0 < n then 1 else 0
  | .except, true => m - n
  | .except, false => if 0 < m ∧ n = 0 then 1 else 0

variable {key : Row → Bytes}

/-! ## A chain is its pairwise evaluation -/

theorem unionRows_append (all : Bool) (branches : List (List Row)) (rows : List Row) :
    unionRows key all (branches ++ [rows]) =
      unionRows key all [unionRows key all branches, rows] := by
  cases all
  · show firsts key [] (branches ++ [rows]).flatten =
      firsts key [] (firsts key [] _ ++ [rows].flatten)
    rw [flatten_append, firsts_firsts_append]
  · exact flatten_append

theorem executeSetQuery_union (q : SetQuantifier) (left right : SetExpr) :
    executeSetQuery key (.setOperation .union q left right) = unionRows key q.isAll
      ((flattenUnionChain q left).map (executeSetQuery key) ++ [executeSetQuery key right]) := by
  rw [executeSetQuery, attach_map_val]

theorem executeSetQuery_setOperation (op : SetOperator) (q : SetQuantifier) (left right : SetExpr) :
    executeSetQuery key (.setOperation op q left right) =
      pairwise key op q.isAll (executeSetQuery key left) (executeSetQuery key right) := by
  cases op with
  | union =>
    rw [executeSetQuery_union]
    show _ = unionRows key q.isAll [executeSetQuery key left, executeSetQuery key right]
    -- either the left side is a branch itself or it was run as a chain of the same quantifier
    fun_cases flattenUnionChain q left with
    | case1 l r =>
      rw [executeSetQuery_union, unionRows_append, map_append]
      rfl
    | case2 | case3 => rfl
  | intersect | except => rw [executeSetQuery]; nofun

/-! ## Multiplicities -/

variable {k : Bytes} {left right : List Row}

theorem occurrences_keepRows (all : Bool) (wanted : Bytes → Bool) :
    occurrences key k (keepRows key all wanted left) =
      if wanted k then
        if all then occurrences key k left else if 0 < occurrences key k left then 1 else 0
      else 0 := by
  have hkept := occurrences_filter key wanted k left
  cases all
  · show occurrences key k (firsts key [] _) = _
    rw [occurrences_firsts, hkept]
    split <;> rfl
  · exact hkept

theorem occurrences_unionRows (all : Bool) :
    occurrences key k (unionRows key all [left, right]) =
      bagMultiplicity .union all (occurrences key k left) (occurrences key k right) := by
  have hsum : occurrences key k [left, right].flatten =
      occurrences key k left + occurrences key k right := by
    rw [flatten_cons, flatten_cons, flatten_nil, append_nil, occurrences_append]
  cases all
  · show occurrences key k (firsts key [] _) = _
    rw [occurrences_firsts, hsum]
    rfl
  · exact hsum

theorem occurrences_pairwise_iff (op : SetOperator) (all : Bool) :
    occurrences key k (pairwise key op all left right) =
        bagMultiplicity op all (occurrences key k left) (occurrences key k right) ↔
      op = .union ∨ all = false ∨ occurrences key k right = 0 ∨
        occurrences key k left ≤ occurrences key k right := by
  have hin : k ∈ right.map key ↔ 0 < occurrences key k right := occurrences_pos.symm
  cases op with
  | union => exact iff_of_true (occurrences_unionRows all) (.inl rfl)
  | intersect | except =>
    unfold pairwise
    rw [occurrences_keepRows]
    simp only [hin]
    cases all <;> grind [bagMultiplicity]

/-- A set operation of a query is the operation on the results of its two sides, also where a UNION
chain is run as one list of branches, and a row is in its result as often as bag semantics says
exactly if the operation is a UNION, or one without ALL, or the row is not on the right side at all,
or at least as often as on the left. -/
theorem set_operation_multiplicity_iff (env : Env) (debug : Value → Bytes) (op : SetOperator)
    (q : SetQuantifier) (left right : SetExpr) :
    let key := env.rowCollationKey debug []
    let result := executeSetQuery key
    result (.setOperation op q left right) = pairwise key op q.isAll (result left) (result right) ∧
    ∀ k, occurrences key k (result (.setOperation op q left right)) =
        bagMultiplicity op q.isAll (occurrences key k (result left))
          (occurrences key k (result right)) ↔
      op = .union ∨ q.isAll = false ∨ occurrences key k (result right) = 0 ∨
        occurrences key k (result left) ≤ occurrences key k (result right) := by
  intro key result
  refine ⟨executeSetQuery_setOperation op q left right, fun k => ?_⟩
  show occurrences key k (executeSetQuery key _) = _ ↔ _
  rw [executeSetQuery_setOperation]
  exact occurrences_pairwise_iff op q.isAll

/-- `x x INTERSECT ALL x` gives two rows. -/
theorem intersect_all_keeps_both :
    let key := Env.plain.rowCollationKey printed []
    let side := fun n => SetExpr.rows (replicate n [.int 1])
    occurrences key (key [.int 1])
      (executeSetQuery key (.setOperation .intersect .all (side 2) (side 1))) ≠
        bagMultiplicity .intersect true 2 1 := by
  intro key side
  rw [executeSetQuery_setOperation, executeSetQuery, executeSetQuery]
  decide +kernel

end ElyraSql.Engine.SetOperations
