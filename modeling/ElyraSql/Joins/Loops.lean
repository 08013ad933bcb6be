import ElyraSql.Joins.Conditions

/-!
# What the loops of a join compute

The nested loop, the hash join and the merge join against the join of two multisets: each, where
its tests do not fail, gives the pairs its tests accept and the padded rows of the kept sides.
-/

namespace ElyraSql.Joins

open Engine Pairing Env Bool

/-- The row of a pair, with NULLs for a missing side. -/
def emit (llen rlen : Nat) : Option Row × Option Row → Row
  | (l, r) => l.getD (nulls llen) ++ r.getD (nulls rlen)

section
variable {env : Env} {L R : List Column} {kind : JoinKind} {lrows rrows : List Row}

def joined (L R : List Column) (kind : JoinKind) (on : Row → Row → Bool)
    (lrows rrows : List Row) : Multiset Row :=
  (join kind.keepsLeft kind.keepsRight on ↑lrows ↑rrows).map (emit L.length R.length)

theorem joined_congr {on on' : Row → Row → Bool}
    (h : ∀ l ∈ lrows, ∀ r ∈ rrows, on l r = on' l r) :
    joined L R kind on lrows rrows = joined L R kind on' lrows rrows := by
  rw [joined, joined, join_congr h]

/-! ## Loops -/

variable {test : Row → Result Bool}

theorem verdicts_ok {bs : List Row} (h : ∀ b ∈ bs, ∃ v, test b = .ok v) :
    verdicts test bs = .ok (bs.map fun b => truth (test b)) := by
  induction bs with
  | nil => rfl
  | cons b bs ih =>
    obtain ⟨v, hv⟩ := h b List.mem_cons_self
    rw [verdicts, ih fun b hb => h b (List.mem_cons_of_mem _ hb), List.map_cons, hv]
    rfl

theorem kept_map (bs : List Row) (p : Row → Bool) : kept bs (bs.map p) = bs.filter p := by
  induction bs with
  | nil => rfl
  | cons b bs ih =>
    rw [kept] at ih ⊢
    cases hb : p b <;> simp [hb, ih]

theorem collect_ok {f : Row → Result (List Row)} {g : Row → List Row} {as : List Row}
    (h : ∀ a ∈ as, f a = .ok (g a)) : collect f as = .ok (as.flatMap g) := by
  induction as with
  | nil => rfl
  | cons a as ih =>
    rw [collect, h a List.mem_cons_self, ih fun b hb => h b (List.mem_cons_of_mem _ hb)]
    rfl

/-- A loop over the left side with a test of the right rows. -/
theorem coe_loop_left (keep : Bool) (on : Row → Row → Bool) :
    ((lrows.flatMap fun l => if rrows.any (on l) then (rrows.filter (on l)).map (l ++ ·)
      else if keep then [l ++ nulls R.length] else [] : List Row) : Multiset Row) =
      (join keep false on ↑lrows ↑rrows).map (emit L.length R.length) := by
  rw [← coe_flatMap_rowOf, Multiset.map_coe, List.map_flatMap]
  refine congrArg _ (List.flatMap_congr fun l _ => ?_)
  rw [rowOf]
  split
  · rw [List.map_map]
    rfl
  · split <;> rfl

/-- A loop over the right side with a test of the left rows. -/
theorem coe_loop_right (keep : Bool) (on : Row → Row → Bool) :
    ((rrows.flatMap fun r => if lrows.any (fun l => on l r) then
        (lrows.filter fun l => on l r).map (· ++ r)
      else if keep then [nulls L.length ++ r] else [] : List Row) : Multiset Row) =
      (join false keep on ↑lrows ↑rrows).map (emit L.length R.length) := by
  rw [← join_swap, ← coe_flatMap_rowOf, Multiset.map_map, Multiset.map_coe, List.map_flatMap]
  refine congrArg _ (List.flatMap_congr fun r _ => ?_)
  rw [rowOf]
  split
  · rw [List.map_map]
    rfl
  · split <;> rfl

/-! ## The nested loop -/

theorem nestedLoop_ok {test : Row → Row → Result Bool} {padded : Row → List Row}
    (h : ∀ l ∈ lrows, ∀ r ∈ rrows, ∃ v, test l r = .ok v) :
    nestedLoop test padded rrows lrows =
      .ok (lrows.flatMap fun l =>
          if rrows.any fun r => truth (test l r) then
            (rrows.filter fun r => truth (test l r)).map (l ++ ·)
          else padded l,
        rrows.map fun r => lrows.any fun l => truth (test l r)) := by
  induction lrows with
  | nil => simp [nestedLoop]
  | cons l ls ih =>
    rw [nestedLoop, verdicts_ok (h l List.mem_cons_self),
      ih fun x hx => h x (List.mem_cons_of_mem _ hx)]
    simp only [bind, Except.bind, kept_map, List.any_map, List.zipWith_map, List.zipWith_self]
    rfl

theorem nestedJoin_ok {on : Option JoinExpr}
    (h : ∀ l ∈ lrows, ∀ r ∈ rrows, ∃ v, pairTest env L R on l r = .ok v) :
    ∃ out, nestedJoin env L R lrows rrows kind on = .ok out ∧
      (out : Multiset Row) =
        joined L R kind (fun l r => truth (pairTest env L R on l r)) lrows rrows := by
  set test := fun l r => truth (pairTest env L R on l r) with htest
  rw [nestedJoin, nestedLoop_ok h]
  refine ⟨_, rfl, ?_⟩
  have hright : lonely (fun r l => test l r) (rrows : Multiset Row) ↑lrows =
      ((rrows.filter fun r => !lrows.any fun l => test l r : List Row) : Multiset Row) := by
    refine congrArg _ (List.filter_congr fun r _ => ?_)
    rw [Bool.eq_iff_iff, not_eq_true_eq_eq_false]
    simp
  rw [joined, join_keepRight, Multiset.map_add, ← coe_loop_left, hright]
  rw [List.map_map, kept_map]
  cases kind.keepsRight
  · rfl
  · simp [emit, Function.comp_def, htest]

/-! ## The hash join -/

/-- Two keys meet: they are the same, and none is NULL. -/
def sameKeys (x y : Option (List CollationKey)) : Bool := x.isSome && decide (x = y)

theorem sameKeys_comm (x y : Option (List CollationKey)) : sameKeys x y = sameKeys y x := by
  rcases x with _ | x <;> rcases y with _ | y <;> simp [sameKeys, eq_comm]

theorem probeRow_ok {key : Option (List CollationKey)} {built : List Row}
    {builtKey : Row → Option (List CollationKey)} {paste : Row → Row} {padded : List Row}
    (htest : ∀ b ∈ built, sameKeys key (builtKey b) = true → ∃ v, test b = .ok v) :
    let on := fun b => sameKeys key (builtKey b) && truth (test b)
    probeRow key built builtKey test paste padded =
      .ok (if built.any on then (built.filter on).map paste else padded) := by
  intro on
  have hcands : (if key.isNone then [] else built.filter fun b => builtKey b = key) =
      built.filter fun b => sameKeys key (builtKey b) := by
    cases key with
    | none => exact (List.filter_eq_nil_iff.mpr fun b _ => by simp [sameKeys]).symm
    | some c => exact List.filter_congr fun b _ => by simp [sameKeys, eq_comm]
  have hfound : ((built.filter fun b => sameKeys key (builtKey b)).filter
      fun b => truth (test b)) = built.filter on := by
    rw [List.filter_filter]
    exact List.filter_congr fun b _ => and_comm _ _
  rw [probeRow, hcands]
  simp only [bind, Except.bind]
  rw [verdicts_ok fun b hb => htest b (List.mem_filter.mp hb).1 (List.mem_filter.mp hb).2]
  simp only [kept_map, hfound]
  cases hany : built.any on
  · have hnil : built.filter on = [] := List.filter_eq_nil_iff.mpr (List.any_eq_false.mp hany)
    rw [hnil]
    rfl
  · obtain ⟨b, hb, hon⟩ := List.any_eq_true.mp hany
    rw [List.isEmpty_eq_false_iff_exists_mem.mpr ⟨b, List.mem_filter.mpr ⟨hb, hon⟩⟩]
    rfl

/-- The keys of two rows meet iff they are the same for every pair of key columns. -/
theorem sameKeys_compositeKey (l r : Row) (keys : List JoinKeyPair) :
    sameKeys (compositeKey env l (keys.map fun k => (k.1, joinKeyCollation L R k)))
        (compositeKey env r (keys.map fun k => (k.2, joinKeyCollation L R k))) =
      keys.all (keyEqual env L R l r) := by
  induction keys with
  | nil => rfl
  | cons k keys ih =>
    rw [List.map_cons, List.map_cons, compositeKey, compositeKey, List.all_cons, ← ih, keyEqual]
    cases (l.getD k.1 .null).isNull
    · cases (r.getD k.2 .null).isNull
      · generalize compositeKey env l _ = xs
        generalize compositeKey env r _ = ys
        rcases xs with _ | xs <;> rcases ys with _ | ys <;>
          simp [sameKeys, beq_eq_decide]
      · exact sameKeys_comm _ none
    · rfl

theorem keeps_of_builds (hkind : kind ≠ .full) :
    if buildsLeft lrows rrows kind then
      kind.keepsLeft = false ∧ kind.keepsRight = decide (kind ≠ .inner)
    else kind.keepsRight = false ∧ kind.keepsLeft = decide (kind ≠ .inner) := by
  cases kind with
  | full => exact absurd rfl hkind
  | inner => split <;> exact ⟨rfl, rfl⟩
  | _ => exact ⟨rfl, rfl⟩

variable {residual : Option JoinExpr} {keys : List JoinKeyPair}

theorem hashJoin_ok (hkind : kind ≠ .full)
    (hres : ∀ l ∈ lrows, ∀ r ∈ rrows, keys.all (keyEqual env L R l r) = true → ∃ v,
      residualMatches env L R residual l r = .ok v) :
    ∃ out, hashJoin env L R lrows rrows keys residual kind = .ok out ∧
      (out : Multiset Row) = joined L R kind (fun l r => keys.all (keyEqual env L R l r) &&
        truth (residualMatches env L R residual l r)) lrows rrows := by
  have hkeep := @keeps_of_builds kind lrows rrows hkind
  rw [hashJoin]
  split at hkeep
  · next hbuild =>
    rw [if_pos hbuild, joined, hkeep.1, hkeep.2]
    refine ⟨_, collect_ok fun r hr => ?_, coe_loop_right ..⟩
    rw [probeRow_ok fun l hl hsame => hres l hl r hr ?_]
    · simp only [sameKeys_comm (compositeKey env r _), sameKeys_compositeKey]
    · rwa [sameKeys_comm, sameKeys_compositeKey] at hsame
  · next hbuild =>
    rw [if_neg hbuild, joined, hkeep.1, hkeep.2]
    refine ⟨_, collect_ok fun l hl => ?_, coe_loop_left ..⟩
    rw [probeRow_ok fun r hr hsame => hres l hl r hr ?_]
    · simp only [sameKeys_compositeKey]
    · rwa [sameKeys_compositeKey] at hsame

/-! ## The merge join -/

open SortedMerge

def keyedRows (i : Nat) (rows : List Row) : List (Value × Row) :=
  (rows.filter fun r => !(r.getD i .null).isNull).map fun r => (r.getD i .null, r)

/-- The place of a key under the default collation. -/
def keyPlace (env : Env) (p : Value × Row) : ℤ ×ₗ Bytes := env.place .ci p.1

theorem joined_inner (on : Row → Row → Bool) :
    joined L R .inner on lrows rrows = (pairs on ↑lrows ↑rrows).map fun p => p.1 ++ p.2 := by
  simp [joined, join, JoinKind.keepsLeft, JoinKind.keepsRight, emit, Function.comp_def]

variable {s t : ColumnType}

theorem compareValues_place {x y : Value} (hst : hashKeyTypesCompatible s t = true)
    (hdir : ¬ (s = .text ∧ t = .json)) (hx : s.Holds x) (hy : t.Holds y) :
    env.compareValues x y = some (cmp (env.place .ci x) (env.place .ci y)) := by
  rw [compareValues, compareColl_place hx hy hst, if_neg hdir]

theorem not_text_json (s : ColumnType) : ¬ (s = .text ∧ s = .json) := by
  rintro ⟨rfl, h⟩
  exact nomatch h

theorem keyedRows_holds {i : Nat} {rows : List Row}
    (h : ∀ r ∈ rows, (r.getD i .null).isNull = false → s.Holds (r.getD i .null)) :
    ∀ p ∈ keyedRows i rows, s.Holds p.1 := by
  intro p hp
  obtain ⟨r, hr, rfl⟩ := List.mem_map.mp hp
  obtain ⟨hmem, hnull⟩ := List.mem_filter.mp hr
  exact h r hmem (by simpa using hnull)

theorem sortedKeyed_ok (hs : hashKeyTypesCompatible s s = true) (i : Nat) {rows : List Row}
    (hrows : ∀ p ∈ keyedRows i rows, s.Holds p.1) {last : Option Value}
    (hlast : ∀ p ∈ last, s.Holds p) {out : List (Value × Row)}
    (h : sortedKeyed env i last rows = some out) :
    out = keyedRows i rows ∧ Ascending (keyPlace env) out ∧
      ∀ p ∈ last, ∀ k ∈ out, env.place .ci p ≤ keyPlace env k := by
  induction rows generalizing last out with
  | nil =>
    cases h
    exact ⟨rfl, .nil, fun _ _ k hk => nomatch hk⟩
  | cons r rows ih =>
    rw [sortedKeyed] at h
    cases hnull : (r.getD i .null).isNull with
    | true =>
      have hkeyed : keyedRows i (r :: rows) = keyedRows i rows := by
        rw [keyedRows, List.filter_cons_of_neg (by rw [hnull]; exact false_ne_true)]
        rfl
      rw [hkeyed] at hrows ⊢
      exact ih hrows hlast (by simpa only [hnull, if_true] using h)
    | false =>
      have hkeyed : keyedRows i (r :: rows) = (r.getD i .null, r) :: keyedRows i rows := by
        rw [keyedRows, List.filter_cons_of_pos (by rw [hnull]; rfl)]
        rfl
      rw [hkeyed] at hrows ⊢
      have hk := hrows _ List.mem_cons_self
      simp only [hnull, false_eq_true, if_false] at h
      -- The key is not below the last one, and the rest is sorted from it on.
      have hle : ∀ p ∈ last, env.place .ci p ≤ env.place .ci (r.getD i .null) := by
        rintro p rfl
        rw [Option.map_some, compareValues_place hs (not_text_json s) (hlast p rfl) hk] at h
        refine not_lt.mp fun hlt => ?_
        rw [(cmp_eq_gt_iff _ _).mpr hlt] at h
        exact nomatch h
      obtain ⟨rest, hrest, rfl⟩ : ∃ rest, sortedKeyed env i (some (r.getD i .null)) rows =
          some rest ∧ out = (r.getD i .null, r) :: rest := by
        split at h
        · exact nomatch h
        · exact nomatch h
        · obtain ⟨rest, hrest, hout⟩ := Option.map_eq_some_iff.mp h
          exact ⟨rest, hrest, hout.symm⟩
      obtain ⟨heq, hasc, habove⟩ := ih (fun p hp => hrows p (List.mem_cons_of_mem _ hp))
        (by rintro p ⟨⟩; exact hk) hrest
      refine ⟨by rw [heq], List.pairwise_cons.mpr ⟨habove _ rfl, hasc⟩, fun p hp k hmem => ?_⟩
      rcases List.mem_cons.mp hmem with rfl | hmem
      · exact hle p hp
      · exact (hle p hp).trans (habove _ rfl k hmem)

/-- Pairs of keyed rows are pairs of rows whose keys are not NULL. -/
theorem map_pairs_keyedRows (on : Value × Row → Value × Row → Bool) (i j : Nat) :
    (pairs on ↑(keyedRows i lrows) ↑(keyedRows j rrows)).map (fun p => p.1.2 ++ p.2.2) =
      (pairs (fun l r => !(l.getD i .null).isNull && !(r.getD j .null).isNull &&
        on (l.getD i .null, l) (r.getD j .null, r)) ↑lrows ↑rrows).map fun p => p.1 ++ p.2 := by
  rw [← pairs_filter, keyedRows, keyedRows, ← Multiset.map_coe, ← Multiset.map_coe, pairs_map,
    Multiset.map_map]
  simp only [Multiset.filter_coe, decide_eq_true]
  rfl

theorem compatible_self (h : hashKeyTypesCompatible s t = true) :
    hashKeyTypesCompatible s s = true ∧ hashKeyTypesCompatible t t = true := by
  cases s <;> cases t <;> simp_all [hashKeyTypesCompatible]

/-- A merge join of inputs that are sorted by keys of compatible types pairs the rows whose keys are
not NULL and compare equal, unless the keys are text on the left and JSON on the right. -/
theorem mergeJoinInner_compared {i j : Nat} {l r : List (Value × Row)} {out : List Row}
    (hst : hashKeyTypesCompatible s t = true) (hdir : ¬ (s = .text ∧ t = .json))
    (hl : ∀ x ∈ lrows, (x.getD i .null).isNull = false → s.Holds (x.getD i .null))
    (hr : ∀ y ∈ rrows, (y.getD j .null).isNull = false → t.Holds (y.getD j .null))
    (hsl : sortedKeyed env i none lrows = some l) (hsr : sortedKeyed env j none rrows = some r)
    (hout : mergeJoinInner env l r = some out) :
    (out : Multiset Row) =
      (pairs (fun x y => !(x.getD i .null).isNull && !(y.getD j .null).isNull &&
        env.compareValues (x.getD i .null) (y.getD j .null) == some .eq) ↑lrows ↑rrows).map
        fun p => p.1 ++ p.2 := by
  obtain ⟨hss, htt⟩ := compatible_self hst
  have hvl := keyedRows_holds hl
  have hvr := keyedRows_holds hr
  have hnone : ∀ s : ColumnType, ∀ p ∈ (none : Option Value), s.Holds p := fun _ _ hp => nomatch hp
  obtain ⟨rfl, hasc, -⟩ := sortedKeyed_ok hss i hvl (hnone s) hsl
  obtain ⟨rfl, hasc', -⟩ := sortedKeyed_ok htt j hvr (hnone t) hsr
  have hcross : ∀ x ∈ keyedRows i lrows, ∀ y ∈ keyedRows j rrows,
      env.compareValues x.1 y.1 = some (cmp (keyPlace env x) (keyPlace env y)) :=
    fun x hx y hy => compareValues_place hst hdir (hvl x hx) (hvr y hy)
  obtain ⟨merged, hmerge, heq⟩ := merge_forward hasc hasc'
    (fun x hx y hy => compareValues_place hss (not_text_json s) (hvl x hx) (hvl y hy))
    (fun x hx y hy => compareValues_place htt (not_text_json t) (hvr x hx) (hvr y hy)) hcross
  rw [mergeJoinInner, hmerge] at hout
  cases hout
  rw [← map_pairs_keyedRows fun x y => env.compareValues x.1 y.1 == some .eq, ← Multiset.map_coe,
    heq]
  refine congrArg _ (pairs_congr fun x hx y hy => ?_)
  rw [hcross x hx y hy, Bool.eq_iff_iff, sameKey_eq_true, beq_iff_eq,
    Option.some_inj, cmp_eq_eq_iff]

/-- Where the keys of both sides are values of one exactly compared type, a merge join of inputs
that are sorted by them pairs the rows whose keys are not NULL and compare equal. -/
theorem mergeJoinInner_pairs (env : Env) (i j : Nat) {l r : List (Value × Row)} {out : List Row}
    (hs : hashKeyTypesCompatible s s = true)
    (hl : ∀ x ∈ lrows, (x.getD i .null).isNull = false → s.Holds (x.getD i .null))
    (hr : ∀ y ∈ rrows, (y.getD j .null).isNull = false → s.Holds (y.getD j .null))
    (hsl : sortedKeyed env i none lrows = some l) (hsr : sortedKeyed env j none rrows = some r)
    (hout : mergeJoinInner env l r = some out) :
    (out : Multiset Row) =
      (pairs (fun x y => !(x.getD i .null).isNull && !(y.getD j .null).isNull &&
        env.compareValues (x.getD i .null) (y.getD j .null) == some .eq) ↑lrows ↑rrows).map
        fun p => p.1 ++ p.2 :=
  mergeJoinInner_compared hs (not_text_json s) hl hr hsl hsr hout

/-- The rows with the key 1, of which the left side has two. -/
theorem mergeJoinInner_pairs_repeated :
    (([[.int 1, .int 1], [.int 1, .int 1]] : List Row) : Multiset Row) =
      (pairs (fun x y => !(x.getD 0 .null).isNull && !(y.getD 0 .null).isNull &&
        Env.plain.compareValues (x.getD 0 .null) (y.getD 0 .null) == some .eq)
        ↑([[.int 1], [.null], [.int 1]] : List Row) ↑([[.int 1]] : List Row)).map
        fun p => p.1 ++ p.2 := by
  refine mergeJoinInner_pairs (s := .int) Env.plain 0 0 rfl ?_ ?_ rfl rfl ?_
  · simp [Value.isNull, ColumnType.Holds.int]
  · simp [ColumnType.Holds.int]
  · decide +kernel

variable {key : JoinKeyPair} (h : hashKeyPairCompatible L R key = true)
  (hl : ∀ l ∈ lrows, RowOf L l) (hr : ∀ r ∈ rrows, RowOf R r)
include h hl hr

/-- The key columns are text on the left and JSON on the right, whose comparison has its sides
exchanged. -/
def TextJson (L R : List Column) (key : JoinKeyPair) : Prop :=
  (L[key.1]?).map Column.ty = some .text ∧ (R[key.2]?).map Column.ty = some .json

omit h hl hr in
/-- A merge join is made of one key and no residual condition, in an inner join of two large inputs
that are sorted by the key. -/
theorem merges_of_tryMerge {out : List Row}
    (h : tryMerge env L R lrows rrows keys residual kind = some out) :
    ∃ key ls rs, (keys = [key] ∧ residual = none ∧ kind = .inner ∧
        mergeMin ≤ lrows.length ∧ mergeMin ≤ rrows.length) ∧
      joinKeyCollation L R key = .ci ∧ sortedKeyed env key.1 none lrows = some ls ∧
      sortedKeyed env key.2 none rrows = some rs ∧ mergeJoinInner env ls rs = some out := by
  unfold tryMerge at h
  split at h
  case h_2 => cases h
  next key =>
  split at h
  case isFalse => cases h
  next hcond =>
  obtain ⟨ls, hls, hrest⟩ := Option.bind_eq_some_iff.mp h
  obtain ⟨rs, hrs, hout⟩ := Option.bind_eq_some_iff.mp hrest
  refine ⟨key, ls, rs, ⟨rfl, rfl, hcond.2⟩, ?_, hls, hrs, hout⟩
  cases hcoll : joinKeyCollation L R key
  · rfl
  · exact absurd hcoll hcond.1

/-- It gives the pairs of rows with the same key, but of a text and a JSON column. -/
theorem mergeJoinInner_joined {ls rs : List (Value × Row)} {out : List Row}
    (hdir : ¬ TextJson L R key) (hci : joinKeyCollation L R key = .ci)
    (hls : sortedKeyed env key.1 none lrows = some ls)
    (hrs : sortedKeyed env key.2 none rrows = some rs)
    (hout : mergeJoinInner env ls rs = some out) :
    (out : Multiset Row) =
      joined L R .inner (fun l r => keyEqual env L R l r key) lrows rrows := by
  obtain ⟨c, d, hc, hd, hcd⟩ := compatible_columns h
  rw [TextJson, hc, hd, Option.map_some, Option.map_some, Option.some_inj, Option.some_inj] at hdir
  rw [mergeJoinInner_compared hcd hdir (fun l hx => (hl l hx).holds hc)
    (fun r hx => (hr r hx).holds hd) hls hrs hout, joined_inner]
  refine congrArg _ (pairs_congr fun l hlm r hrm => ?_)
  rw [(keyEqual_eq h (hl l hlm) (hr r hrm)).1, hci]
  rfl

end

end ElyraSql.Joins
