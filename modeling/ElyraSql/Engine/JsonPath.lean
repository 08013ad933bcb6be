import ElyraSql.Engine.Value

/-!
# JSON paths

`extract`, `set_path` and `remove_path` of `elyra-core/src/json.rs`, on paths that are split into
steps. An index past the end of an array appends to it, whatever the index is, and of a member name
that an object has twice only the first is removed.
-/

namespace ElyraSql.Engine

open List Option Prod

inductive Json
  | null
  | bool (b : Bool)
  | num (n : Text)
  | str (s : Text)
  | arr (items : List Json)
  | obj (pairs : List (Text × Json))

inductive PathStep
  | key (k : Text)
  | index (i : Nat)
  deriving DecidableEq

inductive SetMode
  | set
  | insert
  | replace
  deriving DecidableEq

namespace Json

/-- The value a step leads to. -/
def child : Json → PathStep → Option Json
  | .obj pairs, .key k => (pairs.find? (·.1 = k)).map Prod.snd
  | .arr items, .index i => items[i]?
  | _, _ => none

def extract (j : Json) : List PathStep → Option Json
  | [] => some j
  | s :: path => (j.child s).bind (extract · path)

/-- The first pair with the key gets another value. -/
def assignKey (k : Text) (v : Json) : List (Text × Json) → List (Text × Json)
  | [] => []
  | p :: ps => if p.1 = k then (p.1, v) :: ps else p :: assignKey k v ps

/-- The value a step leads to is written over. -/
def assign (j : Json) (s : PathStep) (v : Json) : Json :=
  match j, s with
  | .obj pairs, .key k => .obj (assignKey k v pairs)
  | .arr items, .index i => .arr (items.set i v)
  | j, _ => j

/-- `set_recurse` and `remove_recurse`, by what they do at the last step; `none` if nothing
changed. -/
def recurse (last : Json → PathStep → Option Json) : List PathStep → Json → Option Json
  | [], _ => none
  | [s], j => last j s
  | s :: t :: path, j =>
    (j.child s).bind fun c => (recurse last (t :: path) c).map (j.assign s)

def setLast (mode : SetMode) (v j : Json) (s : PathStep) : Option Json :=
  if (j.child s).isSome then if mode ≠ .insert then some (j.assign s v) else none
  else if mode = .replace then none
  else
    match j, s with
    | .obj pairs, .key k => some (.obj (pairs ++ [(k, v)]))
    | .arr items, .index _ => some (.arr (items ++ [v]))
    | _, _ => none

def removeLast : Json → PathStep → Option Json
  | .obj pairs, .key k =>
    if pairs.any (·.1 = k) then some (.obj (pairs.eraseP (·.1 = k))) else none
  | .arr items, .index i => if i < items.length then some (.arr (items.eraseIdx i)) else none
  | _, _ => none

def setPath (mode : SetMode) (v j : Json) : List PathStep → Option Json
  | [] => if mode ≠ .insert then some v else none
  | path => recurse (setLast mode v) path j

def removePath (j : Json) (path : List PathStep) : Option Json := recurse removeLast path j

/-! ## One step -/

theorem find?_assignKey (k l : Text) (v : Json) (pairs : List (Text × Json)) :
    ((assignKey k v pairs).find? (·.1 = l)).map snd =
      if l = k then ((pairs.find? (·.1 = k)).map snd).map fun _ => v
      else (pairs.find? (·.1 = l)).map snd := by
  induction pairs with
  | nil => simp [assignKey]
  | cons p ps ih =>
    rw [assignKey]
    by_cases hk : p.1 = k <;> by_cases hl : p.1 = l <;> grind

theorem child_assign (j v : Json) (s t : PathStep) :
    (j.assign s v).child t = if t = s then (j.child s).map fun _ => v else j.child t := by
  cases j with
  | obj pairs =>
    cases s <;> cases t <;> simp [assign, child, find?_assignKey]
  | arr items =>
    cases s <;> cases t <;> simp [assign, child]
    grind
  | _ => cases s <;> cases t <;> simp [assign, child]

/-! ## Whole paths -/

/-- The document after an edit. -/
def edited (last : Json → PathStep → Option Json) (path : List PathStep) (j : Json) : Json :=
  (recurse last path j).getD j

variable {last : Json → PathStep → Option Json} {path q : List PathStep} {s : PathStep}

theorem child_edited (hne : path ≠ []) (j : Json) (s t : PathStep) :
    (edited last (s :: path) j).child t =
      if t = s then (j.child s).map (edited last path) else j.child t := by
  obtain ⟨s', path, rfl⟩ := exists_cons_of_ne_nil hne
  rw [edited, recurse]
  cases hc : j.child s with
  | none => split_ifs with ht <;> simp [hc, ht]
  | some c =>
    simp only [bind_some, map_some, edited]
    cases recurse last (s' :: path) c with
    | none => split_ifs with ht <;> simp [hc, ht]
    | some c' => simp [child_assign, hc]

theorem extract_one (j : Json) (s : PathStep) : j.extract [s] = j.child s :=
  bind_fun_some _

theorem extract_append (j : Json) (path r : List PathStep) :
    j.extract (path ++ r) = (j.extract path).bind (extract · r) := by
  induction path generalizing j with
  | nil => rfl
  | cons s path ih =>
    rw [cons_append, extract, extract, bind_assoc]
    exact congrArg _ (funext ih)

/-- Where the path leads, the last step has been taken. -/
theorem extract_edited (path r : List PathStep) (j : Json) :
    extract (edited last (path ++ [s]) j) (path ++ r) =
      (j.extract path).bind fun x => extract ((last x s).getD x) r := by
  induction path generalizing j with
  | nil => rfl
  | cons t path ih =>
    rw [cons_append, cons_append, extract, child_edited (by simp), if_pos rfl, extract,
      bind_map, bind_assoc]
    exact congrArg _ (funext ih)

/-- Everything beside the path is as it was. -/
theorem extract_beside (hq : ¬q <+: path) (hp : ¬path <+: q) (j : Json) :
    extract (edited last (path ++ [s]) j) q = j.extract q := by
  induction path generalizing q j with
  | nil => exact absurd nil_prefix hp
  | cons t path ih =>
    cases q with
    | nil => exact absurd nil_prefix hq
    | cons t' q =>
      rw [cons_append, extract, child_edited (by simp), extract]
      split_ifs with ht
      · subst ht
        rw [bind_map]
        refine congrArg _ (funext fun c => ih ?_ ?_ c)
        · exact fun h => hq ((prefix_cons_inj _).mpr h)
        · exact fun h => hp ((prefix_cons_inj _).mpr h)
      · rfl

/-! ## The laws -/

/-- The place a step names in a value; an array grows at its end, whatever the index is. -/
def place : Json → PathStep → Option PathStep
  | .obj _, .key k => some (.key k)
  | .arr items, .index i => some (.index (min i items.length))
  | _, _ => none

/-- The value has the member more than once. -/
def Repeats (k : Text) : Json → Prop
  | .obj pairs => 2 ≤ pairs.countP (·.1 = k)
  | _ => False

theorem place_of_child {x : Json} (h : (x.child s).isSome) : place x s = some s := by
  cases x <;> cases s <;> simp_all [child, place]
  omega

theorem child_eq_none {x : Json} {t : PathStep} (h : place x s = some t) (ht : t ≠ s) :
    x.child t = none := by
  cases x <;> cases s <;> simp only [place, some.injEq, reduceCtorEq] at h <;> subst h
  · simp [child]
    grind
  · exact absurd rfl ht

theorem child_setLast (v x : Json) (s t : PathStep) :
    ((setLast .set v x s).getD x).child t = if place x s = some t then some v else x.child t := by
  by_cases hc : (x.child s).isSome
  · obtain ⟨c, hs⟩ := isSome_iff_exists.mp hc
    simp [setLast, place_of_child hc, child_assign, hs, eq_comm]
  · simp only [setLast, hc, reduceCtorEq, if_false]
    cases x <;> cases s <;> cases t <;> simp_all [place, child]
    all_goals grind

theorem child_removeLast (x : Json) (k : Text) :
    ((removeLast x (.key k)).getD x).child (.key k) = none ↔ ¬Repeats k x := by
  cases x with
  | obj pairs =>
    have herase : (removeLast (.obj pairs) (.key k)).getD (.obj pairs) =
        .obj (pairs.eraseP (·.1 = k)) := by
      rw [removeLast]
      split_ifs with hany
      · rfl
      · rw [eraseP_of_forall_not fun p hp hk => hany (any_eq_true.mpr ⟨p, hp, hk⟩)]
        rfl
    rw [herase, child, Repeats, map_eq_none_iff, find?_eq_none, ← countP_eq_zero]
    clear herase
    induction pairs with
    | nil => simp
    | cons p ps ih =>
      by_cases hp : p.1 = k
      · rw [eraseP_cons_of_pos (by simpa using hp), countP_cons_of_pos (by simpa using hp)]
        omega
      · simpa [eraseP_cons, countP_cons, hp] using ih
  | _ => simp [removeLast, child, Repeats]

/-- What is set is found exactly if it went to the place the path names, nothing beside the path
changes exactly if it went to no other place, and what is removed is gone exactly if the object had
the name once. -/
theorem path_laws_iff (j v : Json) (path : List PathStep) (s : PathStep) :
    (∀ x, j.extract path = some x →
      (extract ((setPath .set v j (path ++ [s])).getD j) (path ++ [s]) = some v ↔
        place x s = some s)) ∧
    ((∀ q, ¬q <+: path ++ [s] → ¬path ++ [s] <+: q →
      extract ((setPath .set v j (path ++ [s])).getD j) q = j.extract q) ↔
      ∀ x, j.extract path = some x → ∀ t, place x s = some t → t = s) ∧
    ∀ k, s = .key k →
      (extract ((removePath j (path ++ [s])).getD j) (path ++ [s]) = none ↔
        ∀ x, j.extract path = some x → ¬Repeats k x) := by
  have hset : (setPath .set v j (path ++ [s])).getD j =
      edited (setLast .set v) (path ++ [s]) j := by
    cases path <;> rfl
  rw [hset]
  refine ⟨fun x hx => ?_, ⟨fun h x hx t ht => ?_, fun h q hq hp => ?_⟩, ?_⟩
  · rw [extract_edited, hx, Option.bind_some, extract_one, child_setLast]
    split_ifs with hs
    · exact iff_of_true rfl hs
    · exact iff_of_false (fun hc => hs (place_of_child (hc ▸ rfl))) hs
  · by_contra hne
    have hsame := h (path ++ [t]) (by simpa using hne) (by simpa using Ne.symm hne)
    rw [extract_edited, extract_append, hx, Option.bind_some, Option.bind_some, extract_one,
      extract_one, child_setLast, if_pos ht, child_eq_none ht hne] at hsame
    exact nomatch hsame
  · by_cases hpath : path <+: q
    · obtain ⟨r, rfl⟩ := hpath
      cases r with
      | nil => simp at hq
      | cons t r =>
        have hts : t ≠ s := by
          rintro rfl
          simp at hp
        rw [extract_edited, extract_append]
        refine Option.bind_congr fun x hx => ?_
        rw [extract, extract, child_setLast, if_neg fun ht => hts (h x hx t ht)]
    · exact extract_beside (fun hqp => hq (hqp.trans (prefix_append _ _))) hpath j
  · rintro k rfl
    rw [removePath, ← edited, extract_edited, Option.bind_eq_none_iff]
    refine forall₂_congr fun x _ => ?_
    rw [extract_one, child_removeLast]

/-- `$[5]` of an empty array becomes `$[0]`, and of two members `a` one is left. -/
theorem path_laws_fail :
    (setPath .set (.bool true) (.arr []) [.index 5]).map
      (fun j => (j.extract [.index 5], j.extract [.index 0])) = some (none, some (.bool true)) ∧
    (removePath (.obj [(['a'], .null), (['a'], .bool true)]) [.key ['a']]).map
      (·.extract [.key ['a']]) = some (some (.bool true)) :=
  ⟨rfl, rfl⟩

/-! ## The three modes -/

/-- `JSON_SET` replaces what the path leads to and inserts where it leads to nothing. -/
theorem setPath_modes (v j : Json) (path : List PathStep) :
    setPath .replace v j path = (if (j.extract path).isSome then setPath .set v j path else none) ∧
      setPath .insert v j path =
        if (j.extract path).isSome then none else setPath .set v j path := by
  cases path with
  | nil => exact ⟨rfl, rfl⟩
  | cons s path =>
    simp only [setPath]
    induction path generalizing s j with
    | nil =>
      simp only [recurse, extract_one, setLast]
      cases (j.child s).isSome <;> simp
    | cons t path ih =>
      rw [recurse, recurse, recurse, extract]
      cases j.child s with
      | none => exact ⟨rfl, rfl⟩
      | some c =>
        obtain ⟨hreplace, hinsert⟩ := ih c t
        simp only [bind_some, hreplace, hinsert]
        split_ifs <;> exact ⟨rfl, rfl⟩

end Json

end ElyraSql.Engine
