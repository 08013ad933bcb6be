import ElyraSql.Engine.Catalog

/-!
# Encoded keys keep the order of the comparison

`encode_component` against `compare_coll`: two values of one column type are compared as their
encodings are, whatever follows these in a key. So the entries of an index lie in the order of the
rows' values, and a bound of a range is a place among them.
-/

namespace ElyraSql.Engine

open KeyOrder Below Int64 BitVec

/-! ## Values of a type -/

/-- The values that a column of a type holds, besides NULL. -/
inductive ColumnType.Holds : ColumnType → Value → Prop
  | bool (b : Bool) : Holds .bool (.bool b)
  | int (i : Int64) : Holds .int (.int i)
  | float (f : F64) : Holds .float (.float f)
  | text (s : Text) : Holds .text (.text s)
  | bytes (b : Bytes) : Holds .bytes (.bytes b)
  | vector (dim : UInt32) (v : List UInt32) : Holds (.vector dim) (.vector v)
  | date (n : Int32) : Holds .date (.date n)
  | dateTime (t : Int64) : Holds .dateTime (.dateTime t)
  | decimal (precision scale : Nat) (u : I128) : Holds (.decimal precision scale) (.decimal u scale)
  | time (t : Int64) : Holds .time (.time t)
  | json (s : Text) : Holds .json (.json s)
  | uint (u : UInt64) : Holds .uint (.uint u)

def ColumnType.holds : ColumnType → Value → Bool
  | .bool, .bool _ | .int, .int _ | .float, .float _ | .text, .text _ | .bytes, .bytes _
  | .vector _, .vector _ | .date, .date _ | .dateTime, .dateTime _ | .time, .time _
  | .json, .json _ | .uint, .uint _ => true
  | .decimal _ scale, .decimal _ s => s == scale
  | _, _ => false

theorem ColumnType.holds_iff {ty : ColumnType} {v : Value} : ty.holds v = true ↔ ty.Holds v := by
  constructor
  · intro h
    unfold ColumnType.holds at h
    split at h
    case h_12 scale u s =>
      cases eq_of_beq h
      exact .decimal _ _ _
    case h_13 => exact nomatch h
    all_goals constructor
  · rintro (_ | _) <;> simp [ColumnType.holds]

instance (ty : ColumnType) (v : Value) : Decidable (ty.Holds v) :=
  decidable_of_iff _ ColumnType.holds_iff

/-- The types whose values can be part of a key. -/
def ColumnType.isKeyType : ColumnType → Bool
  | .float | .bytes | .vector _ => false
  | _ => true

/-! ## Order of keys -/

/-- Keys that are in this order whatever follows them. -/
def KeyCompared : Option Ordering → Bytes → Bytes → Prop
  | some .lt, x, y => Below x y
  | some .eq, x, y => x = y
  | some .gt, x, y => Below y x
  | none, _, _ => False

variable {x y : Bytes}

theorem keyCompared_compare {α : Type} [LinearOrder α] {a b : α} (hlt : a < b → Below x y)
    (heq : a = b → x = y) (hgt : b < a → Below y x) : KeyCompared (some (compare a b)) x y := by
  rcases lt_trichotomy a b with h | h | h
  · rw [compare_lt_iff_lt.mpr h]
    exact hlt h
  · rw [compare_eq_iff_eq.mpr h]
    exact heq h
  · rw [compare_gt_iff_gt.mpr h]
    exact hgt h

theorem keyCompared_unsigned {w m n : Nat} (hm : m < 256 ^ w) (hn : n < 256 ^ w) :
    KeyCompared (some (compare m n)) (bigEndian 256 w m) (bigEndian 256 w n) :=
  keyCompared_compare (fun h => bigEndian_below h hn) (fun h => by rw [h])
    (fun h => bigEndian_below h hm)

/-- Numbers from `-b` up to `b - 1`, moved by `b`. -/
theorem keyCompared_signed {w : Nat} {b i j : Int} (hb : 2 * b = 256 ^ w) (hi : -b ≤ i ∧ i < b)
    (hj : -b ≤ j ∧ j < b) :
    KeyCompared (some (compare i j)) (bigEndian 256 w (i + b).toNat)
      (bigEndian 256 w (j + b).toNat) := by
  have hlt : ∀ {k : Int}, -b ≤ k ∧ k < b → (k + b).toNat < 256 ^ w := fun {k} hk => by
    have hcast : ((256 ^ w : Nat) : Int) = 2 * b := by rw [hb]; norm_cast
    omega
  refine keyCompared_compare (fun h => bigEndian_below ?_ (hlt hj)) (fun h => by rw [h])
    (fun h => bigEndian_below ?_ (hlt hi)) <;> omega

/-! ## Encoded values -/

namespace Env

variable {env : Env} {coll : Collation} {ty : ColumnType} {v w : Value}

/-- The types whose values can be part of a key are those with an encoding. -/
theorem encodeColl_isOk (hv : ty.Holds v) :
    ty.isKeyType = true ↔ ∃ x, env.encodeColl coll v = .ok x := by
  cases hv <;> simp [ColumnType.isKeyType, encodeColl]

theorem compareLex_of_lt (h : x < y) : x.compareLex compare y = .lt := by
  induction x generalizing y with
  | nil =>
    cases y with
    | nil => exact absurd h (lt_irrefl _)
    | cons b y => rfl
  | cons a x ih =>
    cases y with
    | nil => exact absurd h (List.not_lt_nil _)
    | cons b y =>
      rw [List.compareLex_cons_cons]
      rcases List.cons_lt_cons_iff.mp h with hab | ⟨rfl, hxy⟩
      · rw [compare_lt_iff_lt.mpr hab]
        rfl
      · rw [compare_eq_iff_eq.mpr rfl, ih hxy]
        rfl

theorem keyCompared_text (s t : Text) :
    KeyCompared (some (compare (env.collated coll s) (env.collated coll t)))
      (terminated 0 1 (env.collated coll s)) (terminated 0 1 (env.collated coll t)) := by
  have hbelow : ∀ {x y : Bytes}, x < y → Below (terminated 0 1 x) (terminated 0 1 y) :=
    fun h => terminated_below (fun _ => Fin.zero_le _) (by decide) h
  have hself : ∀ x : Bytes, x.compareLex compare x = .eq := fun _ => Std.ReflCmp.compare_self
  have hswap : ∀ x y : Bytes, x.compareLex compare y = (y.compareLex compare x).swap :=
    fun _ _ => Std.OrientedCmp.eq_swap
  rw [List.compare_eq_compareLex]
  rcases lt_trichotomy (env.collated coll s) (env.collated coll t) with h | h | h
  · rw [compareLex_of_lt h]
    exact hbelow h
  · rw [h, hself]
    rfl
  · rw [hswap, compareLex_of_lt h]
    exact hbelow h

theorem saturatingScale_zero (u : I128) : saturatingScale u 0 = u.toInt := by
  have hle : -2 ^ 127 ≤ u.toInt := le_toInt u
  have hlt : u.toInt < 2 ^ 127 := toInt_lt
  rw [saturatingScale, pow_zero, min_eq_left (by decide : (1 : Int) ≤ 2 ^ 127 - 1)]
  omega

theorem cmpDecimal_same (a b : I128) (scale : Nat) :
    cmpDecimal a scale b scale = compare a.toInt b.toInt := by
  rw [cmpDecimal, max_self, Nat.sub_self, saturatingScale_zero, saturatingScale_zero]

/-- Two values of a type are in the order of their keys. -/
theorem encodeColl_compared (hv : ty.Holds v) (hw : ty.Holds w)
    (hx : env.encodeColl coll v = .ok x) (hy : env.encodeColl coll w = .ok y) :
    KeyCompared (env.compareColl coll v w) x y := by
  cases hv with
  | float | bytes | vector => exact nomatch hx
  | text s | json s =>
    cases hw
    cases hx
    cases hy
    exact keyCompared_text _ _
  | bool b =>
    cases hw with
    | bool b' =>
      cases hx
      cases hy
      cases b <;> cases b' <;> first | rfl | exact below_cons (by decide) _ _
  | uint u =>
    cases hw
    cases hx
    cases hy
    exact keyCompared_unsigned (UInt64.toNat_lt _) (UInt64.toNat_lt _)
  | int i =>
    cases hw
    cases hx
    cases hy
    exact keyCompared_signed (by norm_num) ⟨Int64.le_toInt _, toInt_lt _⟩
      ⟨Int64.le_toInt _, toInt_lt _⟩
  | date n =>
    cases hw
    cases hx
    cases hy
    exact keyCompared_signed (by norm_num) ⟨Int32.le_toInt _, Int32.toInt_lt _⟩
      ⟨Int32.le_toInt _, Int32.toInt_lt _⟩
  | dateTime t | time t =>
    cases hw
    cases hx
    cases hy
    exact keyCompared_signed (by norm_num) ⟨Int64.le_toInt _, toInt_lt _⟩
      ⟨Int64.le_toInt _, toInt_lt _⟩
  | decimal p scale u =>
    cases hw with
    | decimal _ _ u' =>
      cases hx
      cases hy
      change KeyCompared (some (cmpDecimal u scale u' scale)) _ _
      rw [cmpDecimal_same]
      exact keyCompared_signed (by norm_num) ⟨BitVec.le_toInt _, toInt_lt⟩
        ⟨BitVec.le_toInt _, toInt_lt⟩

end Env

/-! ## Encoded tuples -/

/-- The tuples of values of a list of types. -/
abbrev HoldsAll : List ColumnType → List Value → Prop := List.Forall₂ ColumnType.Holds

/-- The first comparison decides unless the values are equal. -/
def orElseCompare : Option Ordering → Option Ordering → Option Ordering
  | some .eq, rest => rest
  | first, _ => first

/-- Lexicographic order of tuples under the collations of their columns. -/
def compareTuple (env : Env) : List Value → List Value → List Collation → Option Ordering
  | [], [], _ => some .eq
  | v :: vs, w :: ws, colls =>
    orElseCompare (env.compareColl (colls.headD .ci) v w) (compareTuple env vs ws colls.tail)
  | _, _, _ => none

variable {o : Option Ordering}

variable (h : KeyCompared o x y)
include h

/-- The first component that differs decides, and the keys of the components before it are the same.
-/
theorem KeyCompared.append {o' : Option Ordering} {xs ys : Bytes}
    (h' : KeyCompared o' xs ys) : KeyCompared (orElseCompare o o') (x ++ xs) (y ++ ys) := by
  match o with
  | some .lt => exact append_right h xs ys
  | some .gt => exact append_right h ys xs
  | some .eq =>
    obtain rfl : x = y := h
    match o', h' with
    | some .lt, hrest => exact append_left hrest x
    | some .gt, hrest => exact append_left hrest x
    | some .eq, hrest => exact congrArg (x ++ ·) hrest

omit h in
/-- The keys of two tuples exist, and are in the order of the tuples whatever follows them. -/
theorem encodeKeyColl_compared {tys : List ColumnType} {vs ws : List Value} (env : Env)
    (colls : List Collation) (hkey : ∀ ty ∈ tys, ty.isKeyType = true) (hv : HoldsAll tys vs)
    (hw : HoldsAll tys ws) :
    ∃ x y, env.encodeKeyColl vs colls = .ok x ∧ env.encodeKeyColl ws colls = .ok y ∧
      KeyCompared (compareTuple env vs ws colls) x y := by
  induction hv generalizing ws colls with
  | nil =>
    cases hw
    exact ⟨[], [], rfl, rfl, rfl⟩
  | cons hv _ ih =>
    rcases hw with _ | ⟨hw, hws⟩
    obtain ⟨hty, htys⟩ := List.forall_mem_cons.mp hkey
    obtain ⟨x, hx⟩ : ∃ x, env.encodeColl (colls.headD .ci) _ = .ok x :=
      (Env.encodeColl_isOk hv).mp hty
    obtain ⟨y, hy⟩ : ∃ y, env.encodeColl (colls.headD .ci) _ = .ok y :=
      (Env.encodeColl_isOk hw).mp hty
    obtain ⟨xs, ys, hxs, hys, hrest⟩ := ih colls.tail htys hws
    refine ⟨x ++ xs, y ++ ys, ?_, ?_, ?_⟩
    · rw [Env.encodeKeyColl, hx, hxs]
      rfl
    · rw [Env.encodeKeyColl, hy, hys]
      rfl
    · exact (Env.encodeColl_compared hv hw hx hy).append hrest

theorem KeyCompared.lt_iff : x < y ↔ o = some .lt := by
  match o with
  | some .lt => exact iff_of_true (lt h) rfl
  | some .eq => exact iff_of_false (not_lt_of_ge (le_of_eq (Eq.symm h))) nofun
  | some .gt => exact iff_of_false (not_lt_of_gt (lt h)) nofun

theorem KeyCompared.gt_iff : y < x ↔ o = some .gt := by
  match o with
  | some .lt => exact iff_of_false (not_lt_of_gt (lt h)) nofun
  | some .eq => exact iff_of_false (not_lt_of_ge (le_of_eq h)) nofun
  | some .gt => exact iff_of_true (lt h) rfl

theorem KeyCompared.eq_iff : x = y ↔ o = some .eq := by
  match o with
  | some .lt => exact iff_of_false (lt h).ne nofun
  | some .eq => exact iff_of_true h rfl
  | some .gt => exact iff_of_false (lt h).ne' nofun

theorem KeyCompared.eq_of_isPrefix (hp : x <+: y ∨ y <+: x) : x = y := by
  match o with
  | some .lt => exact absurd hp (not_isPrefix h)
  | some .eq => exact h
  | some .gt => exact absurd hp.symm (not_isPrefix h)

omit h

/-- Two tuples of values of the same types have keys, of which none is a proper beginning of the
other; the keys are in the order of the tuples under the columns' collations, and are the same only
if the tuples are equal under these. -/
theorem encodeKeyColl_order (env : Env) (tys : List ColumnType) (colls : List Collation)
    (vs ws : List Value) (hkey : ∀ ty ∈ tys, ty.isKeyType = true) (hv : HoldsAll tys vs)
    (hw : HoldsAll tys ws) :
    ∃ x y, env.encodeKeyColl vs colls = .ok x ∧ env.encodeKeyColl ws colls = .ok y ∧
      (x < y ↔ compareTuple env vs ws colls = some .lt) ∧
      (y < x ↔ compareTuple env vs ws colls = some .gt) ∧
      (x = y ↔ compareTuple env vs ws colls = some .eq) ∧
      (x <+: y ∨ y <+: x → x = y) := by
  obtain ⟨x, y, hx, hy, h⟩ := encodeKeyColl_compared env colls hkey hv hw
  exact ⟨x, y, hx, hy, h.lt_iff, h.gt_iff, h.eq_iff, h.eq_of_isPrefix⟩

/-- Texts with a zero byte, and a number after them. -/
theorem encodeKeyColl_order_zero_byte :
    ∃ x y, Env.plain.encodeKeyColl [.text ['a'], .int 1] [.bin] = .ok x ∧
      Env.plain.encodeKeyColl [.text ['a', '\x00'], .int (-1)] [.bin] = .ok y ∧ x < y ∧
      ¬ x <+: y := by
  obtain ⟨x, y, hx, hy, hlt, -, heq, hp⟩ :=
    encodeKeyColl_order Env.plain [.text, .int] [.bin] [.text ['a'], .int 1]
      [.text ['a', '\x00'], .int (-1)] (by decide)
      (.cons (.text _) (.cons (.int _) .nil)) (.cons (.text _) (.cons (.int _) .nil))
  refine ⟨x, y, hx, hy, hlt.mpr (by decide), fun h => ?_⟩
  exact absurd (heq.mp (hp (.inl h))) (by decide)

end ElyraSql.Engine
