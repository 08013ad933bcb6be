import ElyraSql.Engine.CollationKey

/-!
# The bytes of collation keys

`push_collation_key_coll` writes a tag, and then either a fixed number of bytes or a length and as
many bytes; the length is cut to 32 bits.
-/

namespace ElyraSql.Engine

open CollationKey Env List Nat

/-- The `w` low bytes of a number, lowest first. -/
def le (w : Nat) (n : Int) : Bytes := (RecordFile.leBytes w (n % 256 ^ w).toNat).map UInt8.toFin

/-- The bytes of a key. `debug` is `format!("{other:?}")`. -/
def CollationKey.bytes (debug : Value → Bytes) : CollationKey → Bytes
  | .null => [0]
  | .int i => 1 :: le 8 i
  | .bool b => [2, if b then 1 else 0]
  | .float f => 3 :: le 8 f.toNat
  | .text s => 4 :: (le 4 s.length ++ s)
  | .other v => 5 :: (le 4 (debug v).length ++ debug v)
  | .uint u => 6 :: le 8 u.toNat
  | .decimal u scale => 7 :: (le 16 u ++ [Fin.ofNat 256 scale])

/-- The keys of the columns of a row; a column without a collation has the default one. -/
def Env.columnKeys (env : Env) : List Collation → Row → List CollationKey
  | _, [] => []
  | colls, v :: row => env.collationKey (colls.headD .ci) v :: columnKeys env colls.tail row

/-- `row_collation_key_coll`. -/
def Env.rowCollationKey (env : Env) (debug : Value → Bytes) (colls : List Collation) (row : Row) :
    Bytes :=
  (env.columnKeys colls row).flatMap (bytes debug)

/-! ## Where a key ends -/

@[simp] theorem length_le (w : Nat) (n : Int) : (le w n).length = w := by
  rw [le, length_map, RecordFile.length_leBytes]

theorem le_eq_iff {w : Nat} {m n : Int} : le w m = le w n ↔ m % 256 ^ w = n % 256 ^ w := by
  have hpos : (0 : Int) < 256 ^ w := by positivity
  have hbound : ∀ x : Int, (x % 256 ^ w).toNat < 256 ^ w := fun x => by
    have := Int.emod_lt_of_pos x hpos
    zify
    rw [Int.toNat_of_nonneg (Int.emod_nonneg x hpos.ne')]
    exact this
  constructor
  · intro h
    have hbytes := map_injective_iff.mpr (fun _ _ => UInt8.toFin_inj.mp) h
    have hnat := congrArg RecordFile.ofLeBytes hbytes
    rw [RecordFile.ofLeBytes_leBytes (hbound m), RecordFile.ofLeBytes_leBytes (hbound n)] at hnat
    rw [← Int.toNat_of_nonneg (Int.emod_nonneg m hpos.ne'), hnat,
      Int.toNat_of_nonneg (Int.emod_nonneg n hpos.ne')]
  · intro h
    rw [le, le, h]

section
variable (debug : Value → Bytes)

/-- The part of a key whose length is written before it, with the tag. -/
def CollationKey.payload : CollationKey → Option (Bool × Bytes)
  | .text s => some (true, s)
  | .other v => some (false, debug v)
  | _ => none

/-- No payload is a proper beginning of the other where their written lengths are the same. -/
def LengthsTell (k k' : CollationKey) : Prop :=
  ∀ tag p p', k.payload debug = some (tag, p) → k'.payload debug = some (tag, p') →
    (p.length : Int) % 256 ^ 4 = p'.length % 256 ^ 4 → p <+: p' ∨ p' <+: p → p = p'

/-- Whatever follows two keys, they end at the same place if they begin the same string. -/
def Delimits (k k' : CollationKey) : Prop :=
  ∀ rest rest', k.bytes debug ++ rest = k'.bytes debug ++ rest' → k.bytes debug = k'.bytes debug

theorem delimits_payload (tag : Byte) (p p' : Bytes) :
    (∀ rest rest', tag :: (le 4 p.length ++ p) ++ rest = tag :: (le 4 p'.length ++ p') ++ rest' →
      tag :: (le 4 p.length ++ p) = tag :: (le 4 p'.length ++ p')) ↔
    ((p.length : Int) % 256 ^ 4 = p'.length % 256 ^ 4 → p <+: p' ∨ p' <+: p → p = p') := by
  constructor
  · intro h hlen hor
    have hle := le_eq_iff.mpr hlen
    have heq : tag :: (le 4 p.length ++ p) = tag :: (le 4 p'.length ++ p') := by
      rcases hor with ⟨r, hr⟩ | ⟨r, hr⟩
      · exact h r [] (by rw [hle, ← hr]; simp)
      · exact h [] r (by rw [hle, ← hr]; simp)
    exact (append_inj (cons.inj heq).2 (by simp)).2
  · intro h rest rest' heq
    simp only [cons_append, append_assoc, cons.injEq, true_and] at heq
    obtain ⟨hle, htail⟩ := append_inj heq (by simp)
    rw [h (le_eq_iff.mp hle)
      (List.prefix_or_prefix_of_prefix ⟨rest, htail⟩ (prefix_append p' rest'))]

theorem delimits_iff (k k' : CollationKey) : Delimits debug k k' ↔ LengthsTell debug k k' := by
  cases k <;> cases k'
  case text.text s t =>
    refine (delimits_payload 4 s t).trans ⟨?_, fun h => h true s t rfl rfl⟩
    rintro h _ _ _ ⟨⟩ ⟨⟩
    exact h
  case other.other v w =>
    refine (delimits_payload 5 (debug v) (debug w)).trans ⟨?_, fun h => h false _ _ rfl rfl⟩
    rintro h _ _ _ ⟨⟩ ⟨⟩
    exact h
  all_goals
    refine iff_of_true (fun rest rest' h => ?_) (by simp [LengthsTell, payload])
    first
    | exact absurd (cons.inj h).1 (by decide)
    | exact (append_inj h (by simp [bytes])).1

/-- The keys of the columns can be read off the key of the row. -/
theorem map_bytes_of_flatMap {ks ks' : List CollationKey}
    (htell : ∀ k ∈ ks, ∀ k' ∈ ks', LengthsTell debug k k')
    (h : ks.flatMap (bytes debug) = ks'.flatMap (bytes debug)) :
    ks.map (bytes debug) = ks'.map (bytes debug) := by
  have hne : ∀ k : CollationKey, k.bytes debug ≠ [] := by
    rintro (_ | _) <;> exact cons_ne_nil _ _
  induction ks generalizing ks' with
  | nil =>
    cases ks' with
    | nil => rfl
    | cons k' ks' => exact absurd (append_eq_nil_iff.mp h.symm).1 (hne k')
  | cons k ks ih =>
    cases ks' with
    | nil => exact absurd (append_eq_nil_iff.mp h).1 (hne k)
    | cons k' ks' =>
      rw [flatMap_cons] at h
      have hk := (delimits_iff debug k k').mpr (htell k mem_cons_self k' mem_cons_self) _ _ h
      rw [hk] at h
      rw [map_cons, map_cons, hk, ih (fun k hk k' hk' =>
        htell k (mem_cons_of_mem _ hk) k' (mem_cons_of_mem _ hk')) (append_cancel_left h)]

end

/-! ## Equal decimals -/

theorem stripZeros_canonical (u : Int) (scale : Nat) :
    (stripZeros u scale).2 = 0 ∨ (stripZeros u scale).1 % 10 ≠ 0 := by
  induction scale generalizing u with
  | zero => exact .inl rfl
  | succ scale ih =>
    rw [stripZeros]
    split
    · exact ih (u / 10)
    · next h => exact .inr h

/-- A number has one form without trailing zeros. -/
theorem canonical_unique {p q : Int} {a b : Nat} (hq : b = 0 ∨ q % 10 ≠ 0) (hab : a ≤ b)
    (h : p * 10 ^ b = q * 10 ^ a) : p = q ∧ a = b := by
  obtain ⟨k, rfl⟩ := Nat.exists_eq_add_of_le hab
  rw [pow_add, mul_comm (10 ^ a), ← mul_assoc, mul_left_inj' (by positivity)] at h
  cases k with
  | zero => exact ⟨by simpa using h, rfl⟩
  | succ k =>
    rw [pow_succ, ← mul_assoc] at h
    omega

theorem stripZeros_eq_iff {u v : Int} {s t : Nat} :
    stripZeros u s = stripZeros v t ↔ u * 10 ^ t = v * 10 ^ s := by
  obtain ⟨hs, hu⟩ := stripZeros_value u s
  obtain ⟨ht, hv⟩ := stripZeros_value v t
  have hp := stripZeros_canonical u s
  have hq := stripZeros_canonical v t
  generalize stripZeros u s = p at *
  generalize stripZeros v t = q at *
  obtain ⟨p, a⟩ := p
  obtain ⟨q, b⟩ := q
  obtain ⟨s, rfl⟩ := Nat.exists_eq_add_of_le hs
  obtain ⟨t, rfl⟩ := Nat.exists_eq_add_of_le ht
  have hcancel : u * 10 ^ (b + t) = v * 10 ^ (a + s) ↔ p * 10 ^ b = q * 10 ^ a := by
    have hleft : u * 10 ^ (b + t) = p * 10 ^ b * 10 ^ (s + t) := by
      rw [hu, Nat.add_sub_cancel_left]
      ring
    have hright : v * 10 ^ (a + s) = q * 10 ^ a * 10 ^ (s + t) := by
      rw [hv, Nat.add_sub_cancel_left]
      ring
    rw [hleft, hright, mul_left_inj' (by positivity)]
  rw [hcancel]
  constructor
  · rintro ⟨⟩
    rfl
  · intro h
    rcases le_total a b with hab | hab
    · obtain ⟨rfl, rfl⟩ := canonical_unique hq hab h
      rfl
    · obtain ⟨rfl, rfl⟩ := canonical_unique hp hab h.symm
      rfl

theorem saturatingScale_exact {u v : I128} {s k : Nat}
    (h : u.toInt * 10 ^ (s + k) = v.toInt * 10 ^ s) : saturatingScale u k = v.toInt := by
  rw [pow_add, mul_comm (10 ^ s), ← mul_assoc, mul_left_inj' (by positivity)] at h
  have hle : -2 ^ 127 ≤ v.toInt := BitVec.le_toInt v
  have hlt : v.toInt < 2 ^ 127 := BitVec.toInt_lt
  rw [saturatingScale]
  by_cases hu : u.toInt = 0
  · rw [hu] at h ⊢
    omega
  · have hone : 1 ≤ |u.toInt| := Int.one_le_abs hu
    have habs : (10 : Int) ^ k ≤ |v.toInt| := by
      rw [← h, abs_mul, abs_of_pos (by positivity : (0 : Int) < 10 ^ k)]
      exact le_mul_of_one_le_left (by positivity) hone
    have hk : k < 39 := by
      refine (Nat.pow_lt_pow_iff_right (by decide : 1 < 10)).mp ?_
      have : |v.toInt| ≤ 2 ^ 127 := abs_le.mpr ⟨hle, hlt.le⟩
      zify
      exact (habs.trans this).trans_lt (by norm_num)
    have hmax : (10 : Int) ^ k ≤ 2 ^ 127 - 1 :=
      (pow_le_pow_right₀ (by norm_num) (le_of_lt_succ hk)).trans (by norm_num)
    rw [min_eq_left hmax]
    omega

theorem saturatingScale_eq {u v : I128} {s t : Nat} (h : u.toInt * 10 ^ t = v.toInt * 10 ^ s) :
    saturatingScale u (max s t - s) = saturatingScale v (max s t - t) := by
  rcases le_total s t with hst | hst
  · obtain ⟨k, rfl⟩ := Nat.exists_eq_add_of_le hst
    rw [max_eq_right hst, Nat.sub_self, saturatingScale_zero, Nat.add_sub_cancel_left]
    exact saturatingScale_exact h
  · obtain ⟨k, rfl⟩ := Nat.exists_eq_add_of_le hst
    rw [max_eq_left hst, Nat.sub_self, saturatingScale_zero, Nat.add_sub_cancel_left]
    exact (saturatingScale_exact h.symm).symm

/-! ## Equal keys -/

/-- Which values are compared with each other; 0, 1 and 2 are the exact numbers. -/
def Value.kind : Value → Nat
  | .int _ | .uint _ => 0
  | .bool _ => 1
  | .decimal .. => 2
  | .text _ => 3
  | .date _ => 4
  | .dateTime _ => 5
  | .time _ => 6
  | _ => 7

/-- A scale is a `u8`. -/
def Value.ScaleFits : Value → Prop
  | .decimal _ scale => scale < 256
  | _ => True

/-- Two exact numbers, two texts, or two values of one date or time type. -/
structure Alike (a b : Value) : Prop where
  kinds : a.kind ≤ 2 ∧ b.kind ≤ 2 ∨ a.kind = b.kind ∧ a.kind < 7
  left : a.ScaleFits
  right : b.ScaleFits

/-- Two numbers of different kinds are not the same double, and two different decimals do not
become equal by saturation when they are brought to one scale. -/
def KeysAgree (env : Env) : Value → Value → Prop
  | .decimal u s, .decimal v t =>
    saturatingScale u (max s t - s) = saturatingScale v (max s t - t) →
      u.toInt * 10 ^ t = v.toInt * 10 ^ s
  | a, b => a.kind = b.kind ∨ env.cmpNumeric a b ≠ some .eq

section
variable {env : Env} {coll : Collation} {a b : Value}

/-- The numbers of a key are in the range of the bytes written for them. -/
def CollationKey.Fits : CollationKey → Prop
  | .int i => -2 ^ 63 ≤ i ∧ i < 2 ^ 63
  | .decimal u scale => (-2 ^ 127 ≤ u ∧ u < 2 ^ 127) ∧ scale < 256
  | _ => True

theorem fits_collationKey (h : a.ScaleFits) : (env.collationKey coll a).Fits := by
  cases a with
  | int i => exact ⟨i.le_toInt, i.toInt_lt⟩
  | uint u =>
    rw [collationKey]
    split
    · exact ⟨by omega, by omega⟩
    · trivial
  | decimal u scale =>
    obtain ⟨hle, hval⟩ := stripZeros_value u.toInt scale
    have hlo : -2 ^ 127 ≤ u.toInt := BitVec.le_toInt u
    have hhi : u.toInt < 2 ^ 127 := BitVec.toInt_lt
    have hone : (1 : Int) ≤ 10 ^ (scale - (stripZeros u.toInt scale).2) := one_le_pow₀ (by norm_num)
    refine ⟨⟨?_, ?_⟩, hle.trans_lt h⟩ <;> nlinarith
  | _ => trivial

theorem bytes_eq_iff {debug : Value → Bytes} {k k' : CollationKey} (hk : k.Fits) (hk' : k'.Fits)
    (hother : ∀ v w, k = .other v → k' = .other w → debug v = debug w → v = w) :
    k.bytes debug = k'.bytes debug ↔ k = k' := by
  refine ⟨fun h => ?_, fun h => by rw [h]⟩
  cases k <;> cases k'
  case int.int i j =>
    have hmod := le_eq_iff.mp (cons.inj h).2
    obtain ⟨hi, hi'⟩ := hk
    obtain ⟨hj, hj'⟩ := hk'
    rw [show i = j by omega]
  case decimal.decimal u s v t =>
    obtain ⟨hle, hscale⟩ := append_inj (cons.inj h).2 (by simp)
    obtain ⟨⟨hu, hu'⟩, hs⟩ := hk
    obtain ⟨⟨hv, hv'⟩, ht⟩ := hk'
    have hmod := le_eq_iff.mp hle
    have hst := congrArg Fin.val (cons.inj hscale).1
    rw [show u = v by omega, show s = t by simpa [mod_eq_of_lt, hs, ht] using hst]
  case uint.uint u v =>
    have hmod := le_eq_iff.mp (cons.inj h).2
    have := u.toNat_lt
    have := v.toNat_lt
    rw [UInt64.toNat_inj.mp (show u.toNat = v.toNat by omega)]
  case float.float f g =>
    have hmod := le_eq_iff.mp (cons.inj h).2
    have := f.toNat_lt
    have := g.toNat_lt
    rw [UInt64.toNat_inj.mp (show f.toNat = g.toNat by omega)]
  case bool.bool x y => cases x <;> cases y <;> simp_all [bytes]
  case text.text s t => rw [(append_inj (cons.inj h).2 (by simp)).2]
  case other.other v w =>
    rw [hother v w rfl rfl (append_inj (cons.inj h).2 (by simp)).2]
  case null.null => rfl
  all_goals exact absurd (cons.inj h).1 (by decide)

theorem eq_of_collationKey_other {v : Value} (h : env.collationKey coll a = .other v) :
    a = v ∧ 3 < a.kind := by
  cases a
  case uint u =>
    rw [collationKey] at h
    split at h <;> cases h
  all_goals cases h
  all_goals exact ⟨rfl, Nat.lt_of_sub_eq_succ rfl⟩

open Value

/-- Numbers of different kinds have different keys and are compared as doubles. -/
theorem collationKey_mixed (ha : a.kind ≤ 2) (hb : b.kind ≤ 2) (hne : a.kind ≠ b.kind) :
    env.collationKey coll a ≠ env.collationKey coll b ∧
      env.compareColl coll a b = env.cmpNumeric a b := by
  cases a <;> simp [kind] at ha <;> cases b <;> simp [kind] at hb hne <;>
    refine ⟨?_, rfl⟩ <;> simp only [collationKey] <;> try split
  all_goals rintro ⟨⟩

theorem collationKey_sameKind (h : a.kind = b.kind) (hlt : a.kind < 7) (hne : a.kind ≠ 2) :
    env.collationKey coll a = env.collationKey coll b ↔ env.compareColl coll a b = some .eq := by
  cases a <;> simp [kind] at hlt hne <;> cases b <;> simp [kind] at h <;>
    exact collationKey_eq_iff (by constructor) (by constructor) rfl

theorem collationKey_agrees_iff (h : Alike a b) :
    ((env.collationKey coll a = env.collationKey coll b ↔ env.compareColl coll a b = some .eq) ↔
      KeysAgree env a b) := by
  by_cases hdec : a.kind = 2 ∧ b.kind = 2
  · obtain ⟨u, s, rfl⟩ : ∃ u s, a = .decimal u s := by cases a <;> simp_all [kind]
    obtain ⟨v, t, rfl⟩ : ∃ v t, b = .decimal v t := by cases b <;> simp_all [kind]
    have hkey : env.collationKey coll (.decimal u s) = env.collationKey coll (.decimal v t) ↔
        u.toInt * 10 ^ t = v.toInt * 10 ^ s := by
      rw [← stripZeros_eq_iff]
      simp [collationKey, Prod.ext_iff]
    have hcmp : env.compareColl coll (.decimal u s) (.decimal v t) = some .eq ↔
        saturatingScale u (max s t - s) = saturatingScale v (max s t - t) := by
      simp [compareColl, cmpDecimal]
    rw [hkey, hcmp]
    exact ⟨Iff.mpr, fun h => ⟨saturatingScale_eq, h⟩⟩
  · have hagree : KeysAgree env a b ↔ a.kind = b.kind ∨ env.cmpNumeric a b ≠ some .eq := by
      unfold KeysAgree
      split
      · exact absurd ⟨rfl, rfl⟩ hdec
      · rfl
    rw [hagree]
    by_cases hkind : a.kind = b.kind
    · refine iff_of_true (collationKey_sameKind hkind ?_ fun h2 =>
        hdec ⟨h2, hkind ▸ h2⟩) (.inl hkind)
      rcases h.kinds with hle | hle
      · omega
      · exact hle.2
    · obtain ⟨hle, hle'⟩ := h.kinds.resolve_right fun hx => hkind hx.1
      obtain ⟨hne, hcmp⟩ := collationKey_mixed hle hle' hkind
      rw [hcmp]
      simp [hne, hkind]

end

/-- Two keys are the same bytes exactly when the values are equal, under the condition of
`KeysAgree`; and a key shows where it ends unless its length was cut. `hdebug`: different dates and
times are printed differently. -/
theorem keyBytes_agree_iff (env : Env) (debug : Value → Bytes)
    (hdebug : ∀ v w : Value, v.kind = w.kind → 3 < v.kind → v.kind < 7 → debug v = debug w →
      v = w) :
    (∀ coll a b, Alike a b →
      (((env.collationKey coll a).bytes debug = (env.collationKey coll b).bytes debug ↔
        env.compareColl coll a b = some .eq) ↔ KeysAgree env a b)) ∧
    (∀ k k', Delimits debug k k' ↔ LengthsTell debug k k') ∧
    ∀ colls r r', (∀ k ∈ env.columnKeys colls r, ∀ k' ∈ env.columnKeys colls r',
        LengthsTell debug k k') →
      env.rowCollationKey debug colls r = env.rowCollationKey debug colls r' →
      (env.columnKeys colls r).map (bytes debug) =
        (env.columnKeys colls r').map (bytes debug) := by
  refine ⟨fun coll a b h => ?_, delimits_iff debug, fun _ _ _ => map_bytes_of_flatMap debug⟩
  rw [bytes_eq_iff (fits_collationKey h.left) (fits_collationKey h.right) ?_]
  · exact collationKey_agrees_iff h
  · intro v w hv hw
    obtain ⟨rfl, hge⟩ := eq_of_collationKey_other hv
    obtain ⟨rfl, -⟩ := eq_of_collationKey_other hw
    obtain ⟨hkind, hlt⟩ := h.kinds.resolve_left fun hx => absurd hx.1 (by omega)
    exact hdebug a b hkind hge hlt

/-- A way of printing dates and times. -/
def printed : Value → Bytes
  | .date d => le 4 d.toInt
  | .dateTime t | .time t => le 8 t.toInt
  | _ => []

theorem keyBytes_agree_iff_seven : Alike (.int 7) (.uint 7) ∧
    (((plain.collationKey .ci (.int 7)).bytes printed =
        (plain.collationKey .ci (.uint 7)).bytes printed ↔
      plain.compareColl .ci (.int 7) (.uint 7) = some .eq) ↔
      KeysAgree .plain (.int 7) (.uint 7)) := by
  have halike : Alike (.int 7) (.uint 7) := ⟨.inl ⟨Nat.zero_le 2, Nat.zero_le 2⟩, trivial, trivial⟩
  refine ⟨halike, (keyBytes_agree_iff .plain printed ?_).1 .ci _ _ halike⟩
  intro v w hkind hlt hlt' h
  cases v <;> simp [Value.kind] at hlt hlt' <;> cases w <;> simp [Value.kind] at hkind <;>
    simp only [printed, le_eq_iff] at h
  case date.date d e =>
    rw [Int32.toInt_inj.mp (show d.toInt = e.toInt by
      have := d.le_toInt
      have := d.toInt_lt
      have := e.le_toInt
      have := e.toInt_lt
      omega)]
  all_goals
    rename_i t u
    rw [Int64.toInt_inj.mp (show t.toInt = u.toInt by
      have := t.le_toInt
      have := t.toInt_lt
      have := u.le_toInt
      have := u.toInt_lt
      omega)]

/-- The number one and `TRUE` are equal, with different keys. -/
theorem keyBytes_one_true : Alike (.int 1) (.bool true) ∧
    plain.compareColl .ci (.int 1) (.bool true) = some .eq ∧
    ∀ debug, (plain.collationKey .ci (.int 1)).bytes debug ≠
      (plain.collationKey .ci (.bool true)).bytes debug :=
  ⟨⟨.inl ⟨Nat.zero_le 2, Nat.le_succ 1⟩, trivial, trivial⟩, rfl,
    fun _ h => absurd (cons.inj h).1 (by decide)⟩

end ElyraSql.Engine
