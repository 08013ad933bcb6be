import ElyraSql.Library.RecordFile

/-!
# Parameter values

`elyra-wire/src/value/decode.rs`: a value of a prepared statement's parameter is read off the front
of the packet, as its column type says. Next to it stands the binary form that the protocol
prescribes for each type, which is what a client sends.
-/

namespace ElyraSql.Wire

open RecordFile Nat List Option Prod UInt8

/-! ## Types and values -/

/-- The column types that `parse_from` names, and one for each other number. -/
inductive ColumnType
  | decimal | tiny | short | long | float | double | null | timestamp | longlong | int24 | date
  | time | datetime | year | varchar | bit | json | newdecimal | enum | set | tinyBlob | mediumBlob
  | longBlob | blob | varString | string | geometry
  | other (number : UInt8)
  deriving DecidableEq, Repr

/-- The number of a type on the wire. -/
def ColumnType.number : ColumnType → UInt8
  | .decimal => 0 | .tiny => 1 | .short => 2 | .long => 3 | .float => 4 | .double => 5 | .null => 6
  | .timestamp => 7 | .longlong => 8 | .int24 => 9 | .date => 10 | .time => 11 | .datetime => 12
  | .year => 13 | .varchar => 15 | .bit => 16 | .json => 245 | .newdecimal => 246 | .enum => 247
  | .set => 248 | .tinyBlob => 249 | .mediumBlob => 250 | .longBlob => 251 | .blob => 252
  | .varString => 253 | .string => 254 | .geometry => 255
  | .other number => number

/-- The binary forms of the protocol: bytes after a length, a number of some bytes, and so on. -/
inductive Form
  | bytes
  | int (w : Nat)
  | float
  | double
  | datetime
  | date
  | time
  | null

/-- The form of a type; for those that `parse_from` does not name there is none. -/
def ColumnType.form : ColumnType → Option Form
  | .string | .varString | .blob | .tinyBlob | .mediumBlob | .longBlob | .set | .enum | .decimal
  | .varchar | .bit | .newdecimal | .geometry | .json => some .bytes
  | .tiny => some (.int 1)
  | .short | .year => some (.int 2)
  | .long | .int24 => some (.int 4)
  | .longlong => some (.int 8)
  | .float => some .float
  | .double => some .double
  | .timestamp | .datetime => some .datetime
  | .date => some .date
  | .time => some .time
  | .null => some .null
  | .other _ => none

/-- A number with the length that the protocol gives it. -/
def lenencInt (n : Nat) : List UInt8 :=
  if n ≤ 0xfa then [UInt8.ofNat n]
  else if n < 2 ^ 16 then 0xfc :: RecordFile.leBytes 2 n
  else if n < 2 ^ 24 then 0xfd :: RecordFile.leBytes 3 n
  else 0xfe :: RecordFile.leBytes 8 n

/-- What the code has from `mysql_common`, and what the results need of it: that it knows the
numbers of the types above, and reads the numbers that the protocol writes. -/
structure MysqlCommon where
  tryFrom : UInt8 → Option ColumnType
  readLenencInt : List UInt8 → Option (Nat × List UInt8)
  tryFrom_number : ∀ {t : ColumnType}, t.form.isSome = true → tryFrom t.number = some t
  readLenencInt_lenencInt : ∀ {n : Nat}, n < 2 ^ 64 → ∀ t : List UInt8,
    readLenencInt (lenencInt n ++ t) = some (n, t)

/-- `ValueInner`. A floating point number is its bits. -/
inductive ValueInner
  | null
  | bytes (b : List UInt8)
  | int (n : Int)
  | uint (n : Nat)
  | double (bits : Nat)
  | date (b : List UInt8)
  | time (b : List UInt8)
  | datetime (b : List UInt8)
  deriving DecidableEq, Repr

/-! ## Reading -/

/-- The number that `w` bytes are in two's complement. -/
def signed (w n : Nat) : Int := if n < 2 ^ (8 * w - 1) then n else n - 2 ^ (8 * w)

/-- Exponent and fraction of a 32-bit float, as those of a 64-bit one. A subnormal one gets an
exponent, and a NaN becomes a quiet one. -/
def widen (exp man : Nat) : Nat × Nat :=
  if exp = 255 then (2047, if man = 0 ∨ 2 ^ 22 ≤ man then man * 2 ^ 29 else 2 ^ 51 + man * 2 ^ 29)
  else if exp = 0 then
    if man = 0 then (0, 0) else (man.log2 + 874, (man - 2 ^ man.log2) * 2 ^ (52 - man.log2))
  else (exp + 896, man * 2 ^ 29)

/-- `f64::from` of a 32-bit float, on the bits. -/
def f64OfF32 (bits : Nat) : Nat :=
  let (exp, man) := widen (bits / 2 ^ 23 % 2 ^ 8) (bits % 2 ^ 23)
  bits / 2 ^ 31 * 2 ^ 63 + exp * 2 ^ 52 + man

/-- `read_bytes!`. -/
def takeBytes (len : Nat) (input : List UInt8) : Option (List UInt8 × List UInt8) :=
  if input.length < len then none else some (input.take len, input.drop len)

def parseBytes (len : Option (Nat × List UInt8)) (value : List UInt8 → ValueInner) :
    Option (ValueInner × List UInt8) :=
  len.bind fun (n, rest) => (takeBytes n rest).map fun (b, rest) => (value b, rest)

/-- A number of `w` bytes. -/
def parseInt (w : Nat) (unsigned : Bool) (input : List UInt8) : Option (ValueInner × List UInt8) :=
  (readLe w input).map fun (n, rest) => (if unsigned then .uint n else .int (signed w n), rest)

variable (m : MysqlCommon)

/-- `parse_from`: the value, and the input after it. The caller drops what the error says. -/
def parseFrom (input : List UInt8) (ct : ColumnType) (unsigned : Bool) :
    Option (ValueInner × List UInt8) :=
  match ct with
  | .string | .varString | .blob | .tinyBlob | .mediumBlob | .longBlob | .set | .enum | .decimal
  | .varchar | .bit | .newdecimal | .geometry | .json => parseBytes (m.readLenencInt input) .bytes
  | .tiny => parseInt 1 unsigned input
  | .short | .year => parseInt 2 unsigned input
  | .long | .int24 => parseInt 4 unsigned input
  | .longlong => parseInt 8 unsigned input
  | .float => (readLe 4 input).map fun (n, rest) => (.double (f64OfF32 n), rest)
  | .double => (readLe 8 input).map fun (n, rest) => (.double n, rest)
  | .timestamp | .datetime => parseBytes (readLe 1 input) .datetime
  | .date => parseBytes (readLe 1 input) .date
  | .time => parseBytes (readLe 1 input) .time
  | .null => some (.null, input)
  | .other _ => none

/-! ## What a client sends -/

/-- A value as the client has it. -/
inductive Sent
  | null
  | bytes (b : List UInt8)
  | int (n : Int)
  | uint (n : Nat)
  | float (bits : Nat)
  | double (bits : Nat)
  | date (b : List UInt8)
  | time (b : List UInt8)
  | datetime (b : List UInt8)
  deriving DecidableEq, Repr

/-- What the server is to make of it. -/
def Sent.value : Sent → ValueInner
  | .null => .null
  | .bytes b => .bytes b
  | .int n => .int n
  | .uint n => .uint n
  | .float bits => .double (f64OfF32 bits)
  | .double bits => .double bits
  | .date b => .date b
  | .time b => .time b
  | .datetime b => .datetime b

/-- The codes of the values that a form has. -/
inductive Form.Codes (unsigned : Bool) : Form → Sent → List UInt8 → Prop
  | bytes {b : List UInt8} (h : b.length < 2 ^ 64) :
    Form.Codes unsigned .bytes (.bytes b) (lenencInt b.length ++ b)
  | uint {w n : Nat} (hu : unsigned = true) (h : n < 256 ^ w) :
    Form.Codes unsigned (.int w) (.uint n) (RecordFile.leBytes w n)
  | int {w : Nat} {n : Int} (hu : unsigned = false) (hlo : -2 ^ (8 * w - 1) ≤ n)
    (hhi : n < 2 ^ (8 * w - 1)) :
    Form.Codes unsigned (.int w) (.int n) (RecordFile.leBytes w (n % 256 ^ w).toNat)
  | float {bits : Nat} (h : bits < 256 ^ 4) :
    Form.Codes unsigned .float (.float bits) (RecordFile.leBytes 4 bits)
  | double {bits : Nat} (h : bits < 256 ^ 8) :
    Form.Codes unsigned .double (.double bits) (RecordFile.leBytes 8 bits)
  | datetime {b : List UInt8} (h : b.length < 256) :
    Form.Codes unsigned .datetime (.datetime b) (writeBytes 1 b)
  | date {b : List UInt8} (h : b.length < 256) :
      Form.Codes unsigned .date (.date b) (writeBytes 1 b)
  | time {b : List UInt8} (h : b.length < 256) :
      Form.Codes unsigned .time (.time b) (writeBytes 1 b)
  | null : Form.Codes unsigned .null .null []

def ColumnType.Codes (ct : ColumnType) (unsigned : Bool) (v : Sent) (c : List UInt8) : Prop :=
  ∃ f, ct.form = some f ∧ Form.Codes unsigned f v c

variable {c : List UInt8} {unsigned : Bool}
variable {f : Form} {v : Sent}

/-! ## What was sent is read -/

/-- How a form is read. -/
def Form.parse (unsigned : Bool) (input : List UInt8) : Form → Option (ValueInner × List UInt8)
  | .bytes => parseBytes (m.readLenencInt input) .bytes
  | .int w => parseInt w unsigned input
  | .float => (readLe 4 input).map fun (n, rest) => (.double (f64OfF32 n), rest)
  | .double => (readLe 8 input).map fun (n, rest) => (.double n, rest)
  | .datetime => parseBytes (readLe 1 input) .datetime
  | .date => parseBytes (readLe 1 input) .date
  | .time => parseBytes (readLe 1 input) .time
  | .null => some (.null, input)

variable {ct : ColumnType}

theorem parseFrom_eq (h : ct.form = some f) (unsigned : Bool) (input : List UInt8) :
    parseFrom m input ct unsigned = f.parse m unsigned input := by
  cases ct <;> cases h <;> rfl

variable {n : Nat}

variable {b : List UInt8}

theorem parseBytes_append {t : List UInt8} (value : List UInt8 → ValueInner) :
    parseBytes (some (b.length, b ++ t)) value = some (value b, t) := by
  rw [parseBytes, bind_some]
  dsimp only
  rw [takeBytes, if_neg (by simp), take_left, drop_left]
  rfl

variable {w : Nat}

theorem signed_toNat (hw : 0 < w) {n : Int} (hlo : -2 ^ (8 * w - 1) ≤ n)
    (hhi : n < 2 ^ (8 * w - 1)) : signed w (n % 256 ^ w).toNat = n := by
  obtain ⟨M, hM⟩ : ∃ M : Nat, M = 2 ^ (8 * w - 1) := ⟨_, rfl⟩
  have hdouble : 2 ^ (8 * w) = 2 * M := by
    rw [hM, ← pow_succ']
    congr 1
    omega
  have h256 : (256 : Int) ^ w = 2 * M := by
    have : (256 : Nat) ^ w = 2 * M := by rw [← hdouble, Nat.pow_mul]
    exact_mod_cast this
  have hMI : (2 : Int) ^ (8 * w - 1) = M := by rw [hM]; norm_cast
  have hMI' : (2 : Int) ^ (8 * w) = 2 * M := by exact_mod_cast hdouble
  rw [signed, h256]
  by_cases hn : 0 ≤ n
  · rw [Int.emod_eq_of_lt hn (by omega)]
    omega
  · have hmod : n % (2 * (M : Int)) = n + 2 * M := by
      rw [← Int.add_emod_right, Int.emod_eq_of_lt (by omega) (by omega)]
    omega

theorem toNat_emod_lt (n : Int) (w : Nat) : (n % 256 ^ w).toNat < 256 ^ w := by
  zify
  omega

theorem Form.Codes.parse (h : Form.Codes unsigned f v c) (hw : ∀ w, f = .int w → 0 < w)
    (t : List UInt8) :
    f.parse m unsigned (c ++ t) = some (v.value, t) := by
  cases h with
  | bytes hb =>
    rw [parse, append_assoc, m.readLenencInt_lenencInt hb, parseBytes_append]
    rfl
  | uint hu hn =>
    rw [parse, parseInt, readLe_leBytes hn, hu]
    rfl
  | @int w n hu hlo hhi =>
    have hlt := toNat_emod_lt n w
    rw [parse, parseInt, readLe_leBytes hlt, hu]
    simp only [map_some, signed_toNat (hw w rfl) hlo hhi]
    rfl
  | float hn | double hn =>
    rw [parse, readLe_leBytes hn]
    rfl
  | datetime hb | date hb | time hb =>
    rw [parse, readLe_writeBytes hb, parseBytes_append]
    rfl
  | null => rfl

theorem ColumnType.form_pos (h : ct.form = some f) (hw : f = .int w) : 0 < w := by
  cases ct <;> cases h <;> cases hw <;> decide

/-- A value that was sent is read, and what follows it is left. -/
theorem parseFrom_code (h : ct.Codes unsigned v c) (t : List UInt8) :
    parseFrom m (c ++ t) ct unsigned = some (v.value, t) := by
  obtain ⟨f, hf, hc⟩ := h
  rw [parseFrom_eq m hf]
  exact hc.parse m (fun w => ColumnType.form_pos hf) t

/-! ## Reading one byte too early -/

/-- The number that is read is the one that was sent only for zero. -/
theorem shifted_eq (hn : n < 256 ^ w) (h : 256 * n % 256 ^ w = n) : n = 0 := by
  have hmod : 256 * n ≡ n [MOD 256 ^ w] := by
    rw [Nat.ModEq, h, mod_eq_of_lt hn]
  have hdvd : 256 ^ w ∣ 255 * n := by
    have := (modEq_iff_dvd' (by omega)).mp hmod.symm
    rwa [show 256 * n - n = 255 * n by omega] at this
  have hcop : Nat.Coprime (256 ^ w) 255 := Nat.Coprime.pow_left w (by decide)
  exact eq_zero_of_dvd_of_lt (hcop.dvd_of_dvd_mul_left hdvd) hn

/-! A 32-bit float is not changed by widening, apart from NaNs. -/

theorem log2_lt {man : Nat} (hman : man < 2 ^ 23) (h0 : man ≠ 0) : man.log2 < 23 :=
  (Nat.log2_lt h0).mpr hman

theorem widen_lt {exp man : Nat} (hexp : exp < 2 ^ 8) (hman : man < 2 ^ 23) :
    (widen exp man).1 < 2 ^ 11 ∧ (widen exp man).2 < 2 ^ 52 := by
  unfold widen
  split_ifs with h255 hquiet h0 hm0
  · exact ⟨by omega, by omega⟩
  · exact ⟨by omega, by omega⟩
  · exact ⟨by decide, by decide⟩
  · have hlog := log2_lt hman hm0
    have hlow : man - 2 ^ man.log2 < 2 ^ man.log2 := by
      have := @lt_log2_self man
      omega
    refine ⟨by omega, ?_⟩
    calc (man - 2 ^ man.log2) * 2 ^ (52 - man.log2)
        < 2 ^ man.log2 * 2 ^ (52 - man.log2) := mul_lt_mul_of_pos_right hlow (by positivity)
      _ = 2 ^ 52 := by rw [← Nat.pow_add, Nat.add_sub_cancel' (by omega)]
  · exact ⟨by omega, by omega⟩

theorem widen_inj {exp man exp' man' : Nat} (hexp : exp < 2 ^ 8) (hman : man < 2 ^ 23)
    (hexp' : exp' < 2 ^ 8) (hman' : man' < 2 ^ 23) (h : widen exp man = widen exp' man') :
    exp = exp' ∧ (man = man' ∨ exp = 255 ∧ man % 2 ^ 22 = man' % 2 ^ 22) := by
  have hlog := @log2_lt man hman
  have hlog' := @log2_lt man' hman'
  unfold widen at h
  by_cases h255 : exp = 255
  · subst h255
    have h255' : exp' = 255 := by
      split_ifs at h <;> simp only [mk.injEq] at h <;> omega
    subst h255'
    simp only [if_true, mk.injEq, true_and] at h
    refine ⟨rfl, .inr ⟨rfl, ?_⟩⟩
    split_ifs at h <;> omega
  · have h255' : exp' ≠ 255 := by
      rintro rfl
      split_ifs at h <;> simp only [mk.injEq] at h <;> omega
    rw [if_neg h255, if_neg h255'] at h
    by_cases hsub : exp = 0 ∧ man ≠ 0 ∧ exp' = 0 ∧ man' ≠ 0
    · obtain ⟨rfl, h0, rfl, h0'⟩ := hsub
      rw [if_pos rfl, if_pos rfl, if_neg h0, if_neg h0', mk.injEq] at h
      have hk : man.log2 = man'.log2 := by omega
      have hfrac := h.2
      rw [hk] at hfrac
      have hsame := eq_of_mul_eq_mul_right (by positivity) hfrac
      have hle := log2_self_le h0
      have hle' := log2_self_le h0'
      rw [hk] at hle
      exact ⟨rfl, .inl (by omega)⟩
    · split_ifs at h <;> simp only [mk.injEq] at h <;> omega

theorem f64OfF32_shifted (hn : n < 256 ^ 4) (h : f64OfF32 (256 * n % 256 ^ 4) = f64OfF32 n) :
    n = 0 := by
  obtain ⟨m, hm⟩ : ∃ m, m = 256 * n % 256 ^ 4 := ⟨_, rfl⟩
  rw [← hm] at h
  have hw := @widen_lt (m / 2 ^ 23 % 2 ^ 8) (m % 2 ^ 23) (by omega) (by omega)
  have hw' := @widen_lt (n / 2 ^ 23 % 2 ^ 8) (n % 2 ^ 23) (by omega) (by omega)
  have hinj := @widen_inj (m / 2 ^ 23 % 2 ^ 8) (m % 2 ^ 23) (n / 2 ^ 23 % 2 ^ 8)
    (n % 2 ^ 23) (by omega)
    (by omega) (by omega) (by omega)
  simp only [f64OfF32] at h
  generalize widen (m / 2 ^ 23 % 2 ^ 8) (m % 2 ^ 23) = a at h hw hinj
  generalize widen (n / 2 ^ 23 % 2 ^ 8) (n % 2 ^ 23) = b at h hw' hinj
  obtain ⟨hexp, hman⟩ := hinj (Prod.ext (by omega) (by omega))
  have hsign : m / 2 ^ 31 = n / 2 ^ 31 := by omega
  rcases hman with hman | ⟨h255, hman⟩
  · refine shifted_eq hn ?_
    omega
  · omega

theorem signed_inj {m : Nat} (hm : m < 256 ^ w) (hn : n < 256 ^ w) (h : signed w m = signed w n) :
    m = n := by
  have h256 : (256 : Nat) ^ w = 2 ^ (8 * w) := by rw [Nat.pow_mul]
  have hpow : (2 : Int) ^ (8 * w) = (2 ^ (8 * w) : Nat) := by norm_cast
  unfold signed at h
  split_ifs at h <;> omega

/-- What a reader makes of a code that a zero stands before: the value only if the code is made of
zeros, and then a zero is left again. -/
def ShiftedTo (c t : List UInt8) (value : ValueInner) (found : Option (ValueInner × List UInt8)) :
    Prop :=
  ∃ u r, found = some (u, r) ∧ (u = value ↔ ∀ b ∈ c, b = 0) ∧ ((∀ b ∈ c, b = 0) → r = 0 :: t)

theorem readLe_shiftedTo (hn : n < 256 ^ w) {d : Nat → ValueInner}
    (hd : d (256 * n % 256 ^ w) = d n → n = 0) (t : List UInt8) :
    ShiftedTo (RecordFile.leBytes w n) t (d n)
      ((readLe w (0 :: RecordFile.leBytes w n ++ t)).map fun (n, rest) => (d n, rest)) := by
  obtain ⟨b, hread, hb⟩ := readLe_shifted w n t
  refine ⟨d (256 * n % 256 ^ w), b :: t, by rw [hread]; rfl, ?_, fun hz => ?_⟩
  · rw [leBytes_eq_zeros hn]
    refine ⟨hd, ?_⟩
    rintro rfl
    rw [zero_mod]
  · rw [hb ((leBytes_eq_zeros hn).mp hz)]

variable {value : List UInt8 → ValueInner}

/-- The length of bytes is read as zero. -/
theorem parseBytes_shiftedTo {code t : List UInt8} (hvalue : value [] = value b → b = [])
    (hcode : b = [] → code = [0]) (hzeros : (∀ x ∈ code, x = 0) → b = []) :
    ShiftedTo code t (value b) (parseBytes (some (0, code ++ t)) value) := by
  refine ⟨value [], code ++ t, ?_, ⟨fun h => ?_, fun h => ?_⟩, fun h => ?_⟩
  · exact parseBytes_append (b := []) value
  · rw [hcode (hvalue h)]
    exact fun x hx => mem_singleton.mp hx
  · rw [hzeros h]
  · rw [hcode (hzeros h)]
    rfl

theorem lenencInt_zeros (h : ∀ x ∈ lenencInt n, x = 0) : n = 0 := by
  unfold lenencInt at h
  split_ifs at h with h1 h2 h3
  · have hn : (ofNat n).toNat = n := toNat_ofNat_of_lt' (by rw [UInt8.size]; omega)
    rw [← hn, h _ mem_cons_self]
    rfl
  · exact absurd (h _ mem_cons_self) (by decide)
  · exact absurd (h _ mem_cons_self) (by decide)
  · exact absurd (h _ mem_cons_self) (by decide)

theorem writeBytes_zeros (hb : b.length < 256) (h : ∀ x ∈ writeBytes 1 b, x = 0) : b = [] := by
  have hlen : ∀ x ∈ RecordFile.leBytes 1 b.length, x = 0 := fun x hx =>
    h x (mem_append_left _ hx)
  exact eq_nil_of_length_eq_zero ((leBytes_eq_zeros (w := 1) hb).mp hlen)

theorem readLe_one_shiftedTo (hb : b.length < 256) (hvalue : value [] = value b → b = [])
    (t : List UInt8) :
    ShiftedTo (writeBytes 1 b) t (value b)
      (parseBytes (readLe 1 (0 :: writeBytes 1 b ++ t)) value) := by
  have hread : readLe 1 (0 :: writeBytes 1 b ++ t) = some (0, writeBytes 1 b ++ t) :=
    readLe_leBytes (w := 1) (n := 0) (by decide) _
  refine parseBytes_shiftedTo hvalue ?_ (writeBytes_zeros hb)
  rintro rfl
  rfl

open ValueInner

theorem Form.Codes.shiftedTo (h : Form.Codes unsigned f v c) (hw : ∀ w, f = .int w → 0 < w)
    (t : List UInt8) :
    ShiftedTo c t v.value (f.parse m unsigned (0 :: c ++ t)) := by
  cases h with
  | @bytes b hb =>
    have hread : m.readLenencInt (0 :: (lenencInt b.length ++ b) ++ t) =
        some (0, lenencInt b.length ++ b ++ t) :=
      m.readLenencInt_lenencInt (n := 0) (by decide) _
    rw [Form.parse, hread]
    refine parseBytes_shiftedTo (fun heq => (bytes.inj heq).symm) ?_ fun hz => ?_
    · rintro rfl
      rfl
    · exact eq_nil_of_length_eq_zero
        (lenencInt_zeros fun x hx => hz x (mem_append_left _ hx))
  | @uint w n hu hn =>
    subst hu
    exact readLe_shiftedTo hn (d := .uint) (fun heq => shifted_eq hn (uint.inj heq)) t
  | @int w n hu hlo hhi =>
    subst hu
    have hlt := toNat_emod_lt n w
    have hshift := readLe_shiftedTo hlt (d := fun n => .int (signed w n))
      (fun heq => shifted_eq hlt (signed_inj (mod_lt _ (by positivity)) hlt
        (ValueInner.int.inj heq)))
      t
    rwa [signed_toNat (hw w rfl) hlo hhi] at hshift
  | float hn =>
    exact readLe_shiftedTo hn (d := fun n => .double (f64OfF32 n))
      (fun heq => f64OfF32_shifted hn (double.inj heq)) t
  | double hn =>
    exact readLe_shiftedTo hn (d := .double) (fun heq => shifted_eq hn (double.inj heq)) t
  | datetime hb => exact readLe_one_shiftedTo hb (fun heq => (datetime.inj heq).symm) t
  | date hb => exact readLe_one_shiftedTo hb (fun heq => (date.inj heq).symm) t
  | time hb => exact readLe_one_shiftedTo hb (fun heq => (time.inj heq).symm) t
  | null => exact ⟨.null, 0 :: t, rfl, ⟨fun _ => nofun, fun _ => rfl⟩, fun _ => rfl⟩

/-- One byte too early, a value is read as itself only if its code is made of zeros. -/
theorem parseFrom_shifted (h : ct.Codes unsigned v c) (t : List UInt8) :
    ShiftedTo c t v.value (parseFrom m (0 :: c ++ t) ct unsigned) := by
  obtain ⟨f, hf, hc⟩ := h
  rw [parseFrom_eq m hf]
  exact hc.shiftedTo m (fun w => ColumnType.form_pos hf) t

end ElyraSql.Wire
