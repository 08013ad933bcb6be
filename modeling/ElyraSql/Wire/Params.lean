import ElyraSql.Wire.Value

/-!
# Parameters of a prepared statement

`elyra-wire/src/params.rs` and `StatementData` of `lib.rs`: an execution of a prepared statement
carries a bitmap of the NULL parameters, a flag, the types if the flag is set, and the values of the
other parameters, except those that were sent in pieces before. Types are kept for later executions.
-/

namespace ElyraSql.Wire

open RecordFile List Nat Option Bool

/-! ## The iterator -/

structure ParamValue where
  value : ValueInner
  coltype : ColumnType
  deriving DecidableEq, Repr

/-- `Params`, with the types of its statement. -/
structure Params where
  params : Nat
  input : List UInt8
  nullmap : Option (List UInt8) := none
  col : Nat := 0
  longData : Nat → Option (List UInt8)
  boundTypes : List (ColumnType × Bool)

variable (m : MysqlCommon)

/-- The loop over the type map; false when a type is not known. -/
def bindTypes : Nat → List UInt8 → List (ColumnType × Bool) → List (ColumnType × Bool) × Bool
  | n + 1, code :: flags :: rest, bound =>
    match m.tryFrom code with
    | some t => bindTypes n rest (bound ++ [(t, flags.toNat.testBit 7)])
    | none => (bound, false)
  | 0, _, bound => (bound, true)
  | _ + 1, _, bound => (bound, false)

/-- The first part of `next`: the null bitmap and the types, before the first value. -/
def Params.header (p : Params) : Option String × Params :=
  if p.nullmap.isSome then (none, p)
  else
    let len := (p.params + 7) / 8
    if p.input.length < len then (some "truncated parameter null bitmap",
      { p with col := p.params })
    else
      let rest := p.input.drop len
      let p := { p with nullmap := some (p.input.take len), input := rest }
      match rest with
      | [] => (none, p)
      | flag :: rest =>
        if flag = 0 then (none, p)
        else if rest.length < 2 * p.params then
          (some "truncated parameter type map", { p with col := p.params })
        else
          match bindTypes m p.params rest [] with
          | (bound, true) =>
            (none, { p with boundTypes := bound, input := rest.drop (2 * p.params) })
          | (bound, false) =>
            (some "invalid parameter column type", { p with boundTypes := bound, col := p.params })

/-- The second part of `next`. -/
def Params.value (p : Params) : Option (Except String ParamValue) × Params :=
  if p.params ≤ p.col then (none, p)
  else
    match p.boundTypes[p.col]? with
    | none => (some (.error "parameter types were not supplied"), { p with col := p.params })
    | some (ct, unsigned) =>
      match (p.nullmap.getD [])[p.col / 8]? with
      | none => (none, p)
      | some byte =>
        if byte.toNat.testBit (p.col % 8) then
          (some (.ok ⟨.null, ct⟩), { p with col := p.col + 1 })
        else
          match p.longData p.col with
          | some data => (some (.ok ⟨.bytes data, ct⟩), { p with col := p.col + 1 })
          | none =>
            match parseFrom m p.input ct unsigned with
            | none => (some (.error "truncated or invalid parameter value"),
                { p with col := p.params })
            | some (v, rest) => (some (.ok ⟨v, ct⟩), { p with input := rest, col := p.col + 1 })

def Params.next (p : Params) : Option (Except String ParamValue) × Params :=
  match p.header m with
  | (some e, p) => (some (.error e), p)
  | (none, p) => p.value m

/-- The loop of `on_execute`: until the iterator ends, or fails, in at most `fuel` calls. -/
def Params.drain : Nat → Params → Option (List (Except String ParamValue)) × Params
  | 0, p => (none, p)
  | fuel + 1, p =>
    match p.next m with
    | (none, p) => (some [], p)
    | (some (.error e), p) => (some [.error e], p)
    | (some (.ok v), p) =>
      let (vs, p) := p.drain fuel
      (vs.map (.ok v :: ·), p)

/-! ## Statements -/

structure StatementData where
  longData : Nat → Option (List UInt8) := fun _ => none
  boundTypes : List (ColumnType × Bool) := []
  params : Nat
  longDataBytes : Nat := 0
  longDataOverflow : Bool := false

def StatementData.pushLongData (limit : Nat) (s : StatementData) (chunk : Nat × List UInt8) :
    StatementData :=
  if s.longDataOverflow then s
  else if limit < s.longDataBytes + chunk.2.length then
    { s with longDataOverflow := true, longData := fun _ => none, longDataBytes := 0 }
  else
    { s with
      longDataBytes := s.longDataBytes + chunk.2.length
      longData := fun i =>
        if i = chunk.1 then some ((s.longData i).getD [] ++ chunk.2) else s.longData i }

def StatementData.resetLongData (s : StatementData) : StatementData :=
  { s with longData := fun _ => none, longDataBytes := 0, longDataOverflow := false }

/-- `ParamParser::new` and `into_iter`. -/
def StatementData.iter (s : StatementData) (input : List UInt8) : Params :=
  { params := s.params, input := input, longData := s.longData, boundTypes := s.boundTypes }

/-- The branch for `Command::Execute`: what the iterator yields, or none if too much was sent
before. -/
def StatementData.execute (s : StatementData) (input : List UInt8) :
    Option (List (Except String ParamValue)) × StatementData :=
  if s.longDataOverflow then (none, s.resetLongData)
  else
    let (vs, p) := (s.iter input).drain m (s.params + 1)
    (vs, { s with boundTypes := p.boundTypes }.resetLongData)

/-! ## What a client sends -/

/-- A parameter, with the code of its value. -/
structure Param where
  type : ColumnType
  unsigned : Bool := false
  null : Bool := false
  sent : Sent
  code : List UInt8
  ok : type.Codes unsigned sent code

theorem Param.known (p : Param) : p.type.form.isSome = true := by
  obtain ⟨f, hf, -⟩ := p.ok
  rw [hf, isSome_some]

/-- An execution of a statement: the pieces of the long values that are sent before it, whether it
sends the types, and the parameters. -/
structure Execution where
  chunks : List (Nat × List UInt8) := []
  newTypes : Bool
  params : List Param

namespace Execution

def long (e : Execution) (i : Nat) : Option (List UInt8) :=
  match e.chunks.filter fun c => c.1 == i with
  | [] => none
  | c :: cs => some ((c :: cs).flatMap Prod.snd)

/-- The number of bytes that are sent in pieces. -/
def longBytes (e : Execution) : Nat := (e.chunks.map fun c => c.2.length).sum

def types (e : Execution) : List (ColumnType × Bool) := e.params.map fun p => (p.type, p.unsigned)

def code (e : Execution) (pi : Param × Nat) : List UInt8 :=
  if pi.1.null || (e.long pi.2).isSome then [] else pi.1.code

def valueBytes (e : Execution) : List UInt8 := e.params.zipIdx.flatMap e.code

def nullBitmap (e : Execution) : List UInt8 :=
  (List.range ((e.params.length + 7) / 8)).map fun j =>
    UInt8.ofNat (ofBits fun b : Fin 8 => ((e.params.map Param.null)[8 * j + b.val]?).getD false)

def typeBytes (e : Execution) : List UInt8 :=
  e.params.flatMap fun p => [p.type.number, if p.unsigned then 128 else 0]

/-- What follows the iteration count in the packet. -/
def bytes (e : Execution) : List UInt8 :=
  if e.params.isEmpty then []
  else e.nullBitmap ++
    (if e.newTypes then 1 :: e.typeBytes ++ e.valueBytes else 0 :: e.valueBytes)

def valueOf (e : Execution) (pi : Param × Nat) : ParamValue :=
  ⟨if pi.1.null then .null
    else match e.long pi.2 with
      | some data => .bytes data
      | none => pi.1.sent.value, pi.1.type⟩

def values (e : Execution) : List ParamValue := e.params.zipIdx.map e.valueOf

end Execution

/-- Send the pieces, then execute. -/
def StatementData.send (limit : Nat) (s : StatementData) (e : Execution) :
    Option (List (Except String ParamValue)) × StatementData :=
  (e.chunks.foldl (StatementData.pushLongData limit) s).execute m e.bytes

def StatementData.sendAll (limit : Nat) : StatementData → List Execution →
    List (Option (List (Except String ParamValue)))
  | _, [] => []
  | s, e :: es => (s.send m limit e).1 :: (s.send m limit e).2.sendAll limit es

/-- The client leaves the types out only if they are those that it sent last. -/
def Follows : List (ColumnType × Bool) → List Execution → Prop
  | _, [] => True
  | bound, e :: es => (e.newTypes = true ∨ e.types = bound) ∧ Follows e.types es

/-! ## Before the first value -/

theorem bindTypes_typeBytes (ps : List Param) (t : List UInt8) (bound : List (ColumnType × Bool)) :
    bindTypes m ps.length
        ((ps.flatMap fun p => [p.type.number, if p.unsigned then 128 else 0]) ++ t) bound =
      (bound ++ ps.map fun p => (p.type, p.unsigned), true) := by
  induction ps generalizing bound with
  | nil => simp [bindTypes]
  | cons p ps ih =>
    have hflag : (if p.unsigned then 128 else 0 : UInt8).toNat.testBit 7 = p.unsigned := by
      cases p.unsigned <;> decide
    rw [length_cons, flatMap_cons]
    simp only [cons_append, nil_append, bindTypes, m.tryFrom_number p.known, hflag]
    rw [ih, append_assoc]
    rfl

open Execution

theorem length_typeBytes (e : Execution) : e.typeBytes.length = 2 * e.params.length := by
  rw [typeBytes]
  simp [mul_comm]

theorem length_nullBitmap (e : Execution) : e.nullBitmap.length = (e.params.length + 7) / 8 := by
  simp [nullBitmap]

variable {i : Nat} {bitmap : List UInt8} {e : Execution} {s : StatementData}

theorem nullBitmap_testBit (e : Execution) {x : Param} (h : e.params[i]? = some x) :
    ∃ byte, e.nullBitmap[i / 8]? = some byte ∧ byte.toNat.testBit (i % 8) = x.null := by
  have hi : i < e.params.length := (List.getElem?_eq_some_iff.mp h).1
  have hbit : i % 8 < 8 := mod_lt _ (by decide)
  have hj : i / 8 < (e.params.length + 7) / 8 := by omega
  refine ⟨_, by rw [nullBitmap, getElem?_map, getElem?_range hj]; rfl, ?_⟩
  rw [UInt8.toNat_ofNat_of_lt' (ofBits_lt_two_pow _), testBit_ofBits_lt _ _ hbit]
  rw [div_add_mod, getElem?_map, h]
  rfl

/-- The iterator after the bitmap and the types, at parameter `i`. -/
structure Started (e : Execution) (p : Params) (i : Nat) : Prop where
  params : p.params = e.params.length
  nullmap : p.nullmap = some e.nullBitmap
  col : p.col = i
  longData : p.longData = e.long
  boundTypes : p.boundTypes = e.types

open Params

theorem header_of_nullmap {p : Params} (h : p.nullmap = some bitmap) : p.header m = (none, p) := by
  rw [Params.header, h]
  rfl

theorem Started.next {p : Params} (h : Started e p i) : p.next m = p.value m := by
  rw [Params.next, header_of_nullmap m h.nullmap]

/-- The bitmap and the types are read, but not the flag when it is not set. -/
theorem header_bytes (hne : e.params ≠ []) (hparams : s.params = e.params.length)
    (hlong : s.longData = e.long) (hbound : e.newTypes = true ∨ e.types = s.boundTypes) : ∃ p,
      (s.iter e.bytes).header m = (none, p) ∧ Started e p 0 ∧
      p.input = if e.newTypes then e.valueBytes else 0 :: e.valueBytes := by
  have hempty : e.params.isEmpty = false := isEmpty_eq_false_iff.mpr hne
  have hlen := length_nullBitmap e
  rw [Params.header, StatementData.iter, bytes, hempty, hparams, hlong]
  cases hflag : e.newTypes with
  | true =>
    have hbind := bindTypes_typeBytes m e.params e.valueBytes []
    have hdrop : (e.typeBytes ++ e.valueBytes).drop (2 * e.params.length) = e.valueBytes :=
      drop_left' (length_typeBytes e)
    have hroom : ¬ (e.typeBytes ++ e.valueBytes).length < 2 * e.params.length := by
      rw [length_append, length_typeBytes]
      omega
    simp only [isSome_none, false_eq_true, if_false, if_true, length_append]
    rw [if_neg (by omega), drop_left' hlen, take_left' hlen]
    simp only [cons_append]
    rw [if_neg hroom, typeBytes, hbind]
    exact ⟨_, rfl, ⟨rfl, rfl, rfl, rfl, rfl⟩, hdrop⟩
  | false =>
    have htypes : e.types = s.boundTypes := hbound.resolve_left (by rw [hflag]; exact false_ne_true)
    simp only [isSome_none, false_eq_true, if_false, length_append]
    rw [if_neg (by omega), drop_left' hlen, take_left' hlen]
    exact ⟨_, rfl, ⟨rfl, rfl, rfl, rfl, htypes.symm⟩, rfl⟩

/-! ## The values -/

section Values

variable {e : Execution} {p : Params} {done rest : List Param} {x : Param}

theorem Started.advance (h : Started e p done.length) (x : Param) (input : List UInt8) :
    Started e { p with input := input, col := done.length + 1 } (done ++ [x]).length :=
  ⟨h.params, h.nullmap, by simp, h.longData, h.boundTypes⟩

theorem Started.end_ (h : Started e p e.params.length) : p.value m = (none, p) := by
  rw [value, if_pos (by rw [h.params, h.col])]

/-- What `next` returns: a value that is not among the values, or the next one of them. -/
theorem Started.value_eq (h : Started e p done.length) (hparams : e.params = done ++ x :: rest) :
    p.value m =
      if x.null || (e.long done.length).isSome then
        (some (.ok (e.valueOf (x, done.length))), { p with col := done.length + 1 })
      else match parseFrom m p.input x.type x.unsigned with
        | none => (some (.error "truncated or invalid parameter value"), { p with col := p.params })
        | some (v, r) => (some (.ok ⟨v, x.type⟩),
            { p with input := r, col := done.length + 1 }) := by
  have hx : e.params[done.length]? = some x := by rw [hparams]; simp
  have htype : e.types[done.length]? = some (x.type, x.unsigned) := by
    rw [types, getElem?_map, hx]
    rfl
  obtain ⟨byte, hbyte, hbit⟩ := nullBitmap_testBit e hx
  rw [value, h.params, h.col, if_neg (by rw [hparams]; simp), h.boundTypes, htype, h.nullmap]
  rw [getD_some, hbyte]
  dsimp only
  rw [hbit, h.longData, valueOf]
  cases x.null with
  | true => rfl
  | false => cases e.long done.length <;> rfl

def restValues (e : Execution) (done rest : List Param) : List (Except String ParamValue) :=
  (rest.zipIdx done.length).map fun pi => .ok (e.valueOf pi)

def restBytes (e : Execution) (done rest : List Param) : List UInt8 :=
  (rest.zipIdx done.length).flatMap e.code

theorem restBytes_cons (e : Execution) (done rest : List Param) (x : Param) :
    restBytes e done (x :: rest) = e.code (x, done.length) ++ restBytes e (done ++ [x]) rest := by
  rw [restBytes, zipIdx_cons, flatMap_cons, restBytes, length_append, length_singleton]

theorem restValues_cons (e : Execution) (done rest : List Param) (x : Param) :
    restValues e done (x :: rest) = .ok (e.valueOf (x, done.length)) ::
      restValues e (done ++ [x]) rest := by
  rw [restValues, zipIdx_cons, map_cons, restValues, length_append, length_singleton]

theorem Started.drain_nil (h : Started e p e.params.length) (fuel : Nat) :
    p.drain m (fuel + 1) = (some [], p) := by
  rw [drain, h.next, h.end_]

/-- What stands at the start of the values is the code of a value that is present. -/
theorem code_present (h : (x.null || (e.long i).isSome) = false) :
    e.code (x, i) = x.code ∧ e.valueOf (x, i) = ⟨x.sent.value, x.type⟩ := by
  obtain ⟨hnull, hlong⟩ := or_eq_false_iff.mp h
  rw [isSome_eq_false_iff, isNone_iff_eq_none] at hlong
  simp [code, valueOf, hnull, hlong]

theorem code_absent (h : (x.null || (e.long i).isSome) = true) : e.code (x, i) = [] := by
  rw [code, h]
  rfl

/-- From the right place on, the values are read. -/
theorem Started.drain_aligned (h : Started e p done.length) (hparams : e.params = done ++ rest)
    (hinput : p.input = restBytes e done rest) {fuel : Nat} (hfuel : rest.length < fuel) :
    (p.drain m fuel).1 = some (restValues e done rest) := by
  induction rest generalizing p done fuel with
  | nil =>
    obtain ⟨fuel, rfl⟩ := exists_eq_add_one_of_ne_zero (ne_zero_of_lt hfuel)
    rw [Started.drain_nil m (by rwa [hparams, append_nil])]
    rfl
  | cons x rest ih =>
    obtain ⟨fuel, rfl⟩ := exists_eq_add_one_of_ne_zero (ne_zero_of_lt hfuel)
    have hparams' := hparams.trans (append_cons ..)
    have hfuel' : rest.length < fuel := Nat.lt_of_succ_lt_succ hfuel
    rw [restBytes_cons] at hinput
    rw [drain, h.next, h.value_eq m hparams, restValues_cons]
    cases habsent : (x.null || (e.long done.length).isSome) with
    | true =>
      rw [code_absent habsent] at hinput
      simp only [if_true]
      rw [ih (h.advance x p.input) hparams' hinput hfuel']
      rfl
    | false =>
      obtain ⟨hcode, hvalue⟩ := code_present habsent
      rw [hcode] at hinput
      rw [hinput, parseFrom_code m x.ok, hvalue]
      simp only [false_eq_true, if_false]
      rw [ih (h.advance x (restBytes e (done ++ [x]) rest)) hparams' rfl hfuel']
      rfl

/-- One byte too early, the values are read only if they are coded by zeros. -/
theorem Started.drain_shifted (h : Started e p done.length) (hparams : e.params = done ++ rest)
    (hinput : p.input = 0 :: restBytes e done rest) {fuel : Nat} (hfuel : rest.length < fuel) :
    (p.drain m fuel).1 = some (restValues e done rest) ↔ ∀ b ∈ restBytes e done rest, b = 0 := by
  induction rest generalizing p done fuel with
  | nil =>
    obtain ⟨fuel, rfl⟩ := exists_eq_add_one_of_ne_zero (ne_zero_of_lt hfuel)
    rw [Started.drain_nil m (by rwa [hparams, append_nil])]
    exact ⟨fun _ => nofun, fun _ => rfl⟩
  | cons x rest ih =>
    obtain ⟨fuel, rfl⟩ := exists_eq_add_one_of_ne_zero (ne_zero_of_lt hfuel)
    have hparams' := hparams.trans (append_cons ..)
    have hfuel' : rest.length < fuel := Nat.lt_of_succ_lt_succ hfuel
    rw [restBytes_cons] at hinput ⊢
    rw [drain, h.next, h.value_eq m hparams, restValues_cons]
    cases habsent : (x.null || (e.long done.length).isSome) with
    | true =>
      rw [code_absent habsent, nil_append] at hinput ⊢
      rw [← ih (h.advance x p.input) hparams' hinput hfuel']
      simp
    | false =>
      obtain ⟨hcode, hvalue⟩ := code_present habsent
      rw [hcode] at hinput ⊢
      obtain ⟨u, r, hread, hsame, hleft⟩ :=
        parseFrom_shifted m x.ok (restBytes e (done ++ [x]) rest)
      rw [hinput, ← cons_append, hread, hvalue]
      simp only [false_eq_true, if_false]
      by_cases hzeros : ∀ b ∈ x.code, b = 0
      · cases hleft hzeros
        cases hsame.mpr hzeros
        have hrest := ih (h.advance x _) hparams' rfl hfuel'
        simp only [mem_append, or_imp, forall_and, ← hrest]
        refine ⟨fun heq => ⟨hzeros, ?_⟩, fun heq => by rw [heq.2]; rfl⟩
        simpa using heq
      · -- the value itself is read as another one
        have hne := mt hsame.mp hzeros
        constructor
        · intro heq
          obtain ⟨vs, -, hvs⟩ := map_eq_some_iff.mp heq
          cases hvs
          exact absurd rfl hne
        · exact fun hall => absurd (fun b hb => hall b (mem_append_left _ hb)) hzeros

theorem boundTypes_drain (h : p.nullmap = some bitmap) (fuel : Nat) :
    (p.drain m fuel).2.boundTypes = p.boundTypes := by
  induction fuel generalizing p with
  | zero => rfl
  | succ fuel ih =>
    have hvalue : (p.value m).2.boundTypes = p.boundTypes ∧ (p.value m).2.nullmap = p.nullmap := by
      unfold value
      split_ifs
      · exact ⟨rfl, rfl⟩
      · split
        · exact ⟨rfl, rfl⟩
        · split
          · exact ⟨rfl, rfl⟩
          · split_ifs
            · exact ⟨rfl, rfl⟩
            · split
              · exact ⟨rfl, rfl⟩
              · split <;> exact ⟨rfl, rfl⟩
    rw [drain, Params.next, header_of_nullmap m h]
    dsimp only
    generalize p.value m = result at hvalue
    obtain ⟨r, p'⟩ := result
    match r with
    | none | some (.error e) => exact hvalue.1
    | some (.ok v) =>
      rw [ih (hvalue.2.trans h), hvalue.1]

end Values

/-! ## Long values -/

variable {limit : Nat}

open StatementData

theorem pushLongData_fits {chunk : Nat × List UInt8} (hok : s.longDataOverflow = false)
    (hlimit : s.longDataBytes + chunk.2.length ≤ limit) :
    s.pushLongData limit chunk =
      { s with
        longDataBytes := s.longDataBytes + chunk.2.length
        longData := fun i =>
          if i = chunk.1 then some ((s.longData i).getD [] ++ chunk.2) else s.longData i } := by
  rw [pushLongData, hok, if_neg Bool.false_ne_true, if_neg (by omega)]

/-- What some pieces make of the data that is there. -/
def joined (old : Option (List UInt8)) (pieces : List (Nat × List UInt8)) : Option (List UInt8) :=
  pieces.foldl (fun d c => some (d.getD [] ++ c.2)) old

theorem joined_some (pieces : List (Nat × List UInt8)) (old : List UInt8) :
    joined (some old) pieces = some (old ++ pieces.flatMap Prod.snd) := by
  induction pieces generalizing old with
  | nil => simp [joined]
  | cons c cs ih => simpa [joined] using ih (old ++ c.2)

theorem foldl_pushLongData (chunks : List (Nat × List UInt8)) (hok : s.longDataOverflow = false)
    (hlimit : s.longDataBytes + (chunks.map fun c => c.2.length).sum ≤ limit) :
    ∃ s', chunks.foldl (pushLongData limit) s = s' ∧ s'.longDataOverflow = false ∧
      s'.params = s.params ∧ s'.boundTypes = s.boundTypes ∧
      ∀ i, s'.longData i = joined (s.longData i) (chunks.filter fun c => c.1 == i) := by
  induction chunks generalizing s with
  | nil => exact ⟨s, rfl, hok, rfl, rfl, fun _ => rfl⟩
  | cons c cs ih =>
    rw [map_cons, sum_cons] at hlimit
    have hpush := @pushLongData_fits s limit c hok (by omega)
    obtain ⟨s', hs', hok', hparams, hbound, hlong⟩ := @ih (s.pushLongData limit c)
      (by rw [hpush]; exact hok) (by rw [hpush]; dsimp only; omega)
    rw [hpush] at hparams hbound hlong
    refine ⟨s', hs', hok', hparams, hbound, fun i => ?_⟩
    rw [hlong]
    by_cases hi : i = c.1
    · subst hi
      simp [joined]
    · have : (c.1 == i) = false := by simpa using Ne.symm hi
      simp [hi, this]

theorem joined_eq_long (e : Execution) (i : Nat) :
    joined none (e.chunks.filter fun c => c.1 == i) = e.long i := by
  rw [long]
  cases e.chunks.filter fun c => c.1 == i with
  | nil => rfl
  | cons c cs =>
    have hfirst : joined none (c :: cs) = joined (some c.2) cs := by simp [joined]
    rw [hfirst, joined_some]
    rfl

/-! ## Executions -/

/-- A statement between two executions. -/
def idle (params : Nat) (bound : List (ColumnType × Bool)) : StatementData :=
  { params := params, boundTypes := bound }

/-- One execution: it yields what was sent exactly when the flag is set or the values are coded by
zeros, and keeps the types for the next. -/
theorem send_idle {bound : List (ColumnType × Bool)} (hbound : e.newTypes = true ∨ e.types = bound)
    (hnone : e.params = [] → bound = []) (hlong : e.longBytes ≤ limit) :
    ((idle e.params.length bound).send m limit e).2 = idle e.params.length e.types ∧
    (((idle e.params.length bound).send m limit e).1 = some (e.values.map .ok) ↔
      e.newTypes = true ∨ ∀ b ∈ e.valueBytes, b = 0) := by
  obtain ⟨s, hpush, hok, hparams, htypes, hjoined⟩ :=
    @foldl_pushLongData (idle e.params.length bound)
    limit e.chunks rfl (by simpa [idle, longBytes] using hlong)
  have hdata : s.longData = e.long := funext fun i => by rw [hjoined, ← joined_eq_long]; rfl
  have hkept : (idle e.params.length bound).send m limit e =
      ((s.iter e.bytes).drain m (s.params + 1)).map id fun p =>
        idle e.params.length p.boundTypes := by
    rw [send, hpush, execute, hok]
    rw [hparams]
    rfl
  rw [hkept]
  by_cases hne : e.params = []
  · -- nothing is sent and nothing is read
    have hvalues : e.values = [] ∧ e.valueBytes = [] ∧ e.bytes = [] ∧ e.types = [] := by
      simp [values, valueBytes, bytes, types, hne]
    obtain ⟨hvs, hbytes, hinput, hts⟩ := hvalues
    have hzero : s.params = 0 := by rw [hparams, hne]; rfl
    have hb : s.boundTypes = [] := by rw [htypes, idle, hnone hne]
    have hdrain : (s.iter e.bytes).drain m (s.params + 1) =
        (some [], { (s.iter []) with nullmap := some [] }) := by
      simp [hinput, hzero, drain, Params.next, Params.header, value, StatementData.iter]
    rw [hdrain, hvs, hbytes, hts]
    refine ⟨?_, ⟨fun _ => .inr nofun, fun _ => rfl⟩⟩
    dsimp only [Prod.map, StatementData.iter]
    rw [hb]
  · obtain ⟨p, hheader, hstarted, hinput⟩ := header_bytes m hne (s := s) hparams hdata
      (by rw [htypes]; exact hbound)
    have hdrain : (s.iter e.bytes).drain m (s.params + 1) = p.drain m (s.params + 1) := by
      rw [drain, Params.next, hheader, drain, hstarted.next]
    have hfuel : e.params.length < s.params + 1 := by
      rw [hparams]
      exact lt_succ_self _
    rw [hdrain]
    refine ⟨?_, ?_⟩
    · dsimp only [Prod.map]
      rw [boundTypes_drain m hstarted.nullmap, hstarted.boundTypes]
    · dsimp only [Prod.map, id]
      have hvalues : e.values.map Except.ok = restValues e [] e.params := by
        simp [restValues, values]
      have hfirst : Started e p ([] : List Param).length := hstarted
      rw [hvalues]
      cases hflag : e.newTypes with
      | true =>
        rw [hflag] at hinput
        rw [hfirst.drain_aligned m rfl hinput hfuel]
        simp
      | false =>
        rw [hflag] at hinput
        rw [hfirst.drain_shifted m rfl hinput hfuel]
        exact ⟨.inr, fun h => h.resolve_left false_ne_true⟩

/-- Every execution of a statement yields the values that were sent exactly when the flag is set or
the values are coded by zeros only. -/
theorem executions_yield {limit params : Nat} {es : List Execution}
    (hparams : ∀ e ∈ es, e.params.length = params) (hlong : ∀ e ∈ es, e.longBytes ≤ limit)
    (hfollows : Follows [] es) :
    ({ params := params } : StatementData).sendAll m limit es =
        es.map (fun e => some (e.values.map .ok)) ↔
      ∀ e ∈ es, e.newTypes = true ∨ ∀ b ∈ e.valueBytes, b = 0 := by
  have hrun : ∀ bound, (params = 0 → bound = []) → Follows bound es →
      ((idle params bound).sendAll m limit es = es.map (fun e => some (e.values.map .ok)) ↔
        ∀ e ∈ es, e.newTypes = true ∨ ∀ b ∈ e.valueBytes, b = 0) := by
    clear hfollows
    induction es with
    | nil => exact fun _ _ _ => ⟨fun _ => nofun, fun _ => rfl⟩
    | cons e es ih =>
      intro bound hnone hfollows
      obtain rfl := hparams e mem_cons_self
      obtain ⟨hafter, hyields⟩ := send_idle m hfollows.1 (fun h => hnone (by rw [h]; rfl))
        (hlong e mem_cons_self)
      have hrest := ih (fun x hx => hparams x (mem_cons_of_mem _ hx))
        (fun x hx => hlong x (mem_cons_of_mem _ hx)) e.types
        (fun h => by rw [Execution.types, eq_nil_of_length_eq_zero h]; rfl) hfollows.2
      rw [StatementData.sendAll, map_cons, List.cons.injEq, hafter, hyields, hrest, forall_mem_cons]
  exact hrun [] (fun _ => rfl) hfollows

def tiny (n : Int) (b : UInt8)
    (h : (-2 ^ 7 ≤ n ∧ n < 2 ^ 7) ∧ RecordFile.leBytes 1 (n % 256 ^ 1).toNat = [b]) : Param where
  type := .tiny
  sent := .int n
  code := [b]
  ok := h.2 ▸ ⟨_, rfl, .int rfl h.1.1 h.1.2⟩

def five : Param := tiny 5 5 (by decide)

def nullDouble : Param where
  type := .double
  null := true
  sent := .double 0
  code := RecordFile.leBytes 8 0
  ok := ⟨_, rfl, .double (by decide)⟩

def emptyString : Param where
  type := .string
  sent := .bytes []
  code := [0]
  ok := ⟨_, rfl, .bytes (by decide)⟩

/-- A reader of the protocol. -/
def plainReader : MysqlCommon where
  tryFrom b := ([.decimal, .tiny, .short, .long, .float, .double, .null, .timestamp, .longlong,
    .int24, .date, .time, .datetime, .year, .varchar, .bit, .json, .newdecimal, .enum, .set,
    .tinyBlob, .mediumBlob, .longBlob, .blob, .varString, .string, .geometry] :
      List ColumnType).find?
      fun t => t.number == b
  readLenencInt
    | [] => none
    | b :: rest =>
      if b.toNat ≤ 0xfa then some (b.toNat, rest)
      else if b = 0xfc then readLe 2 rest
      else if b = 0xfd then readLe 3 rest
      else if b = 0xfe then readLe 8 rest
      else none
  tryFrom_number {t} h := by cases t <;> first | rfl | exact nomatch h
  readLenencInt_lenencInt {n} h t := by
    unfold lenencInt
    split_ifs with h1 h2 h3
    · have hn : (UInt8.ofNat n).toNat = n := UInt8.toNat_ofNat_of_lt' (by rw [UInt8.size]; omega)
      simp [hn, h1]
    · exact readLe_leBytes (w := 2) h2 t
    · exact readLe_leBytes (w := 3) h3 t
    · exact readLe_leBytes (w := 8) h t

/-- Two executions with a number, a NULL and a text that is sent in two pieces. The second one
leaves the types out, and its number is 0. -/
def twoExecutions : List Execution :=
  [{ chunks := [(2, [104]), (2, [105])], newTypes := true,
     params := [five, nullDouble, emptyString] },
   { chunks := [(2, [106])], newTypes := false,
     params := [tiny 0 0 (by decide), nullDouble, emptyString] }]

theorem executions_yield_twice :
    ({ params := 3 } : StatementData).sendAll plainReader 2 twoExecutions =
      [some [.ok ⟨.int 5, .tiny⟩, .ok ⟨.null, .double⟩, .ok ⟨.bytes [104, 105], .string⟩],
        some [.ok ⟨.int 0, .tiny⟩, .ok ⟨.null, .double⟩, .ok ⟨.bytes [106], .string⟩]] :=
  (@executions_yield plainReader 2 3 twoExecutions (by decide) (by decide)
    ⟨.inl rfl, .inr rfl, trivial⟩).mpr
    (forall_mem_cons.mpr ⟨.inl rfl, forall_mem_singleton.mpr (.inr fun _ => mem_singleton.mp)⟩)

/-- The second execution does not send the types, and the value 5 is read as 0. -/
theorem later_execution_shifted :
    ({ params := 1 } : StatementData).sendAll plainReader 0
        [{ newTypes := true, params := [five] }, { newTypes := false, params := [five] }] =
      [some [.ok ⟨.int 5, .tiny⟩], some [.ok ⟨.int 0, .tiny⟩]] := by
  rfl

end ElyraSql.Wire
