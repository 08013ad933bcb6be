import Mathlib.Tactic

/-!
# Files of length-prefixed records

A record is its length in four little-endian bytes, then its payload. A file is read record by
record; what is left when no whole record can be read is the tail. Reading a written file gives back
the payloads, and a file cut at any byte reads as some of its first records with a tail that is no
record.
-/

namespace RecordFile

open List Nat UInt8

/-! ## Little-endian numbers -/

/-- The lowest `w` bytes of a number, lowest first. -/
def leBytes : Nat → Nat → List UInt8
  | 0, _ => []
  | w + 1, n => UInt8.ofNat n :: leBytes w (n / 256)

def ofLeBytes (bs : List UInt8) : Nat := bs.foldr (fun b acc => b.toNat + 256 * acc) 0

@[simp] theorem length_leBytes (w n : Nat) : (leBytes w n).length = w := by
  induction w generalizing n with
  | zero => rfl
  | succ w ih => simp [leBytes, ih]

variable {w : Nat}

theorem ofLeBytes_leBytes {n : Nat} (h : n < 256 ^ w) : ofLeBytes (leBytes w n) = n := by
  induction w generalizing n with
  | zero =>
    have hn : n = 0 := by simpa using h
    simp [leBytes, ofLeBytes, hn]
  | succ w ih =>
    have hdiv : n / 256 < 256 ^ w := by
      rw [div_lt_iff_lt_mul (by decide)]
      rwa [pow_succ] at h
    have hrest : ofLeBytes (leBytes (w + 1) n) =
        n % 256 + 256 * ofLeBytes (leBytes w (n / 256)) := by
      simp [leBytes, ofLeBytes]
    rw [hrest, ih hdiv]
    omega

theorem leBytes_succ (w n : Nat) :
    leBytes (w + 1) n = leBytes w n ++ [ofNat (n / 256 ^ w)] := by
  induction w generalizing n with
  | zero => simp [leBytes]
  | succ w ih => rw [leBytes, ih, leBytes, cons_append, Nat.div_div_eq_div_mul, pow_succ']

theorem leBytes_mod (w n : Nat) : leBytes w (n % 256 ^ w) = leBytes w n := by
  induction w generalizing n with
  | zero => rfl
  | succ w ih =>
    have hlow : ofNat (n % 256 ^ (w + 1)) = ofNat n := by
      rw [ofNat_eq_iff_mod_eq_toNat, pow_succ']
      exact mod_mul_right_mod n 256 (256 ^ w)
    have hhigh : n % 256 ^ (w + 1) / 256 = n / 256 % 256 ^ w := by
      rw [pow_succ']
      exact mod_mul_right_div_self n 256 (256 ^ w)
    rw [leBytes, leBytes, hlow, hhigh, ih]

theorem leBytes_zero (w : Nat) : leBytes w 0 = List.replicate w 0 := by
  induction w with
  | zero => rfl
  | succ w ih => rw [leBytes, ih]; rfl

theorem leBytes_eq_zeros {n : Nat} (hn : n < 256 ^ w) : (∀ b ∈ leBytes w n, b = 0) ↔ n = 0 := by
  constructor
  · intro h
    have hzeros : leBytes w n = leBytes w 0 := by
      rw [leBytes_zero]
      exact eq_replicate_iff.mpr ⟨length_leBytes w n, h⟩
    rw [← ofLeBytes_leBytes hn, hzeros, ofLeBytes_leBytes (by positivity)]
  · rintro rfl b hb
    rw [leBytes_zero] at hb
    exact eq_of_mem_replicate hb

/-- A number of `w` bytes at the front, and what comes after it. -/
def readLe (w : Nat) (bs : List UInt8) : Option (Nat × List UInt8) :=
  if bs.length < w then none else some (ofLeBytes (bs.take w), bs.drop w)

theorem readLe_leBytes {n : Nat} (h : n < 256 ^ w) (t : List UInt8) :
    readLe w (leBytes w n ++ t) = some (n, t) := by
  have hlen : (leBytes w n).length = w := length_leBytes w n
  unfold readLe
  rw [if_neg (by rw [length_append]; omega), take_left' hlen, drop_left' hlen, ofLeBytes_leBytes h]

/-- A number read one byte too early, after a zero. -/
theorem readLe_shifted (w n : Nat) (t : List UInt8) : ∃ b,
    readLe w (0 :: leBytes w n ++ t) = some (256 * n % 256 ^ w, b :: t) ∧ (n = 0 → b = 0) := by
  have hshift : 0 :: leBytes w n = leBytes (w + 1) (256 * n) := by
    rw [leBytes]
    simp
  refine ⟨ofNat (256 * n / 256 ^ w), ?_, ?_⟩
  · rw [hshift, leBytes_succ, append_assoc, ← leBytes_mod]
    exact readLe_leBytes (mod_lt _ (by positivity)) _
  · rintro rfl
    simp

/-! ## Bytes with their length in front -/

def writeBytes (w : Nat) (bs : List UInt8) : List UInt8 := leBytes w bs.length ++ bs

def readBytes (w : Nat) (bs : List UInt8) : Option (List UInt8 × List UInt8) :=
  (readLe w bs).bind fun (len, rest) =>
    if rest.length < len then none else some (rest.take len, rest.drop len)

variable {p : List UInt8}

theorem readLe_writeBytes (h : p.length < 256 ^ w) (t : List UInt8) :
    readLe w (writeBytes w p ++ t) = some (p.length, p ++ t) := by
  rw [writeBytes, append_assoc]
  exact readLe_leBytes h _

theorem readBytes_writeBytes (h : p.length < 256 ^ w) (t : List UInt8) :
    readBytes w (writeBytes w p ++ t) = some (p, t) := by
  rw [readBytes, readLe_writeBytes h, Option.bind_some]
  dsimp only
  rw [if_neg (by simp), take_left, drop_left]

/-- What is cut off cannot be read. -/
theorem readBytes_take (h : p.length < 256 ^ w) {k : Nat} (hk : k < (writeBytes w p).length) :
    readBytes w ((writeBytes w p).take k) = none := by
  by_cases hw : k < w
  · have hlen : ((writeBytes w p).take k).length < w := by
      rw [length_take]
      omega
    rw [readBytes, readLe, if_pos hlen]
    rfl
  · have htake : (writeBytes w p).take k = leBytes w p.length ++ p.take (k - w) := by
      rw [writeBytes, take_append, take_of_length_le (by rw [length_leBytes]; omega),
        length_leBytes]
    have hlen : (writeBytes w p).length = w + p.length := by simp [writeBytes]
    rw [readBytes, htake, readLe_leBytes h, Option.bind_some]
    dsimp only
    rw [if_pos (by rw [length_take]; omega)]

/-! ## Records -/

def frame (payload : List UInt8) : List UInt8 := writeBytes 4 payload

def frames (payloads : List (List UInt8)) : List UInt8 := payloads.flatMap frame

/-- The first record of a file and what comes after it. -/
def next (file : List UInt8) : Option (List UInt8 × List UInt8) := readBytes 4 file

/-- All records of a file and its tail, for at most `fuel` records. -/
def scan : Nat → List UInt8 → List (List UInt8) × List UInt8
  | 0, file => ([], file)
  | fuel + 1, file =>
    match next file with
    | none => ([], file)
    | some (payload, rest) => (payload :: (scan fuel rest).1, (scan fuel rest).2)

def records (file : List UInt8) : List (List UInt8) := (scan file.length file).1

/-- What reading leaves unread. -/
def tail (file : List UInt8) : List UInt8 := (scan file.length file).2

/-- The length of the payload fits its prefix. -/
def Short (payload : List UInt8) : Prop := payload.length < 2 ^ 32

theorem Short.lt (h : Short p) : p.length < 256 ^ 4 := by simpa [Short] using h

theorem next_frame (h : Short p) (t : List UInt8) :
    next (frame p ++ t) = some (p, t) := readBytes_writeBytes h.lt t

/-- A record that is cut off is no record. -/
theorem next_take_frame (h : Short p) {k : Nat} (hk : k < (frame p).length) :
    next ((frame p).take k) = none := readBytes_take h.lt hk

theorem next_nil : next [] = none := rfl

theorem scan_of_next_none {file : List UInt8} (h : next file = none) (fuel : Nat) :
    scan fuel file = ([], file) := by
  cases fuel with
  | zero => rfl
  | succ fuel => rw [scan, h]

variable {ps : List (List UInt8)}

variable {t : List UInt8}

/-- What was written is read, up to a tail that is no record. -/
theorem scan_frames (hs : ∀ p ∈ ps, Short p) (ht : next t = none) {fuel : Nat}
    (hf : ps.length ≤ fuel) : scan fuel (frames ps ++ t) = (ps, t) := by
  induction ps generalizing fuel with
  | nil => simpa [frames] using scan_of_next_none ht fuel
  | cons p ps ih =>
    cases fuel with
    | zero => exact absurd hf (by simp)
    | succ fuel =>
      have hrest := ih (fun q hq => hs q (mem_cons_of_mem _ hq)) (le_of_succ_le_succ hf)
      have hnext : next (frames (p :: ps) ++ t) = some (p, frames ps ++ t) := by
        rw [show frames (p :: ps) ++ t = frame p ++ (frames ps ++ t) by simp [frames]]
        exact next_frame (hs p mem_cons_self) _
      rw [scan, hnext]
      simp only [hrest]

theorem length_le_frames (ps : List (List UInt8)) : ps.length ≤ (frames ps).length := by
  induction ps with
  | nil => simp
  | cons p ps ih =>
    simp only [frames, flatMap_cons, length_append, length_cons, frame,
      writeBytes, length_leBytes] at ih ⊢
    omega

theorem records_frames (hs : ∀ p ∈ ps, Short p) (ht : next t = none) :
    records (frames ps ++ t) = ps ∧ tail (frames ps ++ t) = t := by
  have hf : ps.length ≤ (frames ps ++ t).length := by
    have := length_le_frames ps
    rw [length_append]
    omega
  unfold records tail
  rw [scan_frames hs ht hf]
  exact ⟨rfl, rfl⟩

/-- A cut file is a file of its first records and such a tail. -/
theorem take_frames (hs : ∀ p ∈ ps, Short p) (k : Nat) :
    ∃ j t, (frames ps).take k = frames (ps.take j) ++ t ∧ next t = none := by
  induction ps generalizing k with
  | nil => exact ⟨0, [], by simp [frames], next_nil⟩
  | cons p ps ih =>
    have hcons : frames (p :: ps) = frame p ++ frames ps := rfl
    by_cases hk : k < (frame p).length
    · -- the cut falls into the first record
      refine ⟨0, (frame p).take k, ?_, next_take_frame (hs p mem_cons_self) hk⟩
      rw [hcons, take_append_of_le_length hk.le]
      simp [frames]
    · obtain ⟨j, t, hj, ht⟩ := ih (fun q hq => hs q (mem_cons_of_mem _ hq))
        (k - (frame p).length)
      refine ⟨j + 1, t, ?_, ht⟩
      rw [hcons, take_append, take_of_length_le (not_lt.mp hk), hj]
      simp [frames]

/-! ## Lists of values -/

section Lists

variable {α β : Type}

/-- The reader gives back the values of `ok` that the writer wrote, and what comes after them. -/
def Reads (read : List UInt8 → Option (α × List UInt8)) (write : α → List UInt8) (ok : α → Prop) :
    Prop :=
  ∀ a t, ok a → read (write a ++ t) = some (a, t)

/-- Read this many values. -/
def readMany (read : List UInt8 → Option (α × List UInt8)) :
    Nat → List UInt8 → Option (List α × List UInt8)
  | 0, bs => some ([], bs)
  | n + 1, bs => do
    let (a, bs) ← read bs
    let (l, bs) ← readMany read n bs
    some (a :: l, bs)

/-- A list with its length in eight bytes in front. -/
def writeList (write : α → List UInt8) (l : List α) : List UInt8 :=
  leBytes 8 l.length ++ l.flatMap write

def readList (read : List UInt8 → Option (α × List UInt8)) (bs : List UInt8) :
    Option (List α × List UInt8) :=
  (readLe 8 bs).bind fun (n, rest) => readMany read n rest

variable {read : List UInt8 → Option (α × List UInt8)} {write : α → List UInt8} {ok : α → Prop}

theorem Reads.many (h : Reads read write ok) {l : List α} (hl : ∀ a ∈ l, ok a) (t : List UInt8) :
    readMany read l.length (l.flatMap write ++ t) = some (l, t) := by
  induction l with
  | nil => rfl
  | cons a l ih =>
    have ha := h a (l.flatMap write ++ t) (hl a mem_cons_self)
    have hrest := ih fun b hb => hl b (mem_cons_of_mem _ hb)
    rw [flatMap_cons, length_cons, readMany]
    simp [ha, hrest]

theorem Reads.list (h : Reads read write ok) :
    Reads (readList read) (writeList write) fun l => l.length < 256 ^ 8 ∧ ∀ a ∈ l, ok a := by
  rintro l t ⟨hlen, hl⟩
  rw [readList, writeList, append_assoc, readLe_leBytes hlen]
  exact h.many hl t

end Lists

/-! ## Encoded values -/

/-- An encoding of the values that fit into a record. -/
structure Codec (α : Type) where
  encode : α → List UInt8
  decode : List UInt8 → Option α
  Fits : α → Prop
  roundtrip : ∀ a, Fits a → decode (encode a) = some a
  short : ∀ a, Fits a → Short (encode a)

namespace Codec

variable {α : Type} (C : Codec α)

def write (l : List α) : List UInt8 := frames (l.map C.encode)

def read (file : List UInt8) : List α := (records file).filterMap C.decode

variable {C}

theorem write_append (l l' : List α) : C.write (l ++ l') = C.write l ++ C.write l' := by
  simp [write, frames]

theorem short_of_fits {l : List α} (h : ∀ a ∈ l, C.Fits a) : ∀ p ∈ l.map C.encode, Short p := by
  intro p hp
  obtain ⟨a, ha, rfl⟩ := mem_map.mp hp
  exact C.short a (h a ha)

theorem read_write {l : List α} (h : ∀ a ∈ l, C.Fits a) (ht : next t = none) :
    C.read (C.write l ++ t) = l ∧ tail (C.write l ++ t) = t := by
  obtain ⟨hrec, htail⟩ := records_frames (short_of_fits h) ht
  refine ⟨?_, htail⟩
  unfold read write
  rw [hrec, filterMap_map]
  calc l.filterMap (C.decode ∘ C.encode) = l.filterMap some :=
        filterMap_congr fun a ha => C.roundtrip a (h a ha)
    _ = l := filterMap_some

theorem take_write {l : List α} (h : ∀ a ∈ l, C.Fits a) (k : Nat) :
    ∃ j t, (C.write l).take k = C.write (l.take j) ++ t ∧ next t = none := by
  obtain ⟨j, t, heq, ht⟩ := take_frames (short_of_fits h) k
  exact ⟨j, t, by rw [write, heq, write, map_take], ht⟩

end Codec

end RecordFile
