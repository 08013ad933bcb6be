import Mathlib.Tactic

/-!
# Reading values off a stream that arrives in pieces

A reader tries to parse a value off the front of what has arrived; while too little is there, it
reads on, and every read returns some part of what is left of the stream. If the parser finds a
value exactly when its whole code word is there, the values of a stream of code words are read one
after the other, whatever the parts are.
-/

namespace StreamReader

open List

variable {α V : Type}

/-! ## Streams -/

/-- What has not arrived yet, how many symbols each read would return, and the number of reads. -/
structure Source (α : Type) where
  rest : List α
  sizes : Nat → Nat
  reads : Nat := 0

/-- A read into a buffer with this much room returns at least one symbol, if there is one. -/
def Source.read (s : Source α) (room : Nat) : List α × Source α :=
  let n := min (max (s.sizes s.reads) 1) room
  (s.rest.take n, { s with rest := s.rest.drop n, reads := s.reads + 1 })

theorem Source.read_append (s : Source α) (room : Nat) :
    (s.read room).1 ++ (s.read room).2.rest = s.rest := take_append_drop _ _

variable {s : Source α}

open Source

theorem Source.read_ne_nil {room : Nat} (hroom : 0 < room) (h : s.rest ≠ []) :
    (s.read room).1 ≠ [] := by
  simp only [read, ne_eq, take_eq_nil_iff, h, or_false]
  omega

theorem Source.read_shorter {room : Nat} (hroom : 0 < room) (h : s.rest ≠ []) :
    (s.read room).2.rest.length < s.rest.length := by
  have hlen := congrArg length (s.read_append room)
  have hpos := length_pos_iff.mpr (read_ne_nil hroom h)
  rw [length_append] at hlen
  omega

theorem Source.read_nil (h : s.rest = []) (room : Nat) :
    (s.read room).1 = [] ∧ (s.read room).2.rest = [] := by
  simp [read, h]

/-! ## Readers -/

/-- What a parser finds at the front. -/
inductive Parsed (α V : Type)
  | done (v : V) (rest : List α)
  | more
  | bad

/-- The parser finds the value exactly when the whole code word is there. -/
structure Reads (parse : List α → Parsed α V) (code : List α) (v : V) : Prop where
  whole : ∀ rest, parse (code ++ rest) = .done v rest
  part : ∀ k < code.length, parse (code.take k) = .more

inductive Outcome (V : Type)
  | value (v : V)
  | closed
  | cut (left : Nat)
  | tooLong
  | bad
  | outOfReads

/-- Parse, and read on while too little is there. `room` is how much the next read can take, given
whether it is the first of the call and how much is kept; none if no more may be kept. -/
def pull (parse : List α → Parsed α V) (room : Bool → Nat → Option Nat) :
    Nat → Bool → List α → Source α → Outcome V × List α × Source α
  | 0, _, kept, s => (.outOfReads, kept, s)
  | fuel + 1, first, kept, s =>
    match if kept.isEmpty then .more else parse kept with
    | .done v rest => (.value v, rest, s)
    | .bad => (.bad, kept, s)
    | .more =>
      match room first kept.length with
      | none => (.tooLong, [], s)
      | some n =>
        if (s.read n).1.isEmpty then
          (if kept.isEmpty then .closed else .cut kept.length, kept, (s.read n).2)
        else pull parse room fuel false (kept ++ (s.read n).1) (s.read n).2

section Results

variable {parse : List α → Parsed α V} {room : Bool → Nat → Option Nat} {code kept : List α}
  {limit fuel : Nat} {first : Bool}

/-- Below the limit there is room for a read. -/
def HasRoom (room : Bool → Nat → Option Nat) (limit : Nat) : Prop :=
  ∀ first kept, kept < limit → ∃ n, 0 < n ∧ room first kept = some n

/-- Where the code word is not complete, the reader reads on. -/
theorem Reads.more {v : V} (h : Reads parse code v) (hp : kept <+: code)
    (hlen : kept.length < code.length) :
    (if kept.isEmpty then Parsed.more else parse kept) = .more := by
  have hpart := h.part kept.length hlen
  rw [← prefix_iff_eq_take.mp hp] at hpart
  rw [hpart, ite_self]

/-- A stream that goes on with a code word yields its value, and the rest is left. -/
theorem pull_value {rest : List α} {v : V} (h : Reads parse code v) (hcode : code ≠ [])
    (hroom : HasRoom room limit) (hlimit : code.length ≤ limit)
    (hstream : kept ++ s.rest = code ++ rest) (hfuel : s.rest.length < fuel) :
    ∃ kept' s', pull parse room fuel first kept s = (.value v, kept', s') ∧
      kept' ++ s'.rest = rest ∧ s'.rest.length ≤ s.rest.length := by
  induction fuel generalizing first kept s with
  | zero => exact absurd hfuel (Nat.not_lt_zero _)
  | succ fuel ih =>
    by_cases hlen : code.length ≤ kept.length
    · -- the whole code word is there
      obtain ⟨kept', rfl⟩ : code <+: kept :=
        prefix_of_prefix_length_le ⟨rest, rfl⟩ ⟨s.rest, hstream⟩ hlen
      have hne : (code ++ kept').isEmpty = false := by simp [hcode]
      refine ⟨kept', s, ?_, by simpa using hstream, le_rfl⟩
      rw [pull, hne, if_neg Bool.false_ne_true, h.whole]
    · have hlt := not_le.mp hlen
      have hp : kept <+: code :=
        prefix_of_prefix_length_le ⟨s.rest, hstream⟩ ⟨rest, rfl⟩ hlt.le
      have hleft : s.rest ≠ [] := by
        intro hnil
        have := congrArg length hstream
        simp only [hnil, length_append, length_nil] at this
        omega
      obtain ⟨n, hn, hroom'⟩ := hroom first kept.length (hlt.trans_le hlimit)
      have hdata := read_ne_nil hn hleft
      have hsplit := s.read_append n
      have hshort := read_shorter hn hleft
      obtain ⟨kept', s', hpull, hrest, hle⟩ := @ih (s.read n).2
        (kept ++ (s.read n).1) false (by rw [append_assoc, hsplit, hstream]) (by omega)
      refine ⟨kept', s', ?_, hrest, by omega⟩
      rw [pull, h.more hp hlt]
      simp only [hroom', isEmpty_eq_false_iff.mpr hdata]
      exact hpull

theorem pull_closed (hroom : HasRoom room limit) (hlimit : 0 < limit) (hs : s.rest = []) :
    ∃ s', pull parse room (fuel + 1) first [] s = (.closed, [], s') := by
  obtain ⟨n, -, hn⟩ := hroom first 0 hlimit
  rw [pull]
  simp [hn, (read_nil hs n).1]

theorem pull_cut {v : V} (h : Reads parse code v) (hroom : HasRoom room limit)
    (hlimit : code.length ≤ limit) (hne : kept ++ s.rest ≠ []) (hstream : kept ++ s.rest <+: code)
    (hlen : (kept ++ s.rest).length < code.length) (hfuel : s.rest.length < fuel) :
    ∃ s', pull parse room fuel first kept s =
      (.cut (kept ++ s.rest).length, kept ++ s.rest, s') := by
  induction fuel generalizing first kept s with
  | zero => exact absurd hfuel (Nat.not_lt_zero _)
  | succ fuel ih =>
    have hkept : kept.length < code.length := by
      rw [length_append] at hlen
      omega
    have hmore := h.more ((prefix_append _ _).trans hstream) hkept
    obtain ⟨n, hn, hroom'⟩ := hroom first kept.length (hkept.trans_le hlimit)
    by_cases hs : s.rest = []
    · rw [hs, append_nil] at hne ⊢
      rw [pull, hmore]
      simp [hroom', (read_nil hs n).1, hne]
    · have hdata := read_ne_nil hn hs
      have hsplit := s.read_append n
      have hshort := read_shorter hn hs
      have hsame : kept ++ (s.read n).1 ++ (s.read n).2.rest = kept ++ s.rest := by
        rw [append_assoc, hsplit]
      obtain ⟨s', hpull⟩ := @ih (s.read n).2 (kept ++ (s.read n).1) false (hsame ▸ hne)
        (hsame ▸ hstream) (hsame ▸ hlen) (by omega)
      refine ⟨s', ?_⟩
      rw [pull, hmore]
      simp only [hroom', isEmpty_eq_false_iff.mpr hdata, Bool.false_eq_true, if_false]
      rw [hpull, hsame]

/-- A value that is returned is one the parser finds in the front of the stream, within the limit.
-/
theorem pull_found (hbound : ∀ first kept n, room first kept = some n → kept + n ≤ limit)
    {kept' : List α} {s' : Source α} {v : V} (hkept : kept.length ≤ limit)
    (h : pull parse room fuel first kept s = (.value v, kept', s')) :
    ∃ k ≤ limit, parse ((kept ++ s.rest).take k) = .done v kept' := by
  induction fuel generalizing first kept s with
  | zero => exact nomatch h
  | succ fuel ih =>
    rw [pull] at h
    cases hparsed : (if kept.isEmpty then Parsed.more else parse kept) with
    | done w rest =>
      rw [hparsed] at h
      cases h
      split_ifs at hparsed
      exact ⟨kept.length, hkept, by rw [take_left, hparsed]⟩
    | bad =>
      rw [hparsed] at h
      exact nomatch h
    | more =>
      rw [hparsed] at h
      cases hroom : room first kept.length with
      | none =>
        rw [hroom] at h
        exact nomatch h
      | some n =>
        rw [hroom] at h
        dsimp only at h
        split_ifs at h with hread hempty
        · exact nomatch h
        · exact nomatch h
        have hlen : (kept ++ (s.read n).1).length ≤ limit := by
          have htake : (s.read n).1.length ≤ n := by
            rw [Source.read, length_take]
            omega
          have := hbound first kept.length n hroom
          rw [length_append]
          omega
        obtain ⟨k, hk, hdone⟩ := ih hlen h
        rw [append_assoc, s.read_append] at hdone
        exact ⟨k, hk, hdone⟩

end Results

end StreamReader
