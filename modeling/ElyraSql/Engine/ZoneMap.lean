import Mathlib.Data.List.Fold
import Mathlib.Data.List.MinMax
import ElyraSql.Engine.CompiledPredicate

/-!
# Zone maps

`zonemap.rs`: the rows of a table are cut into chunks of neighbouring keys, each with the least and
the greatest number of every numeric column, and a scan leaves out the chunks that the bounds of its
compiled predicate exclude. The numbers are elements of any linear order with ends.
-/

namespace ElyraSql.ZoneMap

open Engine

variable {N : Type}

/-- A value of a row. Of a value that is neither a whole number nor a double only its `as_f64`
counts. -/
inductive Datum (N : Type)
  | null
  | int (i : Int64)
  | float (x : N)
  | other (x : Option N)

abbrev Entry (N : Type) := Bytes × List (Datum N)

section Predicate

variable (ofInt : Int64 → N)

def Datum.asF64 : Datum N → Option N
  | .null => none
  | .int i => some (ofInt i)
  | .float x => some x
  | .other x => x

/-- The number by which `feed` widens a chunk. -/
def Datum.number : Datum N → Option N
  | .int i => some (ofInt i)
  | .float x => some x
  | _ => none

variable [LinearOrder N] [BoundedOrder N]

def test : Op → N → N → Bool
  | .eq, a, b => a = b
  | .ne, a, b => a ≠ b
  | .lt, a, b => a < b
  | .le, a, b => a ≤ b
  | .gt, a, b => a > b
  | .ge, a, b => a ≥ b

/-- `CompiledPredicate::matches`. -/
def holds (row : List (Datum N)) : Term N → Bool
  | .cmp col op rhs =>
    match (row.getD col .null).asF64 ofInt with
    | some x => test op x rhs
    | none => false
  | .inSet col set negated =>
    match (row.getD col .null).asF64 ofInt with
    | some x => decide (x ∈ set) != negated
    | none => false

structure ColBound (N : Type) where
  col : Nat
  op : Op
  rhs : N

/-- `CompiledPredicate::bounds`: a set bounds its column by its least and its greatest member. -/
def bounds (p : List (Term N)) : List (ColBound N) :=
  p.flatMap fun
    | .cmp col op rhs => [⟨col, op, rhs⟩]
    | .inSet col set false => [⟨col, .ge, set.foldl min ⊤⟩, ⟨col, .le, set.foldl max ⊥⟩]
    | .inSet _ _ true => []

end Predicate

/-! ## Building -/

structure Chunk (N : Type) where
  start : Bytes
  min : Nat → Option N
  max : Nat → Option N

structure Builder (N : Type) where
  chunks : List (Chunk N) := []
  curMin : Nat → Option N := fun _ => none
  curMax : Nat → Option N := fun _ => none
  curStart : Bytes := []
  rowsInChunk : Nat := 0

/-- `map_or(v, |m| m.min(v))`, and the same with `max`. -/
def widen (f : N → N → N) (m : Option N) : Option N → Option N
  | some v => some (m.elim v fun m => f m v)
  | none => m

def Builder.sealChunk (b : Builder N) : Builder N :=
  if b.rowsInChunk = 0 then b
  else { chunks := b.chunks ++ [⟨b.curStart, b.curMin, b.curMax⟩] }

/-- The number of a column, if the column is a numeric one. -/
def numberAt (ofInt : Int64 → N) (numeric : Nat → Bool) (row : List (Datum N)) (c : Nat) :
    Option N :=
  if numeric c then (row.getD c .null).number ofInt else none

section Build

variable [LinearOrder N] (num : List (Datum N) → Nat → Option N) (chunkRows : Nat)

/-- The row becomes part of the open chunk. -/
def Builder.count (b : Builder N) (e : Entry N) : Builder N where
  chunks := b.chunks
  curMin c := widen min (b.curMin c) (num e.2 c)
  curMax c := widen max (b.curMax c) (num e.2 c)
  curStart := if b.rowsInChunk = 0 then e.1 else b.curStart
  rowsInChunk := b.rowsInChunk + 1

def Builder.feed (b : Builder N) (e : Entry N) : Builder N :=
  let b := b.count num e
  if chunkRows ≤ b.rowsInChunk then b.sealChunk else b

def build (rows : List (Entry N)) : List (Chunk N) :=
  (rows.foldl (Builder.feed num chunkRows) {}).sealChunk.chunks

end Build

/-! ## Skipping -/

section Ranges

variable [LinearOrder N]

def chunkSurvives (bs : List (ColBound N)) (ch : Chunk N) : Bool :=
  bs.all fun b =>
    match ch.min b.col, ch.max b.col with
    | some lo, some hi =>
      match b.op with
      | .gt | .ge => test b.op hi b.rhs
      | .lt | .le => test b.op lo b.rhs
      | .eq => lo ≤ b.rhs && b.rhs ≤ hi
      | .ne => !(lo = b.rhs && hi = b.rhs)
    | _, _ => false

/-- `surviving_ranges`. `start` is where the range being extended begins. -/
def survivingRanges (bs : List (ColBound N)) (upper : Bytes) :
    Option Bytes → List (Chunk N) → List (Bytes × Bytes)
  | start, [] => (start.map (·, upper)).toList
  | start, ch :: chs =>
    if chunkSurvives bs ch then survivingRanges bs upper (some (start.getD ch.start)) chs
    else (start.map (·, ch.start)).toList ++ survivingRanges bs upper none chs

end Ranges

/-! ## Tables -/

variable {ofInt : Int64 → N} {numeric : Nat → Bool} {e : Entry N}

/-- A table: its rows in the order of their keys, with numbers and NULLs in its numeric columns. -/
structure Table (N : Type) (numeric : Nat → Bool) where
  rows : List (Entry N)
  upper : Bytes
  sorted : rows.Pairwise (·.1 < ·.1)
  below : ∀ e ∈ rows, e.1 < upper
  typed : ∀ e ∈ rows, ∀ c, numeric c = true → ∀ x, e.2.getD c .null ≠ .other x

theorem Table.numberAt_eq (t : Table N numeric) (he : e ∈ t.rows) {c : Nat}
    (hc : numeric c = true) :
    numberAt ofInt numeric e.2 c = (e.2.getD c .null).asF64 ofInt := by
  have htyped := t.typed e he c hc
  rw [numberAt, if_pos hc]
  cases hd : e.2.getD c .null with
  | other x => exact absurd hd (htyped x)
  | null | int | float => rfl

/-! ## Chunks and the rows they stand for -/

variable [LinearOrder N] {num : List (Datum N) → Nat → Option N} {part : List (Entry N)}

/-- Every number of the rows lies between the two of its column. -/
def Summarises (num : List (Datum N) → Nat → Option N) (lo hi : Nat → Option N)
    (part : List (Entry N)) : Prop :=
  ∀ e ∈ part, ∀ c x, num e.2 c = some x →
    ∃ m, lo c = some m ∧ m ≤ x ∧ ∃ n, hi c = some n ∧ x ≤ n

/-- The chunks cut the rows into parts, each starting at its chunk's key. -/
inductive Tiles (num : List (Datum N) → Nat → Option N) :
    List (Chunk N) → List (Entry N) → Prop
  | nil : Tiles num [] []
  | cons {ch : Chunk N} {chs : List (Chunk N)} {e : Entry N}
      {part rest : List (Entry N)} (start : ch.start = e.1)
      (sums : Summarises num ch.min ch.max (e :: part))
      (tiles : Tiles num chs rest) : Tiles num (ch :: chs) (e :: part ++ rest)

theorem Tiles.concat {chs : List (Chunk N)} {rows : List (Entry N)} {ch : Chunk N}
    (h : Tiles num chs rows) (start : ch.start = e.1)
    (sums : Summarises num ch.min ch.max (e :: part)) :
    Tiles num (chs ++ [ch]) (rows ++ e :: part) := by
  induction h with
  | nil =>
    have hone := Tiles.cons start sums .nil
    rwa [List.append_nil] at hone
  | cons start' sums' _ ih =>
    rw [List.append_assoc]
    exact .cons start' sums' ih

/-- The builder after the rows: its chunks tile all of them but those of the open chunk. -/
def Built (num : List (Datum N) → Nat → Option N) (b : Builder N)
    (rows : List (Entry N)) : Prop :=
  ∃ tiled part, rows = tiled ++ part ∧ Tiles num b.chunks tiled ∧
    b.rowsInChunk = part.length ∧ (∀ e ∈ part.head?, b.curStart = e.1) ∧
    Summarises num b.curMin b.curMax part

variable {b : Builder N} {rows : List (Entry N)}

theorem Built.sealChunk (h : Built num b rows) :
    Built num b.sealChunk rows ∧ b.sealChunk.rowsInChunk = 0 := by
  rw [Builder.sealChunk]
  split
  · next hzero => exact ⟨h, hzero⟩
  · next hpos =>
    obtain ⟨tiled, part, rfl, ht, hn, hs, hsum⟩ := h
    cases part with
    | nil => exact absurd hn hpos
    | cons e part =>
      refine ⟨⟨tiled ++ e :: part, [], (List.append_nil _).symm, ?_, rfl, nofun, nofun⟩, rfl⟩
      exact ht.concat (hs e rfl) hsum

/-- One more row leaves both numbers where they are or moves them outwards. -/
theorem widen_bounds {lo hi v : Option N} {x : N}
    (h : v = some x ∨ ∃ m, lo = some m ∧ m ≤ x ∧ ∃ n, hi = some n ∧ x ≤ n) :
    ∃ m, widen min lo v = some m ∧ m ≤ x ∧ ∃ n, widen max hi v = some n ∧ x ≤ n := by
  rcases h with rfl | ⟨m, rfl, hm, n, rfl, hn⟩
  · refine ⟨_, rfl, ?_, _, rfl, ?_⟩
    · cases lo with
      | none => exact le_rfl
      | some m => exact min_le_right m x
    · cases hi with
      | none => exact le_rfl
      | some n => exact le_max_right n x
  · cases v with
    | none => exact ⟨m, rfl, hm, n, rfl, hn⟩
    | some y => exact ⟨_, rfl, (min_le_left m y).trans hm, _, rfl, hn.trans (le_max_left n y)⟩

theorem Built.count (h : Built num b rows) (e : Entry N) :
    Built num (b.count num e) (rows ++ [e]) := by
  obtain ⟨tiled, part, rfl, ht, hn, hs, hsum⟩ := h
  refine ⟨tiled, part ++ [e], List.append_assoc _ _ _, ht, ?_, ?_, ?_⟩
  · rw [List.length_append, ← hn]
    rfl
  · rw [Builder.count, hn]
    cases part with
    | nil =>
      rintro _ ⟨⟩
      rfl
    | cons e' part =>
      rintro _ ⟨⟩
      exact hs e' rfl
  · intro e' he' c x hx
    refine widen_bounds ?_
    rcases List.mem_append.mp he' with he' | he'
    · exact .inr (hsum e' he' c x hx)
    · cases List.mem_singleton.mp he'
      exact .inl hx

theorem Built.feed {chunkRows : Nat} (h : Built num b rows) (e : Entry N) :
    Built num (b.feed num chunkRows e) (rows ++ [e]) := by
  simp only [Builder.feed]
  split
  · exact (h.count e).sealChunk.1
  · exact h.count e

theorem build_tiles (num : List (Datum N) → Nat → Option N) (chunkRows : Nat)
    (rows : List (Entry N)) :
    Tiles num (build num chunkRows rows) rows := by
  have hfold : ∀ (rows fed : List (Entry N)) (b : Builder N),
      Built num b fed →
      Built num (rows.foldl (Builder.feed num chunkRows) b) (fed ++ rows) := by
    intro rows
    induction rows with
    | nil => exact fun fed b h => by rwa [List.append_nil]
    | cons e rows ih =>
      intro fed b h
      rw [List.append_cons]
      exact ih _ _ (h.feed e)
  obtain ⟨⟨tiled, part, hrows, ht, hn, -⟩, hzero⟩ :=
    (hfold rows [] {} ⟨[], [], rfl, .nil, rfl, nofun, nofun⟩).sealChunk
  cases List.length_eq_zero_iff.mp (hn.symm.trans hzero)
  rw [List.append_nil, List.nil_append] at hrows
  exact hrows ▸ ht

/-! ## The rows of the ranges -/

variable {bs : List (ColBound N)} {upper : Bytes} {chs : List (Chunk N)}

theorem Tiles.starts (h : Tiles num chs rows) : (chs.map (·.start)).Sublist (rows.map (·.1)) := by
  induction h with
  | nil => exact .slnil
  | cons start _ _ ih =>
    rw [List.map_cons, start, List.cons_append, List.map_cons, List.map_append]
    exact .cons_cons _ (ih.trans (List.sublist_append_right _ _))

/-- The ends of the ranges are keys at which chunks start, in their order. -/
theorem ends_survivingRanges (bs : List (ColBound N)) (start : Option Bytes)
    (chs : List (Chunk N)) :
    ((survivingRanges bs upper start chs).flatMap fun r => [r.1, r.2]).Sublist
      (start.toList ++ (chs.map (·.start) ++ [upper])) := by
  induction chs generalizing start with
  | nil =>
    cases start with
    | none => exact List.nil_sublist _
    | some start => exact List.Sublist.refl _
  | cons ch chs ih =>
    rw [survivingRanges, List.map_cons]
    split
    · refine (ih _).trans ?_
      cases start with
      | none => exact List.Sublist.refl _
      | some start => exact .cons_cons _ (List.sublist_cons_self _ _)
    · cases start with
      | none => exact (ih none).cons _
      | some start => exact .cons_cons _ (.cons_cons _ (ih none))

/-- A range that is being extended reaches to the end of the chunk before the next that does not
survive. -/
theorem mem_extended {k : Bytes} (start : Bytes) (hk : k < upper)
    (hchs : ∀ ch ∈ chs, k < ch.start) :
    ∃ r ∈ survivingRanges bs upper (some start) chs, r.1 = start ∧ k < r.2 := by
  induction chs with
  | nil => exact ⟨_, List.mem_singleton_self _, rfl, hk⟩
  | cons ch chs ih =>
    obtain ⟨hch, hchs⟩ := List.forall_mem_cons.mp hchs
    rw [survivingRanges]
    split
    · exact ih hchs
    · exact ⟨_, List.mem_cons_self, rfl, hch⟩

/-- A row lies in a range if every chunk that can hold it survives. -/
theorem mem_survivingRanges (h : Tiles num chs rows) (hsorted : rows.Pairwise (·.1 < ·.1))
    (hupper : ∀ x ∈ rows, x.1 < upper) (he : e ∈ rows)
    (hlive : ∀ ch part, Summarises num ch.min ch.max part → e ∈ part →
      chunkSurvives bs ch = true)
    {start : Option Bytes} (hstart : ∀ s ∈ start, ∀ x ∈ rows, s ≤ x.1) :
    ∃ r ∈ survivingRanges bs upper start chs, r.1 ≤ e.1 ∧ e.1 < r.2 := by
  induction h generalizing start with
  | nil => exact nomatch he
  | @cons ch chs e₀ part rest hch hsum htiles ih =>
    have hopen : ∀ x ∈ e₀ :: part ++ rest, start.getD ch.start ≤ x.1 := by
      intro x hx
      cases start with
      | some s => exact hstart s rfl x hx
      | none =>
        rw [hch]
        rcases List.mem_cons.mp hx with rfl | hx
        · exact le_rfl
        · exact (List.rel_of_pairwise_cons hsorted hx).le
    obtain ⟨-, hrest, hbetween⟩ := List.pairwise_append.mp hsorted
    rcases List.mem_append.mp he with hpart | hmem
    · -- the row's own chunk: the range is open behind it, and the later chunks start after it
      have hafter : ∀ ch' ∈ chs, e.1 < ch'.start := by
        intro ch' hch'
        obtain ⟨x, hx, hxs⟩ :=
          List.mem_map.mp (htiles.starts.subset (List.mem_map_of_mem hch'))
        exact hxs ▸ hbetween e hpart x hx
      obtain ⟨r, hr, hr1, hr2⟩ := mem_extended (start.getD ch.start) (hupper e he) hafter
      refine ⟨r, ?_, hr1 ▸ hopen e he, hr2⟩
      rwa [survivingRanges, if_pos (hlive ch _ hsum hpart)]
    · have hin : ∀ x ∈ rest, x ∈ e₀ :: part ++ rest := fun x hx => List.mem_append_right _ hx
      have hgo := fun {start'} => @ih hrest (fun x hx => hupper x (hin x hx)) hmem start'
      rw [survivingRanges]
      split
      · refine hgo fun s hs x hx => ?_
        cases hs
        exact hopen x (hin x hx)
      · obtain ⟨r, hr, hbounds⟩ := @hgo none nofun
        exact ⟨r, List.mem_append_right _ hr, hbounds⟩

/-! ## Surviving chunks -/

variable [BoundedOrder N]

/-- A number that a term accepts meets the bounds of the term. -/
theorem test_of_holds {row : List (Datum N)} {t : Term N} (h : holds ofInt row t = true) :
    ∃ x, (row.getD t.col .null).asF64 ofInt = some x ∧
      ∀ b ∈ bounds [t], b.col = t.col ∧ test b.op x b.rhs = true := by
  cases t with
  | cmp col op rhs =>
    rw [holds] at h
    split at h
    · next x hx => exact ⟨x, hx, by simpa [bounds, Term.col] using h⟩
    · cases h
  | inSet col set negated =>
    rw [holds] at h
    split at h
    · next x hx =>
      refine ⟨x, hx, ?_⟩
      cases negated with
      | true => simp [bounds]
      | false =>
        have hmem : x ∈ set := by simpa using h
        have hlo : set.foldl min ⊤ ≤ x := by
          rw [List.foldl_eq_foldr]
          exact List.min_le_of_le hmem le_rfl
        have hhi : x ≤ set.foldl max ⊥ := by
          rw [List.foldl_eq_foldr]
          exact List.le_max_of_le hmem le_rfl
        simp [bounds, Term.col, test, hlo, hhi]
    · cases h

theorem chunkSurvives_of_holds {t : Table N numeric} {p : List (Term N)}
    (hp : ∀ term ∈ p, numeric term.col = true) (he : e ∈ t.rows)
    (hholds : ∀ term ∈ p, holds ofInt e.2 term = true) {ch : Chunk N}
    (hsum : Summarises (numberAt ofInt numeric) ch.min ch.max part) (hmem : e ∈ part) :
    chunkSurvives (bounds p) ch = true := by
  rw [chunkSurvives, List.all_eq_true]
  intro b hb
  obtain ⟨term, hterm, hb⟩ := List.mem_flatMap.mp hb
  obtain ⟨x, hx, hbounds⟩ := test_of_holds (hholds term hterm)
  obtain ⟨hcol, htest⟩ := hbounds b (List.mem_flatMap.mpr ⟨term, List.mem_singleton_self _, hb⟩)
  rw [← t.numberAt_eq he (hp term hterm), ← hcol] at hx
  obtain ⟨m, hm, hmx, n, hn, hxn⟩ := hsum e hmem b.col x hx
  obtain ⟨col, op, rhs⟩ := b
  simp only [hm, hn]
  cases op with
  | eq =>
    obtain rfl : x = rhs := of_decide_eq_true htest
    simp [hmx, hxn]
  | ne =>
    have hne : x ≠ rhs := of_decide_eq_true htest
    by_contra hall
    obtain ⟨rfl, rfl⟩ : m = rhs ∧ n = rhs := by simpa using hall
    exact hne (le_antisymm hxn hmx)
  | lt => exact decide_eq_true (hmx.trans_lt (of_decide_eq_true htest))
  | le => exact decide_eq_true (hmx.trans (of_decide_eq_true htest))
  | gt => exact decide_eq_true ((of_decide_eq_true htest : rhs < x).trans_le hxn)
  | ge => exact decide_eq_true ((of_decide_eq_true htest : rhs ≤ x).trans hxn)

/-- What a scan under the predicate reads of the table: the ranges of its zone map. -/
def Table.scanRanges (t : Table N numeric) (ofInt : Int64 → N) (chunkRows : Nat)
    (p : List (Term N)) : List (Bytes × Bytes) :=
  survivingRanges (bounds p) t.upper none (build (numberAt ofInt numeric) chunkRows t.rows)

/-- The ranges come one after the other and hold every row that the predicate accepts. -/
theorem ranges_keep_matches (ofInt : Int64 → N) (t : Table N numeric) (chunkRows : Nat)
    (p : List (Term N)) (hp : ∀ term ∈ p, numeric term.col = true) :
    (∀ r ∈ t.scanRanges ofInt chunkRows p, r.1 < r.2) ∧
      (t.scanRanges ofInt chunkRows p).Pairwise (fun r r' => r.2 < r'.1) ∧
      ∀ e ∈ t.rows, (∀ term ∈ p, holds ofInt e.2 term = true) →
        ∃ r ∈ t.scanRanges ofInt chunkRows p, r.1 ≤ e.1 ∧ e.1 < r.2 := by
  have htiles := build_tiles (numberAt ofInt numeric) chunkRows t.rows
  have hstarts := (List.pairwise_map.mpr t.sorted).sublist htiles.starts
  have hends := (List.pairwise_append.mpr ⟨hstarts, List.pairwise_singleton _ t.upper, by
    intro k hk u hu
    obtain ⟨e, he, rfl⟩ := List.mem_map.mp (htiles.starts.subset hk)
    exact List.mem_singleton.mp hu ▸ t.below e he⟩).sublist
      (ends_survivingRanges (bounds p) none _)
  obtain ⟨hnonempty, hordered⟩ := List.pairwise_flatMap.mp hends
  refine ⟨fun r hr => by simpa using hnonempty r hr, ?_, ?_⟩
  · exact hordered.imp fun h => h _ (by simp) _ (by simp)
  · intro e he hholds
    refine mem_survivingRanges htiles t.sorted t.below he ?_ nofun
    exact fun ch part hsum hmem => chunkSurvives_of_holds hp he hholds hsum hmem

/-- Three rows of one numeric column, the second of them NULL. -/
def threeRows : Table (Fin 10) fun _ => true where
  rows := [([1], [.float 3]), ([2], [.null]), ([3], [.float 7])]
  upper := [4]
  sorted := by decide
  below := by decide
  typed e he c _ x := by
    fin_cases he <;> cases c <;> simp

theorem ranges_keep_matches_threeRows :
    (∀ term ∈ [Term.cmp 0 .gt 5], (fun _ => true) term.col = true) ∧
      threeRows.scanRanges (fun _ => 0) 2 [.cmp 0 .gt 5] = [([3], [4])] ∧
      ∀ e ∈ threeRows.rows, (∀ term ∈ [.cmp 0 .gt 5], holds (fun _ => 0) e.2 term = true) →
        ∃ r ∈ threeRows.scanRanges (fun _ => 0) 2 [.cmp 0 .gt 5], r.1 ≤ e.1 ∧ e.1 < r.2 :=
  ⟨fun _ _ => rfl, by decide, (ranges_keep_matches _ threeRows 2 _ fun _ _ => rfl).2.2⟩

end ElyraSql.ZoneMap
