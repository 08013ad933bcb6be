import ElyraSql.Library.LexOrder
import ElyraSql.Session.Txn

/-!
# Scans inside a transaction

What a transaction should read is its view: the snapshot with its own writes laid over it. Point
reads return the view's value. A range scan cuts the committed rows to the limit first and merges
the overlay afterwards, so it can miss visible rows.
-/

namespace ElyraSql

open OrderedMap List OMap Nat Overlay Prod

/-! ## The view -/

variable {k : Bytes}

theorem KeySet.mem_keys {s : KeySet} : k ∈ s.keys ↔ (s.get k).isSome := by
  simp only [KeySet.keys, mem_map, Option.isSome_iff_exists, get_eq_some]
  constructor
  · rintro ⟨e, he, rfl⟩
    exact ⟨e.2, he⟩
  · rintro ⟨v, hv⟩
    exact ⟨_, hv, rfl⟩

theorem OMap_lastValue_entries (m : Table) (k : Bytes) : lastValue m.entries k = m.get k := by
  ext v
  rw [lastValue_eq_some_of_increasing m.increasing, get_eq_some]

namespace Overlay

/-- The view reads the overlay where it has an entry and the table elsewhere. -/
@[simp] theorem get_onto (o : Overlay) (t : Table) (k : Bytes) :
    (o.onto t).get k = (o.lookup k).getD (t.get k) := by
  rw [onto, Table.get_write, OMap_lastValue_entries, lookup]
  simp only [KeySet.mem_keys]
  split_ifs with hd
  · have hp : o.puts.get k = none := by
      by_contra hp
      rw [o.disjoint k (Option.isSome_iff_ne_none.mpr hp)] at hd
      exact Bool.noConfusion hd
    rw [hp]
    rfl
  · cases o.puts.get k <;> rfl

theorem lookup_eq_none_iff {o : Overlay} : o.lookup k = none ↔ o.touches k = false := by
  unfold lookup touches
  cases o.puts.get k <;> cases o.deletes.get k <;> simp

end Overlay

namespace TxnState

variable (tx : TxnState) {limit : Nat} {pfx : Bytes} {after : Option Bytes}

theorem get_eq_view (k : Bytes) : (tx.get k).1 = tx.view.get k := by
  rw [view, get_onto, get]
  cases tx.overlay.lookup k <;> rfl

theorem fillMisses_eq (look : Bytes → Option (Option Bytes)) (fetch : Bytes → Option Bytes)
    (keys : List Bytes) :
    fillMisses (keys.map look) ((keys.filter fun k => (look k).isNone).map fetch) =
      keys.map fun k => (look k).getD (fetch k) := by
  induction keys with
  | nil => rfl
  | cons k keys ih =>
    cases h : look k with
    | none | some r => simp [h, fillMisses, ih]

theorem multiGet_eq_view (keys : List Bytes) : (tx.multiGet keys).1 = keys.map tx.view.get := by
  rw [multiGet, fillMisses_eq]
  exact map_congr_left fun k _ => (get_onto _ _ _).symm

/-! ## One range -/

/-- The rows of the view in a range. -/
def visible (snapshot : Table) (o : Overlay) (start : Bytes) (stop : Option Bytes) :
    List (Bytes × Bytes) :=
  (o.onto snapshot).list (inRange start stop)

/-- The scan can return `e`: the transaction wrote it or it is in the committed window. -/
def reached (snapshot : Table) (o : Overlay) (start : Bytes) (stop : Option Bytes) (limit : Nat)
    (e : Bytes × Bytes) : Bool :=
  o.touches e.1 || (snapshot.scanRange start stop limit).contains e

namespace ScanLemmas

/-- The map `merge` builds, with the two kinds of overlay entries apart. -/
theorem merge_eq (committed : List (Bytes × Bytes)) (o : Overlay) (start : Bytes)
    (stop : Option Bytes) (limit : Nat) :
    merge committed (rangeOverlay o start stop) limit =
      ((((empty : Table).insertMany committed).insertMany
        (o.puts.list (inRange start stop))).eraseMany
          ((o.deletes.list (inRange start stop)).map fst)).entries.take limit := by
  simp only [merge, rangeOverlay, foldl_append, foldl_map, insertMany, eraseMany]

theorem lastValue_list (m : OMap Bytes Bytes) (p : Bytes → Bool) (k : Bytes) :
    lastValue (m.list p) k = if p k then m.get k else none := by
  ext v
  rw [lastValue_eq_some_of_increasing (increasing_list m p), mem_list]
  split_ifs with h <;> simp [h]

theorem increasing_scanRange (t : Table) (start : Bytes) (stop : Option Bytes) (limit : Nat) :
    Increasing (t.scanRange start stop limit) :=
  (increasing_list t (inRange start stop)).sublist (take_sublist _ _)

theorem mem_scanRange {t : Table} {start : Bytes} {stop : Option Bytes} {e : Bytes × Bytes}
    (h : e ∈ t.scanRange start stop limit) : t.get e.1 = some e.2 ∧ inRange start stop e.1 = true :=
  mem_list.mp (mem_of_mem_take h)

/-- A scan returns the first rows of the view that it can reach. -/
theorem scanRange_eq (start : Bytes) (stop : Option Bytes) (limit : Nat) :
    (tx.scanRange start stop limit).1 =
      ((visible tx.snapshot tx.overlay start stop).filter
        (reached tx.snapshot tx.overlay start stop limit)).take limit := by
  simp only [scanRange, merge_eq]
  refine congrArg (List.take limit) ?_
  refine EntryLemmas.increasing_ext (increasing _)
    ((increasing_list _ _).filter _) fun e => ?_
  obtain ⟨k, v⟩ := e
  rw [mem_entries_iff, mem_filter, visible, mem_list]
  simp only [get_eraseMany, get_insertMany, get_empty, Option.or_none,
    lastValue_list, get_onto, reached, Bool.or_eq_true, contains_iff_mem]
  have hdel : k ∈ (tx.overlay.deletes.list (inRange start stop)).map fst ↔
      (tx.overlay.deletes.get k).isSome ∧ inRange start stop k = true := by
    simp only [mem_map, mem_list, Option.isSome_iff_exists]
    constructor
    · rintro ⟨e, ⟨hg, hr⟩, rfl⟩
      exact ⟨⟨_, hg⟩, hr⟩
    · rintro ⟨⟨u, hg⟩, hr⟩
      exact ⟨(k, u), ⟨hg, hr⟩, rfl⟩
  have hwin : lastValue (tx.snapshot.scanRange start stop limit) k = some v ↔
      (k, v) ∈ tx.snapshot.scanRange start stop limit :=
    lastValue_eq_some_of_increasing (increasing_scanRange _ _ _ _)
  by_cases hr : inRange start stop k = true
  · rw [if_pos hr]
    cases hdk : tx.overlay.deletes.get k with
    | some u => simp [hdel, hdk, hr, Overlay.lookup]
    | none =>
      rw [if_neg (by simp [hdel, hdk])]
      cases hpk : tx.overlay.puts.get k with
      | some w => simp [Overlay.lookup, Overlay.touches, hdk, hpk, hr]
      | none =>
        simp only [Option.none_or, hwin, Overlay.lookup, Overlay.touches, hdk, hpk,
          Option.isSome_none, Bool.false_eq_true, Bool.or_false, false_or, hr, and_true]
        exact ⟨fun h => ⟨(mem_scanRange h).1, h⟩, fun h => h.2⟩
  · have hnone : lastValue (tx.snapshot.scanRange start stop limit) k ≠ some v := fun h =>
      hr (mem_scanRange (hwin.mp h)).2
    simp [hr, hnone]

/-- Filtering keeps the first `n` members exactly when none of them is dropped. -/
theorem take_filter_eq_iff {α : Type} (p : α → Bool) (l : List α) (n : Nat) :
    (l.filter p).take n = l.take n ↔ ∀ a ∈ l.take n, p a = true := by
  constructor
  · intro h a ha
    rw [← h] at ha
    exact (mem_filter.mp (mem_of_mem_take ha)).2
  · intro h
    have hf : (l.take n).filter p = l.take n := filter_eq_self.mpr h
    rw [← take_append_drop n l, filter_append, hf, take_append_drop]
    by_cases hn : n ≤ l.length
    · rw [take_append_of_le_length (by simp [hn]), take_take, min_self]
    · have hd : l.drop n = [] := drop_eq_nil_of_le (by omega)
      rw [hd, filter_nil, append_nil, take_take, min_self]

end ScanLemmas

open ScanLemmas

/-- Each of the first `limit` visible rows of the range is one the transaction wrote, or is
among the first `limit` committed rows of the range. -/
def WindowSuffices (snapshot : Table) (o : Overlay) (start : Bytes) (stop : Option Bytes)
    (limit : Nat) : Prop :=
  ∀ e ∈ (visible snapshot o start stop).take limit,
    o.touches e.1 = true ∨ e ∈ (snapshot.list (inRange start stop)).take limit

/-- A range scan returns the first `limit` rows of the view exactly when the window suffices. -/
theorem scanRange_exact_iff (start : Bytes) (stop : Option Bytes) (limit : Nat) :
    (tx.scanRange start stop limit).1 = (visible tx.snapshot tx.overlay start stop).take limit ↔
      WindowSuffices tx.snapshot tx.overlay start stop limit := by
  rw [scanRange_eq, take_filter_eq_iff]
  refine forall₂_congr fun e he => ?_
  have hlim : max limit 1 = limit := by
    have : limit ≠ 0 := by
      rintro rfl
      simp at he
    omega
  simp [reached, Table.scanRange, scanUpTo, hlim]

/-! ## One batch of a prefix -/

/-- The rows of the view under a prefix that come after the cursor. -/
def batchVisible (snapshot : Table) (o : Overlay) (pfx : Bytes) (after : Option Bytes) :
    List (Bytes × Bytes) :=
  (o.onto snapshot).list fun k => pfx.isPrefixOf k && after.all fun a => decide (a < k)

/-- Some byte of the prefix can be raised. -/
def hasLow (pfx : Bytes) : Bool := pfx.any fun b => decide (b < 255)

/-- A batch can be exact: its prefix has a byte below `0xFF` and its window suffices, or there
is nothing to return. -/
def BatchOk (snapshot : Table) (o : Overlay) (pfx : Bytes) (after : Option Bytes) (limit : Nat) :
    Prop :=
  if hasLow pfx then
    WindowSuffices snapshot o (batchStart pfx after) (some (prefixUpperBound pfx)) limit
  else (batchVisible snapshot o pfx after).take limit = []

namespace ScanLemmas

theorem bumpLast_spec {r : Bytes} (h : hasLow r = true) :
    ∃ l b n, r.reverse = l ++ b :: List.replicate n ⊤ ∧ b < 255 ∧ bumpLast r = l ++ [b + 1] := by
  induction r with
  | nil => cases h
  | cons b r ih =>
    by_cases hb : b < 255
    · exact ⟨r.reverse, b, 0, by simp, hb, by simp [bumpLast, hb]⟩
    · have hr : hasLow r = true := by simpa [hasLow, hb] using h
      have htop : b = ⊤ := by
        refine Fin.ext ?_
        have h1 : ¬ b.val < 255 := hb
        have h2 : (⊤ : Byte).val = 255 := rfl
        omega
      obtain ⟨l, c, n, hl, hc, hbump⟩ := ih hr
      refine ⟨l, c, n + 1, ?_, hc, by rw [bumpLast, if_neg hb, hbump]⟩
      rw [reverse_cons, hl, htop, append_assoc, cons_append, replicate_succ']

theorem covBy_succ {b : Byte} (h : b < 255) : b ⋖ b + 1 := by
  have hv : (b + 1).val = b.val + 1 := by
    have h1 : b.val < 255 := h
    have h2 : (1 : Byte).val = 1 := rfl
    rw [Fin.val_add, h2, mod_eq_of_lt (by omega)]
  refine ⟨Fin.lt_def.mpr (by omega), fun c hbc hcb => ?_⟩
  rw [Fin.lt_def] at hbc hcb
  omega

/-- The keys from a prefix up to its upper bound are those that extend it. -/
theorem prefixUpperBound_spec (h : hasLow pfx = true) :
    pfx ≤ k ∧ k < prefixUpperBound pfx ↔ pfx <+: k := by
  have hr : hasLow pfx.reverse = true := by simpa [hasLow] using h
  obtain ⟨l, b, n, hl, hb, hbump⟩ := bumpLast_spec hr
  rw [reverse_reverse] at hl
  rw [prefixUpperBound, hbump, hl]
  exact LexOrder.prefix_iff_between (covBy_succ hb)

theorem prefixUpperBound_eq_nil (h : hasLow pfx = false) : prefixUpperBound pfx = [] := by
  have hr : hasLow pfx.reverse = false := by simpa [hasLow] using h
  rw [prefixUpperBound]
  generalize pfx.reverse = r at hr
  induction r with
  | nil => rfl
  | cons b r ih =>
    have hb : ¬ b < 255 ∧ hasLow r = false := by simpa [hasLow] using hr
    rw [bumpLast, if_neg hb.1, ih hb.2]

/-- The range a batch scans holds the keys under the prefix after the cursor. -/
theorem inRange_batch (h : hasLow pfx = true) (ha : ∀ a, after = some a → pfx <+: a) (k : Bytes) :
    inRange (batchStart pfx after) (some (prefixUpperBound pfx)) k =
      (pfx.isPrefixOf k && after.all fun a => decide (a < k)) := by
  rw [Bool.eq_iff_iff, inRange_iff, Bool.and_eq_true, List.isPrefixOf_iff_prefix,
    ← prefixUpperBound_spec h]
  cases after with
  | none => simp [batchStart]
  | some a =>
    have hpa : pfx ≤ a := ((prefixUpperBound_spec h).mpr (ha a rfl)).1
    simp only [batchStart, Option.some.injEq, forall_eq', Option.all_some, decide_eq_true_eq]
    rw [show ([0] : Bytes) = [⊥] from rfl, LexOrder.append_bot_le_iff]
    constructor
    · rintro ⟨hak, hk⟩
      exact ⟨⟨hpa.trans (le_of_lt hak), hk⟩, hak⟩
    · rintro ⟨⟨-, hk⟩, hak⟩
      exact ⟨hak, hk⟩

end ScanLemmas

/-- A batch returns the first `limit` rows of the view after the cursor exactly when it is
`BatchOk`. The cursor is a key under the prefix, as the last key of a batch always is. -/
theorem scanBatch_exact_iff (ha : ∀ a, after = some a → pfx <+: a) :
    (tx.scanBatch pfx after limit).1 =
        (batchVisible tx.snapshot tx.overlay pfx after).take limit ↔
      BatchOk tx.snapshot tx.overlay pfx after limit := by
  unfold BatchOk scanBatch
  split_ifs with h
  · rw [← scanRange_exact_iff, visible, batchVisible, funext (inRange_batch h ha)]
  · have hub := prefixUpperBound_eq_nil (Bool.eq_false_iff.mpr h)
    have hempty : visible tx.snapshot tx.overlay (batchStart pfx after) (some []) = [] := by
      refine filter_eq_nil_iff.mpr fun e _ => ?_
      rw [inRange_iff]
      rintro ⟨-, he⟩
      exact not_lt_nil _ (he [] rfl)
    rw [scanRange_eq, hub, hempty, filter_nil, take_nil]
    exact eq_comm

/-! ## The batched loop -/

/-- The cursor after the first `p` rows. -/
def cursorAt (rows : List (Bytes × Bytes)) (p : Nat) : Option Bytes :=
  if p = 0 then none else (rows[p - 1]?).map Prod.fst

namespace ScanLemmas

variable {snapshot : Table} {o : Overlay} {pfx : Bytes}

theorem cursorAt_prefix {p : Nat} {a : Bytes}
    (h : cursorAt (batchVisible snapshot o pfx none) p = some a) : pfx <+: a := by
  unfold cursorAt at h
  split_ifs at h
  obtain ⟨e, he, rfl⟩ := Option.map_eq_some_iff.mp h
  have hm := (mem_list.mp (mem_of_getElem? he)).2
  simpa using hm

/-- After the first `p` rows there remain the rows beyond them. -/
theorem batchVisible_cursorAt {p : Nat} (hp : p ≤ (batchVisible snapshot o pfx none).length) :
    batchVisible snapshot o pfx (cursorAt (batchVisible snapshot o pfx none) p) =
      (batchVisible snapshot o pfx none).drop p := by
  cases p with
  | zero => rfl
  | succ p =>
    have hp' : p < (batchVisible snapshot o pfx none).length := hp
    have hc : cursorAt (batchVisible snapshot o pfx none) (p + 1) =
        some ((batchVisible snapshot o pfx none)[p].1) := by
      simp [cursorAt, getElem?_eq_getElem hp']
    have hinc : Increasing (batchVisible snapshot o pfx none) := increasing_list _ _
    rw [hc, ← EntryLemmas.filter_after_eq_drop hinc hp']
    simp only [batchVisible, list, Option.all_none, Bool.and_true, filter_filter]
    exact filter_congr fun e _ => Bool.and_comm _ _

theorem scanBatch_state (after : Option Bytes) (limit : Nat) :
    (tx.scanBatch pfx after limit).2.snapshot = tx.snapshot ∧
      (tx.scanBatch pfx after limit).2.overlay = tx.overlay := by
  simp only [scanBatch, scanRange, recordRange]
  split_ifs <;> exact ⟨rfl, rfl⟩

/-- From the cursor after `p` rows the loop lists the rest exactly when every batch from there
on is exact. -/
theorem scanAll_from {fuel p : Nat} (hl : 0 < limit) (tx : TxnState)
    (hp : p ≤ (batchVisible tx.snapshot tx.overlay pfx none).length)
    (hf : (batchVisible tx.snapshot tx.overlay pfx none).length - p < fuel) :
    scanAll pfx limit fuel tx (cursorAt (batchVisible tx.snapshot tx.overlay pfx none) p) =
        (batchVisible tx.snapshot tx.overlay pfx none).drop p ↔
      ∀ j, p + j * limit ≤ (batchVisible tx.snapshot tx.overlay pfx none).length →
        BatchOk tx.snapshot tx.overlay pfx
          (cursorAt (batchVisible tx.snapshot tx.overlay pfx none) (p + j * limit)) limit := by
  induction fuel generalizing p tx with
  | zero => exact absurd hf (not_lt_zero _)
  | succ fuel ih =>
    generalize hV : batchVisible tx.snapshot tx.overlay pfx none = V at *
    have hbatch : _ ↔ BatchOk tx.snapshot tx.overlay pfx (cursorAt V p) limit :=
      scanBatch_exact_iff tx fun a h => cursorAt_prefix (hV ▸ h)
    rw [← hV, batchVisible_cursorAt (hV ▸ hp), hV] at hbatch
    rw [scanAll]
    generalize hR : tx.scanBatch pfx (cursorAt V p) limit = R at *
    by_cases hok : BatchOk tx.snapshot tx.overlay pfx (cursorAt V p) limit
    · have hR1 : R.1 = (V.drop p).take limit := hbatch.mpr hok
      have hlen : R.1.length = min limit (V.length - p) := by rw [hR1]; simp
      by_cases hshort : R.1.length < limit
      · -- a short batch ends the list, and no later batch is due
        rw [if_pos hshort, hR1]
        refine iff_of_true (take_of_length_le (by simp; omega)) fun j hj => ?_
        cases j with
        | zero => simpa using hok
        | succ j =>
          rw [succ_mul] at hj
          omega
      · have hp' : p + limit ≤ V.length := by omega
        have hlast : (R.1.getLast?.map fst).or (cursorAt V p) = cursorAt V (p + limit) := by
          have hi : V[p + limit - 1]? = some V[p + limit - 1] :=
            getElem?_eq_getElem (by omega)
          have hcur : cursorAt V (p + limit) = some V[p + limit - 1].1 := by
            rw [cursorAt, if_neg (by omega), hi]
            rfl
          rw [hcur, hR1, getLast?_take, if_neg (by omega), getElem?_drop,
            show p + (limit - 1) = p + limit - 1 by omega, hi]
          rfl
        obtain ⟨hs, ho⟩ := @scanBatch_state tx pfx (cursorAt V p) limit
        rw [hR] at hs ho
        have hrest := ih (p := p + limit) R.2 (by rw [hs, ho, hV]; exact hp')
          (by rw [hs, ho, hV]; omega)
        rw [hs, ho, hV] at hrest
        rw [if_neg hshort, hlast]
        have hsplit : V.drop p = R.1 ++ V.drop (p + limit) := by
          rw [hR1, ← drop_drop, take_append_drop]
        rw [hsplit, append_cancel_left_eq, hrest]
        constructor
        · intro h j hj
          cases j with
          | zero => simpa using hok
          | succ j =>
            have := h j (by rw [succ_mul] at hj; omega)
            rwa [show p + limit + j * limit = p + (j + 1) * limit by rw [succ_mul]; omega] at this
        · intro h j hj
          have := h (j + 1) (by rw [succ_mul]; omega)
          rwa [show p + (j + 1) * limit = p + limit + j * limit by rw [succ_mul]; omega] at this
    · -- a wrong batch is no initial part of the rest, whether the loop stops after it or not
      have hwrong : R.1 ≠ (V.drop p).take limit := fun h => hok (hbatch.mp h)
      refine iff_of_false (fun h => ?_) fun h => hok (by simpa using h 0 (by simpa using hp))
      have hpre : R.1 <+: V.drop p := by
        rw [← h]
        split_ifs
        · exact prefix_rfl
        · exact prefix_append _ _
      have htake := prefix_iff_eq_take.mp hpre
      have hle : R.1.length ≤ limit := by
        rw [← hR, scanBatch]
        exact length_take_le _ _
      rcases hle.lt_or_eq with hlt | heq
      · rw [if_pos hlt] at h
        refine hwrong ?_
        rw [← h, take_of_length_le hle]
      · exact hwrong (heq ▸ htake)

end ScanLemmas

/-- The batched loop lists the view under the prefix, each row once and in key order, exactly
when every batch it has to take is exact. -/
theorem scanAll_exact_iff (hl : 0 < limit) :
    scanAll pfx limit ((batchVisible tx.snapshot tx.overlay pfx none).length + 1) tx none =
        batchVisible tx.snapshot tx.overlay pfx none ↔
      ∀ j, j * limit ≤ (batchVisible tx.snapshot tx.overlay pfx none).length →
        BatchOk tx.snapshot tx.overlay pfx
          (cursorAt (batchVisible tx.snapshot tx.overlay pfx none) (j * limit)) limit := by
  have h := @scanAll_from limit pfx _ 0 hl tx (zero_le _) (lt_add_one _)
  simpa only [drop_zero, Nat.zero_add, Nat.sub_zero, cursorAt, if_true] using h

/-- Scans inside a transaction: a range scan, a batch and the batched loop return the view's
rows, the first `limit` of them after the cursor or all of them, exactly when the conditions on
the snapshot, the overlay and the arguments hold. -/
theorem scan_exact_iff (tx : TxnState) :
    (∀ start stop limit,
      (tx.scanRange start stop limit).1 = (visible tx.snapshot tx.overlay start stop).take limit ↔
        WindowSuffices tx.snapshot tx.overlay start stop limit) ∧
    (∀ pfx after limit, (∀ a, after = some a → pfx <+: a) →
      ((tx.scanBatch pfx after limit).1 =
          (batchVisible tx.snapshot tx.overlay pfx after).take limit ↔
        BatchOk tx.snapshot tx.overlay pfx after limit)) ∧
    (∀ pfx limit, 0 < limit →
      (scanAll pfx limit ((batchVisible tx.snapshot tx.overlay pfx none).length + 1) tx none =
          batchVisible tx.snapshot tx.overlay pfx none ↔
        ∀ j, j * limit ≤ (batchVisible tx.snapshot tx.overlay pfx none).length →
          BatchOk tx.snapshot tx.overlay pfx
            (cursorAt (batchVisible tx.snapshot tx.overlay pfx none) (j * limit)) limit)) :=
  ⟨scanRange_exact_iff tx, fun _ _ _ ha => scanBatch_exact_iff tx ha,
    fun _ _ hl => scanAll_exact_iff tx hl⟩

/-- Three committed rows under the prefix `7`. -/
def threeRows : Table :=
  (empty : Table).insertMany [([7, 1], [10]), ([7, 2], [20]), ([7, 3], [30])]

/-- A transaction that has deleted the first two of them. -/
def deletedTwo : TxnState :=
  { TxnState.start threeRows false .snapshot with
    overlay := (Overlay.empty.delete [7, 1]).delete [7, 2] }

/-- With batches of two rows the transaction sees an empty table: both rows of the committed
window are deleted, the batch comes out short and the loop stops before the third row. -/
theorem scanAll_misses_row :
    (deletedTwo.scanRange [7] (some [8]) 2).1 = [] ∧
      (deletedTwo.scanBatch [7] none 2).1 = [] ∧
      scanAll [7] 2 10 deletedTwo none = [] ∧
      batchVisible deletedTwo.snapshot deletedTwo.overlay [7] none = [([7, 3], [30])] ∧
      visible deletedTwo.snapshot deletedTwo.overlay [7] (some [8]) = [([7, 3], [30])] := by
  decide +kernel

end TxnState

end ElyraSql
