import ElyraSql.Library.KeyOrder
import ElyraSql.Session.Txn

/-!
# Batches of a prefix

A batch of the committed state starts just after a cursor, ends at the first key outside the prefix
and has a limited length. Whatever is stored under the keys, the batches of a prefix are consecutive
parts of its rows.
-/

namespace ElyraSql

open OrderedMap Option OMap List KeyOrder

variable {V : Type} {s : OMap Bytes V} {pfx : Bytes} {after : Option Bytes}

/-- The pairs under a prefix, after a key if one is given. -/
def rowsUnder (s : OMap Bytes V) (pfx : Bytes) (after : Option Bytes) : List (Bytes × V) :=
  s.list fun k => pfx.isPrefixOf k && after.all fun a => decide (a < k)

theorem inRange_batchStart {k : Bytes} (hk : pfx <+: k) (after : Option Bytes) :
    inRange (batchStart pfx after) none k = after.all fun a => decide (a < k) := by
  obtain ⟨t, rfl⟩ := hk
  rw [Bool.eq_iff_iff, inRange_iff]
  cases after with
  | none => simp [batchStart, le_append]
  | some a =>
    simp only [batchStart]
    rw [show ([0] : Bytes) = [⊥] from rfl, LexOrder.append_bot_le_iff]
    simp

/-- From the cursor on, the pairs up to the first key outside the prefix are those under it. -/
theorem takeWhile_rowsUnder (s : OMap Bytes V) (ha : ∀ a, after = some a → pfx <+: a) :
    ((s.list (inRange (batchStart pfx after) none)).takeWhile fun e =>
      pfx.isPrefixOf e.1) = rowsUnder s pfx after := by
  have hle : ∀ k, inRange (batchStart pfx after) none k = true → pfx ≤ k := by
    intro k hk
    have hstart := (inRange_iff.mp hk).1
    cases after with
    | none => exact hstart
    | some a =>
      obtain ⟨t, rfl⟩ := ha a rfl
      exact (le_append pfx t).trans ((le_append _ _).trans hstart)
  rw [EntryLemmas.takeWhile_eq_filter, rowsUnder, list, list, List.filter_filter]
  · refine filter_congr fun e _ => ?_
    cases hp : pfx.isPrefixOf e.1 with
    | false => rfl
    | true => rw [inRange_batchStart (List.isPrefixOf_iff_prefix.mp hp)]
  · -- the pairs come in order, from the prefix on
    refine (increasing_list s _).imp_of_mem fun {e e'} he _ hlt hp => ?_
    obtain ⟨t, ht⟩ := List.isPrefixOf_iff_prefix.mp hp
    have hbelow : e.1 ≤ pfx ++ t := ht ▸ le_of_lt hlt
    exact List.isPrefixOf_iff_prefix.mpr
      (LexOrder.isPrefix_of_between (hle _ (mem_list.mp he).2) hbelow)

/-- The pairs after the last one of a full batch are those that the batch has left. -/
theorem filter_after_batch {rows : List (Bytes × V)} (h : Increasing rows) {n : Nat}
    {last : Bytes × V} (hlast : (rows.take n).getLast? = some last)
    (hn : ¬ (rows.take n).length < n) :
    (rows.filter fun e => decide (last.1 < e.1)) = rows.drop n := by
  cases n with
  | zero => simp at hlast
  | succ n =>
    have hlen : n < rows.length := by
      rw [length_take] at hn
      omega
    rw [getLast?_take, Nat.add_sub_cancel, getElem?_eq_getElem hlen] at hlast
    cases some.inj (some_or ▸ hlast)
    refine (filter_congr fun e _ => ?_).trans (EntryLemmas.filter_after_eq_drop h hlen)
    exact decide_eq_decide.mpr Iff.rfl

theorem rowsUnder_after {last : Bytes × V} (h : last ∈ rowsUnder s pfx after) : pfx <+: last.1 ∧
      rowsUnder s pfx (some last.1) =
        (rowsUnder s pfx after).filter fun e => decide (last.1 < e.1) := by
  obtain ⟨hpfx, hafter⟩ := Bool.and_eq_true_iff.mp (mem_list.mp h).2
  refine ⟨List.isPrefixOf_iff_prefix.mp hpfx, ?_⟩
  rw [rowsUnder, rowsUnder, list, list, List.filter_filter]
  refine filter_congr fun e _ => ?_
  rw [all_some]
  by_cases hlt : last.1 < e.1
  · have hall : (after.all fun a => decide (a < e.1)) = true := by
      cases after with
      | none => rfl
      | some a => exact decide_eq_true ((of_decide_eq_true hafter).trans hlt)
    rw [decide_eq_true hlt, hall, Bool.true_and]
  · rw [decide_eq_false hlt, Bool.and_false, Bool.false_and]

end ElyraSql
