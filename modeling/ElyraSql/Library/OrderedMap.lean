import Mathlib.Data.List.Sort
import Mathlib.Data.List.Lex
import Mathlib.Order.Basic
import Mathlib.Tactic

/-!
# Ordered maps

A finite map over a linear order, kept as its list of entries in strictly increasing key
order. The order is a field of the structure, so two maps with the same lookups are the same
value (`OMap.ext_get`) and a listing of a key range is determined by the lookups in that range
(`OMap.list_congr`).
-/

namespace OrderedMap

open List Prod

variable {K V : Type} [LinearOrder K]

/-- Strictly increasing keys. -/
def Increasing (l : List (K × V)) : Prop :=
  l.Pairwise fun a b => a.1 < b.1

/-- A finite map as its entries in key order. -/
structure OMap (K V : Type) [LinearOrder K] where
  entries : List (K × V)
  increasing : Increasing entries

/-! ## Entry lists -/

/-- Insertion into an increasing list, replacing the entry of an equal key. -/
def insertEntry (k : K) (v : V) : List (K × V) → List (K × V)
  | [] => [(k, v)]
  | (k', v') :: l =>
    if k < k' then (k, v) :: (k', v') :: l
    else if k = k' then (k, v) :: l
    else (k', v') :: insertEntry k v l

/-- The value of the first entry under `k`. -/
def findEntry (k : K) : List (K × V) → Option V
  | [] => none
  | (k', v') :: l => if k' = k then some v' else findEntry k l

variable {k : K} {v : V}

namespace EntryLemmas

variable {l : List (K × V)}

theorem mem_insertEntry {a : K × V} (h : a ∈ insertEntry k v l) : a = (k, v) ∨ a ∈ l := by
  induction l with
  | nil => simpa [insertEntry] using h
  | cons b l ih =>
    simp only [insertEntry] at h
    split_ifs at h with hlt heq
    · simpa using h
    · rcases mem_cons.mp h with rfl | h
      · exact Or.inl rfl
      · exact Or.inr (mem_cons_of_mem _ h)
    · rcases mem_cons.mp h with rfl | h
      · exact Or.inr mem_cons_self
      · exact (ih h).imp_right (mem_cons_of_mem _)

theorem increasing_insertEntry (h : Increasing l) : Increasing (insertEntry k v l) := by
  induction l with
  | nil => simp [insertEntry, Increasing]
  | cons b l ih =>
    obtain ⟨hb, hl⟩ := pairwise_cons.mp h
    simp only [insertEntry]
    split_ifs with hlt heq
    · refine pairwise_cons.mpr ⟨fun a ha => ?_, h⟩
      rcases mem_cons.mp ha with rfl | ha
      · exact hlt
      · exact hlt.trans (hb a ha)
    · subst heq
      exact pairwise_cons.mpr ⟨hb, hl⟩
    · refine pairwise_cons.mpr ⟨fun a ha => ?_, ih hl⟩
      rcases mem_insertEntry ha with rfl | ha
      · exact lt_of_le_of_ne (not_lt.mp hlt) (Ne.symm heq)
      · exact hb a ha

theorem findEntry_insertEntry (k : K) (v : V) (k' : K) (l : List (K × V)) :
    findEntry k' (insertEntry k v l) = if k' = k then some v else findEntry k' l := by
  induction l with
  | nil => simp [insertEntry, findEntry, eq_comm]
  | cons b l ih =>
    simp only [insertEntry]
    split_ifs with hlt heq hk hk hk <;> simp_all [findEntry, eq_comm]

theorem findEntry_eq_some (h : Increasing l) : findEntry k l = some v ↔ (k, v) ∈ l := by
  induction l with
  | nil => simp [findEntry]
  | cons b l ih =>
    obtain ⟨j, w⟩ := b
    obtain ⟨hb, hl⟩ := pairwise_cons.mp h
    simp only [findEntry]
    split_ifs with hj
    · subst hj
      constructor
      · rintro ⟨⟩
        exact mem_cons_self
      · intro hm
        rcases mem_cons.mp hm with he | hm
        · cases he; rfl
        · exact absurd (hb _ hm) (lt_irrefl _)
    · rw [ih hl]
      constructor
      · exact mem_cons_of_mem _
      · intro hm
        rcases mem_cons.mp hm with he | hm
        · cases he; exact absurd rfl hj
        · exact hm

theorem increasing_ext {l₁ l₂ : List (K × V)} (h₁ : Increasing l₁) (h₂ : Increasing l₂)
    (h : ∀ a, a ∈ l₁ ↔ a ∈ l₂) : l₁ = l₂ := by
  have hnd : ∀ {l : List (K × V)}, Increasing l → l.Nodup := fun hl =>
    hl.imp fun hlt he => absurd (congrArg fst he) hlt.ne
  have hp : l₁.Perm l₂ := (perm_ext_iff_of_nodup (hnd h₁) (hnd h₂)).mpr h
  exact hp.eq_of_pairwise (fun a b _ _ hab hba => absurd hba hab.asymm) h₁ h₂

/-- In an increasing list the entries beyond the `p`-th are those after its key. -/
theorem filter_after_eq_drop (h : Increasing l) {p : Nat} (hp : p < l.length) :
    (l.filter fun e => decide (l[p].1 < e.1)) = l.drop (p + 1) := by
  induction l generalizing p with
  | nil => cases hp
  | cons a l ih =>
    obtain ⟨ha, hl⟩ := pairwise_cons.mp h
    cases p with
    | zero =>
      simp only [getElem_cons_zero, lt_self_iff_false, decide_false, Bool.false_eq_true,
        not_false_eq_true, filter_cons_of_neg]
      exact filter_eq_self.mpr fun e he => decide_eq_true (ha e he)
    | succ p =>
      have hp' : p < l.length := Nat.lt_of_succ_lt_succ hp
      have hna : ¬ l[p].1 < a.1 := (ha _ (getElem_mem hp')).asymm
      simp only [getElem_cons_succ, drop_succ_cons]
      rw [filter_cons_of_neg (by simpa using hna), ih hl hp']

/-- A property that only the first entries have: the part up to where it ends is all of them. -/
theorem takeWhile_eq_filter {α : Type} {p : α → Bool} {l : List α}
    (h : l.Pairwise fun a b => p b = true → p a = true) : l.takeWhile p = l.filter p := by
  induction l with
  | nil => rfl
  | cons a l ih =>
    obtain ⟨ha, hl⟩ := pairwise_cons.mp h
    cases hp : p a with
    | true => rw [takeWhile_cons_of_pos hp, filter_cons_of_pos hp, ih hl]
    | false =>
      rw [takeWhile_cons_of_neg (by simp [hp]), filter_cons_of_neg (by simp [hp])]
      refine (filter_eq_nil_iff.mpr fun b hb hpb => ?_).symm
      rw [ha b hb hpb] at hp
      cases hp

/-- A key after all others goes to the end, and one that is there already stays there. -/
theorem insertEntry_end {t : List (K × V)} (v : V) (h : ∀ e ∈ l, e.1 < k)
    (ht : t = [] ∨ ∃ w, t = [(k, w)]) : insertEntry k v (l ++ t) = l ++ [(k, v)] := by
  induction l with
  | nil =>
    rcases ht with rfl | ⟨w, rfl⟩
    · rfl
    · simp [insertEntry]
  | cons e l ih =>
    have he := h e mem_cons_self
    simp only [cons_append, insertEntry]
    rw [if_neg he.asymm, if_neg he.ne', ih fun e' he' => h e' (mem_cons_of_mem _ he')]

end EntryLemmas

open EntryLemmas

/-! ## Maps -/

namespace OMap

def empty : OMap K V := ⟨[], List.Pairwise.nil⟩

/-- The value bound to `k`. -/
def get (m : OMap K V) (k : K) : Option V := findEntry k m.entries

/-- Whether `k` is bound. -/
def contains (m : OMap K V) (k : K) : Bool := (m.get k).isSome

/-- Bind `k` to `v`, replacing what it was bound to. -/
def insert (m : OMap K V) (k : K) (v : V) : OMap K V :=
  ⟨insertEntry k v m.entries, increasing_insertEntry m.increasing⟩

/-- Keep the bindings whose key satisfies `p`. -/
def restrict (m : OMap K V) (p : K → Bool) : OMap K V :=
  ⟨m.entries.filter fun e => p e.1, m.increasing.filter _⟩

/-- Remove the binding of `k`. -/
def erase (m : OMap K V) (k : K) : OMap K V := m.restrict fun k' => k' ≠ k

/-- Bind every pair of `kvs` in turn, so the last pair of a key stays. -/
def insertMany (m : OMap K V) (kvs : List (K × V)) : OMap K V :=
  kvs.foldl (fun m e => m.insert e.1 e.2) m

/-- Remove every key of `ks`. -/
def eraseMany (m : OMap K V) (ks : List K) : OMap K V :=
  ks.foldl (fun m k => m.erase k) m

/-- The bindings whose key satisfies `p`, in key order. -/
def list (m : OMap K V) (p : K → Bool) : List (K × V) := m.entries.filter fun e => p e.1

variable {m : OMap K V}

theorem get_eq_some : m.get k = some v ↔ (k, v) ∈ m.entries :=
  findEntry_eq_some m.increasing

variable {e : K × V}

theorem mem_entries_iff : e ∈ m.entries ↔ m.get e.1 = some e.2 :=
  get_eq_some.symm

variable {m₁ m₂ : OMap K V}

theorem ext_get (h : ∀ k, m₁.get k = m₂.get k) : m₁ = m₂ := by
  have he : m₁.entries = m₂.entries :=
    increasing_ext m₁.increasing m₂.increasing fun a => by
      rw [mem_entries_iff, mem_entries_iff, h]
  cases m₂
  cases he
  rfl

@[simp] theorem get_empty (k : K) : (empty : OMap K V).get k = none := rfl

@[simp] theorem get_insert (m : OMap K V) (k : K) (v : V) (k' : K) [Decidable (k' = k)] :
    (m.insert k v).get k' = if k' = k then some v else m.get k' := by
  rw [get, insert, findEntry_insertEntry]
  split_ifs <;> rfl

@[simp] theorem get_restrict (m : OMap K V) (p : K → Bool) (k : K) :
    (m.restrict p).get k = if p k then m.get k else none := by
  ext v
  have h : (m.restrict p).get k = some v ↔ m.get k = some v ∧ p k = true := by
    simp [get_eq_some, restrict]
  split_ifs with hp <;> simp [h, hp]

@[simp] theorem get_erase (m : OMap K V) (k k' : K) [Decidable (k' = k)] :
    (m.erase k).get k' = if k' = k then none else m.get k' := by
  simp only [erase]
  by_cases h : k' = k <;> simp [h]

variable {p : K → Bool}

theorem mem_list : e ∈ m.list p ↔ m.get e.1 = some e.2 ∧ p e.1 = true := by
  rw [list, mem_filter, mem_entries_iff]

theorem increasing_list (m : OMap K V) (p : K → Bool) : Increasing (m.list p) :=
  m.increasing.filter _

theorem list_congr (h : ∀ k, p k = true → m₁.get k = m₂.get k) : m₁.list p = m₂.list p := by
  refine increasing_ext (increasing_list _ _) (increasing_list _ _) fun e => ?_
  rw [mem_list, mem_list]
  constructor
  · rintro ⟨hg, hp⟩
    exact ⟨(h _ hp) ▸ hg, hp⟩
  · rintro ⟨hg, hp⟩
    exact ⟨(h _ hp).symm ▸ hg, hp⟩

theorem get_eq_of_list_eq (h : m₁.list p = m₂.list p) (hp : p k = true) : m₁.get k = m₂.get k := by
  ext v
  have h₁ := mem_list (m := m₁) (p := p) (e := (k, v))
  have h₂ := mem_list (m := m₂) (p := p) (e := (k, v))
  rw [h] at h₁
  simp only [hp, and_true] at h₁ h₂
  exact h₁.symm.trans h₂

def last? (m : OMap K V) : Option (K × V) := m.entries.getLast?

theorem get_of_last? (h : m.last? = some e) : m.get e.1 = some e.2 :=
  mem_entries_iff.mp (mem_of_getLast? h)

theorem last?_eq_none : m.last? = none ↔ ∀ k, m.get k = none := by
  rw [last?, getLast?_eq_none_iff]
  constructor
  · intro h k
    rw [get, h]
    rfl
  · intro h
    rw [eq_nil_iff_forall_not_mem]
    intro e he
    rw [mem_entries_iff, h e.1] at he
    exact nomatch he

theorem le_last? (h : m.last? = some e) (hv : m.get k = some v) : k ≤ e.1 := by
  have hmem : (k, v) ∈ m.entries := get_eq_some.mp hv
  obtain ⟨l, hsplit⟩ := getLast?_eq_some_iff.mp h
  rw [hsplit] at hmem
  rcases mem_append.mp hmem with hmem | hmem
  · have hinc := m.increasing
    rw [hsplit] at hinc
    exact ((pairwise_append.mp hinc).2.2 _ hmem e mem_cons_self).le
  · rw [mem_singleton] at hmem
    rw [← hmem]

theorem last?_eq_some (hv : m.get k = some v) (hk : ∀ k' v', m.get k' = some v' → k' ≤ k) :
    m.last? = some (k, v) := by
  cases hl : m.last? with
  | none =>
    rw [last?_eq_none.mp hl k] at hv
    exact nomatch hv
  | some e =>
    have hget := get_of_last? hl
    have heq : e.1 = k := le_antisymm (hk e.1 e.2 hget) (le_last? hl hv)
    rw [heq, hv] at hget
    rw [← heq, Option.some.inj hget]

/-! ### Sums over the bindings -/

/-- The sum of `f` over the bindings. -/
def total (f : K → V → Nat) (m : OMap K V) : Nat := (m.entries.map fun e => f e.1 e.2).sum

theorem list_eq_key (m : OMap K V) (k : K) :
    m.list (fun k' => decide (k' = k)) = (m.get k).toList.map fun v => (k, v) := by
  refine increasing_ext (increasing_list _ _) ?_ fun e => ?_
  · cases m.get k <;> simp [Increasing]
  · rw [mem_list, decide_eq_true_iff, mem_map]
    constructor
    · rintro ⟨hget, rfl⟩
      exact ⟨e.2, by simp [hget], rfl⟩
    · rintro ⟨v, hv, rfl⟩
      exact ⟨by simpa using hv, rfl⟩

theorem total_eq_erase (f : K → V → Nat) (m : OMap K V) (k : K) :
    m.total f = (m.erase k).total f + (m.get k).elim 0 (f k) := by
  have hsplit : ((m.erase k).entries ++ m.list fun k' => decide (k' = k)).Perm m.entries := by
    have hp := filter_append_perm (fun e : K × V => decide (e.1 ≠ k)) m.entries
    have hnot : (m.entries.filter fun e => !decide (e.1 ≠ k)) =
        m.list fun k' => decide (k' = k) := by simp [list]
    rwa [hnot] at hp
  have hsum := (hsplit.map fun e => f e.1 e.2).sum_eq
  rw [map_append, list_eq_key] at hsum
  rw [total, total, ← hsum]
  cases m.get k <;> simp

/-! ### Many updates at once -/

/-- The value the last pair of `kvs` under `k` carries. -/
def lastValue (kvs : List (K × V)) (k : K) : Option V :=
  kvs.foldl (fun r e => if e.1 = k then some e.2 else r) none

theorem foldl_lastValue (kvs : List (K × V)) (k : K) (r : Option V) :
    kvs.foldl (fun r e => if e.1 = k then some e.2 else r) r = (lastValue kvs k).or r := by
  induction kvs generalizing r with
  | nil => rfl
  | cons e kvs ih =>
    simp only [lastValue, foldl_cons]
    rw [ih, ih (if e.1 = k then some e.2 else none), Option.or_assoc]
    split_ifs <;> rfl

theorem lastValue_cons (e : K × V) (kvs : List (K × V)) (k : K) :
    lastValue (e :: kvs) k = (lastValue kvs k).or (if e.1 = k then some e.2 else none) := by
  rw [lastValue, foldl_cons, foldl_lastValue]

theorem lastValue_concat (kvs : List (K × V)) (e : K × V) (k : K) :
    lastValue (kvs ++ [e]) k = if e.1 = k then some e.2 else lastValue kvs k := by
  rw [lastValue, foldl_append]
  rfl

variable {kvs : List (K × V)}

theorem lastValue_isSome : (lastValue kvs k).isSome ↔ k ∈ kvs.map fst := by
  induction kvs with
  | nil => simp [lastValue]
  | cons e kvs ih =>
    rw [lastValue_cons, map_cons]
    split_ifs with h
    · simp [h]
    · simp [ih, Ne.symm h]

theorem lastValue_eq_none (h : k ∉ kvs.map fst) : lastValue kvs k = none := by
  rw [← Option.not_isSome_iff_eq_none, lastValue_isSome]
  exact h

theorem mem_of_lastValue (h : lastValue kvs k = some v) : (k, v) ∈ kvs := by
  induction kvs with
  | nil => exact nomatch h
  | cons e kvs ih =>
    rw [lastValue_cons] at h
    cases hl : lastValue kvs k with
    | some w =>
      rw [hl] at h
      exact mem_cons_of_mem _ (ih (hl.trans h))
    | none =>
      rw [hl, Option.none_or] at h
      split_ifs at h with hek
      cases h
      cases hek
      exact mem_cons_self

theorem lastValue_eq_some (hm : (k, v) ∈ kvs) (hu : ∀ w, (k, w) ∈ kvs → w = v) :
    lastValue kvs k = some v := by
  have hs : (lastValue kvs k).isSome = true :=
    lastValue_isSome.mpr (mem_map.mpr ⟨(k, v), hm, rfl⟩)
  obtain ⟨w, hw⟩ := Option.isSome_iff_exists.mp hs
  rw [hw, hu w (mem_of_lastValue hw)]

theorem lastValue_eq_some_of_increasing (h : Increasing kvs) :
    lastValue kvs k = some v ↔ (k, v) ∈ kvs := by
  induction kvs with
  | nil => simp [lastValue]
  | cons e kvs ih =>
    obtain ⟨he, hk⟩ := pairwise_cons.mp h
    rw [lastValue_cons]
    split_ifs with hek
    · have hn : lastValue kvs k = none := lastValue_eq_none fun hm => by
        obtain ⟨a, ha, rfl⟩ := mem_map.mp hm
        exact absurd hek (he a ha).ne
      obtain ⟨j, w⟩ := e
      subst hek
      simp only [hn, Option.none_or, Option.some.injEq, mem_cons, Prod.mk.injEq, true_and]
      constructor
      · rintro rfl; exact Or.inl rfl
      · rintro (rfl | hm)
        · rfl
        · exact absurd (he _ hm) (lt_irrefl _)
    · rw [Option.or_none, ih hk, mem_cons]
      constructor
      · exact Or.inr
      · rintro (rfl | hm)
        · exact absurd rfl hek
        · exact hm

@[simp] theorem get_insertMany (m : OMap K V) (kvs : List (K × V)) (k : K) :
    (m.insertMany kvs).get k = (lastValue kvs k).or (m.get k) := by
  induction kvs generalizing m with
  | nil => rfl
  | cons e kvs ih =>
    simp only [insertMany, foldl_cons] at ih ⊢
    rw [ih, lastValue_cons]
    by_cases h : e.1 = k
    · simp [h]
    · simp [h, Ne.symm h]

theorem get_eraseMany_of_mem {ks : List K} (h : k ∈ ks ∨ m.get k = none) :
    (m.eraseMany ks).get k = none := by
  induction ks generalizing m with
  | nil => simpa [eraseMany] using h
  | cons j ks ih =>
    refine ih (m := m.erase j) ?_
    rw [get_erase]
    rcases h with h | h
    · rcases mem_cons.mp h with rfl | h
      · exact Or.inr (if_pos rfl)
      · exact Or.inl h
    · exact Or.inr (by simp [h])

theorem get_eraseMany_of_notMem {ks : List K} (h : k ∉ ks) : (m.eraseMany ks).get k = m.get k := by
  induction ks generalizing m with
  | nil => rfl
  | cons j ks ih =>
    obtain ⟨hj, hk⟩ := not_or.mp (mt mem_cons.mpr h)
    have := ih (m := m.erase j) hk
    rwa [get_erase, if_neg hj] at this

@[simp] theorem get_eraseMany (m : OMap K V) (ks : List K) (k : K) [Decidable (k ∈ ks)] :
    (m.eraseMany ks).get k = if k ∈ ks then none else m.get k := by
  split_ifs with h
  · exact get_eraseMany_of_mem (Or.inl h)
  · exact get_eraseMany_of_notMem h

end OMap

end OrderedMap
