import ElyraSql.Accounts.Statements
import ElyraSql.Library.KeyOrder

/-!
# Which records belong to an account

A record belongs to an account when its key is the account's own, or begins with the account's name
and the separator. Two names are apart when neither, with the separator, begins the other with the
separator; then no record belongs to both.
-/

namespace ElyraSql.Accounts

open OrderedMap Engine KeyOrder List OMap

/-! ## Keys -/

/-- The key begins with a name and the separator; otherwise the name is all of it. -/
def Family.joins : Family → Bool
  | .tgrant | .colgrant | .rolemember => true
  | .user | .role | .ugrant => false

theorem Family.text_append_inj {f g : Family} {a b : Text} (h : f.text ++ a = g.text ++ b) :
    f = g ∧ a = b := by
  cases f <;> cases g <;> simp [Family.text] at h ⊢ <;> exact h

/-- Neither name, with the separator, begins the other with the separator. -/
def Apart (x y : Text) : Prop := ¬ x ++ sep <+: y ++ sep ∧ ¬ y ++ sep <+: x ++ sep

variable {x k : Text} (n : Text) {s s' : Records}

theorem Apart.not_both {y r : Text} (h : Apart x y) (hx : x ++ sep <+: r) : ¬ y ++ sep <+: r := by
  intro hy
  rcases List.prefix_or_prefix_of_prefix hx hy with hp | hp
  · exact h.1 hp
  · exact h.2 hp

/-- The record under `k` belongs to the account `n`. -/
def Owns (n k : Text) : Prop :=
  ∃ (f : Family) (r : Text), k = f.text ++ r ∧ if f.joins then n ++ sep <+: r else r = n

/-- Names that are apart share no record. -/
theorem Owns.disjoint {y : Text} (h : Apart x y) (hne : x ≠ y) (hx : Owns x k) : ¬ Owns y k := by
  rintro ⟨g, r', rfl, hy⟩
  obtain ⟨f, r, heq, hx⟩ := hx
  obtain ⟨rfl, rfl⟩ := Family.text_append_inj heq
  cases hf : g.joins with
  | true =>
    rw [hf] at hx hy
    exact h.not_both hx hy
  | false =>
    rw [hf] at hx hy
    exact hne (hx.symm.trans hy)

theorem owns_userKey : Owns n (userKey n) := ⟨.user, n, rfl, rfl⟩

theorem owns_roleFlagKey : Owns n (roleFlagKey n) := ⟨.role, n, rfl, rfl⟩

theorem owns_ugrantKey : Owns n (ugrantKey n) := ⟨.ugrant, n, rfl, rfl⟩

/-- A key that begins with the prefix of a family and a name belongs to the name. -/
theorem owns_of_begins {f : Family} (hf : f.joins = true) {n : Text}
    (h : f.text ++ (n ++ sep) <+: k) : Owns n k := by
  obtain ⟨t, rfl⟩ := h
  refine ⟨f, n ++ sep ++ t, append_assoc _ _ _, ?_⟩
  rw [hf]
  exact prefix_append _ _

theorem owns_tableGrantKey (table : Text) : Owns n (tableGrantKey n table) :=
  owns_of_begins (f := .tgrant) rfl (prefix_append _ _)

theorem accountColPrefix_begins (table : Text) : accountColPrefix n <+: colGrantPrefix n table :=
  prefix_append _ _

theorem owns_colGrantKey (table column : Text) : Owns n (colGrantKey n table column) :=
  owns_of_begins (f := .colgrant) rfl
    ((accountColPrefix_begins n table).trans (prefix_append _ _))

theorem owns_roleMemberKey (role : Text) : Owns n (roleMemberKey n role) :=
  owns_of_begins (f := .rolemember) rfl (prefix_append _ _)

theorem roleMemberKey_inj {u r r' : Text} (h : x ≠ u → Apart x u)
    (heq : roleMemberKey x r = roleMemberKey u r') : x = u ∧ r = r' := by
  have hxu : x = u := by
    by_contra hne
    exact (owns_roleMemberKey x r).disjoint (h hne) hne (heq ▸ owns_roleMemberKey u r')
  subst hxu
  exact ⟨rfl, append_cancel_left heq⟩

/-! ## Reading -/

theorem mem_scanKeys {p : Text} : k ∈ scanKeys s p ↔ s.contains k ∧ p <+: k := by
  rw [scanKeys, mem_map, OMap.contains, Option.isSome_iff_exists]
  constructor
  · rintro ⟨e, he, rfl⟩
    obtain ⟨hget, hp⟩ := mem_list.mp he
    exact ⟨⟨e.2, hget⟩, List.isPrefixOf_iff_prefix.mp hp⟩
  · rintro ⟨⟨v, hget⟩, hp⟩
    exact ⟨(k, v), mem_list.mpr ⟨hget, List.isPrefixOf_iff_prefix.mpr hp⟩, rfl⟩

theorem scanKeys_congr {p : Text} (h : ∀ k, p <+: k → s'.get k = s.get k) :
    scanKeys s' p = scanKeys s p := by
  rw [scanKeys, scanKeys, list_congr fun k hk => h k (List.isPrefixOf_iff_prefix.mp hk)]

theorem mem_rolesOf {r : Text} : r ∈ rolesOf s x ↔ s.contains (roleMemberKey x r) ∧ isRole s r := by
  rw [rolesOf, mem_filter, mem_map]
  refine and_congr_left fun _ => ?_
  constructor
  · rintro ⟨k, hk, rfl⟩
    obtain ⟨hc, t, rfl⟩ := mem_scanKeys.mp hk
    rw [drop_left]
    exact hc
  · intro hc
    exact ⟨roleMemberKey x r, mem_scanKeys.mpr ⟨hc, prefix_append _ _⟩, drop_left⟩

theorem sorted_rolesOf (s : Records) (x : Text) : (rolesOf s x).Pairwise (· < ·) := by
  refine List.Pairwise.filter _ (pairwise_map.mpr ?_)
  refine List.Pairwise.imp_of_mem ?_ (pairwise_map.mpr (increasing_list s _))
  intro a b ha hb hlt
  obtain ⟨-, t, rfl⟩ := mem_scanKeys.mp ha
  obtain ⟨-, u, rfl⟩ := mem_scanKeys.mp hb
  rw [drop_left, drop_left]
  exact append_lt_append_iff.mp hlt

theorem rolesOf_ext (h : ∀ r, r ∈ rolesOf s' x ↔ r ∈ rolesOf s x) : rolesOf s' x = rolesOf s x :=
  (sorted_rolesOf s' x).eq_of_mem_iff (sorted_rolesOf s x) fun {r} => h r

/-- What is read for an account. -/
structure SameReads (codec : UserCodec) (s s' : Records) (x : Text) : Prop where
  roles : rolesOf s' x = rolesOf s x
  columns : ∀ table, columnGrants s' x table = columnGrants s x table
  privset : ∀ table, effectiveTablePrivset codec s' x table = effectiveTablePrivset codec s x table

variable {codec : UserCodec}

theorem SameReads.refl (s : Records) (x : Text) : SameReads codec s s x :=
  ⟨rfl, fun _ => rfl, fun _ => rfl⟩

theorem SameReads.trans {s₁ s₂ s₃ : Records} (h : SameReads codec s₁ s₂ x)
    (h' : SameReads codec s₂ s₃ x) : SameReads codec s₁ s₃ x :=
  ⟨h'.roles.trans h.roles, fun t => (h'.columns t).trans (h.columns t),
    fun t => (h'.privset t).trans (h.privset t)⟩

/-- The records of an account that are read for it and for the accounts it is a role of: all but its
memberships. -/
def Granted (n k : Text) : Prop :=
  k = userKey n ∨ k = roleFlagKey n ∨ k = ugrantKey n ∨ tableGrantPrefix n <+: k ∨
    accountColPrefix n <+: k

theorem Granted.owns {n : Text} (h : Granted n k) : Owns n k := by
  rcases h with rfl | rfl | rfl | h | h
  · exact owns_userKey n
  · exact owns_roleFlagKey n
  · exact owns_ugrantKey n
  · exact owns_of_begins (f := .tgrant) rfl h
  · exact owns_of_begins (f := .colgrant) rfl h

section Same

variable {s s' : Records} {n : Text} (h : ∀ k, Granted n k → s'.get k = s.get k)
include h

theorem ownGlobalPrivset_congr : ownGlobalPrivset codec s' n = ownGlobalPrivset codec s n := by
  unfold ownGlobalPrivset ownPrivilege
  rw [h _ (.inl rfl), h _ (.inr (.inr (.inl rfl)))]

theorem ownTablePrivset_congr (table : Text) :
    ownTablePrivset s' n table = ownTablePrivset s n table := by
  unfold ownTablePrivset
  rw [h (tableGrantKey n table) (.inr (.inr (.inr (.inl (prefix_append _ _)))))]

theorem isRole_congr : isRole s' n = isRole s n := by
  unfold isRole OMap.contains
  rw [h _ (.inl rfl), h _ (.inr (.inl rfl))]

theorem scanColumnGrants_congr (table : Text) :
    scanColumnGrants s' (colGrantPrefix n table) = scanColumnGrants s (colGrantPrefix n table) := by
  unfold scanColumnGrants
  rw [scanKeys_congr fun k hk => h k (.inr (.inr (.inr (.inr
    ((accountColPrefix_begins n table).trans hk)))))]

end Same

theorem foldl_or_congr {f g : Text → UInt32} (l : List Text) (b : UInt32)
    (h : ∀ r ∈ l, f r = g r) :
    l.foldl (fun bits r => bits ||| f r) b = l.foldl (fun bits r => bits ||| g r) b :=
  foldl_ext _ _ _ fun bits r hr => by rw [h r hr]

/-- What is read for an account depends on its roles and on what it and they are granted. -/
theorem reads_congr (hroles : rolesOf s' x = rolesOf s x)
    (h : ∀ n, n = x ∨ n ∈ rolesOf s x → ∀ k, Granted n k → s'.get k = s.get k) :
    SameReads codec s s' x := by
  have hx := h x (.inl rfl)
  have hr := fun r (hr : r ∈ rolesOf s x) => h r (.inr hr)
  refine ⟨hroles, fun table => ?_, fun table => ?_⟩
  · have hcols : (rolesOf s x).flatMap (fun r => scanColumnGrants s' (colGrantPrefix r table)) =
        (rolesOf s x).flatMap fun r => scanColumnGrants s (colGrantPrefix r table) :=
      flatMap_congr fun r hmem => scanColumnGrants_congr (hr r hmem) table
    unfold columnGrants
    rw [hroles, scanColumnGrants_congr hx, hcols]
  · unfold effectiveTablePrivset effectiveGlobalPrivset
    rw [hroles, ownGlobalPrivset_congr hx, ownTablePrivset_congr hx,
      foldl_or_congr _ _ fun r hmem => ownGlobalPrivset_congr (hr r hmem),
      foldl_or_congr _ _ fun r hmem => ownTablePrivset_congr (hr r hmem) table]

end ElyraSql.Accounts
