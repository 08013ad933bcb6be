import ElyraSql.Accounts.Ownership
import ElyraSql.Library.ReadProgram

/-!
# Statements about other accounts

A set of names is separate when any two of them are apart, and no membership of one, cut at the
first separator as `account_keys` does, names another as its role. Over such names a statement about
other accounts changes nothing that is read for an account that has none of them as a role.
-/

namespace ElyraSql.Accounts

open OrderedMap Engine List Option Family SameReads OMap ReadProgram

/-! ## Names -/

/-- Any two names are apart, and what follows the first separator in a membership is no other name
than its role. -/
def Separate (N : Set Text) : Prop :=
  ∀ x ∈ N, ∀ y ∈ N, x ≠ y → Apart x y ∧
    ∀ r ∈ N, (splitOnce (x ++ sep ++ r)).any (fun p => p.2 == y) = true → r = y

/-- Every membership is one of an account in a role of the set. -/
def MembersIn (N : Set Text) (s : Records) : Prop :=
  ∀ k, s.contains k → rolemember.text <+: k → ∃ u ∈ N, ∃ r ∈ N, k = roleMemberKey u r

variable {N : Set Text} {s : Records} {x : Text}

theorem MembersIn.roles (hs : MembersIn N s) (hN : Separate N) {r : Text} (hx : x ∈ N)
    (hr : r ∈ rolesOf s x) : r ∈ N := by
  have hkey := (mem_rolesOf.mp hr).1
  have hfamily : rolemember.text <+: roleMemberKey x r :=
    (prefix_append _ _).trans (prefix_append _ _)
  obtain ⟨u, hu, r', hr', heq⟩ := hs _ hkey hfamily
  obtain ⟨-, rfl⟩ := roleMemberKey_inj (fun hne => (hN x hx u hu hne).1) heq
  exact hr'

/-! ## Writes -/

/-- Records other than those of `ys` stay as they are, except that memberships that name one of `ys`
as their role may go; no account becomes a role. -/
structure Touches (s : Records) (ys : List Text) (b : Batch) : Prop where
  puts : ∀ p ∈ b.1, ∃ y ∈ ys, Owns y p.1
  deletes : ∀ k ∈ b.2, ∃ y ∈ ys, Owns y k ∨ rolemember.text <+: k ∧ namesRole y k = true
  noFlag : ∀ p ∈ b.1, ∀ r, p.1 ≠ roleFlagKey r
  users : ∀ p ∈ b.1, ∀ r, p.1 = userKey r → s.contains (userKey r)

variable {b : Batch}
variable {k : Text}

theorem get_commitWrite_of_put {v : Record} (h : (commitWrite s b.1 b.2).get k = some v) :
    s.get k = some v ∨ ∃ p ∈ b.1, p.1 = k := by
  unfold commitWrite at h
  rw [get_insertMany] at h
  rcases or_eq_some_iff.mp h with hput | ⟨-, hget⟩
  · exact .inr ⟨_, mem_of_lastValue hput, rfl⟩
  · rw [get_eraseMany] at hget
    split_ifs at hget
    exact .inl hget

theorem get_commitWrite_of_other (hp : ∀ p ∈ b.1, p.1 ≠ k) (hd : k ∉ b.2) :
    (commitWrite s b.1 b.2).get k = s.get k := by
  have hnone : lastValue b.1 k = none := lastValue_eq_none fun hmem => by
    obtain ⟨p, hmem, heq⟩ := mem_map.mp hmem
    exact hp p hmem heq
  unfold commitWrite
  rw [get_insertMany, hnone, none_or, get_eraseMany_of_notMem hd]

theorem Touches.get_of_free {ys : List Text} (h : Touches s ys b) (hfree : ∀ y ∈ ys, ¬ Owns y k)
    (hmember : ∀ y ∈ ys, rolemember.text <+: k → ¬ namesRole y k = true) :
    (commitWrite s b.1 b.2).get k = s.get k := by
  refine get_commitWrite_of_other (fun p hp heq => ?_) fun hmem => ?_
  · obtain ⟨y, hy, howns⟩ := h.puts p hp
    exact hfree y hy (heq ▸ howns)
  · obtain ⟨y, hy, howns | ⟨hkey, hname⟩⟩ := h.deletes k hmem
    · exact hfree y hy howns
    · exact hmember y hy hkey hname

theorem Touches.isRole {ys : List Text} (h : Touches s ys b) {r : Text}
    (hr : isRole (commitWrite s b.1 b.2) r = true) : isRole s r = true := by
  unfold Accounts.isRole at hr ⊢
  rw [Bool.and_eq_true, OMap.contains, OMap.contains, isSome_iff_exists, isSome_iff_exists] at hr
  obtain ⟨⟨f, hf⟩, ⟨u, hu⟩⟩ := hr
  rw [Bool.and_eq_true]
  constructor
  · rcases get_commitWrite_of_put hf with hget | ⟨p, hp, heq⟩
    · exact isSome_iff_exists.mpr ⟨f, hget⟩
    · exact absurd heq (h.noFlag p hp r)
  · rcases get_commitWrite_of_put hu with hget | ⟨p, hp, heq⟩
    · exact isSome_iff_exists.mpr ⟨u, hget⟩
    · exact h.users p hp r heq

section Frame

variable {ys : List Text} {x : Text} (hN : Separate N)
  (hs : MembersIn N s) (hb : Touches s ys b) (hx : x ∈ N)
  (hys : ∀ y ∈ ys, y ∈ N ∧ y ≠ x ∧ y ∉ rolesOf s x)
include hN hb hys

theorem get_granted {n : Text} (hn : n ∈ N) (hne : ∀ y ∈ ys, n ≠ y) (hk : Granted n k) :
    (commitWrite s b.1 b.2).get k = s.get k := by
  refine hb.get_of_free (fun y hy =>
    hk.owns.disjoint (hN n hn y (hys y hy).1 (hne y hy)).1 (hne y hy)) fun y _ ⟨t, ht⟩ _ => ?_
  -- a membership is not among what a role is read for
  have hother : ∀ f : Family, f ≠ .rolemember → ¬ f.text <+: k := by
    rintro f hf ⟨u, hu⟩
    exact hf (text_append_inj (hu.trans ht.symm)).1
  rcases hk with rfl | rfl | rfl | hk | hk
  · exact hother .user (by decide) (prefix_append _ _)
  · exact hother .role (by decide) (prefix_append _ _)
  · exact hother .ugrant (by decide) (prefix_append _ _)
  · exact hother .tgrant (by decide) ((prefix_append _ _).trans hk)
  · exact hother .colgrant (by decide) ((prefix_append _ _).trans hk)

include hx hs

/-- The memberships of an account outside `ys` stay as they are, those in roles among `ys` aside. -/
theorem get_membership {r : Text} (hr : r ∈ rolesOf s x) :
    (commitWrite s b.1 b.2).get (roleMemberKey x r) = s.get (roleMemberKey x r) := by
  refine hb.get_of_free (fun y hy => (owns_roleMemberKey x r).disjoint
    (hN x hx y (hys y hy).1 (hys y hy).2.1.symm).1 (hys y hy).2.1.symm) fun y hy _ hname => ?_
  obtain ⟨hyN, hne, hnot⟩ := hys y hy
  have heq : r = y := (hN x hx y hyN hne.symm).2 r (hs.roles hN hx hr) hname
  exact hnot (heq ▸ hr)

/-- A write that touches only records of accounts that are neither `x` nor its roles changes nothing
that is read for `x`. -/
theorem Touches.sameReads {codec : UserCodec} : SameReads codec s (commitWrite s b.1 b.2) x := by
  have hother : ∀ n ∈ rolesOf s x, ∀ y ∈ ys, n ≠ y := fun n hn y hy heq => (hys y hy).2.2 (heq ▸ hn)
  have hroles : rolesOf (commitWrite s b.1 b.2) x = rolesOf s x := by
    refine rolesOf_ext fun r => ⟨fun hr => ?_, fun hr => ?_⟩
    · -- no membership of `x` is written, and no account becomes a role
      obtain ⟨hkey, hrole⟩ := mem_rolesOf.mp hr
      obtain ⟨v, hv⟩ := isSome_iff_exists.mp hkey
      refine mem_rolesOf.mpr ⟨?_, hb.isRole hrole⟩
      rcases get_commitWrite_of_put hv with hget | ⟨p, hp, heq⟩
      · exact isSome_iff_exists.mpr ⟨v, hget⟩
      · obtain ⟨y, hy, howns⟩ := hb.puts p hp
        have hne := (hys y hy).2.1.symm
        exact absurd (heq ▸ howns)
          ((owns_roleMemberKey x r).disjoint (hN x hx y (hys y hy).1 hne).1 hne)
    · obtain ⟨hkey, hrole⟩ := mem_rolesOf.mp hr
      refine mem_rolesOf.mpr ⟨?_, ?_⟩
      · unfold OMap.contains at hkey ⊢
        rwa [get_membership hN hs hb hx hys hr]
      · rwa [isRole_congr fun k => get_granted hN hb hys (hs.roles hN hx hr) (hother r hr)]
  refine reads_congr hroles ?_
  rintro n (rfl | hn) k hk
  · exact get_granted hN hb hys hx (fun y hy => (hys y hy).2.1.symm) hk
  · exact get_granted hN hb hys (hs.roles hN hx hn) (hother n hn) hk

end Frame

/-! ## What the statements write -/

theorem not_rolemember {f : Family} (hf : f ≠ .rolemember) (r : Text) :
    ¬ rolemember.text <+: f.text ++ r := by
  rintro ⟨t, ht⟩
  exact hf (text_append_inj ht).1.symm

theorem mem_accountKeys {name : Text} (h : k ∈ accountKeys s name) :
    Owns name k ∨ rolemember.text <+: k ∧ namesRole name k = true := by
  unfold accountKeys at h
  simp only [mem_append, mem_cons, mem_flatMap, not_mem_nil, or_false,
    mem_filter, mem_scanKeys] at h
  rcases h with ((rfl | rfl | rfl) | ⟨p, (rfl | rfl | rfl), -, hp⟩) | ⟨⟨-, hp⟩, hname⟩
  · exact .inl (owns_userKey name)
  · exact .inl (owns_roleFlagKey name)
  · exact .inl (owns_ugrantKey name)
  · exact .inl (owns_of_begins (f := .tgrant) rfl hp)
  · exact .inl (owns_of_begins (f := .colgrant) rfl hp)
  · exact .inl (owns_of_begins (f := .rolemember) rfl hp)
  · exact .inr ⟨hp, hname⟩

/-- A batch whose puts are of other kinds than marks and memberships. -/
def PlainPuts (b : Batch) : Prop :=
  ∀ p ∈ b.1, ∃ (f : Family) (r : Text), p.1 = f.text ++ r ∧ f ≠ .role ∧ f ≠ .rolemember

theorem PlainPuts.noFlag (h : PlainPuts b) : ∀ p ∈ b.1, ∀ r, p.1 ≠ roleFlagKey r := by
  intro p hp r heq
  obtain ⟨f, t, ht, hf, -⟩ := h p hp
  exact hf (text_append_inj (ht.symm.trans heq)).1

variable {cfg : Config}

theorem createRoles_puts {ifNotExists : Bool} {names : List Text}
    (h : createRoles cfg s ifNotExists names = .ok b) :
    ∀ p ∈ b.1, ∃ n ∈ names, p ∈ rolePuts cfg n := by
  induction names generalizing b with
  | nil =>
    cases h
    exact nofun
  | cons n names ih =>
    have hrest : ∀ {b'}, createRoles cfg s ifNotExists names = .ok b' →
        ∀ p ∈ b'.1, ∃ m ∈ n :: names, p ∈ rolePuts cfg m := fun h' p hp =>
      (ih h' p hp).imp fun m hm => ⟨mem_cons_of_mem _ hm.1, hm.2⟩
    unfold createRoles at h
    split_ifs at h
    · exact hrest h
    · obtain ⟨b', hb, h⟩ := except_bind_ok h
      cases h
      intro p hp
      rcases mem_append.mp hp with hp | hp
      · exact ⟨n, mem_cons_self, hp⟩
      · exact hrest hb p hp

theorem dropAccounts_batch {operation : String} {ifExists : Bool} {names : List Text}
    (h : dropAccounts s operation ifExists names = .ok b) :
    b.1 = [] ∧ ∀ k ∈ b.2, ∃ n ∈ names, k ∈ accountKeys s n := by
  induction names generalizing b with
  | nil =>
    cases h
    exact ⟨rfl, nofun⟩
  | cons n names ih =>
    have hrest : ∀ {b'}, dropAccounts s operation ifExists names = .ok b' →
        b'.1 = [] ∧ ∀ k ∈ b'.2, ∃ m ∈ n :: names, k ∈ accountKeys s m := fun h' =>
      ⟨(ih h').1, fun k hk => ((ih h').2 k hk).imp fun m hm => ⟨mem_cons_of_mem _ hm.1, hm.2⟩⟩
    unfold dropAccounts at h
    split_ifs at h
    · obtain ⟨b', hb, h⟩ := except_bind_ok h
      cases h
      refine ⟨(hrest hb).1, fun k hk => ?_⟩
      rcases mem_append.mp hk with hk | hk
      · exact ⟨n, mem_cons_self, hk⟩
      · exact (hrest hb).2 k hk
    · exact hrest h

variable {grant : Bool}

theorem roleMembership_batch {roles users : List Text}
    (h : roleMembership s grant roles users = .ok b) :
    (∀ p ∈ b.1, ∃ u ∈ users, ∃ r ∈ roles, p.1 = roleMemberKey u r) ∧
      ∀ k ∈ b.2, ∃ u ∈ users, ∃ r ∈ roles, k = roleMemberKey u r := by
  unfold roleMembership at h
  split at h
  · cases h
  split at h
  · cases h
  have hkeys : ∀ k ∈ users.flatMap fun u => roles.map (roleMemberKey u),
      ∃ u ∈ users, ∃ r ∈ roles, k = roleMemberKey u r := by
    intro k hk
    obtain ⟨u, hu, hk⟩ := mem_flatMap.mp hk
    obtain ⟨r, hr, rfl⟩ := mem_map.mp hk
    exact ⟨u, hu, r, hr, rfl⟩
  split_ifs at h
  · cases h
    refine ⟨fun p hp => ?_, nofun⟩
    obtain ⟨k, hk, rfl⟩ := mem_map.mp hp
    exact hkeys k hk
  · cases h
    exact ⟨nofun, hkeys⟩

variable {actions cols : List Text} {scope : Option Text}

theorem grantOne_batch {name : Text} (h : grantOne cfg grant actions cols scope s name = .ok b) :
    PlainPuts b ∧ Touches s [name] b := by
  unfold grantOne at h
  cases huser : s.get (userKey name) with
  | none => rw [huser] at h; cases h
  | some u =>
    rw [huser] at h
    have hexists : s.contains (userKey name) := isSome_iff_exists.mpr ⟨u, huser⟩
    -- a put of a kind other than marks and memberships, of a record of the grantee
    suffices hsuff : (∀ p ∈ b.1, Owns name p.1 ∧ ∃ (f : Family) (r : Text), p.1 = f.text ++ r ∧
        f ≠ .role ∧ f ≠ .rolemember) ∧ ∀ k ∈ b.2, Owns name k by
      have hplain : PlainPuts b := fun p hp => (hsuff.1 p hp).2
      refine ⟨hplain, fun p hp => ⟨name, mem_singleton_self _, (hsuff.1 p hp).1⟩,
        fun k hk => ⟨name, mem_singleton_self _, .inl (hsuff.2 k hk)⟩, hplain.noFlag, ?_⟩
      intro p hp r heq
      obtain ⟨f, t, ht, howns⟩ := (hsuff.1 p hp).1
      obtain ⟨rfl, rfl⟩ := text_append_inj (ht.symm.trans heq)
      have hname : t = name := howns
      exact hname ▸ hexists
    cases scope with
    | some table =>
      cases h
      split
      · dsimp only [grantTable]
        split
        · exact ⟨nofun, by simpa using owns_tableGrantKey name table⟩
        · refine ⟨fun p hp => ?_, nofun⟩
          obtain rfl := mem_singleton.mp hp
          exact ⟨owns_tableGrantKey name table, .tgrant, name ++ sep ++ lower table,
            append_assoc _ _ _, by decide, by decide⟩
      · unfold grantColumns
        split
        · refine ⟨fun p hp => ?_, nofun⟩
          obtain ⟨c, -, rfl⟩ := mem_map.mp hp
          refine ⟨owns_colGrantKey name table c, .colgrant,
            name ++ sep ++ (lower table ++ sep) ++ lower c, ?_, by decide, by decide⟩
          simp only [colGrantKey, colGrantPrefix, accountColPrefix, append_assoc]
        · refine ⟨nofun, fun k hk => ?_⟩
          obtain ⟨c, -, hk⟩ := mem_flatMap.mp hk
          obtain ⟨d, -, rfl⟩ := mem_map.mp hk
          exact owns_colGrantKey name table d
    | none =>
      cases hdec : cfg.decodeUser u with
      | none => simp only [hdec] at h; cases h
      | some rec =>
        simp only [hdec] at h
        cases h
        refine ⟨fun p hp => ?_, nofun⟩
        rcases mem_cons.mp hp with rfl | hp
        · exact ⟨owns_ugrantKey name, .ugrant, name, rfl, by decide, by decide⟩
        · obtain rfl := mem_singleton.mp hp
          exact ⟨owns_userKey name, .user, name, rfl, by decide, by decide⟩

/-! ## Runs -/

/-- Memberships of the set are kept by a write that puts no others. -/
theorem MembersIn.commitWrite (h : MembersIn N s)
    (hb : ∀ p ∈ b.1, rolemember.text <+: p.1 → ∃ u ∈ N, ∃ r ∈ N, p.1 = roleMemberKey u r) :
    MembersIn N (commitWrite s b.1 b.2) := by
  intro k hk hfamily
  obtain ⟨v, hv⟩ := isSome_iff_exists.mp hk
  rcases get_commitWrite_of_put hv with hget | ⟨p, hp, rfl⟩
  · exact h k (isSome_iff_exists.mpr ⟨v, hget⟩) hfamily
  · exact hb p hp hfamily

theorem MembersIn.plain (h : MembersIn N s)
    (hb : ∀ p ∈ b.1, ∃ (f : Family) (r : Text), p.1 = f.text ++ r ∧ f ≠ .rolemember) :
    MembersIn N (Accounts.commitWrite s b.1 b.2) := by
  refine h.commitWrite fun p hp hfamily => ?_
  obtain ⟨f, r, heq, hf⟩ := hb p hp
  exact absurd (heq ▸ hfamily) (not_rolemember hf r)

theorem PlainPuts.noMember (h : PlainPuts b) :
    ∀ p ∈ b.1, ∃ (f : Family) (r : Text), p.1 = f.text ++ r ∧ f ≠ .rolemember := by
  intro p hp
  obtain ⟨f, r, heq, -, hf⟩ := h p hp
  exact ⟨f, r, heq, hf⟩

theorem rolePuts_noMember {n : Text} {p : Text × Record} (hp : p ∈ rolePuts cfg n) :
    ∃ (f : Family) (r : Text), p.1 = f.text ++ r ∧ f ≠ .rolemember := by
  simp only [rolePuts, mem_cons, not_mem_nil, or_false] at hp
  rcases hp with rfl | rfl | rfl
  · exact ⟨.user, n, rfl, by decide⟩
  · exact ⟨.role, n, rfl, by decide⟩
  · exact ⟨.ugrant, n, rfl, by decide⟩

theorem membersIn_grantAll (h : MembersIn N s) (names : List Text) :
    MembersIn N (grantAll cfg grant actions cols scope s names).1 := by
  induction names generalizing s with
  | nil => exact h
  | cons n names ih =>
    unfold grantAll
    split
    · exact h
    next b hb => exact ih (h.plain (grantOne_batch hb).1.noMember)

variable {r : Except AccountError Batch}

theorem membersIn_commitBatch (h : MembersIn N s)
    (hb : ∀ b, r = .ok b → MembersIn N (commitWrite s b.1 b.2)) :
    MembersIn N (commitBatch s r).1 := by
  unfold commitBatch
  split
  · exact h
  next b => exact hb b rfl

/-- A statement over names of the set makes memberships of the set only. -/
theorem MembersIn.exec (h : MembersIn N s) {st : Stmt} (hst : ∀ n ∈ st.names, n ∈ N) :
    MembersIn N (st.exec cfg s).1 := by
  cases st with
  | createRole ifNotExists names =>
    refine membersIn_commitBatch h fun b hb => h.plain fun p hp => ?_
    obtain ⟨n, -, hput⟩ := createRoles_puts hb p hp
    exact rolePuts_noMember hput
  | dropAccounts operation ifExists names =>
    refine membersIn_commitBatch h fun b hb => h.plain ?_
    rw [(dropAccounts_batch hb).1]
    exact nofun
  | roleMembership grant roles users =>
    refine membersIn_commitBatch h fun b hb => h.commitWrite fun p hp _ => ?_
    obtain ⟨u, hu, r, hr, heq⟩ := (roleMembership_batch hb).1 p hp
    exact ⟨u, hst u (mem_append_right _ hu), r, hst r (mem_append_left _ hr), heq⟩
  | createUser ifNotExists name password =>
    refine membersIn_commitBatch h fun b hb => h.plain fun p hp => ?_
    unfold createUser at hb
    split_ifs at hb
    · cases hb
      cases hp
    · obtain ⟨_, -, hb⟩ := except_bind_ok hb
      cases hb
      rcases mem_cons.mp hp with rfl | hp
      · exact ⟨.user, name, rfl, by decide⟩
      · obtain rfl := mem_singleton.mp hp
        exact ⟨.ugrant, name, rfl, by decide⟩
  | setPassword name password =>
    refine membersIn_commitBatch h fun b hb => h.plain fun p hp => ?_
    unfold setPassword at hb
    split at hb
    · cases hb
    split at hb
    · cases hb
    obtain ⟨_, -, hb⟩ := except_bind_ok hb
    cases hb
    obtain rfl := mem_singleton.mp hp
    exact ⟨.user, name, rfl, by decide⟩
  | grantRevoke grant actions cols scope grantees =>
    simp only [Stmt.exec]
    split
    · exact h
    · exact membersIn_grantAll h grantees

/-- A grantee after the other, nothing changes for an account that is none of them and has none of
them as a role. -/
theorem sameReads_grantAll (hN : Separate N) (hs : MembersIn N s) (hx : x ∈ N) (names : List Text)
    (hnames : ∀ y ∈ names, y ∈ N ∧ y ≠ x ∧ y ∉ rolesOf s x) :
    SameReads cfg.toUserCodec s (grantAll cfg grant actions cols scope s names).1 x := by
  induction names generalizing s with
  | nil => exact refl s x
  | cons n names ih =>
    unfold grantAll
    split
    · exact refl s x
    next b hb =>
      obtain ⟨hplain, htouches⟩ := grantOne_batch hb
      have hsame : SameReads cfg.toUserCodec s (commitWrite s b.1 b.2) x :=
        htouches.sameReads hN hs hx fun y hy =>
          hnames y (mem_singleton.mp hy ▸ mem_cons_self)
      refine hsame.trans (ih (hs.plain hplain.noMember) fun y hy => ?_)
      rw [hsame.roles]
      exact hnames y (mem_cons_of_mem _ hy)

theorem sameReads_commitBatch {codec : UserCodec}
    (hb : ∀ b, r = .ok b → SameReads codec s (commitWrite s b.1 b.2) x) :
    SameReads codec s (commitBatch s r).1 x := by
  unfold commitBatch
  split
  · exact refl s x
  next b => exact hb b rfl

theorem sameReads_exec (hN : Separate N) (hs : MembersIn N s) {st : Stmt}
    (hst : ∀ n ∈ st.names, n ∈ N) {ys : List Text} (htargets : st.targets = some ys) (hx : x ∈ N)
    (hys : ∀ y ∈ ys, y ≠ x ∧ y ∉ rolesOf s x) :
    SameReads cfg.toUserCodec s (st.exec cfg s).1 x := by
  cases st with
  | createRole | createUser | setPassword => cases htargets
  | dropAccounts operation ifExists names =>
    obtain rfl := some.inj htargets
    refine sameReads_commitBatch fun b hb => ?_
    obtain ⟨hputs, hdeletes⟩ := dropAccounts_batch hb
    have htouches : Touches s names b := by
      refine ⟨?_, fun k hk => ?_, ?_, ?_⟩
      · rw [hputs]; exact nofun
      · exact (hdeletes k hk).imp fun y hy => ⟨hy.1, mem_accountKeys hy.2⟩
      · rw [hputs]; exact nofun
      · rw [hputs]; exact nofun
    exact htouches.sameReads hN hs hx fun y hy => ⟨hst y hy, hys y hy⟩
  | roleMembership grant roles users =>
    obtain rfl := some.inj htargets
    refine sameReads_commitBatch fun b hb => ?_
    obtain ⟨hputs, hdeletes⟩ := roleMembership_batch hb
    have hfamily : ∀ p ∈ b.1, ∀ (f : Family) r, f ≠ .rolemember → p.1 ≠ f.text ++ r := by
      intro p hp f r hf heq
      obtain ⟨u, -, r', -, hkey⟩ := hputs p hp
      refine not_rolemember hf r (heq ▸ hkey ▸ ?_)
      exact (prefix_append _ _).trans (prefix_append _ _)
    have htouches : Touches s users b := by
      refine ⟨fun p hp => ?_, fun k hk => ?_, fun p hp r => ?_, fun p hp r heq => ?_⟩
      · obtain ⟨u, hu, r, -, heq⟩ := hputs p hp
        exact ⟨u, hu, heq ▸ owns_roleMemberKey u r⟩
      · obtain ⟨u, hu, r, -, rfl⟩ := hdeletes k hk
        exact ⟨u, hu, .inl (owns_roleMemberKey u r)⟩
      · exact hfamily p hp .role r (by decide)
      · exact absurd heq (hfamily p hp .user r (by decide))
    exact htouches.sameReads hN hs hx fun y hy =>
      ⟨hst y (mem_append_right _ hy), hys y hy⟩
  | grantRevoke grant actions cols scope grantees =>
    obtain rfl := some.inj htargets
    simp only [Stmt.exec]
    split
    · exact refl s x
    · exact sameReads_grantAll hN hs hx grantees fun y hy => ⟨hst y hy, hys y hy⟩

end ElyraSql.Accounts
