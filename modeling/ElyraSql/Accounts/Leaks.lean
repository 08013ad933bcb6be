import ElyraSql.Accounts.Separation
import ElyraSql.Library.Transition

/-!
# Grants do not leak exactly between separate names

Over the runs of account statements that mention only names of a set, what is read for one account
changes under statements about others, its roles aside, unless the set is separate.
-/

namespace ElyraSql.Accounts

open OrderedMap Engine Transition List Option OMap Family PrivBits

/-! ## The property -/

def step (cfg : Config) (s : Records) (i : Input) : Option Records := some (execute cfg s i).1

/-- The statement is well formed and mentions only names of the set. -/
def Mentions (N : Set Text) (i : Input) (st : Stmt) : Prop :=
  parse i.toks i.scope = .ok st ∧ ∀ n ∈ st.names, n ∈ N

/-- In no state that statements over the names lead to does a statement over the names change what
is read for an account, unless it makes grants to, revokes them from, or drops this account or one
of its roles. -/
def NoLeak (cfg : Config) (N : Set Text) : Prop :=
  ∀ s, Reach (step cfg) (fun _ i => ∃ st, Mentions N i st) empty s →
    ∀ i st ys, Mentions N i st → st.targets = some ys →
      ∀ x ∈ N, (∀ y ∈ ys, y ≠ x ∧ y ∉ rolesOf s x) →
        SameReads cfg.toUserCodec s (execute cfg s i).1 x

variable (cfg : Config)

theorem execute_of_parse (s : Records) {i : Input} {st : Stmt} (h : parse i.toks i.scope = .ok st) :
    (execute cfg s i).1 = s ∨ (execute cfg s i).1 = (st.exec cfg s).1 := by
  unfold execute
  split_ifs
  · exact .inl rfl
  · exact .inl rfl
  · rw [h]
    exact .inr rfl

theorem membersIn_empty (N : Set Text) : MembersIn N empty := by
  intro k hk
  cases hk

variable {N : Set Text} {s : Records} {x y r : Text}

theorem membersIn_of_reach {cfg : Config}
    (h : Reach (step cfg) (fun _ i => ∃ st, Mentions N i st) empty s) : MembersIn N s := by
  refine h.invariant (membersIn_empty N) ?_
  rintro s s' i hs ⟨st, hparse, hnames⟩ hstep
  obtain rfl := Option.some.inj hstep
  rcases execute_of_parse cfg s hparse with heq | heq
  · rw [heq]
    exact hs
  · rw [heq]
    exact hs.exec hnames

theorem noLeak_of_separate {cfg : Config} (hN : Separate N) : NoLeak cfg N := by
  rintro s hs i st ys ⟨hparse, hnames⟩ htargets x hx hys
  rcases execute_of_parse cfg s hparse with heq | heq
  · rw [heq]
    exact SameReads.refl s x
  · rw [heq]
    exact sameReads_exec hN (membersIn_of_reach hs) hnames htargets hx hys

/-! ## The runs that leak -/

def createRoleInput (names : List Tok) : Input :=
  ⟨[.word ['c', 'r', 'e', 'a', 't', 'e'], .word ['r', 'o', 'l', 'e']] ++ names, .ok none, .admin⟩

def dropRoleInput (name : Text) : Input :=
  ⟨[.word ['d', 'r', 'o', 'p'], .word ['r', 'o', 'l', 'e'], .str name], .ok none, .admin⟩

def selectText : Text := ['s', 'e', 'l', 'e', 'c', 't']

def grantSelectInput (name : Text) : Input :=
  ⟨[.word ['g', 'r', 'a', 'n', 't'], .word selectText, .word ['o', 'n'], .word ['t'],
    .word ['t', 'o'], .str name], .ok (some ['t']), .admin⟩

def grantRoleInput (role name : Text) : Input :=
  ⟨[.word ['g', 'r', 'a', 'n', 't'], .str role, .word ['t', 'o'], .str name], .ok none, .admin⟩

/-- The roles `x`, `y` and `r`, and nothing else. -/
def threeRoles (cfg : Config) (x y r : Text) : Records :=
  commitWrite empty (rolePuts cfg x ++ (rolePuts cfg y ++ (rolePuts cfg r ++ [])))
    (staleAccountKeys empty x (rolePuts cfg x) ++
      (staleAccountKeys empty y (rolePuts cfg y) ++
        (staleAccountKeys empty r (rolePuts cfg r) ++ [])))

theorem mem_threeRoles {cfg : Config} {p : Text × Record} :
    p ∈ rolePuts cfg x ++ (rolePuts cfg y ++ (rolePuts cfg r ++ [])) ↔
      ∃ n, (n = x ∨ n = y ∨ n = r) ∧ p ∈ rolePuts cfg n := by
  simp only [mem_append, not_mem_nil, or_false, or_and_right, exists_or, exists_eq_left]

section ThreeRoles

variable (cfg : Config) {x y r n : Text} (hn : n = x ∨ n = y ∨ n = r)
include hn

theorem contains_threeRoles {k : Text} {v : Record} (hp : (k, v) ∈ rolePuts cfg n) :
    (threeRoles cfg x y r).contains k := by
  have hput : (lastValue (rolePuts cfg x ++ (rolePuts cfg y ++ (rolePuts cfg r ++ []))) k).isSome :=
    lastValue_isSome.mpr (mem_map.mpr ⟨(k, v), mem_threeRoles.mpr ⟨n, hn, hp⟩, rfl⟩)
  obtain ⟨w, hw⟩ := isSome_iff_exists.mp hput
  unfold OMap.contains threeRoles commitWrite
  rw [get_insertMany, hw]
  rfl

theorem user_threeRoles : (threeRoles cfg x y r).contains (userKey n) :=
  contains_threeRoles cfg hn mem_cons_self

theorem roleFlag_threeRoles : (threeRoles cfg x y r).contains (roleFlagKey n) :=
  contains_threeRoles cfg hn (mem_cons_of_mem _ mem_cons_self)

theorem ugrant_threeRoles : (threeRoles cfg x y r).get (ugrantKey n) = some (encodePrivset 0) := by
  have hlast : lastValue (rolePuts cfg x ++ (rolePuts cfg y ++ (rolePuts cfg r ++ [])))
      (ugrantKey n) = some (encodePrivset 0) := by
    refine lastValue_eq_some (mem_threeRoles.mpr ⟨n, hn, by simp [rolePuts]⟩) fun w hw => ?_
    obtain ⟨m, -, hm⟩ := mem_threeRoles.mp hw
    simp only [rolePuts, mem_cons, not_mem_nil, or_false, Prod.mk.injEq] at hm
    rcases hm with ⟨hkey, -⟩ | ⟨hkey, -⟩ | ⟨-, hval⟩
    · exact absurd (text_append_inj (f := .ugrant) (g := .user) hkey).1 (by decide)
    · exact absurd (text_append_inj (f := .ugrant) (g := .role) hkey).1 (by decide)
    · exact hval
  unfold threeRoles commitWrite
  rw [get_insertMany, hlast]
  rfl

end ThreeRoles

theorem membersIn_threeRoles (x y r : Text) : MembersIn ∅ (threeRoles cfg x y r) := by
  refine (membersIn_empty ∅).plain (b := (_, _)) fun p hp => ?_
  obtain ⟨n, -, hput⟩ := mem_threeRoles.mp hp
  exact rolePuts_noMember hput

theorem MembersIn.rolesOf_eq_nil (h : MembersIn ∅ s) (x : Text) : rolesOf s x = [] := by
  refine eq_nil_iff_forall_not_mem.mpr fun r hr => ?_
  obtain ⟨u, hu, -⟩ := h _ (mem_rolesOf.mp hr).1
    ((prefix_append _ _).trans (prefix_append _ _))
  exact hu

theorem tableGrant_threeRoles (x y r n table : Text) :
    (threeRoles cfg x y r).get (tableGrantKey n table) = none := by
  rw [eq_none_iff_forall_ne_some]
  intro v hv
  rcases get_commitWrite_of_put (b := (_, _)) hv with hget | ⟨p, hp, heq⟩
  · cases hget
  · obtain ⟨m, -, hput⟩ := mem_threeRoles.mp hp
    have hkey : p.1 = tgrant.text ++ (n ++ sep ++ lower table) :=
      heq.trans (append_assoc _ _ _)
    simp only [rolePuts, mem_cons, not_mem_nil, or_false] at hput
    rcases hput with rfl | rfl | rfl
    · exact absurd (text_append_inj (f := .user) hkey).1 (by decide)
    · exact absurd (text_append_inj (f := .role) hkey).1 (by decide)
    · exact absurd (text_append_inj (f := .ugrant) hkey).1 (by decide)

theorem execute_grantSelect {n : Text} (hn : s.contains (userKey n))
    (hnone : s.get (tableGrantKey n ['t']) = none) :
    (execute cfg s (grantSelectInput n)).1 =
      commitWrite s [(tableGrantKey n ['t'], encodePrivset select)] [] := by
  obtain ⟨u, hu⟩ := isSome_iff_exists.mp hn
  have hone : grantOne cfg true [selectText] [] (some ['t']) s n =
      .ok ([(tableGrantKey n ['t'], encodePrivset select)], []) := by
    simp only [grantOne, hu, grantTable, hnone]
    rfl
  show (grantAll cfg true [selectText] [] (some ['t']) s [n]).1 = _
  simp only [grantAll, hone]

theorem execute_grantRole {n : Text} (hr : s.contains (roleFlagKey r))
    (hn : s.contains (userKey n)) :
    (execute cfg s (grantRoleInput r n)).1 = commitWrite s [(roleMemberKey n r, [1])] [] := by
  show (commitBatch s (roleMembership s true [r] [n])).1 = _
  simp [roleMembership, commitBatch, hr, hn]

theorem execute_dropRole {n : Text} (hn : s.contains (userKey n)) :
    (execute cfg s (dropRoleInput n)).1 = commitWrite s [] (accountKeys s n) := by
  show (commitBatch s (dropAccounts s "DROP ROLE" false [n])).1 = _
  simp [dropAccounts, commitBatch, hn, Except.map, Batch.append]

abbrev Reached (cfg : Config) (N : Set Text) (s : Records) : Prop :=
  Reach (step cfg) (fun _ i => ∃ st, Mentions N i st) empty s

theorem Reached.execute {cfg : Config} (h : Reached cfg N s) {i : Input} {st : Stmt}
    (hi : Mentions N i st) {s' : Records} (hs : (execute cfg s i).1 = s') : Reached cfg N s' :=
  Reach.tail h ⟨st, hi⟩ (congrArg some hs)

theorem mentions_createRoles (hx : x ∈ N) (hy : y ∈ N) (hr : r ∈ N) :
    Mentions N (createRoleInput [.str x, .sym ',', .str y, .sym ',', .str r])
      (.createRole false [x, y, r]) := by
  refine ⟨rfl, fun n hn => ?_⟩
  simp only [Stmt.names, mem_cons, not_mem_nil, or_false] at hn
  rcases hn with rfl | rfl | rfl
  · exact hx
  · exact hy
  · exact hr

theorem mentions_dropRole (hx : x ∈ N) :
    Mentions N (dropRoleInput x) (.dropAccounts "DROP ROLE" false [x]) :=
  ⟨rfl, fun _ hn => mem_singleton.mp hn ▸ hx⟩

theorem mentions_grantSelect (hx : x ∈ N) :
    Mentions N (grantSelectInput x) (.grantRevoke true [selectText] [] (some ['t']) [x]) :=
  ⟨rfl, fun _ hn => mem_singleton.mp hn ▸ hx⟩

theorem mentions_grantRole (hr : r ∈ N) (hx : x ∈ N) :
    Mentions N (grantRoleInput r x) (.roleMembership true [r] [x]) := by
  refine ⟨rfl, fun n hn => ?_⟩
  simp only [Stmt.names, singleton_append, mem_cons, not_mem_nil, or_false] at hn
  rcases hn with rfl | rfl
  · exact hr
  · exact hx

theorem reached_threeRoles (hx : x ∈ N) (hy : y ∈ N) (hr : r ∈ N) :
    Reached cfg N (threeRoles cfg x y r) := by
  exact Reached.execute .refl (mentions_createRoles hx hy hr) rfl

theorem effective_of_noRoles (h : MembersIn ∅ s) (x table : Text) :
    effectiveTablePrivset cfg.toUserCodec s x table =
      ownGlobalPrivset cfg.toUserCodec s x ||| ownTablePrivset s x table := by
  unfold effectiveTablePrivset effectiveGlobalPrivset
  rw [h.rolesOf_eq_nil]
  rfl

theorem get_commitWrite_single (s : Records) (k : Text) (v : Record) :
    (commitWrite s [(k, v)] []).get k = some v := by
  unfold commitWrite
  rw [get_insertMany, lastValue_eq_some mem_cons_self fun w hw => ?_, some_or]
  exact congrArg Prod.snd (mem_singleton.mp hw)

theorem get_put_other {f g : Family} (hf : f ≠ g) (a b t : Text) (v : Record) :
    (commitWrite s [(g.text ++ a ++ b, v)] []).get (f.text ++ t) = s.get (f.text ++ t) := by
  refine get_commitWrite_of_other (b := (_, _)) (fun p hp heq => ?_) not_mem_nil
  obtain rfl := mem_singleton.mp hp
  exact hf (text_append_inj ((append_assoc _ _ _).symm.trans heq)).1.symm

/-- A record of another kind than those of `accountKeys` stays, and so does one of another name. -/
theorem get_dropped {k : Text} (howns : ¬ Owns x k) (hk : ¬ rolemember.text <+: k) :
    (commitWrite s [] (accountKeys s x)).get k = s.get k := by
  refine get_commitWrite_of_other (b := (_, _)) (fun p hp => by cases hp) fun hmem => ?_
  rcases mem_accountKeys hmem with h | ⟨h, -⟩
  · exact howns h
  · exact hk h

theorem get_dropped_of_mem {k : Text} (h : k ∈ accountKeys s x) :
    (commitWrite s [] (accountKeys s x)).get k = none :=
  get_eraseMany_of_mem (.inl h)

/-- Two roles, one of them with a grant of a table. -/
theorem reached_granted (hx : x ∈ N) (hy : y ∈ N) :
    ∃ s, Reached cfg N s ∧ MembersIn ∅ s ∧ s.contains (userKey x) ∧
      s.get (ugrantKey y) = some (encodePrivset 0) ∧
      s.get (tableGrantKey y ['t']) = some (encodePrivset select) := by
  have hyuser := user_threeRoles cfg (x := x) (y := y) (r := y) (.inr (.inl rfl))
  have hgrant := execute_grantSelect cfg hyuser (tableGrant_threeRoles cfg x y y y ['t'])
  refine ⟨_, (reached_threeRoles cfg hx hy hy).execute (mentions_grantSelect hy) hgrant, ?_, ?_,
    (get_put_other (f := .ugrant) (by decide) _ _ y _).trans
    (ugrant_threeRoles cfg (.inr (.inl rfl))),
    get_commitWrite_single _ _ _⟩
  · refine (membersIn_threeRoles cfg x y y).plain (b := (_, _)) fun p hp => ?_
    obtain rfl := mem_singleton.mp hp
    exact ⟨.tgrant, y ++ sep ++ lower ['t'], append_assoc _ _ _, by decide⟩
  · have hxuser := user_threeRoles cfg (y := y) (r := y) (Or.inl (rfl : x = x))
    unfold OMap.contains at hxuser ⊢
    rw [userKey, tableGrantKey, tableGrantPrefix, get_put_other (by decide)]
    exact hxuser

/-- An account that begins the name of another takes its grants along when it is dropped. -/
theorem apart_of_noLeak {cfg : Config} (h : NoLeak cfg N) (hx : x ∈ N) (hy : y ∈ N) (hne : x ≠ y) :
    ¬ x ++ sep <+: y ++ sep := by
  intro hbegins
  obtain ⟨s, hreach, hmembers, huser, hugrant, htable⟩ := reached_granted cfg hx hy
  have hprivset := (h s hreach (dropRoleInput x) _ [x] (mentions_dropRole hx) rfl y hy
    fun z hz => by
    rw [mem_singleton.mp hz, hmembers.rolesOf_eq_nil]
    exact ⟨hne, not_mem_nil⟩).privset ['t']
  rw [execute_dropRole cfg huser] at hprivset
  have hdropped : MembersIn ∅ (commitWrite s [] (accountKeys s x)) :=
    hmembers.plain (b := (_, _)) fun p hp => by cases hp
  have hgone : (commitWrite s [] (accountKeys s x)).get (tableGrantKey y ['t']) = none := by
    refine get_dropped_of_mem (mem_append_left _ (mem_append_right _ ?_))
    refine mem_flatMap.mpr ⟨tableGrantPrefix x, mem_cons_self, mem_scanKeys.mpr ⟨?_, ?_⟩⟩
    · exact isSome_iff_exists.mpr ⟨_, htable⟩
    · exact ((prefix_append_right_inj _).mpr hbegins).trans (prefix_append _ _)
  have hkept : (commitWrite s [] (accountKeys s x)).get (ugrantKey y) = s.get (ugrantKey y) := by
    refine get_dropped ?_ (not_rolemember (f := .ugrant) (by decide) y)
    rintro ⟨f, r, heq, howns⟩
    obtain ⟨rfl, rfl⟩ := text_append_inj (f := .ugrant) heq
    exact hne (Eq.symm howns)
  rw [effective_of_noRoles cfg hmembers, effective_of_noRoles cfg hdropped] at hprivset
  unfold ownGlobalPrivset ownTablePrivset at hprivset
  rw [hkept, hugrant, hgone, htable] at hprivset
  have hflags : decodePrivset (encodePrivset 0) ||| tableFlags none =
      decodePrivset (encodePrivset 0) ||| tableFlags (some (encodePrivset select)) := hprivset
  exact absurd hflags (by decide)

/-- Three roles, and a membership of the first in the third. -/
theorem reached_member (hx : x ∈ N) (hy : y ∈ N) (hr : r ∈ N) :
    ∃ s, Reached cfg N s ∧ s.contains (userKey y) ∧ r ∈ rolesOf s x ∧ ∀ z ∈ rolesOf s x, z = r := by
  have hgrant := execute_grantRole cfg
    (roleFlag_threeRoles cfg (x := x) (y := y) (.inr (.inr rfl)))
    (user_threeRoles cfg (y := y) (r := r) (.inl rfl))
  refine ⟨_, (reached_threeRoles cfg hx hy hr).execute (mentions_grantRole hr hx) hgrant, ?_,
    mem_rolesOf.mpr ⟨?_, ?_⟩, fun z hz => ?_⟩
  · have hyuser := user_threeRoles cfg (x := x) (r := r) (Or.inr (Or.inl (rfl : y = y)))
    unfold OMap.contains at hyuser ⊢
    rw [userKey, roleMemberKey, roleMemberPrefix, get_put_other (by decide)]
    exact hyuser
  · exact isSome_iff_exists.mpr ⟨_, get_commitWrite_single _ _ _⟩
  · have hflag := roleFlag_threeRoles cfg (x := x) (y := y) (Or.inr (Or.inr (rfl : r = r)))
    have huser := user_threeRoles cfg (x := x) (y := y) (Or.inr (Or.inr (rfl : r = r)))
    unfold isRole
    unfold OMap.contains at hflag huser ⊢
    rw [Bool.and_eq_true, userKey, roleFlagKey, roleMemberKey, roleMemberPrefix,
      get_put_other (by decide),
      get_put_other (by decide)]
    exact ⟨hflag, huser⟩
  · obtain ⟨v, hv⟩ := isSome_iff_exists.mp (mem_rolesOf.mp hz).1
    rcases get_commitWrite_of_put (b := (_, _)) hv with hget | ⟨p, hp, heq⟩
    · obtain ⟨u, hu, -⟩ := membersIn_threeRoles cfg x y r _ (isSome_iff_exists.mpr ⟨v, hget⟩)
        ((prefix_append _ _).trans (prefix_append _ _))
      exact absurd hu (Set.notMem_empty u)
    · obtain rfl := mem_singleton.mp hp
      exact (append_cancel_left heq).symm

/-- An account that a membership seems to name as its role takes it along when it is dropped. -/
theorem role_of_noLeak {cfg : Config} (h : NoLeak cfg N) (hx : x ∈ N) (hy : y ∈ N) (hr : r ∈ N)
    (hne : x ≠ y) (hname : (splitOnce (x ++ sep ++ r)).any (fun p => p.2 == y) = true) : r = y := by
  by_contra hry
  obtain ⟨s, hreach, huser, hrole, honly⟩ := reached_member cfg hx hy hr
  have hroles := (h s hreach (dropRoleInput y) _ [y] (mentions_dropRole hy) rfl x hx fun z hz => by
    rw [mem_singleton.mp hz]
    exact ⟨hne.symm, fun hmem => hry (honly y hmem).symm⟩).roles
  rw [execute_dropRole cfg huser] at hroles
  have hgone : (commitWrite s [] (accountKeys s y)).get (roleMemberKey x r) = none := by
    refine get_dropped_of_mem (mem_append_right _ (mem_filter.mpr ⟨mem_scanKeys.mpr ⟨?_, ?_⟩, ?_⟩))
    · exact (mem_rolesOf.mp hrole).1
    · exact (prefix_append _ _).trans (prefix_append _ _)
    · exact hname
  rw [← hroles, mem_rolesOf, OMap.contains, hgone] at hrole
  exact absurd hrole.1 Bool.false_ne_true

/-- No statement over a set of names changes what is read for accounts that it is not about,
whatever statements over these names went before, exactly when the names are separate. -/
theorem grants_separate (cfg : Config) (N : Set Text) : NoLeak cfg N ↔ Separate N := by
  constructor
  · intro h x hx y hy hne
    refine ⟨⟨apart_of_noLeak h hx hy hne, apart_of_noLeak h hy hx hne.symm⟩, ?_⟩
    intro r hr hname
    exact role_of_noLeak h hx hy hr hne hname
  · exact noLeak_of_separate

/-! ## A leak -/

/-- No password policy; the records, the digests and the comparison of identifiers do not matter
here. -/
def openConfig : Config where
  encodeUser := fun _ => []
  decodeUser := fun _ => none
  policyOff := true
  minLen := 8
  requireMixed := true
  isAlphabetic := Char.isAlpha
  passwordDigest := fun _ => ⟨List.replicate 20 0, length_replicate⟩
  identifierEq := fun a b => lower a == lower b

def createUserInput (name : Text) : Input :=
  ⟨[.word ['c', 'r', 'e', 'a', 't', 'e'], .word ['u', 's', 'e', 'r'], .str name], .ok none, .admin⟩

/-- `GRANT SELECT (c) ON t TO 'name'`. -/
def grantColumnInput (name : Text) : Input :=
  ⟨[.word ['g', 'r', 'a', 'n', 't'], .word selectText, .sym '(', .word ['c'], .sym ')',
    .word ['o', 'n'], .word ['t'], .word ['t', 'o'], .str name], .ok (some ['t']), .admin⟩

/-- The users `a` and `a::b`. -/
def twoUsers : Records :=
  (execute openConfig (execute openConfig empty (createUserInput ['a'])).1
    (createUserInput ['a', ':', ':', 'b'])).1

/-- `GRANT SELECT (c) ON t TO 'a::b'` restricts `a` to the column `t::c` of the table `b`. -/
theorem column_grant_leaks :
    rolesOf twoUsers ['a'] = [] ∧
      columnGrants twoUsers ['a'] ['b'] = none ∧
      columnGrants (execute openConfig twoUsers
        (grantColumnInput ['a', ':', ':', 'b'])).1 ['a'] ['b'] =
        some [['t', ':', ':', 'c']] := by
  decide

end ElyraSql.Accounts
