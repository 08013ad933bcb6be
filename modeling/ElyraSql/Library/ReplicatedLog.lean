import Mathlib.Data.Finset.Basic
import Mathlib.Tactic

/-!
# Replicated logs

Nodes keep logs of entries, each with the term of the leader that created it. A candidate whose log
is up to date with those of a quorum becomes the leader of a term; a leader only appends; the other
nodes of its term take over a beginning of its log. The state keeps the whole history.

A node acknowledges an entry of the leader's own term once its durable log holds it; a leader counts
its own copy before that, as long as it runs. Crashes keep at least the durable log. `safe` says
whether a crash spares the entries below the commit index of the node; only then do committed
entries survive.
-/

namespace ReplicatedLog

open List Option Function

variable {V α : Type}

/-- Entries in index order, each with its term. The entry of index `i` has position `i - 1`. -/
abbrev Log (α : Type) := List (Nat × α)

/-- The state of the nodes, and the history. -/
structure State (V α : Type) where
  term : V → Nat
  log : V → Log α
  disk : V → Log α
  /-- the vote of a node in a term, and its log at that time -/
  vote : V → Nat → Option V
  vlog : V → Nat → Log α
  /-- the leader of a term, its log when elected, and its log as it grew in that term -/
  leader : Nat → Option V
  elog : Nat → Log α
  llog : Nat → Log α
  /-- the process that led the term still runs on the node -/
  led : V → Nat → Prop
  ack : V → Nat → Nat → Prop
  commit : Nat → Nat → Prop
  cidx : V → Nat

def lastTerm (l : Log α) : Nat := (l.getLast?.map Prod.fst).getD 0

/-- The election restriction. -/
def UpToDate (cand own : Log α) : Prop :=
  lastTerm own < lastTerm cand ∨ lastTerm cand = lastTerm own ∧ own.length ≤ cand.length

def Blocking (Quorum : Finset V → Prop) (B : Finset V) : Prop :=
  ∀ Q, Quorum Q → ∃ v ∈ B, v ∈ Q

namespace State

variable (s : State V α)

/-- The first `i` entries of the leader of `t`. -/
def upTo (t i : Nat) : Log α := (s.llog t).take i

/-- Index `i` of the leader of `t` holds an entry of its own term. -/
def Own (t i : Nat) : Prop := (s.elog t).length < i ∧ i ≤ (s.llog t).length

/-- The node has acknowledged the entry, or has created it as a leader and still runs. -/
def Holds (v : V) (t i : Nat) : Prop := s.ack v t i ∨ s.led v t ∧ s.Own t i

/-- Some leader between `t` and `m` was elected without the entry. -/
def Lacking (t i m : Nat) : Prop :=
  ∃ w, t < w ∧ w < m ∧ s.leader w ≠ none ∧ ¬ s.upTo t i <+: s.elog w

/-- Every entry was created by the leader of its term, after the entries before it. -/
def FromLeaders (l : Log α) : Prop := ∀ k e, l[k]? = some e → l.take (k + 1) <+: s.llog e.1

/-- Every node holds `q` durably, and so does every leader from some term on that no node is
behind. -/
def Stable (q : Log α) : Prop :=
  ∃ tc, (∀ v, tc ≤ s.term v ∧ q <+: s.disk v) ∧ ∀ t, tc ≤ t → s.leader t ≠ none → q <+: s.llog t

end State

/-- The invariant. `safe` is whether commits are protected from crashes. -/
structure Inv (Quorum : Finset V → Prop) (safe : Prop) (s : State V α) : Prop where
  leader_zero : s.leader 0 = none
  unled : ∀ t, s.leader t = none → s.llog t = []
  elog_le : ∀ t, s.elog t <+: s.llog t
  elog_term : ∀ t, ∀ e ∈ s.elog t, e.1 < t
  own_term : ∀ t, ∀ e ∈ (s.llog t).drop (s.elog t).length, e.1 = t
  llog_from : ∀ t, s.FromLeaders (s.llog t)
  log_from : ∀ v, s.FromLeaders (s.log v)
  vlog_from : ∀ v t, s.FromLeaders (s.vlog v t)
  disk_le : ∀ v, s.disk v <+: s.log v
  log_term : ∀ v, ∀ e ∈ s.log v, e.1 ≤ s.term v
  vote_term : ∀ v t, s.vote v t ≠ none → t ≤ s.term v
  vote_for : ∀ v t c, s.vote v t = some c →
    s.vote c t = some c ∧ UpToDate (s.vlog c t) (s.vlog v t)
  vote_holds : ∀ v u, s.vote v u ≠ none → ∀ t i, t < u → s.Holds v t i →
    s.upTo t i <+: s.vlog v u ∨ s.Lacking t i (u + 1)
  leader_term : ∀ u c, s.leader u = some c → u ≤ s.term c
  elected : ∀ u c, s.leader u = some c → ∃ Q, Quorum Q ∧ ∀ v ∈ Q, s.vote v u = some c ∧
    ∀ t i, t < u → s.Holds v t i → s.upTo t i <+: s.elog u ∨ s.Lacking t i u
  led_log : ∀ v t, s.led v t → s.leader t = some v ∧ (s.term v = t → s.log v = s.llog t)
  ack_own : ∀ v t i, s.ack v t i → s.Own t i ∧ t ≤ s.term v
  ack_down : ∀ v t i j, s.ack v t i → (s.elog t).length < j → j ≤ i → s.ack v t j
  holds_log : ∀ v t i, s.Holds v t i → s.upTo t i <+: s.log v ∨ s.Lacking t i (s.term v + 1)
  ack_disk : ∀ v t i, s.ack v t i → s.upTo t i <+: s.disk v ∨ s.Lacking t i (s.term v + 1)
  committed : safe → ∀ t i, s.commit t i → s.Own t i ∧ ∃ B, Blocking Quorum B ∧
    ∀ v ∈ B, s.ack v t i ∨ s.led v t ∧ i ≤ s.cidx v
  known : safe → ∀ v, s.cidx v ≤ (s.log v).length ∧ (s.cidx v = 0 ∨
    ∃ t i, t ≤ s.term v ∧ s.commit t i ∧ (s.log v).take (s.cidx v) <+: s.upTo t i)

/-! ## Logs of leaders -/

variable {e : Nat × α} {l l' : Log α} {t i : Nat} {B : Finset V}

theorem lastTerm_eq (h : l.getLast? = some e) : lastTerm l = e.1 := by
  rw [lastTerm, h]
  rfl

theorem getElem?_of_beginning (h : l <+: l') {k : Nat} (he : l[k]? = some e) : l'[k]? = some e := by
  obtain ⟨r, rfl⟩ := h
  rw [getElem?_append_left (List.getElem?_eq_some_iff.mp he).1, he]

/-- What holds at the changed place and held everywhere before holds everywhere. -/
theorem forall_update {ι β : Type} [DecidableEq ι] {f : ι → β} {n : ι} {x : β} (P : ι → β → Prop)
    (hn : P n x) (h : ∀ v, P v (f v)) : ∀ v, P v (update f n x v) :=
  (forall_update_iff f _).mpr ⟨hn, fun v _ => h v⟩

namespace State

variable {s : State V α}

variable (h : s.FromLeaders l)
include h

theorem FromLeaders.mono {s' : State V α} (hl : ∀ t, s.llog t <+: s'.llog t) : s'.FromLeaders l :=
  fun k e he => (h k e he).trans (hl e.1)

theorem FromLeaders.of_le (hp : l' <+: l) : s.FromLeaders l' := by
  intro k e he
  have hk := (List.getElem?_eq_some_iff.mp he).1
  have htake : l'.take (k + 1) = l.take (k + 1) := by
    rw [prefix_iff_eq_take.mp hp, take_take, min_eq_left hk]
  rw [htake]
  exact h k e (getElem?_of_beginning hp he)

/-- Logs that have an entry of one term at one position are equal up to there. -/
theorem FromLeaders.matching (h' : s.FromLeaders l') {k : Nat} {e' : Nat × α}
    (he : l[k]? = some e) (he' : l'[k]? = some e') (ht : e.1 = e'.1) :
    l.take (k + 1) = l'.take (k + 1) := by
  have hk := (List.getElem?_eq_some_iff.mp he).1
  have hk' := (List.getElem?_eq_some_iff.mp he').1
  have hp := h k e he
  rw [ht] at hp
  refine (prefix_of_prefix_length_le hp (h' k e' he') ?_).eq_of_length ?_ <;>
    simp only [length_take] <;> omega

/-- A nonempty log is a beginning of the log of the leader of its last term. -/
theorem FromLeaders.last (hne : l ≠ []) :
    ∃ e, l.getLast? = some e ∧ e ∈ l ∧ l[l.length - 1]? = some e ∧ l <+: s.llog e.1 := by
  have hlen : 0 < l.length := length_pos_iff.mpr hne
  have hlast : l.getLast? = some (l.getLast hne) := getLast?_eq_some_getLast hne
  have hget : l[l.length - 1]? = some (l.getLast hne) := by
    rw [← getLast?_eq_getElem?, hlast]
  refine ⟨l.getLast hne, hlast, getLast_mem hne, hget, ?_⟩
  have := h _ _ hget
  rwa [show l.length - 1 + 1 = l.length by omega, take_length] at this

end State

/-! ## What the invariant says about terms -/

section Facts

variable {Quorum : Finset V → Prop} {safe : Prop} {s : State V α}

namespace Inv

variable (h : Inv Quorum safe s)
include h

theorem llog_eq (t : Nat) : s.llog t = s.elog t ++ (s.llog t).drop (s.elog t).length := by
  obtain ⟨r, hr⟩ := h.elog_le t
  rw [← hr, drop_left]

/-- The entries of the leader of `t` are of earlier terms up to its election and of its own
afterwards. -/
theorem llog_getElem? {k : Nat} (he : (s.llog t)[k]? = some e) :
    e.1 < t ∧ k < (s.elog t).length ∨ e.1 = t ∧ (s.elog t).length ≤ k := by
  rw [h.llog_eq t] at he
  by_cases hk : k < (s.elog t).length
  · rw [getElem?_append_left hk] at he
    exact Or.inl ⟨h.elog_term t e (mem_of_getElem? he), hk⟩
  · rw [getElem?_append_right (not_lt.mp hk)] at he
    exact Or.inr ⟨h.own_term t e (mem_of_getElem? he), not_lt.mp hk⟩

theorem llog_term (he : e ∈ s.llog t) : e.1 ≤ t := by
  obtain ⟨k, hk⟩ := mem_iff_getElem?.mp he
  rcases h.llog_getElem? hk with ⟨hlt, -⟩ | ⟨heq, -⟩
  · exact hlt.le
  · exact heq.le

theorem leader_ne_none (hne : s.llog t ≠ []) : s.leader t ≠ none :=
  mt (h.unled t) hne

theorem own_leader (ho : s.Own t i) : s.leader t ≠ none := by
  refine h.leader_ne_none fun hnil => ?_
  obtain ⟨h₁, h₂⟩ := ho
  rw [hnil, length_nil] at h₂
  omega

theorem from_sorted (hl : s.FromLeaders l) : l.Pairwise fun a b => a.1 ≤ b.1 := by
  rw [pairwise_iff_getElem]
  intro i j hi hj hij
  have hp := hl j l[j] (getElem?_eq_getElem hj)
  refine h.llog_term (hp.subset ?_)
  exact mem_take_iff_getElem.mpr ⟨i, by omega, rfl⟩

/-- A log whose last term is `t` reaches past the election of the leader of `t`. -/
theorem elog_le_of_last (hl : l <+: s.llog t) (hlast : l[l.length - 1]? = some e) (he : e.1 = t) :
    (s.elog t).length < l.length ∧ s.elog t <+: l := by
  have hlen := (List.getElem?_eq_some_iff.mp hlast).1
  have hget : (s.llog t)[l.length - 1]? = some e := getElem?_of_beginning hl hlast
  rcases h.llog_getElem? hget with ⟨hlt, -⟩ | ⟨-, hle⟩
  · omega
  · exact ⟨by omega, prefix_of_prefix_length_le (h.elog_le t) hl (by omega)⟩

theorem own_getElem? (ho : s.Own t i) : ∃ e, (s.llog t)[i - 1]? = some e ∧ e.1 = t := by
  obtain ⟨h₁, h₂⟩ := ho
  have hlt : i - 1 < (s.llog t).length := by omega
  refine ⟨(s.llog t)[i - 1], getElem?_eq_getElem hlt, ?_⟩
  rcases h.llog_getElem? (getElem?_eq_getElem hlt) with ⟨-, hlt⟩ | ⟨he, -⟩
  · omega
  · exact he

/-- A log that holds an entry of `t` ends in a term no less than `t`. -/
theorem last_term_le (hl : s.FromLeaders l) (ho : s.Own t i) (hp : s.upTo t i <+: l) :
    ∃ e, l.getLast? = some e ∧ l[l.length - 1]? = some e ∧ l <+: s.llog e.1 ∧ t ≤ e.1 := by
  obtain ⟨a, ha, hat⟩ := h.own_getElem? ho
  have hi : 0 < i := by have := ho.1; omega
  have hal : a ∈ l := by
    refine hp.subset (mem_of_getElem? (i := i - 1) ?_)
    rw [State.upTo, getElem?_take, if_pos (by omega), ha]
  obtain ⟨e, hlast, -, hget, hle⟩ := hl.last (ne_nil_of_mem hal)
  exact ⟨e, hlast, hget, hle, hat ▸ h.llog_term (hle.subset hal)⟩

/-- A candidate that is up to date with a voter has the voter's entries, unless a leader in
between lacks them. -/
theorem upToDate_holds {cand own : Log α} (hc : s.FromLeaders cand) (ho : s.FromLeaders own)
    (hu : UpToDate cand own) {m : Nat} (hown : s.Own t i) (hp : s.upTo t i <+: own)
    (hm : ∀ e ∈ cand, e.1 < m) : s.upTo t i <+: cand ∨ s.Lacking t i m := by
  obtain ⟨e, hlast, hget, hle, hte⟩ := h.last_term_le ho hown hp
  have hcne : cand ≠ [] := by
    rintro rfl
    rcases hu with hu | ⟨-, hu⟩
    · exact absurd hu (by simp [lastTerm])
    · have := (List.getElem?_eq_some_iff.mp hget).1
      simp only [length_nil] at hu
      omega
  obtain ⟨c, hclast, hcmem, hcget, hcle⟩ := hc.last hcne
  rw [UpToDate, lastTerm_eq hlast, lastTerm_eq hclast] at hu
  rcases hu with hlt | ⟨heq, hlen⟩
  · -- the candidate ends in a later term, so it has all that its leader was elected with
    by_cases hw : s.upTo t i <+: s.elog c.1
    · exact Or.inl (hw.trans (h.elog_le_of_last hcle hcget rfl).2)
    · refine Or.inr ⟨c.1, by omega, hm c hcmem, h.leader_ne_none ?_, hw⟩
      rintro hnil
      rw [hnil, prefix_nil] at hcle
      exact hcne hcle
  · rw [heq] at hcle
    exact Or.inl (hp.trans (prefix_of_prefix_length_le hle hcle hlen))

/-! ## Leader completeness -/

/-- Entries held by a blocking set are in the log of every later leader. -/
theorem complete (hB : Blocking Quorum B) (hh : ∀ v ∈ B, s.Holds v t i) (u : Nat) (htu : t < u)
    (hu : s.leader u ≠ none) : s.upTo t i <+: s.elog u := by
  induction u using Nat.strong_induction_on with
  | _ u ih =>
    obtain ⟨c, hc⟩ := ne_none_iff_exists'.mp hu
    obtain ⟨Q, hQ, hv⟩ := h.elected u c hc
    obtain ⟨v, hvB, hvQ⟩ := hB Q hQ
    rcases (hv v hvQ).2 t i htu (hh v hvB) with hp | ⟨w, htw, hwu, hw, hno⟩
    · exact hp
    · exact absurd (ih w hwu htw hw) hno

theorem not_lacking (hB : Blocking Quorum B) (hh : ∀ v ∈ B, s.Holds v t i) (m : Nat) :
    ¬ s.Lacking t i m := by
  rintro ⟨w, htw, -, hw, hno⟩
  exact hno (h.complete hB hh w htw hw)

theorem committed_holds (hs : safe) (hc : s.commit t i) :
    s.Own t i ∧ ∃ B, Blocking Quorum B ∧ ∀ v ∈ B, s.Holds v t i := by
  obtain ⟨ho, B, hB, hv⟩ := h.committed hs t i hc
  exact ⟨ho, B, hB, fun v hvB => (hv v hvB).imp id fun hl => ⟨hl.1, ho⟩⟩

/-- A committed entry is in the log of its leader and of every later one. -/
theorem committed_llog (hs : safe) {u : Nat} (hc : s.commit t i) (htu : t ≤ u)
    (hu : s.leader u ≠ none) : s.upTo t i <+: s.llog u := by
  obtain ⟨-, B, hB, hh⟩ := h.committed_holds hs hc
  rcases htu.eq_or_lt with rfl | hlt
  · exact List.take_prefix i _
  · exact (h.complete hB hh u hlt hu).trans (h.elog_le u)

theorem committed_agree (hs : safe) {t' i' : Nat} (hc : s.commit t i) (hc' : s.commit t' i') :
    s.upTo t i <+: s.upTo t' i' ∨ s.upTo t' i' <+: s.upTo t i := by
  rcases le_total t t' with hle | hle
  · have hl := h.own_leader (h.committed hs t' i' hc').1
    exact prefix_or_prefix_of_prefix (h.committed_llog hs hc hle hl) (List.take_prefix i' _)
  · have hl := h.own_leader (h.committed hs t i hc).1
    exact prefix_or_prefix_of_prefix (List.take_prefix i _) (h.committed_llog hs hc' hle hl)

end Inv

end Facts

/-! ## Actions -/

namespace State

/-- The state before anything happened. -/
def init : State V α where
  term := fun _ => 0
  log := fun _ => []
  disk := fun _ => []
  vote := fun _ _ => none
  vlog := fun _ _ => []
  leader := fun _ => none
  elog := fun _ => []
  llog := fun _ => []
  led := fun _ _ => False
  ack := fun _ _ _ => False
  commit := fun _ _ => False
  cidx := fun _ => 0

variable (s : State V α)

/-- `c` becomes the leader of its term. -/
def elect (c : V) : State V α :=
  { s with
    leader := update s.leader (s.term c) (some c)
    elog := update s.elog (s.term c) (s.log c)
    llog := update s.llog (s.term c) (s.log c)
    led := fun v u => v = c ∧ u = s.term c ∨ s.led v u }

variable {s} {c : V} {t : Nat}

@[simp] theorem elect_leader : (s.elect c).leader t = if t = s.term c then some c else s.leader t :=
  update_apply ..

@[simp] theorem elect_elog : (s.elect c).elog t = if t = s.term c then s.log c else s.elog t :=
  update_apply ..

@[simp] theorem elect_llog : (s.elect c).llog t = if t = s.term c then s.log c else s.llog t :=
  update_apply ..

variable (s) [DecidableEq V]

/-- `n` hears of a later term. -/
def bump (n : V) (t : Nat) : State V α := { s with term := update s.term n t }

/-- `n` votes in its term. -/
def castVote (n c : V) : State V α :=
  { s with
    vote := fun v u => if v = n ∧ u = s.term n then some c else s.vote v u
    vlog := fun v u => if v = n ∧ u = s.term n then s.log n else s.vlog v u }

/-- The leader `n` appends an entry of its term. -/
def append (n : V) (a : α) : State V α :=
  { s with
    log := update s.log n (s.log n ++ [(s.term n, a)])
    llog := update s.llog (s.term n) (s.log n ++ [(s.term n, a)]) }

/-- `n` makes its log durable. What it holds as a leader is then acknowledged. -/
def sync (n : V) : State V α :=
  { s with
    disk := update s.disk n (s.log n)
    ack := fun v t i => s.ack v t i ∨ v = n ∧ s.Holds n t i }

/-- `n` replaces its log by `l`, durably, and acknowledges what `l` has of its term. -/
def accept (n : V) (l : Log α) : State V α :=
  { s with
    log := update s.log n l
    disk := update s.disk n l
    ack := fun v t i => s.ack v t i ∨
      v = n ∧ t = s.term n ∧ (s.elog t).length < i ∧ i ≤ l.length }

/-- `n` counts the entry `i` of the term `t` it has led as committed. -/
def commitAt (n : V) (t i : Nat) : State V α :=
  { s with
    commit := fun u j => s.commit u j ∨ u = t ∧ j = i
    cidx := update s.cidx n i }

/-- `n` learns a commit index. -/
def learn (n : V) (i : Nat) : State V α := { s with cidx := update s.cidx n i }

/-- `n` restarts with the log `d`. The commits it took part in as a leader become
acknowledgements. -/
def crash (n : V) (d : Log α) (i : Nat) : State V α :=
  { s with
    log := update s.log n d
    disk := update s.disk n d
    led := fun v t => v ≠ n ∧ s.led v t
    ack := fun v t j => s.ack v t j ∨
      v = n ∧ s.led n t ∧ s.Own t j ∧ ∃ k, j ≤ k ∧ s.commit t k ∧ s.upTo t k <+: d
    cidx := update s.cidx n i }

variable {s} {n c v : V} {t u i : Nat} {l d : Log α} {a : α}

@[simp] theorem bump_term : (s.bump n t).term v = if v = n then t else s.term v :=
  update_apply ..

@[simp] theorem castVote_vote :
    (s.castVote n c).vote v u = if v = n ∧ u = s.term n then some c else s.vote v u := rfl

@[simp] theorem castVote_vlog :
    (s.castVote n c).vlog v u = if v = n ∧ u = s.term n then s.log n else s.vlog v u := rfl

@[simp] theorem append_log :
    (s.append n a).log v = if v = n then s.log n ++ [(s.term n, a)] else s.log v :=
  update_apply ..

@[simp] theorem append_llog :
    (s.append n a).llog t = if t = s.term n then s.log n ++ [(s.term n, a)] else s.llog t :=
  update_apply ..

@[simp] theorem sync_disk : (s.sync n).disk v = if v = n then s.log n else s.disk v :=
  update_apply ..

@[simp] theorem accept_log : (s.accept n l).log v = if v = n then l else s.log v :=
  update_apply ..

@[simp] theorem accept_disk : (s.accept n l).disk v = if v = n then l else s.disk v :=
  update_apply ..

@[simp] theorem commitAt_cidx : (s.commitAt n t i).cidx v = if v = n then i else s.cidx v :=
  update_apply ..

@[simp] theorem learn_cidx : (s.learn n i).cidx v = if v = n then i else s.cidx v :=
  update_apply ..

@[simp] theorem crash_log : (s.crash n d i).log v = if v = n then d else s.log v :=
  update_apply ..

@[simp] theorem crash_disk : (s.crash n d i).disk v = if v = n then d else s.disk v :=
  update_apply ..

@[simp] theorem crash_cidx : (s.crash n d i).cidx v = if v = n then i else s.cidx v :=
  update_apply ..

end State

/-! ## Every action keeps the invariant -/

namespace Inv

variable {Quorum : Finset V → Prop} {safe : Prop} {s : State V α}

theorem init : Inv Quorum safe (State.init : State V α) where
  leader_zero := rfl
  unled _ _ := rfl
  elog_le _ := nil_prefix
  elog_term _ _ h := nomatch h
  own_term _ _ h := nomatch h
  llog_from _ _ _ h := nomatch h
  log_from _ _ _ h := nomatch h
  vlog_from _ _ _ _ h := nomatch h
  disk_le _ := nil_prefix
  log_term _ _ h := nomatch h
  vote_term _ _ h := absurd rfl h
  vote_for _ _ _ h := nomatch h
  vote_holds _ _ h := absurd rfl h
  leader_term _ _ h := nomatch h
  elected _ _ h := nomatch h
  led_log _ _ h := h.elim
  ack_own _ _ _ h := h.elim
  ack_down _ _ _ _ h := h.elim
  holds_log _ _ _ h := h.elim False.elim fun h => h.1.elim
  ack_disk _ _ _ h := h.elim
  committed _ _ _ h := h.elim
  known _ _ := ⟨le_rfl, Or.inl rfl⟩

theorem lacking_mono {m m' : Nat} (h : s.Lacking t i m) (hm : m ≤ m') : s.Lacking t i m' := by
  obtain ⟨w, htw, hwm, hw, hno⟩ := h
  exact ⟨w, htw, hwm.trans_le hm, hw, hno⟩

theorem elect_holds (h : Inv Quorum safe s) {c : V} (hl : s.leader (s.term c) = none) :
    (∀ u i, (s.elect c).Own u i ↔ s.Own u i) ∧
      (∀ v u i, (s.elect c).Holds v u i ↔ s.Holds v u i) ∧
      (∀ {u i}, s.Own u i → (s.elect c).upTo u i = s.upTo u i) ∧
      ∀ {u i m}, s.Own u i → s.Lacking u i m → (s.elect c).Lacking u i m := by
  have hne : ∀ {u i}, s.Own u i → u ≠ s.term c := fun ho he => h.own_leader ho (he ▸ hl)
  have hown : ∀ u i, (s.elect c).Own u i ↔ s.Own u i := by
    intro u i
    rw [State.Own, State.elect_elog, State.elect_llog]
    split_ifs with he
    · refine iff_of_false (fun hx => by omega) fun ho => hne ho he
    · exact Iff.rfl
  have hup : ∀ {u i}, s.Own u i → (s.elect c).upTo u i = s.upTo u i := fun ho => by
    rw [State.upTo, State.elect_llog, if_neg (hne ho), State.upTo]
  refine ⟨hown, fun v u i => ⟨?_, ?_⟩, hup, ?_⟩
  · rintro (ha | ⟨⟨-, he⟩ | hled, ho⟩)
    · exact Or.inl ha
    · exact absurd he (hne ((hown u i).mp ho))
    · exact Or.inr ⟨hled, (hown u i).mp ho⟩
  · rintro (ha | ⟨hled, ho⟩)
    · exact Or.inl ha
    · exact Or.inr ⟨Or.inr hled, (hown u i).mpr ho⟩
  · rintro u i m ho ⟨w, huw, hwm, hw, hno⟩
    have hwc : w ≠ s.term c := fun he => hw (he ▸ hl)
    refine ⟨w, huw, hwm, ?_, ?_⟩
    · rwa [State.elect_leader, if_neg hwc]
    · rwa [hup ho, State.elect_elog, if_neg hwc]

theorem holds_own (h : Inv Quorum safe s) {v : V} (hh : s.Holds v t i) : s.Own t i :=
  hh.elim (fun ha => (h.ack_own v t i ha).1) And.right

theorem holds_term (h : Inv Quorum safe s) {v : V} (hh : s.Holds v t i) : t ≤ s.term v :=
  hh.elim (fun ha => (h.ack_own v t i ha).2) fun hl => h.leader_term t v (h.led_log v t hl.1).1

theorem upTo_length (ho : s.Own t i) : (s.upTo t i).length = i := by
  rw [State.upTo, length_take, min_eq_left ho.2]

/-- What a node of the leader's term has after it took over `M`: its own log if that holds `M`,
and `M` otherwise. -/
def Takes (s : State V α) (n : V) (M l : Log α) : Prop :=
  l = s.log n ∧ M <+: s.log n ∨ l = M ∧ ¬ M <+: s.log n

variable (h : Inv Quorum safe s) {n : V}
include h

/-- The new log is a beginning of the leader's log and keeps what the leader's log has too. -/
theorem takes_spec {M : Log α} (hM : M <+: s.llog (s.term n))
    (hown : (s.elog (s.term n)).length < M.length) (hl : Takes s n M l) :
    l <+: s.llog (s.term n) ∧ M.length ≤ l.length ∧
      ∀ {p}, p <+: s.log n → p <+: s.llog (s.term n) → p <+: l := by
  rcases hl with ⟨rfl, hlog⟩ | ⟨rfl, hno⟩
  · refine ⟨?_, hlog.length_le, fun hp _ => hp⟩
    have ho : s.Own (s.term n) M.length := ⟨hown, hM.length_le⟩
    have hup : s.upTo (s.term n) M.length = M := (prefix_iff_eq_take.mp hM).symm
    obtain ⟨e, -, hget, hle, hte⟩ := h.last_term_le (h.log_from n) ho (hup.symm ▸ hlog)
    have hterm : e.1 = s.term n :=
      le_antisymm (h.log_term n e (mem_of_getElem? hget)) hte
    rwa [hterm] at hle
  · refine ⟨hM, le_rfl, fun hp hpl => ?_⟩
    rcases prefix_or_prefix_of_prefix hpl hM with hle | hle
    · exact hle
    · exact absurd (hle.trans hp) hno

theorem elect {c : V} (hl : s.leader (s.term c) = none)
    (hpos : 0 < s.term c) (hterm : ∀ e ∈ s.log c, e.1 < s.term c)
    (hlog : s.vlog c (s.term c) = s.log c) {Q : Finset V} (hQ : Quorum Q)
    (hvotes : ∀ v ∈ Q, s.vote v (s.term c) = some c) : Inv Quorum safe (s.elect c) := by
  obtain ⟨hown, hholds, hup, hlack⟩ := h.elect_holds hl
  have hgrow : ∀ t, s.llog t <+: (s.elect c).llog t :=
    forall_update (fun t l => s.llog t <+: l) (h.unled _ hl ▸ nil_prefix) fun _ => prefix_rfl
  have hconv : ∀ {v u i l m}, s.Holds v u i → (s.upTo u i <+: l ∨ s.Lacking u i m) →
      (s.elect c).upTo u i <+: l ∨ (s.elect c).Lacking u i m := by
    intro v u i l m hh hor
    have ho := h.holds_own hh
    rw [hup ho]
    exact hor.imp id (hlack ho)
  refine { h with
    leader_zero := ?_, unled := fun t ht => ?_, elog_le := fun t => ?_
    elog_term := forall_update (fun t (l : Log α) => ∀ e ∈ l, e.1 < t) hterm h.elog_term
    own_term := fun t e he => ?_
    llog_from := forall_update (fun _ => (s.elect c).FromLeaders) ((h.log_from c).mono hgrow)
      fun t => (h.llog_from t).mono hgrow
    log_from := fun v => (h.log_from v).mono hgrow
    vlog_from := fun v t => (h.vlog_from v t).mono hgrow
    vote_holds := fun v u hu t i htu hh =>
      hconv ((hholds v t i).mp hh) (h.vote_holds v u hu t i htu ((hholds v t i).mp hh))
    leader_term := forall_update (fun u l => ∀ c, l = some c → u ≤ s.term c)
      (by rintro _ ⟨⟩; exact le_rfl) h.leader_term
    elected := fun u c' hu => ?_
    led_log := fun v t hled => ?_
    ack_own := fun v t i ha => ⟨(hown t i).mpr (h.ack_own v t i ha).1, (h.ack_own v t i ha).2⟩
    ack_down := fun v t i j ha hj hji => ?_
    holds_log := fun v t i hh => hconv ((hholds v t i).mp hh)
      (h.holds_log v t i ((hholds v t i).mp hh))
    ack_disk := fun v t i ha => hconv (Or.inl ha) (h.ack_disk v t i ha)
    committed := fun hs t i hc => ?_
    known := fun hs v => ⟨(h.known hs v).1, (h.known hs v).2.imp id ?_⟩ }
  · rw [State.elect_leader, if_neg (by omega)]
    exact h.leader_zero
  · rw [State.elect_leader] at ht
    split_ifs at ht with he
    rw [State.elect_llog, if_neg he]
    exact h.unled t ht
  · rw [State.elect_elog, State.elect_llog]
    split_ifs
    · exact prefix_rfl
    · exact h.elog_le t
  · rw [State.elect_elog, State.elect_llog] at he
    split_ifs at he
    · rw [drop_length] at he
      exact nomatch he
    · exact h.own_term t e he
  · rw [State.elect_leader] at hu
    split_ifs at hu with he
    · -- the new leader: the voters' logs had the entries, and it is up to date with them
      cases hu
      subst he
      refine ⟨Q, hQ, fun v hv => ⟨hvotes v hv, fun t i htu hh => ?_⟩⟩
      have hh' := (hholds v t i).mp hh
      rw [State.elect_elog, if_pos rfl]
      have hvote : s.vote v (s.term c) ≠ none := hvotes v hv ▸ some_ne_none c
      refine hconv hh' ?_
      rcases h.vote_holds v _ hvote t i htu hh' with hp | ⟨w, htw, hwu, hw, hno⟩
      · have hup' := (h.vote_for v _ c (hvotes v hv)).2
        rw [← hlog]
        refine h.upToDate_holds (h.vlog_from c _) (h.vlog_from v _) hup' (h.holds_own hh') hp ?_
        rwa [hlog]
      · refine Or.inr ⟨w, htw, ?_, hw, hno⟩
        have : w ≠ s.term c := fun he => hw (he ▸ hl)
        omega
    · obtain ⟨Q', hQ', hq⟩ := h.elected u c' hu
      refine ⟨Q', hQ', fun v hv => ⟨(hq v hv).1, fun t i htu hh => ?_⟩⟩
      rw [State.elect_elog, if_neg he]
      exact hconv ((hholds v t i).mp hh) ((hq v hv).2 t i htu ((hholds v t i).mp hh))
  · rw [State.elect_leader, State.elect_llog]
    rcases hled with ⟨rfl, rfl⟩ | hled
    · exact ⟨if_pos rfl, fun _ => (if_pos rfl).symm⟩
    · obtain ⟨hlead, hlog⟩ := h.led_log v t hled
      have : t ≠ s.term c := fun he => by
        rw [he, hl] at hlead
        exact nomatch hlead
      rw [if_neg this, if_neg this]
      exact ⟨hlead, hlog⟩
  · have hne : t ≠ s.term c := fun he => h.own_leader (h.ack_own v t i ha).1 (he ▸ hl)
    rw [State.elect_elog, if_neg hne] at hj
    exact h.ack_down v t i j ha hj hji
  · obtain ⟨ho, B, hB, hb⟩ := h.committed hs t i hc
    exact ⟨(hown t i).mpr ho, B, hB, fun v hv => (hb v hv).imp id fun hl => ⟨Or.inr hl.1, hl.2⟩⟩
  · rintro ⟨t, i, ht, hc, hp⟩
    refine ⟨t, i, ht, hc, ?_⟩
    rw [hup (h.committed hs t i hc).1]
    exact hp

variable [DecidableEq V]

theorem bump (ht : s.term n ≤ t) : Inv Quorum safe (s.bump n t) := by
  have hge : ∀ v, s.term v ≤ (s.bump n t).term v :=
    forall_update (fun v u => s.term v ≤ u) ht fun _ => le_rfl
  refine { h with
    log_term := fun v e he => (h.log_term v e he).trans (hge v)
    vote_term := fun v u hu => (h.vote_term v u hu).trans (hge v)
    leader_term := fun u c hu => (h.leader_term u c hu).trans (hge c)
    led_log := fun v u hl => ⟨(h.led_log v u hl).1, fun hu => (h.led_log v u hl).2 ?_⟩
    ack_own := fun v u i ha => ⟨(h.ack_own v u i ha).1, (h.ack_own v u i ha).2.trans (hge v)⟩
    holds_log := fun v u i hh => (h.holds_log v u i hh).imp id
      (lacking_mono · (Nat.succ_le_succ (hge v)))
    ack_disk := fun v u i ha => (h.ack_disk v u i ha).imp id
      (lacking_mono · (Nat.succ_le_succ (hge v)))
    known := fun hs v => ⟨(h.known hs v).1, (h.known hs v).2.imp id ?_⟩ }
  · exact le_antisymm ((hge v).trans hu.le) (h.leader_term u v (h.led_log v u hl).1)
  · rintro ⟨u, i, hu, hc, hp⟩
    exact ⟨u, i, hu.trans (hge v), hc, hp⟩

theorem castVote {c : V} (hv : s.vote n (s.term n) = none)
    (hc : c = n ∨ s.vote c (s.term n) = some c ∧ UpToDate (s.vlog c (s.term n)) (s.log n)) :
    Inv Quorum safe (s.castVote n c) := by
  have hkeep : ∀ {v u}, s.vote v u ≠ none → ¬ (v = n ∧ u = s.term n) := by
    rintro v u hne ⟨rfl, rfl⟩
    exact hne hv
  refine { h with
    vlog_from := fun v u => ?_
    vote_term := fun v u hu => ?_
    vote_for := fun v u c' hu => ?_
    vote_holds := fun v u hu t i htu hh => ?_
    elected := fun u c' hl => ?_ }
  · rw [State.castVote_vlog]
    split_ifs
    · exact h.log_from n
    · exact h.vlog_from v u
  · rw [State.castVote_vote] at hu
    split_ifs at hu with he
    · rw [he.1, he.2]
      exact le_rfl
    · exact h.vote_term v u hu
  · rw [State.castVote_vote] at hu
    split_ifs at hu with he
    · obtain ⟨rfl, rfl⟩ := he
      cases hu
      rcases hc with rfl | ⟨hc, hup⟩
      · simp [UpToDate]
      · have hne : c ≠ v := fun he => hkeep (hc.symm ▸ some_ne_none c) ⟨he, rfl⟩
        simpa [hne] using And.intro hc hup
    · obtain ⟨hc', hup⟩ := h.vote_for v u c' hu
      have hne := hkeep (hc'.symm ▸ some_ne_none c')
      simpa [he, hne] using And.intro hc' hup
  · rw [State.castVote_vlog]
    split_ifs with he
    · obtain ⟨rfl, rfl⟩ := he
      exact h.holds_log v t i hh
    · rw [State.castVote_vote, if_neg he] at hu
      exact h.vote_holds v u hu t i htu hh
  · obtain ⟨Q, hQ, hq⟩ := h.elected u c' hl
    refine ⟨Q, hQ, fun v hvQ => ⟨?_, (hq v hvQ).2⟩⟩
    rw [State.castVote_vote, if_neg (hkeep ((hq v hvQ).1.symm ▸ some_ne_none c'))]
    exact (hq v hvQ).1

theorem append_holds (a : α) (hled : s.led n (s.term n)) :
    (∀ t, s.llog t <+: (s.append n a).llog t) ∧
      (∀ {u i}, s.Own u i → (s.append n a).Own u i ∧ (s.append n a).upTo u i = s.upTo u i) ∧
      ∀ {v u i}, (s.append n a).Holds v u i → s.Holds v u i ∨ v = n ∧ u = s.term n := by
  obtain ⟨hlead, hlog⟩ := h.led_log n _ hled
  have hgrow : ∀ t, s.llog t <+: (s.append n a).llog t :=
    forall_update (fun t l => s.llog t <+: l) (hlog rfl ▸ prefix_append _ _) fun _ => prefix_rfl
  refine ⟨hgrow, fun {u i} ho => ⟨⟨ho.1, ho.2.trans (hgrow u).length_le⟩, ?_⟩, ?_⟩
  · obtain ⟨r, hr⟩ := hgrow u
    rw [State.upTo, ← hr, take_append_of_le_length ho.2, State.upTo]
  · rintro v u i (ha | ⟨hl, ho⟩)
    · exact Or.inl (Or.inl ha)
    · by_cases hu : u = s.term n
      · subst hu
        have := (h.led_log v _ hl).1
        rw [hlead, some.injEq] at this
        exact Or.inr ⟨this.symm, rfl⟩
      · rw [State.Own, State.append_llog, if_neg hu] at ho
        exact Or.inl (Or.inr ⟨hl, ho⟩)

theorem append (a : α) (hled : s.led n (s.term n)) : Inv Quorum safe (s.append n a) := by
  obtain ⟨hlead, hlog⟩ := h.led_log n _ hled
  obtain ⟨hgrow, hown, hholds⟩ := h.append_holds a hled
  have hconv : ∀ {u i l m}, s.Own u i → (s.upTo u i <+: l ∨ s.Lacking u i m) →
      (s.append n a).upTo u i <+: l ∨ (s.append n a).Lacking u i m := by
    rintro u i l m ho (hp | ⟨w, huw, hwm, hw, hno⟩)
    · rw [(hown ho).2]
      exact Or.inl hp
    · refine Or.inr ⟨w, huw, hwm, hw, ?_⟩
      rwa [(hown ho).2]
  have hfrom : (s.append n a).FromLeaders (s.log n ++ [(s.term n, a)]) := by
    intro k e he
    by_cases hk : k < (s.log n).length
    · rw [getElem?_append_left hk] at he
      rw [take_append_of_le_length hk]
      exact (h.log_from n k e he).trans (hgrow e.1)
    · have hlt := (List.getElem?_eq_some_iff.mp he).1
      rw [length_append, length_singleton] at hlt
      obtain rfl : k = (s.log n).length := by omega
      rw [getElem?_concat_length, some.injEq] at he
      rw [← he, State.append_llog, if_pos rfl]
      exact List.take_prefix _ _
  -- the vote of a node in a later term excludes that it leads now
  have hlater : ∀ {v u t i c}, s.vote v u = some c → t < u → (s.append n a).Holds v t i →
      s.Holds v t i := by
    intro v u t i c hv htu hh
    rcases hholds hh with hh | ⟨rfl, rfl⟩
    · exact hh
    · have := h.vote_term v u (hv ▸ some_ne_none c)
      omega
  refine { h with
    unled := fun t ht => ?_, elog_le := fun t => (h.elog_le t).trans (hgrow t)
    own_term := fun t e he => ?_
    llog_from := forall_update (fun _ => (s.append n a).FromLeaders) hfrom
      fun t => (h.llog_from t).mono hgrow
    log_from := forall_update (fun _ => (s.append n a).FromLeaders) hfrom
      fun v => (h.log_from v).mono hgrow
    vlog_from := fun v t => (h.vlog_from v t).mono hgrow
    disk_le := forall_update (fun v l => s.disk v <+: l)
      ((h.disk_le n).trans (prefix_append _ _)) h.disk_le
    log_term := forall_update (fun v (l : Log α) => ∀ e ∈ l, e.1 ≤ s.term v)
      (forall_mem_append.mpr ⟨h.log_term n, forall_mem_singleton.mpr le_rfl⟩) h.log_term
    vote_holds := fun v u hu t i htu hh => ?_, elected := fun u c hu => ?_
    led_log := fun v t hl => ⟨(h.led_log v t hl).1, fun ht => ?_⟩
    ack_own := fun v t i ha => ⟨(hown (h.ack_own v t i ha).1).1, (h.ack_own v t i ha).2⟩
    holds_log := fun v t i hh => ?_
    ack_disk := fun v t i ha => hconv (h.ack_own v t i ha).1 (h.ack_disk v t i ha)
    committed := fun hs t i hc =>
      ⟨(hown (h.committed hs t i hc).1).1, (h.committed hs t i hc).2⟩
    known := fun hs v => ?_ }
  · rw [State.append_llog, if_neg]
    · exact h.unled t ht
    · rintro rfl
      rw [show (s.append n a).leader (s.term n) = some n from hlead] at ht
      exact nomatch ht
  · rw [State.append_llog] at he
    split_ifs at he with ht
    · subst ht
      rw [hlog rfl, show (s.append n a).elog _ = s.elog (s.term n) from rfl,
        drop_append_of_le_length (h.elog_le _).length_le, mem_append] at he
      rcases he with he | he
      · exact h.own_term _ e he
      · rw [mem_singleton.mp he]
    · exact h.own_term t e he
  · obtain ⟨c, hc⟩ := ne_none_iff_exists'.mp hu
    have hh' := hlater hc htu hh
    exact hconv (h.holds_own hh') (h.vote_holds v u hu t i htu hh')
  · obtain ⟨Q, hQ, hq⟩ := h.elected u c hu
    refine ⟨Q, hQ, fun v hv => ⟨(hq v hv).1, fun t i htu hh => ?_⟩⟩
    have hh' := hlater (hq v hv).1 htu hh
    exact hconv (h.holds_own hh') ((hq v hv).2 t i htu hh')
  · rw [State.append_log, State.append_llog]
    obtain ⟨hlv, hll⟩ := h.led_log v t hl
    by_cases hv : v = n
    · subst hv
      rw [if_pos rfl, if_pos (show t = s.term v from ht.symm)]
    · rw [if_neg hv, if_neg, hll ht]
      rintro rfl
      rw [hlead, some.injEq] at hlv
      exact hv hlv.symm
  · rw [State.append_log]
    rcases hholds hh with hh | ⟨rfl, rfl⟩
    · refine hconv (h.holds_own hh) ((h.holds_log v t i hh).imp (fun hp => ?_) id)
      split_ifs with hv
      · rw [hv] at hp
        exact List.IsPrefix.trans hp (prefix_append _ _)
      · exact hp
    · left
      rw [if_pos rfl, State.upTo, State.append_llog, if_pos rfl]
      exact List.take_prefix _ _
  · obtain ⟨hle, hk⟩ := h.known hs v
    have htake : ((s.append n a).log v).take (s.cidx v) = (s.log v).take (s.cidx v) ∧
        s.cidx v ≤ ((s.append n a).log v).length := by
      rw [State.append_log]
      split_ifs with hv
      · rw [hv] at hle ⊢
        rw [take_append_of_le_length hle, length_append]
        exact ⟨rfl, by omega⟩
      · exact ⟨rfl, hle⟩
    refine ⟨htake.2, hk.imp id ?_⟩
    rintro ⟨t, i, ht, hc, hp⟩
    refine ⟨t, i, ht, hc, ?_⟩
    rw [(hown (h.committed hs t i hc).1).2]
    exact htake.1 ▸ hp

theorem sync (n : V) : Inv Quorum safe (s.sync n) := by
  have hholds : ∀ {v t i}, (s.sync n).Holds v t i → s.Holds v t i := by
    rintro v t i ((ha | ⟨rfl, hh⟩) | hl)
    · exact Or.inl ha
    · exact hh
    · exact Or.inr hl
  refine { h with
    disk_le := forall_update (fun v d => d <+: s.log v) prefix_rfl h.disk_le
    vote_holds := fun v u hu t i htu hh => h.vote_holds v u hu t i htu (hholds hh)
    elected := fun u c hu => ?_
    ack_own := fun v t i ha => ⟨h.holds_own (hholds (Or.inl ha)), h.holds_term (hholds (Or.inl ha))⟩
    ack_down := fun v t i j ha hj hji => ?_
    holds_log := fun v t i hh => h.holds_log v t i (hholds hh)
    ack_disk := fun v t i ha => ?_
    committed := fun hs t i hc => ?_ }
  · obtain ⟨Q, hQ, hq⟩ := h.elected u c hu
    exact ⟨Q, hQ, fun v hv => ⟨(hq v hv).1, fun t i htu hh => (hq v hv).2 t i htu (hholds hh)⟩⟩
  · rcases ha with ha | ⟨rfl, ha | ⟨hl, ho⟩⟩
    · exact Or.inl (h.ack_down v t i j ha hj hji)
    · exact Or.inl (h.ack_down v t i j ha hj hji)
    · exact Or.inr ⟨rfl, Or.inr ⟨hl, hj, hji.trans ho.2⟩⟩
  · rw [State.sync_disk]
    split_ifs with hv
    · subst hv
      exact h.holds_log v t i (hholds (Or.inl ha))
    · exact h.ack_disk v t i (ha.resolve_right fun hx => hv hx.1)
  · obtain ⟨ho, B, hB, hb⟩ := h.committed hs t i hc
    exact ⟨ho, B, hB, fun v hv => (hb v hv).imp Or.inl id⟩

theorem accept {M : Log α} (hlead : s.leader (s.term n) ≠ some n) (hM : M <+: s.llog (s.term n))
    (hown : (s.elog (s.term n)).length < M.length) (hl : Takes s n M l) :
    Inv Quorum safe (s.accept n l) := by
  obtain ⟨hle, hlen, hkeep⟩ := h.takes_spec hM hown hl
  have hled : s.leader (s.term n) ≠ none := by
    refine h.leader_ne_none fun hnil => ?_
    rw [hnil, prefix_nil] at hM
    rw [hM, length_nil] at hown
    omega
  have hholds : ∀ {v t i}, (s.accept n l).Holds v t i →
      s.Holds v t i ∨ v = n ∧ t = s.term n ∧ (s.elog t).length < i ∧ i ≤ l.length := by
    rintro v t i ((ha | hn) | hl)
    · exact Or.inl (Or.inl ha)
    · exact Or.inr hn
    · exact Or.inl (Or.inr hl)
  have hlater : ∀ {v u t i c}, s.vote v u = some c → t < u → (s.accept n l).Holds v t i →
      s.Holds v t i := by
    intro v u t i c hv htu hh
    rcases hholds hh with hh | ⟨rfl, rfl, -⟩
    · exact hh
    · have := h.vote_term v u (hv ▸ some_ne_none c)
      omega
  -- an entry held before is kept, or the leader of the term was elected without it
  have hn : ∀ {t i}, (s.accept n l).Holds n t i →
      s.upTo t i <+: l ∨ s.Lacking t i (s.term n + 1) := by
    intro t i hh
    rcases hholds hh with hh | ⟨-, rfl, hi, hil⟩
    · rcases h.holds_log n t i hh with hp | hlack
      · by_cases hpl : s.upTo t i <+: s.llog (s.term n)
        · exact Or.inl (hkeep hp hpl)
        · have hne : t ≠ s.term n := by
            rintro rfl
            exact hpl (List.take_prefix _ _)
          have hlt := h.holds_term hh
          exact Or.inr ⟨s.term n, by omega, by omega, hled, fun hx => hpl (hx.trans (h.elog_le _))⟩
      · exact Or.inr hlack
    · refine Or.inl (prefix_of_prefix_length_le (List.take_prefix _ _) hle ?_)
      rw [State.upTo, length_take]
      omega
  refine { h with
    log_from := forall_update (fun _ => s.FromLeaders) ((h.llog_from _).of_le hle) h.log_from
    disk_le := fun v => ?_
    log_term := forall_update (fun v (l : Log α) => ∀ e ∈ l, e.1 ≤ s.term v)
      (fun e he => h.llog_term (hle.subset he)) h.log_term
    vote_holds := fun v u hu t i htu hh => ?_, elected := fun u c hu => ?_
    led_log := fun v t hl => ⟨(h.led_log v t hl).1, fun ht => ?_⟩
    ack_own := fun v t i ha => ?_, ack_down := fun v t i j ha hj hji => ?_
    holds_log := fun v t i hh => ?_
    ack_disk := fun v t i ha => ?_, committed := fun hs t i hc => ?_
    known := fun hs v => ?_ }
  · rw [State.accept_log, State.accept_disk]
    split_ifs
    · exact prefix_rfl
    · exact h.disk_le v
  · obtain ⟨c, hc⟩ := ne_none_iff_exists'.mp hu
    exact h.vote_holds v u hu t i htu (hlater hc htu hh)
  · obtain ⟨Q, hQ, hq⟩ := h.elected u c hu
    exact ⟨Q, hQ, fun v hv => ⟨(hq v hv).1, fun t i htu hh =>
      (hq v hv).2 t i htu (hlater (hq v hv).1 htu hh)⟩⟩
  · rw [State.accept_log, if_neg]
    · exact (h.led_log v t hl).2 ht
    · rintro rfl
      rw [← show s.term v = t from ht] at hl
      exact hlead (h.led_log v _ hl).1
  · rcases ha with ha | ⟨rfl, rfl, hi, hil⟩
    · exact h.ack_own v t i ha
    · exact ⟨⟨hi, hil.trans hle.length_le⟩, le_rfl⟩
  · rcases ha with ha | ⟨rfl, rfl, -, hil⟩
    · exact Or.inl (h.ack_down v t i j ha hj hji)
    · exact Or.inr ⟨rfl, rfl, hj, hji.trans hil⟩
  · rw [State.accept_log]
    split_ifs with hv
    · subst hv
      exact hn hh
    · exact h.holds_log v t i ((hholds hh).resolve_right fun hx => hv hx.1)
  · rw [State.accept_disk]
    split_ifs with hv
    · subst hv
      exact hn (Or.inl ha)
    · exact h.ack_disk v t i (ha.resolve_right fun hx => hv hx.1)
  · obtain ⟨ho, B, hB, hb⟩ := h.committed hs t i hc
    exact ⟨ho, B, hB, fun v hv => (hb v hv).imp Or.inl id⟩
  · rw [State.accept_log]
    obtain ⟨hci, hk⟩ := h.known hs v
    split_ifs with hv
    · subst hv
      rcases hk with h0 | ⟨t, i, ht, hc, hp⟩
      · exact ⟨by rw [show (s.accept v l).cidx v = 0 from h0]; exact Nat.zero_le _, Or.inl h0⟩
      · have hpl := hkeep (List.take_prefix (s.cidx v) (s.log v))
          (hp.trans (h.committed_llog hs hc ht hled))
        have hlen := hpl.length_le
        rw [length_take, min_eq_left hci] at hlen
        refine ⟨hlen, Or.inr ⟨t, i, ht, hc, ?_⟩⟩
        have heq := prefix_iff_eq_take.mp hpl
        rw [length_take, min_eq_left hci] at heq
        rwa [show (s.accept v l).cidx v = s.cidx v from rfl, ← heq]
    · exact ⟨hci, hk⟩

theorem commitAt (hled : s.led n t) (ho : s.Own t i) (hlog : s.upTo t i <+: s.log n)
    (hci : s.cidx n ≤ i) (hB : Blocking Quorum B) (hb : ∀ v ∈ B, v = n ∨ s.ack v t i) :
    Inv Quorum safe (s.commitAt n t i) := by
  have hge : ∀ v, s.cidx v ≤ (s.commitAt n t i).cidx v :=
    forall_update (fun v j => s.cidx v ≤ j) hci fun _ => le_rfl
  refine { h with committed := fun hs u j hc => ?_, known := fun hs v => ?_ }
  · rcases hc with hc | ⟨rfl, rfl⟩
    · obtain ⟨ho', B', hB', hb'⟩ := h.committed hs u j hc
      exact ⟨ho', B', hB', fun v hv => (hb' v hv).imp id fun hl => ⟨hl.1, hl.2.trans (hge v)⟩⟩
    · refine ⟨ho, B, hB, fun v hv => (hb v hv).symm.imp id ?_⟩
      rintro rfl
      exact ⟨hled, by rw [State.commitAt_cidx, if_pos rfl]⟩
  · rw [State.commitAt_cidx]
    split_ifs with hv
    · subst hv
      have heq := prefix_iff_eq_take.mp hlog
      have hlen := hlog.length_le
      rw [upTo_length ho] at heq hlen
      exact ⟨hlen, Or.inr ⟨t, i, h.leader_term t v (h.led_log v t hled).1, Or.inr ⟨rfl, rfl⟩,
        heq ▸ prefix_rfl⟩⟩
    · obtain ⟨hle, hk⟩ := h.known hs v
      refine ⟨hle, hk.imp id ?_⟩
      rintro ⟨u, j, hu, hc, hp⟩
      exact ⟨u, j, hu, Or.inl hc, hp⟩

theorem learn (hci : s.cidx n ≤ i) (hk : safe → i ≤ (s.log n).length ∧ (i = 0 ∨
      ∃ t j, t ≤ s.term n ∧ s.commit t j ∧ (s.log n).take i <+: s.upTo t j)) :
    Inv Quorum safe (s.learn n i) := by
  have hge : ∀ v, s.cidx v ≤ (s.learn n i).cidx v :=
    forall_update (fun v j => s.cidx v ≤ j) hci fun _ => le_rfl
  refine { h with
    committed := fun hs u j hc => ?_
    known := fun hs => forall_update (fun v j => j ≤ (s.log v).length ∧ (j = 0 ∨
      ∃ t k, t ≤ s.term v ∧ s.commit t k ∧ (s.log v).take j <+: s.upTo t k)) (hk hs) (h.known hs) }
  obtain ⟨ho, B, hB, hb⟩ := h.committed hs u j hc
  exact ⟨ho, B, hB, fun v hv => (hb v hv).imp id fun hl => ⟨hl.1, hl.2.trans (hge v)⟩⟩

/-- A crash gives back a beginning of the log, or more of it if it falls into an append of what the
leader of the term has. -/
theorem crash {d : Log α} (hd : s.disk n <+: d)
    (hdl : d <+: s.log n ∨ s.log n <+: d ∧ d <+: s.llog (s.term n)) (hi : i ≤ s.cidx n)
    (hsafe : safe → s.cidx n ≤ d.length) : Inv Quorum safe (s.crash n d i) := by
  have hkeep : ∀ {p}, p <+: s.log n → p.length ≤ d.length → p <+: d := fun hp hlen =>
    hdl.elim (prefix_of_prefix_length_le hp · hlen) fun hdl => hp.trans hdl.1
  have hholds : ∀ {v t j}, (s.crash n d i).Holds v t j → s.Holds v t j := by
    rintro v t j ((ha | ⟨rfl, hl, ho, -⟩) | ⟨⟨-, hl⟩, ho⟩)
    · exact Or.inl ha
    · exact Or.inr ⟨hl, ho⟩
    · exact Or.inr ⟨hl, ho⟩
  have hn : ∀ {t j}, (s.crash n d i).ack n t j →
      s.upTo t j <+: d ∨ s.Lacking t j (s.term n + 1) := by
    rintro t j (ha | ⟨-, -, -, k, hjk, -, hp⟩)
    · exact (h.ack_disk n t j ha).imp (fun hp => List.IsPrefix.trans hp hd) id
    · refine Or.inl (List.IsPrefix.trans ?_ hp)
      rw [State.upTo, ← min_eq_left hjk, ← take_take]
      exact List.take_prefix _ _
  refine { h with
    log_from := forall_update (fun _ => s.FromLeaders)
      (hdl.elim (h.log_from n).of_le fun hdl => (h.llog_from _).of_le hdl.2) h.log_from
    disk_le := fun v => ?_
    log_term := forall_update (fun v (l : Log α) => ∀ e ∈ l, e.1 ≤ s.term v)
      (fun e he => hdl.elim (fun hdl => h.log_term n e (hdl.subset he))
        fun hdl => h.llog_term (hdl.2.subset he)) h.log_term
    vote_holds := fun v u hu t j htu hh => h.vote_holds v u hu t j htu (hholds hh)
    elected := fun u c hu => ?_
    led_log := fun v t hl => ⟨(h.led_log v t hl.2).1, fun ht => ?_⟩
    ack_own := fun v t j ha =>
      ⟨h.holds_own (hholds (Or.inl ha)), h.holds_term (hholds (Or.inl ha))⟩
    ack_down := fun v t j k ha hk hkj => ?_
    holds_log := fun v t j hh => ?_, ack_disk := fun v t j ha => ?_
    committed := fun hs t j hc => ?_, known := fun hs v => ?_ }
  · rw [State.crash_log, State.crash_disk]
    split_ifs
    · exact prefix_rfl
    · exact h.disk_le v
  · obtain ⟨Q, hQ, hq⟩ := h.elected u c hu
    exact ⟨Q, hQ, fun v hv => ⟨(hq v hv).1, fun t j htu hh => (hq v hv).2 t j htu (hholds hh)⟩⟩
  · rw [State.crash_log, if_neg hl.1]
    exact (h.led_log v t hl.2).2 ht
  · rcases ha with ha | ⟨rfl, hl, ho, m, hjm, hc, hp⟩
    · exact Or.inl (h.ack_down v t j k ha hk hkj)
    · exact Or.inr ⟨rfl, hl, ⟨hk, hkj.trans ho.2⟩, m, hkj.trans hjm, hc, hp⟩
  · rw [State.crash_log]
    split_ifs with hv
    · subst hv
      exact hn (hh.resolve_right fun hx => hx.1.1 rfl)
    · exact h.holds_log v t j (hholds hh)
  · rw [State.crash_disk]
    split_ifs with hv
    · subst hv
      exact hn ha
    · exact h.ack_disk v t j (ha.resolve_right fun hx => hv hx.1)
  · obtain ⟨ho, B, hB, hb⟩ := h.committed hs t j hc
    refine ⟨ho, B, hB, fun v hv => ?_⟩
    rcases hb v hv with ha | ⟨hl, hj⟩
    · exact Or.inl (Or.inl ha)
    · by_cases hvn : v = n
      · -- the entry is below the commit index, so the durable log has it
        subst hvn
        obtain ⟨-, B', hB', hh⟩ := h.committed_holds hs hc
        have hp := (h.holds_log v t j (Or.inr ⟨hl, ho⟩)).resolve_right (h.not_lacking hB' hh _)
        refine Or.inl (Or.inr ⟨rfl, hl, ho, j, le_rfl, hc, hkeep hp ?_⟩)
        rw [upTo_length ho]
        exact hj.trans (hsafe hs)
      · refine Or.inr ⟨⟨hvn, hl⟩, ?_⟩
        rwa [State.crash_cidx, if_neg hvn]
  · rw [State.crash_log, State.crash_cidx]
    obtain ⟨hle, hk⟩ := h.known hs v
    split_ifs with hv
    · subst hv
      have hid : i ≤ d.length := hi.trans (hsafe hs)
      refine ⟨hid, ?_⟩
      rcases hk with h0 | ⟨t, j, ht, hc, hp⟩
      · exact Or.inl (by omega)
      · refine Or.inr ⟨t, j, ht, hc, List.IsPrefix.trans ?_ hp⟩
        have hlen : ((s.log v).take i).length = i := by
          rw [length_take]
          omega
        have hle := prefix_iff_eq_take.mp (hkeep (List.take_prefix i _) (by omega))
        rw [hlen] at hle
        rw [← hle, ← min_eq_left hi, ← take_take]
        exact List.take_prefix _ _
    · exact ⟨hle, hk⟩

end Inv

end ReplicatedLog
