import ElyraSql.Library.ReplicatedLog

/-!
# What an action leaves alone

Facts about the history stay true: an elected leader stays elected, its log only grows, votes,
acknowledgements and commits are not taken back, and what is stable stays stable. A development
carries its messages along with `Grows` and its nodes with `Moves`.
-/

namespace ReplicatedLog

open State Option List Finset

variable {V α : Type} {n : V} {t : Nat}

/-- The history of `s'` extends that of `s`. -/
structure Grows (s s' : State V α) : Prop where
  term_le : ∀ v, s.term v ≤ s'.term v
  leader : ∀ {t c}, s.leader t = some c → s'.leader t = some c
  elog : ∀ {t}, s.leader t ≠ none → s'.elog t = s.elog t
  llog : ∀ t, s.llog t <+: s'.llog t
  vote : ∀ {v t c}, s.vote v t = some c → s'.vote v t = some c ∧ s'.vlog v t = s.vlog v t
  ack : ∀ {v t i}, s.ack v t i → s'.ack v t i
  commit : ∀ {t i}, s.commit t i → s'.commit t i
  stable : ∀ {q}, s.Stable q → s'.Stable q

/-- The history extends, and nothing about the nodes other than `n` changes. -/
structure Moves (n : V) (s s' : State V α) : Prop extends Grows s s' where
  term_eq : ∀ {v}, v ≠ n → s'.term v = s.term v
  log_eq : ∀ {v}, v ≠ n → s'.log v = s.log v
  disk_eq : ∀ {v}, v ≠ n → s'.disk v = s.disk v
  cidx_eq : ∀ {v}, v ≠ n → s'.cidx v = s.cidx v
  vote_eq : ∀ {v t}, v ≠ n → s'.vote v t = s.vote v t
  led_iff : ∀ {v t}, v ≠ n → (s'.led v t ↔ s.led v t)
  leader_of : ∀ {v t}, v ≠ n → s'.leader t = some v → s.leader t = some v

theorem Grows.refl (s : State V α) : Grows s s where
  term_le _ := le_rfl
  leader h := h
  elog _ := rfl
  llog _ := prefix_rfl
  vote h := ⟨h, rfl⟩
  ack h := h
  commit h := h
  stable h := h

theorem Grows.trans {s₁ s₂ s₃ : State V α} (h : Grows s₁ s₂) (h' : Grows s₂ s₃) : Grows s₁ s₃ where
  term_le v := (h.term_le v).trans (h'.term_le v)
  leader hl := h'.leader (h.leader hl)
  elog hl := by
    obtain ⟨c, hc⟩ := ne_none_iff_exists'.mp hl
    rw [h'.elog (h.leader hc ▸ some_ne_none c), h.elog hl]
  llog t := (h.llog t).trans (h'.llog t)
  vote hv := ⟨(h'.vote (h.vote hv).1).1, (h'.vote (h.vote hv).1).2.trans (h.vote hv).2⟩
  ack ha := h'.ack (h.ack ha)
  commit hc := h'.commit (h.commit hc)
  stable hq := h'.stable (h.stable hq)

theorem Moves.refl (n : V) (s : State V α) : Moves n s s where
  toGrows := Grows.refl s
  term_eq _ := rfl
  log_eq _ := rfl
  disk_eq _ := rfl
  cidx_eq _ := rfl
  vote_eq _ := rfl
  led_iff _ := Iff.rfl
  leader_of _ h := h

theorem Moves.trans {s₁ s₂ s₃ : State V α} (h : Moves n s₁ s₂) (h' : Moves n s₂ s₃) :
    Moves n s₁ s₃ where
  toGrows := h.toGrows.trans h'.toGrows
  term_eq hv := (h'.term_eq hv).trans (h.term_eq hv)
  log_eq hv := (h'.log_eq hv).trans (h.log_eq hv)
  disk_eq hv := (h'.disk_eq hv).trans (h.disk_eq hv)
  cidx_eq hv := (h'.cidx_eq hv).trans (h.cidx_eq hv)
  vote_eq hv := (h'.vote_eq hv).trans (h.vote_eq hv)
  led_iff hv := (h'.led_iff hv).trans (h.led_iff hv)
  leader_of hv hl := h.leader_of hv (h'.leader_of hv hl)

namespace Grows

variable {s s' : State V α}

theorem llog_getElem? (h : Grows s s') {k : Nat} {e : Nat × α} (he : (s.llog t)[k]? = some e) :
    (s'.llog t)[k]? = some e :=
  getElem?_of_beginning (h.llog t) he

theorem take_llog (h : Grows s s') {i : Nat} (hi : i ≤ (s.llog t).length) :
    (s'.llog t).take i = (s.llog t).take i := by
  obtain ⟨r, hr⟩ := h.llog t
  rw [← hr, take_append_of_le_length hi]

end Grows

section Moves

variable {Quorum : Finset V → Prop} {safe : Prop} {s : State V α}

open Moves

theorem moves_elect (h : Inv Quorum safe s) {c : V} (hl : s.leader (s.term c) = none) :
    Moves c s (s.elect c) := by
  have hne : ∀ {t}, s.leader t ≠ none → t ≠ s.term c := fun ht he => ht (he ▸ hl)
  refine { refl c s with
    leader := fun {t c'} ht => ?_, elog := fun {t} ht => ?_, llog := fun t => ?_
    led_iff := fun {v t} hv => ⟨fun hx => hx.resolve_left fun hx => hv hx.1, Or.inr⟩
    leader_of := fun {v t} hv ht => ?_, stable := ?_ }
  · rw [elect_leader, if_neg (hne (ht ▸ some_ne_none c'))]
    exact ht
  · rw [elect_elog, if_neg (hne ht)]
  · rw [elect_llog]
    split_ifs with ht
    · rw [ht, h.unled _ hl]
      exact List.nil_prefix
    · exact prefix_rfl
  · rintro q ⟨tc, hv, hq⟩
    refine ⟨tc, hv, fun t ht htl => ?_⟩
    rw [elect_leader] at htl
    rw [elect_llog]
    split_ifs at htl ⊢
    · exact (hv c).2.trans (h.disk_le c)
    · exact hq t ht htl
  · rw [elect_leader] at ht
    split_ifs at ht
    · cases ht
      exact absurd rfl hv
    · exact ht

variable [DecidableEq V]

theorem moves_bump (ht : s.term n ≤ t) : Moves n s (s.bump n t) := by
  have hge : ∀ v, s.term v ≤ (s.bump n t).term v := by
    intro v
    rw [bump_term]
    split_ifs with hv
    · rwa [hv]
    · exact le_rfl
  refine { refl n s with
    term_le := hge, term_eq := fun hv => by rw [bump_term, if_neg hv], stable := ?_ }
  rintro q ⟨tc, hv, hl⟩
  exact ⟨tc, fun v => ⟨(hv v).1.trans (hge v), (hv v).2⟩, hl⟩

theorem moves_castVote {c : V} (hn : s.vote n (s.term n) = none) : Moves n s (s.castVote n c) := by
  refine { refl n s with vote := fun {v t c'} hv => ?_, vote_eq := fun {v t} hv => ?_ }
  · have hne : ¬ (v = n ∧ t = s.term n) := by
      rintro ⟨rfl, rfl⟩
      rw [hn] at hv
      exact nomatch hv
    rw [castVote_vote, castVote_vlog, if_neg hne, if_neg hne]
    exact ⟨hv, rfl⟩
  · rw [castVote_vote, if_neg fun hx => hv hx.1]

theorem moves_append (h : Inv Quorum safe s) (a : α) (hled : s.led n (s.term n)) :
    Moves n s (s.append n a) := by
  have hgrow := (h.append_holds a hled).1
  refine { refl n s with
    llog := hgrow, log_eq := fun hv => by rw [append_log, if_neg hv], stable := ?_ }
  rintro q ⟨tc, hv, hq⟩
  exact ⟨tc, hv, fun t ht hl => (hq t ht hl).trans (hgrow t)⟩

theorem moves_sync (h : Inv Quorum safe s) (n : V) : Moves n s (s.sync n) := by
  refine { refl n s with
    ack := Or.inl, disk_eq := fun hv => by rw [sync_disk, if_neg hv], stable := ?_ }
  rintro q ⟨tc, hv, hq⟩
  refine ⟨tc, fun v => ⟨(hv v).1, ?_⟩, hq⟩
  rw [sync_disk]
  split_ifs
  · exact (hv n).2.trans (h.disk_le n)
  · exact (hv v).2

theorem moves_accept (h : Inv Quorum safe s) {M l : Log α} (hM : M <+: s.llog (s.term n))
    (hown : (s.elog (s.term n)).length < M.length) (hl : Inv.Takes s n M l) :
    Moves n s (s.accept n l) := by
  obtain ⟨-, -, hkeep⟩ := h.takes_spec hM hown hl
  have hled : s.leader (s.term n) ≠ none := by
    refine h.leader_ne_none fun hnil => ?_
    rw [hnil, prefix_nil] at hM
    rw [hM, length_nil] at hown
    omega
  refine { refl n s with
    ack := Or.inl, log_eq := fun hv => by rw [accept_log, if_neg hv]
    disk_eq := fun hv => by rw [accept_disk, if_neg hv], stable := ?_ }
  rintro q ⟨tc, hv, hq⟩
  refine ⟨tc, fun v => ⟨(hv v).1, ?_⟩, hq⟩
  rw [accept_disk]
  split_ifs
  · exact hkeep ((hv n).2.trans (h.disk_le n)) (hq _ (hv n).1 hled)
  · exact (hv v).2

theorem moves_commitAt (n : V) (t i : Nat) : Moves n s (s.commitAt n t i) :=
  { refl n s with
    commit := Or.inl
    cidx_eq := fun hv => by rw [commitAt_cidx, if_neg hv]
    stable := fun hq => hq }

theorem moves_learn (n : V) (i : Nat) : Moves n s (s.learn n i) :=
  { refl n s with
    cidx_eq := fun hv => by rw [learn_cidx, if_neg hv]
    stable := fun hq => hq }

theorem moves_crash {d : Log α} (i : Nat) (hd : s.disk n <+: d) : Moves n s (s.crash n d i) := by
  refine { refl n s with
    ack := Or.inl, log_eq := fun hv => by rw [crash_log, if_neg hv]
    disk_eq := fun hv => by rw [crash_disk, if_neg hv]
    cidx_eq := fun hv => by rw [crash_cidx, if_neg hv]
    led_iff := fun hv => ⟨fun hx => hx.2, fun hx => ⟨hv, hx⟩⟩, stable := ?_ }
  rintro q ⟨tc, hv, hq⟩
  refine ⟨tc, fun v => ⟨(hv v).1, ?_⟩, hq⟩
  rw [crash_disk]
  split_ifs
  · exact (hv n).2.trans hd
  · exact (hv v).2

end Moves

/-! ## Stability -/

namespace Inv

variable {Quorum : Finset V → Prop} {safe : Prop} {s : State V α}

/-- An entry acknowledged by all nodes is stable. -/
theorem stable_of_acks [Fintype V] (h : Inv Quorum safe s) (hQ : ∀ Q, Quorum Q → Q.Nonempty)
    {i : Nat} (ha : ∀ v, s.ack v t i) : s.Stable (s.upTo t i) := by
  have hB : Blocking Quorum (univ : Finset V) := fun Q hq =>
    (hQ Q hq).elim fun v hv => ⟨v, mem_univ v, hv⟩
  have hh : ∀ v ∈ (univ : Finset V), s.Holds v t i := fun v _ => Or.inl (ha v)
  refine ⟨t, fun v => ⟨(h.ack_own v t i (ha v)).2, ?_⟩, fun u htu hu => ?_⟩
  · exact (h.ack_disk v t i (ha v)).resolve_right (h.not_lacking hB hh _)
  · rcases htu.eq_or_lt with rfl | hlt
    · exact List.take_prefix i _
    · exact (h.complete hB hh u hlt hu).trans (h.elog_le u)

theorem stable_nil : s.Stable [] :=
  ⟨0, fun _ => ⟨Nat.zero_le _, List.nil_prefix⟩, fun _ _ _ => List.nil_prefix⟩

end Inv

end ReplicatedLog
