import ElyraSql.Raft.Replication

/-!
# Rounds of a leader, compaction and restarts

The steps of `replicate_round` keep the cluster coupled to a history: the entries up to the
compaction point are on every disk, the requests are built from the leader's log, and the median
of the match indexes is committed. Compaction and restarts only drop what the history says may be
dropped.
-/

namespace ElyraSql.Raft

open ReplicatedLog NumberLemmas List Moves State Node

variable {N : Nat} {Op : Type} {safe : Prop} {c : Cluster N Op} {A A' : State (Fin N) Op}
  {n p : Fin N} {x : Node N Op}

/-! ## Peers -/

theorem mem_peers : p ∈ peers n ↔ p ≠ n := by
  simp [peers]

theorem nodup_peers : (peers n).Nodup := (nodup_finRange N).filter _

theorem length_peers : (peers n).length + 1 = N := by
  have hset : (peers n).toFinset = Finset.univ.erase n := by
    ext p
    simp [mem_peers]
  have hcard := Finset.card_erase_add_one (Finset.mem_univ n)
  rw [← hset, toFinset_card_of_nodup nodup_peers, Finset.card_univ, Fintype.card_fin] at hcard
  exact hcard

/-! ## Syncing and choosing the compaction point -/

theorem NodeOk.synced (h : NodeOk safe A n x) (hi : Inv (Quorum N) safe A) {r : RaftLog Op}
    (hrep : Rep r (A.log n) (A.log n)) (hci : r.commitIndex = x.log.commitIndex)
    (hla : r.lastApplied = x.log.lastApplied) (hsn : r.snapshotIndex ≤ r.lastApplied)
    (hst : StableTo A r.snapshotIndex) : NodeOk safe (A.sync n) n { x with log := r } := by
  have hm := moves_sync hi n
  have hdisk : (A.sync n).disk n = A.log n := by rw [sync_disk, if_pos rfl]
  exact { h with
    rep := by
      rw [hdisk]
      exact hrep
    stable := hst.mono hm.toGrows
    cidx := hci.trans h.cidx
    cursors := ⟨hla.trans (h.cursors.1.trans hci.symm), hsn⟩
    alone := fun hp => by
      simp only [hci]
      exact h.alone hp
    main := by
      refine h.main.mono hi hm.toGrows (fun _ => id) (fun _ => id) (fun hr => ⟨hr, rfl⟩)
        fun _ hle => ?_
      simp only [hdisk, hla]
      exact hle.trans (hi.disk_le n).length_le
    handlers := h.handlers_mono hi hm.toGrows
    pending := fun w hw => (h.pending w hw).mono hm.toGrows }

theorem RaftLog.sync_cursors (r : RaftLog Op) :
    r.sync.commitIndex = r.commitIndex ∧ r.sync.lastApplied = r.lastApplied ∧
      r.sync.snapshotIndex = r.snapshotIndex := by
  unfold sync persistRewrite persistAppended
  split_ifs <;> exact ⟨rfl, rfl, rfl⟩

variable {t : Nat}

theorem Coupled.syncLog (h : Coupled safe c A) (hmain : (c.nodes n).main = .syncing t) :
    ∃ A', Coupled safe (c.set n { c.nodes n with
      log := (c.nodes n).log.sync, main := .choosing t (c.nodes n).log.commitIndex }) A' := by
  have hn := h.nodes n
  obtain ⟨hterm, hlead⟩ := h.mainOk hmain
  obtain ⟨b, hrep⟩ := hn.rep
  obtain ⟨hci, hla, hsn⟩ := (c.nodes n).log.sync_cursors
  have hm := moves_sync h.inv n
  have hx := hn.synced h.inv ⟨b, hrep.sync⟩ hci hla (by rw [hsn, hla]; exact hn.cursors.2)
    (by rw [hsn]; exact hn.stable)
  refine ⟨_, h.set (h.inv.sync n) hm (hx.withMain ⟨fun hr => ⟨hterm hr, fun hs => ?_⟩,
    hlead.mono h.inv hm.toGrows (fun _ => id) (fun _ => id), fun p hp pr hpr => ?_,
    fun hp => ?_⟩) hla.le⟩
  · have hlog := (h.inv.led_log n t hlead.1.1).2 (hn.term.symm.trans (hterm hr))
    obtain ⟨hle, hknown⟩ := h.inv.known hs n
    rw [hlog, ← hn.cidx, ← hn.term, hterm hr] at hknown
    rw [hlog, ← hn.cidx] at hle
    exact hknown.imp id fun hk => ⟨hle, hk⟩
  · -- what a follower has acknowledged, the leader now acknowledges as well
    obtain ⟨pr', hpr', -, -, hmatch⟩ := hlead.2.2 p hp
    obtain rfl : pr' = pr := Option.some.inj (hpr'.symm.trans hpr)
    exact hmatch.imp id fun ha => Or.inr ⟨rfl, Or.inr ⟨hlead.1.1, (h.inv.ack_own p t _ ha).1⟩⟩
  · rw [sync_disk]
    simp only [hla, hn.cursors.1]
    exact hn.alone hp

/-- What every follower has acknowledged is stable, and so is what a node without followers has
applied. -/
theorem stableTo_compactPoint (hi : Inv (Quorum N) safe A) (ht : x.term = A.term n)
    (hlead : LeadOk A n t x.progress)
    (hack : ∀ p ∈ peers n, ∀ pr, x.progress p = some pr → pr.matched = 0 ∨ A.ack n t pr.matched)
    (hdisk : peers n = [] → x.log.lastApplied ≤ (A.disk n).length) :
    StableTo A (x.compactPoint n) := by
  obtain ⟨⟨hled, hlast⟩, -, hprog⟩ := hlead
  obtain ⟨hleader, hlog⟩ := hi.led_log n t hled
  unfold compactPoint
  by_cases hp : peers n = []
  · rw [hp]
    refine ⟨(A.disk n).take x.log.lastApplied, ?_, A.term n, fun v => ?_, fun u hu hne => ?_⟩
    · rw [length_take, min_eq_left (hdisk hp)]
      rfl
    · have hv : v = n := by
        by_contra hne
        exact absurd (mem_peers.mpr hne) (hp ▸ not_mem_nil)
      subst hv
      exact ⟨le_rfl, List.take_prefix _ _⟩
    · obtain ⟨v, hv⟩ := Option.ne_none_iff_exists'.mp hne
      have hvn : v = n := by
        by_contra hne
        exact absurd (mem_peers.mpr hne) (hp ▸ not_mem_nil)
      subst hvn
      have hut : u = t := by
        have := hlast u hv
        have := hi.leader_term t v hleader
        omega
      have htt : A.term v = t := by
        have := hi.leader_term t v hleader
        omega
      rw [hut, ← hlog htt]
      exact (List.take_prefix _ _).trans (hi.disk_le v)
  · rw [if_neg (by simpa using hp)]
    generalize hms : (peers n).map (fun p => ((x.progress p).map (·.matched)).getD 0) = ms
    have hmatch : ∀ p ∈ peers n, ∃ pr, x.progress p = some pr ∧ pr.matched ∈ ms ∧
        (pr.matched = 0 ∨ A.ack p t pr.matched) := by
      intro p hpm
      obtain ⟨pr, hpr, -, -, ha⟩ := hprog p hpm
      exact ⟨pr, hpr, hms ▸ mem_map.mpr ⟨p, hpm, by rw [hpr]; rfl⟩, ha⟩
    cases hmin : ms.min? with
    | none => exact stableTo_zero
    | some s =>
      obtain ⟨hmem, hle⟩ := min?_eq_some_iff.mp hmin
      rw [Option.getD_some]
      by_cases hs : s = 0
      · exact hs ▸ stableTo_zero
      · -- the least match index belongs to a follower, so it is an index of the leader's term
        obtain ⟨p₀, hp₀, hps⟩ := mem_map.mp (hms ▸ hmem)
        obtain ⟨pr₀, hpr₀, -, ha₀⟩ := hmatch p₀ hp₀
        obtain rfl : pr₀.matched = s := by simpa [hpr₀] using hps
        have hown := (hi.ack_own p₀ t _ (ha₀.resolve_left hs)).1
        have hall : ∀ v, A.ack v t pr₀.matched := by
          intro v
          by_cases hv : v = n
          · subst hv
            exact (hack p₀ hp₀ pr₀ hpr₀).resolve_left hs
          · obtain ⟨pr, -, hin, ha⟩ := hmatch v (mem_peers.mpr hv)
            have hsle := hle _ hin
            exact hi.ack_down v t _ _ (ha.resolve_left (by omega)) hown.1 hsle
        have hQ : ∀ Q, Quorum N Q → Q.Nonempty := by
          intro Q hQ
          rw [← Finset.card_pos]
          unfold Quorum at hQ
          omega
        exact ⟨_, Inv.upTo_length hown, hi.stable_of_acks hQ hall⟩

variable {lc : Nat}

theorem Coupled.choosePoint (h : Coupled safe c A) (hmain : (c.nodes n).main = .choosing t lc) :
    Coupled safe (c.set n { c.nodes n with
      main := .sending t lc ((c.nodes n).compactPoint n) (peers n) }) A := by
  have hn := h.nodes n
  obtain ⟨hr, hlead, hack, hdisk⟩ := h.mainOk hmain
  exact h.quiet (hn.withMain ⟨hr, hlead, stableTo_compactPoint h.inv hn.term hlead hack hdisk,
    fun _ hp => hp⟩) rfl

/-! ## Requests and acknowledgements -/

variable {i j : Nat}

theorem StableTo.of_le (h : StableTo A j) (hij : i ≤ j) : StableTo A i := by
  obtain ⟨q, rfl, tc, hall, hlead⟩ := h
  refine ⟨q.take i, by rw [length_take, min_eq_left hij], tc, fun v => ?_, fun t ht hl => ?_⟩
  · exact ⟨(hall v).1, (List.take_prefix _ _).trans (hall v).2⟩
  · exact (List.take_prefix _ _).trans (hlead t ht hl)

theorem termOf_isSome {l : Log Op} (hi : i ≤ l.length) : ∃ t, termOf l i = some t := by
  unfold termOf
  split_ifs with h0
  · exact ⟨0, rfl⟩
  · rw [getElem?_eq_getElem (by omega)]
    exact ⟨_, rfl⟩

variable {ci : Nat}

/-- The request a leader builds while it is still in its term. -/
theorem NodeOk.appendRequest (h : NodeOk safe A n x) (hi : Inv (Quorum N) safe A) (hp : p ∈ peers n)
    (hr : x.role = .leader) (hlead : LeadOk A n x.term x.progress) (hknown : Known safe A x.term lc)
    (hci : StableTo A ci) : ReqOk safe A (x.appendRequest n p x.term lc ci) := by
  obtain ⟨b, hrep⟩ := h.rep
  obtain ⟨hleader, hlog⟩ := hi.led_log n _ (h.leads hr)
  obtain ⟨-, hown, hprog⟩ := hlead
  obtain ⟨pr, hpr, hpos, hnext, -⟩ := hprog p hp
  have hlogn : A.log n = A.llog x.term := hlog h.term.symm
  have hb := hrep.base_le_log
  have hbs := hrep.base_le
  have hprev : (x.appendRequest n p x.term lc ci).prevIndex = pr.next - 1 := by
    simp [Node.appendRequest, hpr]
  have hle : pr.next - 1 ≤ (A.log n).length := by
    rw [hlogn]
    omega
  refine ⟨hleader, (mem_peers.mp hp).symm, hci, hknown, A.log n, max (pr.next - 1) b, ?_, ?_, ?_,
    by omega, ?_, ?_⟩
  · exact hlogn ▸ prefix_rfl
  · rw [hlogn]
    exact hown
  · rw [hprev]
    exact le_max_left _ _
  · rw [← hrep.entriesAfter, ← hprev]
    rfl
  · have hpt : (x.appendRequest n p x.term lc ci).prevTerm =
        (x.log.termAt (pr.next - 1)).getD 0 := by
      rw [← hprev]
      rfl
    rw [hprev, hpt, hrep.termAt]
    by_cases hs : pr.next - 1 < x.log.snapshotIndex
    · rw [if_pos hs]
      exact Or.inr ⟨rfl, h.stable.of_le (by omega)⟩
    · rw [if_neg hs]
      obtain ⟨t, ht⟩ := termOf_isSome hle
      exact Or.inl ⟨by omega, by rw [ht]; rfl⟩

variable (h : Coupled safe c A)
include h

theorem Coupled.send {todo : List (Fin N)}
    (hmain : (c.nodes n).main = .sending t lc ci (p :: todo)) {ship : Bool}
    (hship : ship = true → (c.nodes n).role = .leader ∧ (c.nodes n).term = t) :
    Coupled safe (c.post n { c.nodes n with main := .sending t lc ci todo }
      (if ship then [.appendEntries ((c.nodes n).appendRequest n p t lc ci)] else [])) A := by
  have hn := h.nodes n
  obtain ⟨hr, hlead, hci, htodo⟩ := h.mainOk hmain
  have hmain' : MainOk safe A n (c.nodes n).role (c.nodes n).term (c.nodes n).progress
      (c.nodes n).log.lastApplied (.sending t lc ci todo) :=
    ⟨hr, hlead, hci, fun p hp => htodo p (mem_cons_of_mem _ hp)⟩
  refine h.post h.inv (refl n A) (hn.withMain hmain') le_rfl ?_
  intro m hm
  cases ship with
  | false => exact nomatch hm
  | true =>
    obtain ⟨hrole, rfl⟩ := hship rfl
    rw [if_pos rfl, mem_singleton] at hm
    subst hm
    exact hn.appendRequest h.inv (htodo p mem_cons_self) hrole hlead (hr hrole).2 hci

theorem Coupled.sent (hmain : (c.nodes n).main = .sending t lc ci []) :
    Coupled safe (c.set n { c.nodes n with main := .collecting t ci }) A := by
  obtain ⟨hr, hlead, hci, -⟩ := h.mainOk hmain
  exact h.quiet ((h.nodes n).withMain ⟨fun hl => (hr hl).1, hlead, hci⟩) rfl

theorem Coupled.takeAck {m : AppendAck N}
    (hmain : (c.nodes n).main = .collecting t ci) (hm : .appendAck m ∈ c.net)
    (ht : m.requestTerm = t) :
    Coupled safe (c.set n { c.nodes n with progress := (c.nodes n).takeAck m }) A := by
  have hn := h.nodes n
  obtain ⟨hr, ⟨hled, hown, hprog⟩, hci⟩ := h.mainOk hmain
  refine h.quiet { hn with main := ?_ } rfl
  simp only [hmain]
  refine ⟨hr, ⟨hled, hown, fun p hp => ?_⟩, hci⟩
  obtain ⟨pr, hpr, hpos, hnext, hmatch⟩ := hprog p hp
  unfold Node.takeAck
  by_cases hpm : p = m.follower
  · subst hpm
    simp only [Function.update_self, hpr]
    refine ⟨_, rfl, ?_⟩
    split_ifs with hsucc hlt
    · have ha : A.ack m.follower t m.matchIndex := ht ▸ h.net _ hm hsucc
      exact ⟨Nat.le_add_left _ _, Nat.add_le_add_right (h.inv.ack_own _ t _ ha).1.2 1, Or.inr ha⟩
    · exact ⟨Nat.le_sub_one_of_lt hlt, (Nat.sub_le _ _).trans hnext, hmatch⟩
    · exact ⟨hpos, hnext, hmatch⟩
  · simp only [Function.update_of_ne hpm]
    exact ⟨pr, hpr, hpos, hnext, hmatch⟩

theorem Coupled.giveUpRound (hmain : (c.nodes n).main = .collecting t ci) :
    Coupled safe (c.set n { c.nodes n with main := .idle }) A := by
  obtain ⟨hr, hlead, -⟩ := h.mainOk hmain
  exact h.quiet ((h.nodes n).withMain fun hl => by rw [hr hl]; exact hlead) rfl

omit h

/-! ## Counting a majority -/

/-- More than half of a list is at least the median that `maybe_commit` takes. -/
theorem lt_two_mul_count_median {ms : List Nat}
    (h : (ms.insertionSort (· ≤ ·))[(ms.length - 1) / 2]? = some j) :
    ms.length < 2 * ms.countP (j ≤ ·) := by
  have hperm := perm_insertionSort (· ≤ ·) ms
  have hsorted := List.pairwise_insertionSort (· ≤ ·) ms
  obtain ⟨hk, hj⟩ := List.getElem?_eq_some_iff.mp h
  rw [← hperm.countP_eq]
  generalize hL : ms.insertionSort (· ≤ ·) = L at *
  have hlen : L.length = ms.length := hperm.length_eq
  have hall : ∀ a ∈ L.drop ((ms.length - 1) / 2), decide (j ≤ a) = true := by
    intro a ha
    obtain ⟨i, hi, rfl⟩ := mem_iff_getElem.mp ha
    rw [getElem_drop, decide_eq_true_eq, ← hj]
    rcases Nat.eq_zero_or_pos i with rfl | hpos
    · exact le_rfl
    · exact pairwise_iff_getElem.mp hsorted _ _ _ _ (by omega)
  have hcount : (L.drop ((ms.length - 1) / 2)).countP (j ≤ ·) =
      (L.drop ((ms.length - 1) / 2)).length := countP_eq_length.mpr hall
  have hsub := (drop_sublist ((ms.length - 1) / 2) L).countP_le (p := fun a => decide (j ≤ a))
  rw [hcount, length_drop] at hsub
  omega

theorem RaftLog.maybeCommit_cases (r : RaftLog Op) (ms : List Nat) (t : Nat) :
    r.maybeCommit ms t = r ∨ ∃ j, (ms.insertionSort (· ≤ ·))[(ms.length - 1) / 2]? = some j ∧
      r.commitIndex < j ∧ r.termAt j = some t ∧ r.maybeCommit ms t =
        { r with commitIndex := j } := by
  unfold maybeCommit
  cases hj : (ms.insertionSort (· ≤ ·))[(ms.length - 1) / 2]? with
  | none => exact Or.inl rfl
  | some j =>
    dsimp only
    split_ifs with hcond
    · exact Or.inr ⟨j, rfl, hcond.1, hcond.2, rfl⟩
    · exact Or.inl rfl

/-- An index above half of the match indexes is held by a quorum. -/
theorem quorum_of_median (hi : Inv (Quorum N) safe A) (hprog : ProgressOk A n t x.progress)
    (hown : (A.elog t).length < j)
    (hmed : ((x.matchIndexes n).insertionSort (· ≤ ·))[((x.matchIndexes n).length - 1) / 2]? =
      some j) : ∃ Q, Quorum N Q ∧ ∀ v ∈ Q, v = n ∨ A.ack v t j := by
  set g : Fin N → Nat := fun p => ((x.progress p).map (·.matched)).getD 0 with hg
  have hms : x.matchIndexes n = x.log.lastIndex :: (peers n).map g := by
    unfold matchIndexes
    congr 1
    rw [← filterMap_eq_map]
    refine filterMap_congr fun p hp => ?_
    obtain ⟨pr, hpr, -⟩ := hprog p hp
    simp [hg, hpr]
  set F := (peers n).filter (fun p => j ≤ g p) with hF
  have hself : n ∉ F.toFinset := by
    rw [mem_toFinset, mem_filter]
    exact fun hx => mem_peers.mp hx.1 rfl
  have hnd : F.Nodup := nodup_peers.filter _
  have hQ : Quorum N (insert n F.toFinset) := by
    have hlt := lt_two_mul_count_median hmed
    rw [hms, length_cons, length_map, length_peers, countP_cons, countP_map,
      show (fun a => decide (j ≤ a)) ∘ g = fun p => decide (j ≤ g p) from rfl,
      countP_eq_length_filter, ← hF] at hlt
    unfold Quorum
    rw [Finset.card_insert_of_notMem hself, toFinset_card_of_nodup hnd]
    split_ifs at hlt <;> omega
  refine ⟨_, hQ, fun v hv => ?_⟩
  rcases Finset.mem_insert.mp hv with rfl | hv
  · exact Or.inl rfl
  · obtain ⟨hp, hle⟩ := mem_filter.mp (mem_toFinset.mp hv)
    obtain ⟨pr, hpr, -, -, ha⟩ := hprog v hp
    have hle : j ≤ pr.matched := by simpa [hg, hpr] using hle
    exact Or.inr (hi.ack_down v t _ j (ha.resolve_left (by omega)) hown hle)

variable (h : Coupled safe c A)
include h

/-- The log section of a round that moves the commit index to `i`, over a history that commits
up to there. -/
theorem Coupled.advanceTo {C : Nat → Nat → Prop} {D : Fin N → Nat}
    (hmain : (c.nodes n).main = .collecting t ci)
    (hlog : (c.nodes n).log.maybeCommit ((c.nodes n).matchIndexes n) t = { (c.nodes n).log with
      commitIndex := i }) (hinv : Inv (Quorum N) safe { A with commit := C, cidx := D })
    (hm : Moves n A { A with commit := C, cidx := D }) (hD : D n = i)
    (hci : (c.nodes n).log.commitIndex ≤ i)
    (hlen : i ≤ (A.log n).length ∨ (c.nodes n).log.commitIndex = i)
    (hes : ∀ k e, k < i → (c.nodes n).log.commitIndex ≤ k → (A.log n)[k]? = some e → (A.llog
      t)[k]? = some e) (hC : (c.nodes n).log.commitIndex < i → C t i) :
    Coupled safe (c.stepAdvance n t ci) { A with commit := C, cidx := D } := by
  have hn := h.nodes n
  obtain ⟨hr, hlead, hst⟩ := h.mainOk hmain
  obtain ⟨b, hrep⟩ := hn.rep
  have hlead' : LeadOk { A with commit := C, cidx := D } n t (c.nodes n).progress :=
    hlead.mono h.inv hm.toGrows (fun _ => id) (fun _ => id)
  have htake := hn.takeApplicable hci hlen
  generalize hes' : number (c.nodes n).log.lastApplied
    (((A.log n).take i).drop (c.nodes n).log.lastApplied) = es at htake
  have hout : ∀ e ∈ es, (A.llog t)[e.index - 1]? = some (e.term, e.data) := by
    intro e he
    rw [← hes', mem_number_drop, hn.cursors.1, getElem?_take] at he
    obtain ⟨hlt, he⟩ := he
    split_ifs at he with hei
    exact hes _ _ hei (by omega) he
  have hmain' : MainOk safe { A with commit := C, cidx := D } n (c.nodes n).role (c.nodes n).term
      (c.nodes n).progress i (if es.isEmpty then .compacting ci else .resolving t ci es) := by
    split_ifs
    · exact ⟨fun hl => by rw [hr hl]; exact hlead', hst.mono hm.toGrows⟩
    · exact ⟨hr, hlead', hst.mono hm.toGrows, hout⟩
  simp only [Cluster.stepAdvance, hlog, htake]
  refine h.apply _ _ hinv hm (hn.apply h.inv hm hD hci hlen hmain') ?_ hes'.symm fun hs a ha => ?_
  · exact hlen.imp id fun he => hn.cursors.1.trans he
  · obtain ⟨e, he, rfl⟩ := mem_map.mp ha
    rw [mem_filter, decide_eq_true_eq] at he
    obtain ⟨hin, hlt, hle⟩ := he
    have hget := hes (e.index - 1) _ (by omega) (by omega) (hrep.mem_entries.mp hin).2
    exact ⟨Nat.zero_lt_of_lt hlt, i, hC (hlt.trans_le hle), hle, hget⟩

/-- A node whose log has an entry of the term `t` past its commit index has the log of the leader
of `t` up to there. -/
theorem Coupled.own_of_termAt (hlt : (c.nodes n).log.commitIndex < j)
    (hterm : (c.nodes n).log.termAt j = some t) :
    (∃ d, (A.log n)[j - 1]? = some (t, d)) ∧ A.upTo t j = (A.log n).take j ∧ A.Own t j := by
  have hn := h.nodes n
  obtain ⟨b, hrep⟩ := hn.rep
  obtain ⟨hac, hsn⟩ := hn.cursors
  rw [hrep.termAt, if_neg (by omega), termOf, if_neg (by omega)] at hterm
  obtain ⟨e, he, rfl⟩ := Option.map_eq_some_iff.mp hterm
  have hjl := (List.getElem?_eq_some_iff.mp he).1
  have hpre := h.inv.log_from n _ _ he
  rw [show j - 1 + 1 = j by omega] at hpre
  have hjlen : j ≤ (A.llog e.1).length := by
    have := hpre.length_le
    rw [length_take] at this
    omega
  have hup : A.upTo e.1 j = (A.log n).take j := by
    refine (List.prefix_of_prefix_length_le (List.take_prefix _ _) hpre ?_).eq_of_length ?_ <;>
      simp only [length_take] <;> omega
  have hget : (A.llog e.1)[j - 1]? = some e := by
    have hj : j - 1 < j := by omega
    rw [← List.getElem?_take_of_lt hj, ← upTo, hup, List.getElem?_take_of_lt hj, he]
  refine ⟨⟨e.2, he⟩, hup, ?_, hjlen⟩
  rcases h.inv.llog_getElem? hget with ⟨hlt', -⟩ | ⟨-, hle⟩
  · exact absurd hlt' (lt_irrefl _)
  · omega

theorem Coupled.advance (hmain : (c.nodes n).main = .collecting t ci) :
    ∃ A', Coupled safe (c.stepAdvance n t ci) A' := by
  have hn := h.nodes n
  obtain ⟨-, ⟨⟨hled, -⟩, -, hprog⟩, -⟩ := h.mainOk hmain
  rcases (c.nodes n).log.maybeCommit_cases ((c.nodes n).matchIndexes n) t with
    heq | ⟨j, hmed, hlt, hterm, heq⟩
  · exact ⟨_, h.advanceTo (C := A.commit) hmain heq h.inv (refl n A) hn.cidx.symm le_rfl
      (Or.inr rfl) (fun _ _ hk hk' => absurd hk (not_lt.mpr hk')) fun hlt =>
        absurd hlt (lt_irrefl _)⟩
  · -- the entry at the median is of the leader's own term, so the log is the leader's up to it
    obtain ⟨⟨d, he⟩, hup, hown⟩ := h.own_of_termAt hlt hterm
    have hjl := (List.getElem?_eq_some_iff.mp he).1
    have hget : ∀ k a, k < j → (A.log n)[k]? = some a → (A.llog t)[k]? = some a := by
      intro k a hk ha
      rw [← List.getElem?_take_of_lt hk, ← hup, upTo, List.getElem?_take_of_lt hk] at ha
      exact ha
    obtain ⟨Q, hQ, hb⟩ := quorum_of_median h.inv hprog hown.1 hmed
    have hinv := h.inv.commitAt hled hown (hup ▸ List.take_prefix _ _)
      (hn.cidx.symm.trans_le hlt.le) (fun _ => quorum_inter hQ) hb
    exact ⟨_, h.advanceTo hmain heq hinv (moves_commitAt n t j) (by simp) hlt.le
      (Or.inl (by omega)) (fun k a hk _ => hget k a hk) fun _ => Or.inr ⟨rfl, rfl⟩⟩

theorem Coupled.resolve {es : List (LogEntry Op)}
    (hmain : (c.nodes n).main = .resolving t ci es) (failed : List Nat) :
    Coupled safe (c.stepResolve n ci es failed) A := by
  have hn := h.nodes n
  obtain ⟨hr, hlead, hst, -⟩ := h.mainOk hmain
  have hx := hn.withMain (m := .compacting ci) ⟨fun hl => by rw [hr hl]; exact hlead, hst⟩
  refine h.update h.inv (refl n A) ?_ rfl (fun _ hm => Or.inl hm) (fun _ ha => ha)
    (fun _ _ ha => Or.inl ha) (fun _ _ ha => Or.inl ha)
    fun _ _ hlt hle => absurd hle (not_le.mpr hlt)
  exact { hx with pending := fun w hw => hn.pending w (mem_of_mem_filter hw) }

omit h

/-! ## Compaction -/

theorem StableTo.le_disk (h : StableTo A i) : i ≤ (A.disk n).length := by
  obtain ⟨q, rfl, tc, hall, -⟩ := h
  exact (hall n).2.length_le

/-- Compaction up to a stable point. -/
theorem NodeOk.compact (h : NodeOk safe A n x) (hi : Inv (Quorum N) safe A) {u : Nat}
    (hu : StableTo A u) : ∃ A', Inv (Quorum N) safe A' ∧ Moves n A A' ∧
      NodeOk safe A' n { x with log := x.log.compact u } ∧
      (x.log.compact u).lastApplied = x.log.lastApplied := by
  obtain ⟨b, hrep⟩ := h.rep
  rcases hrep.compact hu.le_disk with heq | ⟨-, hua, hsn, hci, hla, hrep'⟩
  · rw [heq]
    exact ⟨A, hi, refl n A, h, rfl⟩
  · exact ⟨_, hi.sync n, moves_sync hi n, h.synced hi ⟨u, hrep'⟩ hci hla
      (by rw [hsn, hla]; exact hua) (by rw [hsn]; exact hu), hla⟩

variable (h : Coupled safe c A)
include h

theorem Coupled.compactLog (hmain : (c.nodes n).main = .compacting ci) :
    ∃ A', Coupled safe
      (c.set n { c.nodes n with log := (c.nodes n).log.compact ci, main := .idle }) A' := by
  have hmo := h.mainOk hmain
  obtain ⟨A', hi, hm, hx, hla⟩ := (h.nodes n).compact h.inv hmo.2
  have hmo' := hx.main
  simp only [hmain] at hmo'
  exact ⟨A', h.set hi hm (hx.withMain hmo'.1) hla.le⟩

variable {req : AppendEntries N Op}

theorem Coupled.handlerCompact {k : Nat} (hk : (c.nodes n).handlers[k]? = some (.compact req i)) :
    ∃ A', Coupled safe (c.stepHandler n k (.compact req i)) A' := by
  obtain ⟨hreq, hack⟩ := (h.nodes n).handlers _ (mem_of_getElem? hk)
  obtain ⟨A', hi, hm, hx, hla⟩ := (h.nodes n).compact h.inv hreq.compact
  exact ⟨A', h.set hi hm (hx.setHandler fun _ => hm.ack hack) hla.le⟩

theorem Coupled.handlerReply {k : Nat} {success : Bool}
    (hk : (c.nodes n).handlers[k]? = some (.reply req success i)) :
    Coupled safe (c.stepHandler n k (.reply req success i)) A := by
  have hn := h.nodes n
  have hack := hn.handlers _ (mem_of_getElem? hk)
  have hx : NodeOk safe A n { c.nodes n with handlers := (c.nodes n).handlers.eraseIdx k } :=
    { hn with handlers := fun hd hmem => hn.handlers hd (mem_of_mem_eraseIdx hmem) }
  refine h.post h.inv (refl n A) hx le_rfl ?_
  intro m hm
  rw [mem_singleton] at hm
  subst hm
  exact hack

/-! ## Restarts -/

/-- A restart on the files, with the log `d` and the cursors at the boundary `v`. -/
theorem Coupled.restart {r : RaftLog Op} {d : Log Op} {v : Nat}
    (hd : A.disk n <+: d) (hdl : d <+: A.log n ∨ A.log n <+: d ∧ d <+: A.llog (A.term n))
    (hrep : Rep r d d) (hv : StableTo A v)
    (hvle : v ≤ (c.nodes n).log.lastApplied) (hvd : v ≤ d.length)
    (hcur : r.snapshotIndex = v ∧ r.commitIndex = v ∧ r.lastApplied = v)
    (hsafe : safe → (c.nodes n).log.commitIndex ≤ d.length) :
    ∃ A', Coupled safe (c.set n (start (c.nodes n).saved r)) A' := by
  have hn := h.nodes n
  obtain ⟨hrs, hrc, hra⟩ := hcur
  have hm : Moves n A (A.crash n d v) := moves_crash v hd
  have hinv := h.inv.crash hd hdl (hvle.trans (hn.cursors.1.trans hn.cidx).le)
    fun hs => hn.cidx.symm.trans_le (hsafe hs)
  have hlog : (A.crash n d v).log n = d := by rw [crash_log, if_pos rfl]
  have hdisk : (A.crash n d v).disk n = d := by rw [crash_disk, if_pos rfl]
  have hsaved := hn.saved
  refine ⟨_, h.set hinv hm ?_ (hra.trans_le hvle)⟩
  exact {
    term := by
      rw [hsaved]
      exact hn.term
    saved := rfl
    vote := by
      rw [hsaved]
      exact hn.vote
    rep := by
      rw [hlog, hdisk]
      exact hrep
    stable := by
      simp only [start, hrs]
      exact hv.mono hm.toGrows
    cidx := by
      rw [crash_cidx, if_pos rfl]
      exact hrc
    cursors := ⟨hra.trans hrc.symm, (hrs.trans hra.symm).le⟩
    alone := fun _ => by
      simp only [start, hlog, hrc]
      exact hvd
    leads := nofun
    stands := nofun
    main := nofun
    handlers := nofun
    pending := nofun }

variable {k : Option Nat}
  (hk : ∀ j ∈ k, ∀ t ∈ (c.nodes n).handlers[j]?.bind Handler.appendTerm, (c.nodes n).term = t)
include hk

/-- The log that a crash finds in memory, in the term of the request if a handler is appending. -/
theorem Coupled.writing :
    ∃ b l, RepAt b ((c.nodes n).writing k) l (A.disk n) ∧
      (l = A.log n ∨ A.log n <+: l ∧ l <+: A.llog (A.term n)) ∧
      ((c.nodes n).writing k).snapshotIndex = (c.nodes n).log.snapshotIndex := by
  have hn := h.nodes n
  obtain ⟨b, hrep⟩ := hn.rep
  unfold Node.writing
  split
  · exact ⟨b, _, hrep, .inl rfl, rfl⟩
  · next j =>
    split
    · next req hj =>
      obtain ⟨hreq, -⟩ := hn.handlers _ (mem_of_getElem? hj)
      obtain ⟨M, i, hM, hown, hpi, hiM, hent, hbuilt⟩ := hreq.built
      have hterm : A.term n = req.term := hn.term.symm.trans (hk j rfl req.term (by rw [hj]; rfl))
      rw [hent]
      obtain ⟨l, hl, hor⟩ := hrep.appending (t := req.prevTerm) hpi hiM
        (fun _ hcheck => agree_of_built h.inv hterm hM hown hiM hbuilt hcheck)
        (fun hk hk' he => (h.inv.log_from n).matching ((h.inv.llog_from _).of_le hM) hk hk' he)
      refine ⟨b, l, hl, hor.imp_right ?_, ?_⟩
      · rintro ⟨rfl, hle⟩
        exact ⟨hle, hterm ▸ hM⟩
      · unfold RaftLog.appending
        dsimp only
        split_ifs <;> rfl
    · exact ⟨b, _, hrep, .inl rfl, rfl⟩

theorem Coupled.crash {w : Cut Op} (hw : ¬ ((c.nodes n).writing k).Overrun w)
    (hsafe : safe → (c.nodes n).log.commitIndex ≤ (((c.nodes n).writing k).reopen w).lastIndex) :
    ∃ A', Coupled safe (c.set n (start (c.nodes n).saved
      (((c.nodes n).writing k).reopen w))) A' := by
  have hn := h.nodes n
  obtain ⟨b, l, hrep, hl, hsnap⟩ := h.writing hk
  obtain ⟨hsn, hci, hla, hrep'⟩ := hrep.reopen hw
  have htake : l.take ((A.disk n).length + w.whole) <+: l := List.take_prefix _ _
  refine h.restart ?_ ?_ ⟨b, hrep'⟩ (hsnap ▸ hn.stable) (hsnap.trans_le hn.cursors.2) ?_
    ⟨hsn, hci, hla⟩ fun hs => ?_
  · exact List.prefix_of_prefix_length_le hrep.disk_le htake (by
      have := hrep.disk_le.length_le
      rw [length_take]
      omega)
  · rcases hl with rfl | ⟨hle, hlead⟩
    · exact .inl htake
    · exact (List.prefix_or_prefix_of_prefix htake hle).imp_right fun hp => ⟨hp, htake.trans hlead⟩
  · exact hsn ▸ hrep'.snap_le
  · exact hrep'.lastIndex ▸ hsafe hs

omit hk in
theorem Coupled.crashCompacting {u : Nat} {behind : List (LogEntry Op) × Bool} (hu : StableTo A u)
    (hw : ¬ (c.nodes n).log.Overrun ⟨0, false, behind⟩)
    (hsafe : safe →
      (c.nodes n).log.commitIndex ≤ ((c.nodes n).log.reopenCompacting u behind).lastIndex) :
    ∃ A', Coupled safe
      (c.set n (start (c.nodes n).saved ((c.nodes n).log.reopenCompacting u behind))) A' := by
  have hn := h.nodes n
  obtain ⟨b, hrep⟩ := hn.rep
  obtain ⟨v, hv, hsn, hci, hla, hrep'⟩ := hrep.reopenCompacting hu.le_disk hw
  refine h.restart prefix_rfl (.inl hrep.disk_le) ⟨b, hrep'⟩ (v := v) ?_ ?_ ?_ ⟨hsn, hci, hla⟩
    fun hs => ?_
  · rcases hv with rfl | ⟨rfl, -, -⟩
    · exact hn.stable
    · exact hu
  · rcases hv with rfl | ⟨rfl, -, hle⟩
    · exact hn.cursors.2
    · exact hle
  · exact hsn ▸ hrep'.snap_le
  · exact hrep'.lastIndex ▸ hsafe hs

end ElyraSql.Raft
