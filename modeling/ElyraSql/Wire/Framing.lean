import ElyraSql.Wire.Packet

/-!
# Framing

What `end_packet` writes and what `next_async` reads: the loop of the reader is the general one over
the parser of a packet.
-/

namespace ElyraSql.Wire

open RecordFile StreamReader List Nat PacketWriter Option

/-! ## The writer -/

variable (written : Nat → Nat) {p : List UInt8} {fuel : Nat}

theorem writeFrames_concat (seq : UInt8) (full : List (List UInt8)) (last : List UInt8) :
    writeFrames written seq (full ++ [last]) = packetFrames seq full last := by
  induction full generalizing seq with
  | nil => simp [writeFrames, packetFrames, writeFrame_eq]
  | cons chunk full ih => rw [cons_append, writeFrames, writeFrame_eq, ih, packetFrames]

theorem chunksOf_nil (n fuel : Nat) : chunksOf n fuel [] = [] := by
  cases fuel <;> rfl

theorem chunksOf_succ (n fuel : Nat) (hp : p ≠ []) :
    chunksOf n (fuel + 1) p = p.take n :: chunksOf n fuel (p.drop n) := by
  rw [chunksOf, isEmpty_eq_false_iff.mpr hp, if_neg Bool.false_ne_true]

theorem chunksOf_le {n : Nat} (fuel : Nat) (hp : p ≠ []) (hle : p.length ≤ n) :
    chunksOf n (fuel + 1) p = [p] := by
  rw [chunksOf_succ n fuel hp, drop_of_length_le hle, chunksOf_nil, take_of_length_le hle]

/-- A payload is cut into full chunks and a shorter one, unless it ends with a full one. -/
theorem chunksOf_eq {n : Nat} (hn : 0 < n) (hfuel : p.length ≤ fuel) (hp : p.length % n ≠ 0) :
    ∃ full last, chunksOf n fuel p = full ++ [last] ∧ full.flatten ++ last = p ∧
      (∀ c ∈ full, c.length = n) ∧ last.length < n ∧ full.length = p.length / n := by
  induction fuel generalizing p with
  | zero =>
    rw [le_zero.mp hfuel] at hp
    exact absurd rfl hp
  | succ fuel ih =>
    have hne : p ≠ [] := by
      rintro rfl
      exact hp (zero_mod n)
    by_cases hlt : p.length < n
    · exact ⟨[], p, chunksOf_le fuel hne hlt.le, rfl, nofun, hlt, (div_eq_of_lt hlt).symm⟩
    · have hle := not_lt.mp hlt
      have hdrop : (p.drop n).length = p.length - n := length_drop
      obtain ⟨full, last, hchunks, hflat, hfull, hlast, hcount⟩ := @ih (p.drop n)
        (by omega) (by rwa [hdrop, ← mod_eq_sub_mod hle])
      refine ⟨p.take n :: full, last, by rw [chunksOf_succ n fuel hne, hchunks]; rfl, ?_,
        ?_, hlast, ?_⟩
      · rw [flatten_cons, append_assoc, hflat, take_append_drop]
      · intro c hc
        rcases mem_cons.mp hc with rfl | hc
        · rw [length_take]
          omega
        · exact hfull c hc
      · rw [length_cons, hcount, hdrop, div_eq_sub_div hn hle]

theorem length_packetFrames (seq : UInt8) (full : List (List UInt8)) (last : List UInt8) :
    (packetFrames seq full last).length =
      (full.flatten ++ last).length + 4 * (full.length + 1) := by
  induction full generalizing seq with
  | nil => simp [packetFrames, length_frame]; omega
  | cons chunk full ih =>
    rw [packetFrames, length_append, length_frame, ih]
    simp only [flatten_cons, length_append, length_cons]
    omega

/-- The payloads that reach the reader: their last frame is a shorter one, and their frames fit its
limit. -/
def Fits (limit : Nat) (payload : List UInt8) : Prop :=
  payload.length % u24Max ≠ 0 ∧ payload.length + 4 * (payload.length / u24Max + 1) ≤ limit

instance (limit : Nat) (payload : List UInt8) : Decidable (Fits limit payload) :=
  inferInstanceAs (Decidable (_ ∧ _))

variable {limit : Nat} {payload : List UInt8}

theorem endPacket_eq (h : Fits limit payload) (seq : UInt8) (written : Nat → Nat) :
    ∃ full last seq',
      endPacket ⟨payload, seq⟩ written = (packetFrames seq full last, ⟨[], seq'⟩) ∧
      Framed full last ∧ full.flatten ++ last = payload ∧
      (packetFrames seq full last).length ≤ limit := by
  have hne : payload.isEmpty = false := by
    refine isEmpty_eq_false_iff.mpr ?_
    rintro rfl
    exact h.1 (zero_mod _)
  obtain ⟨full, last, hchunks, hflat, hfull, hlast, hcount⟩ :=
    chunksOf_eq (by decide) le_rfl h.1
  refine ⟨full, last, seq + UInt8.ofNat (full ++ [last]).length, ?_, ⟨hfull, hlast⟩, hflat, ?_⟩
  · rw [endPacket, hne, if_neg Bool.false_ne_true]
    dsimp only
    rw [chunks, hchunks, writeFrames_concat]
  · rw [length_packetFrames, hflat, hcount]
    exact h.2

/-! ## What is read is framed -/

def numbered : UInt8 → List (List UInt8) → List (UInt8 × List UInt8)
  | _, [] => []
  | seq, chunk :: rest => (seq, chunk) :: numbered (seq + 1) rest

def streamOf (fs : List (UInt8 × List UInt8)) : List UInt8 := fs.flatMap fun f => frame f.1 f.2

def carried (fs : List (UInt8 × List UInt8)) : List UInt8 := fs.flatMap Prod.snd

theorem writeFrames_eq (seq : UInt8) (cs : List (List UInt8)) :
    writeFrames written seq cs = streamOf (numbered seq cs) := by
  induction cs generalizing seq with
  | nil => rfl
  | cons chunk rest ih => rw [writeFrames, writeFrame_eq, ih]; rfl

theorem carried_numbered (seq : UInt8) (cs : List (List UInt8)) :
    carried (numbered seq cs) = cs.flatten := by
  induction cs generalizing seq with
  | nil => rfl
  | cons chunk rest ih => rw [flatten_cons, ← ih (seq + 1)]; rfl

variable {seq : UInt8}

theorem mem_numbered {cs : List (List UInt8)} {f : UInt8 × List UInt8} (h : f ∈ numbered seq cs) :
    f.2 ∈ cs := by
  induction cs generalizing seq with
  | nil => exact nomatch h
  | cons chunk rest ih =>
    rcases mem_cons.mp h with rfl | h
    · exact mem_cons_self
    · exact mem_cons_of_mem _ (ih h)

/-- A frame that the writer makes. -/
def FrameOk (f : UInt8 × List UInt8) : Prop := f.2 ≠ [] ∧ f.2.length ≤ u24Max

theorem chunksOf_parts {n : Nat} (hn : 0 < n) (hfuel : p.length ≤ fuel) :
    (chunksOf n fuel p).flatten = p ∧ ∀ c ∈ chunksOf n fuel p, c ≠ [] ∧ c.length ≤ n := by
  induction fuel generalizing p with
  | zero =>
    rw [eq_nil_of_length_eq_zero (le_zero.mp hfuel)]
    exact ⟨rfl, nofun⟩
  | succ fuel ih =>
    by_cases hp : p = []
    · subst hp
      exact ⟨rfl, nofun⟩
    · have hpos := length_pos_iff.mpr hp
      obtain ⟨hflat, hparts⟩ := @ih (p.drop n) (by rw [length_drop]; omega)
      rw [chunksOf_succ n fuel hp]
      refine ⟨by rw [flatten_cons, hflat, take_append_drop], fun c hc => ?_⟩
      rcases mem_cons.mp hc with rfl | hc
      · refine ⟨ne_nil_of_length_pos ?_, ?_⟩ <;> rw [length_take] <;> omega
      · exact hparts c hc

/-- What is written for a payload are frames that carry it. -/
theorem endPacket_frames (hne : payload ≠ []) (seq : UInt8) (written : Nat → Nat) : ∃ fs seq',
      endPacket ⟨payload, seq⟩ written = (streamOf fs, ⟨[], seq'⟩) ∧
      carried fs = payload ∧ ∀ f ∈ fs, FrameOk f := by
  obtain ⟨hflat, hparts⟩ := @chunksOf_parts payload _ u24Max (by decide) le_rfl
  refine ⟨numbered seq (chunks u24Max payload), seq + UInt8.ofNat (chunks u24Max payload).length,
    ?_, ?_, fun f hf => hparts _ (mem_numbered hf)⟩
  · rw [endPacket, isEmpty_eq_false_iff.mpr hne, if_neg Bool.false_ne_true]
    dsimp only
    rw [writeFrames_eq]
  · rw [carried_numbered, chunks, hflat]

variable {sends : List Send} {w : PacketWriter}

theorem sendAll_frames (hw : w.buffer = []) (hne : ∀ p ∈ sends, p.payload ≠ []) :
    ∃ fs, sendAll w sends = streamOf fs ∧ ∀ f ∈ fs, FrameOk f := by
  induction sends generalizing w with
  | nil => exact ⟨[], rfl, nofun⟩
  | cons p sends ih =>
    obtain ⟨fs, seq', hend, -, hok⟩ :=
      endPacket_frames (hne p mem_cons_self) (p.setSeq.getD w.seq) p.written
    obtain ⟨fs', hrest, hok'⟩ := @ih ⟨[], seq'⟩ rfl fun q hq => hne q (mem_cons_of_mem _ hq)
    refine ⟨fs ++ fs', ?_, fun f hf => (mem_append.mp hf).elim (hok f) (hok' f)⟩
    rw [sendAll, hw, nil_append, hend]
    rw [hrest, streamOf, streamOf, streamOf, flatMap_append]

variable {rest : List UInt8} {assembled : Option Packet} {fs : List (UInt8 × List UInt8)}
  {v : UInt8 × Packet} {previous : Option UInt8}

/-- A packet that is found in a part of the stream is made of its first frames: full ones, up to the
first that is not. -/
theorem packetLoop_done (hok : ∀ f ∈ fs, FrameOk f) {k : Nat} (hassembled : AssembledOk assembled)
    (h : packetLoop fuel previous assembled ((streamOf fs).take k) = .done v rest) :
    ∃ full last tail, fs = full ++ last :: tail ∧ (∀ f ∈ full, f.2.length = u24Max) ∧
      last.2.length < u24Max ∧ (streamOf (full ++ [last])).length ≤ k ∧
      v.2.asRef = assembledBytes assembled ++ carried (full ++ [last]) := by
  induction fs generalizing fuel k previous assembled with
  | nil =>
    rw [streamOf, flatMap_nil, take_nil] at h
    cases fuel with
    | zero | succ fuel => cases h
  | cons f fs ih =>
    obtain ⟨hne, hle⟩ := hok f mem_cons_self
    cases fuel with
    | zero => cases h
    | succ fuel =>
      have hlt : f.2.length < 256 ^ 3 := lt_of_le_of_lt hle (by decide)
      have hstream : streamOf (f :: fs) = frame f.1 f.2 ++ streamOf fs := flatMap_cons
      rw [hstream] at h
      by_cases hk : k < (frame f.1 f.2).length
      · -- the first frame is cut off
        rw [take_append_of_le_length hk.le] at h
        simp only [packetLoop, fullpacket_take hle hk, onepacket_take hlt hk, ite_self] at h
        cases h
      · have hk := not_lt.mp hk
        rw [take_append, take_of_length_le hk] at h
        obtain ⟨hadd, hbytes⟩ := addFrame_ok hassembled f.2
        have hpfx := isPrefixOf_frame f.1 ((streamOf fs).take (k - (frame f.1 f.2).length)) hle
        by_cases hfull : f.2.length = u24Max
        · rw [decide_eq_true hfull] at hpfx
          simp only [packetLoop, fullpacket_frame hfull] at h
          split_ifs at h
          obtain ⟨full, last, tail, rfl, hall, hlast, hlen, hv⟩ :=
            ih (fun g hg => hok g (mem_cons_of_mem _ hg)) hadd h
          refine ⟨f :: full, last, tail, rfl, ?_, hlast, ?_, ?_⟩
          · exact fun g hg => (mem_cons.mp hg).elim (fun heq => heq ▸ hfull) (hall g)
          · have hcons : streamOf (f :: full ++ [last]) =
                frame f.1 f.2 ++ streamOf (full ++ [last]) := flatMap_cons
            rw [hcons, length_append]
            omega
          · have hcons : carried (f :: full ++ [last]) = f.2 ++ carried (full ++ [last]) :=
              flatMap_cons
            rw [hv, hcons, assembledBytes, elim_some, hbytes, append_assoc]
        · rw [decide_eq_false hfull] at hpfx
          simp only [packetLoop, hpfx, onepacket_frame hlt, Bool.false_eq_true, if_false] at h
          split_ifs at h
          cases h
          refine ⟨[], f, fs, rfl, forall_mem_nil _, lt_of_le_of_ne hle hfull, ?_, ?_⟩
          · simpa [streamOf] using hk
          · simpa [carried] using hbytes

theorem length_streamOf (fs : List (UInt8 × List UInt8)) :
    (streamOf fs).length = (carried fs).length + 4 * fs.length := by
  induction fs with
  | nil => rfl
  | cons f fs ih =>
    have hstream : streamOf (f :: fs) = frame f.1 f.2 ++ streamOf fs := flatMap_cons
    have hcarried : carried (f :: fs) = f.2 ++ carried fs := flatMap_cons
    rw [hstream, hcarried, length_append, length_append, length_frame, length_cons]
    omega

theorem length_carried {full : List (UInt8 × List UInt8)} (h : ∀ f ∈ full, f.2.length = u24Max) :
    (carried full).length = full.length * u24Max := by
  induction full with
  | nil => rfl
  | cons f full ih =>
    have hcarried : carried (f :: full) = f.2 ++ carried full := flatMap_cons
    rw [hcarried, length_append, h f mem_cons_self,
      ih fun g hg => h g (mem_cons_of_mem _ hg), length_cons, succ_mul, add_comm]

theorem fits_of_found {k : Nat} (hok : ∀ f ∈ fs, FrameOk f) (hk : k ≤ limit)
    (h : packet ((streamOf fs).take k) = .done v rest) : Fits limit v.2.asRef := by
  obtain ⟨full, last, tail, rfl, hfull, hlast, hlen, hv⟩ := packetLoop_done hok assembledOk_none h
  have hpos := length_pos_iff.mpr (hok last (by simp)).1
  have hcarried : (carried (full ++ [last])).length = last.2.length + full.length * u24Max := by
    rw [carried, flatMap_append, length_append, ← carried, length_carried hfull,
      flatMap_singleton, add_comm]
  have hdiv : (carried (full ++ [last])).length / u24Max = full.length := by
    rw [hcarried, add_mul_div_right _ _ (by decide), div_eq_of_lt hlast, zero_add]
  rw [assembledBytes, elim_none, nil_append] at hv
  rw [length_streamOf, length_append, length_singleton] at hlen
  rw [hv]
  refine ⟨?_, ?_⟩
  · rw [hcarried, add_mul_mod_self_right, mod_eq_of_lt hlast]
    omega
  · omega

/-! ## The reader -/

variable {i kept : List UInt8} {r : PacketReader}

/-- What `fullpacket` leaves is the end of what it was given. -/
theorem fullpacket_suffix (h : fullpacket i = some (rest, seq, payload)) : rest <:+ i := by
  unfold fullpacket at h
  split_ifs at h
  split at h
  case h_1 => exact nomatch h
  case h_2 seq' i' hdrop =>
    split_ifs at h
    cases h
    exact (drop_suffix _ _).trans ((suffix_cons _ _).trans (hdrop ▸ drop_suffix _ _))

theorem onepacket_suffix (h : onepacket i = some (rest, seq, payload)) : rest <:+ i := by
  obtain ⟨⟨len, i'⟩, hread, h⟩ := bind_eq_some_iff.mp h
  have hi' : i' <:+ i := by
    unfold readLe at hread
    split_ifs at hread
    cases hread
    exact drop_suffix _ _
  dsimp only at h
  split at h
  case h_1 => exact nomatch h
  case h_2 seq' i'' =>
    split_ifs at h
    cases h
    exact (drop_suffix _ _).trans ((suffix_cons _ _).trans hi')

theorem packetLoop_suffix (h : packetLoop fuel previous assembled i = .done v rest) :
    rest <:+ i := by
  induction fuel generalizing previous assembled i with
  | zero => cases h
  | succ fuel ih =>
    rw [packetLoop] at h
    split_ifs at h with hp
    · split at h
      case h_1 => cases h
      case h_2 rest' seq payload hfull =>
        split_ifs at h
        exact (ih h).trans (fullpacket_suffix hfull)
    · split at h
      case h_1 => cases h
      case h_2 rest' seq payload hone =>
        split_ifs at h
        cases h
        exact onepacket_suffix hone

/-- How much a read can take. -/
def room (limit : Nat) (first : Bool) (kept : Nat) : Option Nat :=
  if limit ≤ kept then none
  else some
    (grown limit (if first then packetBufferSize else packetLargeBufferSize) kept kept - kept)

theorem hasRoom (limit : Nat) : HasRoom (room limit) limit := by
  intro first kept hlt
  refine ⟨_, ?_, if_neg (not_le.mpr hlt)⟩
  have hpos : 0 < if first then packetBufferSize else packetLargeBufferSize := by
    cases first <;> decide
  rw [grown, Nat.sub_self, if_pos hpos]
  omega

theorem room_le (limit : Nat) (first : Bool) (kept n : Nat) (h : room limit first kept = some n) :
    kept + n ≤ limit := by
  unfold room at h
  split_ifs at h with hle
  all_goals
    cases h
    rw [grown]
    split_ifs <;> omega

/-- What the reader has kept: the last `remaining` bytes of its buffer. -/
structure Keeps (r : PacketReader) (kept : List UInt8) : Prop where
  le : r.remaining ≤ r.bytes.length
  eq : r.bytes.drop (r.bytes.length - r.remaining) = kept

theorem Keeps.length (h : Keeps r kept) : kept.length = r.remaining := by
  have := h.le
  rw [← h.eq, length_drop]
  omega

def resultOf : StreamReader.Outcome (UInt8 × Packet) → Except ReadError (Option (UInt8 × Packet))
  | .value p => .ok (some p)
  | .closed => .ok none
  | .cut left => .error (.unexpectedEof left)
  | .tooLong => .error .tooLarge
  | .bad => .error .invalidData
  | .outOfReads => .error .outOfReads

variable {o : StreamReader.Outcome (UInt8 × Packet)} {s : Source UInt8}

/-- The loop of `next_async` reads as `pull` does. -/
theorem nextLoop_eq_pull {first : Bool} {kept' : List UInt8} {s' : Source UInt8} (hr : Keeps r kept)
    (hstart : r.start = r.bytes.length - r.remaining)
    (h : pull packet (room limit) fuel first kept s = (o, kept', s')) :
    ∃ r', nextLoop limit fuel (if first then packetBufferSize else packetLargeBufferSize) r s =
        (resultOf o, r', s') ∧ ∀ v, o = .value v → Keeps r' kept' := by
  induction fuel generalizing first r kept s with
  | zero =>
    cases h
    exact ⟨r, rfl, by rintro _ ⟨⟩⟩
  | succ fuel ih =>
    have hdrop : r.bytes.drop r.start = kept := hstart ▸ hr.eq
    have hlen := hr.length
    have htry : (if r.remaining ≠ 0 then packet
      ((r.bytes.drop r.start).take r.remaining) else .more) =
        if kept.isEmpty then Parsed.more else packet kept := by
      rw [hdrop, ← hlen, take_length]
      cases kept with
      | nil => rfl
      | cons b kept => rfl
    rw [nextLoop, htry]
    rw [pull] at h
    cases hparsed : (if kept.isEmpty then Parsed.more else packet kept) with
    | done v rest =>
      have hsuffix : rest <:+ r.bytes := by
        split_ifs at hparsed
        exact (packetLoop_suffix hparsed).trans (hdrop ▸ drop_suffix _ _)
      obtain ⟨t, ht⟩ := hsuffix
      rw [hparsed] at h
      cases h
      refine ⟨_, rfl, fun _ _ => ⟨?_, ?_⟩⟩
      · rw [← ht, length_append]
        exact le_add_left _ _
      · rw [← ht, length_append, Nat.add_sub_cancel, drop_left]
    | bad =>
      rw [hparsed] at h
      cases h
      exact ⟨_, rfl, by rintro _ ⟨⟩⟩
    | more =>
      rw [hparsed] at h
      simp only [hdrop]
      by_cases hlimit : limit ≤ r.remaining
      · rw [room, hlen, if_pos hlimit] at h
        cases h
        rw [if_pos hlimit]
        exact ⟨_, rfl, by rintro _ ⟨⟩⟩
      · rw [room, hlen, if_neg hlimit] at h
        dsimp only at h
        rw [if_neg hlimit, ← hlen, take_length, hlen]
        generalize s.read (grown limit _ r.remaining r.remaining - r.remaining) = read at h ⊢
        cases hdata : read.1 with
        | nil =>
          rw [hdata] at h
          cases kept with
          | nil =>
            cases h
            exact ⟨_, rfl, by rintro _ ⟨⟩⟩
          | cons b kept =>
            cases h
            refine ⟨⟨b :: kept, 0, r.remaining⟩, ?_, by rintro _ ⟨⟩⟩
            simp only [append_nil, hlen]
            rfl
        | cons b data =>
          rw [hdata] at h
          have hkeeps : Keeps ⟨kept ++ b :: data, 0, r.remaining + (b :: data).length⟩
              (kept ++ b :: data) := by
            refine ⟨?_, ?_⟩ <;> simp [hlen]
          exact @ih _ _ _ false hkeeps (by simp [hlen]) h

theorem Keeps.nextAsync {kept' : List UInt8} {s' : Source UInt8} (hr : Keeps r kept)
    (h : pull packet (room limit) fuel true kept s = (o, kept', s')) :
    ∃ r', r.nextAsync limit fuel s = (resultOf o, r', s') ∧ ∀ v, o = .value v → Keeps r' kept' := by
  have hr' : Keeps { r with start := r.bytes.length - r.remaining } kept := ⟨hr.le, hr.eq⟩
  exact nextLoop_eq_pull hr' rfl h

/-! ## Round trip -/

/-- One call of `next_async` on a stream that goes on with a packet. -/
theorem nextAsync_packet {full : List (List UInt8)} {last : List UInt8} (h : Framed full last)
    (hlimit : (packetFrames seq full last).length ≤ limit) (hr : Keeps r kept)
    (hstream : kept ++ s.rest = packetFrames seq full last ++ rest) (hfuel : s.rest.length < fuel) :
    ∃ r' s' kept', r.nextAsync limit fuel s =
        (.ok (some (lastSeq seq full, assemble none full last)), r', s') ∧ Keeps r' kept' ∧
      kept' ++ s'.rest = rest ∧ s'.rest.length ≤ s.rest.length := by
  obtain ⟨kept', s', hpull, hrest, hle⟩ := pull_value (reads_packet h seq)
    (packetFrames_ne_nil _ _ _) (hasRoom limit) hlimit hstream hfuel
  obtain ⟨r', hnext, hkeeps⟩ := hr.nextAsync hpull
  exact ⟨r', s', kept', hnext, hkeeps _ rfl, hrest, hle⟩

/-- The whole stream is read, from any point between two packets. -/
theorem readAll_sendAll {calls : Nat} (hlimit : 0 < limit) (hw : w.buffer = [])
    (hfits : ∀ p ∈ sends, Fits limit p.payload) (hcalls : sends.length < calls) (hr : Keeps r kept)
    (hstream : kept ++ s.rest = sendAll w sends) (hfuel : s.rest.length < fuel) :
    readAll limit fuel calls r s = (sends.map Send.payload, none) := by
  induction sends generalizing calls w r kept s with
  | nil =>
    obtain ⟨calls, rfl⟩ := Nat.exists_eq_add_of_lt hcalls
    obtain ⟨fuel, rfl⟩ := exists_eq_add_one_of_ne_zero (ne_zero_of_lt hfuel)
    obtain ⟨rfl, hs⟩ := append_eq_nil_iff.mp hstream
    obtain ⟨s', hpull⟩ := @pull_closed _ _ _ packet _ _ fuel true (hasRoom limit) hlimit hs
    obtain ⟨r', hnext, -⟩ := hr.nextAsync hpull
    rw [readAll, hnext]
    rfl
  | cons p sends ih =>
    obtain ⟨calls, rfl⟩ := Nat.exists_eq_add_of_lt hcalls
    obtain ⟨full, last, seq', hend, hframed, hflat, hlen⟩ :=
      endPacket_eq (hfits p mem_cons_self) (p.setSeq.getD w.seq) p.written
    rw [sendAll, hw, nil_append, hend] at hstream
    obtain ⟨r', s', kept', hnext, hkeeps, hrest, hle⟩ :=
      nextAsync_packet hframed hlen hr hstream hfuel
    have hcalls' : sends.length < (p :: sends).length + calls := by
      rw [length_cons]
      omega
    have hread := ih (w := ⟨[], seq'⟩) rfl (fun q hq => hfits q (mem_cons_of_mem _ hq)) hcalls'
      hkeeps hrest (by omega)
    have hbytes : (assemble none full last).asRef = p.payload := by
      rw [asRef_assemble assembledOk_none, assembledBytes, elim_none, nil_append, hflat]
    rw [readAll, hnext]
    dsimp only
    rw [hread, hbytes]
    rfl

/-- Where the packets are read as they were sent, they fit. -/
theorem fits_of_readAll {calls : Nat} (hw : w.buffer = []) (hne : ∀ p ∈ sends, p.payload ≠ [])
    (hr : Keeps r kept) (hkept : kept.length ≤ limit) (hstream : kept ++ s.rest = sendAll w sends)
    (hfuel : s.rest.length < fuel)
    (h : readAll limit fuel calls r s = (sends.map Send.payload, none)) :
    ∀ p ∈ sends, Fits limit p.payload := by
  induction sends generalizing calls w r kept s with
  | nil => exact nofun
  | cons p sends ih =>
    obtain ⟨fs, hfs, hok⟩ := sendAll_frames hw hne
    cases calls with
    | zero => exact nomatch h
    | succ calls =>
      obtain ⟨⟨o, kept', s'⟩, hpull⟩ :
          ∃ x, pull packet (room limit) fuel true kept s = x := ⟨_, rfl⟩
      obtain ⟨r', hnext, hkeeps⟩ := hr.nextAsync hpull
      rw [readAll, hnext] at h
      cases o with
      | value v =>
        obtain ⟨hfirst, hrest⟩ : v.2.asRef = p.payload ∧
            readAll limit fuel calls r' s' = (sends.map Send.payload, none) := by
          rw [resultOf] at h
          rw [map_cons, Prod.mk.injEq, List.cons.injEq] at h
          exact ⟨h.1.1, Prod.ext h.1.2 h.2⟩
        obtain ⟨k, hk, hdone⟩ := pull_found (room_le limit) hkept hpull
        have hkept' : kept'.length ≤ limit := by
          have hle := (packetLoop_suffix hdone).length_le
          rw [length_take] at hle
          omega
        have hfits : Fits limit p.payload := by
          rw [hstream, hfs] at hdone
          exact hfirst ▸ fits_of_found hok hk hdone
        -- the rest of the stream is what the others sent
        obtain ⟨full, last, seq', hend, hframed, -, hlen⟩ :=
          endPacket_eq hfits (p.setSeq.getD w.seq) p.written
        rw [sendAll, hw, nil_append, hend] at hstream
        obtain ⟨kept'', s'', hpull', hleft, hle⟩ :=
          pull_value (reads_packet hframed _) (packetFrames_ne_nil _ _ _) (hasRoom limit) hlen
            hstream hfuel
        rw [hpull] at hpull'
        cases hpull'
        have hothers := @ih ⟨[], seq'⟩ kept' r' s' calls rfl
          (fun q hq => hne q (mem_cons_of_mem _ hq)) (hkeeps _ rfl) hkept' hleft (by omega) hrest
        exact fun q hq => (mem_cons.mp hq).elim (fun heq => heq ▸ hfits) (hothers q)
      | closed | cut left | tooLong | bad | outOfReads => exact nomatch h

/-- Packets are read as they were written, each once, in order, and nothing is left, however the
writes and the reads split the stream, exactly when their lengths are no multiples of `U24_MAX` and
their frames fit the limit of the reader. -/
theorem packets_roundTrip {limit : Nat} (hlimit : 0 < limit) {sends : List Send}
    (hne : ∀ p ∈ sends, p.payload ≠ []) (seq : UInt8) (sizes : Nat → Nat) {fuel calls : Nat}
    (hfuel : (sendAll { seq := seq } sends).length < fuel) (hcalls : sends.length < calls) :
    readAll limit fuel calls {} ⟨sendAll { seq := seq } sends, sizes, 0⟩ =
      (sends.map Send.payload, none) ↔ ∀ p ∈ sends, Fits limit p.payload :=
  ⟨fits_of_readAll rfl hne ⟨le_rfl, rfl⟩ (zero_le _) rfl hfuel,
    fun hfits => readAll_sendAll hlimit rfl hfits hcalls ⟨le_rfl, rfl⟩ rfl hfuel⟩

/-- A short packet, and one of two frames that begins the sequence anew. -/
def twoPackets : List Send :=
  [⟨none, [1, 2, 3], fun _ => 2⟩, ⟨some 0, replicate (u24Max + 1) 4, fun _ => 5⟩]

theorem packets_roundTrip_two : ∃ fuel,
    readAll (2 ^ 26) fuel 3 {} ⟨sendAll {} twoPackets, fun _ => 2, 0⟩ =
      (twoPackets.map Send.payload, none) := by
  have hshort : Fits (2 ^ 26) [1, 2, 3] := by decide
  have hlong : Fits (2 ^ 26) (replicate (u24Max + 1) 4) := by
    rw [Fits, length_replicate]
    decide
  have hfits : ∀ p ∈ twoPackets, Fits (2 ^ 26) p.payload :=
    forall_mem_cons.mpr ⟨hshort, forall_mem_singleton.mpr hlong⟩
  obtain ⟨fuel, hfuel⟩ : ∃ fuel, (sendAll { seq := 0 } twoPackets).length < fuel :=
    ⟨_, Nat.lt_succ_self _⟩
  refine ⟨fuel, (packets_roundTrip (by decide) (fun p hp hnil => ?_) 0 (fun _ => 2) hfuel
    (by decide)).mpr hfits⟩
  exact (hfits p hp).1 (by rw [hnil]; rfl)

/-- A full frame alone is not a packet: at the end of the stream the reader reports an error. -/
theorem readAll_fullFrame (hlimit : u24Max + 8 ≤ limit) {p : Send}
    (hp : p.payload.length = u24Max) (seq : UInt8) (sizes : Nat → Nat) (fuel calls : Nat)
    (hfuel : u24Max + 4 < fuel) :
    readAll limit fuel (calls + 1) {} ⟨sendAll { seq := seq } [p], sizes, 0⟩ =
      ([], some (.unexpectedEof (u24Max + 4))) := by
  have hne : p.payload ≠ [] := ne_nil_of_length_pos (by rw [hp]; decide)
  have hchunks : chunks u24Max p.payload = [p.payload] := by
    rw [chunks, hp]
    exact chunksOf_le _ hne hp.le
  have hsent : sendAll { seq := seq } [p] = frame (p.setSeq.getD seq) p.payload := by
    simp only [sendAll, endPacket, nil_append, isEmpty_eq_false_iff.mpr hne,
      Bool.false_eq_true, if_false, hchunks, writeFrames, writeFrame_eq, append_nil]
  have hlen : (frame (p.setSeq.getD seq) p.payload).length = u24Max + 4 := by
    rw [length_frame, hp, add_comm]
  -- the frame is the beginning of a packet that ends with an empty frame
  have hframed : Framed [p.payload] [] :=
    ⟨fun c hc => mem_singleton.mp hc ▸ hp, by decide⟩
  have hcode := length_packetFrames (p.setSeq.getD seq) [p.payload] []
  simp only [flatten_cons, flatten_nil, append_nil, length_singleton] at hcode
  obtain ⟨s', hpull⟩ := @pull_cut _ _ ⟨frame (p.setSeq.getD seq) p.payload, sizes, 0⟩ _
    (room limit) _ [] limit fuel true _ (reads_packet hframed (p.setSeq.getD seq)) (hasRoom limit)
    (by omega) (by simp [frame, header]) (prefix_append _ _)
    (by rw [nil_append, hlen]; omega) (by rw [hlen]; omega)
  obtain ⟨r', hnext, -⟩ := Keeps.nextAsync (r := {}) ⟨le_rfl, rfl⟩ hpull
  rw [readAll, hsent, hnext]
  dsimp only [resultOf]
  rw [nil_append, hlen]

/-- After a payload of `U24_MAX` bytes the reader waits for a shorter frame. -/
theorem packet_of_full_frames :
    readAll 67108864 67108864 2 {}
        ⟨sendAll {} [⟨none, List.replicate u24Max 0, fun _ => 0⟩], fun _ => 65536, 0⟩ =
      ([], some (.unexpectedEof (u24Max + 4))) :=
  readAll_fullFrame (by decide) length_replicate 0 _ _ _ (by decide)

end ElyraSql.Wire
