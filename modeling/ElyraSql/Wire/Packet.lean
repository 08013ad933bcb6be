import ElyraSql.Library.RecordFile
import ElyraSql.Library.StreamReader

/-!
# Packets

`elyra-wire/src/packet_writer.rs` and `packet_reader.rs`: a payload is written as frames of at most
`U24_MAX` bytes, each with its length and a sequence number in front, and read back from a stream
that arrives in any pieces.
-/

namespace ElyraSql.Wire

open RecordFile StreamReader List

def u24Max : Nat := 16777215

/-! ## Writer -/

/-- The loop of `slice::chunks`, for at most `fuel` chunks. -/
def chunksOf (n : Nat) : Nat → List UInt8 → List (List UInt8)
  | 0, _ => []
  | fuel + 1, bytes => if bytes.isEmpty then [] else bytes.take n :: chunksOf n fuel (bytes.drop n)

def chunks (n : Nat) (bytes : List UInt8) : List (List UInt8) := chunksOf n bytes.length bytes

/-- The header of a frame: the length in three bytes and the sequence number. -/
def header (len : Nat) (seq : UInt8) : List UInt8 := RecordFile.leBytes 3 len ++ [seq]

/-- One frame, of which the first write takes `written` bytes; the others are written after it. -/
def writeFrame (written : Nat) (seq : UInt8) (chunk : List UInt8) : List UInt8 :=
  let bytes := header chunk.length seq ++ chunk
  bytes.take written ++ if written ≠ 4 + chunk.length then bytes.drop written else []

/-- `PacketWriter`: the bytes of the packet being built, and the next sequence number. -/
structure PacketWriter where
  buffer : List UInt8 := []
  seq : UInt8 := 0

/-- The frames of some chunks; `written` says how much each first write takes. -/
def writeFrames (written : Nat → Nat) : UInt8 → List (List UInt8) → List UInt8
  | _, [] => []
  | seq, chunk :: rest =>
    writeFrame (written rest.length) seq chunk ++ writeFrames written (seq + 1) rest

/-- `end_packet`: what is written to the stream, and the writer afterwards. -/
def PacketWriter.endPacket (w : PacketWriter) (written : Nat → Nat) : List UInt8 × PacketWriter :=
  if w.buffer.isEmpty then ([], w)
  else
    let cs := chunks u24Max w.buffer
    (writeFrames written w.seq cs, { buffer := [], seq := w.seq + UInt8.ofNat cs.length })

/-- A packet to be sent: `set_seq` if it is called, and the bytes of the payload. -/
structure Send where
  setSeq : Option UInt8 := none
  payload : List UInt8
  written : Nat → Nat

def sendAll : PacketWriter → List Send → List UInt8
  | _, [] => []
  | w, p :: ps =>
    let r := PacketWriter.endPacket
      { buffer := w.buffer ++ p.payload, seq := p.setSeq.getD w.seq } p.written
    r.1 ++ sendAll r.2 ps

/-! ## Reader -/

/-- `fullpacket`: a frame of `U24_MAX` bytes. -/
def fullpacket (i : List UInt8) : Option (List UInt8 × UInt8 × List UInt8) :=
  if [255, 255, 255].isPrefixOf i then
    match i.drop 3 with
    | [] => none
    | seq :: i => if i.length < u24Max then none else some (i.drop u24Max, seq, i.take u24Max)
  else none

def onepacket (i : List UInt8) : Option (List UInt8 × UInt8 × List UInt8) :=
  (readLe 3 i).bind fun (len, i) =>
    match i with
    | [] => none
    | seq :: i => if i.length < len then none else some (i.drop len, seq, i.take len)

/-- `Packet`: a slice of the buffer, or the bytes of several frames. -/
structure Packet where
  slice : List UInt8
  joined : List UInt8 := []
  deriving DecidableEq, Repr

def Packet.extend (p : Packet) (bytes : List UInt8) : Packet :=
  if p.slice.isEmpty then
    if p.joined.isEmpty then { p with slice := bytes } else { p with joined := p.joined ++ bytes }
  else { slice := [], joined := p.slice ++ bytes }

def Packet.asRef (p : Packet) : List UInt8 := if p.joined.isEmpty then p.slice else p.joined

/-- A sequence number that does not follow the one before. -/
def outOfOrder (previous : Option UInt8) (seq : UInt8) : Bool := previous.any fun p => seq != p + 1

def addFrame (assembled : Option Packet) (payload : List UInt8) : Packet :=
  match assembled with
  | some p => p.extend payload
  | none => { slice := payload }

/-- The loop of `packet` over full frames, for at most `fuel` of them, and the last frame. -/
def packetLoop : Nat → Option UInt8 → Option Packet → List UInt8 → Parsed UInt8 (UInt8 × Packet)
  | 0, _, _, _ => .more
  | fuel + 1, previous, assembled, i =>
    if [255, 255, 255].isPrefixOf i then
      match fullpacket i with
      | none => .more
      | some (rest, seq, payload) =>
        if outOfOrder previous seq then .bad
        else packetLoop fuel (some seq) (some (addFrame assembled payload)) rest
    else
      match onepacket i with
      | none => .more
      | some (rest, seq, payload) =>
        if outOfOrder previous seq then .bad else .done (seq, addFrame assembled payload) rest

/-- `packet`. An incomplete packet is `more`, whether nom calls it an error or incomplete. -/
def packet (i : List UInt8) : Parsed UInt8 (UInt8 × Packet) := packetLoop (i.length + 1) none none i

/-- `PacketReader`, without the stream. -/
structure PacketReader where
  bytes : List UInt8 := []
  start : Nat := 0
  remaining : Nat := 0

inductive ReadError
  | invalidData
  | tooLarge
  | unexpectedEof (left : Nat)
  | outOfReads
  deriving DecidableEq, Repr

def packetBufferSize : Nat := 4096

def packetLargeBufferSize : Nat := 1048576

/-- The size of the buffer for the next read, when `last` bytes of it are in use. -/
def grown (limit bufferSize len last : Nat) : Nat :=
  if len - last < bufferSize then min (max bufferSize (last * 2)) limit else len

/-- The loop of `next_async`, for at most `fuel` reads. -/
def nextLoop (limit : Nat) : Nat → Nat → PacketReader → Source UInt8 →
    Except ReadError (Option (UInt8 × Packet)) × PacketReader × Source UInt8
  | 0, _, r, s => (.error .outOfReads, r, s)
  | fuel + 1, bufferSize, r, s =>
    match if r.remaining ≠ 0 then packet ((r.bytes.drop r.start).take r.remaining) else .more with
    | .done p rest => (.ok (some p), { r with remaining := rest.length }, s)
    | .bad => (.error .invalidData, { r with bytes := r.bytes.take r.remaining }, s)
    | .more =>
      let bytes := r.bytes.drop r.start
      let last := r.remaining
      if limit ≤ last then (.error .tooLarge, ⟨[], 0, 0⟩, s)
      else
        let read := s.read (grown limit bufferSize bytes.length last - last)
        let r' : PacketReader := ⟨bytes.take last ++ read.1, 0, last + read.1.length⟩
        if read.1.length = 0 then
          if r'.bytes.isEmpty then (.ok none, r', read.2)
          else (.error (.unexpectedEof r'.bytes.length), r', read.2)
        else nextLoop limit fuel packetLargeBufferSize r' read.2

def PacketReader.nextAsync (limit fuel : Nat) (r : PacketReader) (s : Source UInt8) :
    Except ReadError (Option (UInt8 × Packet)) × PacketReader × Source UInt8 :=
  nextLoop limit fuel packetBufferSize { r with start := r.bytes.length - r.remaining } s

/-- Read packets until the stream ends or a call fails, for at most `calls` calls of `fuel` reads.
-/
def readAll (limit fuel : Nat) : Nat → PacketReader → Source UInt8 →
    List (List UInt8) × Option ReadError
  | 0, _, _ => ([], some .outOfReads)
  | calls + 1, r, s =>
    match r.nextAsync limit fuel s with
    | (.ok (some p), r', s') =>
      let (ps, e) := readAll limit fuel calls r' s'
      (p.2.asRef :: ps, e)
    | (.ok none, _, _) => ([], none)
    | (.error e, _, _) => ([], some e)

/-! ## Frames -/

/-- A frame as it is written, however the writes split it. -/
def frame (seq : UInt8) (chunk : List UInt8) : List UInt8 := header chunk.length seq ++ chunk

theorem writeFrame_eq (written : Nat) (seq : UInt8) (chunk : List UInt8) :
    writeFrame written seq chunk = frame seq chunk := by
  have hlen : (header chunk.length seq ++ chunk).length = 4 + chunk.length := by
    simp only [header, length_append, length_leBytes, length_singleton]
  by_cases hw : written = 4 + chunk.length
  · rw [writeFrame, if_neg (not_not.mpr hw), append_nil, hw, ← hlen, take_length]
    rfl
  · rw [writeFrame, if_pos hw, take_append_drop]
    rfl

/-- The frames of a packet: full ones, then a shorter one. -/
def packetFrames : UInt8 → List (List UInt8) → List UInt8 → List UInt8
  | seq, [], last => frame seq last
  | seq, chunk :: full, last => frame seq chunk ++ packetFrames (seq + 1) full last

theorem Packet.asRef_extend {p : Packet} (h : p.slice ≠ [] → p.joined = []) (bytes : List UInt8) :
    (p.extend bytes).asRef = p.asRef ++ bytes := by
  obtain ⟨slice, joined⟩ := p
  cases slice with
  | nil =>
    cases joined with
    | nil => rfl
    | cons b joined => rfl
  | cons b slice =>
    cases h (cons_ne_nil _ _)
    rfl

theorem Packet.extend_ok {p : Packet} (h : p.slice ≠ [] → p.joined = []) (bytes : List UInt8) :
    (p.extend bytes).slice ≠ [] → (p.extend bytes).joined = [] := by
  obtain ⟨slice, joined⟩ := p
  cases slice with
  | nil =>
    cases joined with
    | nil => exact fun _ => rfl
    | cons b joined => exact fun hne => absurd rfl hne
  | cons b slice => exact fun hne => absurd rfl hne

/-- Only the length of a full frame is written as three bytes `0xff`. -/
theorem leBytes_eq_full {n : Nat} (h : n < 256 ^ 3)
    (hn : RecordFile.leBytes 3 n = [255, 255, 255]) :
    n = u24Max := by
  have hread := ofLeBytes_leBytes h
  rw [hn] at hread
  exact hread.symm

variable {chunk : List UInt8} (seq : UInt8)

theorem isPrefixOf_frame (t : List UInt8) (h : chunk.length ≤ u24Max) :
    [255, 255, 255].isPrefixOf (frame seq chunk ++ t) = decide (chunk.length = u24Max) := by
  have hlt : chunk.length < 256 ^ 3 := lt_of_le_of_lt h (by decide)
  rw [Bool.eq_iff_iff, List.isPrefixOf_iff_prefix, decide_eq_true_eq]
  have hshape : frame seq chunk ++ t =
      RecordFile.leBytes 3 chunk.length ++ ([seq] ++ chunk ++ t) := by
    simp [frame, header]
  rw [hshape]
  constructor
  · intro hp
    have heq : RecordFile.leBytes 3 chunk.length = [255, 255, 255] :=
      (prefix_of_prefix_length_le hp (prefix_append _ _) (by simp)).eq_of_length
        (by simp) |>.symm
    exact leBytes_eq_full hlt heq
  · intro heq
    rw [heq]
    exact prefix_append _ _

theorem frame_eq (chunk t : List UInt8) :
    frame seq chunk ++ t = RecordFile.leBytes 3 chunk.length ++ (seq :: (chunk ++ t)) := by
  simp [frame, header]

theorem length_frame (chunk : List UInt8) : (frame seq chunk).length = 4 + chunk.length := by
  simp only [frame, header, length_append, length_leBytes, length_singleton]

variable {seq : UInt8} {k : Nat} {assembled : Option Packet}

theorem fullpacket_frame (h : chunk.length = u24Max) (t : List UInt8) :
    fullpacket (frame seq chunk ++ t) = some (t, seq, chunk) := by
  have hpfx := isPrefixOf_frame seq t h.le
  rw [fullpacket, hpfx, decide_eq_true h, if_pos rfl, frame_eq, drop_left' (length_leBytes 3 _)]
  dsimp only
  rw [if_neg (by simp [h]), drop_left' h, take_left' h]

theorem onepacket_frame (h : chunk.length < 256 ^ 3) (t : List UInt8) :
    onepacket (frame seq chunk ++ t) = some (t, seq, chunk) := by
  rw [onepacket, frame_eq, readLe_leBytes h, Option.bind_some]
  dsimp only
  rw [if_neg (by simp), drop_left, take_left]

/-- The part of a frame that has arrived: less than its length, or the length and some of the rest.
-/
theorem take_frame (hk : 3 ≤ k) :
    (frame seq chunk).take k = RecordFile.leBytes 3
      chunk.length ++ (seq :: chunk).take (k - 3) := by
  have h := frame_eq seq chunk []
  rw [append_nil, append_nil] at h
  rw [h, take_append, take_of_length_le (by exact hk), length_leBytes]

theorem onepacket_take (h : chunk.length < 256 ^ 3) (hk : k < (frame seq chunk).length) :
    onepacket ((frame seq chunk).take k) = none := by
  rw [length_frame] at hk
  by_cases h3 : 3 ≤ k
  · rw [take_frame h3, onepacket, readLe_leBytes h, Option.bind_some]
    cases hk3 : k - 3 with
    | zero => rfl
    | succ j =>
      simp only [take_succ_cons]
      rw [if_pos (by rw [length_take]; omega)]
  · have hshort : ((frame seq chunk).take k).length < 3 := by
      rw [length_take]
      omega
    rw [onepacket, readLe, if_pos hshort]
    rfl

theorem fullpacket_take (h : chunk.length ≤ u24Max) (hk : k < (frame seq chunk).length) :
    fullpacket ((frame seq chunk).take k) = none := by
  rw [length_frame] at hk
  rw [fullpacket]
  split_ifs with hp
  · have h3 : 3 ≤ k := by
      have hlen := (List.isPrefixOf_iff_prefix.mp hp).length_le
      rw [length_take] at hlen
      simp only [length_cons] at hlen
      omega
    rw [take_frame h3, drop_left' (length_leBytes 3 _)]
    cases hk3 : k - 3 with
    | zero => rfl
    | succ j =>
      simp only [take_succ_cons]
      rw [if_pos (by rw [length_take]; omega)]
  · rfl

/-! ## Packets -/

/-- The bytes that are assembled so far. -/
def assembledBytes (assembled : Option Packet) : List UInt8 := assembled.elim [] Packet.asRef

/-- What is assembled is a slice or joined bytes, not both. -/
def AssembledOk (assembled : Option Packet) : Prop :=
  ∀ p, assembled = some p → p.slice ≠ [] → p.joined = []

theorem assembledOk_none : AssembledOk none := fun _ hp => nomatch hp

theorem addFrame_ok (h : AssembledOk assembled) (payload : List UInt8) :
    AssembledOk (some (addFrame assembled payload)) ∧
      (addFrame assembled payload).asRef = assembledBytes assembled ++ payload := by
  cases assembled with
  | none => exact ⟨fun p hp _ => by cases hp; rfl, rfl⟩
  | some p =>
    refine ⟨fun q hq hne => ?_, Packet.asRef_extend (h p rfl) payload⟩
    cases hq
    exact Packet.extend_ok (h p rfl) payload hne

/-- The packet that its frames make. -/
def assemble : Option Packet → List (List UInt8) → List UInt8 → Packet
  | assembled, [], last => addFrame assembled last
  | assembled, chunk :: full, last => assemble (some (addFrame assembled chunk)) full last

theorem asRef_assemble (h : AssembledOk assembled) (full : List (List UInt8)) (last : List UInt8) :
    (assemble assembled full last).asRef = assembledBytes assembled ++ full.flatten ++ last := by
  induction full generalizing assembled with
  | nil => simpa [assemble] using (addFrame_ok h last).2
  | cons chunk full ih =>
    obtain ⟨hok, hbytes⟩ := addFrame_ok h chunk
    rw [assemble, ih hok]
    simp [assembledBytes, hbytes]

def lastSeq : UInt8 → List (List UInt8) → UInt8
  | seq, [] => seq
  | seq, _ :: full => lastSeq (seq + 1) full

section Loop

variable {full : List (List UInt8)} {last : List UInt8} {previous : Option UInt8}

/-- The frames of a packet that its end can be seen in. -/
structure Framed (full : List (List UInt8)) (last : List UInt8) : Prop where
  full : ∀ c ∈ full, c.length = u24Max
  last : last.length < u24Max

theorem packetLoop_frames (h : Framed full last) {fuel : Nat} (hfuel : full.length < fuel)
    (hseq : outOfOrder previous seq = false) (assembled : Option Packet) (t : List UInt8) :
    packetLoop fuel previous assembled (packetFrames seq full last ++ t) =
      .done (lastSeq seq full, assemble assembled full last) t := by
  induction full generalizing fuel seq previous assembled with
  | nil =>
    obtain ⟨fuel, rfl⟩ := Nat.exists_eq_add_of_lt hfuel
    have hlt : last.length < 256 ^ 3 := h.last.trans (by decide)
    have hpfx := isPrefixOf_frame seq t h.last.le
    rw [decide_eq_false h.last.ne] at hpfx
    simp only [packetFrames, packetLoop, hpfx, onepacket_frame hlt, hseq]
    rfl
  | cons chunk full ih =>
    obtain ⟨fuel, rfl⟩ := Nat.exists_eq_add_of_lt hfuel
    have hchunk := h.full chunk mem_cons_self
    have hpfx := isPrefixOf_frame seq (packetFrames (seq + 1) full last ++ t) hchunk.le
    rw [decide_eq_true hchunk] at hpfx
    rw [packetFrames, append_assoc]
    simp only [packetLoop, hpfx, fullpacket_frame hchunk, hseq]
    exact ih ⟨fun c hc => h.full c (mem_cons_of_mem _ hc), h.last⟩
      (by simp only [length_cons]; omega) (by simp [outOfOrder]) _

/-- A packet that is cut off anywhere is not read. -/
theorem packetLoop_take (h : Framed full last) (fuel : Nat) (hseq : outOfOrder previous seq = false)
    (assembled : Option Packet) (hk : k < (packetFrames seq full last).length) :
    packetLoop fuel previous assembled ((packetFrames seq full last).take k) = .more := by
  induction full generalizing fuel seq previous assembled k with
  | nil =>
    cases fuel with
    | zero => rfl
    | succ fuel =>
      have hlt : last.length < 256 ^ 3 := h.last.trans (by decide)
      simp only [packetFrames, packetLoop, fullpacket_take h.last.le hk,
        onepacket_take hlt hk, ite_self]
  | cons chunk full ih =>
    cases fuel with
    | zero => rfl
    | succ fuel =>
      have hchunk := h.full chunk mem_cons_self
      rw [packetFrames, length_append] at hk
      rw [packetFrames]
      by_cases hfirst : k < (frame seq chunk).length
      · have hlt : chunk.length < 256 ^ 3 := hchunk ▸ by decide
        rw [take_append_of_le_length hfirst.le]
        simp only [packetLoop, fullpacket_take hchunk.le hfirst,
          onepacket_take hlt hfirst, ite_self]
      · -- the first frame is there, and a part of the others
        have htake : (frame seq chunk ++ packetFrames (seq + 1) full last).take k =
            frame seq chunk ++ (packetFrames (seq + 1) full last).take
              (k - (frame seq chunk).length) := by
          rw [take_append, take_of_length_le (not_lt.mp hfirst)]
        have hpfx := fun t => isPrefixOf_frame seq t hchunk.le
        rw [decide_eq_true hchunk] at hpfx
        rw [htake]
        simp only [packetLoop, hpfx, fullpacket_frame hchunk, hseq]
        exact ih ⟨fun c hc => h.full c (mem_cons_of_mem _ hc), h.last⟩ fuel
          (by simp [outOfOrder]) _ (by omega)

end Loop

theorem reads_packet {full : List (List UInt8)} {last : List UInt8} (h : Framed full last)
    (seq : UInt8) :
    Reads packet (packetFrames seq full last) (lastSeq seq full, assemble none full last) where
  whole rest := by
    have hlen : full.length < (packetFrames seq full last ++ rest).length + 1 := by
      have hle : ∀ seq : UInt8, full.length ≤ (packetFrames seq full last).length := by
        induction full with
        | nil => exact fun _ => Nat.zero_le _
        | cons chunk full ih =>
          intro seq
          have := ih ⟨fun c hc => h.full c (mem_cons_of_mem _ hc), h.last⟩ (seq + 1)
          rw [packetFrames, length_append, length_frame, length_cons]
          omega
      have := hle seq
      rw [length_append]
      omega
    exact packetLoop_frames h hlen rfl none rest
  part k hk := packetLoop_take h _ rfl none hk

theorem packetFrames_ne_nil (seq : UInt8) (full : List (List UInt8)) (last : List UInt8) :
    packetFrames seq full last ≠ [] := by
  cases full <;> simp [packetFrames, frame, header]

end ElyraSql.Wire
