import XchannelNet.Channel.Inbound
import XchannelNet.Channel.Outbound

/-!
# Ends — what either end of a subscription makes of the byte stream

The server writes whole frames and, when a poll fails, leaves off anywhere in
the last one. A client that reads whole frames of the records that are due
applies them and fails only where the bytes end; while the connection is open
they do not end, reads just stop.
-/

namespace XchannelNet

open Wire

namespace Wire

/-! ## An open connection -/

/-- What comes of a schedule of reads while the peer has not closed: where no
byte is on its way, or nothing is foretold, a read would block. -/
def Arrival.opened : List Arrival → ℕ → List Arrival
  | [], _ => [.wouldBlock]
  | .bytes n :: rest, avail =>
    if avail = 0 then [.wouldBlock]
    else .bytes n :: opened rest (avail - min (max n 1) READ_CHUNK)
  | .wouldBlock :: _, _ => [.wouldBlock]
  | .interrupted :: rest, avail => .interrupted :: opened rest avail

/-- No read comes to the end of the stream before one that would block, and
`P` holds of how many bytes are left there. -/
def Arrival.Blocks (P : ℕ → Prop) : List Arrival → ℕ → Prop
  | [], _ => False
  | .bytes n :: rest, avail => 0 < avail ∧ Blocks P rest (avail - min (max n 1) READ_CHUNK)
  | .wouldBlock :: _, avail => P avail
  | .interrupted :: rest, avail => Blocks P rest avail

theorem Arrival.opened_blocks (arrivals : List Arrival) (avail : ℕ) :
    Blocks (fun _ => True) (opened arrivals avail) avail := by
  fun_induction opened arrivals avail with
  | case1 | case2 | case4 => trivial
  | case3 n rest avail hne ih => exact ⟨Nat.pos_of_ne_zero hne, ih⟩
  | case5 rest avail ih => exact ih

def Socket.Blocks (P : ℕ → Prop) (s : Socket) : Prop :=
  Arrival.Blocks P s.arrivals s.stream.length

/-- A read of such a connection never comes to the end of the stream. -/
theorem Socket.Blocks.read {P : ℕ → Prop} {s : Socket} (h : s.Blocks P) :
    (∃ bytes s', s.read READ_CHUNK = (.ok bytes, s') ∧ bytes ≠ [] ∧ s'.Blocks P) ∨
    (∃ s', s.read READ_CHUNK = (.error .interrupted, s') ∧ s'.Blocks P) ∨
    ∃ s', s.read READ_CHUNK = (.error .wouldBlock, s') ∧ P s'.stream.length := by
  have hchunk : 0 < READ_CHUNK := by decide
  obtain ⟨stream, arrivals⟩ := s
  cases arrivals with
  | nil => exact h.elim
  | cons a rest =>
      cases a with
      | bytes n =>
          obtain ⟨hpos, hrest⟩ := h
          refine .inl ⟨_, _, rfl, fun hnil => ?_, ?_⟩
          · rcases List.take_eq_nil_iff.mp hnil with h0 | h0
            · omega
            · rw [h0] at hpos
              exact absurd hpos (lt_irrefl 0)
          · simp only [Blocks, List.length_drop, List.tail_cons]
            exact hrest
      | wouldBlock => exact .inr (.inr ⟨_, rfl, h⟩)
      | interrupted => exact .inr (.inl ⟨_, rfl, h⟩)

/-- Neither does a call: it stops where a read would block, with no whole frame
buffered, or it has a frame, or the stream is no stream of frames. -/
theorem FramedConn.tryRecvFrame_blocks {P : ℕ → Prop} (c : FramedConn)
    (h : c.socket.Blocks P) :
    (∃ c', c.tryRecvFrame = (.ok none, c') ∧ P c'.socket.stream.length ∧
      recvFramed c'.buffered = .error .unexpectedEof) ∨
    (∃ frame c', c.tryRecvFrame = (.ok (some frame), c') ∧ c'.socket.Blocks P) ∨
    ∃ c', c.tryRecvFrame = (.error .invalidData, c') := by
  induction hn : c.socket.todo using Nat.strong_induction_on generalizing c with
  | _ n ih =>
      rcases c.takeBufferedFrame_spec with ⟨ht, -⟩ | ⟨ht, hr⟩ | ⟨frame, c', ht, -, hs⟩
      · rw [tryRecvFrame, ht]
        exact .inr (.inr ⟨c, rfl⟩)
      · rw [tryRecvFrame_read ht]
        have hspec := c.socket.read_spec READ_CHUNK (by decide)
        rcases h.read with ⟨bytes, s', hread, hne, hs'⟩ | ⟨s', hread, hs'⟩ | ⟨s', hread, hP⟩
        · rw [hread] at hspec ⊢
          dsimp only
          rw [if_neg hne]
          rcases hspec with ⟨bytes', s'', heq, -, -, hlt, -⟩ | ⟨e, s'', heq, -⟩
          · cases heq
            exact ih _ (hn ▸ hlt hne) _ hs' rfl
          · cases heq
        · rw [hread] at hspec ⊢
          dsimp only
          rcases hspec with ⟨bytes', s'', heq, -⟩ | ⟨e, s'', heq, -, hstream, harr⟩
          · cases heq
          · cases heq
            have htodo : s'.todo < n := by
              rw [← hn]
              simp only [Socket.todo, hstream]
              omega
            exact ih _ htodo { c with socket := s' } hs' rfl
        · rw [hread]
          exact .inl ⟨_, rfl, hP, hr⟩
      · rw [tryRecvFrame, ht]
        exact .inr (.inl ⟨frame, c', rfl, hs ▸ h⟩)

/-- Bytes on their way, and the schedule they and those before are read by. -/
def FramedConn.facing (c : FramedConn) (bytes : List UInt8) (arrivals : List Arrival) :
    FramedConn :=
  { c with socket := ⟨c.socket.stream ++ bytes, arrivals⟩ }

@[simp] theorem FramedConn.rest_facing (c : FramedConn) (bytes : List UInt8)
    (arrivals : List Arrival) : (c.facing bytes arrivals).rest = c.rest ++ bytes := by
  simp only [rest, facing, buffered, List.append_assoc]

/-- A socket that will make this of the writes to come. -/
def FramedOut.facing (c : FramedOut) (uptakes : List Uptake) : FramedOut :=
  ⟨⟨c.socket.taken, uptakes⟩, c.outbox, c.outboxOff, c.off_le⟩

/-- A socket does not give back what it took. -/
theorem FramedOut.flushOver_taken (us : List Uptake) (c : FramedOut) :
    c.socket.taken <+: (flushOver us c).2.socket.taken := by
  fun_induction flushOver us c with
  | case1 c => exact List.prefix_append _ _
  | case2 | case4 | case6 | case7 => exact List.prefix_rfl
  | case3 rest c hoff n hn ih => exact (List.prefix_append _ _).trans ih
  | case5 rest c hoff ih => exact ih

theorem FramedOut.queueFrame_taken (c : FramedOut) (bytes : List UInt8) :
    c.socket.taken <+: (c.queueFrame bytes).2.socket.taken := by
  have hflush := flushOver_taken (c.push (Bytes.encode 4 bytes.length ++ bytes)).socket.uptakes
    (c.push (Bytes.encode 4 bytes.length ++ bytes))
  rw [queueFrame]
  split
  · exact List.prefix_rfl
  · split <;> rename_i heq <;> rw [← flush, heq] at hflush <;> exact hflush

/-- A frame is refused for its length, or in the stream whatever comes of the
write. -/
theorem FramedOut.queueFrame_stream (c : FramedOut) (bytes : List UInt8) :
    c.queueFrame bytes = (.error .invalidInput, c) ∨
    bytes.length ≤ MAX_FRAME_LEN ∧
      (c.queueFrame bytes).2.stream = c.stream ++ (Bytes.encode 4 bytes.length ++ bytes) := by
  have hflush := (flushOver_spec (c.push (Bytes.encode 4 bytes.length ++ bytes)).socket.uptakes
    (c.push (Bytes.encode 4 bytes.length ++ bytes))).1
  rw [stream_push] at hflush
  rw [queueFrame]
  split
  · exact .inl rfl
  · refine .inr ⟨not_lt.mp ‹_›, ?_⟩
    split <;> rename_i heq <;> rw [← flush, heq] at hflush <;> exact hflush

end Wire

/-! ## What the client makes of whole frames -/

/-- A frame that a server can send and a client can tell. -/
structure RecordFrame.Sendable (f : RecordFrame) : Prop where
  short : f.encoded.length ≤ MAX_FRAME_LEN
  indexed : f.index < 2 ^ 64

namespace RecordFrame

theorem length_framed (f : RecordFrame) : f.framed.length = 4 + f.encoded.length := by
  rw [framed, List.length_append, Bytes.length_encode]

theorem length_encoded (f : RecordFrame) : f.encoded.length = 28 + f.payload.length := by
  simp [encoded, encodeStream, toWire, W.u8, W.u16, W.u32, W.u64, W.bool, W.bytes]
  omega

/-- Decoding takes a frame to what it was. -/
theorem Sendable.decode {f : RecordFrame} (h : f.Sendable) :
    decodeStream f.encoded = .ok (.record STREAM_ID f.toWire) ∧ ofWire f.toWire = f := by
  have hmax : MAX_FRAME_LEN < 2 ^ 32 := by decide
  have hshort := h.short
  rw [length_encoded] at hshort
  have hfits : (StreamMsg.record STREAM_ID f.toWire).Fits :=
    show f.payload.length < 2 ^ 32 by omega
  refine ⟨(reads_stream hfits).accept _, ?_⟩
  simp only [ofWire, toWire, UInt64.toNat_ofNat_of_lt' h.indexed]

theorem recvFramed_framed {f : RecordFrame} (h : f.encoded.length ≤ MAX_FRAME_LEN)
    (rest : List UInt8) : Wire.recvFramed (f.framed ++ rest) = .ok (f.encoded, rest) := by
  have hsent : sendFramed f.encoded = .ok f.framed := by
    rw [sendFramed, if_neg (not_lt.mpr h), framed]
  exact recvFramed_sendFramed hsent rest

/-- What has arrived of a frame and more is too little for it, or the frame. -/
theorem Sendable.recvFramed {f : RecordFrame} (h : f.Sendable) {bytes tail : List UInt8}
    (hpre : bytes <+: f.framed ++ tail) :
    Wire.recvFramed bytes = .error .unexpectedEof ∨
      ∃ rest, bytes = f.framed ++ rest ∧ rest <+: tail ∧
        Wire.recvFramed bytes = .ok (f.encoded, rest) := by
  rcases Nat.lt_or_ge bytes.length f.framed.length with hlt | hge
  · left
    have hbytes : bytes <+: f.framed :=
      List.prefix_of_prefix_length_le hpre (List.prefix_append _ _) hlt.le
    rw [recvFramed_eq]
    split
    · rfl
    rename_i h4
    have htake : bytes.take 4 = Bytes.encode 4 f.encoded.length := by
      obtain ⟨more, hmore⟩ := hbytes
      have : (bytes ++ more).take 4 = Bytes.encode 4 f.encoded.length := by
        rw [hmore, framed]
        exact List.take_left' (Bytes.length_encode _ _)
      rwa [List.take_append_of_le_length (by omega)] at this
    have hfit : f.encoded.length < 256 ^ 4 := h.short.trans_lt (by decide)
    rw [length_framed] at hlt
    rw [htake, Bytes.decode_encode_of_lt hfit, if_neg (not_lt.mpr h.short), if_pos hlt]
  · right
    obtain ⟨rest, rfl⟩ : f.framed <+: bytes :=
      List.prefix_of_prefix_length_le (List.prefix_append _ _) hpre hge
    exact ⟨rest, rfl, (List.prefix_append_right_inj _).mp hpre, recvFramed_framed h.short rest⟩

end RecordFrame

/-- The replica is a window of the origin's log from `base` on, and the sink is
at its head. -/
structure ReplicationSink.Mirrors (base : ℕ) (l : Log) (sink : ReplicationSink) : Prop where
  based : sink.writer.genesis = base
  window : sink.writer.IsWindowOf l.toSegLog
  expected : sink.expectedIndex = sink.writer.head

theorem ReplicationSink.Mirrors.grown {base : ℕ} {sink : ReplicationSink} {l l' : Log}
    (h : sink.Mirrors base l) (hg : Relation.ReflTransGen Log.Grows l l') :
    sink.Mirrors base l' := by
  induction hg with
  | refl => exact h
  | tail _ hg ih => exact ⟨ih.based, ih.window.grow hg.records, ih.expected⟩

/-- Another segment makes no other replica. -/
theorem ReplicationSink.Mirrors.roll {base : ℕ} {sink : ReplicationSink} {l : Log}
    (h : sink.Mirrors base l) :
    ({ sink with writer := sink.writer.rollFile } : ReplicationSink).Mirrors base l :=
  ⟨h.based, h.window.roll, h.expected.trans (SegLog.head_roll _).symm⟩

theorem ReplicationSink.Mirrors.commit {base : ℕ} {sink : ReplicationSink} {l : Log}
    {f : RecordFrame} (h : sink.Mirrors base l) (hof : f.Of l)
    (hidx : f.index = sink.expectedIndex) :
    (⟨sink.writer.commit f.record, sink.expectedIndex + 1⟩ : ReplicationSink).Mirrors base l := by
  have hget : l.get? sink.writer.head = some f.record := by
    rw [← h.expected, ← hidx]
    exact hof
  refine ⟨h.based, h.window.append hget, ?_⟩
  rw [h.expected]
  exact (SegLog.head_append _ _).symm

/-- The record that is due is applied, unless the writer fails at it. -/
theorem ReplicationSink.Mirrors.receive {base : ℕ} {sink : ReplicationSink} {l : Log}
    {f : RecordFrame} (h : sink.Mirrors base l) (hf : f.Sendable) (hof : f.Of l)
    (hidx : f.index = sink.expectedIndex) (fails : ℕ → Option WriterCall) :
    (∃ call sink', fails sink.expectedIndex = some call ∧
      sink.receive fails f.encoded = (.error (.sink (.refused call)), sink') ∧
      sink'.Mirrors base l ∧ sink'.expectedIndex = sink.expectedIndex) ∨
    ∃ sink', sink.receive fails f.encoded = (.ok (), sink') ∧ sink'.Mirrors base l ∧
      sink'.expectedIndex = sink.expectedIndex + 1 := by
  obtain ⟨hdecode, hback⟩ := hf.decode
  simp only [ReplicationSink.receive, hdecode, hback]
  rcases sink.applyOver_cases (fails sink.expectedIndex) f with ⟨e, happly, -⟩ |
    ⟨sink', happly, hover⟩ | ⟨call, writer, hfails, hwriter, hover⟩
  · rw [ReplicationSink.apply, if_neg (not_not.mpr hidx)] at happly
    cases happly
  · rw [ReplicationSink.apply, if_neg (not_not.mpr hidx)] at happly
    rw [hover]
    cases happly
    refine .inr ⟨_, rfl, ?_, rfl⟩
    cases f.startsSegment with
    | false => exact h.commit hof hidx
    | true => exact h.roll.commit hof hidx
  · rw [hover]
    refine .inl ⟨call, _, hfails, rfl, ?_, rfl⟩
    rcases hwriter with rfl | rfl
    · exact h
    · exact h.roll

/-- What the client has still to read is a part of these frames, which are the
records of the log that are due. -/
structure StreamClient.Follows (base : ℕ) (l : Log) (frames : List RecordFrame)
    (c : StreamClient) : Prop where
  bytes : c.transport <+: (frames.map RecordFrame.framed).flatten
  indices : frames.map RecordFrame.index = List.range' c.sink.expectedIndex frames.length
  records : ∀ f ∈ frames, f.Of l
  sendable : ∀ f ∈ frames, f.Sendable
  replica : c.sink.Mirrors base l

namespace StreamClient

variable {fails : ℕ → Option WriterCall} {base : ℕ} {l : Log} {frames : List RecordFrame}
  {c c' : StreamClient}

/-- One record: the bytes come to an end, the writer fails, or the next frame is applied. -/
theorem Follows.recvOne (h : Follows base l frames c) :
    c.recvOne fails = (.error (.io .unexpectedEof), c) ∨
    (∃ call c', fails c.sink.expectedIndex = some call ∧
      c.recvOne fails = (.error (.sink (.refused call)), c') ∧ c'.sink.Mirrors base l ∧
      c'.sink.expectedIndex = c.sink.expectedIndex) ∨
    ∃ f rest c', frames = f :: rest ∧ c.recvOne fails = (.ok (), c') ∧
      c.transport = f.framed ++ c'.transport ∧
      c'.sink.expectedIndex = c.sink.expectedIndex + 1 ∧ Follows base l rest c' := by
  cases frames with
  | nil =>
      left
      have hnil : c.transport = [] := List.prefix_nil.mp h.bytes
      have hrecv : recvFramed c.transport = .error .unexpectedEof := by
        rw [hnil]
        rfl
      rw [StreamClient.recvOne, hrecv]
  | cons f rest =>
      have hf := h.sendable f List.mem_cons_self
      have hbytes := h.bytes
      rw [List.map_cons, List.flatten_cons] at hbytes
      rcases hf.recvFramed hbytes with heof | ⟨more, hsplit, hpre, hrecv⟩
      · left
        rw [StreamClient.recvOne, heof]
      · right
        have hindices := h.indices
        rw [List.map_cons, List.length_cons, List.range'_succ, List.cons.injEq] at hindices
        have hone : ∀ r sink, c.sink.receive fails f.encoded = (r, sink) →
            c.recvOne fails = (r, { c with transport := more, sink }) := by
          intro r sink hsink
          simp only [StreamClient.recvOne, hrecv, hsink]
        rcases h.replica.receive hf (h.records f List.mem_cons_self) hindices.1 fails with
          ⟨call, sink, hfails, hsink, hmirrors, hsame⟩ | ⟨sink, hsink, hmirrors, hnext⟩
        · exact .inl ⟨call, _, hfails, hone _ _ hsink, hmirrors, hsame⟩
        · refine .inr ⟨f, rest, _, rfl, hone _ _ hsink, hsplit, hnext, hpre, ?_,
            fun g hg => h.records g (List.mem_cons_of_mem _ hg),
            fun g hg => h.sendable g (List.mem_cons_of_mem _ hg), hmirrors⟩
          dsimp only
          rw [hnext]
          exact hindices.2

theorem Follows.recvMany {n : ℕ} (h : Follows base l frames c)
    (hrun : recvMany fails n c = .ok c') :
    n ≤ frames.length ∧
    c.transport = ((frames.take n).map RecordFrame.framed).flatten ++ c'.transport ∧
    c'.sink.expectedIndex = c.sink.expectedIndex + n ∧ Follows base l (frames.drop n) c' := by
  induction n generalizing c frames with
  | zero =>
      cases hrun
      exact ⟨Nat.zero_le _, rfl, rfl, h⟩
  | succ n ih =>
      rw [StreamClient.recvMany] at hrun
      rcases h.recvOne with heof | ⟨call, c₁, -, hrefused, -⟩ |
        ⟨f, rest, c₁, rfl, hone, hsplit, hidx, hnext⟩
      · rw [heof] at hrun
        cases hrun
      · rw [hrefused] at hrun
        cases hrun
      · rw [hone] at hrun
        obtain ⟨hle, hbytes, hidx', hend⟩ := ih hnext hrun
        refine ⟨Nat.succ_le_succ hle, ?_, by omega, hend⟩
        rw [hsplit, hbytes, List.take_succ_cons, List.map_cons, List.flatten_cons,
          List.append_assoc]

/-- Over these frames the client fails only where the bytes end, or where the writer does. -/
theorem Follows.run (h : Follows base l frames c) :
    ((c.run fails).1 = .io .unexpectedEof ∨ ∃ i call, c.sink.expectedIndex ≤ i ∧
      fails i = some call ∧ (c.run fails).1 = .sink (.refused call)) ∧
    (c.run fails).2.Mirrors base l ∧
      ∃ n ≤ frames.length, (c.run fails).2.expectedIndex = c.sink.expectedIndex + n := by
  have hstop : ∀ {c : StreamClient} {frames : List RecordFrame}, Follows base l frames c →
      (c.recvOne fails = (.error (.io .unexpectedEof), c) ∨
        ∃ call c', fails c.sink.expectedIndex = some call ∧
          c.recvOne fails = (.error (.sink (.refused call)), c') ∧ c'.sink.Mirrors base l ∧
          c'.sink.expectedIndex = c.sink.expectedIndex) →
      ((c.run fails).1 = .io .unexpectedEof ∨ ∃ i call, c.sink.expectedIndex ≤ i ∧
        fails i = some call ∧ (c.run fails).1 = .sink (.refused call)) ∧
      (c.run fails).2.Mirrors base l ∧
        ∃ n ≤ frames.length, (c.run fails).2.expectedIndex = c.sink.expectedIndex + n := by
    intro c frames h hone
    rcases hone with heof | ⟨call, c', hfails, hrefused, hmirrors, hsame⟩
    · rw [run_error heof]
      exact ⟨.inl rfl, h.replica, 0, Nat.zero_le _, rfl⟩
    · rw [run_error hrefused]
      exact ⟨.inr ⟨_, call, le_rfl, hfails, rfl⟩, hmirrors, 0, Nat.zero_le _, hsame⟩
  induction frames generalizing c with
  | nil =>
      rcases h.recvOne with heof | hrefused | ⟨f, rest, c₁, hcons, -⟩
      · exact hstop h (.inl heof)
      · exact hstop h (.inr hrefused)
      · cases hcons
  | cons f rest ih =>
      rcases h.recvOne with heof | hrefused | ⟨g, rest', c₁, hcons, hone, -, hidx, hnext⟩
      · exact hstop h (.inl heof)
      · exact hstop h (.inr hrefused)
      · cases hcons
        rw [run_ok hone]
        obtain ⟨he, hm, n, hle, hn⟩ := ih hnext
        refine ⟨he.imp_right fun ⟨i, call, hi, hcall⟩ => ⟨i, call, by omega, hcall⟩, hm, n + 1,
          Nat.succ_le_succ hle, by omega⟩

end StreamClient

/-- More bytes have arrived, and are read by this schedule. -/
def ClientPollItem.facing (item : ClientPollItem) (bytes : List UInt8)
    (arrivals : List Wire.Arrival) : ClientPollItem :=
  { item with conn := item.conn.facing bytes arrivals }

theorem ReplicationSink.receive_error {fails : ℕ → Option WriterCall}
    {sink sink' : ReplicationSink} {bytes : List UInt8} {e : StreamError}
    (h : sink.receive fails bytes = (.error e, sink')) (kind : ErrorKind) : e ≠ .io kind := by
  rw [receive] at h
  split at h
  · cases h
    simp
  · rename_i frame heq
    rcases happly : sink.applyOver (fails sink.expectedIndex) (.ofWire frame) with ⟨e' | u, s⟩
    · rw [happly] at h
      cases h
      simp
    · rw [happly] at h
      cases h
  · cases h
    simp
  · cases h
    simp

/-- Polling a connection that is open does not come to the end of its stream,
and stops short of its batch only where a read would block. -/
theorem ClientPollItem.poll_blocks {fails : ℕ → Option WriterCall} {P : ℕ → Prop} (n : ℕ)
    (item : ClientPollItem) (hb : item.conn.socket.Blocks P) :
    (∃ k item', item.poll fails n = (.ok k, item') ∧ (k < n → P item'.conn.socket.stream.length ∧
      recvFramed item'.conn.buffered = .error .unexpectedEof)) ∨
    ∃ e item', item.poll fails n = (.error e, item') ∧ e ≠ .io .unexpectedEof := by
  induction n generalizing item with
  | zero => exact .inl ⟨0, item, rfl, nofun⟩
  | succ n ih =>
      rw [poll]
      rcases item.conn.tryRecvFrame_blocks hb with ⟨c', hr, hP, heof⟩ | ⟨bytes, c', hr, hb'⟩ |
        ⟨c', hr⟩
      · rw [hr]
        exact .inl ⟨0, _, rfl, fun _ => ⟨hP, heof⟩⟩
      · rw [hr]
        dsimp only
        rcases hs : item.sink.receive fails bytes with ⟨e | u, sink⟩
        · exact .inr ⟨e, _, rfl, ReplicationSink.receive_error hs _⟩
        · dsimp only
          rcases ih { item with conn := c', sink } hb' with ⟨k, item', hp, hstop⟩ |
            ⟨e, item', hp, hne⟩
          · rw [hp]
            exact .inl ⟨k + 1, item', rfl, fun hlt => hstop (Nat.lt_of_succ_lt_succ hlt)⟩
          · rw [hp]
            exact .inr ⟨e, item', rfl, hne⟩
      · rw [hr]
        exact .inr ⟨_, _, rfl, by simp⟩

/-! ## What the server sends -/

namespace ServerPollItem

variable {readFails : ℕ → SegLog.Reader → Option ErrorKind} {h : History} {start limit : ℕ}
  {item item' : ServerPollItem}

def facing (item : ServerPollItem) (uptakes : List Uptake) : ServerPollItem :=
  { item with conn := item.conn.facing uptakes }

/-- What the socket took and what is left are these frames, all of them read
from the log. A frame that was read and refused is not among them. -/
structure Wired (h : History) (start : ℕ) (sent : List RecordFrame) (item : ServerPollItem) :
    Prop where
  stream : item.conn.stream = (sent.map RecordFrame.framed).flatten
  read : sent <+: item.frames
  frames : History.Streams h start 0 item.clock item.frames item.source
  short : ∀ f ∈ sent, f.encoded.length ≤ MAX_FRAME_LEN

/-- No poll has failed: every frame that was read is sent. -/
structure Sends (h : History) (start limit : ℕ) (item : ServerPollItem) : Prop where
  forwards : Forwards h start limit item
  short : ∀ f ∈ item.frames, f.encoded.length ≤ MAX_FRAME_LEN

theorem Sends.wired (hs : Sends h start limit item) : Wired h start item.frames item :=
  ⟨hs.forwards.stream, List.prefix_rfl, hs.forwards.frames, hs.short⟩

theorem Sends.facing (hs : Sends h start limit item) (uptakes : List Uptake) :
    Sends h start limit (item.facing uptakes) :=
  ⟨⟨hs.forwards.limited, hs.forwards.stream, hs.forwards.frames, hs.forwards.bounded⟩, hs.short⟩

theorem Sends.flush (hs : Sends h start limit item) :
    Sends h start limit { item with conn := item.conn.flush.2 } := ⟨hs.forwards.flush, hs.short⟩

/-- What a step of the server leaves: the socket keeps what it took, and more
frames are sent; if the step did not fail, all that were read. -/
def Sent (h : History) (start limit : ℕ) (item : ServerPollItem)
    (r : Except ErrorKind ℕ × ServerPollItem) : Prop :=
  item.conn.socket.taken <+: r.2.conn.socket.taken ∧ item.clock ≤ r.2.clock ∧
    ∃ sent, item.frames <+: sent ∧ Wired h start sent r.2 ∧
      ∀ k, r.1 = .ok k → Sends h start limit r.2 ∧ sent = r.2.frames

theorem Sends.sent (hs : Sends h start limit item') {k : ℕ}
    (htaken : item.conn.socket.taken <+: item'.conn.socket.taken)
    (hclock : item.clock ≤ item'.clock) (hframes : item.frames <+: item'.frames) :
    Sent h start limit item (.ok k, item') :=
  ⟨htaken, hclock, item'.frames, hframes, hs.wired, fun _ _ => ⟨hs, rfl⟩⟩

theorem frames_next {f : RecordFrame} (hsome : (item.next h).1 = some f) :
    (item.next h).2.frames = item.frames ++ [f] := by
  change item.frames ++ (item.next h).1.toList = item.frames ++ [f]
  rw [hsome, Option.toList_some]

/-- A record is read and refused, or its write fails. -/
theorem Sends.queue_error (hs : Sends h start limit item) {f : RecordFrame} {e : ErrorKind}
    {c : FramedOut} (hsome : (item.next h).1 = some f)
    (hqueue : item.conn.queueFrame f.encoded = (.error e, c)) :
    Sent h start limit item (.error e, { (item.next h).2 with conn := c }) := by
  have hpoll := hs.forwards.frames.poll
  rw [Nat.zero_add] at hpoll
  have hframes := frames_next hsome
  have htaken := item.conn.queueFrame_taken f.encoded
  have hstream := item.conn.queueFrame_stream f.encoded
  rw [hqueue] at htaken hstream
  rcases hstream with hrefused | ⟨hshort, hstream⟩
  · cases hrefused
    refine ⟨htaken, Nat.le_succ _, item.frames, List.prefix_rfl,
      ⟨hs.forwards.stream, ?_, hpoll, hs.short⟩, nofun⟩
    rw [hframes]
    exact List.prefix_append _ _
  · refine ⟨htaken, Nat.le_succ _, item.frames ++ [f], List.prefix_append _ _,
      ⟨?_, ?_, hpoll, ?_⟩, nofun⟩
    · dsimp only at hstream ⊢
      rw [hstream, hs.forwards.stream, List.map_append, List.flatten_append]
      simp [RecordFrame.framed]
    · exact hframes ▸ List.prefix_rfl
    · exact List.forall_mem_append.mpr ⟨hs.short, by simpa using hshort⟩

theorem Sends.idle (hs : Sends h start limit item) (hnone : (item.next h).1 = none) :
    Sends h start limit (item.next h).2 := by
  refine ⟨hs.forwards.idle hnone, fun f hf => hs.short f ?_⟩
  change f ∈ item.frames ++ (item.next h).1.toList at hf
  rwa [hnone, Option.toList_none, List.append_nil] at hf

theorem Sends.queue (hs : Sends h start limit item)
    (hroom : item.conn.pendingOut < item.maxPendingOut) {f : RecordFrame} {c : FramedOut}
    (hsome : (item.next h).1 = some f) (hqueue : item.conn.queueFrame f.encoded = (.ok (), c)) :
    Sends h start limit { (item.next h).2 with conn := c } := by
  refine ⟨hs.forwards.queue hroom hsome hqueue, fun g hg => ?_⟩
  have hframes := frames_next hsome
  dsimp only at hg
  rw [hframes] at hg
  rcases List.mem_append.mp hg with hg | hg
  · exact hs.short g hg
  · have hstream := item.conn.queueFrame_stream f.encoded
    rw [hqueue] at hstream
    rcases hstream with hrefused | ⟨hshort, -⟩
    · cases hrefused
    · rw [List.mem_singleton.mp hg]
      exact hshort

theorem Sends.forward (hs : Sends h start limit item)
    (hroom : item.conn.pendingOut < item.maxPendingOut) (n : ℕ) :
    Sent h start limit item (forward readFails h n item) := by
  induction n generalizing item with
  | zero => exact hs.sent List.prefix_rfl le_rfl List.prefix_rfl
  | succ n ih =>
      have hidle := hs.idle
      have hqueue := fun f conn => hs.queue hroom (f := f) (c := conn)
      have herror := fun f e conn => hs.queue_error (f := f) (e := e) (c := conn)
      have hframes : item.frames <+: (item.next h).2.frames := List.prefix_append _ _
      have hclock : item.clock ≤ (item.next h).2.clock := Nat.le_succ _
      have hconn : (item.next h).2.conn = item.conn := rfl
      rw [ServerPollItem.forward]
      split
      · exact ⟨List.prefix_rfl, le_rfl, item.frames, List.prefix_rfl, hs.wired,
          fun k hk => by cases hk⟩
      rcases hnext : item.next h with ⟨_ | f, item₁⟩ <;>
        rw [hnext] at hidle hqueue herror hframes hclock hconn
      · exact (hidle rfl).sent (hconn ▸ List.prefix_rfl) hclock hframes
      · dsimp only at hqueue herror hconn ⊢
        rw [hconn]
        have htaken := item.conn.queueFrame_taken f.encoded
        split
        · rename_i e conn hq
          exact herror f e conn rfl hq
        · rename_i conn hq
          have hs' := hqueue f conn rfl hq
          rw [hq] at htaken
          split
          · exact hs'.sent htaken hclock hframes
          · rename_i hbelow
            have hrest := ih hs' (not_le.mp hbelow)
            rcases hfwd : ServerPollItem.forward readFails h n { item₁ with conn } with ⟨r, item₂⟩
            rw [hfwd] at hrest
            obtain ⟨hmore, hlater, sent, hpre, hwired, hok⟩ := hrest
            refine ⟨htaken.trans hmore, hclock.trans hlater, sent, hframes.trans hpre, hwired,
              fun k hk => ?_⟩
            cases r with
            | error e => cases hk
            | ok j => exact hok j rfl

theorem Sends.poll (hs : Sends h start limit item) (maxBatch : ℕ) :
    Sent h start limit item (item.poll readFails h maxBatch) := by
  have hs' := hs.flush
  have htaken := FramedOut.flushOver_taken item.conn.socket.uptakes item.conn
  rw [ServerPollItem.poll]
  rcases hflush : item.conn.flush with ⟨r, conn⟩
  rw [hflush] at hs'
  rw [← FramedOut.flush, hflush] at htaken
  cases r with
  | error e => exact ⟨htaken, le_rfl, item.frames, List.prefix_rfl, hs'.wired, by simp⟩
  | ok drained =>
      dsimp only at hs' ⊢
      split
      · exact hs'.sent htaken le_rfl List.prefix_rfl
      · rename_i hroom
        simp only [Bool.or_eq_true, decide_eq_true_eq, not_or, not_le] at hroom
        obtain ⟨hmore, hsent⟩ := hs'.forward hroom.2 maxBatch
        exact ⟨htaken.trans hmore, hsent⟩

end ServerPollItem

end XchannelNet
