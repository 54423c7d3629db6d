import XchannelNet.Lib.Bytes

/-!
# Framing — frames on a byte stream, read at once or as they arrive

A frame is a length of four bytes and that many bytes. `recv_framed` blocks
until it has them. A `FramedConn` never blocks: it keeps what has arrived until
a frame is whole, over as many calls as that takes. What it returns in the end
is what `recv_framed` would have, however the stream was cut into reads.
-/

namespace XchannelNet.Wire

inductive ErrorKind where
  | invalidInput
  | invalidData
  | unexpectedEof
  | wouldBlock
  | interrupted
  | timedOut
  | writeZero
  | brokenPipe
  | connectionReset
  deriving DecidableEq, Repr

def MAX_FRAME_LEN : ℕ := 64 * 2 ^ 20

/-- How much is asked for in one read. -/
def READ_CHUNK : ℕ := 64 * 2 ^ 10

/-- How much may be consumed at the front of the inbox before it is moved. -/
def COMPACT_AFTER : ℕ := 256 * 2 ^ 10

/-! ## Blocking -/

/-- The bytes one frame is written as. -/
def sendFramed (bytes : List UInt8) : Except ErrorKind (List UInt8) :=
  if MAX_FRAME_LEN < bytes.length then .error .invalidInput
  else .ok (Bytes.encode 4 bytes.length ++ bytes)

def readExact (n : ℕ) (stream : List UInt8) : Except ErrorKind (List UInt8 × List UInt8) :=
  match Bytes.take n stream with
  | none => .error .unexpectedEof
  | some x => .ok x

/-- The next frame of a stream, and the rest of it. -/
def recvFramed (stream : List UInt8) : Except ErrorKind (List UInt8 × List UInt8) := do
  let (lenBuf, stream) ← readExact 4 stream
  let len := Bytes.decode lenBuf
  if MAX_FRAME_LEN < len then .error .invalidData else readExact len stream

theorem recvFramed_eq (stream : List UInt8) :
    recvFramed stream =
      if stream.length < 4 then .error .unexpectedEof
      else if MAX_FRAME_LEN < Bytes.decode (stream.take 4) then .error .invalidData
      else if stream.length < 4 + Bytes.decode (stream.take 4) then .error .unexpectedEof
      else .ok ((stream.drop 4).take (Bytes.decode (stream.take 4)),
        stream.drop (4 + Bytes.decode (stream.take 4))) := by
  by_cases h4 : stream.length < 4
  · simp [recvFramed, readExact, Bytes.take, h4, bind, Except.bind]
  · have hsub : ∀ n, stream.length - 4 < n ↔ stream.length < 4 + n := by omega
    by_cases hlen : stream.length < 4 + Bytes.decode (stream.take 4) <;>
      simp [recvFramed, readExact, Bytes.take, h4, bind, Except.bind, hsub, hlen]

theorem length_of_recvFramed {stream frame rest : List UInt8}
    (h : recvFramed stream = .ok (frame, rest)) : rest.length < stream.length := by
  rw [recvFramed_eq] at h
  split at h
  · cases h
  · split at h
    · cases h
    · split at h
      · cases h
      · cases h
        rw [List.length_drop]
        omega

/-- A stream has no next frame because it ends, or because of a length that is too
long. -/
theorem recvFramed_error {stream : List UInt8} {e : ErrorKind} (h : recvFramed stream = .error e) :
    e = .unexpectedEof ∨ e = .invalidData := by
  rw [recvFramed_eq] at h
  split_ifs at h
  · exact .inl (Except.error.inj h).symm
  · exact .inr (Except.error.inj h).symm
  · exact .inl (Except.error.inj h).symm

/-- A frame that is whole stays the first one, whatever comes after it. -/
theorem recvFramed_append_ok {b frame r : List UInt8} (h : recvFramed b = .ok (frame, r))
    (x : List UInt8) : recvFramed (b ++ x) = .ok (frame, r ++ x) := by
  rw [recvFramed_eq] at h
  split at h
  · cases h
  rename_i h4
  split at h
  · cases h
  rename_i hmax
  split at h
  · cases h
  rename_i hlen
  cases h
  have htake : (b ++ x).take 4 = b.take 4 := List.take_append_of_le_length (by omega)
  have hxlen : (b ++ x).length = b.length + x.length := List.length_append
  rw [recvFramed_eq, htake, if_neg (by omega), if_neg hmax, if_neg (by omega),
    List.drop_append_of_le_length (by omega), List.drop_append_of_le_length (by omega),
    List.take_append_of_le_length (by rw [List.length_drop]; omega)]

/-- So does a length that is too long. -/
theorem recvFramed_append_invalid {b : List UInt8} (h : recvFramed b = .error .invalidData)
    (x : List UInt8) : recvFramed (b ++ x) = .error .invalidData := by
  rw [recvFramed_eq] at h
  split at h
  · cases h
  rename_i h4
  split at h
  · rename_i hmax
    have htake : (b ++ x).take 4 = b.take 4 := List.take_append_of_le_length (by omega)
    rw [recvFramed_eq, htake, if_neg (by rw [List.length_append]; omega), if_pos hmax]
  · split at h <;> cases h

/-- What was sent is received, and no more. -/
theorem recvFramed_sendFramed {bytes sent : List UInt8} (h : sendFramed bytes = .ok sent)
    (rest : List UInt8) : recvFramed (sent ++ rest) = .ok (bytes, rest) := by
  unfold sendFramed at h
  split at h
  · cases h
  · rename_i hlen
    cases h
    have hfit : bytes.length < 256 ^ 4 := by
      have : MAX_FRAME_LEN < 256 ^ 4 := by decide
      omega
    have htake : (Bytes.encode 4 bytes.length ++ bytes ++ rest).take 4 =
        Bytes.encode 4 bytes.length := by
      rw [List.append_assoc]
      exact List.take_left' (Bytes.length_encode _ _)
    have hdrop : (Bytes.encode 4 bytes.length ++ bytes ++ rest).drop 4 = bytes ++ rest := by
      rw [List.append_assoc]
      exact List.drop_left' (Bytes.length_encode _ _)
    have hlen' : (Bytes.encode 4 bytes.length ++ bytes ++ rest).length =
        4 + (bytes.length + rest.length) := by simp
    rw [recvFramed_eq, htake, Bytes.decode_encode_of_lt hfit, if_neg (by omega), if_neg hlen,
      if_neg (by omega), ← List.drop_drop, hdrop, List.take_left, List.drop_left]

/-! ## As it arrives -/

/-- What a read of a socket comes upon. -/
inductive Arrival where
  | bytes (n : ℕ)
  | wouldBlock
  | interrupted
  deriving DecidableEq, Repr

/-- A stream that the peer has written and closed, and how it arrives. When
nothing else is foretold, all that is asked for is there. -/
structure Socket where
  stream : List UInt8
  arrivals : List Arrival

namespace Socket

/-- Hand out at least one byte, if there is one. -/
def deliver (s : Socket) (n : ℕ) : Except ErrorKind (List UInt8) × Socket :=
  (.ok (s.stream.take n), ⟨s.stream.drop n, s.arrivals.tail⟩)

/-- Read up to `cap` bytes. At the end of the stream there are none. -/
def read (s : Socket) (cap : ℕ) : Except ErrorKind (List UInt8) × Socket :=
  match s.arrivals with
  | [] => s.deliver cap
  | .bytes n :: _ => s.deliver (min (max n 1) cap)
  | .wouldBlock :: rest => (.error .wouldBlock, { s with arrivals := rest })
  | .interrupted :: rest => (.error .interrupted, { s with arrivals := rest })

/-- What is still to come. -/
def todo (s : Socket) : ℕ := s.stream.length + s.arrivals.length

end Socket

structure FramedConn where
  socket : Socket
  inbox : List UInt8
  inboxOff : ℕ
  off_le : inboxOff ≤ inbox.length

namespace FramedConn

def new (socket : Socket) : FramedConn := ⟨socket, [], 0, Nat.le_refl 0⟩

/-- Drop consumed bytes. -/
def compact (c : FramedConn) : FramedConn :=
  if c.inboxOff = c.inbox.length then ⟨c.socket, [], 0, Nat.le_refl 0⟩
  else if COMPACT_AFTER ≤ c.inboxOff then
    ⟨c.socket, c.inbox.drop c.inboxOff, 0, Nat.zero_le _⟩
  else c

/-- Bytes read into the tail of the inbox. -/
def fill (c : FramedConn) (bytes : List UInt8) (socket : Socket) : FramedConn :=
  ⟨socket, c.inbox ++ bytes, c.inboxOff,
    c.off_le.trans (by rw [List.length_append]; exact Nat.le_add_right _ _)⟩

/-- Split one whole frame off the front of the inbox, if one is there. -/
def takeBufferedFrame (c : FramedConn) : Except ErrorKind (Option (List UInt8 × FramedConn)) :=
  if c.inbox.length - c.inboxOff < 4 then .ok none
  else
    let len := Bytes.decode ((c.inbox.drop c.inboxOff).take 4)
    if MAX_FRAME_LEN < len then .error .invalidData
    else if h : c.inbox.length - c.inboxOff < 4 + len then .ok none
    else
      let body := c.inboxOff + 4
      .ok (some ((c.inbox.drop body).take len,
        compact ⟨c.socket, c.inbox, body + len, by have := c.off_le; omega⟩))

end FramedConn

theorem Socket.read_spec (s : Socket) (cap : ℕ) (h : 0 < cap) :
    (∃ bytes s', s.read cap = (.ok bytes, s') ∧ bytes ++ s'.stream = s.stream ∧
      (bytes = [] → s.stream = []) ∧ (bytes ≠ [] → s'.todo < s.todo) ∧
      s'.arrivals.length ≤ s.arrivals.length) ∨
    ∃ e s', s.read cap = (.error e, s') ∧ (e = .wouldBlock ∨ e = .interrupted) ∧
      s'.stream = s.stream ∧ s'.arrivals.length + 1 = s.arrivals.length := by
  have hdeliver : ∀ n, 0 < n → ∃ bytes s', s.deliver n = (.ok bytes, s') ∧
      bytes ++ s'.stream = s.stream ∧ (bytes = [] → s.stream = []) ∧
      (bytes ≠ [] → s'.todo < s.todo) ∧ s'.arrivals.length ≤ s.arrivals.length := by
    intro n hn
    refine ⟨_, _, rfl, List.take_append_drop _ _, fun hnil => ?_, fun hne => ?_, ?_⟩
    · rcases List.take_eq_nil_iff.mp hnil with h0 | h0
      · omega
      · exact h0
    · have hs : s.stream ≠ [] := fun hs => hne (by rw [hs, List.take_nil])
      have hlen : 0 < s.stream.length := List.length_pos_iff.mpr hs
      simp only [Socket.todo, List.length_drop, List.length_tail]
      omega
    · simp
  unfold Socket.read
  split
  · exact .inl (hdeliver _ h)
  · exact .inl (hdeliver _ (by omega))
  · rename_i rest hrest
    exact .inr ⟨_, _, rfl, .inl rfl, rfl, by simp [hrest]⟩
  · rename_i rest hrest
    exact .inr ⟨_, _, rfl, .inr rfl, rfl, by simp [hrest]⟩

namespace FramedConn

/-- The next complete frame, or nothing if it has not arrived yet. -/
def tryRecvFrame (c : FramedConn) : Except ErrorKind (Option (List UInt8)) × FramedConn :=
  match c.takeBufferedFrame with
  | .error e => (.error e, c)
  | .ok (some (frame, c')) => (.ok (some frame), c')
  | .ok none =>
    match _h : c.socket.read READ_CHUNK with
    | (.ok bytes, socket) =>
      if _hn : bytes = [] then (.error .unexpectedEof, { c with socket })
      else tryRecvFrame (c.fill bytes socket)
    | (.error .wouldBlock, socket) => (.ok none, { c with socket })
    | (.error .interrupted, socket) => tryRecvFrame { c with socket }
    | (.error e, socket) => (.error e, { c with socket })
termination_by c.socket.todo
decreasing_by
  · rcases c.socket.read_spec READ_CHUNK (by decide) with
      ⟨bytes', s', hr, -, -, hlt, -⟩ | ⟨e, s', hr, -⟩
    · rw [hr] at _h
      cases _h
      exact hlt _hn
    · rw [hr] at _h
      cases _h
  · rcases c.socket.read_spec READ_CHUNK (by decide) with
      ⟨bytes', s', hr, -⟩ | ⟨e, s', hr, -, hs, ha⟩
    · rw [hr] at _h
      cases _h
    · rw [hr] at _h
      cases _h
      simp only [Socket.todo, hs]
      omega

/-- What has arrived and is not consumed. -/
def buffered (c : FramedConn) : List UInt8 := c.inbox.drop c.inboxOff

/-- What is to be read from the connection, arrived or not. -/
def rest (c : FramedConn) : List UInt8 := c.buffered ++ c.socket.stream

theorem compact_buffered (c : FramedConn) :
    c.compact.buffered = c.buffered ∧ c.compact.socket = c.socket := by
  unfold compact buffered
  split
  · rename_i h
    simp [h]
  · split
    · exact ⟨rfl, rfl⟩
    · exact ⟨rfl, rfl⟩

/-- Splitting a frame off the inbox is reading one from what is buffered; for
lack of bytes there is none yet. -/
theorem takeBufferedFrame_spec (c : FramedConn) :
    (c.takeBufferedFrame = .error .invalidData ∧ recvFramed c.buffered = .error .invalidData) ∨
    (c.takeBufferedFrame = .ok none ∧ recvFramed c.buffered = .error .unexpectedEof) ∨
    ∃ frame c', c.takeBufferedFrame = .ok (some (frame, c')) ∧
      recvFramed c.buffered = .ok (frame, c'.buffered) ∧ c'.socket = c.socket := by
  have hlen : c.buffered.length = c.inbox.length - c.inboxOff := List.length_drop ..
  have hb : c.inbox.drop c.inboxOff = c.buffered := rfl
  unfold takeBufferedFrame
  rw [recvFramed_eq, hlen]
  simp only [hb]
  by_cases h4 : c.inbox.length - c.inboxOff < 4
  · rw [if_pos h4, if_pos h4]
    exact .inr (.inl ⟨rfl, rfl⟩)
  by_cases hmax : MAX_FRAME_LEN < Bytes.decode (c.buffered.take 4)
  · rw [if_neg h4, if_neg h4, if_pos hmax, if_pos hmax]
    exact .inl ⟨rfl, rfl⟩
  by_cases havail : c.inbox.length - c.inboxOff < 4 + Bytes.decode (c.buffered.take 4)
  · rw [if_neg h4, if_neg h4, if_neg hmax, if_neg hmax, dif_pos havail, if_pos havail]
    exact .inr (.inl ⟨rfl, rfl⟩)
  · rw [if_neg h4, if_neg h4, if_neg hmax, if_neg hmax, dif_neg havail, if_neg havail]
    refine .inr (.inr ⟨_, _, rfl, ?_, (compact_buffered _).2⟩)
    rw [(compact_buffered _).1]
    simp only [buffered, List.drop_drop, Nat.add_assoc]

theorem rest_fill {c : FramedConn} {bytes : List UInt8} {socket : Socket}
    (h : bytes ++ socket.stream = c.socket.stream) : (c.fill bytes socket).rest = c.rest := by
  show (c.inbox ++ bytes).drop c.inboxOff ++ socket.stream = _
  rw [List.drop_append_of_le_length c.off_le, List.append_assoc, h]
  rfl

/-- How a call can come back: with the failure of the stream, empty-handed for
now, or with the next frame. -/
def Outcome (c : FramedConn) (r : Except ErrorKind (Option (List UInt8)) × FramedConn) : Prop :=
  (∃ e, r.1 = .error e ∧ recvFramed c.rest = .error e) ∨
  (r.1 = .ok none ∧ r.2.rest = c.rest ∧
    r.2.socket.arrivals.length < c.socket.arrivals.length) ∨
  ∃ frame, r.1 = .ok (some frame) ∧ recvFramed c.rest = .ok (frame, r.2.rest) ∧
    r.2.socket.arrivals.length ≤ c.socket.arrivals.length

theorem Outcome.of_rest {c c₁ : FramedConn}
    {r : Except ErrorKind (Option (List UInt8)) × FramedConn} (h : Outcome c₁ r)
    (hrest : c₁.rest = c.rest)
    (harr : c₁.socket.arrivals.length ≤ c.socket.arrivals.length) : Outcome c r := by
  unfold Outcome at h ⊢
  rw [hrest] at h
  rcases h with h | ⟨h₁, h₂, h₃⟩ | ⟨frame, h₁, h₂, h₃⟩
  · exact .inl h
  · exact .inr (.inl ⟨h₁, h₂, by omega⟩)
  · exact .inr (.inr ⟨frame, h₁, h₂, by omega⟩)

/-- A call that has no frame in the inbox goes by what the read comes back
with. -/
theorem tryRecvFrame_read {c : FramedConn} (ht : c.takeBufferedFrame = .ok none) :
    c.tryRecvFrame =
      match c.socket.read READ_CHUNK with
      | (.ok bytes, socket) =>
        if bytes = [] then (.error .unexpectedEof, { c with socket })
        else (c.fill bytes socket).tryRecvFrame
      | (.error .wouldBlock, socket) => (.ok none, { c with socket })
      | (.error .interrupted, socket) => tryRecvFrame { c with socket }
      | (.error e, socket) => (.error e, { c with socket }) := by
  rw [tryRecvFrame, ht]
  dsimp only
  split <;> rename_i h <;> rw [h]
  · rfl
  · rename_i e _ hblock hintr
    cases e <;> first | rfl | exact absurd rfl hblock | exact absurd rfl hintr

theorem tryRecvFrame_outcome (c : FramedConn) : Outcome c c.tryRecvFrame := by
  induction hn : c.socket.todo using Nat.strong_induction_on generalizing c with
  | _ n ih =>
      -- a call that goes on is one from the state it goes on in
      have hgo : ∀ c₁ : FramedConn, c₁.rest = c.rest → c₁.socket.todo < n →
          c₁.socket.arrivals.length ≤ c.socket.arrivals.length → Outcome c c₁.tryRecvFrame := by
        intro c₁ hrest htodo harr
        exact (ih _ htodo c₁ rfl).of_rest hrest harr
      rcases c.takeBufferedFrame_spec with ⟨ht, hr⟩ | ⟨ht, hr⟩ | ⟨frame, c', ht, hr, hs⟩
      · rw [tryRecvFrame, ht]
        exact .inl ⟨_, rfl, recvFramed_append_invalid hr _⟩
      · rcases c.socket.read_spec READ_CHUNK (by decide) with
          ⟨bytes, s', hread, hbytes, hnil, hlt, hle⟩ | ⟨e, s', hread, he, hstream, harr⟩
        · rw [tryRecvFrame_read ht, hread]
          dsimp only
          split
          · -- the stream ends inside a frame, or between two
            rename_i hb
            refine .inl ⟨_, rfl, ?_⟩
            rw [rest, hnil hb, List.append_nil]
            exact hr
          · exact hgo _ (rest_fill hbytes) (hn ▸ hlt ‹_›) hle
        · rw [tryRecvFrame_read ht, hread]
          have hrest : ({ c with socket := s' } : FramedConn).rest = c.rest := by
            simp only [rest, buffered, hstream]
          have htodo : s'.todo < n := by
            rw [← hn]
            simp only [Socket.todo, hstream]
            omega
          rcases he with rfl | rfl
          · exact .inr (.inl ⟨rfl, hrest, by show s'.arrivals.length < _; omega⟩)
          · exact hgo _ hrest htodo (by show s'.arrivals.length ≤ _; omega)
      · rw [tryRecvFrame, ht]
        refine .inr (.inr ⟨frame, rfl, ?_, by rw [hs]⟩)
        rw [rest, rest, hs]
        exact recvFramed_append_ok hr _

end FramedConn

/-! ## Whole streams -/

/-- All the frames of a stream, and how it ends. -/
def recvAll (stream : List UInt8) : List (List UInt8) × ErrorKind :=
  match _h : recvFramed stream with
  | .error e => ([], e)
  | .ok (frame, rest) => (frame :: (recvAll rest).1, (recvAll rest).2)
termination_by stream.length
decreasing_by all_goals exact length_of_recvFramed _h

theorem recvAll_error {stream : List UInt8} {e : ErrorKind} (h : recvFramed stream = .error e) :
    recvAll stream = ([], e) := by
  rw [recvAll]
  split
  · rename_i he
    rw [h] at he
    cases he
    rfl
  · rename_i he
    rw [h] at he
    cases he

theorem recvAll_ok {stream frame rest : List UInt8} (h : recvFramed stream = .ok (frame, rest)) :
    recvAll stream = (frame :: (recvAll rest).1, (recvAll rest).2) := by
  rw [recvAll]
  split
  · rename_i he
    rw [h] at he
    cases he
  · rename_i he
    rw [h] at he
    cases he
    rfl

namespace FramedConn

/-- The frames that `n` calls return, up to the first failure. -/
def tryRecvAll : ℕ → FramedConn → List (List UInt8) × Option ErrorKind
  | 0, _ => ([], none)
  | n + 1, c =>
    match c.tryRecvFrame with
    | (.error e, _) => ([], some e)
    | (.ok none, c) => tryRecvAll n c
    | (.ok (some frame), c) => (frame :: (tryRecvAll n c).1, (tryRecvAll n c).2)

/-- Any number of calls return some of the frames, or all of them and the
failure; and enough calls get to the failure: each one that does not brings a
frame or waits out an arrival. -/
theorem tryRecvAll_cases (n : ℕ) (c : FramedConn) :
    ((tryRecvAll n c).2 = none ∧ (tryRecvAll n c).1 <+: (recvAll c.rest).1 ∧
        n ≤ c.rest.length + c.socket.arrivals.length) ∨
      tryRecvAll n c = ((recvAll c.rest).1, some (recvAll c.rest).2) := by
  induction n generalizing c with
  | zero => exact .inl ⟨rfl, List.nil_prefix, Nat.zero_le _⟩
  | succ n ih =>
      unfold tryRecvAll
      rcases hr : c.tryRecvFrame with ⟨r, c'⟩
      have hout := c.tryRecvFrame_outcome
      rw [hr] at hout
      rcases hout with ⟨e, rfl, he⟩ | ⟨rfl, hrest, harr⟩ | ⟨frame, rfl, hf, harr⟩
      · exact .inr (by rw [recvAll_error he])
      · dsimp only at hrest harr
        rw [← hrest]
        exact (ih c').imp_left fun h => ⟨h.1, h.2.1, by omega⟩
      · dsimp only at hf harr
        have hlen := length_of_recvFramed hf
        rw [recvAll_ok hf]
        rcases ih c' with ⟨hn, hpre, hle⟩ | hall
        · exact .inl ⟨hn, List.cons_prefix_cons.mpr ⟨rfl, hpre⟩, by omega⟩
        · exact .inr (by simp only [hall])

/-- **Non-blocking framing refines blocking framing.** However the stream
arrives, any number of calls return the frames `recv_framed` would, in order
and up to some point, and none after its failure; and enough calls return all
of them and fail as it does. -/
theorem tryRecvAll_refines_recvAll (stream : List UInt8) (arrivals : List Arrival) (n : ℕ) :
    (((tryRecvAll n (new ⟨stream, arrivals⟩)).2 = none ∧
        (tryRecvAll n (new ⟨stream, arrivals⟩)).1 <+: (recvAll stream).1) ∨
      tryRecvAll n (new ⟨stream, arrivals⟩) = ((recvAll stream).1, some (recvAll stream).2)) ∧
    tryRecvAll (stream.length + arrivals.length + 1 + n) (new ⟨stream, arrivals⟩) =
      ((recvAll stream).1, some (recvAll stream).2) := by
  refine ⟨(tryRecvAll_cases n (new ⟨stream, arrivals⟩)).imp_left fun h => ⟨h.1, h.2.1⟩, ?_⟩
  refine (tryRecvAll_cases _ (new ⟨stream, arrivals⟩)).resolve_left fun h => ?_
  have hle : stream.length + arrivals.length + 1 + n ≤ stream.length + arrivals.length := h.2.2
  omega

end FramedConn

end XchannelNet.Wire
