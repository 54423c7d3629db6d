import XchannelNet.Wire.Codec
import XchannelNet.Wire.Framing

/-!
# Sending — the writes of the control plane, and the time they take

Every frame to a peer is written under a deadline: what is left of the peer's
own allowance for the burst, or of the tick's for all peers, whichever is less.
The clock is looked at between two write calls and never before the first, so a
frame is always tried. A peer that does not take its frame is dropped.

How a frame is written is a parameter of what sends it (`Net`), so that the same
code can be looked at over other sockets. Over those here, whose calls all peers
share, durations are in microseconds and time passes in write calls only; each is
over within `PEER_WRITE_SLICE`, the timeout set on the socket.
-/

namespace XchannelNet.Broadcast

open Wire

def PEER_WRITE_SLICE : ℕ := 20000

/-- How long a peer may accept nothing. -/
def STALL_LIMIT : ℕ := 1000000

/-- What one tick may spend on writes, over all peers and bursts. -/
def TICK_WRITE_BUDGET : ℕ := 2500000

def PEER_BURST_MIN : ℕ := 500000

def PEER_SMALL_FRAME_BUDGET : ℕ := 300000

/-- Bytes per second. -/
def MIN_DRAIN_RATE : ℕ := 4 * 2 ^ 20

def MAX_IDENTITIES_PER_FRAME : ℕ := 256

def HINT_ENCODED_BYTES : ℕ := 160

/-! ## Sockets -/

/-- What a write call comes back with. A count of more bytes than were offered
is all of them. -/
inductive Answer where
  | wrote (n : ℕ)
  | wouldBlock
  | timedOut
  | interrupted
  | failed
  deriving DecidableEq, Repr

/-- What a write call comes back with, and after what time, where it may take the time
`allowed`. -/
structure CallOf (allowed : ℕ → Prop) where
  answer : Answer
  took : ℕ
  took_allowed : allowed took
  deriving DecidableEq, Repr

/-- A write call that was made: when, under which deadline, and with how many
bytes on offer. -/
structure WriteOf (allowed : ℕ → Prop) where
  start : ℕ
  deadline : ℕ
  offered : ℕ
  call : CallOf allowed
  deriving DecidableEq, Repr

/-- The clock, what the sockets will answer, in the order of the calls, and the
calls that were made, latest first. Past the end of the answers every socket is
closed. -/
structure SocketsOf (allowed : ℕ → Prop) where
  now : ℕ
  calls : List (CallOf allowed)
  made : List (WriteOf allowed)
  deriving DecidableEq, Repr

/-- A call that the socket's timeout ends. -/
abbrev Call := CallOf (· ≤ PEER_WRITE_SLICE)

abbrev Write := WriteOf (· ≤ PEER_WRITE_SLICE)

/-- The sockets of all peers. -/
abbrev Sockets := SocketsOf (· ≤ PEER_WRITE_SLICE)

section Loop

variable {allowed : ℕ → Prop}

/-- Did the call take all that was offered? -/
def WriteOf.Whole (w : WriteOf allowed) : Prop :=
  match w.call.answer with
  | .wrote n => w.offered ≤ n
  | _ => False

instance (w : WriteOf allowed) : Decidable w.Whole := by
  unfold WriteOf.Whole
  split <;> infer_instance

/-- The time spent in write calls. -/
def SocketsOf.spent (s : SocketsOf allowed) : ℕ := (s.made.map fun w => w.call.took).sum

/-- Write the rest of a buffer. `attempted` is false until the first call. -/
def writeLoop (deadline : ℕ) (calls : List (CallOf allowed)) (bytes : List UInt8)
    (lastProgress : ℕ) (attempted : Bool) (now : ℕ) (made : List (WriteOf allowed)) :
    Except ErrorKind Unit × SocketsOf allowed :=
  if bytes = [] then (.ok (), ⟨now, calls, made⟩)
  else if attempted ∧ deadline ≤ now then (.error .timedOut, ⟨now, calls, made⟩)
  else if attempted ∧ STALL_LIMIT ≤ now - lastProgress then
    (.error .timedOut, ⟨now, calls, made⟩)
  else
    match calls with
    | [] => (.error .brokenPipe, ⟨now, [], made⟩)
    | c :: rest =>
      let made' := ⟨now, deadline, bytes.length, c⟩ :: made
      let now' := now + c.took
      match c.answer with
      | .wrote 0 => (.error .writeZero, ⟨now', rest, made'⟩)
      | .wrote n => writeLoop deadline rest (bytes.drop n) now' true now' made'
      | .wouldBlock | .timedOut | .interrupted =>
        writeLoop deadline rest bytes lastProgress true now' made'
      | .failed => (.error .brokenPipe, ⟨now', rest, made'⟩)

@[simp] theorem writeLoop_nil (deadline : ℕ) (calls : List (CallOf allowed)) (lastProgress : ℕ)
    (attempted : Bool) (now : ℕ) (made : List (WriteOf allowed)) :
    writeLoop deadline calls [] lastProgress attempted now made =
      (.ok (), ⟨now, calls, made⟩) := by
  rw [writeLoop.eq_def, if_pos rfl]

/-- The first call takes the whole buffer: the clock is not looked at before it, and there is
no second. -/
theorem writeLoop_whole {bytes : List UInt8} {c : CallOf allowed} {rest : List (CallOf allowed)}
    (deadline : ℕ) (hne : bytes ≠ []) (hc : c.answer = .wrote bytes.length) (lastProgress now : ℕ)
    (made : List (WriteOf allowed)) :
    writeLoop deadline (c :: rest) bytes lastProgress false now made =
      (.ok (), ⟨now + c.took, rest, ⟨now, deadline, bytes.length, c⟩ :: made⟩) := by
  obtain ⟨b, bs, rfl⟩ := List.exists_cons_of_ne_nil hne
  rw [List.length_cons] at hc
  simp [writeLoop, hc]

/-- Write a length and a frame with `write`, giving up at the first failure. -/
def sendWith {σ : Type} (write : List UInt8 → σ → Except ErrorKind Unit × σ) (bytes : List UInt8)
    (s : σ) : Except ErrorKind Unit × σ :=
  if MAX_FRAME_LEN < bytes.length then (.error .invalidInput, s)
  else
    match write (Bytes.encode 4 bytes.length) s with
    | (.error e, s) => (.error e, s)
    | (.ok (), s) => write bytes s

end Loop

def writeAllBy (bytes : List UInt8) (deadline : ℕ) (s : Sockets) :
    Except ErrorKind Unit × Sockets :=
  writeLoop deadline s.calls bytes s.now false s.now s.made

/-- Write a length and a frame, abandoning both once the deadline passes. -/
def sendFrameBy (bytes : List UInt8) (deadline : ℕ) (s : Sockets) :
    Except ErrorKind Unit × Sockets :=
  sendWith (writeAllBy · deadline) bytes s

/-! ## Peers -/

abbrev PeerId := ℕ

def NO_PEER : PeerId := 0

/-- A link, with what is left of its own allowance for the burst being written. -/
structure Peer where
  id : PeerId
  burstLeft : ℕ
  deriving DecidableEq, Repr

structure Links where
  peers : List Peer
  tickWriteLeft : ℕ
  deriving DecidableEq, Repr

/-- The clock, and how a peer is sent a frame. -/
structure Net (σ : Type) where
  now : σ → ℕ
  sendFrameBy : PeerId → List UInt8 → ℕ → σ → Except ErrorKind Unit × σ

/-- Answers in the order of the calls, whoever is written to. -/
def Sockets.net : Net Sockets := ⟨SocketsOf.now, fun _ => sendFrameBy⟩

section Peers

variable {σ : Type} (N : Net σ)

/-- Send one peer a frame and charge both allowances for the time it took. -/
def sendTo (p : Peer) (frame : List UInt8) (tickLeft : ℕ) (s : σ) :
    Except ErrorKind Unit × Peer × ℕ × σ :=
  let started := N.now s
  let (sent, s') := N.sendFrameBy p.id frame (started + min p.burstLeft tickLeft) s
  let spent := N.now s' - started
  (sent, { p with burstLeft := p.burstLeft - spent }, tickLeft - spent, s')

/-- Send a frame to every peer but one and keep those that took it. -/
def retainSent (except : PeerId) (frame : List UInt8) :
    List Peer → ℕ → σ → List Peer × ℕ × σ
  | [], tickLeft, s => ([], tickLeft, s)
  | p :: ps, tickLeft, s =>
    if p.id = except then
      let (kept, tickLeft', s') := retainSent except frame ps tickLeft s
      (p :: kept, tickLeft', s')
    else
      match sendTo N p frame tickLeft s with
      | (.ok (), p', tickLeft', s') =>
        let (kept, tickLeft'', s'') := retainSent except frame ps tickLeft' s'
        (p' :: kept, tickLeft'', s'')
      | (.error _, _, tickLeft', s') => retainSent except frame ps tickLeft' s'

namespace Links

def beginTick (l : Links) : Links := { l with tickWriteLeft := TICK_WRITE_BUDGET }

/-- Give every peer its allowance for the burst, within what the tick has left. -/
def beginBurst (l : Links) (allowance : ℕ) : Links :=
  { l with peers := l.peers.map fun p => { p with burstLeft := min allowance l.tickWriteLeft } }

def sendExcept (except : PeerId) (frame : List UInt8) (x : Links × σ) : Links × σ :=
  let (peers, tickWriteLeft, s) := retainSent N except frame x.1.peers x.1.tickWriteLeft x.2
  (⟨peers, tickWriteLeft⟩, s)

def broadcast (frame : List UInt8) (x : Links × σ) : Links × σ := sendExcept N NO_PEER frame x

/-- Send frames to one peer, until it is gone. -/
def sendOnly (dest : PeerId) : List (List UInt8) → Links × σ → Links × σ
  | [], x => x
  | frame :: frames, (l, s) =>
    match l.peers.find? (·.id = dest) with
    | none => (l, s)
    | some p =>
      match sendTo N p frame l.tickWriteLeft s with
      | (.ok (), p', tickLeft, s') =>
        sendOnly dest frames (⟨l.peers.replaceF fun q => if q.id = dest then some p' else none,
          tickLeft⟩, s')
      | (.error _, _, tickLeft, s') => (⟨l.peers.filter (·.id ≠ dest), tickLeft⟩, s')

end Links

end Peers

/-! ## Bursts -/

/-- How long each peer may take over a burst of so many bytes. -/
def burstAllowance (bytes : ℕ) : ℕ :=
  max PEER_BURST_MIN (min (min (bytes * 1000000) (2 ^ 64 - 1) / MIN_DRAIN_RATE) 3600000000)

/-- A list cut into pieces of `n`, the last of which may be shorter. -/
def chunks {α : Type} (n : ℕ) (as : List α) : List (List α) :=
  (List.range ((as.length + n - 1) / n)).map fun i => (as.drop (i * n)).take n

/-- The first `k` pieces are the first `k * n` elements. -/
theorem flatten_pieces {α : Type} (n k : ℕ) (as : List α) :
    ((List.range k).map fun i => (as.drop (i * n)).take n).flatten = as.take (k * n) := by
  induction k with
  | zero => simp
  | succ k ih => simp [List.range_succ, ih, Nat.succ_mul, List.take_add]

/-- Nothing is lost between the pieces, and nothing changes places. -/
theorem flatten_chunks {α : Type} {n : ℕ} (hn : 0 < n) (as : List α) :
    (chunks n as).flatten = as := by
  rw [chunks, flatten_pieces]
  refine List.take_of_length_le ?_
  have hdiv := Nat.div_add_mod (as.length + n - 1) n
  have hmod := Nat.mod_lt (as.length + n - 1) hn
  rw [Nat.mul_comm]
  omega

section Bursts

variable {A : Type} [SocketText A]

/-- The frames of a join. -/
def syncFrames (A : Type) [SocketText A] (ids : List ChannelIdentity) : List (List UInt8) :=
  (chunks MAX_IDENTITIES_PER_FRAME ids).map fun batch =>
    encodeControl (.registrySync batch : ControlMsg A)

/-- The frames of an announcement, a relay or a reply. -/
def deltaFrames (A : Type) [SocketText A] (ids : List ChannelIdentity) : List (List UInt8) :=
  (chunks MAX_IDENTITIES_PER_FRAME ids).map fun batch =>
    encodeControl (.registryDelta batch : ControlMsg A)

/-- What a node says about itself. -/
structure Self (A : Type) where
  node : NodeId
  addr : A
  controlAddr : A
  name : String

structure Hint (A : Type) where
  source : PeerId
  node : NodeId
  addr : A
  controlAddr : A
  name : String

inductive Burst (A : Type) where
  | announce (delta : List ChannelIdentity)
  | relay (source : PeerId) (delta : List ChannelIdentity)
  | reply (dest : PeerId) (delta : List ChannelIdentity)
  | relayHints (pending : List (Hint A))
  | emitHeartbeat
  | announceLeaving

variable {σ : Type} (N : Net σ)

def announce (A : Type) [SocketText A] (delta : List ChannelIdentity) (x : Links × σ) :
    Links × σ :=
  (deltaFrames A delta).foldl (fun x frame => Links.broadcast N frame x)
    (x.1.beginBurst (burstAllowance (identitiesEncodedLen delta)), x.2)

def relay (A : Type) [SocketText A] (source : PeerId) (delta : List ChannelIdentity)
    (x : Links × σ) : Links × σ :=
  (deltaFrames A delta).foldl (fun x frame => Links.sendExcept N source frame x)
    (x.1.beginBurst (burstAllowance (identitiesEncodedLen delta)), x.2)

def reply (A : Type) [SocketText A] (dest : PeerId) (delta : List ChannelIdentity)
    (x : Links × σ) : Links × σ :=
  Links.sendOnly N dest (deltaFrames A delta)
    (x.1.beginBurst (burstAllowance (identitiesEncodedLen delta)), x.2)

/-- Forward what was learnt of others. A node does not pass on what it hears of
itself. -/
def relayHints (self : Self A) (pending : List (Hint A)) (x : Links × σ) : Links × σ :=
  (pending.filter (·.node ≠ self.node)).foldl
    (fun x h => Links.sendExcept N h.source
      (encodeControl (.peerHint h.node h.addr h.controlAddr h.name)) x)
    (x.1.beginBurst (burstAllowance (pending.length * HINT_ENCODED_BYTES)), x.2)

def Self.heartbeat (self : Self A) : ControlMsg A :=
  .heartbeat self.node self.addr self.controlAddr self.name

def emitHeartbeat (self : Self A) (x : Links × σ) : Links × σ :=
  Links.broadcast N (encodeControl self.heartbeat) (x.1.beginBurst PEER_SMALL_FRAME_BUDGET, x.2)

def announceLeaving (self : Self A) (x : Links × σ) : Links × σ :=
  Links.broadcast N (encodeControl (.leaving self.node : ControlMsg A))
    (x.1.beginBurst PEER_SMALL_FRAME_BUDGET, x.2)

def perform (self : Self A) (x : Links × σ) : Burst A → Links × σ
  | .announce delta => announce N A delta x
  | .relay source delta => relay N A source delta x
  | .reply dest delta => reply N A dest delta x
  | .relayHints pending => relayHints N self pending x
  | .emitHeartbeat => emitHeartbeat N self x
  | .announceLeaving => announceLeaving N self x

/-- The bursts between one tick and the next, each with the time that passes
before it. -/
def tick (self : Self A) (l : Links) (s : Sockets) (bursts : List (ℕ × Burst A)) :
    Links × Sockets :=
  bursts.foldl (fun x b => perform Sockets.net self (x.1, { x.2 with now := x.2.now + b.1 }) b.2)
    (l.beginTick, s)

end Bursts

end XchannelNet.Broadcast
