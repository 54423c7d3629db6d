import XchannelNet.Channel.Resume
import XchannelNet.Wire.Codec
import XchannelNet.Wire.Framing

/-!
# Outbound — a subscription served a batch at a time

A `ServerPollItem` never blocks: what the socket does not take stays in an
outbox, and nothing more is read from the log while the outbox holds too much.
Backpressure is looked at in three places, before the batch, in `flush` and
after each record. One invariant carries it through all of them: what the
socket took and what is left in the outbox are the frames read so far.
-/

namespace XchannelNet

namespace Wire

/-! ## The outbox -/

/-- What a write of a socket comes to. -/
inductive Uptake where
  | bytes (n : ℕ)
  | wouldBlock
  | interrupted
  | failed
  deriving DecidableEq, Repr

/-- The sending half of a socket: what it has taken, and what it will make of
the writes to come. Where nothing is foretold it takes all it is offered. -/
structure Outlet where
  taken : List UInt8
  uptakes : List Uptake
  deriving DecidableEq, Repr

/-- The sending half of a `FramedConn`. -/
structure FramedOut where
  socket : Outlet
  outbox : List UInt8
  outboxOff : ℕ
  off_le : outboxOff ≤ outbox.length

namespace FramedOut

/-- An empty outbox is all sent. -/
theorem off_le_nil : 0 ≤ ([] : List UInt8).length := Nat.le_refl 0

def new (socket : Outlet) : FramedOut := ⟨socket, [], 0, off_le_nil⟩

/-- What is still waiting to go out. -/
def pending (c : FramedOut) : List UInt8 := c.outbox.drop c.outboxOff

def pendingOut (c : FramedOut) : ℕ := c.outbox.length - c.outboxOff

/-- A write that said nothing about bytes. -/
def wrote (c : FramedOut) (rest : List Uptake) : FramedOut :=
  ⟨⟨c.socket.taken, rest⟩, c.outbox, c.outboxOff, c.off_le⟩

/-- A write that took up to `n` bytes. -/
def took (c : FramedOut) (n : ℕ) (rest : List Uptake) : FramedOut where
  socket := ⟨c.socket.taken ++ c.pending.take n, rest⟩
  outbox := c.outbox
  outboxOff := c.outboxOff + min n c.pendingOut
  off_le := by
    have := c.off_le
    rw [pendingOut]
    omega

/-- All is sent: the outbox starts over. -/
def clear (c : FramedOut) : FramedOut := ⟨c.socket, [], 0, off_le_nil⟩

/-- The loop of `flush`, over what the socket will make of its writes. -/
def flushOver : List Uptake → FramedOut → Except ErrorKind Bool × FramedOut
  | [], c => (.ok true, (c.took c.pendingOut []).clear)
  | u :: rest, c =>
    if c.outboxOff < c.outbox.length then
      match u with
      | .bytes 0 => (.error .writeZero, c.wrote rest)
      | .bytes n => flushOver rest (c.took n rest)
      | .wouldBlock => (.ok false, c.wrote rest)
      | .interrupted => flushOver rest (c.wrote rest)
      | .failed => (.error .brokenPipe, c.wrote rest)
    else (.ok true, c.clear)

/-- Drain buffered bytes; `true` once nothing is left. -/
def flush (c : FramedOut) : Except ErrorKind Bool × FramedOut := flushOver c.socket.uptakes c

def push (c : FramedOut) (bytes : List UInt8) : FramedOut :=
  ⟨c.socket, c.outbox ++ bytes, c.outboxOff,
    c.off_le.trans (by rw [List.length_append]; exact Nat.le_add_right _ _)⟩

/-- Queue a frame and push as much as the socket will take. -/
def queueFrame (c : FramedOut) (bytes : List UInt8) : Except ErrorKind Unit × FramedOut :=
  if MAX_FRAME_LEN < bytes.length then (.error .invalidInput, c)
  else
    match (c.push (Bytes.encode 4 bytes.length ++ bytes)).flush with
    | (.ok _, c) => (.ok (), c)
    | (.error e, c) => (.error e, c)

/-- Everything that was ever put into the outbox. -/
def stream (c : FramedOut) : List UInt8 := c.socket.taken ++ c.pending

@[simp] theorem length_pending (c : FramedOut) : c.pending.length = c.pendingOut := by
  rw [pending, List.length_drop, pendingOut]

@[simp] theorem stream_wrote (c : FramedOut) (rest : List Uptake) :
    (c.wrote rest).stream = c.stream := rfl

@[simp] theorem stream_took (c : FramedOut) (n : ℕ) (rest : List Uptake) :
    (c.took n rest).stream = c.stream := by
  have hpend : (c.took n rest).pending = c.pending.drop n := by
    rw [pending, took]
    dsimp only
    rw [← List.drop_drop, ← pending, ← length_pending, ← List.drop_eq_drop_min]
  rw [stream, hpend, took]
  dsimp only
  rw [List.append_assoc, List.take_append_drop, stream]

theorem pendingOut_took (c : FramedOut) (n : ℕ) (rest : List Uptake) :
    (c.took n rest).pendingOut = c.pendingOut - n := by
  simp only [took, pendingOut]
  omega

/-- An outbox that is emptied held nothing. -/
theorem stream_clear {c : FramedOut} (h : c.pendingOut = 0) : c.clear.stream = c.stream := by
  have hnil : c.pending = [] := List.eq_nil_of_length_eq_zero (by rw [length_pending, h])
  rw [stream, stream, hnil]
  rfl

theorem stream_push (c : FramedOut) (bytes : List UInt8) :
    (c.push bytes).stream = c.stream ++ bytes := by
  simp only [stream, push, pending, List.drop_append_of_le_length c.off_le, List.append_assoc]

theorem pendingOut_push (c : FramedOut) (bytes : List UInt8) :
    (c.push bytes).pendingOut = c.pendingOut + bytes.length := by
  have := c.off_le
  simp only [push, pendingOut, List.length_append]
  omega

/-- **A flush neither loses nor repeats a byte**, and says when none is left. -/
theorem flushOver_spec (us : List Uptake) (c : FramedOut) :
    (flushOver us c).2.stream = c.stream ∧ (flushOver us c).2.pendingOut ≤ c.pendingOut ∧
      ((flushOver us c).1 = .ok true → (flushOver us c).2.pendingOut = 0) := by
  fun_induction flushOver us c with
  | case1 c =>
      have hnone : (c.took c.pendingOut []).pendingOut = 0 := by
        rw [pendingOut_took, Nat.sub_self]
      refine ⟨?_, Nat.zero_le _, fun _ => rfl⟩
      rw [stream_clear hnone, stream_took]
  | case2 | case4 | case6 => exact ⟨rfl, le_rfl, nofun⟩
  | case3 rest c hoff n hn ih =>
      obtain ⟨hs, hle, hdone⟩ := ih
      rw [stream_took] at hs
      rw [pendingOut_took] at hle
      exact ⟨hs, hle.trans (Nat.sub_le _ _), hdone⟩
  | case5 rest c hoff ih => exact ih
  | case7 u rest c hoff =>
      have hnone : c.pendingOut = 0 := by
        rw [pendingOut]
        omega
      exact ⟨stream_clear hnone, Nat.zero_le _, fun _ => rfl⟩

/-- A frame that is queued is in the stream, behind its length. -/
theorem queueFrame_ok {c c' : FramedOut} {bytes : List UInt8}
    (h : c.queueFrame bytes = (.ok (), c')) :
    c'.stream = c.stream ++ (Bytes.encode 4 bytes.length ++ bytes) ∧
      c'.pendingOut ≤ c.pendingOut + (Bytes.encode 4 bytes.length ++ bytes).length := by
  rw [queueFrame] at h
  split at h
  · cases h
  · obtain ⟨hs, hle, -⟩ := flushOver_spec
      (c.push (Bytes.encode 4 bytes.length ++ bytes)).socket.uptakes
      (c.push (Bytes.encode 4 bytes.length ++ bytes))
    rw [stream_push] at hs
    rw [pendingOut_push] at hle
    split at h <;> rename_i hflush <;> cases h
    have hc := congrArg Prod.snd hflush
    rw [flush] at hc
    rw [hc] at hs hle
    exact ⟨hs, hle⟩

end FramedOut

end Wire

open Wire

/-! ## The poll item -/

def STREAM_ID : StreamId := 0

namespace RecordFrame

def toWire (f : RecordFrame) : Wire.RecordFrame :=
  ⟨UInt64.ofNat f.index, f.msgType, f.userMeta, f.startsSegment, f.payload⟩

/-- The message a record travels in. -/
def encoded (f : RecordFrame) : List UInt8 := encodeStream (.record STREAM_ID f.toWire)

/-- The message behind its length. -/
def framed (f : RecordFrame) : List UInt8 := Bytes.encode 4 f.encoded.length ++ f.encoded

end RecordFrame

/-- An accepted subscription being forwarded. `clock` is the moment of its next
look at the log, and `frames` what it has read from it; nothing reads these. -/
structure ServerPollItem where
  conn : FramedOut
  source : ReplicationSource
  maxPendingOut : ℕ
  clock : ℕ
  frames : List RecordFrame

namespace ServerPollItem

/-- Take over a connection of which the handshake is over. -/
def adopt (socket : Outlet) (source : ReplicationSource) (maxPendingOut : ℕ) : ServerPollItem :=
  ⟨.new socket, source, maxPendingOut, 0, []⟩

-- what a look at the log fails with, by its moment and the reader's place
variable (readFails : ℕ → SegLog.Reader → Option ErrorKind)

/-- The next frame of the source, by a look that does not fail. -/
def next (h : History) (item : ServerPollItem) : Option RecordFrame × ServerPollItem :=
  let (frame, source) := item.source.tryNextFrame (h.log item.clock)
  (frame, { item with source, clock := item.clock + 1, frames := item.frames ++ frame.toList })

/-- Forward up to as many records as are left of the batch; how many it were. -/
def forward (h : History) : ℕ → ServerPollItem → Except ErrorKind ℕ × ServerPollItem
  | 0, item => (.ok 0, item)
  | n + 1, item =>
    match readFails item.clock item.source.reader with
    | some e => (.error e, item)
    | none =>
      match item.next h with
      | (none, item) => (.ok 0, item)
      | (some f, item) =>
        match item.conn.queueFrame f.encoded with
        | (.error e, conn) => (.error e, { item with conn })
        | (.ok _, conn) =>
          let item := { item with conn }
          if item.maxPendingOut ≤ conn.pendingOut then (.ok 1, item)
          else
            let (sent, item) := forward h n item
            (sent.map (· + 1), item)

/-- Pending output is drained first; while there is some nothing is read. -/
def poll (h : History) (maxBatch : ℕ) (item : ServerPollItem) :
    Except ErrorKind ℕ × ServerPollItem :=
  match item.conn.flush with
  | (.error e, conn) => (.error e, { item with conn })
  | (.ok drained, conn) =>
    let item := { item with conn }
    if !drained || item.maxPendingOut ≤ conn.pendingOut then (.ok 0, item)
    else forward readFails h maxBatch item

/-- Polls with these batch sizes, one after the other, up to the first that
fails. -/
def polls (h : History) : List ℕ → ServerPollItem → Except ErrorKind ServerPollItem
  | [], item => .ok item
  | batch :: batches, item =>
    match item.poll readFails h batch with
    | (.error e, _) => .error e
    | (.ok _, item) => polls h batches item

/-! ## What it keeps -/

/-- Nothing is left to send, or less than the limit and one frame. -/
def Bounded (limit : ℕ) (frames : List RecordFrame) (pendingOut : ℕ) : Prop :=
  pendingOut = 0 ∨ 0 < limit ∧ ∃ f ∈ frames, pendingOut < limit + f.framed.length

/-- What the socket took and what is left are the frames that were read, which
are those of the log from `start` on. -/
structure Forwards (h : History) (start limit : ℕ) (item : ServerPollItem) : Prop where
  limited : item.maxPendingOut = limit
  stream : item.conn.stream = (item.frames.map RecordFrame.framed).flatten
  frames : History.Streams h start 0 item.clock item.frames item.source
  bounded : Bounded limit item.frames item.conn.pendingOut

variable {readFails} {h : History} {start limit : ℕ} {item item' : ServerPollItem}

theorem forwards_adopt (uptakes : List Uptake) {source : ReplicationSource}
    (hat : source.At (h.log 0)) (limit : ℕ) :
    Forwards h source.nextIndex limit (adopt ⟨[], uptakes⟩ source limit) :=
  ⟨rfl, rfl, ⟨rfl, nofun, hat, rfl⟩, .inl rfl⟩

theorem Forwards.flush (hf : Forwards h start limit item) :
    Forwards h start limit { item with conn := item.conn.flush.2 } := by
  obtain ⟨hstream, hle, -⟩ := FramedOut.flushOver_spec item.conn.socket.uptakes item.conn
  refine ⟨hf.limited, hstream.trans hf.stream, hf.frames, ?_⟩
  rcases hf.bounded with hnone | ⟨hpos, f, hmem, hlt⟩
  · exact .inl (Nat.le_zero.mp (hnone ▸ hle))
  · exact .inr ⟨hpos, f, hmem, hle.trans_lt hlt⟩

/-- A look at the log that finds nothing. -/
theorem Forwards.idle (hf : Forwards h start limit item) (hnone : (item.next h).1 = none) :
    Forwards h start limit (item.next h).2 := by
  have hpoll := hf.frames.poll
  rw [Nat.zero_add] at hpoll
  have hframes : (item.next h).2.frames = item.frames := by
    change item.frames ++ (item.next h).1.toList = item.frames
    rw [hnone, Option.toList_none, List.append_nil]
  refine ⟨hf.limited, ?_, hpoll, ?_⟩
  · rw [hframes]
    exact hf.stream
  · rw [hframes]
    exact hf.bounded

/-- A record that is read and queued, from below the limit. -/
theorem Forwards.queue (hf : Forwards h start limit item)
    (hroom : item.conn.pendingOut < item.maxPendingOut) {f : RecordFrame} {c : FramedOut}
    (hsome : (item.next h).1 = some f) (hqueue : item.conn.queueFrame f.encoded = (.ok (), c)) :
    Forwards h start limit { (item.next h).2 with conn := c } := by
  have hpoll := hf.frames.poll
  rw [Nat.zero_add] at hpoll
  obtain ⟨hstream, hpending⟩ := FramedOut.queueFrame_ok hqueue
  have hframes : (item.next h).2.frames = item.frames ++ [f] := by
    change item.frames ++ (item.next h).1.toList = item.frames ++ [f]
    rw [hsome, Option.toList_some]
  refine ⟨hf.limited, ?_, hpoll, .inr ⟨?_, f, ?_, ?_⟩⟩
  · dsimp only
    rw [hstream, hframes, hf.stream, List.map_append, List.flatten_append]
    simp [RecordFrame.framed]
  · rw [← hf.limited]
    exact Nat.zero_lt_of_lt hroom
  · dsimp only
    rw [hframes]
    exact List.mem_append_right _ (List.mem_singleton_self f)
  · rw [← hf.limited]
    exact hpending.trans_lt (Nat.add_lt_add_right hroom _)

/-- A batch goes on only from below the limit. -/
theorem Forwards.forward {n sent : ℕ} (hf : Forwards h start limit item)
    (hroom : item.conn.pendingOut < item.maxPendingOut)
    (hrun : forward readFails h n item = (.ok sent, item')) : Forwards h start limit item' := by
  induction n generalizing item sent with
  | zero =>
      cases hrun
      exact hf
  | succ n ih =>
      have hidle := hf.idle
      have hqueue := fun f conn => hf.queue hroom (f := f) (c := conn)
      rw [ServerPollItem.forward] at hrun
      split at hrun
      · cases hrun
      have hconn : (item.next h).2.conn = item.conn := rfl
      rcases hnext : item.next h with ⟨_ | f, item₁⟩ <;> rw [hnext] at hrun hidle hqueue hconn
      · cases hrun
        exact hidle rfl
      · dsimp only at hrun hqueue hconn
        rw [hconn] at hrun
        split at hrun
        · cases hrun
        · rename_i conn hq
          have hf' := hqueue f conn rfl hq
          split at hrun
          · cases hrun
            exact hf'
          · rename_i hbelow
            rcases hrest : ServerPollItem.forward readFails h n { item₁ with conn } with
              ⟨_ | sent', item₂⟩
            · rw [hrest] at hrun
              cases hrun
            · rw [hrest] at hrun
              cases hrun
              exact ih hf' (not_le.mp hbelow) hrest

theorem Forwards.poll {maxBatch sent : ℕ} (hf : Forwards h start limit item)
    (hrun : item.poll readFails h maxBatch = (.ok sent, item')) : Forwards h start limit item' := by
  have hf' := hf.flush
  rw [ServerPollItem.poll] at hrun
  rcases hflush : item.conn.flush with ⟨_ | drained, conn⟩ <;> rw [hflush] at hrun hf'
  · cases hrun
  · dsimp only at hrun hf'
    split at hrun
    · cases hrun
      exact hf'
    · rename_i hroom
      simp only [Bool.or_eq_true, decide_eq_true_eq, not_or, not_le] at hroom
      exact hf'.forward hroom.2 hrun

theorem Forwards.polls {batches : List ℕ} (hf : Forwards h start limit item)
    (hrun : polls readFails h batches item = .ok item') : Forwards h start limit item' := by
  induction batches generalizing item with
  | nil =>
      cases hrun
      exact hf
  | cons batch batches ih =>
      rw [ServerPollItem.polls] at hrun
      split at hrun
      · cases hrun
      · rename_i hpoll
        exact ih (hf.poll hpoll) hrun

/-- **Outbound streaming is lossless and bounded.** As long as no poll fails,
what the socket took followed by what is pending are the encodings of the
records read, each behind its length; these are the records of the log from
where the source was; and what is pending is less than the limit and one
framed record, or nothing if the limit is zero. -/
theorem streaming_lossless (readFails : ℕ → SegLog.Reader → Option ErrorKind) (h : History)
    {source : ReplicationSource} (hat : source.At (h.log 0)) (uptakes : List Uptake) (limit : ℕ)
    (batches : List ℕ)
    (hrun : polls readFails h batches (adopt ⟨[], uptakes⟩ source limit) = .ok item') :
    item'.conn.socket.taken ++ item'.conn.pending =
      (item'.frames.map RecordFrame.framed).flatten ∧
    item'.frames.map RecordFrame.index = List.range' source.nextIndex item'.frames.length ∧
    (∀ f ∈ item'.frames, f.Of (h.log item'.clock)) ∧
    item'.source.nextIndex = source.nextIndex + item'.frames.length ∧
    (item'.conn.pending = [] ∨ ∃ f ∈ item'.frames,
      item'.conn.pending.length < limit + f.framed.length) ∧
    (limit = 0 → item'.conn.pending = []) := by
  have hf := (forwards_adopt uptakes hat limit).polls hrun
  have hrecords := hf.frames.records
  rw [Nat.zero_add] at hrecords
  refine ⟨hf.stream, hf.frames.indices, hrecords, hf.frames.next, ?_, fun hzero => ?_⟩
  · rcases hf.bounded with hnone | ⟨-, f, hmem, hlt⟩
    · exact .inl (List.eq_nil_of_length_eq_zero ((FramedOut.length_pending _).trans hnone))
    · exact .inr ⟨f, hmem, by rwa [FramedOut.length_pending]⟩
  · rcases hf.bounded with hnone | ⟨hpos, -⟩
    · exact List.eq_nil_of_length_eq_zero ((FramedOut.length_pending _).trans hnone)
    · omega

/-- Two records over a socket that takes a few bytes and then none. -/
def stalled : Except ErrorKind ServerPollItem :=
  polls (fun _ _ => none) (.still (.ofRecords "c" 0 [⟨1, 0, [7]⟩, ⟨2, 0, [8, 9]⟩])) [8, 8]
    (adopt ⟨[], [.bytes 10, .interrupted, .bytes 3, .wouldBlock, .bytes 1, .wouldBlock]⟩
      (ReplicationSource.open (.ofRecords "c" 0 [⟨1, 0, [7]⟩, ⟨2, 0, [8, 9]⟩])).1 1)

theorem streaming_lossless_stalled : ∃ item, stalled = .ok item ∧
    item.frames.map RecordFrame.index = [0] ∧ item.conn.socket.taken.length = 14 ∧
    item.conn.socket.taken ++ item.conn.pending =
      (item.frames.map RecordFrame.framed).flatten := by
  have hrun : ∃ item, stalled = .ok item ∧ item.frames.map RecordFrame.index = [0] ∧
      item.conn.socket.taken.length = 14 := ⟨_, rfl, by decide +kernel, by decide +kernel⟩
  obtain ⟨item, hok, hidx, hlen⟩ := hrun
  exact ⟨item, hok, hidx, hlen,
    (streaming_lossless _ _ (ReplicationSource.open_at _) _ _ _ hok).1⟩

end ServerPollItem

end XchannelNet
