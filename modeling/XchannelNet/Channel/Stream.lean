import XchannelNet.Channel.Replication

/-!
# Stream — the subscription handshake

The origin decides a resume BEFORE it seeks: a replica of another
incarnation diverged, one older than the retained history has a gap, one
ahead of the head diverged too. What is left is a position inside the
retained range, which the seek reaches without waiting.
-/

namespace XchannelNet

/-- What the origin advertises about a channel beside its log. -/
structure ChannelSource where
  regionSize : UInt32
  mtu : UInt32
  fileRollSize : UInt64
  keepFiles : UInt32
  deriving DecidableEq, Repr

structure SubscribeAck where
  start : ℕ
  head : ℕ
  regionSize : UInt32
  mtu : UInt32
  fileRollSize : UInt64
  keepFiles : UInt32
  generation : UInt64
  deriving DecidableEq, Repr

/-- The origin's answer to a `Subscribe`. -/
inductive SubscribeReply where
  | subscribeAck (name : ChannelName) (ack : SubscribeAck)
  | gap (name : ChannelName) (earliest head : ℕ)
  | diverged (name : ChannelName) (earliest head : ℕ)
  deriving DecidableEq, Repr

/-- How the origin side of a handshake ends. -/
inductive Accepted where
  | serving (ack : SubscribeAck) (source : ReplicationSource)
  | refused (reply : SubscribeReply)
  | blocked

/-- The part of `accept_subscription` that follows reading the head: decide,
`seek`, reply. -/
def decideSubscription (c : ChannelSource) (earliest head : ℕ) (generation : UInt64)
    (seek : ℕ → Option ReplicationSource) (name : ChannelName) (fromIndex : ℕ)
    (theirGeneration : UInt64) : Accepted :=
  if 0 < fromIndex ∧ theirGeneration ≠ generation then
    .refused (.diverged name earliest head)
  else if 0 < fromIndex ∧ fromIndex < earliest then
    .refused (.gap name earliest earliest)
  else if head < fromIndex then
    .refused (.diverged name earliest head)
  else
    let start := max fromIndex earliest
    match seek start with
    | none => .blocked
    | some source =>
      .serving
        { start, head, regionSize := c.regionSize, mtu := c.mtu, fileRollSize := c.fileRollSize,
          keepFiles := c.keepFiles, generation } source

/-- The part of `accept_subscription` that follows opening the source. -/
def answerSubscription (l : Log) (c : ChannelSource) (source : ReplicationSource)
    (earliest : ℕ) : ChannelName → ℕ → UInt64 → Accepted :=
  decideSubscription c earliest l.head l.generation (source.skipTo l)

/-- The whole handshake, when the log does not move under it. -/
def acceptSubscription (l : Log) (c : ChannelSource) (name : ChannelName) (fromIndex : ℕ)
    (theirGeneration : UInt64) : Accepted :=
  let (source, earliest) := ReplicationSource.open l
  answerSubscription l c source earliest name fromIndex theirGeneration

/-- Why a `subscribe` failed, split by what the caller must do about it. -/
inductive SubscribeError where
  | rebuild (diverged : Bool) (earliest head : ℕ)
  | sink (e : SinkError)
  deriving DecidableEq, Repr

/-- The configuration a replica is opened with. -/
def SubscribeAck.config (ack : SubscribeAck) (name : ChannelName) : WriterConfig where
  name := name
  regionSize := ack.regionSize
  mtu := ack.mtu
  fileRollSize := ack.fileRollSize
  keepFiles := ack.keepFiles
  baseRecordIndex := ack.start
  generation := ack.generation

/-- The part of `subscribe` that follows the reply: open the sink on an ack. -/
def subscribe (name : ChannelName) (replica : Option Log) :
    SubscribeReply → Except SubscribeError ReplicationSink
  | .subscribeAck _ ack =>
    match ReplicationSink.open (ack.config name) replica with
    | .ok sink => .ok sink
    | .error e => .error (.sink e)
  | .gap _ earliest head => .error (.rebuild false earliest head)
  | .diverged _ earliest head => .error (.rebuild true earliest head)

/-- A writer opened with a region size and nothing else. -/
def probeConfig (regionSize : UInt32) : WriterConfig where
  name := ""
  regionSize := regionSize
  mtu := 0
  fileRollSize := 0
  keepFiles := 0
  baseRecordIndex := 0
  generation := 0

/-- Where a replica stands, as its own files say; opening them with another
region size fails. -/
def replicaPosition (regionSize : UInt32) : Option Log → Except WriterError (ℕ × UInt64)
  | none => .ok (0, 0)
  | some r =>
    match Log.build (probeConfig regionSize) (some r) with
    | .ok writer => .ok (writer.head, writer.generation)
    | .error e => .error e

/-- The position `establish` asks to resume at; a replica it cannot read
counts as none. -/
def resumePosition (regionSize : UInt32) (replica : Option Log) : ℕ × UInt64 :=
  match replicaPosition regionSize replica with
  | .ok p => p
  | .error _ => (0, 0)

/-- An accepted subscription starts inside the log, with the source there. -/
theorem answerSubscription_serving {l : Log} {c : ChannelSource} {source : ReplicationSource}
    {earliest : ℕ} {name : ChannelName} {fromIndex : ℕ} {theirGeneration : UInt64}
    {ack : SubscribeAck} {source' : ReplicationSource} (hat : source.At l)
    (hidx : source.nextIndex = earliest) (hle : earliest ≤ l.head)
    (h : answerSubscription l c source earliest name fromIndex theirGeneration =
      .serving ack source') :
    ack.generation = l.generation ∧ ack.start = max fromIndex earliest ∧ ack.start ≤ l.head ∧
      source'.At l ∧ source'.nextIndex = ack.start := by
  simp only [answerSubscription, decideSubscription] at h
  split at h
  · cases h
  · split at h
    · cases h
    · split at h
      · cases h
      · rename_i hhead
        have hstart : max fromIndex earliest ≤ l.head := max_le (not_lt.mp hhead) hle
        obtain ⟨s, hs, hat', hidx'⟩ := hat.skipTo (hidx ▸ le_max_right _ _) hstart
        rw [hs] at h
        cases h
        exact ⟨rfl, rfl, hstart, hat', hidx'⟩

end XchannelNet
