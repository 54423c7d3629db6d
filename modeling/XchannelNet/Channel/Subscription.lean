import XchannelNet.Channel.Stream
import XchannelNet.Lib.Run

/-!
# Subscription — one subscriber against logs that move

The subscriber's side of a channel: the replica on its disk and the one
connection attempt or stream it has going. The logs it may meet sit in a
store, under the number they were created with; a connection is to ONE of
them, whichever file the peer had at the channel's path when it opened its
source. Between any two steps here the logs may grow, roll and prune.
-/

namespace XchannelNet

/-- Where a connection stands. A `source` of `none` is a server that is gone,
with its last frames still in flight. -/
inductive Phase (P : Type*) where
  | idle
  | asked (peer : P) (fromIndex : ℕ) (generation : UInt64)
  | opened (origin fromIndex : ℕ) (generation : UInt64) (source : ReplicationSource)
      (earliest : ℕ)
  | refused (reply : SubscribeReply)
  | accepted (origin : ℕ) (ack : SubscribeAck) (source : Option ReplicationSource)
      (wire : List RecordFrame)
  | streaming (origin : ℕ) (source : Option ReplicationSource) (wire : List RecordFrame)
      (expectedIndex : ℕ)

structure Subscriber (P : Type*) where
  replica : Option Log
  phase : Phase P

/-- The connection moves on; the replica stays. -/
def Subscriber.enter {P : Type*} (s : Subscriber P) (phase : Phase P) : Subscriber P :=
  { s with phase }

/-- What a subscriber meets: the logs, the peers (with the region size the
registry gives) a name resolves to, and the log a peer serves it from. -/
structure Mesh (P : Type*) where
  store : List Log
  resolve : P → UInt32 → Prop
  serving : P → Option ℕ

/-- The steps of a subscriber for channel `name`. -/
inductive SubStep {P : Type*} (name : ChannelName) (m : Mesh P) :
    Subscriber P → Subscriber P → Prop
  -- read the replica's position and send `Subscribe`
  | ask {s : Subscriber P} (peer : P) (regionSize : UInt32) (hidle : s.phase = .idle)
      (hres : m.resolve peer regionSize) :
      SubStep name m s (s.enter (.asked peer
        (resumePosition regionSize s.replica).1 (resumePosition regionSize s.replica).2))
  -- the origin opens its source over the file it has at this moment
  | openSource {s : Subscriber P} {peer : P} {fromIndex : ℕ} {generation : UInt64} {o : ℕ}
      {l : Log} (hp : s.phase = .asked peer fromIndex generation)
      (hserve : m.serving peer = some o) (hl : m.store[o]? = some l) :
      SubStep name m s (s.enter (.opened o fromIndex generation
        (ReplicationSource.open l).1 (ReplicationSource.open l).2))
  | refuse {s : Subscriber P} {o fromIndex : ℕ} {generation : UInt64}
      {source : ReplicationSource} {earliest : ℕ} {l : Log} {c : ChannelSource}
      {reply : SubscribeReply}
      (hp : s.phase = .opened o fromIndex generation source earliest)
      (hl : m.store[o]? = some l)
      (hans : answerSubscription l c source earliest name fromIndex generation =
        .refused reply) :
      SubStep name m s (s.enter (.refused reply))
  | accept {s : Subscriber P} {o fromIndex : ℕ} {generation : UInt64}
      {source : ReplicationSource} {earliest : ℕ} {l : Log} {c : ChannelSource}
      {ack : SubscribeAck} {source' : ReplicationSource}
      (hp : s.phase = .opened o fromIndex generation source earliest)
      (hl : m.store[o]? = some l)
      (hans : answerSubscription l c source earliest name fromIndex generation =
        .serving ack source') :
      SubStep name m s (s.enter (.accepted o ack (some source') []))
  -- the server sends on, before and after the subscriber has read the ack
  | sendEarly {s : Subscriber P} {o : ℕ} {ack : SubscribeAck} {source : ReplicationSource}
      {wire : List RecordFrame} {l : Log} (hp : s.phase = .accepted o ack (some source) wire)
      (hl : m.store[o]? = some l) :
      SubStep name m s (s.enter (.accepted o ack (some (source.tryNextFrame l).2)
        (wire ++ (source.tryNextFrame l).1.toList)))
  | send {s : Subscriber P} {o : ℕ} {source : ReplicationSource} {wire : List RecordFrame}
      {expectedIndex : ℕ} {l : Log}
      (hp : s.phase = .streaming o (some source) wire expectedIndex)
      (hl : m.store[o]? = some l) :
      SubStep name m s (s.enter (.streaming o (some (source.tryNextFrame l).2)
        (wire ++ (source.tryNextFrame l).1.toList) expectedIndex))
  -- the subscriber reads the reply
  | openSink {s : Subscriber P} {o : ℕ} {ack : SubscribeAck}
      {source : Option ReplicationSource} {wire : List RecordFrame} {sink : ReplicationSink}
      (hp : s.phase = .accepted o ack source wire)
      (hsub : subscribe name s.replica (.subscribeAck name ack) = .ok sink) :
      SubStep name m s ⟨some sink.writer, .streaming o source wire sink.expectedIndex⟩
  | rebuild {s : Subscriber P} {reply : SubscribeReply} {diverged : Bool} {earliest head : ℕ}
      (hp : s.phase = .refused reply)
      (hsub : subscribe name s.replica reply = .error (.rebuild diverged earliest head)) :
      SubStep name m s ⟨none, .idle⟩
  | apply {s : Subscriber P} {o : ℕ} {source : Option ReplicationSource} {f : RecordFrame}
      {wire : List RecordFrame} {expectedIndex : ℕ} {r : Log} {sink : ReplicationSink}
      (hp : s.phase = .streaming o source (f :: wire) expectedIndex)
      (hr : s.replica = some r) (happ : ReplicationSink.apply ⟨r, expectedIndex⟩ f = .ok sink) :
      SubStep name m s ⟨some sink.writer, .streaming o source wire sink.expectedIndex⟩
  -- the link dies and a suffix of what is in flight is lost with it
  | cutEarly {s : Subscriber P} {o : ℕ} {ack : SubscribeAck}
      {source : Option ReplicationSource} {wire : List RecordFrame} (k : ℕ)
      (hp : s.phase = .accepted o ack source wire) :
      SubStep name m s (s.enter (.accepted o ack none (wire.take k)))
  | cut {s : Subscriber P} {o : ℕ} {source : Option ReplicationSource}
      {wire : List RecordFrame} {expectedIndex : ℕ} (k : ℕ)
      (hp : s.phase = .streaming o source wire expectedIndex) :
      SubStep name m s (s.enter (.streaming o none (wire.take k) expectedIndex))
  -- any failure, on either side, at any point: the subscriber starts over
  | drop (s : Subscriber P) : SubStep name m s (s.enter .idle)
  -- the replica's writer rolls and prunes by its own configuration
  | rollReplica {s : Subscriber P} {r : Log} (hr : s.replica = some r) :
      SubStep name m s { s with replica := some r.rollFile }
  | pruneReplica {s : Subscriber P} {r : Log} (k : ℕ) (hr : s.replica = some r) :
      SubStep name m s { s with replica := some (r.pruneTo k) }

end XchannelNet
