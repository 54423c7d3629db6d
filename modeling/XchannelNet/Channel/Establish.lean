import Mathlib.Logic.Function.Iterate
import Mathlib.Logic.Relation
import XchannelNet.Channel.Stream

/-!
# Establish — one attempt to connect a subscription

The subscriber reads where its replica stands and asks to resume there. The
origin answers from its own log, and the subscriber opens its sink on what is
really on disk. An attempt that is told to rebuild discards the replica; every
other failure leaves it, and the next attempt is the same again. So whether a
subscription gets anywhere is a question about the answers an attempt gives
over ALL replicas and origins.
-/

namespace XchannelNet

/-- An origin as one attempt meets it. The log is opened at one moment and
asked for its head at a later one; `registered` is the region size in the
subscriber's registry. -/
structure Origin where
  opened : Log
  log : Log
  grown : Relation.ReflTransGen Log.Grows opened log
  source : ChannelSource
  registered : UInt32

/-- What the origin sends, and the source it goes on with if it serves. -/
def Accepted.reply (name : ChannelName) :
    Accepted → Option (SubscribeReply × Option ReplicationSource)
  | .serving ack source => some (.subscribeAck name ack, some source)
  | .refused reply => some (reply, none)
  | .blocked => none

/-- How an attempt ends. -/
inductive Attempt where
  | attached (reply : SubscribeReply) (source : Option ReplicationSource) (sink : ReplicationSink)
  | discarded (diverged : Bool)
  | failed (e : SinkError)
  | blocked

/-- `Node::establish` over a healthy connection: how the attempt ends, and the
replica it leaves on disk. -/
def establish (name : ChannelName) (o : Origin) (replica : Option Log) : Attempt × Option Log :=
  let (fromIndex, generation) := resumePosition o.registered replica
  let (source, earliest) := ReplicationSource.open o.opened
  match (answerSubscription o.log o.source source earliest name fromIndex generation).reply
      name with
  | none => (.blocked, replica)
  | some (reply, source) =>
    match subscribe name replica reply with
    | .ok sink => (.attached reply source sink, some sink.writer)
    | .error (.rebuild diverged _ _) => (.discarded diverged, none)
    -- nothing is done about any other failure
    | .error (.sink e) => (.failed e, replica)

/-! ## Attaching -/

/-- The attempt attached: the sink expects the index that the source sends
next, in the origin's incarnation. -/
structure Attaches (name : ChannelName) (o : Origin) (out : Attempt × Option Log)
    (ack : SubscribeAck) (source : ReplicationSource) (sink : ReplicationSink) : Prop where
  outcome : out = (.attached (.subscribeAck name ack) (some source) sink, some sink.writer)
  expected : sink.expectedIndex = ack.start
  generation : sink.writer.generation = o.log.generation
  served : source.At o.log ∧ source.nextIndex = ack.start

namespace Origin

variable {o : Origin}

theorem earliest_le_head (o : Origin) : o.opened.earliest ≤ o.log.head := by
  have hhead : ∀ l, Relation.ReflTransGen Log.Grows o.opened l → o.opened.head ≤ l.head := by
    intro l hl
    induction hl with
    | refl => exact le_rfl
    | tail _ hg ih => exact ih.trans hg.records.head_le
  exact o.opened.earliest_le_head.trans (hhead o.log o.grown)

/-- The acknowledgement of a start. -/
def ack (o : Origin) (start : ℕ) : SubscribeAck where
  start := start
  head := o.log.head
  regionSize := o.source.regionSize
  mtu := o.source.mtu
  fileRollSize := o.source.fileRollSize
  keepFiles := o.source.keepFiles
  generation := o.log.generation

end Origin

/-- A log of one record, before and after a roll has pruned it. -/
def oneRecord : Log := .ofRecords "c" 0 [⟨1, 0, []⟩]

end XchannelNet
