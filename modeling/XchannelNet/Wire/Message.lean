import XchannelNet.Identity

/-!
# Message — the shapes on the wire

The messages of the three protocols (control plane, stream plane, client to
daemon) and the records of the discovery log. An address is of a type `A` of
its own: the protocols compare addresses and print them, nothing else.
-/

namespace XchannelNet.Wire

abbrev RecordIndex := UInt64

abbrev StreamId := UInt32

/-- One record of a log as it travels. -/
structure RecordFrame where
  index : RecordIndex
  msgType : UInt16
  userMeta : UInt64
  startsSegment : Bool
  payload : List UInt8
  deriving DecidableEq, Repr

/-- Control plane, between nodes. -/
inductive ControlMsg (A : Type) where
  | register (id : ChannelIdentity)
  | deregister (name : ChannelName) (owner : NodeId)
  | registryDelta (ids : List ChannelIdentity)
  | registrySync (ids : List ChannelIdentity)
  | heartbeat (node : NodeId) (addr controlAddr : A) (name : String)
  | peerHint (node : NodeId) (addr controlAddr : A) (name : String)
  | leaving (node : NodeId)
  | registerRejected (name : ChannelName) (winner : NodeId)
  deriving DecidableEq, Repr

/-- Stream plane, between a source and a subscriber. -/
inductive StreamMsg where
  | subscribe (name : ChannelName) (fromIndex : RecordIndex) (generation : UInt64)
  | subscribeAck (name : ChannelName) (streamId : StreamId) (start head : RecordIndex)
      (regionSize mtu : UInt32) (fileRollSize : UInt64) (keepFiles : UInt32) (generation : UInt64)
  | record (streamId : StreamId) (frame : RecordFrame)
  | gap (name : ChannelName) (earliest head : RecordIndex)
  | diverged (name : ChannelName) (earliest head : RecordIndex)
  deriving DecidableEq, Repr

/-- The geometry and retention a client asks for. -/
structure ChannelOptions where
  regionSize : UInt32
  mtu : UInt32
  fileRollSize : UInt64
  keepFiles : UInt32
  deriving DecidableEq, Repr

structure TopicOptions where
  channel : ChannelOptions
  maxBatchPerMember : UInt32
  memberReapAfterMs : UInt64
  deriving DecidableEq, Repr

/-- One channel as discovery reports it. -/
structure ChannelInfo where
  name : ChannelName
  owner : NodeId
  epoch : UInt64
  ownerLive : Bool
  memberOf : Option ChannelName
  regionSize : UInt32
  mtu : UInt32
  earliestIndex : RecordIndex
  deriving DecidableEq, Repr

/-- A record of the discovery log: how one name changed. -/
inductive ChannelChange where
  | upserted (info : ChannelInfo)
  | removed (name : ChannelName) (epoch : UInt64)
  deriving DecidableEq, Repr

/-- Where a client starts reading the discovery log. -/
structure DiscoveryCursor where
  logPath : String
  generation : UInt64
  fromIndex : RecordIndex
  deriving DecidableEq, Repr

structure SubscriptionStatus where
  isLocal : Bool
  active : Bool
  synced : RecordIndex
  headAtConnect : RecordIndex
  owner : NodeId
  ownerLive : Bool
  generation : UInt64
  lastRecordAtMs : UInt64
  rebuildsGap : UInt64
  rebuildsDiverged : UInt64
  lastRebuildAtMs : UInt64
  deriving DecidableEq, Repr

inductive ClientRequest where
  | create (name : ChannelName) (options : ChannelOptions)
  | subscribe (name : ChannelName) (waitMs : UInt64)
  | createTopic (name : ChannelName) (options : TopicOptions)
  | publishToTopic (topic member : ChannelName) (options : ChannelOptions)
  | deregister (name : ChannelName)
  | listChannels (namePrefix : String)
  | forceDeregister (name : ChannelName)
  | subscriptionStatus (name : ChannelName)
  deriving DecidableEq, Repr

inductive ClientReply where
  | created (path : String)
  | subscribed (replicaPath : String)
  | channels (channels : List ChannelInfo) (cursor : DiscoveryCursor)
  | deregistered (existed : Bool)
  | status (status : SubscriptionStatus)
  | error (message : String)
  deriving DecidableEq, Repr

end XchannelNet.Wire
