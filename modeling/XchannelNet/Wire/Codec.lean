import XchannelNet.Lib.Parser
import XchannelNet.Mux.Format
import XchannelNet.Wire.Message

/-!
# Codec — messages as bytes

Little-endian integers, strings and byte fields behind a length of four bytes,
a tag in front of each variant. The encoders write the parts of a message one
after the other; the decoders read them in the same order and refuse what is
left over. A decoder gets its bytes from the network: nothing is assumed of
them.

Lengths are written as `u32`, truncated if need be. A length read is below
2^32, so the reader's position never overflows and that error is left out.
-/

namespace XchannelNet.Wire

open Mux (nameBytes nameOfBytes)

/-- The text form of a type of addresses. -/
class SocketText (A : Type) where
  text : A → String
  parse : String → Option A

variable {A : Type} [SocketText A]

/-! ## Writing -/

namespace W

def u8 (v : UInt8) : List UInt8 := [v]

def u16 (v : UInt16) : List UInt8 := Bytes.encode 2 v.toNat

def u32 (v : UInt32) : List UInt8 := Bytes.encode 4 v.toNat

def u64 (v : UInt64) : List UInt8 := Bytes.encode 8 v.toNat

def bool (b : Bool) : List UInt8 := u8 b.toUInt8

def bytes (b : List UInt8) : List UInt8 := u32 (.ofNat b.length) ++ b

def str (s : String) : List UInt8 := bytes (nameBytes s)

def addr (a : A) : List UInt8 := str (SocketText.text a)

def optStr : Option String → List UInt8
  | some s => u8 1 ++ str s
  | none => u8 0

def list {α : Type} (put : α → List UInt8) (as : List α) : List UInt8 :=
  u32 (.ofNat as.length) ++ (as.map put).flatten

end W

/-! ## Reading -/

abbrev R (α : Type) : Type := Parser UInt8 String α

namespace R

def take (n : ℕ) : R (List UInt8) := Parser.take "unexpected end of frame" n

def u8 : R UInt8 := do
  let b ← take 1
  return b.headD 0

def u16 : R UInt16 := do
  let b ← take 2
  return .ofNat (Bytes.decode b)

def u32 : R UInt32 := do
  let b ← take 4
  return .ofNat (Bytes.decode b)

def u64 : R UInt64 := do
  let b ← take 8
  return .ofNat (Bytes.decode b)

def bool : R Bool := do
  let v ← u8
  return v != 0

def bytes : R (List UInt8) := do
  let n ← u32
  take n.toNat

def str : R String := do
  let b ← bytes
  Parser.orFail "invalid utf-8 in string field" (nameOfBytes b)

def addr : R A := do
  let s ← str
  Parser.orFail "invalid socket address field" (SocketText.parse s)

def optStr : R (Option String) := do
  let v ← u8
  if v != 0 then
    let s ← str
    return some s
  else return none

def list {α : Type} (get : R α) : R (List α) := do
  let n ← u32
  Parser.count get n.toNat

/-- Read a whole frame. -/
def finish {α : Type} (p : R α) (b : List UInt8) : Except String α :=
  p.accept "trailing bytes after frame body" b

end R

/-! ## Identities, options and status -/

def putIdentity (id : ChannelIdentity) : List UInt8 :=
  [W.str id.name, W.u64 id.owner, W.u32 id.regionSize, W.u32 id.mtu, W.u64 id.earliestIndex,
    W.u64 id.registeredAtNanos, W.u64 id.epoch, W.bool id.deleted, W.optStr id.memberOf].flatten

/-- How many bytes the encoder writes for an identity, counted by hand. -/
def identityEncodedLen (id : ChannelIdentity) : ℕ :=
  let s := fun t : String => 4 + (nameBytes t).length
  s id.name + 8 + 4 + 4 + 8 + 8 + 8 + 1 + 1 + id.memberOf.elim 0 s

def identitiesEncodedLen (ids : List ChannelIdentity) : ℕ := (ids.map identityEncodedLen).sum

def getIdentity : R ChannelIdentity := do
  let name ← R.str
  let owner ← R.u64
  let regionSize ← R.u32
  let mtu ← R.u32
  let earliestIndex ← R.u64
  let registeredAtNanos ← R.u64
  let epoch ← R.u64
  let deleted ← R.bool
  let memberOf ← R.optStr
  return { name, owner, regionSize, mtu, earliestIndex, registeredAtNanos, epoch, deleted,
           memberOf }

def putIdentities (ids : List ChannelIdentity) : List UInt8 := W.list putIdentity ids

def getIdentities : R (List ChannelIdentity) := R.list getIdentity

def putInfo (c : ChannelInfo) : List UInt8 :=
  [W.str c.name, W.u64 c.owner, W.u64 c.epoch, W.bool c.ownerLive, W.optStr c.memberOf,
    W.u32 c.regionSize, W.u32 c.mtu, W.u64 c.earliestIndex].flatten

def getInfo : R ChannelInfo := do
  let name ← R.str
  let owner ← R.u64
  let epoch ← R.u64
  let ownerLive ← R.bool
  let memberOf ← R.optStr
  let regionSize ← R.u32
  let mtu ← R.u32
  let earliestIndex ← R.u64
  return { name, owner, epoch, ownerLive, memberOf, regionSize, mtu, earliestIndex }

def putStatus (s : SubscriptionStatus) : List UInt8 :=
  [W.bool s.isLocal, W.bool s.active, W.u64 s.synced, W.u64 s.headAtConnect, W.u64 s.owner,
    W.bool s.ownerLive, W.u64 s.generation, W.u64 s.lastRecordAtMs, W.u64 s.rebuildsGap,
    W.u64 s.rebuildsDiverged, W.u64 s.lastRebuildAtMs].flatten

def getStatus : R SubscriptionStatus := do
  let isLocal ← R.bool
  let active ← R.bool
  let synced ← R.u64
  let headAtConnect ← R.u64
  let owner ← R.u64
  let ownerLive ← R.bool
  let generation ← R.u64
  let lastRecordAtMs ← R.u64
  let rebuildsGap ← R.u64
  let rebuildsDiverged ← R.u64
  let lastRebuildAtMs ← R.u64
  return { isLocal, active, synced, headAtConnect, owner, ownerLive, generation, lastRecordAtMs,
           rebuildsGap, rebuildsDiverged, lastRebuildAtMs }

def putOptions (o : ChannelOptions) : List UInt8 :=
  [W.u32 o.regionSize, W.u32 o.mtu, W.u64 o.fileRollSize, W.u32 o.keepFiles].flatten

def getOptions : R ChannelOptions := do
  let regionSize ← R.u32
  let mtu ← R.u32
  let fileRollSize ← R.u64
  let keepFiles ← R.u32
  return { regionSize, mtu, fileRollSize, keepFiles }

def putTopicOptions (o : TopicOptions) : List UInt8 :=
  [putOptions o.channel, W.u32 o.maxBatchPerMember, W.u64 o.memberReapAfterMs].flatten

def getTopicOptions : R TopicOptions := do
  let channel ← getOptions
  let maxBatchPerMember ← R.u32
  let memberReapAfterMs ← R.u64
  return { channel, maxBatchPerMember, memberReapAfterMs }

/-! ## Control plane -/

namespace ControlTag

def REGISTER : UInt8 := 0
def DEREGISTER : UInt8 := 1
def REGISTRY_DELTA : UInt8 := 2
def REGISTRY_SYNC : UInt8 := 3
def HEARTBEAT : UInt8 := 4
def REGISTER_REJECTED : UInt8 := 5
def PEER_HINT : UInt8 := 6
def LEAVING : UInt8 := 7

end ControlTag

def encodeControl : ControlMsg A → List UInt8
  | .register id => [W.u8 ControlTag.REGISTER, putIdentity id].flatten
  | .deregister name owner => [W.u8 ControlTag.DEREGISTER, W.str name, W.u64 owner].flatten
  | .registryDelta ids => [W.u8 ControlTag.REGISTRY_DELTA, putIdentities ids].flatten
  | .registrySync ids => [W.u8 ControlTag.REGISTRY_SYNC, putIdentities ids].flatten
  | .heartbeat node addr controlAddr name =>
    [W.u8 ControlTag.HEARTBEAT, W.u64 node, W.addr addr, W.addr controlAddr, W.str name].flatten
  | .peerHint node addr controlAddr name =>
    [W.u8 ControlTag.PEER_HINT, W.u64 node, W.addr addr, W.addr controlAddr, W.str name].flatten
  | .leaving node => [W.u8 ControlTag.LEAVING, W.u64 node].flatten
  | .registerRejected name winner =>
    [W.u8 ControlTag.REGISTER_REJECTED, W.str name, W.u64 winner].flatten

def getControl (tag : UInt8) : R (ControlMsg A) :=
  if tag = ControlTag.REGISTER then do
    let id ← getIdentity
    return .register id
  else if tag = ControlTag.DEREGISTER then do
    let name ← R.str
    let owner ← R.u64
    return .deregister name owner
  else if tag = ControlTag.REGISTRY_DELTA then do
    let ids ← getIdentities
    return .registryDelta ids
  else if tag = ControlTag.REGISTRY_SYNC then do
    let ids ← getIdentities
    return .registrySync ids
  else if tag = ControlTag.HEARTBEAT then do
    let node ← R.u64
    let addr ← R.addr
    let controlAddr ← R.addr
    let name ← R.str
    return .heartbeat node addr controlAddr name
  else if tag = ControlTag.PEER_HINT then do
    let node ← R.u64
    let addr ← R.addr
    let controlAddr ← R.addr
    let name ← R.str
    return .peerHint node addr controlAddr name
  else if tag = ControlTag.LEAVING then do
    let node ← R.u64
    return .leaving node
  else if tag = ControlTag.REGISTER_REJECTED then do
    let name ← R.str
    let winner ← R.u64
    return .registerRejected name winner
  else Parser.fail "unknown ControlMsg tag"

/-- Read a tag and the variant it stands for. -/
def tagged {α : Type} (get : UInt8 → R α) : R α := do
  let tag ← R.u8
  get tag

def decodeControl (b : List UInt8) : Except String (ControlMsg A) :=
  R.finish (tagged getControl) b

/-! ## Stream plane -/

namespace StreamTag

def SUBSCRIBE : UInt8 := 0
def SUBSCRIBE_ACK : UInt8 := 1
def RECORD : UInt8 := 2
def GAP : UInt8 := 3
def DIVERGED : UInt8 := 4

end StreamTag

def encodeStream : StreamMsg → List UInt8
  | .subscribe name fromIndex generation =>
    [W.u8 StreamTag.SUBSCRIBE, W.str name, W.u64 fromIndex, W.u64 generation].flatten
  | .subscribeAck name streamId start head regionSize mtu fileRollSize keepFiles generation =>
    [W.u8 StreamTag.SUBSCRIBE_ACK, W.str name, W.u32 streamId, W.u64 start, W.u64 head,
      W.u32 regionSize, W.u32 mtu, W.u64 fileRollSize, W.u32 keepFiles, W.u64 generation].flatten
  | .record streamId frame =>
    [W.u8 StreamTag.RECORD, W.u32 streamId, W.u64 frame.index, W.u16 frame.msgType,
      W.u64 frame.userMeta, W.bool frame.startsSegment, W.bytes frame.payload].flatten
  | .gap name earliest head =>
    [W.u8 StreamTag.GAP, W.str name, W.u64 earliest, W.u64 head].flatten
  | .diverged name earliest head =>
    [W.u8 StreamTag.DIVERGED, W.str name, W.u64 earliest, W.u64 head].flatten

def getStream (tag : UInt8) : R StreamMsg :=
  if tag = StreamTag.SUBSCRIBE then do
    let name ← R.str
    let fromIndex ← R.u64
    let generation ← R.u64
    return .subscribe name fromIndex generation
  else if tag = StreamTag.SUBSCRIBE_ACK then do
    let name ← R.str
    let streamId ← R.u32
    let start ← R.u64
    let head ← R.u64
    let regionSize ← R.u32
    let mtu ← R.u32
    let fileRollSize ← R.u64
    let keepFiles ← R.u32
    let generation ← R.u64
    return .subscribeAck name streamId start head regionSize mtu fileRollSize keepFiles generation
  else if tag = StreamTag.RECORD then do
    let streamId ← R.u32
    let index ← R.u64
    let msgType ← R.u16
    let userMeta ← R.u64
    let startsSegment ← R.bool
    let payload ← R.bytes
    return .record streamId { index, msgType, userMeta, startsSegment, payload }
  else if tag = StreamTag.GAP then do
    let name ← R.str
    let earliest ← R.u64
    let head ← R.u64
    return .gap name earliest head
  else if tag = StreamTag.DIVERGED then do
    let name ← R.str
    let earliest ← R.u64
    let head ← R.u64
    return .diverged name earliest head
  else Parser.fail "unknown StreamMsg tag"

def decodeStream (b : List UInt8) : Except String StreamMsg := R.finish (tagged getStream) b

/-! ## Discovery log -/

namespace DiscoveryMsgType

def UPSERTED : UInt16 := 1
def REMOVED : UInt16 := 2

end DiscoveryMsgType

/-- The variant is the record's message type; the payload has only the fields. -/
def encodeChange : ChannelChange → UInt16 × List UInt8
  | .upserted info => (DiscoveryMsgType.UPSERTED, putInfo info)
  | .removed name epoch => (DiscoveryMsgType.REMOVED, [W.str name, W.u64 epoch].flatten)

def getChange (msgType : UInt16) : R ChannelChange :=
  if msgType = DiscoveryMsgType.UPSERTED then do
    let info ← getInfo
    return .upserted info
  else if msgType = DiscoveryMsgType.REMOVED then do
    let name ← R.str
    let epoch ← R.u64
    return .removed name epoch
  else Parser.fail "unknown discovery record type"

def decodeChange (msgType : UInt16) (payload : List UInt8) : Except String ChannelChange :=
  R.finish (getChange msgType) payload

/-! ## Client and daemon -/

namespace ClientReqTag

def CREATE : UInt8 := 0
def SUBSCRIBE : UInt8 := 1
def CREATE_TOPIC : UInt8 := 2
def PUBLISH_TO_TOPIC : UInt8 := 3
def SUBSCRIPTION_STATUS : UInt8 := 4
def DEREGISTER : UInt8 := 5
def FORCE_DEREGISTER : UInt8 := 6
def LIST_CHANNELS : UInt8 := 7

end ClientReqTag

namespace ClientReplyTag

def CREATED : UInt8 := 0
def SUBSCRIBED : UInt8 := 1
def ERROR : UInt8 := 2
def STATUS : UInt8 := 3
def DEREGISTERED : UInt8 := 4
def CHANNELS : UInt8 := 5

end ClientReplyTag

def encodeClientRequest : ClientRequest → List UInt8
  | .create name options => [W.u8 ClientReqTag.CREATE, W.str name, putOptions options].flatten
  | .subscribe name waitMs => [W.u8 ClientReqTag.SUBSCRIBE, W.str name, W.u64 waitMs].flatten
  | .createTopic name options =>
    [W.u8 ClientReqTag.CREATE_TOPIC, W.str name, putTopicOptions options].flatten
  | .publishToTopic topic member options =>
    [W.u8 ClientReqTag.PUBLISH_TO_TOPIC, W.str topic, W.str member, putOptions options].flatten
  | .subscriptionStatus name => [W.u8 ClientReqTag.SUBSCRIPTION_STATUS, W.str name].flatten
  | .deregister name => [W.u8 ClientReqTag.DEREGISTER, W.str name].flatten
  | .forceDeregister name => [W.u8 ClientReqTag.FORCE_DEREGISTER, W.str name].flatten
  | .listChannels namePrefix => [W.u8 ClientReqTag.LIST_CHANNELS, W.str namePrefix].flatten

def getClientRequest (tag : UInt8) : R ClientRequest :=
  if tag = ClientReqTag.CREATE then do
    let name ← R.str
    let options ← getOptions
    return .create name options
  else if tag = ClientReqTag.SUBSCRIBE then do
    let name ← R.str
    let waitMs ← R.u64
    return .subscribe name waitMs
  else if tag = ClientReqTag.CREATE_TOPIC then do
    let name ← R.str
    let options ← getTopicOptions
    return .createTopic name options
  else if tag = ClientReqTag.PUBLISH_TO_TOPIC then do
    let topic ← R.str
    let member ← R.str
    let options ← getOptions
    return .publishToTopic topic member options
  else if tag = ClientReqTag.SUBSCRIPTION_STATUS then do
    let name ← R.str
    return .subscriptionStatus name
  else if tag = ClientReqTag.DEREGISTER then do
    let name ← R.str
    return .deregister name
  else if tag = ClientReqTag.FORCE_DEREGISTER then do
    let name ← R.str
    return .forceDeregister name
  else if tag = ClientReqTag.LIST_CHANNELS then do
    let namePrefix ← R.str
    return .listChannels namePrefix
  else Parser.fail "unknown ClientRequest tag"

def decodeClientRequest (b : List UInt8) : Except String ClientRequest :=
  R.finish (tagged getClientRequest) b

def encodeClientReply : ClientReply → List UInt8
  | .created path => [W.u8 ClientReplyTag.CREATED, W.str path].flatten
  | .subscribed replicaPath => [W.u8 ClientReplyTag.SUBSCRIBED, W.str replicaPath].flatten
  | .error message => [W.u8 ClientReplyTag.ERROR, W.str message].flatten
  | .status status => [W.u8 ClientReplyTag.STATUS, putStatus status].flatten
  | .deregistered existed => [W.u8 ClientReplyTag.DEREGISTERED, W.bool existed].flatten
  | .channels channels cursor =>
    [W.u8 ClientReplyTag.CHANNELS, W.list putInfo channels, W.str cursor.logPath,
      W.u64 cursor.generation, W.u64 cursor.fromIndex].flatten

def getClientReply (tag : UInt8) : R ClientReply :=
  if tag = ClientReplyTag.CREATED then do
    let path ← R.str
    return .created path
  else if tag = ClientReplyTag.SUBSCRIBED then do
    let replicaPath ← R.str
    return .subscribed replicaPath
  else if tag = ClientReplyTag.ERROR then do
    let message ← R.str
    return .error message
  else if tag = ClientReplyTag.STATUS then do
    let status ← getStatus
    return .status status
  else if tag = ClientReplyTag.DEREGISTERED then do
    let existed ← R.bool
    return .deregistered existed
  else if tag = ClientReplyTag.CHANNELS then do
    let channels ← R.list getInfo
    let logPath ← R.str
    let generation ← R.u64
    let fromIndex ← R.u64
    return .channels channels { logPath, generation, fromIndex }
  else Parser.fail "unknown ClientReply tag"

def decodeClientReply (b : List UInt8) : Except String ClientReply :=
  R.finish (tagged getClientReply) b

end XchannelNet.Wire
