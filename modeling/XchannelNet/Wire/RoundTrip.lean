import XchannelNet.Wire.Codec

/-!
# RoundTrip — every message is read back, and nothing longer

Both halves go through the parts of the format. What a writer wrote, its
reader takes off the front of whatever follows (`Reads`); no reader looks past
what it takes (`Local`), so that a frame is never the beginning of another.
-/

namespace XchannelNet.Wire

open Parser
open Mux (nameBytes nameOfBytes nameOfBytes_nameBytes)

/-- Printed addresses parse back, and are short: the longest one of a v6
socket with a scope has 58 bytes. -/
class LawfulSocketText (A : Type) [SocketText A] : Prop where
  parse_text : ∀ a : A, SocketText.parse (SocketText.text a) = some a
  text_short : ∀ a : A, (nameBytes (SocketText.text a)).length < 2 ^ 32

variable {A : Type} [SocketText A]

/-! ## What fits on the wire -/

/-- The length of the string fits its four bytes. -/
def Short (s : String) : Prop := (nameBytes s).length < 2 ^ 32

instance (s : String) : Decidable (Short s) := inferInstanceAs (Decidable (_ < _))

def IdentityFits (id : ChannelIdentity) : Prop := Short id.name ∧ ∀ t ∈ id.memberOf, Short t

def InfoFits (c : ChannelInfo) : Prop := Short c.name ∧ ∀ t ∈ c.memberOf, Short t

/-- A list as long as its count can say, of elements that fit. -/
def ListFits {α : Type} (fits : α → Prop) (as : List α) : Prop :=
  as.length < 2 ^ 32 ∧ ∀ a ∈ as, fits a

def ControlMsg.Fits : ControlMsg A → Prop
  | .register id => IdentityFits id
  | .deregister name _ => Short name
  | .registryDelta ids => ListFits IdentityFits ids
  | .registrySync ids => ListFits IdentityFits ids
  | .heartbeat _ _ _ name => Short name
  | .peerHint _ _ _ name => Short name
  | .leaving _ => True
  | .registerRejected name _ => Short name

def StreamMsg.Fits : StreamMsg → Prop
  | .subscribe name _ _ => Short name
  | .subscribeAck name _ _ _ _ _ _ _ _ => Short name
  | .record _ frame => frame.payload.length < 2 ^ 32
  | .gap name _ _ => Short name
  | .diverged name _ _ => Short name

def ChannelChange.Fits : ChannelChange → Prop
  | .upserted info => InfoFits info
  | .removed name _ => Short name

def ClientRequest.Fits : ClientRequest → Prop
  | .create name _ => Short name
  | .subscribe name _ => Short name
  | .createTopic name _ => Short name
  | .publishToTopic topic member _ => Short topic ∧ Short member
  | .deregister name => Short name
  | .listChannels namePrefix => Short namePrefix
  | .forceDeregister name => Short name
  | .subscriptionStatus name => Short name

def ClientReply.Fits : ClientReply → Prop
  | .created path => Short path
  | .subscribed replicaPath => Short replicaPath
  | .channels infos cursor => ListFits InfoFits infos ∧ Short cursor.logPath
  | .deregistered _ => True
  | .status _ => True
  | .error message => Short message

/-! ## Reading the parts back -/

theorem reads_u8 (v : UInt8) : Reads R.u8 (W.u8 v) v :=
  Reads.map (Reads.take rfl) (Reads.pure v)

theorem reads_u16 (v : UInt16) : Reads R.u16 (W.u16 v) v := by
  refine Reads.map (Reads.take (Bytes.length_encode 2 v.toNat)) ?_
  rw [W.u16, Bytes.decode_uint16]
  exact Reads.pure v

theorem reads_u32 (v : UInt32) : Reads R.u32 (W.u32 v) v := by
  refine Reads.map (Reads.take (Bytes.length_encode 4 v.toNat)) ?_
  rw [W.u32, Bytes.decode_uint32]
  exact Reads.pure v

theorem reads_u64 (v : UInt64) : Reads R.u64 (W.u64 v) v := by
  refine Reads.map (Reads.take (Bytes.length_encode 8 v.toNat)) ?_
  rw [W.u64, Bytes.decode_uint64]
  exact Reads.pure v

theorem reads_bool (b : Bool) : Reads R.bool (W.bool b) b := by
  refine (reads_u8 b.toUInt8).map ?_
  cases b
  · exact Reads.pure false
  · exact Reads.pure true

theorem toNat_ofNat_of_short {n : ℕ} (h : n < 2 ^ 32) : (UInt32.ofNat n).toNat = n :=
  UInt32.toNat_ofNat_of_lt' h

theorem reads_bytes {b : List UInt8} (h : b.length < 2 ^ 32) : Reads R.bytes (W.bytes b) b :=
  (reads_u32 _).bind (Reads.take (toNat_ofNat_of_short h).symm)

theorem reads_str {s : String} (h : Short s) : Reads R.str (W.str s) s :=
  (reads_bytes h).map (Reads.orFail (nameOfBytes_nameBytes s))

theorem reads_addr [LawfulSocketText A] (a : A) : Reads R.addr (W.addr a) a :=
  (reads_str (LawfulSocketText.text_short a)).map
    (Reads.orFail (LawfulSocketText.parse_text a))

theorem reads_optStr {o : Option String} (h : ∀ s ∈ o, Short s) :
    Reads R.optStr (W.optStr o) o := by
  cases o with
  | none => exact (reads_u8 0).map (Reads.pure none)
  | some s => exact (reads_u8 1).bind <| (reads_str (h s rfl)).map <| Reads.pure (some s)

theorem reads_list {α : Type} {get : R α} {put : α → List UInt8} {fits : α → Prop}
    (hget : ∀ a, fits a → Reads get (put a) a) {as : List α} (h : ListFits fits as) :
    Reads (R.list get) (W.list put as) as := by
  refine (reads_u32 _).bind ?_
  rw [toNat_ofNat_of_short h.1]
  exact Reads.count fun a ha => hget a (h.2 a ha)

theorem reads_identity (id : ChannelIdentity) (h : IdentityFits id) :
    Reads getIdentity (putIdentity id) id :=
  (reads_str h.1).bind <| (reads_u64 _).bind <| (reads_u32 _).bind <| (reads_u32 _).bind <|
    (reads_u64 _).bind <| (reads_u64 _).bind <| (reads_u64 _).bind <| (reads_bool _).bind <|
    (reads_optStr h.2).bind <| Reads.pure id

theorem reads_identities {ids : List ChannelIdentity} (h : ListFits IdentityFits ids) :
    Reads getIdentities (putIdentities ids) ids :=
  reads_list reads_identity h

theorem reads_info (c : ChannelInfo) (h : InfoFits c) : Reads getInfo (putInfo c) c :=
  (reads_str h.1).bind <| (reads_u64 _).bind <| (reads_u64 _).bind <| (reads_bool _).bind <|
    (reads_optStr h.2).bind <| (reads_u32 _).bind <| (reads_u32 _).bind <| (reads_u64 _).bind <|
    Reads.pure c

theorem reads_status (s : SubscriptionStatus) : Reads getStatus (putStatus s) s :=
  (reads_bool _).bind <| (reads_bool _).bind <| (reads_u64 _).bind <| (reads_u64 _).bind <|
    (reads_u64 _).bind <| (reads_bool _).bind <| (reads_u64 _).bind <| (reads_u64 _).bind <|
    (reads_u64 _).bind <| (reads_u64 _).bind <| (reads_u64 _).bind <| Reads.pure s

theorem reads_options (o : ChannelOptions) : Reads getOptions (putOptions o) o :=
  (reads_u32 _).bind <| (reads_u32 _).bind <| (reads_u64 _).bind <| (reads_u32 _).bind <|
    Reads.pure o

theorem reads_topicOptions (o : TopicOptions) : Reads getTopicOptions (putTopicOptions o) o :=
  (reads_options _).bind <| (reads_u32 _).bind <| (reads_u64 _).bind <| Reads.pure o

/-! ## Reading the messages back -/

theorem reads_control [LawfulSocketText A] {m : ControlMsg A} (h : m.Fits) :
    Reads (tagged getControl) (encodeControl m) m := by
  cases m with
  | register id => exact (reads_u8 _).bind <| (reads_identity id h).bind <| Reads.pure _
  | deregister name owner =>
      exact (reads_u8 _).bind <| (reads_str h).bind <| (reads_u64 _).bind <| Reads.pure _
  | registryDelta ids => exact (reads_u8 _).bind <| (reads_identities h).bind <| Reads.pure _
  | registrySync ids => exact (reads_u8 _).bind <| (reads_identities h).bind <| Reads.pure _
  | heartbeat node addr controlAddr name =>
      exact (reads_u8 _).bind <| (reads_u64 _).bind <| (reads_addr _).bind <|
        (reads_addr _).bind <| (reads_str h).bind <| Reads.pure _
  | peerHint node addr controlAddr name =>
      exact (reads_u8 _).bind <| (reads_u64 _).bind <| (reads_addr _).bind <|
        (reads_addr _).bind <| (reads_str h).bind <| Reads.pure _
  | leaving node => exact (reads_u8 _).bind <| (reads_u64 _).bind <| Reads.pure _
  | registerRejected name winner =>
      exact (reads_u8 _).bind <| (reads_str h).bind <| (reads_u64 _).bind <| Reads.pure _

theorem reads_stream {m : StreamMsg} (h : m.Fits) :
    Reads (tagged getStream) (encodeStream m) m := by
  cases m with
  | subscribe name fromIndex generation =>
      exact (reads_u8 _).bind <| (reads_str h).bind <| (reads_u64 _).bind <|
        (reads_u64 _).bind <| Reads.pure _
  | subscribeAck name streamId start head regionSize mtu fileRollSize keepFiles generation =>
      exact (reads_u8 _).bind <| (reads_str h).bind <| (reads_u32 _).bind <|
        (reads_u64 _).bind <| (reads_u64 _).bind <| (reads_u32 _).bind <| (reads_u32 _).bind <|
        (reads_u64 _).bind <| (reads_u32 _).bind <| (reads_u64 _).bind <| Reads.pure _
  | record streamId frame =>
      exact (reads_u8 _).bind <| (reads_u32 _).bind <| (reads_u64 _).bind <|
        (reads_u16 _).bind <| (reads_u64 _).bind <| (reads_bool _).bind <|
        (reads_bytes h).bind <| Reads.pure _
  | gap name earliest head =>
      exact (reads_u8 _).bind <| (reads_str h).bind <| (reads_u64 _).bind <|
        (reads_u64 _).bind <| Reads.pure _
  | diverged name earliest head =>
      exact (reads_u8 _).bind <| (reads_str h).bind <| (reads_u64 _).bind <|
        (reads_u64 _).bind <| Reads.pure _

theorem reads_change {c : ChannelChange} (h : c.Fits) :
    Reads (getChange (encodeChange c).1) (encodeChange c).2 c := by
  cases c with
  | upserted info => exact (reads_info info h).map (Reads.pure _)
  | removed name epoch => exact (reads_str h).bind <| (reads_u64 _).bind <| Reads.pure _

theorem reads_clientRequest {m : ClientRequest} (h : m.Fits) :
    Reads (tagged getClientRequest) (encodeClientRequest m) m := by
  cases m with
  | create name options =>
      exact (reads_u8 _).bind <| (reads_str h).bind <| (reads_options _).bind <| Reads.pure _
  | subscribe name waitMs =>
      exact (reads_u8 _).bind <| (reads_str h).bind <| (reads_u64 _).bind <| Reads.pure _
  | createTopic name options =>
      exact (reads_u8 _).bind <| (reads_str h).bind <| (reads_topicOptions _).bind <|
        Reads.pure _
  | publishToTopic topic member options =>
      exact (reads_u8 _).bind <| (reads_str h.1).bind <| (reads_str h.2).bind <|
        (reads_options _).bind <| Reads.pure _
  | deregister name => exact (reads_u8 _).bind <| (reads_str h).bind <| Reads.pure _
  | listChannels namePrefix => exact (reads_u8 _).bind <| (reads_str h).bind <| Reads.pure _
  | forceDeregister name => exact (reads_u8 _).bind <| (reads_str h).bind <| Reads.pure _
  | subscriptionStatus name => exact (reads_u8 _).bind <| (reads_str h).bind <| Reads.pure _

theorem reads_clientReply {m : ClientReply} (h : m.Fits) :
    Reads (tagged getClientReply) (encodeClientReply m) m := by
  cases m with
  | created path => exact (reads_u8 _).bind <| (reads_str h).bind <| Reads.pure _
  | subscribed replicaPath => exact (reads_u8 _).bind <| (reads_str h).bind <| Reads.pure _
  | channels channels cursor =>
      exact (reads_u8 _).bind <| (reads_list reads_info h.1).bind <| (reads_str h.2).bind <|
        (reads_u64 _).bind <| (reads_u64 _).bind <| Reads.pure _
  | deregistered existed => exact (reads_u8 _).bind <| (reads_bool _).bind <| Reads.pure _
  | status status => exact (reads_u8 _).bind <| (reads_status _).bind <| Reads.pure _
  | error message => exact (reads_u8 _).bind <| (reads_str h).bind <| Reads.pure _

/-- **Round trip**: every message that fits is decoded to itself. -/
theorem decode_encode_message [LawfulSocketText A] :
    (∀ m : ControlMsg A, m.Fits → decodeControl (encodeControl m) = .ok m) ∧
    (∀ m : StreamMsg, m.Fits → decodeStream (encodeStream m) = .ok m) ∧
    (∀ m : ClientRequest, m.Fits → decodeClientRequest (encodeClientRequest m) = .ok m) ∧
    (∀ m : ClientReply, m.Fits → decodeClientReply (encodeClientReply m) = .ok m) ∧
    (∀ c : ChannelChange, c.Fits →
      decodeChange (encodeChange c).1 (encodeChange c).2 = .ok c) :=
  ⟨fun _ h => (reads_control h).accept _, fun _ h => (reads_stream h).accept _,
    fun _ h => (reads_clientRequest h).accept _, fun _ h => (reads_clientReply h).accept _,
    fun _ h => (reads_change h).accept _⟩

/-- The addresses a node on one machine listens on. -/
inductive Loopback where
  | v4
  | v6
  deriving DecidableEq, Repr

instance : SocketText Loopback where
  text
    | .v4 => "127.0.0.1:7400"
    | .v6 => "[::1]:7400"
  parse s :=
    if s = "127.0.0.1:7400" then some .v4 else if s = "[::1]:7400" then some .v6 else none

instance : LawfulSocketText Loopback where
  parse_text a := by cases a <;> decide
  text_short a := by cases a <;> decide

theorem decode_encode_sync_message :
    let id : ChannelIdentity := ⟨"fed", 1, 65536, 1500, 0, 7, 1, false, some "all"⟩
    let sync : ControlMsg Loopback := .registrySync [id, id]
    let beat : ControlMsg Loopback := .heartbeat 1 .v4 .v6 "a"
    sync.Fits ∧ decodeControl (encodeControl sync) = .ok sync ∧
      beat.Fits ∧ decodeControl (encodeControl beat) = .ok beat := by
  intro id sync beat
  have hid : IdentityFits id := ⟨by decide, by decide⟩
  have hsync : sync.Fits := ⟨by simp, by simpa using hid⟩
  have hbeat : beat.Fits := show Short "a" by decide
  exact ⟨hsync, decode_encode_message.1 sync hsync, hbeat, decode_encode_message.1 beat hbeat⟩

/-! ## Readers look no further than they read -/

@[simp] theorem local_u8 : Local R.u8 := by simp [R.u8, R.take]

@[simp] theorem local_u16 : Local R.u16 := by simp [R.u16, R.take]

@[simp] theorem local_u32 : Local R.u32 := by simp [R.u32, R.take]

@[simp] theorem local_u64 : Local R.u64 := by simp [R.u64, R.take]

@[simp] theorem local_bool : Local R.bool := by simp [R.bool]

@[simp] theorem local_bytes : Local R.bytes := by simp [R.bytes, R.take]

@[simp] theorem local_str : Local R.str := by simp [R.str]

@[simp] theorem local_addr : Local (R.addr : R A) := by simp [R.addr]

@[simp] theorem local_optStr : Local R.optStr := by
  refine local_bind local_u8 fun v => ?_
  simp

@[simp] theorem local_list {α : Type} {get : R α} (h : Local get) : Local (R.list get) := by
  simp [R.list, h]

@[simp] theorem local_identity : Local getIdentity := by
  unfold getIdentity
  repeat' with_reducible refine local_bind ?_ fun _ => ?_
  all_goals simp

@[simp] theorem local_identities : Local getIdentities := by simp [getIdentities]

@[simp] theorem local_info : Local getInfo := by
  unfold getInfo
  repeat' with_reducible refine local_bind ?_ fun _ => ?_
  all_goals simp

@[simp] theorem local_status : Local getStatus := by
  unfold getStatus
  repeat' with_reducible refine local_bind ?_ fun _ => ?_
  all_goals simp

@[simp] theorem local_options : Local getOptions := by
  unfold getOptions
  repeat' with_reducible refine local_bind ?_ fun _ => ?_
  all_goals simp

@[simp] theorem local_topicOptions : Local getTopicOptions := by
  unfold getTopicOptions
  repeat' with_reducible refine local_bind ?_ fun _ => ?_
  all_goals simp

@[simp] theorem local_tagged {α : Type} {get : UInt8 → R α} (h : ∀ tag, Local (get tag)) :
    Local (tagged get) := by
  simp [tagged, h]

theorem local_control (tag : UInt8) : Local (getControl tag : R (ControlMsg A)) := by
  unfold getControl
  repeat' with_reducible first
    | apply local_ite
    | refine local_bind ?_ fun _ => ?_
  all_goals simp

theorem local_stream (tag : UInt8) : Local (getStream tag) := by
  unfold getStream
  repeat' with_reducible first
    | apply local_ite
    | refine local_bind ?_ fun _ => ?_
  all_goals simp

theorem local_change (msgType : UInt16) : Local (getChange msgType) := by
  unfold getChange
  repeat' with_reducible first
    | apply local_ite
    | refine local_bind ?_ fun _ => ?_
  all_goals simp

theorem local_clientRequest (tag : UInt8) : Local (getClientRequest tag) := by
  unfold getClientRequest
  repeat' with_reducible first
    | apply local_ite
    | refine local_bind ?_ fun _ => ?_
  all_goals simp

theorem local_clientReply (tag : UInt8) : Local (getClientReply tag) := by
  unfold getClientReply
  repeat' with_reducible first
    | apply local_ite
    | refine local_bind ?_ fun _ => ?_
  all_goals simp

/-- What the decoder accepts is no proper beginning of anything else it accepts. -/
def PrefixFree {α : Type} (decode : List UInt8 → Except String α) : Prop :=
  ∀ a b m, decode a = .ok m → a <+: b → a ≠ b → ∃ e, decode b = .error e

theorem prefixFree_finish {α : Type} {p : R α} (h : Local p) : PrefixFree (R.finish p) :=
  fun _ _ _ ha hpre hne => ⟨_, h.accept_extension ha hpre hne⟩

/-- **Prefix-freeness**: a frame cut short and a frame with bytes after it are
refused by every decoder. -/
theorem decoders_prefixFree :
    PrefixFree (decodeControl : List UInt8 → Except String (ControlMsg A)) ∧
    PrefixFree decodeStream ∧
    PrefixFree decodeClientRequest ∧
    PrefixFree decodeClientReply ∧
    ∀ msgType, PrefixFree (decodeChange msgType) :=
  ⟨prefixFree_finish (local_tagged local_control), prefixFree_finish (local_tagged local_stream),
    prefixFree_finish (local_tagged local_clientRequest),
    prefixFree_finish (local_tagged local_clientReply),
    fun msgType => prefixFree_finish (local_change msgType)⟩

/-- A departure with a byte too many. -/
theorem long_leaving_refused :
    decodeControl [7, 1, 0, 0, 0, 0, 0, 0, 0] = .ok (.leaving 1 : ControlMsg Loopback) ∧
      ∃ e, (decodeControl [7, 1, 0, 0, 0, 0, 0, 0, 0, 0] : Except String (ControlMsg Loopback)) =
        .error e := by
  have haccept : decodeControl [7, 1, 0, 0, 0, 0, 0, 0, 0] =
      .ok (.leaving 1 : ControlMsg Loopback) := rfl
  exact ⟨haccept, decoders_prefixFree.1 _ _ _ haccept ⟨[0], rfl⟩ (by decide)⟩

end XchannelNet.Wire
