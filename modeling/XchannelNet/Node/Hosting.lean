import XchannelNet.Node.Attach
import XchannelNet.Wire.Message

/-!
# Hosting — the channels and topics of one node

What a node keeps about the channels it serves, in four places that no
operation updates together: the registry, the directories on disk, the hosted
map that streams are served from, and the map of muxes. Creating, claiming,
deregistering, retiring a topic and rebuilding after a restart each touch some
of them. The directories survive a restart; the other three do not.

A mux is known by its number. It is in use while the map has it, and while
anybody holds on to it: the call that has opened it and not yet put it into the
map, the call that has taken it out and not yet finished it, whoever has got a
handle from the map to use after letting go of its lock, and the thread of a
promoted topic, which looks at the map before every poll and leaves when its mux
is no longer there.
-/

namespace XchannelNet

open Mux Wire

/-- The longest channel name the header of a log has room for. -/
def CHANNEL_NAME_MAX : ℕ := 48

/-- How many records a mux takes from a member before it turns to the next. -/
def MAX_BATCH_PER_MEMBER : ℕ := 256

/-- What may stand in a channel name: `[A-Za-z0-9._-]`. -/
def isNameByte (b : UInt8) : Bool :=
  (48 ≤ b && b ≤ 57) || (65 ≤ b && b ≤ 90) || (97 ≤ b && b ≤ 122) || b = 46 || b = 95 || b = 45

/-- A name that can be a path component: not empty, not too long, no leading
dot, nothing but name bytes. -/
def validateChannelName (name : ChannelName) : Bool :=
  let bytes := nameBytes name
  (1 ≤ bytes.length && bytes.length ≤ CHANNEL_NAME_MAX) && bytes.head? != some 46 &&
    bytes.all isNameByte

/-- One node. `disk` are the logs at the channels' own paths, `retired` the
muxes that have been finished, `reads` how often the clock was read. The muxes
in `opening` and `retiring` are those of running calls of `create_topic` and
`deregister_topic`, those in `handles` have been got from the map. -/
structure Node where
  registry : Registry
  disk : ChannelName → Option Log
  hosted : ChannelName → Bool
  muxes : ChannelName → Option ℕ
  threads : List (ℕ × ChannelName)
  retired : List ℕ
  nextMux : ℕ
  reads : ℕ
  opening : List (ℕ × ChannelName)
  retiring : List (ℕ × ChannelName)
  handles : List (ℕ × ChannelName)

namespace Node

/-- A node's fixed data: its id, the topics it gives a thread of their own, the
readings of its clock, and the mtu in the header of each name's log. -/
structure Config where
  nodeId : NodeId
  promotedTopics : ChannelName → Bool
  nowNanos : ℕ → UInt64
  headerMtu : ChannelName → UInt32

/-- The whole of a channel's configuration, as its mux writes it to the topic. -/
def topicGeometry (options : ChannelOptions) : TopicGeometry :=
  ⟨options.regionSize, options.mtu, options.fileRollSize, options.keepFiles⟩

/-- What happens next, with what is not up to the node: whether a directory
could be removed, whether a mux could be finished, what writers do to their
logs and in which order a scan finds the directories. Other calls may come
between the steps of `create_topic` and of `deregister_topic`. -/
inductive Command where
  | create (name : ChannelName) (options : ChannelOptions)
  | publishToTopic (topic member : ChannelName) (options : ChannelOptions)
  | createTopic (name : ChannelName) (options : TopicOptions)
  | insertMux (mux : ℕ) (name : ChannelName)
  | deregister (name : ChannelName) (removed : Bool)
  | deregisterTopic (topic : ChannelName)
  | finishMux (mux : ℕ) (topic : ChannelName) (finishes : Bool)
  | dropTopic (mux : ℕ) (topic : ChannelName) (removed : Bool)
  | muxOf (topic : ChannelName)
  | dropHandle (mux : ℕ) (topic : ChannelName)
  | merge (id : ChannelIdentity)
  | write (name : ChannelName) (growth : TopicHost.Growth)
  | threadExit (mux : ℕ) (topic : ChannelName)
  | restart (names : List ChannelName)

variable (c : Config)

/-- `claim_name`. -/
def claim (n : Node) (q : ClaimRequest) : Node × Except NodeError ChannelIdentity :=
  let (registry, result) := n.registry.claimName c.nodeId (c.nowNanos n.reads) q
  ({ n with registry, reads := n.reads + 1 }, result)

def announceHosted (n : Node) (name : ChannelName) : Node :=
  { n with hosted := Function.update n.hosted name true }

/-- The writer configuration of a new origin. -/
def originConfig (identity : ChannelIdentity) (options : ChannelOptions) : WriterConfig where
  name := identity.name
  regionSize := options.regionSize
  mtu := options.mtu
  fileRollSize := options.fileRollSize
  keepFiles := options.keepFiles
  baseRecordIndex := 0
  generation := identity.epoch

/-- `create_origin`, and `host_channel` but for the writer it keeps. Claim the
name first, then create the log or open the one that is there. -/
def createOrigin (n : Node) (name : ChannelName) (options : ChannelOptions)
    (memberOf : Option ChannelName) : Node × Bool :=
  if validateChannelName name then
    match n.claim c ⟨name, options.regionSize, options.mtu, memberOf⟩ with
    | (n, .error _) => (n, false)
    | (n, .ok identity) =>
      match Log.build (originConfig identity options) (n.disk name) with
      | .error _ => (n, false)
      | .ok log =>
        ({ n with disk := Function.update n.disk name (some log) }.announceHosted name, true)
  else (n, false)

/-- The mux goes into the map, in place of any that is there, and a promoted
topic's thread starts. -/
def insertMux (n : Node) (mux : ℕ) (name : ChannelName) : Node :=
  { n with
    muxes := Function.update n.muxes name (some mux)
    threads := if c.promotedTopics name then (mux, name) :: n.threads else n.threads }

/-- `Mux::open` at a topic's path, by `rehost_topic`, which nobody comes between. -/
def openMux (n : Node) (name : ChannelName) (geometry : TopicGeometry) (batch : ℕ) : Node × Bool :=
  match (Mux.open (n.disk name) name geometry batch : Except MuxError (Mux Unit)) with
  | .error _ => (n, false)
  | .ok _ => ({ n.insertMux c n.nextMux name with nextMux := n.nextMux + 1 }, true)

/-- How many records a topic's mux takes at a time; zero leaves it to the daemon. -/
def batchOf (options : TopicOptions) : ℕ :=
  if options.maxBatchPerMember = 0 then MAX_BATCH_PER_MEMBER else options.maxBatchPerMember.toNat

/-- `create_topic` up to the opening of the mux, also for a name that is a topic
already. The call holds the mux until it is in the map. -/
def createTopic (n : Node) (name : ChannelName) (options : TopicOptions) : Node :=
  match n.createOrigin c name options.channel none with
  | (n, false) => n
  | (n, true) =>
    match (Mux.open (n.disk name) name (topicGeometry options.channel) (batchOf options) :
        Except MuxError (Mux Unit)) with
    | .error _ => n
    | .ok _ => { n with opening := (n.nextMux, name) :: n.opening, nextMux := n.nextMux + 1 }

def removeDir (n : Node) (name : ChannelName) (removed : Bool) : Node :=
  if removed then { n with disk := Function.update n.disk name none } else n

/-- `deregister`. That the directory could not be removed goes unnoticed. -/
def deregister (n : Node) (name : ChannelName) (removed : Bool) : Node :=
  match n.registry.deregister name c.nodeId with
  | (_, none) => n
  | (registry, some _) =>
    { n with registry, hosted := Function.update n.hosted name false }.removeDir name removed

/-- `deregister_topic`, first step: the mux leaves the map. -/
def deregisterTopic (n : Node) (topic : ChannelName) : Node :=
  match n.muxes topic with
  | none => n
  | some mux =>
    { n with
      muxes := Function.update n.muxes topic none
      retiring := (mux, topic) :: n.retiring }

/-- Second step: it is finished. If it cannot be, nothing else happens. -/
def finishMux (n : Node) (mux : ℕ) (topic : ChannelName) (finishes : Bool) : Node :=
  if finishes then { n with retired := mux :: n.retired }
  else { n with retiring := n.retiring.filter fun t => t ≠ (mux, topic) }

/-- Last step: the name is given up, and its directory. -/
def dropTopic (n : Node) (mux : ℕ) (topic : ChannelName) (removed : Bool) : Node :=
  let n := { n with retiring := n.retiring.filter fun t => t ≠ (mux, topic) }
  match n.registry.deregister topic c.nodeId with
  | (_, none) => n.removeDir topic removed
  | (registry, some _) =>
    { n with registry, hosted := Function.update n.hosted topic false }.removeDir topic removed

/-! ## Reconstruction -/

/-- The log at a name's path, if its header has that name. -/
def verifyStampedName (n : Node) (name : ChannelName) : Option Log :=
  (n.disk name).filter fun l => l.name = name

/-- Claim a name again for the log at its path, and serve it from there. -/
def reclaim (n : Node) (q : ClaimRequest) : Node × Bool :=
  match n.claim c q with
  | (n, .error _) => (n, false)
  | (n, .ok _) => (n.announceHosted q.name, true)

/-- A plain origin found on disk. What it was a member of is not there. -/
def reregisterOrigin (n : Node) (name : ChannelName) : Node :=
  if n.hosted name then n
  else
    match n.verifyStampedName name with
    | none => n
    | some l => (n.reclaim c ⟨name, l.regionSize, c.headerMtu name, none⟩).1

/-- A member in a topic's last slot table: one with an origin here is
registered again, as a member. -/
def rehostMember (topic : ChannelName) (n : Node) (member : Incarnation) : Node :=
  if validateChannelName member.1 then
    match n.verifyStampedName member.1 with
    | none => n
    | some l => (n.reclaim c ⟨member.1, l.regionSize, c.headerMtu member.1, some topic⟩).1
  else n

/-- `rehost_topic`, except that what the mux attaches is not part of it. -/
def rehostTopic (n : Node) (topic : ChannelName × TopicConfig) : Node :=
  let (name, cfg) := topic
  if (n.muxes name).isSome then n
  else
    match n.verifyStampedName name with
    | none => n
    | some _ =>
      match n.reclaim c ⟨name, cfg.geometry.regionSize, cfg.geometry.mtu, none⟩ with
      | (n, false) => n
      | (n, true) =>
        match n.openMux c name cfg.geometry MAX_BATCH_PER_MEMBER with
        | (n, false) => n
        | (n, true) => cfg.members.foldl (rehostMember c name) n

/-- A directory of the scan: a topic with its last slot table, or an origin. -/
def scanTopic (n : Node) (name : ChannelName) : Option (ChannelName × TopicConfig) :=
  (n.disk name).bind fun l => (topicConfig (l.contents.map Prod.fst)).map fun cfg => (name, cfg)

def isPlainOrigin (n : Node) (name : ChannelName) : Bool :=
  (n.disk name).any fun l => (topicConfig (l.contents.map Prod.fst)).isNone

/-- `reconstruct_from_disk`: the topics first, so that their members come back
as members, then what is left. -/
def reconstructFromDisk (n : Node) (found : List ChannelName) : Node :=
  let names := found.filter validateChannelName
  let topics := names.filterMap n.scanTopic
  let origins := names.filter n.isPlainOrigin
  origins.foldl (reregisterOrigin c) (topics.foldl (rehostTopic c) n)

/-- A new process on the same disk. -/
def boot (n : Node) : Node :=
  { n with
    registry := .new, hosted := fun _ => false, muxes := fun _ => none, threads := []
    retired := [], opening := [], retiring := [], handles := [] }

/-- What a command does. -/
def perform (n : Node) : Command → Node
  | .create name options => (n.createOrigin c name options none).1
  | .publishToTopic topic member options => (n.createOrigin c member options (some topic)).1
  | .createTopic name options => n.createTopic c name options
  | .insertMux mux name =>
    if (mux, name) ∈ n.opening then
      { n.insertMux c mux name with opening := n.opening.filter fun t => t ≠ (mux, name) }
    else n
  | .deregister name removed => n.deregister c name removed
  | .deregisterTopic topic => n.deregisterTopic topic
  | .finishMux mux topic finishes =>
    if (mux, topic) ∈ n.retiring then n.finishMux mux topic finishes else n
  | .dropTopic mux topic removed =>
    if (mux, topic) ∈ n.retiring ∧ mux ∈ n.retired then n.dropTopic c mux topic removed else n
  | .muxOf topic =>
    match n.muxes topic with
    | none => n
    | some mux => { n with handles := (mux, topic) :: n.handles }
  | .dropHandle mux topic =>
    { n with handles := n.handles.filter fun t => t ≠ (mux, topic) }
  | .merge id => { n with registry := (n.registry.mergeTracked id).1 }
  | .write name growth =>
    { n with disk := Function.update n.disk name ((n.disk name).map growth.apply) }
  | .threadExit mux topic =>
    if n.muxes topic = some mux then n
    else { n with threads := n.threads.filter fun t => t ≠ (mux, topic) }
  | .restart found => n.boot.reconstructFromDisk c found

/-- A process that has just started, on whatever disk. -/
def Init (n : Node) : Prop := n.boot = n

/-- A node on an empty disk. -/
def fresh : Node :=
  ⟨.new, fun _ => none, fun _ => false, fun _ => none, [], [], 0, 0, [], [], []⟩

theorem init_fresh : Init fresh := rfl

/-- One step of a node whose commands are subject to a condition. -/
def Step (allowed : Node → Command → Prop) (n n' : Node) : Prop :=
  ∃ cmd, allowed n cmd ∧ n' = n.perform c cmd

/-- Node 1, with a clock that goes up by one at every reading. -/
def plainConfig (promotedTopics : ChannelName → Bool) : Config where
  nodeId := 1
  promotedTopics
  nowNanos := .ofNat
  headerMtu _ := 64

def plainOptions : ChannelOptions := ⟨4096, 64, 0, 0⟩

def plainTopic : TopicOptions := ⟨plainOptions, 0, 0⟩

/-! ## What the operations leave alone -/

section Frames

variable {c} {n : Node}

@[simp] theorem claim_disk (q : ClaimRequest) : (n.claim c q).1.disk = n.disk := rfl

@[simp] theorem claim_hosted (q : ClaimRequest) : (n.claim c q).1.hosted = n.hosted := rfl

@[simp] theorem claim_muxes (q : ClaimRequest) : (n.claim c q).1.muxes = n.muxes := rfl

@[simp] theorem claim_registry (q : ClaimRequest) :
    (n.claim c q).1.registry =
      (n.registry.claimName c.nodeId (c.nowNanos n.reads) q).1 := rfl

/-- A claim reclaims its name or is rejected; the rest of the node is as it
was. -/
theorem reclaim_cases (n : Node) (q : ClaimRequest) :
    (∃ e, (n.claim c q).2 = .error e ∧ n.reclaim c q = ((n.claim c q).1, false)) ∨
    (∃ id, (n.claim c q).2 = .ok id ∧
      n.reclaim c q = ((n.claim c q).1.announceHosted q.name, true)) := by
  rw [reclaim]
  cases h : n.claim c q with
  | mk n' result =>
      cases result with
      | error e => exact .inl ⟨e, rfl, rfl⟩
      | ok id => exact .inr ⟨id, rfl, rfl⟩

theorem reclaim_muxes (n : Node) (q : ClaimRequest) : (n.reclaim c q).1.muxes = n.muxes := by
  rcases reclaim_cases (c := c) n q with ⟨e, -, h⟩ | ⟨id, -, h⟩ <;> rw [h] <;> rfl

theorem holds_of_reclaim {q : ClaimRequest} (h : (n.reclaim c q).2 = true) :
    ∃ e, (n.reclaim c q).1.registry.Holds c.nodeId q.name e := by
  rcases reclaim_cases (c := c) n q with ⟨e, -, hr⟩ | ⟨id, hid, hr⟩
  · rw [hr] at h
    cases h
  · rw [hr]
    exact ⟨_, Registry.holds_claimName_of_ok hid⟩

/-- How creating a channel can end: the name is invalid, the claim is rejected,
the log on disk is refused, or the log is there and served. -/
theorem createOrigin_cases (n : Node) (name : ChannelName) (options : ChannelOptions)
    (memberOf : Option ChannelName) :
    let q : ClaimRequest := ⟨name, options.regionSize, options.mtu, memberOf⟩
    n.createOrigin c name options memberOf = (n, false) ∨
    (∃ e, (n.claim c q).2 = .error e ∧
      n.createOrigin c name options memberOf = ((n.claim c q).1, false)) ∨
    (∃ l, n.disk name = some l ∧
      n.createOrigin c name options memberOf = ((n.claim c q).1, false)) ∨
    (∃ id log, (n.claim c q).2 = .ok id ∧
      Log.build (originConfig id options) (n.disk name) = .ok log ∧
      n.createOrigin c name options memberOf =
        ({ (n.claim c q).1 with
            disk := Function.update n.disk name (some log) }.announceHosted name, true)) := by
  intro q
  rw [createOrigin]
  split
  · have hdisk : (n.claim c q).1.disk = n.disk := rfl
    cases h : n.claim c q with
    | mk n' result =>
        rw [h] at hdisk
        change n'.disk = n.disk at hdisk
        cases result with
        | error e => exact .inr (.inl ⟨e, rfl, rfl⟩)
        | ok id =>
            simp only [hdisk]
            cases hb : Log.build (originConfig id options) (n.disk name) with
            | error e =>
                cases hl : n.disk name with
                | none =>
                    rw [hl, Log.build_none] at hb
                    cases hb
                | some l => exact .inr (.inr (.inl ⟨l, rfl, rfl⟩))
            | ok log => exact .inr (.inr (.inr ⟨id, log, rfl, hb, rfl⟩))
  · exact .inl rfl

theorem createTopic_cases (n : Node) (name : ChannelName) (options : TopicOptions) :
    n.createTopic c name options = (n.createOrigin c name options.channel none).1 ∨
    (n.createOrigin c name options.channel none).2 = true ∧
      n.createTopic c name options =
        let n := (n.createOrigin c name options.channel none).1
        { n with opening := (n.nextMux, name) :: n.opening, nextMux := n.nextMux + 1 } := by
  rw [createTopic]
  cases h : n.createOrigin c name options.channel none with
  | mk n' created =>
      cases created with
      | false => exact .inl rfl
      | true =>
          simp only
          split
          · exact .inl rfl
          · exact .inr ⟨trivial, rfl⟩

theorem openMux_cases (n : Node) (name : ChannelName) (geometry : TopicGeometry) (batch : ℕ) :
    n.openMux c name geometry batch = (n, false) ∨
    n.openMux c name geometry batch =
      ({ n with
          muxes := Function.update n.muxes name (some n.nextMux)
          threads := if c.promotedTopics name then (n.nextMux, name) :: n.threads else n.threads
          nextMux := n.nextMux + 1 }, true) := by
  rw [openMux]
  split
  · exact .inl rfl
  · exact .inr rfl

theorem deregister_cases (n : Node) (name : ChannelName) (removed : Bool) :
    n.deregister c name removed = n ∨
    ∃ t, (n.registry.deregister name c.nodeId).2 = some t ∧
      n.deregister c name removed =
        { n with
          registry := (n.registry.deregister name c.nodeId).1
          hosted := Function.update n.hosted name false }.removeDir name removed := by
  rw [deregister]
  cases h : n.registry.deregister name c.nodeId with
  | mk registry tombstone =>
      cases tombstone with
      | none => exact .inl rfl
      | some t => exact .inr ⟨t, rfl, rfl⟩

/-- Giving up the name of a retired topic: it is no longer held, or it is deregistered. -/
theorem dropTopic_cases (n : Node) (mux : ℕ) (topic : ChannelName) (removed : Bool) :
    ((n.registry.deregister topic c.nodeId).2 = none ∧
      n.dropTopic c mux topic removed =
        { n with retiring := n.retiring.filter fun t => t ≠ (mux, topic) }.removeDir topic
          removed) ∨
    ∃ t, (n.registry.deregister topic c.nodeId).2 = some t ∧
      n.dropTopic c mux topic removed =
        { n with
          retiring := n.retiring.filter fun t => t ≠ (mux, topic)
          registry := (n.registry.deregister topic c.nodeId).1
          hosted := Function.update n.hosted topic false }.removeDir topic removed := by
  rw [dropTopic]
  cases h : n.registry.deregister topic c.nodeId with
  | mk registry tombstone =>
      cases tombstone with
      | none => exact .inl ⟨rfl, rfl⟩
      | some t => exact .inr ⟨t, rfl, rfl⟩

@[simp] theorem removeDir_registry (name : ChannelName) (removed : Bool) :
    (n.removeDir name removed).registry = n.registry := by
  cases removed <;> rfl

@[simp] theorem removeDir_hosted (name : ChannelName) (removed : Bool) :
    (n.removeDir name removed).hosted = n.hosted := by
  cases removed <;> rfl

@[simp] theorem removeDir_muxes (name : ChannelName) (removed : Bool) :
    (n.removeDir name removed).muxes = n.muxes := by
  cases removed <;> rfl

@[simp] theorem removeDir_threads (name : ChannelName) (removed : Bool) :
    (n.removeDir name removed).threads = n.threads := by
  cases removed <;> rfl

@[simp] theorem removeDir_opening (name : ChannelName) (removed : Bool) :
    (n.removeDir name removed).opening = n.opening := by
  cases removed <;> rfl

@[simp] theorem removeDir_retiring (name : ChannelName) (removed : Bool) :
    (n.removeDir name removed).retiring = n.retiring := by
  cases removed <;> rfl

@[simp] theorem removeDir_handles (name : ChannelName) (removed : Bool) :
    (n.removeDir name removed).handles = n.handles := by
  cases removed <;> rfl

@[simp] theorem removeDir_retired (name : ChannelName) (removed : Bool) :
    (n.removeDir name removed).retired = n.retired := by
  cases removed <;> rfl

theorem removeDir_disk_of_ne {name other : ChannelName} (removed : Bool) (h : other ≠ name) :
    (n.removeDir name removed).disk other = n.disk other := by
  cases removed with
  | false => rfl
  | true => exact Function.update_of_ne h _ _

/-! ### What reconstruction is made of -/

section Reconstruction

variable {I : Node → Prop}
  (hreclaim : ∀ n q l, I n → n.verifyStampedName q.name = some l → I (n.reclaim c q).1)

include hreclaim

theorem rehostMember_induction (topic : ChannelName) (m : Incarnation) (h : I n) :
    I (rehostMember c topic n m) := by
  simp only [rehostMember]
  split
  · split
    · exact h
    · exact hreclaim _ _ _ h ‹_›
  · exact h

theorem reregisterOrigin_induction (name : ChannelName) (h : I n) :
    I (reregisterOrigin c n name) := by
  simp only [reregisterOrigin]
  split
  · exact h
  · split
    · exact h
    · exact hreclaim _ _ _ h ‹_›

variable (hopen : ∀ n name geometry batch, I n → n.muxes name = none →
  (∃ e, n.registry.Holds c.nodeId name e) → I (n.openMux c name geometry batch).1)

include hopen

theorem rehostTopic_induction (topic : ChannelName × TopicConfig) (h : I n) :
    I (rehostTopic c n topic) := by
  obtain ⟨name, cfg⟩ := topic
  simp only [rehostTopic]
  split
  · exact h
  rename_i hnone
  have hnone' : n.muxes name = none := by simpa using hnone
  split
  · exact h
  rename_i l hl
  set q : ClaimRequest := ⟨name, cfg.geometry.regionSize, cfg.geometry.mtu, none⟩ with hq
  have hr := hreclaim n q l h hl
  have hmuxes := reclaim_muxes (c := c) n q
  have hheld := holds_of_reclaim (c := c) (n := n) (q := q)
  split
  · rename_i hf
    rw [hf] at hr
    exact hr
  · rename_i n₁ ht
    rw [ht] at hr hmuxes hheld
    have ho := hopen n₁ name cfg.geometry MAX_BATCH_PER_MEMBER hr
      ((congrFun hmuxes name).trans hnone') (hheld rfl)
    split
    · rename_i hf
      rw [hf] at ho
      exact ho
    · rename_i n₂ ht₂
      rw [ht₂] at ho
      exact List.foldlRecOn cfg.members (rehostMember c name) ho
        fun n hn m _ => rehostMember_induction hreclaim name m hn

/-- **Reconstruction rule**: reconstruction is a sequence of reclaims for logs
on disk that have the name claimed, and of muxes opened for names that have
none and have just been reclaimed. -/
theorem reconstructFromDisk_induction (h : I n) (found : List ChannelName) :
    I (n.reconstructFromDisk c found) :=
  List.foldlRecOn _ _
    (List.foldlRecOn _ _ h fun _ hn topic _ => rehostTopic_induction hreclaim hopen topic hn)
    fun _ hn name _ => reregisterOrigin_induction hreclaim name hn

end Reconstruction

end Frames

end Node

end XchannelNet
