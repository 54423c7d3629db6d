import XchannelNet.Mux.Attaching
import XchannelNet.Node.Discovery
import XchannelNet.Node.Hosting

/-!
# Operations — the naming operations, and what they leave when they fail

Five operations give names to channels and topics or take them away:
`host_channel`, `create_for_client`, `create_topic`, `publish_to_topic` and
`deregister_topic`. Each goes through a sequence of steps on structures of the
node that are locked one at a time, and stops at the first step that fails.
None takes anything back.

The name check and the claim come first, and fail without having changed
anything. A claim on a name that is the node's own already is granted and
changes nothing either, so a failure right after it leaves no trace. Any other
claim that is granted is in the registry and in discovery before the first
file is touched, and stays there; and a topic whose retirement fails has lost
its mux. `Harmless` says exactly when a failure changes nothing, in terms of
the arguments, the state before and what the system lets through.
-/

namespace XchannelNet

open Mux Wire Fallible

namespace Operations

/-! ## State -/

/-- A channel's own path, or its replica's. -/
inductive LogPath where
  | origin (name : ChannelName)
  | replica (name : ChannelName)
  deriving DecidableEq, Repr

/-- What a hosted channel is served with. -/
structure ChannelSource where
  regionSize : UInt32
  mtu : UInt32
  fileRollSize : UInt64
  keepFiles : UInt32
  deriving DecidableEq, Repr

/-- The structures the operations share. -/
structure Shared where
  registry : Registry
  hosted : ChannelName → Option ChannelSource
  muxes : ChannelName → Option (Mux LogPath)
  discovery : List ChannelChange
  topicReap : ChannelName → Option UInt64
  subscriptions : ChannelName → Bool
  disk : LogPath → Option Log

/-- What is not up to the node: its clock, and which calls into the system go
through. `opens` is about the topic's files, `refuses` about what xchannel may
have against the geometry asked for, `outcomes` are of the topic's writes. -/
structure Oracle where
  now : UInt64
  publishes : Bool
  makesDir : Bool
  refuses : Bool
  opens : Bool
  outcomes : List WriteOutcome
  removesDir : Bool

inductive OpError where
  | invalidName
  | rejected (e : NodeError)
  | directory
  | refused
  | writer (e : WriterError)
  | opening
  | mux (e : MuxError)
  deriving DecidableEq

abbrev OpM := Fallible OpError Shared

/-- The logs as a mux reads them. -/
def Shared.files (s : Shared) (p : LogPath) : Log := (s.disk p).getD (.ofRecords "" 0 [])

/-! ## Steps -/

variable (self : NodeId) (o : Oracle)

def channelPath (name : ChannelName) : OpM Unit :=
  if validateChannelName name then return () else throw .invalidName

/-- Discovery is best effort: a record that cannot be written is not there. -/
def publishChange (change : ChannelChange) : OpM Unit :=
  modify fun s => if o.publishes then { s with discovery := s.discovery ++ [change] } else s

/-- What a merge changed is published. -/
def publishMerged (merged : Merged) : OpM Unit :=
  if merged.changed then
    publishChange o (changeOf merged.winner (merged.winner.owner = self))
  else return ()

/-- The caller's part of a claim's result. -/
def verdict : Except NodeError ChannelIdentity → OpM ChannelIdentity
  | .error e => throw (.rejected e)
  | .ok identity => return identity

def claimName (q : ClaimRequest) : OpM ChannelIdentity := do
  let s ← get
  set { s with registry := (s.registry.claimName self o.now q).1 }
  publishMerged self o (s.registry.mergeTracked (s.registry.claimIdentity self o.now q)).2
  verdict (s.registry.claimName self o.now q).2

def ensurePrivateDir : OpM Unit := if o.makesDir then return () else throw .directory

/-- Create the log at the channel's path, or open the one that is there. -/
def buildLog (name : ChannelName) (cfg : WriterConfig) : OpM Unit := do
  let s ← get
  if o.refuses then throw .refused
  else
    match Log.build cfg (s.disk (.origin name)) with
    | .error e => throw (.writer e)
    | .ok log => set { s with disk := Function.update s.disk (.origin name) (some log) }

/-- To announce never fails: a peer that cannot be written to is dropped. -/
def announceHosted (identity : ChannelIdentity) (fileRollSize : UInt64) (keepFiles : UInt32) :
    OpM Unit :=
  modify fun s =>
    let source := ⟨identity.regionSize, identity.mtu, fileRollSize, keepFiles⟩
    { s with hosted := Function.update s.hosted identity.name (some source) }

/-- That a directory could not be removed goes unnoticed. -/
def removeDir (name : ChannelName) : OpM Unit :=
  modify fun s =>
    if o.removesDir then { s with disk := Function.update s.disk (.origin name) none } else s

def raise : Except MuxError Unit → OpM Unit
  | .error e => throw (.mux e)
  | .ok _ => return ()

/-! ## Operations -/

/-- `host_channel`. What the caller configures beyond the geometry goes into the
log and not into the hosted map. -/
def hostChannel (name : ChannelName) (regionSize mtu : UInt32) (fileRollSize : UInt64)
    (keepFiles : UInt32) : OpM Unit := do
  channelPath name
  let identity ← claimName self o ⟨name, regionSize, mtu, none⟩
  ensurePrivateDir o
  buildLog o name (Node.originConfig identity ⟨regionSize, mtu, fileRollSize, keepFiles⟩)
  announceHosted identity 0 0

def createOrigin (name : ChannelName) (options : ChannelOptions)
    (memberOf : Option ChannelName) : OpM Unit := do
  channelPath name
  let identity ← claimName self o ⟨name, options.regionSize, options.mtu, memberOf⟩
  ensurePrivateDir o
  buildLog o name (Node.originConfig identity options)
  announceHosted identity options.fileRollSize options.keepFiles

def createForClient (name : ChannelName) (options : ChannelOptions) : OpM Unit :=
  createOrigin self o name options none

/-- The rest of `create_topic`, once its channel is created. -/
def openTopic (name : ChannelName) (options : TopicOptions) : OpM Unit := do
  let s ← get
  if o.opens then
    match Mux.open (s.disk (.origin name)) name (Node.topicGeometry options.channel)
        (Node.batchOf options) with
    | .error e => throw (OpError.mux e)
    | .ok mux =>
      set { s with
        muxes := Function.update s.muxes name (some mux)
        topicReap :=
          if options.memberReapAfterMs = 0 then s.topicReap
          else Function.update s.topicReap name (some options.memberReapAfterMs) }
  else throw .opening

def createTopic (name : ChannelName) (options : TopicOptions) : OpM Unit := do
  createForClient self o name options.channel
  openTopic o name options

/-- The rest of `publish_to_topic`, once the member is created: where the topic is here,
the member is attached. -/
def attachHere (topic member : ChannelName) : OpM Unit := do
  let s ← get
  match s.muxes topic with
  | none => return ()
  | some mux => do
    let epoch := ((s.registry.getRaw member).map ChannelIdentity.epoch).getD 0
    let path := (s.disk (.origin member)).map fun _ => LogPath.origin member
    let r := exec (addMember s.files member epoch path) (mux.within o.outcomes)
    -- the mux is changed in place, whatever it returned
    set { s with
      muxes := Function.update s.muxes topic (some r.2)
      disk := Function.update s.disk (.origin topic) (some r.2.topic.log) }
    raise r.1

def publishToTopic (topic member : ChannelName) (options : ChannelOptions) : OpM Unit := do
  createOrigin self o member options (some topic)
  attachHere o topic member

/-- The topic's reap threshold and the replicas of its members go. -/
def stopMembers (topic : ChannelName) : OpM Unit :=
  modify fun s =>
    let members := s.registry.iter.filter fun id => id.memberOf == some topic
    { s with
      topicReap := Function.update s.topicReap topic none
      subscriptions := fun name =>
        s.subscriptions name && !(members.any fun id => id.name = name) }

/-- Tombstone a name of this node's, and stop hosting it. -/
def dropRegistration (name : ChannelName) : OpM Unit := do
  let s ← get
  match s.registry.deregister name self with
  | (_, none) => return ()
  | (registry, some tombstone) => do
    set { s with registry, hosted := Function.update s.hosted name none }
    publishChange o (changeOf tombstone false)

/-- `deregister_topic`. The mux is out of the map before it is finished. -/
def deregisterTopic (topic : ChannelName) : OpM Unit := do
  let s ← get
  match s.muxes topic with
  | none => return ()
  | some mux => do
    let r := exec (finish s.files) (mux.within o.outcomes)
    set { s with
      muxes := Function.update s.muxes topic none
      disk := Function.update s.disk (.origin topic) (some r.2.topic.log) }
    raise r.1
    stopMembers topic
    dropRegistration self o topic
    removeDir o topic

/-- The operations, with their arguments. -/
inductive Operation where
  | hostChannel (name : ChannelName) (regionSize mtu : UInt32) (fileRollSize : UInt64)
      (keepFiles : UInt32)
  | createForClient (name : ChannelName) (options : ChannelOptions)
  | createTopic (name : ChannelName) (options : TopicOptions)
  | publishToTopic (topic member : ChannelName) (options : ChannelOptions)
  | deregisterTopic (topic : ChannelName)

def Operation.run : Operation → OpM Unit
  | .hostChannel name regionSize mtu fileRollSize keepFiles =>
    Operations.hostChannel self o name regionSize mtu fileRollSize keepFiles
  | .createForClient name options => Operations.createForClient self o name options
  | .createTopic name options => Operations.createTopic self o name options
  | .publishToTopic topic member options => Operations.publishToTopic self o topic member options
  | .deregisterTopic topic => Operations.deregisterTopic self o topic

/-! ## The steps before the last -/

section Conditions

variable (s : Shared)

/-- The claim will go into the registry. -/
def Enters (q : ClaimRequest) : Prop :=
  s.registry.keyAt q.name < ((s.registry.claimIdentity self o.now q).key : WithBot OrderingKey)

/-- The name is this node's already. -/
def Mine (name : ChannelName) : Prop := ∃ epoch, s.registry.Holds self name epoch

/-- The directory can be made and the channel's log created or opened; this is the log. -/
def Makes (q : ClaimRequest) (options : ChannelOptions) (log : Log) : Prop :=
  o.makesDir = true ∧ o.refuses = false ∧
    Log.build (Node.originConfig (s.registry.claimIdentity self o.now q) options)
      (s.disk (.origin q.name)) = .ok log

/-- The topic can be opened, with such a log. -/
def Opens (name : ChannelName) (options : TopicOptions) (log : Log) : Prop :=
  o.opens = true ∧ ∃ mux : Mux LogPath,
    Mux.open (some log) name (Node.topicGeometry options.channel) (Node.batchOf options) = .ok mux

/-- The files once there is such a log at the channel's path. -/
def filesWith (name : ChannelName) (log : Log) : LogPath → Log :=
  { s with disk := Function.update s.disk (.origin name) (some log) }.files

/-- The topic's mux, if it is here, can take the member, with such a log. -/
def Attaches (topic : ChannelName) (q : ClaimRequest) (log : Log) : Prop :=
  ∀ mux, s.muxes topic = some mux →
    (exec (addMember (filesWith s q.name log) q.name (s.registry.claimEpoch q.name)
      (some (.origin q.name))) (mux.within o.outcomes)).1 = .ok ()

/-- The topic's mux, if it is here, can be drained. -/
def Drains (topic : ChannelName) : Prop :=
  ∀ mux, s.muxes topic = some mux →
    (exec (finish s.files) (mux.within o.outcomes)).1 = .ok ()

/-- Of a creation with a step after it: the name is no name; or the claim will change
nothing, and then either it is lost, or the log cannot be made, or what there is after
that is as it was; or it all goes through. -/
def Spares (q : ClaimRequest) (options : ChannelOptions) (same : Prop) (last : Log → Prop) : Prop :=
  validateChannelName q.name = false ∨
    (¬ Enters self o s q ∧
      (¬ Mine self s q.name ∨ (¬ ∃ log, Makes self o s q options log) ∨ same)) ∨
    ∃ log, Makes self o s q options log ∧ last log

/-- What a channel is served with, by these options. -/
def sourceOf (options : ChannelOptions) : ChannelSource :=
  ⟨options.regionSize, options.mtu, options.fileRollSize, options.keepFiles⟩

/-- That the operation, should it fail, will have changed nothing. It is read off the
arguments, the state before and what the system will let through. -/
def Operation.Harmless : Operation → Prop
  | .hostChannel name regionSize mtu fileRollSize keepFiles =>
    Spares self o s ⟨name, regionSize, mtu, none⟩ ⟨regionSize, mtu, fileRollSize, keepFiles⟩ True
      fun _ => True
  | .createForClient name options =>
    Spares self o s ⟨name, options.regionSize, options.mtu, none⟩ options True fun _ => True
  | .createTopic name options =>
    Spares self o s ⟨name, options.channel.regionSize, options.channel.mtu, none⟩ options.channel
      (s.hosted name = some (sourceOf options.channel)) (Opens o name options)
  | .publishToTopic topic member options =>
    Spares self o s ⟨member, options.regionSize, options.mtu, some topic⟩ options
      (s.hosted member = some (sourceOf options) ∧ ∀ mux, s.muxes topic = some mux → mux.Closed)
      (Attaches o s topic ⟨member, options.regionSize, options.mtu, some topic⟩)
  | .deregisterTopic topic => Drains o s topic

end Conditions

/-! ## Failures -/

/-- The muxes, apart from what is in store for their writes. -/
def Shared.muxState (s : Shared) (name : ChannelName) : Option (Mux LogPath) :=
  (s.muxes name).map (within [])

/-- Everything an operation is not to change by failing. -/
def Unchanged (s s' : Shared) : Prop :=
  s'.registry = s.registry ∧ s'.hosted = s.hosted ∧ s'.muxState = s.muxState ∧
    s'.discovery = s.discovery

variable {self o} {s s' : Shared} {e : OpError} {α β : Type} {q : ClaimRequest}
  {options : ChannelOptions}

/-- If `p` fails, it has changed nothing. -/
def AllOrNothing (p : OpM Unit) (s : Shared) : Prop :=
  ∀ e s', exec p s = (.error e, s') → Unchanged s s'

/-! ### The claim -/

/-- The state once the claim is made. -/
def claimed (self : NodeId) (o : Oracle) (s : Shared) (q : ClaimRequest) : Shared :=
  let (registry, merged) := s.registry.mergeTracked (s.registry.claimIdentity self o.now q)
  { s with
    registry
    discovery :=
      if merged.changed = true ∧ o.publishes = true then
        s.discovery ++ [changeOf merged.winner (merged.winner.owner = self)]
      else s.discovery }

theorem exec_claimName (q : ClaimRequest) (s : Shared) :
    exec (claimName self o q) s =
      ((s.registry.claimName self o.now q).2.mapError .rejected, claimed self o s q) := by
  have hpublish : exec (publishMerged self o
      (s.registry.mergeTracked (s.registry.claimIdentity self o.now q)).2)
      { s with registry := (s.registry.claimName self o.now q).1 } =
        (.ok (), claimed self o s q) := by
    simp only [publishMerged, publishChange, claimed, Registry.claimName_fst]
    by_cases hc : (s.registry.mergeTracked (s.registry.claimIdentity self o.now q)).2.changed = true
    · by_cases hp : o.publishes = true <;> simp [hc, hp]
    · simp [hc]
  unfold claimName
  rw [exec_bind_ok (exec_get s), exec_bind_ok (exec_set _ _), exec_bind_ok hpublish]
  cases (s.registry.claimName self o.now q).2 <;> rfl

theorem changed_iff_enters :
    (s.registry.mergeTracked (s.registry.claimIdentity self o.now q)).2.changed = true ↔
      Enters self o s q :=
  Registry.mergeTracked_changed _ _

/-- A claim that does not go in leaves everything as it is. -/
theorem claimed_of_not_enters (h : ¬ Enters self o s q) : claimed self o s q = s := by
  have hchanged := mt changed_iff_enters.mp h
  simp [claimed, Registry.mergeTracked_of_not_changed hchanged, hchanged]

theorem claimed_registry_ne (h : Enters self o s q) :
    (claimed self o s q).registry ≠ s.registry := by
  intro heq
  have hle : _ ≤ _ := Registry.key_le_keyAt_mergeTracked s.registry
    (s.registry.claimIdentity self o.now q)
  rw [show (s.registry.mergeTracked _).1 = s.registry from heq] at hle
  exact absurd hle (not_le.mpr h)

/-- The claim is granted if it goes in, and if the name was this node's. -/
theorem claimName_granted_iff :
    (∃ identity, (s.registry.claimName self o.now q).2 = .ok identity) ↔
      Enters self o s q ∨ Mine self s q.name := by
  constructor
  · rintro ⟨identity, h⟩
    refine or_iff_not_imp_left.mpr fun hnot => ?_
    have hheld := Registry.holds_claimName_of_ok h
    rw [Registry.claimName_fst,
      Registry.mergeTracked_of_not_changed (mt changed_iff_enters.mp hnot)] at hheld
    exact ⟨_, hheld⟩
  · rintro (h | ⟨epoch, h⟩)
    · exact ⟨_, Registry.claimName_ok_of_changed (changed_iff_enters.mpr h)⟩
    · exact ⟨_, Registry.claimName_ok_of_holds (h.claimName o.now q)⟩

/-! ### Creations -/

/-- The state once the channel is created, with this log. -/
def hosting (self : NodeId) (o : Oracle) (s : Shared) (q : ClaimRequest) (fileRollSize : UInt64)
    (keepFiles : UInt32) (log : Log) : Shared :=
  { claimed self o s q with
    disk := Function.update s.disk (.origin q.name) (some log)
    hosted := Function.update s.hosted q.name
      (some ⟨q.regionSize, q.mtu, fileRollSize, keepFiles⟩) }

theorem hosting_disk (q : ClaimRequest) (fileRollSize : UInt64) (keepFiles : UInt32) (log : Log) :
    (hosting self o s q fileRollSize keepFiles log).disk (.origin q.name) = some log :=
  Function.update_self ..

/-- What the operations that create a channel have in common. -/
abbrev create (self : NodeId) (o : Oracle) (q : ClaimRequest) (options : ChannelOptions)
    (fileRollSize : UInt64) (keepFiles : UInt32) : OpM Unit := do
  channelPath q.name
  let identity ← claimName self o q
  ensurePrivateDir o
  buildLog o q.name (Node.originConfig identity options)
  announceHosted identity fileRollSize keepFiles

/-- Making the log, after the claim. -/
theorem exec_makeLog (q : ClaimRequest) (options : ChannelOptions) (s : Shared) :
    let p := ensurePrivateDir o >>= fun _ => buildLog o q.name
      (Node.originConfig (s.registry.claimIdentity self o.now q) options)
    (∃ log, Makes self o s q options log ∧ exec p (claimed self o s q) =
      (.ok (), { claimed self o s q with
        disk := Function.update s.disk (.origin q.name) (some log) })) ∨
    (¬ ∃ log, Makes self o s q options log) ∧
      ∃ e, exec p (claimed self o s q) = (.error e, claimed self o s q) := by
  intro p
  have hdisk : (claimed self o s q).disk = s.disk := rfl
  by_cases hdir : o.makesDir = true
  · have hp : exec p (claimed self o s q) = exec (buildLog o q.name
        (Node.originConfig (s.registry.claimIdentity self o.now q) options))
          (claimed self o s q) := by
      simp only [p, ensurePrivateDir, if_pos hdir]
      rfl
    rw [hp, buildLog, exec_bind_ok (exec_get _)]
    by_cases href : o.refuses = true
    · rw [if_pos href]
      exact .inr ⟨by simp [Makes, href], .refused, rfl⟩
    · rw [if_neg href, hdisk]
      cases hlog : Log.build (Node.originConfig (s.registry.claimIdentity self o.now q) options)
          (s.disk (.origin q.name)) with
      | error e => exact .inr ⟨by simp [Makes, hlog], .writer e, rfl⟩
      | ok log => exact .inl ⟨log, ⟨hdir, by simpa using href, hlog⟩, rfl⟩
  · simp only [p, ensurePrivateDir, if_neg hdir]
    exact .inr ⟨by simp [Makes, hdir], .directory, rfl⟩

/-- A creation fails before the claim is granted, or at its log, or goes through. -/
theorem create_cases (q : ClaimRequest) (options : ChannelOptions) (fileRollSize : UInt64)
    (keepFiles : UInt32) (s : Shared) :
    let r := exec (create self o q options fileRollSize keepFiles) s
    ((validateChannelName q.name = false ∨ ¬ Enters self o s q ∧ ¬ Mine self s q.name) ∧
      ∃ e, r = (.error e, s)) ∨
    (validateChannelName q.name = true ∧ (Enters self o s q ∨ Mine self s q.name)) ∧
      ((¬ ∃ log, Makes self o s q options log) ∧ (∃ e, r = (.error e, claimed self o s q)) ∨
      ∃ log, Makes self o s q options log ∧
        r = (.ok (), hosting self o s q fileRollSize keepFiles log)) := by
  intro r
  by_cases hname : validateChannelName q.name = true
  · have hpath : exec (channelPath q.name) s = (.ok (), s) := by
      rw [channelPath, if_pos hname]
      rfl
    by_cases hgrant : Enters self o s q ∨ Mine self s q.name
    · refine .inr ⟨⟨hname, hgrant⟩, ?_⟩
      obtain ⟨identity, hid⟩ := claimName_granted_iff.mpr hgrant
      obtain rfl := Registry.claimName_ok hid
      have hclaim := @exec_claimName self o q s
      rw [hid] at hclaim
      simp only [r, create]
      rw [exec_bind_ok hpath, exec_bind_ok hclaim, ← bind_assoc]
      rcases @exec_makeLog self o q options s with
        ⟨log, hmakes, hlog⟩ | ⟨hnot, e, hlog⟩
      · rw [exec_bind_ok hlog]
        exact .inr ⟨log, hmakes, rfl⟩
      · rw [exec_bind_error hlog]
        exact .inl ⟨hnot, e, rfl⟩
    · refine .inl ⟨.inr (not_or.mp hgrant), ?_⟩
      cases hres : (s.registry.claimName self o.now q).2 with
      | ok identity => exact absurd (claimName_granted_iff.mp ⟨identity, hres⟩) hgrant
      | error e =>
          have hclaim := @exec_claimName self o q s
          rw [hres, claimed_of_not_enters (not_or.mp hgrant).1] at hclaim
          simp only [r, create]
          rw [exec_bind_ok hpath, exec_bind_error hclaim]
          exact ⟨_, rfl⟩
  · refine .inl ⟨.inl (by simpa using hname), .invalidName, ?_⟩
    simp only [r, create, channelPath, if_neg hname]
    rfl

theorem Unchanged.refl (s : Shared) : Unchanged s s := ⟨rfl, rfl, rfl, rfl⟩

/-- A creation and a step after it. The step leaves the registry, fails unless `last`,
and where it fails and the claim had changed nothing, nothing is changed if and only if
`same`. -/
theorem create_bind_allOrNothing_iff {fileRollSize : UInt64} {keepFiles : UInt32}
    {k : Unit → OpM Unit} {same : Prop} {last : Log → Prop}
    (hok : Enters self o s q ∨ Mine self s q.name → ∀ log, Makes self o s q options log →
      last log → ∃ s', exec (k ()) (hosting self o s q fileRollSize keepFiles log) = (.ok (), s'))
    (hfail : Enters self o s q ∨ Mine self s q.name → ∀ log, Makes self o s q options log →
      ¬ last log → ∃ e s',
      exec (k ()) (hosting self o s q fileRollSize keepFiles log) = (.error e, s') ∧
      s'.registry = (claimed self o s q).registry ∧
      (¬ Enters self o s q → (Unchanged s s' ↔ same))) :
    AllOrNothing (create self o q options fileRollSize keepFiles >>= k) s ↔
      Spares self o s q options same last := by
  rcases @create_cases self o q options fileRollSize keepFiles s with
    ⟨hearly, e, hr⟩ | ⟨⟨hname, hgrant⟩, ⟨hnot, e, hr⟩ | ⟨log, hmakes, hr⟩⟩
  · refine iff_of_true ?_ (hearly.imp_right fun h => .inl ⟨h.1, .inl h.2⟩)
    intro e' s' h
    rw [exec_bind_error hr] at h
    cases h
    exact .refl s
  · have hall : AllOrNothing (create self o q options fileRollSize keepFiles >>= k) s ↔
        Unchanged s (claimed self o s q) := by
      rw [AllOrNothing, exec_bind_error hr]
      exact ⟨fun h => h _ _ rfl, fun h e' s' he => by cases he; exact h⟩
    rw [hall, Spares]
    by_cases henters : Enters self o s q
    · refine iff_of_false (fun h => claimed_registry_ne henters h.1) ?_
      rintro (h | ⟨h, -⟩ | ⟨log, h, -⟩)
      · simp [hname] at h
      · exact h henters
      · exact hnot ⟨log, h⟩
    · rw [claimed_of_not_enters henters]
      exact iff_of_true (.refl s) (.inr (.inl ⟨henters, .inr (.inl hnot)⟩))
  · by_cases hlast : last log
    · obtain ⟨s₁, hk⟩ := hok hgrant log hmakes hlast
      refine iff_of_true ?_ (.inr (.inr ⟨log, hmakes, hlast⟩))
      intro e' s' h
      rw [exec_bind_ok hr, hk] at h
      cases h
    · obtain ⟨e', s₁, hk, hreg, hsame⟩ := hfail hgrant log hmakes hlast
      have hall : AllOrNothing (create self o q options fileRollSize keepFiles >>= k) s ↔
          Unchanged s s₁ := by
        rw [AllOrNothing, exec_bind_ok hr, hk]
        exact ⟨fun h => h _ _ rfl, fun h e'' s' he => by cases he; exact h⟩
      -- the log is the only one it makes
      have hnolast : ¬ ∃ log, Makes self o s q options log ∧ last log := by
        rintro ⟨log', hmakes', hlast'⟩
        have heq : log' = log := Except.ok.inj (hmakes'.2.2.symm.trans hmakes.2.2)
        exact hlast (heq ▸ hlast')
      rw [hall, Spares]
      by_cases henters : Enters self o s q
      · refine iff_of_false (fun h => claimed_registry_ne henters (hreg.symm.trans h.1)) ?_
        rintro (h | ⟨h, -⟩ | h)
        · simp [hname] at h
        · exact h henters
        · exact hnolast h
      · have hmine : Mine self s q.name := hgrant.resolve_left henters
        rw [hsame henters]
        simp [hname, henters, hmine, hnolast, show ∃ log, _ from ⟨log, hmakes⟩]

/-! ### The operations -/

/-- After a claim that changed nothing there are the hosted channel and the muxes to
compare. -/
theorem hosting_unchanged_iff {fileRollSize : UInt64} {keepFiles : UInt32} (log : Log)
    (henters : ¬ Enters self o s q) (muxes : ChannelName → Option (Mux LogPath))
    (disk : LogPath → Option Log) :
    Unchanged s { hosting self o s q fileRollSize keepFiles log with muxes, disk } ↔
      s.hosted q.name = some ⟨q.regionSize, q.mtu, fileRollSize, keepFiles⟩ ∧
        ∀ name, (muxes name).map (within []) = s.muxState name := by
  rw [Unchanged, hosting, claimed_of_not_enters henters]
  simp only [true_and, and_true, Function.update_eq_self_iff]
  exact and_congr eq_comm funext_iff

/-- What the node holds after a claim it was granted. -/
theorem epoch_claimed (hgrant : Enters self o s q ∨ Mine self s q.name) :
    (((claimed self o s q).registry.getRaw q.name).map ChannelIdentity.epoch).getD 0 =
      s.registry.claimEpoch q.name := by
  obtain ⟨identity, hid⟩ := claimName_granted_iff.mpr hgrant
  obtain ⟨id, hraw, -, -, hepoch⟩ := Registry.holds_iff.mp (Registry.holds_claimName_of_ok hid)
  rw [Registry.claimName_fst] at hraw
  rw [show (claimed self o s q).registry.getRaw q.name = some id from hraw]
  exact hepoch

theorem create_allOrNothing_iff (fileRollSize : UInt64) (keepFiles : UInt32) :
    AllOrNothing (create self o q options fileRollSize keepFiles) s ↔
      Spares self o s q options True fun _ => True := by
  have hbind : AllOrNothing (create self o q options fileRollSize keepFiles >>= pure) s ↔
      Spares self o s q options True fun _ => True :=
    create_bind_allOrNothing_iff (fun _ _ _ _ => ⟨_, rfl⟩) (fun _ _ _ h => absurd trivial h)
  rwa [bind_pure] at hbind

theorem exec_openTopic {s : Shared} {name : ChannelName} {options : TopicOptions} {log : Log}
    (hlog : s.disk (.origin name) = some log) :
    (Opens o name options log ∧ ∃ s', exec (openTopic o name options) s = (.ok (), s')) ∨
      ¬ Opens o name options log ∧ ∃ e, exec (openTopic o name options) s = (.error e, s) := by
  unfold openTopic
  rw [exec_bind_ok (exec_get _), hlog]
  by_cases hopens : o.opens = true
  · rw [if_pos hopens]
    cases hmux : Mux.open (φ := LogPath) (some log) name (Node.topicGeometry options.channel)
        (Node.batchOf options) with
    | ok mux => exact .inl ⟨⟨hopens, mux, hmux⟩, _, rfl⟩
    | error e => exact .inr ⟨by simp [Opens, hmux], .mux e, rfl⟩
  · rw [if_neg hopens]
    exact .inr ⟨fun h => hopens h.1, .opening, rfl⟩

theorem createTopic_allOrNothing_iff (name : ChannelName) (options : TopicOptions) :
    AllOrNothing (createTopic self o name options) s ↔
      (Operation.createTopic name options).Harmless self o s := by
  have hstep := fun log => @exec_openTopic o _ name options log
    (@hosting_disk self o s ⟨name, options.channel.regionSize, options.channel.mtu, none⟩
      options.channel.fileRollSize options.channel.keepFiles log)
  refine create_bind_allOrNothing_iff ?_ ?_
  · intro _ log _ hopens
    exact ((hstep log).resolve_right fun h => h.1 hopens).2
  · intro _ log _ hnot
    obtain ⟨-, e, he⟩ := (hstep log).resolve_left fun h => hnot h.1
    refine ⟨e, _, he, rfl, fun henters => ?_⟩
    refine (hosting_unchanged_iff log henters s.muxes _).trans ?_
    exact and_iff_left fun _ => rfl

/-- The attach, where the topic is here. -/
theorem exec_attachHere {topic : ChannelName} (fileRollSize : UInt64) (keepFiles : UInt32)
    {mux : Mux LogPath} (hgrant : Enters self o s q ∨ Mine self s q.name) (log : Log)
    (hmux : s.muxes topic = some mux) :
    let r := exec (addMember (filesWith s q.name log) q.name (s.registry.claimEpoch q.name)
      (some (.origin q.name))) (mux.within o.outcomes)
    let h := hosting self o s q fileRollSize keepFiles log
    exec (attachHere o topic q.name) h = (r.1.mapError .mux, { h with
      muxes := Function.update s.muxes topic (some r.2)
      disk := Function.update h.disk (.origin topic) (some r.2.topic.log) }) := by
  intro r h
  have hepoch : ((h.registry.getRaw q.name).map ChannelIdentity.epoch).getD 0 =
      s.registry.claimEpoch q.name := epoch_claimed hgrant
  have hpath : ((h.disk (.origin q.name)).map fun _ => LogPath.origin q.name) =
      some (.origin q.name) := by
    rw [hosting_disk]
    rfl
  unfold attachHere
  rw [exec_bind_ok (exec_get _), show h.muxes topic = some mux from hmux]
  simp only
  rw [exec_bind_ok (exec_set _ _), hepoch, hpath]
  show exec (raise r.1) _ = _
  cases r.1 <;> rfl

/-- An attach that fails leaves a mux as it was if and only if it was closed. -/
theorem attached_same_iff {files : LogPath → Log} {topic member : ChannelName} {epoch : UInt64}
    {path : Option LogPath} {mux mux' : Mux LogPath} {e : MuxError}
    (hmux : s.muxes topic = some mux)
    (h : exec (addMember files member epoch path) (mux.within o.outcomes) = (.error e, mux')) :
    (∀ name, (Function.update s.muxes topic (some mux') name).map (within []) =
      s.muxState name) ↔ mux.Closed := by
  constructor
  · intro hsame
    have htopic := hsame topic
    rw [Function.update_self, Shared.muxState, hmux] at htopic
    have hmux' : within [] mux' = within [] mux := Option.some.inj htopic
    have href : (within [] mux').nextRef = (within [] mux).nextRef := congrArg Mux.nextRef hmux'
    simp only [within] at href
    rcases addMember_failed h with ⟨hclosed, -⟩ | ⟨-, hnext⟩
    · exact hclosed
    · rw [href] at hnext
      exact absurd hnext (by simp [within])
  · intro hclosed name
    obtain ⟨-, rfl⟩ := (addMember_failed h).resolve_right fun h => h.1 hclosed
    rw [Shared.muxState]
    by_cases hname : name = topic
    · rw [hname, Function.update_self, hmux]
      rfl
    · rw [Function.update_of_ne hname]

theorem publishToTopic_allOrNothing_iff (topic member : ChannelName) (options : ChannelOptions) :
    AllOrNothing (publishToTopic self o topic member options) s ↔
      (Operation.publishToTopic topic member options).Harmless self o s := by
  refine create_bind_allOrNothing_iff ?_ ?_
  · intro hgrant log _ hattaches
    cases hmux : s.muxes topic with
    | none =>
        unfold attachHere
        rw [exec_bind_ok (exec_get _),
          show (hosting self o s _ _ _ log).muxes topic = none from hmux]
        exact ⟨_, rfl⟩
    | some mux =>
        have hexec := exec_attachHere options.fileRollSize options.keepFiles hgrant log hmux
        simp only [hattaches mux hmux] at hexec
        exact ⟨_, hexec⟩
  · intro hgrant log _ hnot
    obtain ⟨mux, hmux, hfails⟩ : ∃ mux, s.muxes topic = some mux ∧ ¬ _ = _ := by
      simpa only [Attaches, not_forall, exists_prop] using hnot
    have hexec := exec_attachHere options.fileRollSize options.keepFiles hgrant log hmux
    rcases hr : exec (addMember (filesWith s member log) member (s.registry.claimEpoch member)
      (some (.origin member))) (mux.within o.outcomes) with ⟨e | u, mux'⟩
    · simp only [hr] at hexec
      refine ⟨.mux e, _, hexec, rfl, fun henters => ?_⟩
      refine (hosting_unchanged_iff log henters _ _).trans (and_congr_right' ?_)
      rw [attached_same_iff hmux hr, hmux]
      simp
    · simp [hr] at hfails

theorem dropRegistration_ok (name : ChannelName) (s : Shared) :
    (exec (dropRegistration self o name) s).1 = .ok () := by
  unfold dropRegistration
  rw [exec_bind_ok (exec_get _)]
  split <;> rfl

/-- The mux is gone, and after that only its draining can fail. -/
theorem deregisterTopic_allOrNothing_iff (topic : ChannelName) :
    AllOrNothing (deregisterTopic self o topic) s ↔ Drains o s topic := by
  unfold AllOrNothing deregisterTopic Drains
  rw [exec_bind_ok (exec_get _)]
  cases hmux : s.muxes topic with
  | none => simp
  | some mux =>
      simp only [Option.some.injEq, forall_eq']
      rw [exec_bind_ok (exec_set _ _)]
      rcases hr : exec (finish s.files) (mux.within o.outcomes) with ⟨e | u, mux'⟩
      · refine iff_of_false (fun h => ?_) (by simp)
        obtain ⟨-, -, hmuxes, -⟩ := h (.mux e) _ rfl
        have htopic := congrFun hmuxes topic
        simp [Shared.muxState, hmux] at htopic
      · refine iff_of_true (fun e s' h => ?_) rfl
        rw [raise, exec_bind_ok (exec_pure _ _), stopMembers, exec_bind_ok (exec_modify _ _),
          exec_bind_ok (Prod.ext (dropRegistration_ok topic _) rfl)] at h
        cases h

/-- **A naming operation changes nothing by failing if and only if** it was harmless: for
each of the five, in every state, with all arguments and whatever the system lets
through. -/
theorem failure_unchanged_iff (op : Operation) :
    (∀ e s', exec (op.run self o) s = (.error e, s') → Unchanged s s') ↔
      op.Harmless self o s := by
  cases op with
  | hostChannel name regionSize mtu fileRollSize keepFiles => exact create_allOrNothing_iff 0 0
  | createForClient name options =>
      exact create_allOrNothing_iff options.fileRollSize options.keepFiles
  | createTopic name options => exact createTopic_allOrNothing_iff name options
  | publishToTopic topic member options =>
      exact publishToTopic_allOrNothing_iff topic member options
  | deregisterTopic topic => exact deregisterTopic_allOrNothing_iff topic

/-! ## What a later failure leaves -/

/-- Everything goes through. -/
def works : Oracle := ⟨10, true, true, false, true, [], true⟩

/-- A node without channels. -/
def idle : Shared :=
  ⟨.new, fun _ => none, fun _ => none, [], fun _ => none, fun _ => false, fun _ => none⟩

def channelOptions : ChannelOptions := ⟨4096, 64, 0, 0⟩

/-- The node once it hosts a topic. -/
def withTopic : Shared := (exec (createTopic 1 works "topic" ⟨channelOptions, 0, 0⟩) idle).2

/-- A node that creates a channel of its own again, later, and cannot make the directory. -/
theorem failure_unchanged_iff_own :
    ∃ s', exec ((Operation.createForClient "topic" channelOptions).run 1
      { works with now := 11, makesDir := false }) withTopic = (.error .directory, s') ∧
      Unchanged withTopic s' := by
  set o : Oracle := { works with now := 11, makesDir := false }
  have hfails : (exec ((Operation.createForClient "topic" channelOptions).run 1 o) withTopic).1 =
      .error .directory := by
    decide +kernel
  have henters : ¬ Enters 1 o withTopic ⟨"topic", 4096, 64, none⟩ := by
    rw [← changed_iff_enters]
    decide +kernel
  have hharmless : (Operation.createForClient "topic" channelOptions).Harmless 1 o withTopic :=
    Or.inr (.inl ⟨henters, .inr (.inr trivial)⟩)
  exact ⟨_, Prod.ext hfails rfl, (failure_unchanged_iff _).mpr hharmless _ _ (Prod.ext hfails rfl)⟩

/-- The operation fails with this error and leaves such a state. -/
def FailsLeaving (p : OpM Unit) (s : Shared) (e : OpError) (P : Shared → Bool) : Prop :=
  (exec p s).1 = .error e ∧ P (exec p s).2 = true

instance (p : OpM Unit) (s : Shared) (e : OpError) (P : Shared → Bool) :
    Decidable (FailsLeaving p s e P) :=
  inferInstanceAs (Decidable (_ ∧ _))

/-- **Each of the operations can fail and leave something behind**: a name that
is registered and published, or hosted without a mux, or a topic that is
registered and has lost its mux. -/
theorem failed_operation_remains :
    FailsLeaving (hostChannel 1 { works with makesDir := false } "c" 4096 64 0 0) idle .directory
      (fun s => (s.registry.get "c").isSome && s.discovery.length = 1) ∧
    FailsLeaving (createForClient 1 { works with refuses := true } "c" channelOptions) idle .refused
      (fun s => (s.registry.get "c").isSome && s.discovery.length = 1) ∧
    FailsLeaving (createTopic 1 { works with opens := false } "c" ⟨channelOptions, 0, 0⟩) idle
      .opening (fun s => (s.registry.get "c").isSome && (s.hosted "c").isSome) ∧
    FailsLeaving (publishToTopic 1 { works with outcomes := [.failed] } "topic" "c" channelOptions)
      withTopic (.mux (.write .failed))
      (fun s => (s.registry.get "c").isSome && (s.hosted "c").isSome) ∧
    (withTopic.muxes "topic").isSome = true ∧
    FailsLeaving (deregisterTopic 1 { works with outcomes := [.failed] } "topic") withTopic
      (.mux (.write .failed))
      (fun s => (s.muxes "topic").isNone && (s.registry.get "topic").isSome) := by
  refine ⟨?_, ?_, ?_, ?_, ?_, ?_⟩ <;> decide +kernel

end Operations

end XchannelNet
