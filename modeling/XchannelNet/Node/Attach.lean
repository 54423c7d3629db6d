import XchannelNet.Mux.Stamps
import XchannelNet.Node.Claim

/-!
# Attach — how a topic's owner finds its members' logs

The node that owns a topic, as far as the topic's membership goes. Three
activities meet here. Identities arrive and win or lose in the registry. The
subscription machinery keeps replicas of remote members on disk: creates,
extends, discards and rebuilds them. And the node attaches members to the mux,
from the maintenance pass, from `publish_to_topic` and when it re-hosts the
topic after a restart.

No lock spans two of them. A pass samples the registry and then comes to its
members one by one; a `publish_to_topic` reads the epoch back after its claim.
So each of these is a separate command, and commands of different activities
interleave freely. A log is known by its number `φ`, whatever path it is at:
what is at a path may change, what a log was stamped with does not.
-/

namespace XchannelNet

open Mux

/-- The topic's owner. `live` is what the last pass sampled, `pending` what it
has not come to yet; `publishing` are the members created and not attached
yet; `rehosting` are the members to attach again, each with whether its origin
path has been tried. -/
structure TopicHost (φ : Type) where
  registry : Registry
  origins : ChannelName → Option φ
  replicas : ChannelName → Option φ
  world : World φ
  live : List ChannelIdentity
  pending : List ChannelIdentity
  publishing : List ChannelName
  rehosting : List (Incarnation × Bool)

namespace TopicHost

structure Config where
  nodeId : NodeId
  setup : Setup

/-- What whoever writes a log does to it. -/
inductive Growth where
  | append (r : Record)
  | roll
  | prune (k : ℕ)

def Growth.apply (l : Log) : Growth → Log
  | .append r => l.commit r
  | .roll => l.rollFile
  | .prune k => l.pruneTo k

/-- What happens next, with what is not up to the node: its clock, which log a
file created now is, what the disk does with the mux's writes. -/
inductive Command (φ : Type) where
  | merge (id : ChannelIdentity)
  | createTopic (now : UInt64)
  | publish (now : UInt64) (member : ChannelName) (regionSize mtu : UInt32) (file : φ)
  | publishAttach (member : ChannelName) (outcomes : List WriteOutcome)
  | deregister (name : ChannelName) (removed : Bool)
  | newReplica (name : ChannelName) (file : φ)
  | discardReplica (name : ChannelName)
  | grow (file : φ) (growth : Growth)
  | scan
  | attach (outcomes : List WriteOutcome)
  | detach (member : Incarnation) (outcomes : List WriteOutcome)
  | poll (outcomes : List WriteOutcome)
  | restart
  | rehost (now : UInt64)
  | reattach (now : UInt64) (mtu : UInt32) (outcomes : List WriteOutcome)

variable {φ : Type} [DecidableEq φ] (c : Config)

/-- The members the registry lists for the topic. -/
def sample (n : TopicHost φ) : List ChannelIdentity :=
  n.registry.iter.filter fun id => !id.deleted && id.memberOf == some c.setup.name

/-- What a pass attaches a member from: a local one from its origin path, a
remote one from its replica path, if something is there. -/
def pathOf (n : TopicHost φ) (m : ChannelIdentity) : Option (Option φ) :=
  if m.owner = c.nodeId then some (n.origins m.name) else (n.replicas m.name).map some

/-- A positive sign that an attached member has left; that the registry does
not know it is none. -/
def departed (n : TopicHost φ) (k : Incarnation) : Bool :=
  !(n.live.any fun m => (m.name, m.epoch) = k) &&
    (n.registry.getRaw k.1).any fun id => id.deleted || id.memberOf != some c.setup.name

def setPath (paths : ChannelName → Option φ) (name : ChannelName) (file : Option φ) :
    ChannelName → Option φ := Function.update paths name file

/-- An operation of the topic's mux. -/
def operate (n : TopicHost φ) (o : Op φ) (outcomes : List WriteOutcome) :
    Option (Mux.Action φ × TopicHost φ) :=
  (n.world.perform c.setup (.op o outcomes)).map fun x => (x.1, { n with world := x.2 })

/-- Claim the topic's name and open its mux. -/
def openTopic (n : TopicHost φ) (now : UInt64) (regionSize mtu : UInt32)
    (rehosting : List (Incarnation × Bool)) : Option (Option (Mux.Action φ) × TopicHost φ) :=
  match n.registry.claimName c.nodeId now ⟨c.setup.name, regionSize, mtu, none⟩ with
  | (registry, .error _) => some (none, { n with registry })
  | (registry, .ok _) =>
    (n.world.perform c.setup .open).map fun x =>
      (some x.1, { n with registry, world := x.2, rehosting })

/-- Whether a mux operation was successful. -/
def succeeded : Mux.Action φ → Bool
  | .op _ _ (.ok _) => true
  | _ => false

/-- Attach the next of the members the topic's last slot table lists: claim
the name of one that has an origin here, then try its origin path, and if that
fails its replica path. -/
def reattach (n : TopicHost φ) (now : UInt64) (mtu : UInt32) (outcomes : List WriteOutcome) :
    Option (Mux.Action φ × TopicHost φ) :=
  match n.rehosting with
  | [] => none
  | (k, false) :: rest =>
    let registry :=
      match (n.origins k.1).map n.world.files with
      | some l =>
        if l.name = k.1 then
          (n.registry.claimName c.nodeId now ⟨k.1, l.regionSize, mtu, some c.setup.name⟩).1
        else n.registry
      | none => n.registry
    (operate c { n with registry } (.addMember k.1 k.2 (n.origins k.1)) outcomes).map fun x =>
      (x.1, { x.2 with rehosting := if succeeded x.1 then rest else (k, true) :: rest })
  | (k, true) :: rest =>
    (operate c n (.addMember k.1 k.2 (n.replicas k.1)) outcomes).map fun x =>
      (x.1, { x.2 with rehosting := rest })

/-- `create_origin` for a member: claim the name, then create the log, stamped
with the epoch claimed, or reopen the one that is there. -/
def publish (n : TopicHost φ) (now : UInt64) (member : ChannelName) (regionSize mtu : UInt32)
    (file : φ) : Option (TopicHost φ) :=
  match n.registry.claimName c.nodeId now ⟨member, regionSize, mtu, some c.setup.name⟩ with
  | (registry, .error _) => some { n with registry }
  | (registry, .ok identity) =>
    match n.origins member with
    | some f =>
      if (n.world.files f).regionSize = regionSize then
        some { n with registry, publishing := member :: n.publishing }
      else some { n with registry }
    | none =>
      let l := n.world.files file
      if l.StampedAs (member, identity.epoch) ∧ l.records = [] then
        some { n with registry, origins := setPath n.origins member (some file)
                      publishing := member :: n.publishing }
      else none

/-- What a command does, and the mux's part in it. -/
def perform (n : TopicHost φ) : Command φ → Option (Option (Mux.Action φ) × TopicHost φ)
  | .merge id => some (none, { n with registry := (n.registry.mergeTracked id).1 })
  | .createTopic now => n.openTopic c now c.setup.geometry.regionSize c.setup.geometry.mtu []
  | .publish now member regionSize mtu file =>
    (n.publish c now member regionSize mtu file).map fun n' => (none, n')
  | .publishAttach member outcomes =>
    if member ∈ n.publishing then
      -- the epoch is read back from the registry
      let epoch := ((n.registry.getRaw member).map ChannelIdentity.epoch).getD 0
      (operate c n (.addMember member epoch (n.origins member)) outcomes).map fun x =>
        (some x.1, { x.2 with publishing := n.publishing.erase member })
    else none
  | .deregister name removed =>
    match n.registry.deregister name c.nodeId with
    | (_, none) => some (none, n)
    | (registry, some _) =>
      some (none,
        { n with registry, origins := if removed then setPath n.origins name none else n.origins })
  | .newReplica name file =>
    if n.replicas name = none ∧ (n.world.files file).name = name ∧
        (n.world.files file).records = [] then
      some (none, { n with replicas := setPath n.replicas name (some file) })
    else none
  | .discardReplica name => some (none, { n with replicas := setPath n.replicas name none })
  | .grow file growth =>
    let l := growth.apply (n.world.files file)
    if l.head < 2 ^ 64 then
      some (some (.grow file l),
        { n with world := { n.world with files := Function.update n.world.files file l } })
    else none
  | .scan => some (none, { n with live := n.sample c, pending := n.sample c })
  | .attach outcomes =>
    match n.pending with
    | [] => none
    | m :: rest =>
      let n := { n with pending := rest }
      if n.world.slots.any fun s => s.name = m.name && s.epoch = m.epoch then some (none, n)
      else
        match n.pathOf c m with
        | none => some (none, n)
        | some file =>
          (operate c n (.addMember m.name m.epoch file) outcomes).map fun x => (some x.1, x.2)
  | .detach k outcomes =>
    if n.world.slots.any (fun s => s.member = k) && n.departed c k then
      (operate c n (.removeMember k.1 k.2) outcomes).map fun x => (some x.1, x.2)
    else none
  | .poll outcomes => (operate c n .poll outcomes).map fun x => (some x.1, x.2)
  | .restart =>
    let down :=
      { n with registry := .new, live := [], pending := [], publishing := [], rehosting := [] }
    match n.world.perform c.setup .kill with
    | none => some (none, down)
    | some (a, world) => some (some a, { down with world })
  | .rehost now =>
    match n.world.session, topicConfig n.world.retained with
    | .closed (some disk), some cfg =>
      if disk.name = c.setup.name then
        n.openTopic c now cfg.geometry.regionSize cfg.geometry.mtu
          (cfg.members.map fun k => (k, false))
      else none
    | _, _ => none
  | .reattach now mtu outcomes => (n.reattach c now mtu outcomes).map fun x => (some x.1, x.2)

/-- One step, labelled with what the mux did in it, if anything. -/
def Step (n : TopicHost φ) (a : Option (Mux.Action φ)) (n' : TopicHost φ) : Prop :=
  ∃ cmd, n.perform c cmd = some (a, n')

/-- A node without the topic, and with whatever on disk. -/
def Init (n : TopicHost φ) : Prop :=
  n.registry = .new ∧ n.live = [] ∧ n.pending = [] ∧ n.publishing = [] ∧ n.rehosting = [] ∧
    Mux.Init n.world

/-! ## The mux's part -/

variable {c} {n n' : TopicHost φ} {a : Option (Mux.Action φ)}

/-- What a step does to the mux and the logs is a step of theirs, or nothing. -/
def Moves (c : Config) (w : World φ) (a : Option (Mux.Action φ)) (w' : World φ) : Prop :=
  (a = none ∧ w' = w) ∨ ∃ x, a = some x ∧ Mux.Step c.setup w x w'

theorem operate_moves {o : Op φ} {outcomes : List WriteOutcome} {x : Mux.Action φ × TopicHost φ}
    (h : n.operate c o outcomes = some x) : Mux.Step c.setup n.world x.1 x.2.world := by
  simp only [operate, Option.map_eq_some_iff] at h
  obtain ⟨y, hy, rfl⟩ := h
  exact World.step_of_perform hy

theorem openTopic_moves {now : UInt64} {regionSize mtu : UInt32}
    {rehosting : List (Incarnation × Bool)}
    (h : n.openTopic c now regionSize mtu rehosting = some (a, n')) :
    Moves c n.world a n'.world := by
  simp only [openTopic] at h
  split at h
  · cases h
    exact .inl ⟨rfl, rfl⟩
  · simp only [Option.map_eq_some_iff] at h
    obtain ⟨y, hy, he⟩ := h
    cases he
    exact .inr ⟨_, rfl, World.step_of_perform hy⟩

theorem reattach_moves {now : UInt64} {mtu : UInt32} {outcomes : List WriteOutcome}
    {x : Mux.Action φ × TopicHost φ} (h : n.reattach c now mtu outcomes = some x) :
    Mux.Step c.setup n.world x.1 x.2.world := by
  simp only [reattach] at h
  split at h
  · cases h
  all_goals
    obtain ⟨y, hy, rfl⟩ := Option.map_eq_some_iff.mp h
    have hstep := operate_moves hy
    exact hstep

omit [DecidableEq φ] in
theorem publish_world {now : UInt64} {member : ChannelName} {regionSize mtu : UInt32} {file : φ}
    (h : n.publish c now member regionSize mtu file = some n') : n'.world = n.world := by
  simp only [publish] at h
  split at h
  · cases h
    rfl
  · split at h
    · split at h <;> cases h <;> rfl
    · split at h
      · cases h
        rfl
      · cases h

theorem Growth.grows (l : Log) (g : Growth) : l.Grows (g.apply l) := by
  cases g with
  | append r => exact ⟨.append _ _, rfl, rfl, rfl⟩
  | roll => exact ⟨.roll _, rfl, rfl, rfl⟩
  | prune k => exact ⟨.prune _ _, rfl, rfl, rfl⟩

theorem Step.moves (h : n.Step c a n') : Moves c n.world a n'.world := by
  obtain ⟨cmd, h⟩ := h
  have hop : ∀ {n : TopicHost φ} {o : Op φ} {outcomes : List WriteOutcome}
      {f : Mux.Action φ × TopicHost φ → TopicHost φ},
      (n.operate c o outcomes).map (fun x => (some x.1, f x)) = some (a, n') →
      (∀ x, (f x).world = x.2.world) → Moves c n.world a n'.world := by
    intro n o outcomes f h hf
    obtain ⟨x, hx, he⟩ := Option.map_eq_some_iff.mp h
    cases he
    exact .inr ⟨_, rfl, (hf x).symm ▸ operate_moves hx⟩
  cases cmd with
  | merge id =>
      cases h
      exact .inl ⟨rfl, rfl⟩
  | createTopic now => exact openTopic_moves h
  | publish now member regionSize mtu file =>
      obtain ⟨x, hx, he⟩ := Option.map_eq_some_iff.mp h
      cases he
      exact .inl ⟨rfl, publish_world hx⟩
  | publishAttach member outcomes =>
      simp only [perform] at h
      split at h
      · exact hop h fun _ => rfl
      · cases h
  | deregister name removed =>
      simp only [perform] at h
      split at h <;> cases h <;> exact .inl ⟨rfl, rfl⟩
  | newReplica name file =>
      simp only [perform] at h
      split at h
      · cases h
        exact .inl ⟨rfl, rfl⟩
      · cases h
  | discardReplica name =>
      cases h
      exact .inl ⟨rfl, rfl⟩
  | grow file growth =>
      simp only [perform] at h
      split at h
      · cases h
        exact .inr ⟨_, rfl, .grow (growth.grows _) ‹_›⟩
      · cases h
  | scan =>
      cases h
      exact .inl ⟨rfl, rfl⟩
  | attach outcomes =>
      simp only [perform] at h
      split at h
      · cases h
      · split at h
        · cases h
          exact .inl ⟨rfl, rfl⟩
        · split at h
          · cases h
            exact .inl ⟨rfl, rfl⟩
          · have hmoves := hop h fun _ => rfl
            exact hmoves
  | detach k outcomes =>
      simp only [perform] at h
      split at h
      · exact hop h fun _ => rfl
      · cases h
  | poll outcomes => exact hop h fun _ => rfl
  | restart =>
      simp only [perform] at h
      split at h
      · cases h
        exact .inl ⟨rfl, rfl⟩
      · rename_i hk
        cases h
        exact .inr ⟨_, rfl, World.step_of_perform hk⟩
  | rehost now =>
      simp only [perform] at h
      split at h
      · split at h
        · exact openTopic_moves h
        · cases h
      · cases h
  | reattach now mtu outcomes =>
      obtain ⟨x, hx, he⟩ := Option.map_eq_some_iff.mp h
      cases he
      exact .inr ⟨_, rfl, reattach_moves hx⟩

/-! ## Nodes for runs -/

def reclaimConfig : Config := ⟨1, plainSetup⟩

/-- Member `m` of the topic, as its owner registers it. -/
def memberIdentity (owner epoch : UInt64) (deleted : Bool) : ChannelIdentity :=
  { name := "m", owner, regionSize := 4096, mtu := 0, earliestIndex := 0,
    registeredAtNanos := epoch, epoch, deleted, memberOf := some "topic" }

/-- A node with nothing at any path, and the logs to come. -/
def reclaimStart (files : φ → Log) : TopicHost φ :=
  ⟨.new, fun _ => none, fun _ => none, ⟨files, .closed none, []⟩, [], [], [], []⟩

omit [DecidableEq φ] in
theorem init_reclaimStart {files : φ → Log} (h : Bounded files) : Init (reclaimStart files) :=
  ⟨rfl, rfl, rfl, rfl, rfl, init_mk h⟩

/-- The log of incarnation 0, or of incarnation 1. -/
def reclaimedLogs : Bool → Log
  | false => .ofRecords "m" 0 []
  | true => .ofRecords "m" 1 []

theorem bounded_reclaimedLogs : Bounded reclaimedLogs := by
  intro f
  cases f <;> decide

/-- The log of incarnation 0 alone. -/
def staleLog : Unit → Log := fun _ => .ofRecords "m" 0 []

theorem bounded_staleLog : Bounded staleLog := by
  intro f
  cases f
  decide

end TopicHost

end XchannelNet
