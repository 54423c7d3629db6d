import XchannelNet.Channel.ReplicaSafety
import XchannelNet.Node.Claim

/-!
# Naming — who hosts a channel name, and from which log

One channel name across any number of nodes. A node has its registry, the
log at the name's path in its data directory (by its number in the store of
all logs ever created) and whether it currently serves it. Identities reach
other nodes by gossip: anything ever announced may be merged anywhere, late,
repeatedly or never. A restart empties the registry and forgets what was
hosted; the files stay, and reconstruction claims the name for them again.
-/

namespace XchannelNet.Naming

/-- One node, as far as the name is concerned. -/
structure Host where
  registry : Registry
  disk : Option ℕ
  hosted : Bool

/-- All nodes, all logs ever created, everything ever announced, and one
subscriber with its connections to the nodes. -/
structure Sys (V : Type*) where
  store : List Log
  host : V → Host
  gossip : List ChannelIdentity
  sub : Subscriber V

/-- The fixed data of a system: the name, the nodes' ids, where the
subscriber runs. -/
structure Config (V : Type*) where
  name : ChannelName
  nodeId : V → NodeId
  subscriber : V

variable {V : Type*} [DecidableEq V]

namespace Sys

def setHost (s : Sys V) (v : V) (h : Host) : Sys V :=
  { s with host := Function.update s.host v h }

/-- The log at a node's path. -/
def logAt (s : Sys V) (v : V) : Option Log :=
  (s.host v).disk.bind (s.store[·]?)

/-- The writer configuration of a new origin. Its incarnation is the epoch
of the identity the claim built. -/
def originConfig (identity : ChannelIdentity) : WriterConfig where
  name := identity.name
  regionSize := identity.regionSize
  mtu := identity.mtu
  fileRollSize := 0
  keepFiles := 0
  baseRecordIndex := 0
  generation := identity.epoch

/-- `create_origin` / `host_channel`: claim the name, create the log (or
reopen the one there), announce, host. -/
def create (c : Config V) (s : Sys V) (v : V) (now : UInt64) (regionSize mtu : UInt32)
    (memberOf : Option ChannelName) : Sys V :=
  let h := s.host v
  match h.registry.claimName (c.nodeId v) now ⟨c.name, regionSize, mtu, memberOf⟩ with
  | (registry, .error _) => s.setHost v { h with registry }
  | (registry, .ok identity) =>
    match Log.build (originConfig identity) (s.logAt v) with
    -- the name is claimed all the same, but nothing is announced or hosted
    | .error _ => s.setHost v { h with registry }
    | .ok l =>
      match h.disk with
      | some o =>
        { (s.setHost v { registry, disk := some o, hosted := true }) with
          gossip := s.gossip ++ [identity] }
      | none =>
        { (s.setHost v { registry, disk := some s.store.length, hosted := true }) with
          store := s.store ++ [l], gossip := s.gossip ++ [identity] }

/-- `deregister`: tombstone, stop hosting, announce, delete the directory
(best effort: `removed` says whether it went). -/
def deregister (c : Config V) (s : Sys V) (v : V) (removed : Bool) : Sys V :=
  let h := s.host v
  match h.registry.deregister c.name (c.nodeId v) with
  | (_, none) => s
  | (registry, some tombstone) =>
    { (s.setHost v
        { registry, disk := if removed then none else h.disk, hosted := false }) with
      gossip := s.gossip ++ [tombstone] }

/-- `force_deregister`, once its liveness tests have passed: tombstone
another node's name. -/
def forceDeregister (c : Config V) (s : Sys V) (v : V) : Sys V :=
  let h := s.host v
  match h.registry.get c.name with
  | none => s
  | some id =>
    if id.owner = c.nodeId v then s
    else
      match h.registry.reap c.name with
      | (_, none) => s
      | (registry, some tombstone) =>
        { (s.setHost v { h with registry }) with gossip := s.gossip ++ [tombstone] }

/-- Merge one gossiped identity. -/
def merge (s : Sys V) (v : V) (id : ChannelIdentity) : Sys V :=
  s.setHost v { s.host v with registry := ((s.host v).registry.mergeTracked id).1 }

/-- The process goes down and comes up: only the files are left. -/
def restart (s : Sys V) (v : V) : Sys V :=
  s.setHost v { registry := .new, disk := (s.host v).disk, hosted := false }

/-- `reregister_origin`: claim the name again for the log found on disk. -/
def reregister (c : Config V) (s : Sys V) (v : V) (now : UInt64) (mtu : UInt32) : Sys V :=
  let h := s.host v
  match s.logAt v with
  | none => s
  | some l =>
    if h.hosted || l.name ≠ c.name then s
    else
      match h.registry.claimName (c.nodeId v) now ⟨c.name, l.regionSize, mtu, none⟩ with
      | (registry, .error _) => s.setHost v { h with registry }
      | (registry, .ok identity) =>
        { (s.setHost v { registry, disk := h.disk, hosted := true }) with
          gossip := s.gossip ++ [identity] }

/-- What the subscriber meets: the owner its own registry names, served from
the log that owner hosts. -/
def mesh (c : Config V) (s : Sys V) : Mesh V where
  store := s.store
  resolve := fun v regionSize =>
    ∃ id, (s.host c.subscriber).registry.get c.name = some id ∧
      id.owner = c.nodeId v ∧ id.regionSize = regionSize
  serving := fun v => if (s.host v).hosted then (s.host v).disk else none

end Sys

/-- The operations on the name. -/
inductive Action (V : Type*) where
  | create (v : V) (now : UInt64) (regionSize mtu : UInt32) (memberOf : Option ChannelName)
  | deregister (v : V) (removed : Bool)
  | forceDeregister (v : V)
  | merge (v : V) (id : ChannelIdentity)
  | restart (v : V)
  | reregister (v : V) (now : UInt64) (mtu : UInt32)
  | grow (o : ℕ) (l : Log)
  | subscriber (sub : Subscriber V)

/-- One step of the system. -/
inductive Step (c : Config V) : Sys V → Action V → Sys V → Prop
  | create (s : Sys V) (v : V) (now : UInt64) (regionSize mtu : UInt32)
      (memberOf : Option ChannelName) :
      Step c s (.create v now regionSize mtu memberOf) (s.create c v now regionSize mtu memberOf)
  | deregister (s : Sys V) (v : V) (removed : Bool) :
      Step c s (.deregister v removed) (s.deregister c v removed)
  | forceDeregister (s : Sys V) (v : V) : Step c s (.forceDeregister v) (s.forceDeregister c v)
  | merge {s : Sys V} (v : V) (id : ChannelIdentity) (h : id ∈ s.gossip) :
      Step c s (.merge v id) (s.merge v id)
  | restart (s : Sys V) (v : V) : Step c s (.restart v) (s.restart v)
  | reregister (s : Sys V) (v : V) (now : UInt64) (mtu : UInt32) :
      Step c s (.reregister v now mtu) (s.reregister c v now mtu)
  -- whoever has the log open writes to it, hosted or not
  | grow {s : Sys V} {o : ℕ} {l l' : Log} (hl : s.store[o]? = some l) (hg : l.Grows l') :
      Step c s (.grow o l') { s with store := s.store.set o l' }
  | subscriber {s : Sys V} {sub : Subscriber V} (hs : SubStep c.name (s.mesh c) s.sub sub) :
      Step c s (.subscriber sub) { s with sub }

/-- No node knows the name, no log exists, no replica either. -/
def Init (s : Sys V) : Prop :=
  s.store = [] ∧ s.gossip = [] ∧ s.sub = ⟨none, .idle⟩ ∧
  ∀ v, s.host v = ⟨.new, none, false⟩

end XchannelNet.Naming
