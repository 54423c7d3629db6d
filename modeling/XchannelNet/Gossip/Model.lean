import XchannelNet.Lib.Run
import XchannelNet.Node.Claim

/-!
# Gossip — registries, links and the maintenance step

Any number of nodes, each with a registry, an inbox of identities its reader
threads have queued, and the dissemination calls it still owes its peers. A
TCP link is a pair of ENDS, one at each node; each end is adopted by its own
node, at its own time, and sends into its own FIFO wire.

The dissemination lock is what fixes the granularity of the steps. A merge
happens under the registry lock alone, and the relay, reply or announcement
it causes is made later under the dissemination lock, so it sits in `pending`
between the two, and it goes to whoever is a peer when it is finally made.
Adopting an end reads the registry and adds the peer under one hold of the
dissemination lock, so that is one step.
-/

namespace XchannelNet.Gossip

/-- Nodes `V`, link ends `E`, who hosts an end, and the end it is wired to. -/
structure Topology (V E : Type*) where
  self : V → NodeId
  host : E → V
  opp : E → E
  opp_opp : ∀ e, opp (opp e) = e

/-- The life of a link end: not yet adopted, a peer of its node, gone. An
end never comes back; a reconnection is a new link. -/
inductive EndState where
  | fresh
  | up
  | down
  deriving DecidableEq, Repr

/-- A dissemination call a node has still to make. -/
inductive Outgoing (E : Type*) where
  | announce (id : ChannelIdentity)
  | relay (source : E) (id : ChannelIdentity)
  | reply (dest : E) (id : ChannelIdentity)

namespace Outgoing

variable {E : Type*}

/-- The identity a call carries. -/
def identity : Outgoing E → ChannelIdentity
  | announce id => id
  | relay _ id => id
  | reply _ id => id

/-- Which of the node's peers a call writes to. -/
def targets [DecidableEq E] : Outgoing E → E → Bool
  | announce _, _ => true
  | relay source _, e => e ≠ source
  | reply dest _, e => e = dest

end Outgoing

/-- One node. -/
structure NodeState (E : Type*) where
  registry : Registry
  inbox : List (E × ChannelIdentity)
  pending : List (Outgoing E)

/-- Whether `incoming` genuinely lost to `winner`, by the key the merge
orders on and not by equality of the records. -/
def lostTo (incoming winner : ChannelIdentity) : Bool :=
  incoming.key ≠ winner.key

namespace NodeState

variable {E : Type*}

/-- Handle one pumped identity: merge it, relay the winner if the map moved,
otherwise reply the winner to a sender that is behind. -/
def handle (st : NodeState E) (source : E) (id : ChannelIdentity) : NodeState E :=
  let (registry, merged) := st.registry.mergeTracked id
  { st with
    registry
    pending := st.pending ++
      if merged.changed then [.relay source merged.winner]
      else if lostTo id merged.winner then [.reply source merged.winner]
      else [] }

/-- A local registration; the identity built is announced if not rejected. -/
def register (st : NodeState E) (self : NodeId) (now : UInt64) (q : ClaimRequest) :
    NodeState E :=
  match st.registry.claimName self now q with
  | (registry, .ok identity) =>
    { st with registry, pending := st.pending ++ [.announce identity] }
  | (registry, .error _) => { st with registry }

/-- Announce the tombstone a deregistration or a reap produced, if any. -/
def disseminateTombstone (st : NodeState E) :
    Registry × Option ChannelIdentity → NodeState E
  | (registry, some tombstone) =>
    { st with registry, pending := st.pending ++ [.announce tombstone] }
  | (registry, none) => { st with registry }

/-- The owner's deregistration. -/
def deregister (st : NodeState E) (self : NodeId) (n : ChannelName) : NodeState E :=
  st.disseminateTombstone (st.registry.deregister n self)

/-- The reaper and the forced deregistration. -/
def reap (st : NodeState E) (n : ChannelName) : NodeState E :=
  st.disseminateTombstone (st.registry.reap n)

/-- What handling an identity leaves owed: the old calls, and the winner. -/
theorem mem_pending_handle {st : NodeState E} {source : E} {id : ChannelIdentity}
    {out : Outgoing E} (h : out ∈ (st.handle source id).pending) :
    out ∈ st.pending ∨ out.identity = st.registry.winnerOver id := by
  rcases List.mem_append.mp h with h | h
  · exact .inl h
  · right
    split at h
    · rw [List.mem_singleton.mp h]
      rfl
    · split at h
      · rw [List.mem_singleton.mp h]
        rfl
      · cases h

end NodeState

/-- The whole mesh. `wire e` is what end `e` has sent and `opp e`'s reader
has not read yet, oldest first. -/
structure Net (V E : Type*) where
  node : V → NodeState E
  ends : E → EndState
  wire : E → List ChannelIdentity

namespace Net

variable {V E : Type*} [DecidableEq V] [DecidableEq E]

def setNode (s : Net V E) (v : V) (st : NodeState E) : Net V E :=
  { s with node := Function.update s.node v st }

/-- Adopt an end: the registry goes out on it, and it becomes a peer. -/
def adopt (T : Topology V E) (s : Net V E) (e : E) : Net V E :=
  { s with
    ends := Function.update s.ends e .up
    wire := Function.update s.wire e (s.wire e ++ (s.node (T.host e)).registry.iter) }

/-- An adoption that fails after `k` identities: the socket is shut down and
the end never becomes a peer. -/
def adoptFailed (T : Topology V E) (s : Net V E) (e : E) (k : ℕ) : Net V E :=
  { s with
    ends := Function.update s.ends e .down
    wire := Function.update s.wire e (s.wire e ++ ((s.node (T.host e)).registry.iter).take k) }

/-- The reader thread of `opp e` queues one identity. -/
def recv (T : Topology V E) (s : Net V E) (e : E) (id : ChannelIdentity)
    (rest : List ChannelIdentity) : Net V E :=
  let v := T.host (T.opp e)
  { (s.setNode v { s.node v with inbox := (s.node v).inbox ++ [(T.opp e, id)] }) with
    wire := Function.update s.wire e rest }

/-- Take one identity off the inbox and handle it. -/
def handle (s : Net V E) (v : V) (source : E) (id : ChannelIdentity)
    (rest : List (E × ChannelIdentity)) : Net V E :=
  s.setNode v (NodeState.handle { s.node v with inbox := rest } source id)

/-- Make one dissemination call: write to every peer it targets. -/
def flush (T : Topology V E) (s : Net V E) (v : V) (out : Outgoing E)
    (rest : List (Outgoing E)) : Net V E :=
  { (s.setNode v { s.node v with pending := rest }) with
    wire := fun e =>
      if T.host e = v ∧ s.ends e = .up ∧ out.targets e then s.wire e ++ [out.identity]
      else s.wire e }

/-- What is owed is `rest`, without the registration that was to be announced. -/
def abandon (s : Net V E) (v : V) (rest : List (Outgoing E)) : Net V E :=
  s.setNode v { s.node v with pending := rest }

/-- An end stops being a peer. -/
def dropEnd (s : Net V E) (e : E) : Net V E :=
  { s with ends := Function.update s.ends e .down }

/-- All but the first `k` identities of a wire are lost. -/
def lose (s : Net V E) (e : E) (k : ℕ) : Net V E :=
  { s with wire := Function.update s.wire e ((s.wire e).take k) }

end Net

section Steps

variable {V E : Type*} [DecidableEq V] [DecidableEq E] (T : Topology V E)

/-- Delivering and handling registry messages, and nothing else. -/
inductive GossipStep : Net V E → Net V E → Prop
  | recv {s : Net V E} {e : E} {id : ChannelIdentity} {rest : List ChannelIdentity}
      (h : s.wire e = id :: rest) : GossipStep s (s.recv T e id rest)
  | handle {s : Net V E} {v : V} {source : E} {id : ChannelIdentity}
      {rest : List (E × ChannelIdentity)} (h : (s.node v).inbox = (source, id) :: rest) :
      GossipStep s (s.handle v source id rest)
  -- the calls of one maintenance pass go out in hash-map order: any order
  | flush {s : Net V E} {v : V} {out : Outgoing E} {before after : List (Outgoing E)}
      (h : (s.node v).pending = before ++ out :: after) :
      GossipStep s (s.flush T v out (before ++ after))

/-- Everything the mesh can do. -/
inductive Step : Net V E → Net V E → Prop
  | gossip {s s' : Net V E} (h : GossipStep T s s') : Step s s'
  | register (s : Net V E) (v : V) (now : UInt64) (q : ClaimRequest) :
      Step s (s.setNode v ((s.node v).register (T.self v) now q))
  | deregister (s : Net V E) (v : V) (n : ChannelName) :
      Step s (s.setNode v ((s.node v).deregister (T.self v) n))
  | reap (s : Net V E) (v : V) (n : ChannelName) :
      Step s (s.setNode v ((s.node v).reap n))
  | adopt {s : Net V E} {e : E} (h : s.ends e = .fresh) : Step s (s.adopt T e)
  | adoptFailed {s : Net V E} {e : E} (k : ℕ) (h : s.ends e = .fresh) :
      Step s (s.adoptFailed T e k)
  | dropEnd {s : Net V E} {e : E} (h : s.ends e = .up) : Step s (s.dropEnd e)
  | lose {s : Net V E} {e : E} (k : ℕ) (h : s.ends e = .down ∨ s.ends (T.opp e) = .down) :
      Step s (s.lose e k)

/-- Everything the mesh can do, if the creation of some channels may fail behind
their claim: the name is claimed, and the registration is not announced. -/
inductive FalteringStep (fails : ChannelName → Prop) : Net V E → Net V E → Prop
  | step {s s' : Net V E} (h : Step T s s') : FalteringStep fails s s'
  | abandon {s : Net V E} {v : V} {id : ChannelIdentity} {before after : List (Outgoing E)}
      (hfails : fails id.name) (hclaim : id.deleted = false)
      (h : (s.node v).pending = before ++ .announce id :: after) :
      FalteringStep fails s (s.abandon v (before ++ after))

/-- Before any link: arbitrary registries, nothing sent, nothing owed. -/
def Initial (s : Net V E) : Prop :=
  (∀ v, (s.node v).inbox = [] ∧ (s.node v).pending = []) ∧
  ∀ e, s.ends e = .fresh ∧ s.wire e = []

/-- Both ends of the link are peers of their nodes. -/
def Live (s : Net V E) (e : E) : Prop :=
  s.ends e = .up ∧ s.ends (T.opp e) = .up

/-- No message in flight on a live link, none unmerged, no call owed. -/
def Quiescent (s : Net V E) : Prop :=
  (∀ e, Live T s e → s.wire e = []) ∧
  ∀ v, (s.node v).inbox = [] ∧ (s.node v).pending = []

end Steps

end XchannelNet.Gossip
