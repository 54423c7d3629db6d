import XchannelNet.Lib.Trace
import XchannelNet.Membership.Map
import XchannelNet.Wire.Message

/-!
# Reader — what a control message does to a node

Each link has a reader thread that applies the frames of its link, in order,
to state all readers share. A heartbeat identifies the far end of the link and
records it in the membership map; a hint only teaches addresses; a departure
counts only from the node the link was identified with. A node's own id is
never recorded: heard directly it is a self-link or a twin, by hearsay at most
an address to dial.
-/

namespace XchannelNet

open Wire (ControlMsg)

/-- A link's two endpoint addresses, the lesser first. -/
abbrev LinkKey (A : Type) : Type := Lex (A × A)

/-- The send half of a link. -/
structure Peer (P A : Type) where
  id : P
  key : LinkKey A
  /-- whether we dialled -/
  outbound : Bool
  deriving DecidableEq

/-- Where a node is, as a third party tells it. -/
structure Hint (A : Type) where
  node : NodeId
  addr : A
  controlAddr : A
  name : String
  deriving DecidableEq, Repr

/-- Cap on remembered addresses claiming our own id. -/
def MAX_SAME_ID_ADDRS : ℕ := 8

/-- A node's side of the control plane: links `P`, addresses `A`. -/
@[ext] structure Dissemination (P A : Type) where
  selfNode : NodeId
  selfAddr : A
  selfControlAddr : A
  selfName : String
  livenessTimeout : Instant
  peers : List (Peer P A)
  /-- what is still to be relayed, and the link it came from -/
  hints : List (P × Hint A)
  /-- who is on a link, once a heartbeat has said so -/
  linkPeers : P → Option (NodeId × A)
  conflicts : Finset NodeId
  sameIdAddrs : Finset A
  inbox : List (P × ChannelIdentity)
  membership : MembershipMap A
  /-- where a link was dialled, as its reader knows it -/
  dialAddr : P → Option A
  dialIdentity : A → Option NodeId

/-- A frame, when it came and on which link. -/
structure Arrival (P A : Type) where
  time : Instant
  link : P
  msg : ControlMsg A

namespace Dissemination

variable {P A : Type}

/-- A node that has heard nothing yet. -/
def new (selfNode : NodeId) (selfAddr : A) (livenessTimeout : Instant)
    (dialAddr : P → Option A) : Dissemination P A where
  selfNode
  selfAddr
  selfControlAddr := selfAddr
  selfName := ""
  livenessTimeout
  peers := []
  hints := []
  linkPeers := fun _ => none
  conflicts := ∅
  sameIdAddrs := ∅
  inbox := []
  membership := .new
  dialAddr
  dialIdentity := fun _ => none

/-- This node's own heartbeat. -/
def heartbeat (d : Dissemination P A) : ControlMsg A :=
  .heartbeat d.selfNode d.selfAddr d.selfControlAddr d.selfName

def liveMembers (d : Dissemination P A) (now : Instant) : List NodeId :=
  d.membership.liveMembers now d.livenessTimeout

def liveAddrOf (d : Dissemination P A) (now : Instant) (node : NodeId) : Option A :=
  d.membership.liveAddrOf now node d.livenessTimeout

def silentFor (d : Dissemination P A) (now : Instant) (node : NodeId) : Option Instant :=
  d.membership.silentFor now node

variable [DecidableEq P] [DecidableEq A]

/-- A heartbeat of another node: it identifies the link, and is relayed if it
said anything new. -/
def recordHeartbeat (d : Dissemination P A) (now : Instant) (id : P) (h : Hint A) :
    Dissemination P A :=
  let (membership, novel) := d.membership.record now h.node h.addr h.controlAddr h.name
  { d with
    linkPeers := Function.update d.linkPeers id (some (h.node, h.controlAddr))
    dialIdentity :=
      match d.dialAddr id with
      | some dialled => Function.update d.dialIdentity dialled (some h.node)
      | none => d.dialIdentity
    membership
    hints := if novel then d.hints ++ [(id, h)] else d.hints }

/-- Hearsay about another node. -/
def learnHint (d : Dissemination P A) (id : P) (h : Hint A) : Dissemination P A :=
  let (membership, novel) := d.membership.learn h.node h.addr h.controlAddr h.name
  { d with membership, hints := if novel then d.hints ++ [(id, h)] else d.hints }

/-- One frame of link `id`. -/
def receive (d : Dissemination P A) (now : Instant) (id : P) : ControlMsg A → Dissemination P A
  | .registryDelta ids => { d with inbox := d.inbox ++ ids.map fun i => (id, i) }
  | .registrySync ids => { d with inbox := d.inbox ++ ids.map fun i => (id, i) }
  | .heartbeat node addr controlAddr name =>
    if node = d.selfNode then
      -- a loop back to us, or another machine under our id: never recorded
      if controlAddr ≠ d.selfControlAddr then { d with conflicts := insert node d.conflicts }
      else d
    else d.recordHeartbeat now id ⟨node, addr, controlAddr, name⟩
  | .peerHint node addr controlAddr name =>
    if node = d.selfNode then
      if controlAddr ≠ d.selfControlAddr ∧ d.sameIdAddrs.card < MAX_SAME_ID_ADDRS then
        { d with sameIdAddrs := insert controlAddr d.sameIdAddrs }
      else d
    else d.learnHint id ⟨node, addr, controlAddr, name⟩
  | .leaving node =>
    if (d.linkPeers id).map Prod.fst = some node then
      { d with membership := (d.membership.retire now node).1 }
    else d
  -- not expected on a peer link
  | .register _ => d
  | .deregister _ _ => d
  | .registerRejected _ _ => d

theorem receive_heartbeat {d : Dissemination P A} {node : NodeId} (h : node ≠ d.selfNode)
    (now : Instant) (id : P) (addr controlAddr : A) (name : String) :
    d.receive now id (.heartbeat node addr controlAddr name) =
      d.recordHeartbeat now id ⟨node, addr, controlAddr, name⟩ :=
  if_neg h

theorem receive_peerHint {d : Dissemination P A} {node : NodeId} (h : node ≠ d.selfNode)
    (now : Instant) (id : P) (addr controlAddr : A) (name : String) :
    d.receive now id (.peerHint node addr controlAddr name) =
      d.learnHint id ⟨node, addr, controlAddr, name⟩ :=
  if_neg h

theorem receive_leaving {d : Dissemination P A} {id : P} {node : NodeId}
    (h : (d.linkPeers id).map Prod.fst = some node) (now : Instant) :
    d.receive now id (.leaving node) =
      { d with membership := (d.membership.retire now node).1 } :=
  if_pos h

theorem receive_leaving_of_ne {d : Dissemination P A} {id : P} {node : NodeId}
    (h : (d.linkPeers id).map Prod.fst ≠ some node) (now : Instant) :
    d.receive now id (.leaving node) = d :=
  if_neg h

def arrive (d : Dissemination P A) (a : Arrival P A) : Dissemination P A :=
  d.receive a.time a.link a.msg

/-- The node after all the arrivals, in order. -/
def arrivals (d : Dissemination P A) (es : List (Arrival P A)) : Dissemination P A :=
  Trace.run arrive d es

end Dissemination

end XchannelNet
