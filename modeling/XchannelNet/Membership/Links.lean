import XchannelNet.Lib.Best
import XchannelNet.Membership.Reader

/-!
# Links — which of several links to a node is kept

Two nodes that find each other both dial, so a pair of nodes can hold several
links at once. Each end drops all but one of the links whose far end it knows,
without asking the other: it keeps the one with the least initiator, and among
those the one with the least key. Both ends compute the same initiator and the
same key for a link, so that the least of all links is kept by whoever decides,
on whatever part of the links it can decide about.

Links that claim one id from two control addresses are two machines under one
identity and left alone, as is a link nobody has been heard on.
-/

namespace XchannelNet

/-- A name for a connection that both of its ends compute alike. -/
def linkKey {A : Type} [LinearOrder A] (here there : A) : LinkKey A :=
  if here ≤ there then toLex (here, there) else toLex (there, here)

theorem linkKey_comm {A : Type} [LinearOrder A] (here there : A) :
    linkKey here there = linkKey there here := by
  rcases lt_trichotomy here there with h | rfl | h
  · rw [linkKey, linkKey, if_pos h.le, if_neg (not_le.mpr h)]
  · rfl
  · rw [linkKey, linkKey, if_neg (not_le.mpr h), if_pos h.le]

/-- Which node opened a link: ourselves if we dialled, otherwise the peer. -/
def initiator {P A : Type} (p : Peer P A) (peerNode selfNode : NodeId) : NodeId :=
  if p.outbound then selfNode else peerNode

/-- What links are compared by: the initiator, then the key. -/
abbrev LinkRank (A : Type) : Type := ℕ ×ₗ LinkKey A

def linkRank {P A : Type} (p : Peer P A) (peerNode selfNode : NodeId) : LinkRank A :=
  toLex ((initiator p peerNode selfNode).toNat, p.key)

namespace Dissemination

variable {P A : Type} [LinearOrder A]

/-- The control addresses links claim `node` from. -/
def controlAddrs (d : Dissemination P A) (node : NodeId) : Finset A :=
  (d.peers.filterMap fun p =>
    ((d.linkPeers p.id).filter fun x => x.1 = node).map Prod.snd).toFinset

/-- Ids in use on more than one machine. -/
def conflicted (d : Dissemination P A) : Finset NodeId :=
  ((d.peers.filterMap fun p => (d.linkPeers p.id).map Prod.fst).toFinset.filter
    fun node => 1 < (d.controlAddrs node).card) ∪ d.conflicts

/-- The node a link stands as a candidate for, and its rank. -/
def candidate (d : Dissemination P A) (p : Peer P A) : Option (NodeId × LinkRank A) :=
  ((d.linkPeers p.id).filter fun x => x.1 ∉ d.conflicted).map
    fun x => (x.1, linkRank p x.1 d.selfNode)

/-- Kept: the winner of its node, or a link nobody has been heard on yet. -/
def keeps (d : Dissemination P A) (p : Peer P A) : Bool :=
  match d.candidate p with
  | none => true
  | some (node, rank) => Best.winners d.candidate d.peers node = some rank

/-- A link comes up between two sockets, `here` and `there`. -/
def adopt (d : Dissemination P A) (id : P) (here there : A) (outbound : Bool) :
    Dissemination P A :=
  { d with peers := d.peers ++ [⟨id, linkKey here there, outbound⟩] }

/-- Collapse duplicate links: what is kept, what is shut, and the ids found on
two machines. -/
def dedupLinks (d : Dissemination P A) : Dissemination P A × List (Peer P A) × Finset NodeId :=
  ({ d with peers := d.peers.filter d.keeps }, d.peers.filter fun p => !d.keeps p, d.conflicted)

/-- The readers of these links have ended. -/
def endReaders [DecidableEq P] (d : Dissemination P A) (ids : List P) : Dissemination P A :=
  { d with linkPeers := fun id => if id ∈ ids then none else d.linkPeers id }

/-- The far end shut the links with these keys. -/
def shutByPeer [DecidableEq P] (d : Dissemination P A) (keys : List (LinkKey A)) :
    Dissemination P A :=
  endReaders { d with peers := d.peers.filter fun p => p.key ∉ keys }
    ((d.peers.filter fun p => p.key ∈ keys).map Peer.id)

/-- Whether it is known who is on a link. -/
def Knows (d : Dissemination P A) (id : P) : Prop := (d.linkPeers id).isSome

instance (d : Dissemination P A) (id : P) : Decidable (d.Knows id) :=
  inferInstanceAs (Decidable ((d.linkPeers id).isSome = true))

end Dissemination

/-! ## Two nodes and the links between them -/

/-- The two ends. -/
inductive Side where
  | a
  | b
  deriving DecidableEq, Repr

def Side.other : Side → Side
  | a => b
  | b => a

@[simp] theorem Side.other_other (x : Side) : x.other.other = x := by
  cases x <;> rfl

theorem Side.eq_or_eq_other (x y : Side) : y = x ∨ y = x.other := by
  cases x <;> cases y <;> simp [Side.other]

@[simp] theorem Side.other_ne (x : Side) : x.other ≠ x := by
  cases x <;> decide

/-- Either end of a connection names it alike. -/
theorem linkKey_sides {A : Type} [LinearOrder A] (socket : Side → A) (x : Side) :
    linkKey (socket x) (socket x.other) = linkKey (socket .a) (socket .b) := by
  cases x with
  | a => rfl
  | b => exact linkKey_comm (socket .b) (socket .a)

/-- Two nodes; a link is a peer at each, under one key. -/
structure NodePair (P A : Type) where
  node : Side → Dissemination P A

/-- One node dials the other and both adopt the link, each under an id of its
own. -/
def NodePair.connect {P A : Type} [LinearOrder A] (s : NodePair P A) (dialler : Side)
    (id : Side → P) (socket : Side → A) : NodePair P A where
  node x := (s.node x).adopt (id x) (socket x) (socket x.other) (x = dialler)

/-- What happens to the pair. -/
inductive LinkCommand (P : Type) where
  /-- the far node's heartbeat arrives on a link of `x` -/
  | heard (x : Side) (now : Instant) (link : P)
  | dedup (x : Side)

namespace NodePair

variable {P A : Type} [LinearOrder A] [DecidableEq P]

def perform (s : NodePair P A) : LinkCommand P → NodePair P A
  | .heard x now link =>
    ⟨Function.update s.node x ((s.node x).receive now link (s.node x.other).heartbeat)⟩
  | .dedup x =>
    -- a link dropped by one end is gone at both
    let (kept, dropped, _) := (s.node x).dedupLinks
    ⟨fun y => if y = x then kept.endReaders (dropped.map Peer.id)
      else (s.node y).shutByPeer (dropped.map Peer.key)⟩

/-- The pair after some commands. -/
def run (s : NodePair P A) (cmds : List (LinkCommand P)) : NodePair P A :=
  Trace.run perform s cmds

/-- The rank of a link of `x`. -/
def rank (s : NodePair P A) (x : Side) (p : Peer P A) : LinkRank A :=
  linkRank p (s.node x.other).selfNode (s.node x).selfNode

end NodePair

end XchannelNet
