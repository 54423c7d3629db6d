import XchannelNet.Gossip.Model
import XchannelNet.Lib.Run
import XchannelNet.Lib.Weight
import XchannelNet.Membership.Reader

/-!
# Flood — hints relayed from node to node

A hint that taught a node new addresses is relayed on all links but the one it
came on. Nothing orders two addresses of one node: a hint is new if it differs
from what is held. A hint that runs into another one of the same node, on a
cycle, is new wherever it comes, and so is the other behind it.

Where no two hints in circulation disagree about a node, a node learns from
each at most once. Where the links have no cycle, a hint moves away from where
it came from until it can move no further. Either way the flood stops.
-/

namespace XchannelNet

open Gossip (Topology)
open Finset

namespace Dissemination

variable {P A : Type}

/-- A frame to every peer but `source`. -/
def sendExcept [DecidableEq P] (d : Dissemination P A) (source : P) (h : Hint A) :
    List (P × Hint A) :=
  (d.peers.filter fun p => p.id ≠ source).map fun p => (p.id, h)

/-- Forward what is queued, to every link but the one it came on: the node,
and what it sends. -/
def relayHints [DecidableEq P] (d : Dissemination P A) :
    Dissemination P A × List (P × Hint A) :=
  ({ d with hints := [] },
    d.hints.flatMap fun x =>
      -- our own heartbeat says where we are
      if x.2.node = d.selfNode then [] else d.sendExcept x.1 x.2)

end Dissemination

/-- Nodes `V` and link ends `E`; `wire e` is what end `e` has sent and the
reader of `opp e` has not read yet. -/
@[ext] structure HintNet (V E A : Type) where
  node : V → Dissemination E A
  wire : E → List (Hint A)

namespace HintNet

variable {V E A : Type} [DecidableEq V] [DecidableEq E] [DecidableEq A]

/-- The reader of `opp e` takes a hint off the wire. -/
def deliver (T : Topology V E) (s : HintNet V E A) (e : E) (now : Instant) (h : Hint A)
    (rest : List (Hint A)) : HintNet V E A where
  node := Function.update s.node (T.host (T.opp e)) <|
    (s.node (T.host (T.opp e))).receive now (T.opp e)
      (.peerHint h.node h.addr h.controlAddr h.name)
  wire := Function.update s.wire e rest

omit [DecidableEq A] in
/-- The maintenance tick of `v` relays its hints. -/
def relay (s : HintNet V E A) (v : V) : HintNet V E A where
  node := Function.update s.node v (s.node v).relayHints.1
  wire := fun e =>
    s.wire e ++ ((s.node v).relayHints.2.filter fun x => x.1 = e).map Prod.snd

end HintNet

section Steps

variable {V E A : Type} [DecidableEq V] [DecidableEq E] [DecidableEq A] (T : Topology V E)

/-- Delivering and relaying hints, and nothing else. -/
inductive FloodStep : HintNet V E A → HintNet V E A → Prop
  | deliver {s : HintNet V E A} {e : E} (now : Instant) {h : Hint A} {rest : List (Hint A)}
      (hw : s.wire e = h :: rest) : FloodStep s (s.deliver T e now h rest)
  | relay {s : HintNet V E A} {v : V} (hv : (s.node v).hints ≠ []) : FloodStep s (s.relay v)

end Steps

namespace HintNet

variable {V E A : Type}

/-- A hint on a wire, or waiting to be relayed. -/
def Circulates (s : HintNet V E A) (h : Hint A) : Prop :=
  (∃ e, h ∈ s.wire e) ∨ ∃ v source, (source, h) ∈ (s.node v).hints

/-- No two hints in circulation disagree about where a node is. -/
def Consistent (s : HintNet V E A) : Prop :=
  ∀ h h', s.Circulates h → s.Circulates h' → h.node = h'.node →
    h.addr = h'.addr ∧ h.controlAddr = h'.controlAddr

/-- The ends a hint that came over `e` would be relayed on. -/
def onwards [DecidableEq E] (T : Topology V E) (s : HintNet V E A) (e : E) : List E :=
  ((s.node (T.host (T.opp e))).peers.filter fun p => p.id ≠ T.opp e).map Peer.id

/-- No way along the links leads back to where it began, other than by turning
round. -/
def Acyclic [DecidableEq E] (T : Topology V E) (s : HintNet V E A) : Prop :=
  ∀ e, ¬ Relation.TransGen (fun e e' => e' ∈ s.onwards T e) e e

/-! ## What a step does -/

end HintNet

namespace Dissemination

variable {P A : Type} [DecidableEq P] [DecidableEq A]

/-- Whether a hint would teach the node anything. -/
def Novel (d : Dissemination P A) (h : Hint A) : Prop :=
  d.membership.novel h.node h.addr h.controlAddr = true

instance (d : Dissemination P A) (h : Hint A) : Decidable (d.Novel h) :=
  inferInstanceAs (Decidable (_ = true))

/-- What a hint that comes on link `f` does: nothing, or it is queued, and
from then on the addresses it carries are the ones held. -/
theorem peerHint_cases (d : Dissemination P A) (now : Instant) (f : P) (h : Hint A) :
    let d' := d.receive now f (.peerHint h.node h.addr h.controlAddr h.name)
    d'.selfNode = d.selfNode ∧ d'.peers = d.peers ∧
      (d'.hints = d.hints ∧ (∀ x, d'.Novel x ↔ d.Novel x) ∨
        d'.hints = d.hints ++ [(f, h)] ∧ d.Novel h ∧ ∀ x, d'.Novel x ↔
          if h.node = x.node then h.addr ≠ x.addr ∨ h.controlAddr ≠ x.controlAddr
          else d.Novel x) := by
  intro d'
  by_cases hself : h.node = d.selfNode
  · have hd' : d' = if h.controlAddr ≠ d.selfControlAddr ∧
        d.sameIdAddrs.card < MAX_SAME_ID_ADDRS then
        { d with sameIdAddrs := insert h.controlAddr d.sameIdAddrs } else d := if_pos hself
    rw [hd']
    split
    · exact ⟨rfl, rfl, .inl ⟨rfl, fun _ => Iff.rfl⟩⟩
    · exact ⟨rfl, rfl, .inl ⟨rfl, fun _ => Iff.rfl⟩⟩
  · have hd' : d' = d.learnHint f h := receive_peerHint hself now f _ _ _
    have hhints : d'.hints = if d.membership.novel h.node h.addr h.controlAddr
        then d.hints ++ [(f, h)] else d.hints := by
      rw [hd']
      simp only [learnHint, MembershipMap.learn_snd]
    have hmap : d'.membership = (d.membership.learn h.node h.addr h.controlAddr h.name).1 := by
      rw [hd']
      rfl
    refine ⟨by rw [hd']; rfl, by rw [hd']; rfl, ?_⟩
    by_cases hnovel : d.membership.novel h.node h.addr h.controlAddr = true
    · refine .inr ⟨by rw [hhints, if_pos hnovel], hnovel, fun x => ?_⟩
      rw [Novel, hmap, MembershipMap.novel_learn]
      split <;> simp [Novel]
    · refine .inl ⟨by rw [hhints, if_neg hnovel], fun x => ?_⟩
      rw [Novel, hmap, MembershipMap.novel_learn_of_not_novel (by simpa using hnovel)]
      rfl

end Dissemination

namespace HintNet

variable {V E A : Type}

/-! ## Weights -/

section Weights

variable [DecidableEq E]

/-- What a hint weighs that waits at a node: more than all it will be sent as. -/
def waitingWeight (w : E → ℕ) (d : Dissemination E A) (x : E × Hint A) : ℕ :=
  ((d.sendExcept x.1 x.2).map fun y => w y.1).sum + 1

def nodeWeight (w : E → ℕ) (d : Dissemination E A) : ℕ :=
  (d.hints.map (waitingWeight w d)).sum

/-- All hints in circulation, a hint on `e` at `w e`. -/
def weight [Fintype V] [Fintype E] (w : E → ℕ) (s : HintNet V E A) : ℕ :=
  ∑ v, nodeWeight w (s.node v) + ∑ e, (s.wire e).length * w e

theorem waitingWeight_congr (w : E → ℕ) {d d' : Dissemination E A} (hpeers : d'.peers = d.peers) :
    waitingWeight w d' = waitingWeight w d := by
  funext x
  simp only [waitingWeight, Dissemination.sendExcept, hpeers]

/-- What a node sends when it relays weighs less than what waited. -/
theorem relayHints_weight (w : E → ℕ) (d : Dissemination E A) :
    (d.relayHints.2.map fun y => w y.1).sum + d.hints.length ≤ nodeWeight w d := by
  simp only [Dissemination.relayHints, nodeWeight]
  induction d.hints with
  | nil => simp
  | cons x hints ih =>
      rw [List.flatMap_cons, List.map_append, List.sum_append, List.length_cons, List.map_cons,
        List.sum_cons]
      have hx : ((if x.2.node = d.selfNode then [] else d.sendExcept x.1 x.2).map
          fun y => w y.1).sum + 1 ≤ waitingWeight w d x := by
        split <;> simp [waitingWeight]
      omega

variable [DecidableEq V] [DecidableEq A] [Fintype V] [Fintype E] {T : Topology V E}
  {s : HintNet V E A}

/-- A delivery takes a hint off its wire, and leaves the rest to the node. -/
theorem weight_deliver (w : E → ℕ) {e : E} (now : Instant) {h : Hint A} {rest : List (Hint A)}
    (hw : s.wire e = h :: rest) :
    weight w (s.deliver T e now h rest) + w e + nodeWeight w (s.node (T.host (T.opp e))) =
      weight w s + nodeWeight w ((s.deliver T e now h rest).node (T.host (T.opp e))) := by
  have hn := Weight.sum_add_eq_of_eq_off
    (f := fun v => nodeWeight w ((s.deliver T e now h rest).node v))
    (g := fun v => nodeWeight w (s.node v)) (T.host (T.opp e))
    (fun v hv => by simp [deliver, hv])
  have he := Weight.sum_add_eq_of_eq_off
    (f := fun e' => ((s.deliver T e now h rest).wire e').length * w e')
    (g := fun e' => (s.wire e').length * w e') e (fun e' he' => by simp [deliver, he'])
  have hrest : ((s.deliver T e now h rest).wire e).length * w e + w e =
      (s.wire e).length * w e := by
    simp [deliver, hw, Nat.add_mul]
  simp only [weight]
  omega

omit [DecidableEq A] in
theorem weight_relay (w : E → ℕ) {v : V} (hv : (s.node v).hints ≠ []) :
    weight w (s.relay v) < weight w s := by
  have hn := Weight.sum_add_eq_of_eq_off
    (f := fun v' => nodeWeight w ((s.relay v).node v'))
    (g := fun v' => nodeWeight w (s.node v')) v (fun v' hv' => by simp [relay, hv'])
  have hzero : nodeWeight w ((s.relay v).node v) = 0 := by
    simp [relay, Dissemination.relayHints, nodeWeight]
  have hwires : ∑ e, ((s.relay v).wire e).length * w e =
      ∑ e, (s.wire e).length * w e + ((s.node v).relayHints.2.map fun y => w y.1).sum := by
    rw [← Weight.sum_batch, ← sum_add_distrib]
    exact sum_congr rfl fun e _ => by simp [relay, Nat.add_mul]
  have hsent := relayHints_weight w (s.node v)
  have hpos := List.length_pos_of_ne_nil hv
  simp only [weight, hwires]
  omega

end Weights

/-! ## What a step leaves -/

section Steps

variable [DecidableEq V] [DecidableEq E] [DecidableEq A] {T : Topology V E}
  {s s' : HintNet V E A}

theorem node_deliver (s : HintNet V E A) (e : E) (now : Instant) (h : Hint A)
    (rest : List (Hint A)) :
    (s.deliver T e now h rest).node (T.host (T.opp e)) =
      (s.node (T.host (T.opp e))).receive now (T.opp e)
        (.peerHint h.node h.addr h.controlAddr h.name) :=
  Function.update_self ..

theorem node_deliver_of_ne (s : HintNet V E A) {e : E} (now : Instant) (h : Hint A)
    (rest : List (Hint A)) {v : V} (hv : v ≠ T.host (T.opp e)) :
    (s.deliver T e now h rest).node v = s.node v :=
  Function.update_of_ne hv ..

omit [DecidableEq A] in
theorem membership_relay (s : HintNet V E A) (v v' : V) :
    ((s.relay v).node v').membership = (s.node v').membership := by
  by_cases hv : v' = v
  · subst hv
    simp [relay, Dissemination.relayHints]
  · simp [relay, hv]

/-- Links stay as they are. -/
theorem peers_step (hstep : FloodStep T s s') (v : V) : (s'.node v).peers = (s.node v).peers := by
  cases hstep with
  | @deliver e now h rest hw =>
      by_cases hv : v = T.host (T.opp e)
      · subst hv
        rw [node_deliver]
        exact ((s.node _).peerHint_cases now (T.opp e) h).2.1
      · rw [node_deliver_of_ne s now h rest hv]
  | @relay v' hv' =>
      by_cases hv : v = v'
      · subst hv
        simp [relay, Dissemination.relayHints]
      · simp [relay, hv]

omit [DecidableEq A] in
/-- Only what a node forwards is sent. -/
theorem mem_relayHints {d : Dissemination E A} {x : E × Hint A} (hx : x ∈ d.relayHints.2) :
    ∃ source, (source, x.2) ∈ d.hints := by
  simp only [Dissemination.relayHints, List.mem_flatMap] at hx
  obtain ⟨y, hy, hx⟩ := hx
  split at hx
  · cases hx
  · simp only [Dissemination.sendExcept, List.mem_map] at hx
    obtain ⟨p, -, rfl⟩ := hx
    exact ⟨y.1, hy⟩

/-- Steps put nothing new into circulation. -/
theorem circulates_step (hstep : FloodStep T s s') {x : Hint A} (hx : s'.Circulates x) :
    s.Circulates x := by
  cases hstep with
  | @deliver e now h rest hw =>
      have hh : s.Circulates h := .inl ⟨e, by simp [hw]⟩
      rcases hx with ⟨e', he'⟩ | ⟨v, source, hv⟩
      · by_cases heq : e' = e
        · subst heq
          simp only [deliver, Function.update_self] at he'
          exact .inl ⟨e', by simp [hw, he']⟩
        · simp only [deliver, Function.update_of_ne heq] at he'
          exact .inl ⟨e', he'⟩
      · by_cases hvn : v = T.host (T.opp e)
        · subst hvn
          rw [node_deliver] at hv
          rcases ((s.node _).peerHint_cases now (T.opp e) h).2.2 with ⟨hhints, -⟩ | ⟨hhints, -⟩
          · rw [hhints] at hv
            exact .inr ⟨_, source, hv⟩
          · rw [hhints] at hv
            rcases List.mem_append.mp hv with hv | hv
            · exact .inr ⟨_, source, hv⟩
            · rw [(Prod.mk.inj (List.mem_singleton.mp hv)).2]
              exact hh
        · rw [node_deliver_of_ne s now h rest hvn] at hv
          exact .inr ⟨v, source, hv⟩
  | @relay v hv =>
      rcases hx with ⟨e, he⟩ | ⟨v', source, hv'⟩
      · rcases List.mem_append.mp he with he | he
        · exact .inl ⟨e, he⟩
        · obtain ⟨y, hy, rfl⟩ := List.mem_map.mp he
          obtain ⟨source, hsource⟩ := mem_relayHints (List.mem_filter.mp hy).1
          exact .inr ⟨v, source, hsource⟩
      · by_cases hvv : v' = v
        · subst hvv
          simp [relay, Dissemination.relayHints] at hv'
        · simp only [relay, Function.update_of_ne hvv] at hv'
          exact .inr ⟨v', source, hv'⟩

end Steps

/-! ## Without cycles -/

section Stop

variable [DecidableEq V] [DecidableEq E] [DecidableEq A] [Fintype V] [Fintype E]
  {T : Topology V E} {s s' : HintNet V E A}

omit [DecidableEq V] [DecidableEq A] [Fintype V] [Fintype E] in
theorem waitingWeight_opp (w : E → ℕ) (e : E) (h : Hint A) :
    waitingWeight w (s.node (T.host (T.opp e))) (T.opp e, h) =
      ((s.onwards T e).map w).sum + 1 := by
  simp [waitingWeight, Dissemination.sendExcept, onwards, Function.comp_def]

/-- What a delivery costs: the hint is gone, or waits at the node and taught
it something. -/
theorem weight_deliver_cases (w : E → ℕ) {e : E} (now : Instant) {h : Hint A}
    {rest : List (Hint A)} (hw : s.wire e = h :: rest) :
    weight w (s.deliver T e now h rest) + w e = weight w s ∧
        (∀ v x, ((s.deliver T e now h rest).node v).Novel x ↔ (s.node v).Novel x) ∨
      weight w (s.deliver T e now h rest) + w e = weight w s + ((s.onwards T e).map w).sum + 1 ∧
        (s.node (T.host (T.opp e))).Novel h ∧
        ∀ v x, ((s.deliver T e now h rest).node v).Novel x ↔
          if v = T.host (T.opp e) ∧ h.node = x.node then
            h.addr ≠ x.addr ∨ h.controlAddr ≠ x.controlAddr
          else (s.node v).Novel x := by
  have hweight := weight_deliver (T := T) w now hw
  obtain ⟨-, hpeers, hcase⟩ := (s.node (T.host (T.opp e))).peerHint_cases now (T.opp e) h
  rw [node_deliver] at hweight
  rcases hcase with ⟨hhints, hnovel⟩ | ⟨hhints, hnew, hnovel⟩
  · left
    rw [nodeWeight, nodeWeight, hhints, waitingWeight_congr w hpeers] at hweight
    refine ⟨by omega, fun v x => ?_⟩
    by_cases hv : v = T.host (T.opp e)
    · subst hv
      rw [node_deliver]
      exact hnovel x
    · rw [node_deliver_of_ne s now h rest hv]
  · right
    rw [nodeWeight, nodeWeight, hhints, waitingWeight_congr w hpeers, List.map_append,
      List.sum_append, List.map_singleton, List.sum_singleton, waitingWeight_opp] at hweight
    refine ⟨by omega, hnew, fun v x => ?_⟩
    by_cases hv : v = T.host (T.opp e)
    · subst hv
      rw [node_deliver]
      simpa using hnovel x
    · rw [node_deliver_of_ne s now h rest hv]
      simp [hv]

theorem terminates_of_acyclic (h : s.Acyclic T) : Run.Terminates (FloodStep T) s := by
  obtain ⟨w, hw⟩ := Weight.exists_weight (s.onwards T) h
  refine Run.terminates_of_measure (I := fun x : HintNet V E A => x.onwards T = s.onwards T)
    (weight w) (fun x x' hx hstep => ⟨?_, ?_⟩) rfl
  · rw [← hx]
    funext e
    simp only [onwards, peers_step hstep]
  · cases hstep with
    | @deliver e now hint rest hwire =>
        have he := hw e
        rcases weight_deliver_cases (T := T) w now hwire with ⟨hcost, -⟩ | ⟨hcost, -⟩
        · omega
        · rw [hx] at hcost
          omega
    | relay hv => exact weight_relay w hv

/-! ## Without disagreement -/

/-- The hints in circulation. -/
def circulating (s : HintNet V E A) : Finset (Hint A) :=
  (univ.biUnion fun e => (s.wire e).toFinset) ∪
    univ.biUnion fun v => ((s.node v).hints.map Prod.snd).toFinset

omit [DecidableEq V] [DecidableEq E] in
theorem mem_circulating {x : Hint A} : x ∈ s.circulating ↔ s.Circulates x := by
  simp [circulating, Circulates]

/-- What the nodes could still learn from the hints of `K`. -/
def room (K : Finset (Hint A)) (s : HintNet V E A) : ℕ :=
  ∑ v, #{x ∈ K | (s.node v).Novel x}

omit [DecidableEq V] [DecidableEq E] [Fintype E] in
theorem room_congr {K : Finset (Hint A)} (h : ∀ v x, (s'.node v).Novel x ↔ (s.node v).Novel x) :
    room K s' = room K s := by
  simp only [room, h]

omit [DecidableEq E] [Fintype E] in
/-- A hint that taught a node something leaves less to learn, if no other one
disagrees with it. -/
theorem room_lt {K : Finset (Hint A)} {v : V} {h : Hint A} (hK : h ∈ K)
    (hagree : ∀ x ∈ K, h.node = x.node → h.addr = x.addr ∧ h.controlAddr = x.controlAddr)
    (hnew : (s.node v).Novel h)
    (hnovel : ∀ v' x, (s'.node v').Novel x ↔ if v' = v ∧ h.node = x.node then
      h.addr ≠ x.addr ∨ h.controlAddr ≠ x.controlAddr else (s.node v').Novel x) :
    room K s' < room K s := by
  have hsub (v' : V) : {x ∈ K | (s'.node v').Novel x} ⊆ {x ∈ K | (s.node v').Novel x} := by
    intro x hx
    rw [mem_filter] at hx ⊢
    obtain ⟨hxK, hx⟩ := hx
    rw [hnovel] at hx
    split at hx
    · rename_i hv
      obtain ⟨haddr, hcontrol⟩ := hagree x hxK hv.2
      exact absurd hx (by simp [haddr, hcontrol])
    · exact ⟨hxK, hx⟩
  refine sum_lt_sum (fun v' _ => card_le_card (hsub v')) ⟨v, mem_univ v, card_lt_card ?_⟩
  rw [ssubset_iff_of_subset (hsub v)]
  refine ⟨h, mem_filter.mpr ⟨hK, hnew⟩, fun hmem => ?_⟩
  simpa using (hnovel v h).mp (mem_filter.mp hmem).2

theorem terminates_of_consistent (h : s.Consistent) : Run.Terminates (FloodStep T) s := by
  refine Run.terminates_of_measure
    (I := fun x : HintNet V E A => ∀ y, x.Circulates y → y ∈ s.circulating)
    (fun x => toLex (room s.circulating x, weight (fun _ => 1) x))
    (fun x x' hx hstep => ⟨fun y hy => hx y (circulates_step hstep hy), ?_⟩)
    (fun y hy => mem_circulating.mpr hy)
  rw [Prod.Lex.toLex_lt_toLex]
  cases hstep with
  | @deliver e now hint rest hwire =>
      have hmem : hint ∈ s.circulating := hx hint (.inl ⟨e, by simp [hwire]⟩)
      rcases weight_deliver_cases (T := T) (fun _ => 1) now hwire with
        ⟨hcost, hsame⟩ | ⟨-, hnew, hnovel⟩
      · exact .inr ⟨room_congr hsame, by simp only; omega⟩
      · refine .inl (room_lt hmem (fun y hy hnode => ?_) hnew hnovel)
        exact h hint y (mem_circulating.mp hmem) (mem_circulating.mp hy) hnode
  | @relay v hv =>
      refine .inr ⟨room_congr fun v' y => ?_, weight_relay _ hv⟩
      rw [Dissemination.Novel, membership_relay, Dissemination.Novel]

end Stop

/-! ## Two addresses on a cycle -/

/-- Three nodes in a ring. -/
inductive RingNode where
  | one
  | two
  | three
  deriving DecidableEq, Repr

instance : Fintype RingNode where
  elems := {.one, .two, .three}
  complete v := by cases v <;> decide

/-- Ends 0 and 1, 2 and 3, 4 and 5 are the links. -/
def ringTopology : Topology RingNode (Fin 6) where
  self
    | .one => 1
    | .two => 2
    | .three => 3
  host := ![.one, .two, .two, .three, .three, .one]
  opp := ![1, 0, 3, 2, 5, 4]
  opp_opp := by decide

/-- A hint that node 9 is at `addr`. -/
def nineAt (addr : Fin 8) : Hint (Fin 8) := ⟨9, addr, addr, "nine"⟩

/-- A node of the ring that was last told node 9 is at `addr`. -/
def ringNode (self : NodeId) (selfAddr addr : Fin 8) (ends : List (Fin 6)) :
    Dissemination (Fin 6) (Fin 8) :=
  { Dissemination.new self selfAddr 10 (fun _ => none) with
    peers := ends.map fun e => ⟨e, toLex (0, 1), e.val % 2 = 0⟩
    membership := (MembershipMap.new.learn 9 addr addr "nine").1 }

/-- Node 9 was at 3 and is now at 4. The news of either is on its way round, a
link apart. -/
def ring : HintNet RingNode (Fin 6) (Fin 8) where
  node
    | .one => ringNode 1 0 3 [0, 5]
    | .two => ringNode 2 1 4 [1, 2]
    | .three => ringNode 3 2 4 [3, 4]
  wire := ![[nineAt 3], [], [], [], [nineAt 4], []]

/-- A step by what it is done to. -/
inductive HintCommand (V E : Type) where
  | deliver (e : E)
  | relay (v : V)

section Computed

variable {V E A : Type} [DecidableEq V] [DecidableEq E] [DecidableEq A]

def attempt (T : Topology V E) (s : HintNet V E A) :
    HintCommand V E → Option (Unit × HintNet V E A)
  | .deliver e =>
    match s.wire e with
    | [] => none
    | h :: rest => some ((), s.deliver T e 0 h rest)
  | .relay v => if (s.node v).hints = [] then none else some ((), s.relay v)

theorem floodStep_of_attempt {T : Topology V E} {s s' : HintNet V E A} {cmd : HintCommand V E}
    (h : s.attempt T cmd = some ((), s')) : FloodStep T s s' := by
  cases cmd with
  | deliver e =>
      simp only [attempt] at h
      split at h
      · cases h
      · cases h
        exact .deliver 0 ‹_›
  | relay v =>
      simp only [attempt] at h
      split at h
      · cases h
      · cases h
        exact .relay ‹_›

instance [Fintype E] [Fintype A] : DecidableEq (Dissemination E A) :=
  fun _ _ => decidable_of_iff _ Dissemination.ext_iff.symm

instance [Fintype V] [Fintype E] [Fintype A] : DecidableEq (HintNet V E A) :=
  fun _ _ => decidable_of_iff _ HintNet.ext_iff.symm

end Computed

/-! ## Where it stops, and where it does not -/

/-- **The flood stops**, if no two hints in circulation disagree about where a
node is, or the links have no cycle. -/
theorem flood_stops {V E A : Type} [DecidableEq V] [DecidableEq E] [DecidableEq A] [Fintype V]
    [Fintype E] (T : Topology V E) {s : HintNet V E A} (h : s.Consistent ∨ s.Acyclic T) :
    Run.Terminates (FloodStep T) s := by
  rcases h with h | h
  · exact terminates_of_consistent h
  · exact terminates_of_acyclic h

/-- One hint alone goes round the ring once. -/
theorem one_hint_stops :
    let s : HintNet RingNode (Fin 6) (Fin 8) :=
      { ring with wire := ![[nineAt 3], [], [], [], [], []] }
    s.Consistent ∧ Run.Terminates (FloodStep ringTopology) s := by
  intro s
  have honly : s.circulating = {nineAt 3} := by decide +kernel
  have hconsistent : s.Consistent := by
    intro h h' hh hh' _
    rw [← mem_circulating, honly, mem_singleton] at hh hh'
    rw [hh, hh']
    exact ⟨rfl, rfl⟩
  exact ⟨hconsistent, flood_stops ringTopology (.inl hconsistent)⟩

/-- **The flood need not stop**: the two hints follow each other round the
ring, each new wherever it comes, and after one lap all is as before. -/
theorem hints_circulate : ¬ Run.Terminates (FloodStep ringTopology) ring := by
  apply Run.not_terminates_of_cycle
  refine Run.transGen_of_runs (FloodStep ringTopology) (attempt ringTopology)
    (fun _ _ _ => true) (fun _ _ _ _ h _ => floodStep_of_attempt h) ring
    [.deliver 4, .relay .one, .deliver 0, .relay .two, .deliver 2, .relay .three,
      .deliver 0, .relay .two, .deliver 4, .relay .one, .deliver 2, .relay .three]
    (List.cons_ne_nil _ _) ?_
  decide +kernel

end HintNet

end XchannelNet
