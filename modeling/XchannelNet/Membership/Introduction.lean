import XchannelNet.Broadcast.Sending
import XchannelNet.Membership.Flood
import XchannelNet.Membership.Links

/-!
# Introduction — who hears of whom when links come up

A link that comes up carries, once, its node's heartbeat and everyone the node
knows; from then on only news is sent on it. Nothing is lost between the two
because of the order in `adopt`, all under the dissemination lock: the directory
is read before the link is a peer, and hints are relayed only by whoever holds
that lock, so what is learned in between still waits when the link is there.

The readers do not take that lock. They learn and queue at any time, also while
their own node is in the middle of an introduction.

A process is an element of `V`, so that two may run under one id. Ends are
numbered once and for all, as peer ids are.
-/

namespace XchannelNet

open Gossip (Topology)
open Wire (ControlMsg)
open Broadcast (chunks MAX_IDENTITIES_PER_FRAME)

/-! ## Frames about a node -/

/-- Who a frame says is where, if it does. -/
def Wire.ControlMsg.told {A : Type} : ControlMsg A → Option (Hint A)
  | .heartbeat node addr controlAddr name => some ⟨node, addr, controlAddr, name⟩
  | .peerHint node addr controlAddr name => some ⟨node, addr, controlAddr, name⟩
  | .registryDelta _ => none
  | .registrySync _ => none
  | .leaving _ => none
  | .register _ => none
  | .deregister _ _ => none
  | .registerRejected _ _ => none

def Hint.frame {A : Type} (h : Hint A) : ControlMsg A :=
  .peerHint h.node h.addr h.controlAddr h.name

@[simp] theorem Hint.told_frame {A : Type} (h : Hint A) : h.frame.told = some h := rfl

namespace MembershipMap

variable {A : Type}

/-- Everyone known, and where. -/
def directory (m : MembershipMap A) : List (Hint A) :=
  m.members.toList.map fun x => ⟨x.1, x.2.addr, x.2.controlAddr, x.2.name⟩

/-- Where `n` is, as far as is known. -/
def entry (m : MembershipMap A) (n : NodeId) : Option (Hint A) :=
  (m.get n).map fun x => ⟨n, x.addr, x.controlAddr, x.name⟩

@[simp] theorem entry_new (n : NodeId) : (new : MembershipMap A).entry n = none := by
  simp [entry]

theorem node_of_entry {m : MembershipMap A} {n : NodeId} {h : Hint A} (hn : m.entry n = some h) :
    h.node = n := by
  simp only [entry, Option.map_eq_some_iff] at hn
  obtain ⟨x, -, rfl⟩ := hn
  rfl

theorem mem_directory {m : MembershipMap A} {h : Hint A} :
    h ∈ m.directory ↔ m.entry h.node = some h := by
  simp only [directory, entry, get, List.mem_map, Prod.exists, Option.map_eq_some_iff,
    Std.ExtTreeMap.mem_toList_iff_getElem?_eq_some]
  constructor
  · rintro ⟨n, x, hx, rfl⟩
    exact ⟨x, hx, rfl⟩
  · rintro ⟨x, hx, hh⟩
    exact ⟨h.node, x, hx, hh⟩

/-- A node that leaves is still where it was. -/
@[simp] theorem entry_retire (m : MembershipMap A) (now : Instant) (node : NodeId) :
    (m.retire now node).1.entry = m.entry := by
  funext n
  rw [entry, get_retire]
  split
  · cases hm : m.get n with
    | none => simp [entry, hm]
    | some x => simp [entry, hm]
  · rfl

variable [DecidableEq A]

theorem entry_record (m : MembershipMap A) (now : Instant) (h : Hint A) :
    (m.record now h.node h.addr h.controlAddr h.name).1.entry =
      Function.update m.entry h.node (some h) := by
  funext n
  by_cases hn : n = h.node
  · simp [entry, get_record, hn]
  · simp [entry, get_record, hn, Ne.symm hn]

theorem entry_learn (m : MembershipMap A) (h : Hint A) :
    (m.learn h.node h.addr h.controlAddr h.name).1.entry =
      Function.update m.entry h.node (some h) := by
  funext n
  by_cases hn : n = h.node
  · simp [entry, get_learn, hn]
  · simp [entry, get_learn, hn, Ne.symm hn]

/-- A node never heard of is news. -/
theorem novel_of_entry {m : MembershipMap A} {n : NodeId} (h : m.entry n = none)
    (addr controlAddr : A) : m.novel n addr controlAddr = true := by
  have hget : m.get n = none := by simpa [entry] using h
  simp [novel, hget]

end MembershipMap

namespace Dissemination

variable {P A : Type}

/-- Where this node says it is. -/
def advert (d : Dissemination P A) : Hint A :=
  ⟨d.selfNode, d.selfAddr, d.selfControlAddr, d.selfName⟩

@[simp] theorem told_heartbeat (d : Dissemination P A) : d.heartbeat.told = some d.advert := rfl

/-- The join: the registry in chunks, and who is speaking. -/
def greeting (d : Dissemination P A) (initialSync : List ChannelIdentity) :
    List (ControlMsg A) :=
  (chunks MAX_IDENTITIES_PER_FRAME initialSync).map .registrySync ++ [d.heartbeat]

/-- Then everyone it knows. -/
def introductions (d : Dissemination P A) : List (ControlMsg A) :=
  (d.membership.directory.filter fun h => h.node ≠ d.selfNode).map Hint.frame

theorem told_greeting {d : Dissemination P A} {initialSync : List ChannelIdentity}
    {m : ControlMsg A} (hm : m ∈ d.greeting initialSync) {h : Hint A} (hh : m.told = some h) :
    h = d.advert := by
  simp only [greeting, List.mem_append, List.mem_map, List.mem_singleton] at hm
  rcases hm with ⟨ids, -, rfl⟩ | rfl
  · cases hh
  · simpa using hh.symm

theorem told_introductions {d : Dissemination P A} {m : ControlMsg A}
    (hm : m ∈ d.introductions) {h : Hint A} (hh : m.told = some h) :
    d.membership.entry h.node = some h := by
  simp only [introductions, List.mem_map, List.mem_filter] at hm
  obtain ⟨h', ⟨hmem, -⟩, rfl⟩ := hm
  rw [Hint.told_frame] at hh
  cases hh
  exact MembershipMap.mem_directory.mp hmem

theorem frame_mem_introductions {d : Dissemination P A} {h : Hint A} {n : NodeId}
    (hh : d.membership.entry n = some h) (hn : n ≠ d.selfNode) : h.frame ∈ d.introductions := by
  have hnode := MembershipMap.node_of_entry hh
  subst hnode
  refine List.mem_map_of_mem (List.mem_filter.mpr ⟨MembershipMap.mem_directory.mpr hh, ?_⟩)
  simpa using hn

/-- What a node says of its own accord, other than hints: its heartbeat, that it
leaves, and what its registry holds. -/
def Says [DecidableEq A] (d : Dissemination P A) : ControlMsg A → Bool
  | .heartbeat node addr controlAddr name => ⟨node, addr, controlAddr, name⟩ = d.advert
  | .leaving node => node = d.selfNode
  | .registryDelta _ => true
  | .registrySync _ => true
  | .peerHint _ _ _ _ => false
  | .register _ => false
  | .deregister _ _ => false
  | .registerRejected _ _ => false

theorem Says.told [DecidableEq A] {d : Dissemination P A} {m : ControlMsg A}
    (hm : d.Says m = true) {h : Hint A} (hh : m.told = some h) : h = d.advert := by
  cases m with
  | heartbeat node addr controlAddr name =>
      cases hh
      simpa [Says] using hm
  | peerHint => cases hm
  | _ => cases hh

/-- What is news of a node not known is queued. -/
theorem news_queued {o : Option (Hint A)} {novel : Bool} (hints : List (P × Hint A))
    (x : P × Hint A) (h : o = none → novel = true) :
    (if novel then hints ++ [x] else hints) = hints ++ [x] ∨
      (if novel then hints ++ [x] else hints) = hints ∧ o.isSome := by
  cases novel with
  | true => exact .inl rfl
  | false =>
      refine .inr ⟨rfl, Option.isSome_iff_ne_none.mpr fun hnone => ?_⟩
      exact Bool.false_ne_true (h hnone)

variable [DecidableEq P] [DecidableEq A]

/-- **What a frame does** to what a node knows and what it will pass on: nothing,
unless it tells of another node; then that is what is held of it, and it is
passed on if the node was not known at all. -/
theorem receive_cases (d : Dissemination P A) (now : Instant) (f : P) (m : ControlMsg A) :
    let d' := d.receive now f m
    d'.advert = d.advert ∧ d'.peers = d.peers ∧
    ((d'.membership.entry = d.membership.entry ∧ d'.hints = d.hints ∧
        ∀ h, m.told = some h → h.node = d.selfNode) ∨
      ∃ h, m.told = some h ∧ h.node ≠ d.selfNode ∧
        d'.membership.entry = Function.update d.membership.entry h.node (some h) ∧
        (d'.hints = d.hints ++ [(f, h)] ∨
          d'.hints = d.hints ∧ (d.membership.entry h.node).isSome)) := by
  intro d'
  cases m with
  | heartbeat node addr controlAddr name =>
      by_cases hself : node = d.selfNode
      · have hd' : d' = if controlAddr ≠ d.selfControlAddr
            then { d with conflicts := insert node d.conflicts } else d := if_pos hself
        rw [hd']
        split <;> exact ⟨rfl, rfl, .inl ⟨rfl, rfl, fun h hh => by cases hh; exact hself⟩⟩
      · have hd' : d' = d.recordHeartbeat now f ⟨node, addr, controlAddr, name⟩ :=
          receive_heartbeat hself now f _ _ _
        rw [hd']
        refine ⟨rfl, rfl, .inr ⟨⟨node, addr, controlAddr, name⟩, rfl, hself,
          MembershipMap.entry_record d.membership now _, ?_⟩⟩
        exact news_queued d.hints _ fun h => MembershipMap.novel_of_entry h addr controlAddr
  | peerHint node addr controlAddr name =>
      by_cases hself : node = d.selfNode
      · have hd' : d' = if controlAddr ≠ d.selfControlAddr ∧
            d.sameIdAddrs.card < MAX_SAME_ID_ADDRS
            then { d with sameIdAddrs := insert controlAddr d.sameIdAddrs } else d := if_pos hself
        rw [hd']
        split <;> exact ⟨rfl, rfl, .inl ⟨rfl, rfl, fun h hh => by cases hh; exact hself⟩⟩
      · have hd' : d' = d.learnHint f ⟨node, addr, controlAddr, name⟩ :=
          receive_peerHint hself now f _ _ _
        rw [hd']
        refine ⟨rfl, rfl, .inr ⟨⟨node, addr, controlAddr, name⟩, rfl, hself,
          MembershipMap.entry_learn d.membership _, ?_⟩⟩
        simp only [learnHint, MembershipMap.learn_snd]
        exact news_queued d.hints _ fun h => MembershipMap.novel_of_entry h addr controlAddr
  | leaving node =>
      have hd' : d' = if (d.linkPeers f).map Prod.fst = some node then
          { d with membership := (d.membership.retire now node).1 } else d := rfl
      rw [hd']
      split
      · exact ⟨rfl, rfl, .inl ⟨MembershipMap.entry_retire _ _ _, rfl, by simp [ControlMsg.told]⟩⟩
      · exact ⟨rfl, rfl, .inl ⟨rfl, rfl, by simp [ControlMsg.told]⟩⟩
  | _ => exact ⟨rfl, rfl, .inl ⟨rfl, rfl, by simp [ControlMsg.told]⟩⟩

/-- What a node is after frame `m` on link `f`, as far as others will hear of it. -/
structure Learns (d d' : Dissemination P A) (f : P) (m : ControlMsg A) : Prop where
  advert : d'.advert = d.advert
  peers : d'.peers = d.peers
  held : ∀ n h, d'.membership.entry n = some h →
    d.membership.entry n = some h ∨ m.told = some h ∧ n ≠ d.selfNode
  known : ∀ n, (d.membership.entry n).isSome → (d'.membership.entry n).isSome
  told : ∀ h, m.told = some h → h.node = d.selfNode ∨ (d'.membership.entry h.node).isSome
  hints : ∀ x ∈ d.hints, x ∈ d'.hints
  queued : ∀ x ∈ d'.hints, x ∈ d.hints ∨
    (d'.membership.entry x.2.node).isSome ∧ m.told = some x.2
  /-- whoever was not known waits to be passed on -/
  news : ∀ n, (d'.membership.entry n).isSome → (d.membership.entry n).isSome ∨
    ∃ h, m.told = some h ∧ h.node = n ∧ (f, h) ∈ d'.hints

theorem receive_learns (d : Dissemination P A) (now : Instant) (f : P) (m : ControlMsg A) :
    Learns d (d.receive now f m) f m := by
  obtain ⟨hadvert, hpeers, ⟨hentry, hhints, hself⟩ | ⟨h, htold, hne, hentry, hhints⟩⟩ :=
    d.receive_cases now f m
  · refine ⟨hadvert, hpeers, ?_, ?_, fun h hh => .inl (hself h hh), ?_, ?_, ?_⟩
    · exact fun n h hh => .inl (hentry ▸ hh)
    · exact fun n hn => hentry ▸ hn
    · exact fun x hx => hhints ▸ hx
    · exact fun x hx => .inl (hhints ▸ hx)
    · exact fun n hn => .inl (hentry ▸ hn)
  · have hin : ∀ x, x ∈ d.hints → x ∈ (d.receive now f m).hints := by
      intro x hx
      rcases hhints with hnew | ⟨hsame, -⟩
      · exact hnew ▸ List.mem_append_left _ hx
      · exact hsame ▸ hx
    refine ⟨hadvert, hpeers, fun n h' hh' => ?_, fun n hn => ?_, fun h' hh' => ?_, hin,
      fun x hx => ?_, fun n hn => ?_⟩
    · rw [hentry] at hh'
      by_cases hn : n = h.node
      · subst hn
        rw [Function.update_self] at hh'
        cases hh'
        exact .inr ⟨htold, hne⟩
      · rw [Function.update_of_ne hn] at hh'
        exact .inl hh'
    · rw [hentry]
      by_cases hnode : n = h.node
      · simp [hnode]
      · rwa [Function.update_of_ne hnode]
    · rw [htold] at hh'
      cases hh'
      exact .inr (by simp [hentry])
    · rcases hhints with hnew | ⟨hsame, -⟩
      · rw [hnew] at hx
        rcases List.mem_append.mp hx with hx | hx
        · exact .inl hx
        · cases List.mem_singleton.mp hx
          exact .inr ⟨by simp [hentry], htold⟩
      · exact .inl (hsame ▸ hx)
    · by_cases hnode : n = h.node
      · rcases hhints with hnew | ⟨-, hsome⟩
        · exact .inr ⟨h, htold, hnode.symm, hnew ▸ List.mem_append_right _ (.head _)⟩
        · exact .inl (hnode ▸ hsome)
      · rw [hentry, Function.update_of_ne hnode] at hn
        exact .inl hn

end Dissemination

/-! ## Nodes and links -/

/-- How far an end is with `adopt`: its reader runs, the heartbeat is written,
the directory is written, it is a peer; or it is shut. -/
inductive JoinStage where
  | fresh
  | reading
  | greeted
  | introduced
  | peer
  | down
  deriving DecidableEq, Repr

namespace JoinStage

/-- Inside `adopt`, with the dissemination lock held. -/
def adopting : JoinStage → Bool
  | reading => true
  | greeted => true
  | introduced => true
  | fresh => false
  | peer => false
  | down => false

/-- The heartbeat has been written, and the link is not shut. -/
def hasGreeted : JoinStage → Bool
  | greeted => true
  | introduced => true
  | peer => true
  | fresh => false
  | reading => false
  | down => false

/-- So has the directory. -/
def hasIntroduced : JoinStage → Bool
  | introduced => true
  | peer => true
  | greeted => false
  | fresh => false
  | reading => false
  | down => false

end JoinStage

/-- Processes `V` and link ends `E`; `wire e` is what end `e` has written and the
reader of `opp e` has not read yet. -/
structure JoinNet (V E A : Type) where
  node : V → Dissemination E A
  wire : E → List (ControlMsg A)
  stage : E → JoinStage
  /-- the reader of the end is gone -/
  ended : E → Bool

inductive JoinCommand (V E A : Type) where
  /-- `adopt` starts the reader -/
  | adopt (e : E)
  | greet (e : E) (initialSync : List ChannelIdentity)
  | introduce (e : E)
  /-- the link is a peer -/
  | push (e : E) (here there : A) (outbound : Bool)
  /-- a write of the join fails, `written` frames on -/
  | abandon (e : E) (initialSync : List ChannelIdentity) (written : ℕ)
  /-- the reader of `opp e` takes a frame -/
  | deliver (e : E) (now : Instant)
  /-- the reader of `e` ends -/
  | hangUp (e : E)
  /-- hints are relayed; a peer with `cut e = some k` takes `k` frames and is
  dropped -/
  | relay (v : V) (cut : E → Option ℕ)
  /-- `v` writes frames of its own to peers of its choice, or drops some links -/
  | say (v : V) (frames : List (E × ControlMsg A)) (cut : E → Option ℕ)

/-- What a peer takes of the frames for it. -/
def taken {α : Type} (cut : Option ℕ) (frames : List α) : List α :=
  match cut with
  | none => frames
  | some k => frames.take k

theorem mem_of_mem_taken {α : Type} {cut : Option ℕ} {frames : List α} {m : α}
    (h : m ∈ taken cut frames) : m ∈ frames := by
  cases cut with
  | none => exact h
  | some k => exact List.mem_of_mem_take h

namespace JoinNet

variable {V E A : Type}

/-- No end of `v` is being adopted: the dissemination lock is free. -/
def Free (T : Topology V E) (s : JoinNet V E A) (v : V) : Prop :=
  ∀ e, T.host e = v → (s.stage e).adopting = false

instance [DecidableEq V] [Fintype E] (T : Topology V E) (s : JoinNet V E A) (v : V) :
    Decidable (s.Free T v) :=
  inferInstanceAs (Decidable (∀ _, _))

/-- What the join has still to write. -/
def unwritten (d : Dissemination E A) (initialSync : List ChannelIdentity) :
    JoinStage → List (ControlMsg A)
  | .reading => d.greeting initialSync
  | .greeted => d.introductions
  | .introduced => []
  | .fresh => []
  | .peer => []
  | .down => []

section Perform

variable [DecidableEq V] [DecidableEq E]

/-- End `e` has written some frames and is where `stage` says. -/
def write (s : JoinNet V E A) (e : E) (frames : List (ControlMsg A)) (stage : JoinStage) :
    JoinNet V E A :=
  { s with
    wire := Function.update s.wire e (s.wire e ++ frames)
    stage := Function.update s.stage e stage }

/-- The node at `v`, now `d`, writes frames to its peers, of which some fail. -/
def burst (T : Topology V E) (s : JoinNet V E A) (v : V) (d : Dissemination E A)
    (frames : List (E × ControlMsg A)) (cut : E → Option ℕ) : JoinNet V E A where
  node := Function.update s.node v { d with peers := d.peers.filter fun p => cut p.id = none }
  wire := fun e =>
    s.wire e ++ taken (cut e) ((frames.filter fun x => x.1 = e).map Prod.snd)
  stage := fun e =>
    if T.host e = v ∧ s.stage e = .peer ∧ cut e ≠ none then .down else s.stage e
  ended := s.ended

variable [LinearOrder A]

def perform (T : Topology V E) (s : JoinNet V E A) : JoinCommand V E A → JoinNet V E A
  | .adopt e => s.write e [] .reading
  | .greet e initialSync => s.write e ((s.node (T.host e)).greeting initialSync) .greeted
  | .introduce e => s.write e (s.node (T.host e)).introductions .introduced
  | .push e here there outbound =>
    { s.write e [] .peer with
      node := Function.update s.node (T.host e)
        ((s.node (T.host e)).adopt e here there outbound) }
  | .abandon e initialSync written =>
    s.write e ((unwritten (s.node (T.host e)) initialSync (s.stage e)).take written) .down
  | .deliver e now =>
    match s.wire e with
    | [] => s
    | m :: rest =>
      { s with
        node := Function.update s.node (T.host (T.opp e))
          ((s.node (T.host (T.opp e))).receive now (T.opp e) m)
        wire := Function.update s.wire e rest }
  | .hangUp e =>
    { s with
      node := Function.update s.node (T.host e) ((s.node (T.host e)).endReaders [e])
      ended := Function.update s.ended e true }
  | .relay v cut =>
    s.burst T v (s.node v).relayHints.1
      ((s.node v).relayHints.2.map fun x => (x.1, x.2.frame)) cut
  | .say v frames cut => s.burst T v (s.node v) frames cut

end Perform

/-- When a command can happen. -/
def Allowed [DecidableEq A] (T : Topology V E) (s : JoinNet V E A) : JoinCommand V E A → Prop
  | .adopt e => s.stage e = .fresh ∧ s.Free T (T.host e)
  | .greet e _ => s.stage e = .reading
  | .introduce e => s.stage e = .greeted
  | .push e _ _ _ => s.stage e = .introduced
  | .abandon e _ _ => (s.stage e).adopting = true
  | .deliver e _ => s.stage (T.opp e) ≠ .fresh ∧ s.ended (T.opp e) = false
  | .hangUp e => s.stage e ≠ .fresh
  | .relay v _ => s.Free T v
  | .say v frames _ => s.Free T v ∧
    ∀ x ∈ frames, x.1 ∈ (s.node v).peers.map Peer.id ∧ (s.node v).Says x.2 = true

instance [DecidableEq V] [DecidableEq E] [Fintype E] [DecidableEq A] (T : Topology V E)
    (s : JoinNet V E A) : (cmd : JoinCommand V E A) → Decidable (s.Allowed T cmd)
  | .adopt _ => inferInstanceAs (Decidable (_ ∧ _))
  | .greet _ _ => inferInstanceAs (Decidable (_ = _))
  | .introduce _ => inferInstanceAs (Decidable (_ = _))
  | .push _ _ _ _ => inferInstanceAs (Decidable (_ = _))
  | .abandon _ _ _ => inferInstanceAs (Decidable (_ = _))
  | .deliver _ _ => inferInstanceAs (Decidable (_ ∧ _))
  | .hangUp _ => inferInstanceAs (Decidable (_ ≠ _))
  | .relay v _ => inferInstanceAs (Decidable (s.Free T v))
  | .say v frames _ => inferInstanceAs (Decidable (s.Free T v ∧
      ∀ x ∈ frames, x.1 ∈ (s.node v).peers.map Peer.id ∧ (s.node v).Says x.2 = true))

def Step [DecidableEq V] [DecidableEq E] [LinearOrder A] (T : Topology V E)
    (s s' : JoinNet V E A) : Prop :=
  ∃ cmd, s.Allowed T cmd ∧ s' = s.perform T cmd

/-- Nobody has heard of anybody. -/
structure Initial (T : Topology V E) (s : JoinNet V E A) : Prop where
  self : ∀ v, (s.node v).selfNode = T.self v
  peers : ∀ v, (s.node v).peers = []
  hints : ∀ v, (s.node v).hints = []
  membership : ∀ v, (s.node v).membership = .new
  wire : ∀ e, s.wire e = []
  stage : ∀ e, s.stage e = .fresh

end JoinNet

end XchannelNet
