import XchannelNet.Lib.Locks

/-!
# Guards — which locks the threads of a node take, and in which order

Every function that takes a lock, as what it does with locks: which guards are alive
when another lock is taken, and where it waits for the clock, a peer or a client.
Where a guard dies is up to the form it is used in. It does not outlive the condition
of an `if`, the scrutinee of an `if let` that does not match, or a match guard; it does
live through the arms of a `match`, and through a call it was taken for the arguments
of.

What functions do apart from that is left out, and so are the values they choose by.
-/

namespace XchannelNet

open Locks Locks.Prog

inductive NodeLock where
  | dissemination
  | registry
  | hosted
  | subscriptions
  | muxes
  /-- a mux of its own for each topic -/
  | mux (m : ℕ)
  | discovery
  | topicReap
  | memberDeadSince
  | conducted
  | dutyServers
  | dutyClients
  | boundStreamAddr
  | attachBackoff
  | lastLiveOwners
  | dupReported
  | ownerUnreachableSince
  | dialBackoff
  | dialCursorSeeds
  | dialCursorLearned
  | dialCursorTwins
  -- of the dissemination, and shared with its readers
  | connected
  | membership
  | linkPeers
  | dialIdentity
  | selfControl
  | hints
  | conflicts
  | sameIdAddrs
  | inbox
  deriving DecidableEq, Repr

/-- What is waited for. -/
inductive Wait where
  | accept
  | receive
  | connect
  | handshake
  /-- a peer takes a frame of the control plane -/
  | write
  /-- a client takes its reply -/
  | reply
  | sleep
  deriving DecidableEq, Repr

abbrev LockUse := Prog NodeLock Wait

namespace Guards

open NodeLock

/-! ## The dissemination -/

def isConnected : LockUse := touch connected
def linkedNodes : LockUse := touch linkPeers
def nameOf : LockUse := touch membership
def liveAddrOf : LockUse := touch membership
def silentFor : LockUse := touch membership
def liveMembers : LockUse := touch membership
def setSelfControlAddr : LockUse := touch selfControl
def selfControlAddr : LockUse := touch selfControl
def heartbeat : LockUse := touch selfControl
def pump : LockUse := touch inbox

/-- One frame to every peer but one. -/
def sendExcept : LockUse := many (pause .write)

def announce : LockUse := many sendExcept
def relay : LockUse := many sendExcept
def reply : LockUse := many (pause .write)
def announceLeaving : LockUse := sendExcept
def emitHeartbeat : LockUse := seq [heartbeat, sendExcept]
def relayHints : LockUse := seq [touch hints, many sendExcept]
def dedupLinks : LockUse := seq [touch linkPeers, touch conflicts]

/-- The first guard is a temporary of the whole expression. -/
def nodeAt : LockUse := hold membership (maybe (touch dialIdentity))

def sameIdCandidates : LockUse := hold connected (touch sameIdAddrs)
def unconnectedPeers : LockUse := hold connected (touch membership)

def writeJoin : LockUse :=
  attempt [touch membership, many (pause .write), heartbeat, pause .write, touch membership,
    many (pause .write)]

def adopt : LockUse := maybe writeJoin
def addPeer : LockUse := adopt
def addOutboundPeer : LockUse := seq [touch connected, adopt, maybe (touch connected)]

/-- What a reader does with a message. -/
def readMessage : LockUse :=
  oneOf [touch inbox,
    -- a heartbeat under our own id, and under another
    seq [touch selfControl, maybe (touch conflicts)],
    seq [touch linkPeers, maybe (touch dialIdentity), touch membership, maybe (touch hints)],
    -- a hint
    seq [touch selfControl, maybe (touch sameIdAddrs)],
    seq [touch membership, maybe (touch hints)],
    -- a departure
    seq [touch linkPeers, maybe (touch membership)],
    done]

/-- The thread of `spawn_reader`. -/
def spawnReader : LockUse :=
  seq [many (seq [pause .receive, readMessage]), pause .receive, touch linkPeers,
    maybe (touch connected)]

/-! ## The node -/

def registrySnapshot : LockUse := touch registry
def muxOf : LockUse := touch muxes
def muxHandles : LockUse := touch muxes
def attachDue : LockUse := touch attachBackoff
def attachNow : LockUse := touch attachBackoff
def withDiscovery : LockUse := touch discovery
def publishChange : LockUse := withDiscovery
def dialDue : LockUse := touch dialBackoff
def unsubscribe : LockUse := touch subscriptions
def subscriptionSynced : LockUse := touch subscriptions

def changeOf : LockUse := maybe (hold dissemination liveAddrOf)

def disseminateTombstone : LockUse :=
  seq [changeOf, publishChange, hold dissemination announce]

def mergeAndPublish : LockUse := seq [touch registry, maybe (seq [changeOf, publishChange])]
def claimName : LockUse := seq [touch registry, maybe (seq [changeOf, publishChange])]
def announceHosted : LockUse := attempt [hold dissemination announce, touch hosted]
def createOrigin : LockUse := maybe (attempt [claimName, announceHosted])
def createForClient : LockUse := createOrigin
def hostChannel : LockUse := createOrigin

def deregister : LockUse :=
  attempt [touch registry, seq [touch hosted, disseminateTombstone]]

def retireSubscription : LockUse := seq [touch subscriptions, attachNow]

def label : LockUse := hold dissemination nameOf

def unreachableFor : LockUse :=
  attempt [hold dissemination silentFor, touch ownerUnreachableSince]

def forceDeregister : LockUse :=
  attempt [touch registry, hold dissemination liveAddrOf,
    either label (attempt [unreachableFor, touch registry, disseminateTombstone,
      retireSubscription])]

def createTopic : LockUse :=
  attempt [createForClient, seq [touch muxes, maybe (touch topicReap)]]

def publishToTopic : LockUse :=
  attempt [createOrigin, muxOf, seq [touch registry, any fun m => touch (mux m)]]

def bindStream : LockUse := maybe (seq [hold dissemination done, touch boundStreamAddr])
def bindControl : LockUse := maybe (hold dissemination setSelfControlAddr)

/-! ### Subscribing -/

/-- One round of `resolve`. -/
def tryResolve : LockUse :=
  seq [touch registry, maybe (either (touch boundStreamAddr) (hold dissemination liveAddrOf))]

def resolve : LockUse := seq [many (seq [tryResolve, pause .sleep]), tryResolve]

def spawnEstablish : LockUse := seq [maybe attachNow, maybe attachDue]

def subscribeAs : LockUse := attempt [resolve, seq [touch conducted, spawnEstablish]]
def subscribe : LockUse := subscribeAs

/-- The thread of `spawn_establish`. -/
def establish : LockUse :=
  attempt [resolve, pause .connect, pause .handshake, seq [touch attachBackoff, touch dutyClients]]

def serviceSubscriptions : LockUse := seq [touch conducted, many spawnEstablish]

def ensureMemberSubscription : LockUse :=
  attempt [touch subscriptions, subscribeAs, touch subscriptions]

def subscriptionStatus : LockUse :=
  seq [touch hosted, either (touch registry)
    (attempt [touch subscriptions, seq [touch registry, hold dissemination liveMembers]])]

/-! ### Topics -/

def liveOwnersNotingRevivals : LockUse :=
  attempt [touch lastLiveOwners, seq [touch registry, touch attachBackoff]]

/-- The members of one topic. -/
def attachMembersOf (m : ℕ) : LockUse :=
  seq [touch registry,
    many (seq [maybe ensureMemberSubscription, touch (mux m), maybe (touch (mux m))]),
    touch (mux m),
    many (attempt [touch registry, seq [touch (mux m), touch subscriptions]])]

/-- The guard that the live set is read under is a temporary of the call it is passed to. -/
def attachPendingMembers : LockUse :=
  seq [hold dissemination (seq [liveMembers, liveOwnersNotingRevivals]), muxHandles,
    many (any attachMembersOf)]

def reapDeadMembers : LockUse :=
  seq [touch topicReap, many (seq [touch registry,
    many (seq [maybe (hold dissemination liveAddrOf), touch memberDeadSince,
      maybe (attempt [touch memberDeadSince, touch registry, disseminateTombstone])])])]

def pollMuxes : LockUse := seq [muxHandles, many (any fun m => touch (mux m))]

/-- The thread of a promoted topic. Its guard is the scrutinee of a `match`, and it waits
in an arm. -/
def runPromotedMux (m : ℕ) : LockUse :=
  seq [many (seq [muxOf, hold (mux m) (maybe (pause .sleep))]), muxOf]

def runMux : LockUse := many (seq [pollMuxes, maybe (pause .sleep)])

def topicMemberCount : LockUse := attempt [muxOf, any fun m => touch (mux m)]

def topicStatus : LockUse :=
  attempt [muxOf, any fun m => seq [touch (mux m),
    many (seq [touch registry, maybe (hold dissemination liveAddrOf)])]]

def deregisterTopic : LockUse :=
  attempt [touch muxes, any fun m => touch (mux m),
    seq [touch topicReap, touch registry, many (touch subscriptions), touch registry,
      maybe (seq [touch hosted, disseminateTombstone])]]

def reregisterOrigin : LockUse := attempt [touch hosted, claimName, announceHosted]

def rehostTopic : LockUse :=
  attempt [touch muxes, claimName, announceHosted, any fun m => seq [touch muxes,
    many (seq [maybe (attempt [claimName, announceHosted]), many (touch (mux m))])]]

def reconstructFromDisk : LockUse := seq [many rehostTopic, many reregisterOrigin]

/-! ### Peers -/

def serveControl : LockUse :=
  many (seq [pause .accept, hold dissemination (seq [registrySnapshot, addPeer])])

def connectControlPeer : LockUse :=
  attempt [hold dissemination isConnected, pause .connect,
    hold dissemination (seq [registrySnapshot, addOutboundPeer])]

def shouldDial : LockUse :=
  hold dissemination (attempt [isConnected, selfControlAddr, nodeAt, linkedNodes])

def dialPeer : LockUse :=
  attempt [touch dialBackoff, pause .connect,
    hold dissemination (seq [registrySnapshot, addOutboundPeer])]

def dialSome (cursor : NodeLock) : LockUse :=
  maybe (seq [touch cursor, many (attempt [dialDue, shouldDial, dialPeer]), touch cursor])

def connectSeeds : LockUse := dialSome dialCursorSeeds

def connectLearnedPeers : LockUse :=
  seq [hold dissemination (seq [unconnectedPeers, sameIdCandidates]), dialSome dialCursorLearned,
    dialSome dialCursorTwins]

def noteUnreachableOwners : LockUse :=
  seq [touch registry, hold dissemination liveMembers, touch ownerUnreachableSince]

def reportDuplicateIdentity : LockUse := attempt [touch dupReported, touch hosted]

def shutdown : LockUse := hold dissemination announceLeaving

/-! ### Threads -/

/-- The heartbeat comes first. With a duplicate id to report, the guard is dropped before
the report and taken again after. -/
def tickControl : LockUse :=
  either (hold dissemination (seq [emitHeartbeat, relayHints, dedupLinks, pump]))
    (seq [hold dissemination (seq [emitHeartbeat, relayHints, dedupLinks]),
      reportDuplicateIdentity, hold dissemination pump])

/-- What has come in is merged, passed on, and acted upon. -/
def tickMerge : LockUse :=
  maybe (seq [many mergeAndPublish, maybe (hold dissemination (seq [many relay, many reply])),
    many retireSubscription])

def tick : LockUse :=
  seq [tickControl, tickMerge, noteUnreachableOwners, reapDeadMembers, attachPendingMembers,
    connectSeeds, connectLearnedPeers, serviceSubscriptions, pause .sleep]

def runMaintenance : LockUse := many tick

def runDutyCycle : LockUse :=
  many (seq [touch dutyServers, touch dutyClients, pollMuxes, maybe (pause .sleep)])

def listChannels : LockUse := seq [hold dissemination liveMembers, hold registry withDiscovery]

def handleRequest : LockUse :=
  oneOf [createForClient,
    attempt [touch hosted, touch subscriptions, subscribe, touch subscriptions],
    createTopic, publishToTopic, attempt [deregister, retireSubscription], listChannels,
    forceDeregister, subscriptionStatus]

def handleClient : LockUse :=
  seq [many (seq [pause .receive, handleRequest, pause .reply]), pause .receive]

/-- The accepting thread of the stream plane or the client plane. -/
def serve : LockUse := many (pause .accept)

/-- The thread that shakes hands with a subscriber. -/
def acceptSubscription : LockUse :=
  attempt [pause .handshake, touch hosted, pause .handshake, touch dutyServers]

def main : LockUse :=
  attempt [bindStream, bindControl, seq [reconstructFromDisk, pause .sleep, shutdown]]

/-- What a program that the node is part of may call. -/
def calls : List LockUse :=
  [hostChannel, createForClient, deregister, createTopic, publishToTopic, deregisterTopic,
    topicStatus, topicMemberCount, forceDeregister, listChannels, subscribe, unsubscribe,
    subscriptionStatus, subscriptionSynced, connectControlPeer, runMux, attachPendingMembers,
    reapDeadMembers, connectSeeds, connectLearnedPeers, shutdown]

/-- What there are threads for. -/
inductive Thread : LockUse → Prop
  | main : Thread main
  | serve : Thread serve
  | serveControl : Thread serveControl
  | reader : Thread spawnReader
  | client : Thread handleClient
  | subscriber : Thread acceptSubscription
  | maintenance : Thread runMaintenance
  | dutyCycle : Thread runDutyCycle
  | promoted (m : ℕ) : Thread (runPromotedMux m)
  | establish : Thread establish
  | call {p : LockUse} (h : p ∈ calls) : Thread p

/-! ## Order -/

/-- The documented order: the dissemination, then the registry, then the rest; within
the dissemination `connected`, then `membership`, then the rest. -/
def rank : NodeLock → ℕ
  | .dissemination => 0
  | .registry | .connected => 1
  | .membership => 2
  | _ => 3

theorem rank_lt (l : NodeLock) : rank l < 4 := by
  cases l <;> simp [rank]

/-- What may be held over a wait. -/
def allows : Wait → NodeLock → Prop
  | .write, l => l = .dissemination
  | .sleep, l => ∃ m, l = .mux m
  | _, _ => False

section Check

-- what a function does with locks is checked with what it calls
attribute [local simp] isConnected linkedNodes nameOf liveAddrOf silentFor liveMembers
  setSelfControlAddr selfControlAddr heartbeat pump sendExcept announce relay reply
  announceLeaving emitHeartbeat relayHints dedupLinks nodeAt sameIdCandidates unconnectedPeers
  writeJoin adopt addPeer addOutboundPeer readMessage spawnReader registrySnapshot muxOf
  muxHandles attachDue attachNow withDiscovery publishChange dialDue unsubscribe
  subscriptionSynced changeOf disseminateTombstone mergeAndPublish claimName announceHosted
  createOrigin createForClient hostChannel deregister retireSubscription label unreachableFor
  forceDeregister createTopic publishToTopic bindStream bindControl tryResolve resolve
  spawnEstablish subscribeAs subscribe establish serviceSubscriptions ensureMemberSubscription
  subscriptionStatus liveOwnersNotingRevivals attachMembersOf attachPendingMembers reapDeadMembers
  pollMuxes runPromotedMux runMux topicMemberCount topicStatus deregisterTopic reregisterOrigin
  rehostTopic reconstructFromDisk serveControl connectControlPeer shouldDial dialPeer dialSome
  connectSeeds connectLearnedPeers noteUnreachableOwners reportDuplicateIdentity shutdown
  tickControl tickMerge tick runMaintenance runDutyCycle listChannels handleRequest handleClient
  serve acceptSubscription main

theorem ascends_thread {p : LockUse} (h : Thread p) : p.Ascends rank 0 := by
  have hcalls : ∀ p ∈ calls, p.Ascends rank 0 := by simp [calls, Ascends, rank]
  cases h with
  | call h => exact hcalls p h
  | _ => simp [Ascends, rank]

theorem respects_thread {p : LockUse} (h : Thread p) : p.Respects allows [] := by
  have hcalls : ∀ p ∈ calls, p.Respects allows [] := by simp [calls, Respects, allows]
  cases h with
  | call h => exact hcalls p h
  | _ => simp [Respects, allows]

/-- Up to where it attaches members, the maintenance takes no mux. -/
theorem avoids_mux (m : ℕ) :
    ∀ p ∈ [tickControl, tickMerge, noteUnreachableOwners, reapDeadMembers,
      .hold dissemination (.seq [liveMembers, liveOwnersNotingRevivals]), muxHandles,
      .touch registry], p.Avoids (.mux m) := by
  simp [Avoids]

end Check

/-! ## All threads together -/

section Together

variable {s : Threads ℕ NodeLock Wait}

theorem eq_of_allows {w : Wait} {l : NodeLock} (h : allows w l) :
    w = .write ∧ l = .dissemination ∨ w = .sleep ∧ ∃ m, l = .mux m := by
  cases w with
  | write => exact .inl ⟨rfl, h⟩
  | sleep => exact .inr ⟨rfl, h⟩
  | accept => cases h
  | receive => cases h
  | connect => cases h
  | handshake => cases h
  | reply => cases h

/-- What is left of `runPromotedMux` where it sleeps. -/
def promotedAsleep (m : ℕ) : List (Frame NodeLock Wait) :=
  [.run (.pause .sleep), .release (.mux m), .run (.seq []),
    .run (.many (.seq [muxOf, .hold (.mux m) (.maybe (.pause .sleep))])), .run (.seq [muxOf])]

/-- The thread of a promoted topic gets to where it sleeps. -/
theorem promoted_sleeps (m t : ℕ) (hothers : ∀ u, u ≠ t → held (s u) = []) :
    Goes Thread s t [.run (runPromotedMux m)] (promotedAsleep m) := by
  have hmux : ∀ u, u ≠ t → NodeLock.mux m ∉ held (s u) := fun u hu => by simp [hothers u hu]
  have hall : (runPromotedMux m).Ascends rank 0 := ascends_thread (.promoted m)
  let turn : LockUse := .seq [muxOf, .hold (.mux m) (.maybe (.pause .sleep))]
  let rest : List (Frame NodeLock Wait) := [.run (.many turn), .run (.seq [muxOf])]
  have hlook : Goes Thread s t (.run turn :: rest)
      (.run (.seq [.hold (.mux m) (.maybe (.pause .sleep))]) :: rest) := by
    refine goes_first rank ⟨hall.1, hall.1, hall.2, trivial⟩ fun u hu l hl => ?_
    simp [hothers u hu] at hl
  refine (goes_move (.andThen (.many turn) (.seq [muxOf]) [])).trans ?_
  refine (goes_move (.again turn _)).trans (hlook.trans ?_)
  refine (goes_move (.andThen _ _ rest)).trans ?_
  refine (goes_move (.acquire _ _ (free_update ?_ hmux))).trans (goes_move (.right _ _ _))
  simp [rest, held]

/-- Up to the attach pass, nothing the maintenance does needs a mux. -/
theorem maintenance_attaches (m t : ℕ) (hothers : ∀ u, u ≠ t → ∀ l ∈ held (s u), l = .mux m) :
    Goes Thread s t [.run runMaintenance]
      [.run (.seq [attachPendingMembers, connectSeeds, connectLearnedPeers, serviceSubscriptions,
        .pause .sleep]), .run runMaintenance] := by
  have hall : runMaintenance.Ascends rank 0 := ascends_thread .maintenance
  have htick : tick.Ascends rank 0 := hall
  have hrest : Ordered rank [.run runMaintenance] := ⟨hall, trivial⟩
  have hfirst : ∀ p ps, p ∈ [tickControl, tickMerge, noteUnreachableOwners, reapDeadMembers] →
      (Locks.Prog.seq (p :: ps)).Ascends rank 0 →
      Goes Thread s t [.run (.seq (p :: ps)), .run runMaintenance]
        [.run (.seq ps), .run runMaintenance] := by
    intro p ps hp hascends
    refine goes_first rank ⟨hascends, hrest⟩ fun u hu l hl => ?_
    rw [hothers u hu l hl]
    exact avoids_mux m p (List.mem_append_left _ hp)
  refine (goes_move (.again tick [])).trans ?_
  refine (hfirst tickControl _ (by simp) htick).trans ?_
  refine (hfirst tickMerge _ (by simp) htick.2).trans ?_
  refine (hfirst noteUnreachableOwners _ (by simp) htick.2.2).trans ?_
  exact hfirst reapDeadMembers _ (by simp) htick.2.2.2

/-- The maintenance gets to where it looks into a topic's mux. -/
theorem maintenance_looks (m t : ℕ) (hothers : ∀ u, u ≠ t → ∀ l ∈ held (s u), l = .mux m) :
    ∃ k, .run runMaintenance ∈ k ∧
      Goes Thread s t [.run runMaintenance] (.run (.hold (.mux m) .done) :: k) := by
  have havoids : ∀ p ∈ [.hold .dissemination (.seq [liveMembers, liveOwnersNotingRevivals]),
      muxHandles, .touch .registry], ∀ u, u ≠ t → ∀ l ∈ held (s u), p.Avoids l := by
    intro p hp u hu l hl
    rw [hothers u hu l hl]
    exact avoids_mux m p (List.mem_append_right [_, _, _, _] hp)
  have hall : runMaintenance.Ascends rank 0 := ascends_thread .maintenance
  have htick : tick.Ascends rank 0 := hall
  have hattach : attachPendingMembers.Ascends rank 0 := htick.2.2.2.2.1
  let rest : List (Frame NodeLock Wait) :=
    [.run (.seq [connectSeeds, connectLearnedPeers, serviceSubscriptions, .pause .sleep]),
      .run runMaintenance]
  have hrest : Ordered rank rest := ⟨htick.2.2.2.2.2, hall, trivial⟩
  have hlive : Goes Thread s t (.run attachPendingMembers :: rest)
      (.run (.seq [muxHandles, .many (.any attachMembersOf)]) :: rest) :=
    goes_first rank ⟨hattach, hrest⟩ (havoids _ (by simp))
  have hhandles : Goes Thread s t (.run (.seq [muxHandles, .many (.any attachMembersOf)]) :: rest)
      (.run (.seq [.many (.any attachMembersOf)]) :: rest) :=
    goes_first rank ⟨hattach.2, hrest⟩ (havoids _ (by simp))
  -- the pass over the members of the topic, none of which it has to attach
  let topics : List (Frame NodeLock Wait) :=
    .run (.many (.any attachMembersOf)) :: .run (.seq []) :: rest
  have htopics : Ordered rank topics := ⟨hattach.2.2.1, trivial, hrest⟩
  let members : LockUse :=
    .many (.seq [.maybe ensureMemberSubscription, .touch (.mux m), .maybe (.touch (.mux m))])
  let departed : LockUse :=
    .many (.attempt [.touch .registry, .seq [.touch (.mux m), .touch .subscriptions]])
  have hlooks : Goes Thread s t (.run (attachMembersOf m) :: topics)
      (.run (.seq [members, .touch (.mux m), departed]) :: topics) :=
    goes_first rank ⟨hattach.2.2.1 m, htopics⟩ (havoids _ (by simp))
  refine ⟨.run (.seq [departed]) :: topics, by simp [topics, rest], ?_⟩
  refine (maintenance_attaches m t hothers).trans ?_
  refine (goes_move (.andThen attachPendingMembers _ _)).trans (hlive.trans (hhandles.trans ?_))
  refine (goes_move (.andThen (.many (.any attachMembersOf)) (.seq []) rest)).trans ?_
  refine (goes_move (.again (.any attachMembersOf) _)).trans ?_
  refine (goes_move (.any attachMembersOf m topics)).trans (hlooks.trans ?_)
  refine (goes_move (.andThen members _ topics)).trans ((goes_move (.stop _ _)).trans ?_)
  exact goes_move (.andThen (.touch (.mux m)) (.seq [departed]) topics)

/-- A promoted topic's thread sleeps with the mux, and the maintenance waits for it. -/
theorem maintenance_waits (m : ℕ) :
    ∃ s : Threads ℕ NodeLock Wait, Run.Reachable (· = idle) (Step Thread) s ∧
      ∃ t u, s u = promotedAsleep m ∧ held (s u) = [.mux m] ∧ Waits s t u ∧
        .run runMaintenance ∈ s t := by
  have hheld : held (promotedAsleep m) = [.mux m] := rfl
  have hsleeps := promoted_sleeps (s := idle) m 1 fun _ _ => rfl
  let asleep : Threads ℕ NodeLock Wait := Function.update idle 1 (promotedAsleep m)
  have hothers : ∀ u, u ≠ 0 → ∀ l ∈ held (asleep u), l = .mux m := by
    intro u _ l hl
    by_cases hu : u = 1
    · rw [hu, show asleep 1 = promotedAsleep m from Function.update_self ..] at hl
      exact List.mem_singleton.mp (hheld ▸ hl)
    · rw [show asleep u = [] from Function.update_of_ne hu ..] at hl
      cases hl
  obtain ⟨k', hmem, hlooks⟩ := maintenance_looks m 0 hothers
  have hidle : Run.Reachable (· = idle) (Step Thread) (idle : Threads ℕ NodeLock Wait) :=
    .start rfl
  have hasleep : Run.Reachable (· = idle) (Step Thread) asleep :=
    (hidle.next (.start 1 _ rfl (.promoted m))).steps hsleeps
  have hreach := (hasleep.next (.start 0 _ rfl .maintenance)).steps hlooks
  refine ⟨_, hreach, 0, 1, rfl, hheld, ⟨.mux m, ⟨.done, k', rfl⟩, ?_⟩, ?_⟩
  · exact hheld ▸ List.mem_singleton_self _
  · exact List.mem_cons_of_mem _ hmem

/-- **The node does not deadlock.** However its threads are interleaved, they never wait
for each other in a ring, nor one for itself. Whatever a thread waits for can be traced to
one that can move, and unless that is the thread itself, it does not wait for a
connection, a client or a message. -/
theorem no_deadlock (h : Run.Reachable (· = idle) (Step Thread) s) :
    (∀ t, ¬ Relation.TransGen (Waits s) t t) ∧
      ∀ t, s t ≠ [] → ∃ u, Relation.ReflTransGen (Waits s) t u ∧ Ready s u ∧
        (u = t ∨ ∀ w k, s u = .run (.pause w) :: k → w = .write ∨ w = .sleep) := by
  have hdisciplined : Disciplined rank s := disciplined_of_reachable (fun _ => ascends_thread) h
  refine ⟨hdisciplined.no_ring, fun t ht => ?_⟩
  obtain ⟨u, hwaits, hready⟩ := hdisciplined.leads_to_ready rank_lt ht
  refine ⟨u, hwaits, hready, ?_⟩
  cases hwaits with
  | refl => exact .inl rfl
  | tail _ hlast =>
      obtain ⟨l, -, hheld⟩ := hlast
      refine .inr fun w k hs => ?_
      have hallows := allows_of_reachable (fun _ => respects_thread) h hs l hheld
      exact (eq_of_allows hallows).imp And.left And.left

theorem no_deadlock_promoted :
    ∃ s : Threads ℕ NodeLock Wait, ∃ t u, Waits s t u ∧ ¬ Relation.TransGen (Waits s) t t ∧
      ∃ v, Relation.ReflTransGen (Waits s) t v ∧ Ready s v := by
  obtain ⟨s, hreach, t, u, -, -, hwaits, hmem⟩ := maintenance_waits 0
  obtain ⟨hring, hleads⟩ := no_deadlock hreach
  obtain ⟨v, hv, hready, -⟩ := hleads t (List.ne_nil_of_mem hmem)
  exact ⟨s, t, u, hwaits, hring t, v, hv, hready⟩

/-- **What is held over a wait.** A thread that waits for anything but a lock holds nothing,
save for the dissemination while it writes to a peer, and a mux while it sleeps. The
second is the thread of a promoted topic, for every topic: the maintenance, and with it
the heartbeat, then waits for a sleeper. -/
theorem held_over_wait :
    (∀ s : Threads ℕ NodeLock Wait, Run.Reachable (· = idle) (Step Thread) s →
      ∀ t w k l, s t = .run (.pause w) :: k → l ∈ held (s t) →
        w = .write ∧ l = .dissemination ∨ w = .sleep ∧ ∃ m, l = .mux m) ∧
    ∀ m, ∃ s : Threads ℕ NodeLock Wait, Run.Reachable (· = idle) (Step Thread) s ∧
      ∃ t u, s u = promotedAsleep m ∧ held (s u) = [.mux m] ∧ Waits s t u ∧
        .run runMaintenance ∈ s t := by
  refine ⟨fun s hreach t w k l hs hl => ?_, maintenance_waits⟩
  exact eq_of_allows (allows_of_reachable (fun _ => respects_thread) hreach hs l hl)

end Together

end Guards

end XchannelNet
