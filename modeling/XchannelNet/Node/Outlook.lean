import XchannelNet.Membership.Hearsay
import XchannelNet.Registry.Basic

/-!
# Outlook — what a node knows of the others as time goes by

The registry, what the readers keep, and the clock, with every direct contact
there ever was: a heartbeat of another node, or a departure on a link that was
identified with the one that leaves. The map of members keeps the last contact
with each node and forgets none.
-/

namespace XchannelNet

open Wire (ControlMsg)

/-- A node's view. `contacts` are the direct contacts, latest first. -/
structure Outlook (P A : Type) where
  registry : Registry
  dissemination : Dissemination P A
  now : Instant
  contacts : List (Instant × NodeId)

/-- What a node comes to know: time passes, a frame comes on a link, an identity
is merged, from a peer's delta or claimed here, or an own name is given up. -/
inductive News (P A : Type) where
  | elapse (d : Instant)
  | arrive (link : P) (msg : ControlMsg A)
  | merge (id : ChannelIdentity)
  | deregister (n : ChannelName)

namespace Outlook

variable {P A : Type}

def selfNode (o : Outlook P A) : NodeId := o.dissemination.selfNode

/-- Heard from within the liveness timeout. -/
def live (o : Outlook P A) (n : NodeId) : Bool := (o.dissemination.liveAddrOf o.now n).isSome

def silentFor (o : Outlook P A) (n : NodeId) : Option Instant :=
  o.dissemination.silentFor o.now n

/-- Whom a frame is direct evidence of. -/
def contactOf (o : Outlook P A) (link : P) : ControlMsg A → Option NodeId
  | .heartbeat node _ _ _ => if node = o.selfNode then none else some node
  | .leaving node => if o.dissemination.firstHand.identified link = some node then some node
      else none
  | _ => none

variable [DecidableEq P] [DecidableEq A]

def hear (o : Outlook P A) : News P A → Outlook P A
  | .elapse d => { o with now := o.now + d }
  | .arrive link msg =>
    { o with
      dissemination := o.dissemination.arrive ⟨o.now, link, msg⟩
      contacts := ((o.contactOf link msg).map (o.now, ·)).toList ++ o.contacts }
  | .merge id => { o with registry := (o.registry.mergeTracked id).1 }
  | .deregister n => { o with registry := (o.registry.deregister n o.selfNode).1 }

/-- A node that has just started. -/
def Fresh (o : Outlook P A) : Prop := o.dissemination.Fresh ∧ o.contacts = []

/-- The latest of some contacts with a node. -/
def lastOf (contacts : List (Instant × NodeId)) (n : NodeId) : Option Instant :=
  (contacts.find? (·.2 = n)).map Prod.fst

theorem lastOf_cons (t : Instant) (m : NodeId) (contacts : List (Instant × NodeId)) :
    lastOf ((t, m) :: contacts) = Function.update (lastOf contacts) m (some t) := by
  funext n
  by_cases hn : n = m
  · simp [lastOf, hn]
  · simp [lastOf, hn, Ne.symm hn]

/-- The last contact with every node is what the map of members says it is. -/
structure Sound (o : Outlook P A) : Prop where
  dissemination : o.dissemination.Sound
  contact : o.dissemination.firstHand.contact = lastOf o.contacts
  sorted : o.contacts.Pairwise fun x y => y.1 ≤ x.1
  past : ∀ x ∈ o.contacts, x.1 ≤ o.now

namespace Sound

variable {o : Outlook P A}

omit [DecidableEq P] [DecidableEq A]

theorem of_fresh (h : o.Fresh) : o.Sound where
  dissemination := h.1.sound
  contact := by rw [h.1.firstHand, h.2]; rfl
  sorted := h.2 ▸ List.Pairwise.nil
  past := by simp [h.2]

/-- A node whose silence cannot be told was never met. -/
theorem unmet (h : o.Sound) {n : NodeId} (hs : o.silentFor n = none) (t : Instant) :
    (t, n) ∉ o.contacts := by
  intro ht
  rw [silentFor, Dissemination.silentFor_eq, h.contact, Option.map_eq_none_iff, lastOf,
    Option.map_eq_none_iff, List.find?_eq_none] at hs
  exact hs _ ht (by simp)

/-- A node that is silent for so long was met, and never since. -/
theorem silent (h : o.Sound) {n : NodeId} {d : Instant} (hs : o.silentFor n = some d) :
    (∃ t, (t, n) ∈ o.contacts) ∧ ∀ t, (t, n) ∈ o.contacts → t + d ≤ o.now := by
  rw [silentFor, Dissemination.silentFor_eq, h.contact, Option.map_eq_some_iff] at hs
  obtain ⟨t, ht, rfl⟩ := hs
  rw [lastOf, Option.map_eq_some_iff] at ht
  obtain ⟨⟨t, m⟩, hfind, rfl⟩ := ht
  obtain ⟨hm, before, after, hsplit, hbefore⟩ := List.find?_eq_some_iff_append.mp hfind
  obtain rfl : m = n := by simpa using hm
  have hmem : (t, m) ∈ o.contacts := by simp [hsplit]
  have hpast := h.past _ hmem
  refine ⟨⟨t, hmem⟩, fun t' ht' => ?_⟩
  have hle : t' ≤ t := by
    have hsorted := h.sorted
    rw [hsplit] at ht' hsorted
    rw [List.mem_append, List.mem_cons] at ht'
    rcases ht' with hb | hh | ha
    · exact absurd (hbefore _ hb) (by simp)
    · exact (congrArg Prod.fst hh).le
    · exact (List.pairwise_cons.mp (List.pairwise_append.mp hsorted).2.1).1 _ ha
  calc t' + (o.now - t) ≤ t + (o.now - t) := Nat.add_le_add_right hle _
    _ = o.now := Nat.add_sub_of_le hpast

end Sound

theorem contact_arrive {o : Outlook P A} (h : o.dissemination.Sound) (link : P)
    (msg : ControlMsg A) :
    (o.dissemination.arrive ⟨o.now, link, msg⟩).firstHand.contact =
      match o.contactOf link msg with
      | some n => Function.update o.dissemination.firstHand.contact n (some o.now)
      | none => o.dissemination.firstHand.contact := by
  rw [Dissemination.firstHand_arrive h]
  cases msg with
  | heartbeat node addr controlAddr name =>
      rw [FirstHand.step_heartbeat, contactOf, selfNode]
      split <;> rfl
  | leaving node =>
      rw [FirstHand.step_leaving, contactOf]
      split <;> rfl
  | _ => rfl

theorem Sound.hear {o : Outlook P A} (h : o.Sound) (x : News P A) : (o.hear x).Sound := by
  cases x with
  | elapse d =>
      exact ⟨h.dissemination, h.contact, h.sorted,
        fun x hx => (h.past x hx).trans (Nat.le_add_right _ d)⟩
  | merge id => exact ⟨h.dissemination, h.contact, h.sorted, h.past⟩
  | deregister n => exact ⟨h.dissemination, h.contact, h.sorted, h.past⟩
  | arrive link msg =>
      have hcontact := contact_arrive h.dissemination link msg
      cases hm : o.contactOf link msg with
      | none =>
          have hhear : o.hear (.arrive link msg) =
              { o with dissemination := o.dissemination.arrive ⟨o.now, link, msg⟩ } := by
            simp [Outlook.hear, hm]
          rw [hm] at hcontact
          rw [hhear]
          exact ⟨h.dissemination.arrive _, hcontact.trans h.contact, h.sorted, h.past⟩
      | some m =>
          have hhear : o.hear (.arrive link msg) =
              { o with dissemination := o.dissemination.arrive ⟨o.now, link, msg⟩,
                       contacts := (o.now, m) :: o.contacts } := by
            simp [Outlook.hear, hm]
          rw [hm, h.contact] at hcontact
          rw [hhear]
          refine ⟨h.dissemination.arrive _, hcontact.trans (lastOf_cons ..).symm,
            List.pairwise_cons.mpr ⟨h.past, h.sorted⟩, ?_⟩
          intro x hx
          rcases List.mem_cons.mp hx with rfl | hx
          · exact Nat.le_refl _
          · exact h.past x hx

theorem selfNode_hear (o : Outlook P A) (x : News P A) : (o.hear x).selfNode = o.selfNode := by
  cases x with
  | arrive link msg => exact (Dissemination.selfNode_arrive _ _).1
  | _ => rfl

theorem now_le_hear (o : Outlook P A) (x : News P A) : o.now ≤ (o.hear x).now := by
  cases x with
  | elapse d => exact Nat.le_add_right _ d
  | _ => exact Nat.le_refl _

theorem contacts_subset_hear (o : Outlook P A) (x : News P A) :
    o.contacts ⊆ (o.hear x).contacts := by
  cases x with
  | arrive link msg => exact List.subset_append_right _ _
  | _ => exact List.Subset.refl _

theorem keyAt_le_hear (o : Outlook P A) (x : News P A) (n : ChannelName) :
    o.registry.keyAt n ≤ (o.hear x).registry.keyAt n := by
  cases x with
  | merge id => exact Registry.keyAt_le_mergeTracked _ _ n
  | deregister m => exact Registry.keyAt_le_deregister _ _ _ n
  | _ => exact le_rfl

end Outlook

end XchannelNet
