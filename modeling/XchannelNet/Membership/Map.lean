import Mathlib
import XchannelNet.Identity

/-!
# Membership — who is where, and when they were last heard

The map from nodes to their addresses, with two instants each: when the node
was last heard from directly (`lastSeen`, cleared by its own notice that it
leaves) and when there was last direct evidence of it at all (`lastContact`,
never cleared). Hearsay (`learn`) moves addresses and touches neither.
-/

namespace XchannelNet

/-- An instant, and a span between two. -/
abbrev Instant := ℕ

structure Member (A : Type) where
  addr : A
  controlAddr : A
  name : String
  lastSeen : Option Instant
  lastContact : Option Instant
  deriving DecidableEq, Repr

/-- Heard from within `timeout`. -/
def Member.liveAt {A : Type} (m : Member A) (now timeout : Instant) : Bool :=
  m.lastSeen.any fun t => now - t ≤ timeout

/-- Known peers and where to reach them. -/
@[ext] structure MembershipMap (A : Type) where
  members : Std.ExtTreeMap NodeId (Member A)
  deriving DecidableEq

namespace MembershipMap

variable {A : Type}

/-- The empty map. -/
def new : MembershipMap A := ⟨∅⟩

def get (m : MembershipMap A) (node : NodeId) : Option (Member A) := m.members[node]?

section Writing

variable [DecidableEq A]

/-- Whether `addr` and `controlAddr` say something new about `node`. -/
def novel (m : MembershipMap A) (node : NodeId) (addr controlAddr : A) : Bool :=
  match m.get node with
  | none => true
  | some old => old.addr ≠ addr || old.controlAddr ≠ controlAddr

/-- A peer heard from directly: its addresses and its liveness. Whether this
said anything new. -/
def record (m : MembershipMap A) (now : Instant) (node : NodeId) (addr controlAddr : A)
    (name : String) : MembershipMap A × Bool :=
  (⟨m.members.insert node ⟨addr, controlAddr, name, some now, some now⟩⟩,
    m.novel node addr controlAddr)

/-- A peer we were told about: where it is, and nothing about its liveness. -/
def learn (m : MembershipMap A) (node : NodeId) (addr controlAddr : A) (name : String) :
    MembershipMap A × Bool :=
  match m.get node with
  | some old =>
    (⟨m.members.insert node { old with addr, controlAddr, name }⟩, m.novel node addr controlAddr)
  | none => (⟨m.members.insert node ⟨addr, controlAddr, name, none, none⟩⟩, true)

end Writing

/-- A peer that said it was leaving: not live, and still known. Whether it
was live before. -/
def retire (m : MembershipMap A) (now : Instant) (node : NodeId) : MembershipMap A × Bool :=
  match m.get node with
  | some old =>
    (⟨m.members.insert node { old with lastContact := some now, lastSeen := none }⟩,
      old.lastSeen.isSome)
  | none => (m, false)

def liveAddrOf (m : MembershipMap A) (now : Instant) (node : NodeId) (timeout : Instant) :
    Option A :=
  ((m.get node).filter fun x => x.liveAt now timeout).map Member.addr

/-- How long since there was direct evidence of `node`, if there ever was. -/
def silentFor (m : MembershipMap A) (now : Instant) (node : NodeId) : Option Instant :=
  ((m.get node).bind Member.lastContact).map fun t => now - t

/-- Nodes heard from within `timeout`. -/
def liveMembers (m : MembershipMap A) (now timeout : Instant) : List NodeId :=
  (m.members.toList.filter fun x => x.2.liveAt now timeout).map Prod.fst

/-! ## What each operation leaves -/

/-- When `node` was last heard from, unless it has left. -/
def seen (m : MembershipMap A) (node : NodeId) : Option Instant :=
  (m.get node).bind Member.lastSeen

/-- When there was last direct evidence of `node`. -/
def contact (m : MembershipMap A) (node : NodeId) : Option Instant :=
  (m.get node).bind Member.lastContact

theorem get_insert (m : MembershipMap A) (node n : NodeId) (x : Member A) :
    (⟨m.members.insert node x⟩ : MembershipMap A).get n =
      if node = n then some x else m.get n := by
  simp only [get, Std.ExtTreeMap.getElem?_insert, Std.LawfulEqCmp.compare_eq_iff_eq]

@[simp] theorem get_new (n : NodeId) : (new : MembershipMap A).get n = none := by
  simp [get, new]

theorem get_retire (m : MembershipMap A) (now : Instant) (node n : NodeId) :
    (m.retire now node).1.get n =
      if node = n then (m.get n).map fun x => { x with lastContact := some now, lastSeen := none }
      else m.get n := by
  by_cases hn : node = n
  · subst hn
    rw [if_pos rfl]
    cases hm : m.get node with
    | none => simp [retire, hm]
    | some old => simp [retire, hm, get_insert]
  · rw [if_neg hn]
    cases hm : m.get node with
    | none => simp [retire, hm]
    | some old => simp [retire, hm, get_insert, hn]

@[simp] theorem seen_retire (m : MembershipMap A) (now : Instant) (node : NodeId) :
    (m.retire now node).1.seen = Function.update m.seen node none := by
  funext n
  by_cases hn : n = node
  · simp [seen, get_retire, hn]
  · simp [seen, get_retire, hn, Ne.symm hn]

/-- A departure of a node that is known. -/
theorem contact_retire {m : MembershipMap A} {node : NodeId} (h : (m.get node).isSome)
    (now : Instant) :
    (m.retire now node).1.contact = Function.update m.contact node (some now) := by
  obtain ⟨x, hx⟩ := Option.isSome_iff_exists.mp h
  funext n
  by_cases hn : n = node
  · simp [contact, get_retire, hn, hx]
  · simp [contact, get_retire, hn, Ne.symm hn]

/-- Liveness is a question about `seen` alone. -/
theorem mem_liveMembers {m : MembershipMap A} {now timeout : Instant} {n : NodeId} :
    n ∈ m.liveMembers now timeout ↔ ∃ t, m.seen n = some t ∧ now ≤ t + timeout := by
  simp only [liveMembers, List.mem_map, List.mem_filter, Prod.exists, seen, get,
    Option.bind_eq_some_iff, Member.liveAt, Option.any_eq_true]
  constructor
  · rintro ⟨n', x, ⟨hx, t, ht, hlive⟩, rfl⟩
    rw [Std.ExtTreeMap.mem_toList_iff_getElem?_eq_some] at hx
    exact ⟨t, ⟨x, hx, ht⟩, by simpa [Nat.add_comm] using hlive⟩
  · rintro ⟨t, ⟨x, hx, ht⟩, hlive⟩
    rw [← Std.ExtTreeMap.mem_toList_iff_getElem?_eq_some] at hx
    exact ⟨n, x, ⟨hx, t, ht, by simpa [Nat.add_comm] using hlive⟩, rfl⟩

theorem isSome_liveAddrOf {m : MembershipMap A} {now timeout : Instant} {n : NodeId} :
    (m.liveAddrOf now n timeout).isSome ↔ ∃ t, m.seen n = some t ∧ now ≤ t + timeout := by
  cases hm : m.get n with
  | none => simp [liveAddrOf, seen, hm]
  | some x =>
      cases hx : x.lastSeen with
      | none => simp [liveAddrOf, seen, hm, hx, Member.liveAt, Option.filter]
      | some t => simp [liveAddrOf, seen, hm, hx, Member.liveAt, Option.filter, Nat.add_comm]

theorem silentFor_eq (m : MembershipMap A) (now : Instant) (n : NodeId) :
    m.silentFor now n = (m.contact n).map fun t => now - t := rfl

section Writing

variable [DecidableEq A]

theorem get_record (m : MembershipMap A) (now : Instant) (node n : NodeId) (addr controlAddr : A)
    (name : String) : (m.record now node addr controlAddr name).1.get n =
      if node = n then some ⟨addr, controlAddr, name, some now, some now⟩ else m.get n :=
  get_insert m node n _

theorem get_learn (m : MembershipMap A) (node n : NodeId) (addr controlAddr : A)
    (name : String) : (m.learn node addr controlAddr name).1.get n =
      if node = n then some ⟨addr, controlAddr, name, m.seen n, m.contact n⟩ else m.get n := by
  by_cases hn : node = n
  · subst hn
    cases hm : m.get node with
    | none => simp [learn, hm, get_insert, seen, contact]
    | some old => simp [learn, hm, get_insert, seen, contact]
  · cases hm : m.get node with
    | none => simp [learn, hm, get_insert, hn]
    | some old => simp [learn, hm, get_insert, hn]

/-- Hearsay leaves both instants of every node alone. -/
@[simp] theorem seen_learn (m : MembershipMap A) (node : NodeId) (addr controlAddr : A)
    (name : String) : (m.learn node addr controlAddr name).1.seen = m.seen := by
  funext n
  rw [seen, get_learn]
  split <;> rfl

@[simp] theorem contact_learn (m : MembershipMap A) (node : NodeId) (addr controlAddr : A)
    (name : String) : (m.learn node addr controlAddr name).1.contact = m.contact := by
  funext n
  rw [contact, get_learn]
  split <;> rfl

@[simp] theorem seen_record (m : MembershipMap A) (now : Instant) (node : NodeId)
    (addr controlAddr : A) (name : String) :
    (m.record now node addr controlAddr name).1.seen = Function.update m.seen node (some now) := by
  funext n
  by_cases hn : n = node
  · simp [seen, get_record, hn]
  · simp [seen, get_record, hn, Ne.symm hn]

@[simp] theorem contact_record (m : MembershipMap A) (now : Instant) (node : NodeId)
    (addr controlAddr : A) (name : String) :
    (m.record now node addr controlAddr name).1.contact =
      Function.update m.contact node (some now) := by
  funext n
  by_cases hn : n = node
  · simp [contact, get_record, hn]
  · simp [contact, get_record, hn, Ne.symm hn]

/-- Afterwards what `learn` was told is what is held of `node`. -/
theorem novel_learn (m : MembershipMap A) (node n : NodeId)
    (addr controlAddr addr' controlAddr' : A) (name : String) :
    (m.learn node addr controlAddr name).1.novel n addr' controlAddr' =
      if node = n then (decide (addr ≠ addr') || decide (controlAddr ≠ controlAddr'))
      else m.novel n addr' controlAddr' := by
  by_cases hn : node = n
  · rw [novel, get_learn, if_pos hn, if_pos hn]
  · rw [novel, get_learn, if_neg hn, if_neg hn, novel]

/-- What is not new leaves what is new as it was. -/
theorem novel_learn_of_not_novel {m : MembershipMap A} {node : NodeId} {addr controlAddr : A}
    (h : m.novel node addr controlAddr = false) (name : String) (n : NodeId)
    (addr' controlAddr' : A) :
    (m.learn node addr controlAddr name).1.novel n addr' controlAddr' =
      m.novel n addr' controlAddr' := by
  rw [novel_learn]
  split
  · rename_i hn
    subst hn
    cases hm : m.get node with
    | none => simp [novel, hm] at h
    | some old =>
        simp only [novel, hm, Bool.or_eq_false_iff, decide_eq_false_iff_not, not_not] at h
        simp [novel, hm, h.1, h.2]
  · rfl

/-- What a hint says is new exactly if the addresses were not the ones held. -/
theorem learn_snd (m : MembershipMap A) (node : NodeId) (addr controlAddr : A) (name : String) :
    (m.learn node addr controlAddr name).2 = m.novel node addr controlAddr := by
  cases hm : m.get node with
  | none => simp [learn, novel, hm]
  | some old => simp [learn, hm]

end Writing

end MembershipMap

end XchannelNet
