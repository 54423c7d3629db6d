import XchannelNet.Lib.Rotation
import XchannelNet.Membership.Links

/-!
# Dialing — who is dialled in a tick

A tick dials a few of the addresses it could dial. It walks round the list from
a cursor, dials the first that are due and not linked, and moves the cursor by
the number of its dials. Who is due or linked is seen when the walk gets there:
every dial changes it, and so do the readers of all links and the clock.

An address that is left out has seen the whole budget spent between the cursor
and itself, so the cursor comes closer by the budget every time.
-/

namespace XchannelNet

/-! ## Backoff -/

/-- The first gap between two dials of an address, in milliseconds. -/
def DIAL_BACKOFF_MIN : Instant := 1000

def DIAL_BACKOFF_MAX : Instant := 60000

/-- The last dial of an address, and when the next one may be. -/
structure DialPenalty where
  attemptedAt : Instant
  next : Instant
  gap : Instant
  deriving DecidableEq, Repr

/-- The penalty of a dial: twice the last gap, if that dial was not long ago. -/
def DialPenalty.charge (now : Instant) (last : Option DialPenalty) : DialPenalty :=
  let gap :=
    match last with
    | some p => if now - p.attemptedAt < DIAL_BACKOFF_MAX * 2 then min (p.gap * 2) DIAL_BACKOFF_MAX
      else DIAL_BACKOFF_MIN
    | none => DIAL_BACKOFF_MIN
  ⟨now, now + gap, gap⟩

/-! ## Links -/

/-- The node that is reached at a control address. If several say they are, the
code takes any of them; this is the least. -/
def MembershipMap.nodeAt {A : Type} [DecidableEq A] (m : MembershipMap A) (control : A) :
    Option NodeId :=
  (m.members.toList.find? fun x => x.2.controlAddr = control).map Prod.fst

namespace Dissemination

variable {P A : Type}

def nodeAt [DecidableEq A] (d : Dissemination P A) (addr : A) : Option NodeId :=
  (d.membership.nodeAt addr).or (d.dialIdentity addr)

/-- The nodes we hold a link to. -/
def linkedNodes (d : Dissemination P A) : List NodeId :=
  d.peers.filterMap fun p => (d.linkPeers p.id).map Prod.fst

end Dissemination

/-- What dialling looks at: the clock, the links, the addresses that outbound
links were dialled at, and the penalties. -/
structure Dialler (P A : Type) where
  now : Instant
  dissemination : Dissemination P A
  connected : Finset A
  dialBackoff : A → Option DialPenalty

/-- What comes of a dial: no connection, a join that fails, or a link. -/
inductive DialOutcome (P A : Type) where
  | refused
  | lost
  | linked (id : P) (here there : A)

/-- One call of `dial_some`: what it starts from, what else happens before it
looks at the `i`-th address, and what comes of dialling that. -/
structure DialCall (P A : Type) where
  start : Dialler P A
  meanwhile : ℕ → Dialler P A → Dialler P A
  outcome : ℕ → DialOutcome P A

namespace Dialler

variable {P A : Type} [LinearOrder A]

def shouldDial (s : Dialler P A) (addr : A) : Bool :=
  if addr ∈ s.connected then false
  else if addr = s.dissemination.selfControlAddr then false
  else
    match s.dissemination.nodeAt addr with
    | some node => node ∉ s.dissemination.linkedNodes
    | none => true

def dialDue (s : Dialler P A) (addr : A) : Bool :=
  match s.dialBackoff addr with
  | none => true
  | some p => p.next ≤ s.now

/-- Dial an address. The attempt is charged, whatever comes of it. -/
def dialPeer (s : Dialler P A) (addr : A) (outcome : DialOutcome P A) : Dialler P A :=
  let s := { s with
    dialBackoff := Function.update s.dialBackoff addr
      (some (DialPenalty.charge s.now (s.dialBackoff addr))) }
  match outcome with
  | .refused => s
  | .lost => { s with connected := s.connected.erase addr }
  | .linked id here there =>
    { s with
      connected := insert addr s.connected
      dissemination := s.dissemination.adopt id here there true }

/-- Whether an address is dialled when the walk gets to it. -/
def eligible (unspecified : A → Bool) (s : Dialler P A) (addr : A) : Bool :=
  !unspecified addr && s.dialDue addr && s.shouldDial addr

end Dialler

/-! ## The walk -/

section Walk

variable {P A : Type} [LinearOrder A] (unspecified : A → Bool)

/-- Walk the places that are left. The result is the number of dials, the
addresses dialled, and the state after them. -/
def dialLoop (place : ℕ → A) (budget : ℕ) (c : DialCall P A) :
    List ℕ → ℕ → Dialler P A → ℕ × List A × Dialler P A
  | [], spent, s => (spent, [], s)
  | i :: is, spent, s =>
    if spent = budget then (spent, [], s)
    else
      let s := c.meanwhile i s
      if s.eligible unspecified (place i) then
        let (spent', dialled, s') :=
          dialLoop place budget c is (spent + 1) (s.dialPeer (place i) (c.outcome i))
        (spent', place i :: dialled, s')
      else dialLoop place budget c is spent s

/-- The address `i` places on from the cursor, going round. -/
def placeFrom (candidates : List A) (h : 0 < candidates.length) (cursor i : ℕ) : A :=
  candidates.get ⟨(cursor % candidates.length + i) % candidates.length, Nat.mod_lt _ h⟩

/-- Dial at most `budget` of the candidates. The result is where the cursor is
left, the addresses dialled, and the state after them. -/
def dialSome (candidates : List A) (cursor budget : ℕ) (c : DialCall P A) :
    ℕ × List A × Dialler P A :=
  if h : 0 < candidates.length then
    let (spent, dialled, s) := dialLoop unspecified (placeFrom candidates h cursor) budget c
      (List.range candidates.length) 0 c.start
    (cursor % candidates.length + spent, dialled, s)
  else (cursor, [], c.start)

/-- The cursor before each of consecutive calls for one list. -/
def dialCursor (candidates : List A) (budget : ℕ) (calls : ℕ → DialCall P A) (cursor : ℕ) : ℕ → ℕ
  | 0 => cursor
  | k + 1 => (dialSome unspecified candidates (dialCursor candidates budget calls cursor k) budget
      (calls k)).1

/-- The state in which a walk that no budget ends looks at the `i`-th place. -/
def DialCall.sees (place : ℕ → A) (c : DialCall P A) : ℕ → Dialler P A
  | 0 => c.meanwhile 0 c.start
  | i + 1 =>
    let s := c.sees place i
    c.meanwhile (i + 1) (if s.eligible unspecified (place i) then
      s.dialPeer (place i) (c.outcome i) else s)

/-- Whether the `i`-th place is eligible when the walk gets to it. -/
def DialCall.admits (place : ℕ → A) (c : DialCall P A) (i : ℕ) : Bool :=
  (c.sees unspecified place i).eligible unspecified (place i)

/-- By induction over the places that are left: the walk is in step with one
that no budget ends, until the budget is spent. -/
theorem dialLoop_eq (place : ℕ → A) {budget : ℕ} (c : DialCall P A) (len : ℕ) {i spent : ℕ}
    {s : Dialler P A} (hspent : spent ≤ budget)
    (hs : c.meanwhile i s = c.sees unspecified place i) :
    (dialLoop unspecified place budget c (List.range' i len) spent s).2.1 =
        (((List.range' i len).filter (c.admits unspecified place)).take (budget - spent)).map
          place ∧
      (dialLoop unspecified place budget c (List.range' i len) spent s).1 = spent +
        (dialLoop unspecified place budget c (List.range' i len) spent s).2.1.length := by
  induction len generalizing i spent s with
  | zero => simp [dialLoop]
  | succ len ih =>
      rw [List.range'_succ, dialLoop]
      split
      · rename_i hend
        simp [hend]
      · rename_i hmore
        rw [hs]
        have hnext : c.meanwhile (i + 1) (if (c.sees unspecified place i).eligible unspecified
            (place i) then (c.sees unspecified place i).dialPeer (place i) (c.outcome i)
            else c.sees unspecified place i) = c.sees unspecified place (i + 1) := rfl
        by_cases hok : (c.sees unspecified place i).eligible unspecified (place i) = true
        · have hadmits : c.admits unspecified place i = true := hok
          rw [if_pos hok] at hnext
          obtain ⟨hdialled, hcount⟩ := @ih (i + 1) (spent + 1) _ (by omega) hnext
          have hleft : budget - spent = budget - (spent + 1) + 1 := by omega
          simp only [if_pos hok]
          rw [hcount, hdialled, List.filter_cons_of_pos hadmits, hleft, List.take_succ_cons,
            List.map_cons, List.length_cons]
          exact ⟨rfl, by omega⟩
        · have hadmits : ¬ c.admits unspecified place i = true := hok
          rw [if_neg hok] at hnext
          simp only [if_neg hok]
          rw [List.filter_cons_of_neg hadmits]
          exact ih hspent hnext

/-- The first that are eligible are dialled, and the cursor moves by their
number. -/
theorem dialSome_eq {candidates : List A} (h : 0 < candidates.length) (cursor budget : ℕ)
    (c : DialCall P A) :
    (dialSome unspecified candidates cursor budget c).2.1 =
        (((List.range candidates.length).filter
          (c.admits unspecified (placeFrom candidates h cursor))).take budget).map
            (placeFrom candidates h cursor) ∧
      (dialSome unspecified candidates cursor budget c).1 = cursor % candidates.length +
        (dialSome unspecified candidates cursor budget c).2.1.length := by
  have hloop := dialLoop_eq unspecified (placeFrom candidates h cursor) c candidates.length
    (Nat.zero_le budget) (i := 0) (s := c.start) rfl
  rw [← List.range_eq_range', Nat.sub_zero, Nat.zero_add] at hloop
  rw [dialSome, dif_pos h]
  exact ⟨hloop.1, congrArg _ hloop.2⟩

/-- The walk gets to the `i`-th place before its budget is spent. -/
def DialCall.Reaches (place : ℕ → A) (budget : ℕ) (c : DialCall P A)
    (i : ℕ) : Prop :=
  ((List.range i).filter (c.admits unspecified place)).length < budget

omit [LinearOrder A] in
theorem placeFrom_eq {candidates : List A} {cursor i j : ℕ} (hj : j < candidates.length)
    (hi : (cursor % candidates.length + i) % candidates.length = j) :
    placeFrom candidates (Nat.zero_lt_of_lt hj) cursor i = candidates[j] := by
  subst hi
  rfl

/-- A call that leaves out a candidate it would have dialled has spent its
budget before it. -/
theorem spent_of_not_dialled {candidates : List A} {j : ℕ} (hj : j < candidates.length)
    {cursor budget : ℕ} {c : DialCall P A}
    (hok : c.Reaches unspecified (placeFrom candidates (Nat.zero_lt_of_lt hj) cursor) budget
        (Rotation.ahead candidates.length cursor j) →
      c.admits unspecified (placeFrom candidates (Nat.zero_lt_of_lt hj) cursor)
        (Rotation.ahead candidates.length cursor j) = true)
    (hnot : candidates[j] ∉ (dialSome unspecified candidates cursor budget c).2.1) :
    budget ≤ Rotation.ahead candidates.length cursor j ∧
      (dialSome unspecified candidates cursor budget c).1 =
        cursor % candidates.length + budget := by
  have hpos := Nat.zero_lt_of_lt hj
  obtain ⟨hdialled, hcursor⟩ := dialSome_eq unspecified hpos cursor budget c
  have hlt := Rotation.ahead_lt hpos cursor j
  have hspent : ¬ c.Reaches unspecified (placeFrom candidates hpos cursor) budget
      (Rotation.ahead candidates.length cursor j) := by
    intro hreach
    have hmem := Rotation.mem_take_filter_range hlt (hok hreach) hreach
    refine hnot ?_
    rw [hdialled, ← placeFrom_eq hj (Rotation.add_ahead_mod hj cursor)]
    exact List.mem_map_of_mem hmem
  have hbefore := List.length_filter_le (c.admits unspecified (placeFrom candidates hpos cursor))
    (List.range (Rotation.ahead candidates.length cursor j))
  have hall := Rotation.length_filter_range_le
    (p := c.admits unspecified (placeFrom candidates hpos cursor)) hlt.le
  rw [DialCall.Reaches, not_lt] at hspent
  rw [List.length_range] at hbefore
  refine ⟨hspent.trans hbefore, ?_⟩
  rw [hcursor, hdialled, List.length_map, List.length_take, min_eq_left (hspent.trans hall)]

/-- **Nobody is starved.** A call dials the first eligible candidates, as many
as its budget allows, in the order of the walk. Over calls for one list, a
candidate that is eligible whenever the walk gets to it is dialled within
`⌈n / budget⌉` of them, whatever becomes of the others. -/
theorem dialSome_starves_nobody (candidates : List A) {budget : ℕ} (hb : 1 ≤ budget) :
    (∀ (h : 0 < candidates.length) (cursor : ℕ) (c : DialCall P A),
      (dialSome unspecified candidates cursor budget c).2.1 =
        (((List.range candidates.length).filter
          (c.admits unspecified (placeFrom candidates h cursor))).take budget).map
            (placeFrom candidates h cursor)) ∧
    (candidates = [] → ∀ (cursor : ℕ) (c : DialCall P A),
      dialSome unspecified candidates cursor budget c = (cursor, [], c.start)) ∧
    ∀ (j : ℕ) (hj : j < candidates.length) (cursor : ℕ) (calls : ℕ → DialCall P A),
      let before := dialCursor unspecified candidates budget calls cursor
      let dialled := fun k => (dialSome unspecified candidates (before k) budget (calls k)).2.1
      let place := fun k => placeFrom candidates (Nat.zero_lt_of_lt hj) (before k)
      (∀ k, (∀ k' ≤ k, candidates[j] ∉ dialled k') →
        ∀ i < candidates.length, (before k % candidates.length + i) % candidates.length = j →
          (calls k).Reaches unspecified (place k) budget i →
            (calls k).admits unspecified (place k) i = true) →
      ∃ k < (candidates.length + budget - 1) / budget, candidates[j] ∈ dialled k := by
  refine ⟨fun h cursor c => (dialSome_eq unspecified h cursor budget c).1, ?_, ?_⟩
  · rintro rfl cursor c
    rfl
  intro j hj cursor calls before dialled place hok
  refine Rotation.served_within hj hb before fun k hnot => ?_
  refine spent_of_not_dialled unspecified hj ?_ (hnot k (Nat.le_refl k))
  exact hok k hnot _ (Rotation.ahead_lt (Nat.zero_lt_of_lt hj) _ _)
    (Rotation.add_ahead_mod hj _)

end Walk

/-- A node without links or penalties. -/
def freshDialler : Dialler ℕ ℕ := ⟨0, .new 1 5 100 fun _ => none, ∅, fun _ => none⟩

/-- Of three addresses, two are dialled at a time, and each is forgotten before
the next is looked at: the third is dialled in the second call. -/
theorem dialSome_starves_nobody_third :
    let calls : ℕ → DialCall ℕ ℕ :=
      fun _ => ⟨freshDialler, fun _ _ => freshDialler, fun _ => .refused⟩
    let before := dialCursor (· = 0) [10, 11, 12] 2 calls 0
    (dialSome (· = 0) [10, 11, 12] (before 0) 2 (calls 0)).2.1 = [10, 11] ∧
      ∃ k < 2, 12 ∈ (dialSome (· = 0) [10, 11, 12] (before k) 2 (calls k)).2.1 := by
  intro calls before
  refine ⟨by decide +kernel, ?_⟩
  refine (dialSome_starves_nobody (· = 0) [10, 11, 12] (show 1 ≤ 2 by decide)).2.2 2 (by decide) 0
    calls ?_
  intro k _ i _ hi _
  have hsees : (calls k).sees (· = 0) (placeFrom [10, 11, 12] (by decide) (before k)) i =
      freshDialler := by
    cases i <;> rfl
  have hplace : placeFrom [10, 11, 12] (by decide) (before k) i = 12 :=
    placeFrom_eq (by decide) hi
  show Dialler.eligible _ ((calls k).sees (· = 0) (placeFrom [10, 11, 12] _ (before k)) i)
    (placeFrom [10, 11, 12] _ (before k) i) = true
  rw [hsees, hplace]
  decide +kernel

end XchannelNet
