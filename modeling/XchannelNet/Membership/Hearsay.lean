import XchannelNet.Membership.Reader

/-!
# Hearsay — a hint changes nobody's liveness

What a node knows at first hand is who is on each link and the two instants of
every node, as heartbeats and departures alone say them. The code's state,
looked at that way, moves by a step of its own that ignores hints. So hints
can be deleted from any sequence of arrivals, and whatever is asked about
liveness or silence is answered the same.
-/

namespace XchannelNet

/-- What a node knows at first hand. -/
@[ext] structure FirstHand (P : Type) where
  identified : P → Option NodeId
  seen : NodeId → Option Instant
  contact : NodeId → Option Instant

namespace Arrival

variable {P A : Type}

/-- The node whose heartbeat this is. -/
def heartbeatOf (a : Arrival P A) : Option NodeId :=
  match a.msg with
  | .heartbeat node _ _ _ => some node
  | _ => none

/-- The node whose departure this is. -/
def leavingOf (a : Arrival P A) : Option NodeId :=
  match a.msg with
  | .leaving node => some node
  | _ => none

/-- The node whose addresses this tells, at first hand or by hearsay. -/
def about (a : Arrival P A) : Option NodeId :=
  match a.msg with
  | .heartbeat node _ _ _ => some node
  | .peerHint node _ _ _ => some node
  | _ => none

def isHint (a : Arrival P A) : Bool :=
  match a.msg with
  | .peerHint _ _ _ _ => true
  | _ => false

theorem heartbeatOf_of_leavingOf {a : Arrival P A} {n : NodeId} (h : a.leavingOf = some n) :
    a.heartbeatOf = none := by
  obtain ⟨time, link, msg⟩ := a
  cases msg <;> first | rfl | cases h

theorem about_of_heartbeatOf {a : Arrival P A} {n : NodeId} (h : a.heartbeatOf = some n) :
    a.about = some n := by
  obtain ⟨time, link, msg⟩ := a
  cases msg <;> first | exact h | cases h

end Arrival

namespace FirstHand

variable {P A : Type} [DecidableEq P]

/-- A heartbeat of `n`. -/
def hear (f : FirstHand P) (link : P) (now : Instant) (n : NodeId) : FirstHand P where
  identified := Function.update f.identified link (some n)
  seen := Function.update f.seen n (some now)
  contact := Function.update f.contact n (some now)

omit [DecidableEq P] in
/-- The departure of `n`. -/
def part (f : FirstHand P) (now : Instant) (n : NodeId) : FirstHand P where
  identified := f.identified
  seen := Function.update f.seen n none
  contact := Function.update f.contact n (some now)

omit [DecidableEq P] in
/-- A departure that is believed: on the link the leaving node was last
identified on. -/
def Accepts (f : FirstHand P) (a : Arrival P A) (n : NodeId) : Prop :=
  a.leavingOf = some n ∧ f.identified a.link = some n

/-- One arrival at a node whose own id is `self`. -/
def step (self : NodeId) (f : FirstHand P) (a : Arrival P A) : FirstHand P :=
  match a.msg with
  | .heartbeat node _ _ _ => if node = self then f else f.hear a.link a.time node
  | .leaving node => if f.identified a.link = some node then f.part a.time node else f
  | _ => f

theorem step_heartbeat (self : NodeId) (f : FirstHand P) (time : Instant) (link : P)
    (node : NodeId) (addr controlAddr : A) (name : String) :
    f.step self ⟨time, link, .heartbeat node addr controlAddr name⟩ =
      if node = self then f else f.hear link time node := rfl

theorem step_leaving (self : NodeId) (f : FirstHand P) (time : Instant) (link : P)
    (node : NodeId) :
    f.step self (⟨time, link, .leaving node⟩ : Arrival P A) =
      if f.identified link = some node then f.part time node else f := rfl

/-- What an arrival can do. -/
theorem step_cases (self : NodeId) (f : FirstHand P) (a : Arrival P A) :
    (∃ n, a.heartbeatOf = some n ∧ n ≠ self ∧ f.step self a = f.hear a.link a.time n) ∨
    (∃ n, f.Accepts a n ∧ f.step self a = f.part a.time n) ∨
    ((∀ n, a.heartbeatOf = some n → n = self) ∧ (∀ n, ¬ f.Accepts a n) ∧ f.step self a = f) := by
  obtain ⟨time, link, msg⟩ := a
  cases msg with
  | heartbeat node addr controlAddr name =>
      by_cases hself : node = self
      · refine .inr (.inr ⟨?_, by simp [Accepts, Arrival.leavingOf], if_pos hself⟩)
        rintro n ⟨⟩
        exact hself
      · exact .inl ⟨node, rfl, hself, if_neg hself⟩
  | leaving node =>
      by_cases hid : f.identified link = some node
      · exact .inr (.inl ⟨node, ⟨rfl, hid⟩, if_pos hid⟩)
      · refine .inr (.inr ⟨by simp [Arrival.heartbeatOf], ?_, if_neg hid⟩)
        rintro n ⟨⟨⟩, hn⟩
        exact hid hn
  | _ =>
      exact .inr (.inr ⟨by simp [Arrival.heartbeatOf], by simp [Accepts, Arrival.leavingOf], rfl⟩)

theorem step_of_isHint {self : NodeId} {f : FirstHand P} {a : Arrival P A} (h : a.isHint = true) :
    f.step self a = f := by
  obtain ⟨time, link, msg⟩ := a
  cases msg <;> first | rfl | cases h

/-! ### Who was never heard -/

/-- Nothing was ever heard of `n`. -/
structure Unheard (f : FirstHand P) (n : NodeId) : Prop where
  identified : ∀ link, f.identified link ≠ some n
  seen : f.seen n = none
  contact : f.contact n = none

theorem Unheard.step {self n : NodeId} {f : FirstHand P} {a : Arrival P A} (h : f.Unheard n)
    (ha : a.heartbeatOf ≠ some n) : (f.step self a).Unheard n := by
  rcases step_cases self f a with ⟨m, hm, -, hs⟩ | ⟨m, hm, hs⟩ | ⟨-, -, hs⟩
  · have hne : n ≠ m := fun hnm => ha (hnm ▸ hm)
    rw [hs]
    refine ⟨fun link => ?_, ?_, ?_⟩
    · by_cases hl : link = a.link
      · simpa [hear, hl] using hne.symm
      · simpa [hear, hl] using h.identified link
    · simpa [hear, hne] using h.seen
    · simpa [hear, hne] using h.contact
  · have hne : n ≠ m := fun hnm => h.identified _ (hnm ▸ hm.2)
    rw [hs]
    exact ⟨h.identified, by simpa [part, hne] using h.seen, by simpa [part, hne] using h.contact⟩
  · rwa [hs]

theorem Unheard.run {self n : NodeId} {f : FirstHand P} {es : List (Arrival P A)}
    (h : f.Unheard n) (hes : ∀ a ∈ es, a.heartbeatOf ≠ some n) :
    (Trace.run (FirstHand.step self) f es).Unheard n := by
  induction es generalizing f with
  | nil => exact h
  | cons a es ih =>
      exact ih (h.step (hes a List.mem_cons_self)) fun b hb => hes b (List.mem_cons_of_mem a hb)

/-! ### Where liveness comes from -/

/-- Of a node live after an arrival: this was its heartbeat, or it was live
before and this is no departure of its own. -/
theorem seen_step {self n : NodeId} {f : FirstHand P} {a : Arrival P A} {t : Instant}
    (h : (f.step self a).seen n = some t) :
    a.heartbeatOf = some n ∧ a.time = t ∨ f.seen n = some t ∧ ¬ f.Accepts a n := by
  rcases step_cases self f a with ⟨m, hm, -, hs⟩ | ⟨m, hm, hs⟩ | ⟨-, hno, hs⟩
  · rw [hs] at h
    by_cases hnm : n = m
    · subst hnm
      exact .inl ⟨hm, by simpa [hear] using h⟩
    · refine .inr ⟨by simpa [hear, hnm] using h, ?_⟩
      rintro ⟨hleave, -⟩
      rw [Arrival.heartbeatOf_of_leavingOf hleave] at hm
      cases hm
  · rw [hs] at h
    by_cases hnm : n = m
    · subst hnm
      simp [part] at h
    · refine .inr ⟨by simpa [part, hnm] using h, ?_⟩
      rintro ⟨hleave, -⟩
      exact hnm (Option.some.inj (hleave.symm.trans hm.1))
  · exact .inr ⟨by rwa [hs] at h, hno n⟩

/-- A live node was heard at the instant it is credited with, and no departure
of its own was believed since. -/
theorem heard_of_seen {self n : NodeId} {f : FirstHand P} (hf : f.seen n = none)
    {es : List (Arrival P A)} {t : Instant}
    (h : (Trace.run (FirstHand.step self) f es).seen n = some t) :
    ∃ before a after, es = before ++ a :: after ∧ a.heartbeatOf = some n ∧ a.time = t ∧
      ∀ mid l rest, after = mid ++ l :: rest →
        ¬ (Trace.run (FirstHand.step self) f (before ++ a :: mid)).Accepts l n := by
  -- from the end: the last arrival was the heartbeat, or left the node live
  induction es using List.reverseRecOn with
  | nil => simp [hf] at h
  | append_singleton es a ih =>
      rw [Trace.run_append] at h
      rcases seen_step h with ⟨ha, ht⟩ | ⟨hseen, hno⟩
      · refine ⟨es, a, [], rfl, ha, ht, ?_⟩
        rintro mid l rest hnil
        simp at hnil
      · obtain ⟨before, b, after, rfl, hb, ht, hafter⟩ := ih hseen
        refine ⟨before, b, after ++ [a], by simp, hb, ht, ?_⟩
        intro mid l rest hsplit
        rcases List.eq_nil_or_concat rest with rfl | ⟨rest, x, rfl⟩
        · obtain ⟨rfl, hal⟩ := List.append_inj' hsplit rfl
          cases hal
          exact hno
        · rw [List.concat_eq_append, ← List.cons_append, ← List.append_assoc] at hsplit
          exact hafter mid l rest (List.append_inj' hsplit rfl).1

/-! ### Who is on a link -/

/-- The node an arrival identifies `link` with: nobody, if the id is our own. -/
def identifies (self : NodeId) (link : P) (a : Arrival P A) : Option NodeId :=
  if a.link = link then a.heartbeatOf.filter (· ≠ self) else none

/-- The node `link` was last identified with. -/
def lastIdentified (self : NodeId) (link : P) (es : List (Arrival P A)) : Option NodeId :=
  (es.filterMap (identifies self link)).getLast?

theorem of_identifies {self n : NodeId} {link : P} {a : Arrival P A}
    (h : identifies self link a = some n) : a.heartbeatOf = some n ∧ n ≠ self := by
  rw [identifies] at h
  split at h
  · simpa [Option.filter_eq_some_iff] using h
  · cases h

theorem identified_step (self : NodeId) (f : FirstHand P) (a : Arrival P A) (link : P) :
    (f.step self a).identified link = (identifies self link a).or (f.identified link) := by
  rcases step_cases self f a with ⟨m, hm, hne, hs⟩ | ⟨m, hm, hs⟩ | ⟨hown, -, hs⟩
  · rw [hs]
    by_cases hl : link = a.link
    · simp [hear, identifies, hl, hm, hne, Option.filter]
    · simp [hear, identifies, hl, Ne.symm hl]
  · rw [hs]
    simp [part, identifies, Arrival.heartbeatOf_of_leavingOf hm.1]
  · rw [hs]
    have hnone : a.heartbeatOf.filter (· ≠ self) = none := by
      rw [Option.filter_eq_none_iff]
      intro n hn
      simpa using hown n hn
    rw [identifies, hnone, ite_self, Option.none_or]

theorem identified_run {self : NodeId} {f : FirstHand P} {link : P}
    (hf : f.identified link = none) (es : List (Arrival P A)) :
    (Trace.run (FirstHand.step self) f es).identified link = lastIdentified self link es := by
  induction es using List.reverseRecOn with
  | nil => exact hf
  | append_singleton es a ih =>
      rw [Trace.run_append, Trace.run_cons, Trace.run_nil, identified_step, ih, lastIdentified,
        lastIdentified, List.filterMap_append, List.getLast?_append]
      cases ha : identifies self link a with
      | none => simp [ha]
      | some n => simp [ha]

end FirstHand

/-! ## The code's state, at first hand -/

namespace Dissemination

variable {P A : Type}

/-- What the state says at first hand. -/
def firstHand (d : Dissemination P A) : FirstHand P where
  identified := fun link => (d.linkPeers link).map Prod.fst
  seen := d.membership.seen
  contact := d.membership.contact

/-- Whoever is on a link is in the map, and the node itself is not. -/
structure Sound (d : Dissemination P A) : Prop where
  known : ∀ link n, d.firstHand.identified link = some n → (d.membership.get n).isSome
  own : d.membership.get d.selfNode = none

variable [DecidableEq P] [DecidableEq A] {d : Dissemination P A}

theorem firstHand_recordHeartbeat (d : Dissemination P A) (now : Instant) (id : P) (h : Hint A) :
    (d.recordHeartbeat now id h).firstHand = d.firstHand.hear id now h.node := by
  apply FirstHand.ext
  · funext link
    by_cases hl : link = id <;> simp [firstHand, FirstHand.hear, recordHeartbeat, hl]
  · exact MembershipMap.seen_record ..
  · exact MembershipMap.contact_record ..

omit [DecidableEq P] in
theorem firstHand_learnHint (d : Dissemination P A) (id : P) (h : Hint A) :
    (d.learnHint id h).firstHand = d.firstHand :=
  FirstHand.ext rfl (MembershipMap.seen_learn ..) (MembershipMap.contact_learn ..)

/-- A frame under the node's own id changes no first-hand knowledge. -/
theorem firstHand_receive_self (d : Dissemination P A) (now : Instant) (id : P)
    (addr controlAddr : A) (name : String) :
    (d.receive now id (.heartbeat d.selfNode addr controlAddr name)).firstHand = d.firstHand := by
  simp only [receive, if_pos]
  split <;> rfl

/-- **Simulation**: the state moves, at first hand, by heartbeats and
departures only. -/
theorem firstHand_arrive (hd : d.Sound) (a : Arrival P A) :
    (d.arrive a).firstHand = d.firstHand.step d.selfNode a := by
  obtain ⟨time, link, msg⟩ := a
  cases msg with
  | heartbeat node addr controlAddr name =>
      rw [FirstHand.step_heartbeat, arrive]
      split
      · rename_i hself
        subst hself
        exact firstHand_receive_self ..
      · rename_i hself
        rw [receive_heartbeat hself]
        exact firstHand_recordHeartbeat ..
  | peerHint node addr controlAddr name =>
      rw [FirstHand.step_of_isHint rfl]
      simp only [arrive, receive]
      split
      · split <;> rfl
      · exact firstHand_learnHint ..
  | leaving node =>
      rw [FirstHand.step_leaving, arrive]
      split
      · rename_i hid
        rw [receive_leaving hid]
        exact FirstHand.ext rfl (MembershipMap.seen_retire ..)
          (MembershipMap.contact_retire (hd.known link node hid) time)
      · rename_i hid
        rw [receive_leaving_of_ne hid]
  | _ => rfl

/-! ### The map holds whom a frame was about, the node itself apart -/

/-- What no arrival changes. -/
theorem selfNode_arrive (d : Dissemination P A) (a : Arrival P A) :
    (d.arrive a).selfNode = d.selfNode ∧ (d.arrive a).livenessTimeout = d.livenessTimeout := by
  obtain ⟨time, link, msg⟩ := a
  cases msg <;> simp only [arrive, receive, recordHeartbeat, learnHint, and_self]
  all_goals repeat' split
  all_goals exact ⟨rfl, rfl⟩

/-- A frame about the node itself leaves the map alone. -/
theorem membership_arrive_self {d : Dissemination P A} {a : Arrival P A}
    (h : a.about = some d.selfNode) : (d.arrive a).membership = d.membership := by
  obtain ⟨time, link, msg⟩ := a
  cases msg with
  | heartbeat node addr controlAddr name =>
      cases h
      simp only [arrive, receive, if_pos]
      split <;> rfl
  | peerHint node addr controlAddr name =>
      cases h
      simp only [arrive, receive, if_pos]
      split <;> rfl
  | _ => cases h

omit [DecidableEq A] in
/-- A map with one entry put in. -/
theorem isSome_get_of_put {m m' : MembershipMap A} {node n : NodeId} {x : Member A}
    (h : m'.get n = if node = n then some x else m.get n) :
    (m'.get n).isSome ↔ (m.get n).isSome ∨ node = n := by
  rw [h]
  split <;> simp [*]

theorem isSome_get_arrive (d : Dissemination P A) (a : Arrival P A) (n : NodeId) :
    ((d.arrive a).membership.get n).isSome ↔
      (d.membership.get n).isSome ∨ n ≠ d.selfNode ∧ a.about = some n := by
  by_cases hself : a.about = some d.selfNode
  · rw [membership_arrive_self hself, hself, Option.some_inj]
    exact ⟨.inl, Or.rec id fun h => absurd h.2.symm h.1⟩
  · -- what is about another node is put in, and a departure puts nothing in
    have hput {node : NodeId} (hne : node ≠ d.selfNode) :
        node = n ↔ n ≠ d.selfNode ∧ some node = some n :=
      ⟨fun h => ⟨h ▸ hne, congrArg some h⟩, fun h => Option.some.inj h.2⟩
    obtain ⟨time, link, msg⟩ := a
    cases msg with
    | heartbeat node addr controlAddr name =>
        have hne : node ≠ d.selfNode := fun h => hself (congrArg some h)
        rw [arrive, receive_heartbeat hne]
        exact (isSome_get_of_put (MembershipMap.get_record ..)).trans (or_congr_right (hput hne))
    | peerHint node addr controlAddr name =>
        have hne : node ≠ d.selfNode := fun h => hself (congrArg some h)
        rw [arrive, receive_peerHint hne]
        exact (isSome_get_of_put (MembershipMap.get_learn ..)).trans (or_congr_right (hput hne))
    | leaving node =>
        simp only [arrive, receive]
        split
        · simp only [MembershipMap.get_retire]
          split <;> simp [Arrival.about]
        · simp [Arrival.about]
    | _ => simp [arrive, receive, Arrival.about]

/-- Every arrival keeps the map sound. -/
theorem Sound.arrive (hd : d.Sound) (a : Arrival P A) : (d.arrive a).Sound := by
  refine ⟨fun link n hid => ?_, ?_⟩
  · rw [isSome_get_arrive]
    rw [firstHand_arrive hd, FirstHand.identified_step, Option.or_eq_some_iff] at hid
    rcases hid with hid | ⟨-, hid⟩
    · obtain ⟨hbeat, hne⟩ := FirstHand.of_identifies hid
      exact .inr ⟨hne, Arrival.about_of_heartbeatOf hbeat⟩
    · exact .inl (hd.known link n hid)
  · rw [(selfNode_arrive d a).1]
    rw [← Option.not_isSome_iff_eq_none, isSome_get_arrive, hd.own]
    simp

/-- A node that has not yet heard anything. -/
def Fresh (d : Dissemination P A) : Prop :=
  d.membership = .new ∧ d.linkPeers = fun _ => none

omit [DecidableEq P] [DecidableEq A] in
theorem Fresh.sound (h : d.Fresh) : d.Sound := by
  refine ⟨fun link n hid => ?_, ?_⟩
  · simp [firstHand, h.2] at hid
  · rw [h.1, MembershipMap.get_new]

/-! ## Whole runs -/

/-- A sound state of the node that `d` is the start of. -/
structure SoundFrom (d x : Dissemination P A) : Prop where
  sound : x.Sound
  selfNode : x.selfNode = d.selfNode
  livenessTimeout : x.livenessTimeout = d.livenessTimeout

theorem SoundFrom.arrive {x : Dissemination P A} (hx : d.SoundFrom x) (a : Arrival P A) :
    d.SoundFrom (x.arrive a) := by
  obtain ⟨hself, htimeout⟩ := selfNode_arrive x a
  exact ⟨hx.sound.arrive a, hself.trans hx.selfNode, htimeout.trans hx.livenessTimeout⟩

theorem Sound.arrivals (hd : d.Sound) (es : List (Arrival P A)) :
    d.SoundFrom (d.arrivals es) :=
  Trace.run_invariant (fun _ a hx => hx.arrive a) ⟨hd, rfl, rfl⟩ es

/-- **Simulation**, of a whole run. -/
theorem firstHand_arrivals (hd : d.Sound) (es : List (Arrival P A)) :
    (d.arrivals es).firstHand = Trace.run (FirstHand.step d.selfNode) d.firstHand es := by
  refine Trace.view_run (I := d.SoundFrom) (fun _ a hx => hx.arrive a) (fun x a hx => ?_)
    ⟨hd, rfl, rfl⟩ es
  rw [firstHand_arrive hx.sound, hx.selfNode]

/-- **Hints are not first-hand**: a run without them knows the same. -/
theorem firstHand_without_hints (hd : d.Sound) (es : List (Arrival P A)) :
    (d.arrivals (es.filter fun a => !a.isHint)).firstHand = (d.arrivals es).firstHand := by
  rw [firstHand_arrivals hd, firstHand_arrivals hd]
  refine Trace.run_filter (fun f a ha => FirstHand.step_of_isHint ?_) d.firstHand es
  simpa using ha

/-! ### The questions asked, at first hand -/

omit [DecidableEq P] [DecidableEq A] in
theorem mem_liveMembers {x : Dissemination P A} {now : Instant} {n : NodeId} :
    n ∈ x.liveMembers now ↔
      ∃ t, x.firstHand.seen n = some t ∧ now ≤ t + x.livenessTimeout :=
  MembershipMap.mem_liveMembers

omit [DecidableEq P] [DecidableEq A] in
theorem isSome_liveAddrOf {x : Dissemination P A} {now : Instant} {n : NodeId} :
    (x.liveAddrOf now n).isSome ↔ n ∈ x.liveMembers now :=
  MembershipMap.isSome_liveAddrOf.trans mem_liveMembers.symm

omit [DecidableEq P] [DecidableEq A] in
theorem silentFor_eq (x : Dissemination P A) (now : Instant) (n : NodeId) :
    x.silentFor now n = (x.firstHand.contact n).map fun t => now - t := rfl

omit [DecidableEq P] [DecidableEq A] in
theorem Fresh.firstHand (h : d.Fresh) :
    d.firstHand = ⟨fun _ => none, fun _ => none, fun _ => none⟩ := by
  apply FirstHand.ext <;> funext x <;>
    simp [Dissemination.firstHand, h.1, h.2, MembershipMap.seen, MembershipMap.contact]

/-- A departure touches the entry of one node: the one it names, which was
last identified on that link. -/
theorem leaving_touches {x : Dissemination P A} {l : Arrival P A} {m : NodeId}
    (hl : l.leavingOf = some m) :
    ∃ map, x.arrive l = { x with membership := map } ∧
      ∀ n, map.get n ≠ x.membership.get n →
        n = m ∧ x.firstHand.identified l.link = some n := by
  obtain ⟨time, link, msg⟩ := l
  cases msg with
  | leaving node =>
      cases hl
      by_cases hid : x.firstHand.identified link = some m
      · refine ⟨_, receive_leaving hid time, fun n hn => ?_⟩
        rw [MembershipMap.get_retire] at hn
        split at hn
        · rename_i hm
          exact ⟨hm.symm, hm ▸ hid⟩
        · exact absurd rfl hn
      · exact ⟨x.membership, receive_leaving_of_ne hid time, fun n hn => absurd rfl hn⟩
  | _ => cases hl

/-- A node no heartbeat came from is not heard of. -/
theorem Fresh.unheard (h : d.Fresh) {es : List (Arrival P A)} {n : NodeId}
    (hn : ∀ a ∈ es, a.heartbeatOf ≠ some n) : (d.arrivals es).firstHand.Unheard n := by
  rw [firstHand_arrivals h.sound]
  refine FirstHand.Unheard.run ?_ hn
  rw [h.firstHand]
  exact ⟨fun _ => nofun, rfl, rfl⟩

/-- A live node sent a heartbeat within the timeout, and no departure of its
own was believed since. -/
theorem Fresh.heard_of_live (h : d.Fresh) {es : List (Arrival P A)} {n : NodeId} {now : Instant}
    (hn : n ∈ (d.arrivals es).liveMembers now) :
    ∃ before a after, es = before ++ a :: after ∧
      a.heartbeatOf = some n ∧ now ≤ a.time + d.livenessTimeout ∧
      ∀ mid l rest, after = mid ++ l :: rest →
        ¬ (d.arrivals (before ++ a :: mid)).firstHand.Accepts l n := by
  obtain ⟨t, ht, hnow⟩ := mem_liveMembers.mp hn
  rw [firstHand_arrivals h.sound] at ht
  obtain ⟨before, a, after, hes, ha, rfl, hafter⟩ :=
    FirstHand.heard_of_seen (by rw [h.firstHand]) ht
  rw [(h.sound.arrivals es).livenessTimeout] at hnow
  refine ⟨before, a, after, hes, ha, hnow, fun mid l rest hsplit => ?_⟩
  rw [firstHand_arrivals h.sound]
  exact hafter mid l rest hsplit

/-- **Hearsay changes nobody's liveness.** Deleting the hints from a sequence
of arrivals changes no answer about liveness or silence; a node known by hints
only is neither live nor silent for any time; a live node was heard directly
within the timeout, and no departure of its own was believed since; a
departure touches only the node last identified on its link; and the node
itself is never in its own map. -/
theorem hearsay_changes_no_liveness (h : d.Fresh) (es : List (Arrival P A)) :
    let told := d.arrivals es
    let untold := d.arrivals (es.filter fun a => !a.isHint)
    (∀ n now, (n ∈ told.liveMembers now ↔ n ∈ untold.liveMembers now) ∧
      ((told.liveAddrOf now n).isSome ↔ (untold.liveAddrOf now n).isSome) ∧
      told.silentFor now n = untold.silentFor now n) ∧
    (∀ n, (∀ a ∈ es, a.heartbeatOf ≠ some n) → ∀ now,
      n ∉ told.liveMembers now ∧ told.silentFor now n = none) ∧
    (∀ n now, n ∈ told.liveMembers now → ∃ before a after, es = before ++ a :: after ∧
      a.heartbeatOf = some n ∧ now ≤ a.time + d.livenessTimeout ∧
      ∀ mid l rest, after = mid ++ l :: rest →
        ¬ (d.arrivals (before ++ a :: mid)).firstHand.Accepts l n) ∧
    (∀ l m, l.leavingOf = some m → ∃ map, told.arrive l = { told with membership := map } ∧
      ∀ n, map.get n ≠ told.membership.get n →
        n = m ∧ FirstHand.lastIdentified d.selfNode l.link es = some n) ∧
    told.membership.get d.selfNode = none := by
  intro told untold
  have hd := h.sound
  have htold := hd.arrivals es
  have huntold := hd.arrivals (es.filter fun a => !a.isHint)
  have hsame : untold.firstHand = told.firstHand := firstHand_without_hints hd es
  have hlive (n : NodeId) (now : Instant) :
      n ∈ told.liveMembers now ↔ n ∈ untold.liveMembers now := by
    rw [mem_liveMembers, mem_liveMembers, hsame, htold.livenessTimeout, huntold.livenessTimeout]
  refine ⟨fun n now => ⟨hlive n now, ?_, ?_⟩, fun n hn now => ?_,
    fun n now hn => h.heard_of_live hn, fun l m hl => ?_, ?_⟩
  · rw [isSome_liveAddrOf, isSome_liveAddrOf, hlive]
  · rw [silentFor_eq, silentFor_eq, hsame]
  · have hun : told.firstHand.Unheard n := h.unheard hn
    rw [mem_liveMembers, silentFor_eq, hun.seen, hun.contact]
    exact ⟨by simp, rfl⟩
  · obtain ⟨map, harrive, hmap⟩ := leaving_touches (x := told) hl
    refine ⟨map, harrive, fun n hn => ?_⟩
    obtain ⟨hnm, hid⟩ := hmap n hn
    rw [firstHand_arrivals hd, FirstHand.identified_run (by rw [h.firstHand])] at hid
    exact ⟨hnm, hid⟩
  · rw [← htold.selfNode]
    exact htold.sound.own

/-- A node heard directly stays live when hints move it, and a node only
hinted at is not live. -/
theorem live_despite_hints :
    let d : Dissemination (Fin 2) ℕ := .new 0 10 100 fun _ => none
    let es : List (Arrival (Fin 2) ℕ) := [⟨5, 0, .heartbeat 1 11 12 "one"⟩,
      ⟨6, 1, .peerHint 1 21 22 "one"⟩, ⟨7, 1, .peerHint 2 31 32 "two"⟩]
    d.Fresh ∧ 1 ∈ (d.arrivals es).liveMembers 8 ∧
      1 ∈ (d.arrivals (es.filter fun a => !a.isHint)).liveMembers 8 ∧
      2 ∉ (d.arrivals es).liveMembers 8 ∧ (d.arrivals es).silentFor 8 2 = none := by
  intro d es
  have hfresh : d.Fresh := ⟨rfl, rfl⟩
  have hlive : 1 ∈ (d.arrivals es).liveMembers 8 := by decide +kernel
  have hall := hearsay_changes_no_liveness hfresh es
  have htwo : ∀ a ∈ es, a.heartbeatOf ≠ some 2 := by decide +kernel
  exact ⟨hfresh, hlive, (hall.1 1 8).1.mp hlive, hall.2.1 2 htwo 8⟩

end Dissemination

end XchannelNet
