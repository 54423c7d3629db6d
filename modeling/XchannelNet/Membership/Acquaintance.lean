import XchannelNet.Membership.Introduction

/-!
# Acquaintance — whoever is connected has heard of each other

Whatever a node knows, for every link it has introduced itself on one of three
things holds: the far end knows it too, a frame that tells it is on the wire, or
it waits to be relayed and did not come on that link. Only the last is lost when
hints are relayed, and then a frame is written. So where nothing is on its way
the two ends of a link know the same nodes, and with them all nodes that links
lead to.

No node makes anything up: all that is held, queued or written about a node is
what some process with that id says of itself.
-/

namespace XchannelNet

open Gossip (Topology)
open Wire (ControlMsg)

namespace JoinNet

variable {V E A : Type}

/-! ## What is on its way to whom -/

/-- `v` has heard of a node `n`. -/
def Known (s : JoinNet V E A) (v : V) (n : NodeId) : Prop :=
  ((s.node v).membership.entry n).isSome

/-- So it has, or is one itself. -/
def Knows (s : JoinNet V E A) (v : V) (n : NodeId) : Prop :=
  n = (s.node v).selfNode ∨ s.Known v n

/-- A frame about `n` is on its way from `e`. -/
def OnWire (s : JoinNet V E A) (e : E) (n : NodeId) : Prop :=
  ∃ m ∈ s.wire e, ∃ h, m.told = some h ∧ h.node = n

/-- Word of `n` waits for the next relay, and `e` will get it. -/
def Waits (s : JoinNet V E A) (v : V) (e : E) (n : NodeId) : Prop :=
  ∃ source h, (source, h) ∈ (s.node v).hints ∧ source ≠ e ∧ h.node = n

/-- What some process says of itself. -/
def Advertised (s : JoinNet V E A) (h : Hint A) : Prop := ∃ v, (s.node v).advert = h

structure Inv (T : Topology V E) (s : JoinNet V E A) : Prop where
  self : ∀ v, (s.node v).selfNode = T.self v
  hosted : ∀ v, ∀ p ∈ (s.node v).peers, T.host p.id = v
  listed : ∀ e, s.stage e = .peer → ∃ p ∈ (s.node (T.host e)).peers, p.id = e
  held : ∀ v n h, (s.node v).membership.entry n = some h →
    n ≠ (s.node v).selfNode ∧ s.Advertised h
  queued : ∀ v, ∀ x ∈ (s.node v).hints, s.Known v x.2.node ∧ s.Advertised x.2
  told : ∀ e, ∀ m ∈ s.wire e, ∀ h, m.told = some h →
    s.Knows (T.host e) h.node ∧ s.Advertised h
  greeted : ∀ e, (s.stage e).hasGreeted = true →
    s.Knows (T.host (T.opp e)) (s.node (T.host e)).selfNode ∨
      s.OnWire e (s.node (T.host e)).selfNode
  introduced : ∀ e, (s.stage e).hasIntroduced = true → ∀ n, s.Known (T.host e) n →
    s.Knows (T.host (T.opp e)) n ∨ s.OnWire e n ∨ s.Waits (T.host e) e n

theorem inv_initial {T : Topology V E} {s : JoinNet V E A} (h : s.Initial T) : s.Inv T where
  self := h.self
  hosted v p hp := by simp [h.peers] at hp
  listed e he := by simp [h.stage] at he
  held v n x hx := by simp [h.membership] at hx
  queued v x hx := by simp [h.hints] at hx
  told e m hm := by simp [h.wire] at hm
  greeted e he := by simp [h.stage, JoinStage.hasGreeted] at he
  introduced e he := by simp [h.stage, JoinStage.hasIntroduced] at he

section Steps

variable {T : Topology V E} {s s' : JoinNet V E A}

/-- What every step but a delivery does: the nodes know what they knew, and more
is written on the wires, of which nothing is made up. Hints stay, or all of them
go to every link but the one each came on. A link that becomes greeted or
introduced gets what that takes. -/
structure Writes (T : Topology V E) (s s' : JoinNet V E A) (more : E → List (ControlMsg A)) :
    Prop where
  advert : ∀ v, (s'.node v).advert = (s.node v).advert
  entry : ∀ v, (s'.node v).membership.entry = (s.node v).membership.entry
  wire : ∀ e, s'.wire e = s.wire e ++ more e
  told : ∀ e, ∀ m ∈ more e, ∀ h, m.told = some h →
    s.Knows (T.host e) h.node ∧ s.Advertised h
  hosted : ∀ v, ∀ p ∈ (s'.node v).peers, T.host p.id = v
  listed : ∀ e, s'.stage e = .peer → ∃ p ∈ (s'.node (T.host e)).peers, p.id = e
  hints : ∀ v, (s'.node v).hints = (s.node v).hints ∨ (s'.node v).hints = [] ∧
    ∀ e, T.host e = v → (s'.stage e).hasIntroduced = true →
      ∀ x ∈ (s.node v).hints, x.1 ≠ e → x.2.frame ∈ more e
  greeted : ∀ e, (s'.stage e).hasGreeted = true → (s.stage e).hasGreeted = true ∨
    (s.node (T.host e)).heartbeat ∈ more e
  introduced : ∀ e, (s'.stage e).hasIntroduced = true → (s.stage e).hasIntroduced = true ∨
    ∀ n h, (s.node (T.host e)).membership.entry n = some h → h.frame ∈ more e

namespace Writes

variable {more : E → List (ControlMsg A)}

theorem selfNode (hw : Writes T s s' more) (v : V) :
    (s'.node v).selfNode = (s.node v).selfNode :=
  congrArg Hint.node (hw.advert v)

theorem known_iff (hw : Writes T s s' more) {v : V} {n : NodeId} :
    s'.Known v n ↔ s.Known v n := by
  rw [Known, Known, hw.entry]

theorem knows_iff (hw : Writes T s s' more) {v : V} {n : NodeId} :
    s'.Knows v n ↔ s.Knows v n := by
  rw [Knows, Knows, hw.known_iff, hw.selfNode]

theorem advertised_iff (hw : Writes T s s' more) {h : Hint A} :
    s'.Advertised h ↔ s.Advertised h := by
  simp only [Advertised, hw.advert]

theorem onWire (hw : Writes T s s' more) {e : E} {n : NodeId} (h : s.OnWire e n) :
    s'.OnWire e n := by
  obtain ⟨m, hm, hn⟩ := h
  refine ⟨m, ?_, hn⟩
  rw [hw.wire]
  exact List.mem_append_left _ hm

theorem onWire_of_mem (hw : Writes T s s' more) {e : E} {m : ControlMsg A} {h : Hint A}
    (hm : m ∈ more e) (hh : m.told = some h) : s'.OnWire e h.node := by
  refine ⟨m, ?_, h, hh, rfl⟩
  rw [hw.wire]
  exact List.mem_append_right _ hm

end Writes

/-- Writing keeps the invariant. -/
theorem Inv.writes {more : E → List (ControlMsg A)} (hi : s.Inv T) (hw : Writes T s s' more) :
    s'.Inv T where
  self v := by rw [hw.selfNode, hi.self]
  hosted := hw.hosted
  listed := hw.listed
  held v n h hh := by
    rw [hw.entry] at hh
    rw [hw.selfNode, hw.advertised_iff]
    exact hi.held v n h hh
  queued v x hx := by
    rw [hw.known_iff, hw.advertised_iff]
    rcases hw.hints v with hsame | ⟨hnone, -⟩
    · rw [hsame] at hx
      exact hi.queued v x hx
    · rw [hnone] at hx
      cases hx
  told e m hm h hh := by
    rw [hw.knows_iff, hw.advertised_iff]
    rw [hw.wire] at hm
    rcases List.mem_append.mp hm with hm | hm
    · exact hi.told e m hm h hh
    · exact hw.told e m hm h hh
  greeted e he := by
    rw [hw.knows_iff, hw.selfNode]
    rcases hw.greeted e he with hold | hnew
    · exact (hi.greeted e hold).imp_right hw.onWire
    · exact .inr (hw.onWire_of_mem hnew (Dissemination.told_heartbeat _))
  introduced e he n hn := by
    rw [hw.known_iff] at hn
    rw [hw.knows_iff]
    rcases hw.introduced e he with hold | hnew
    · rcases hi.introduced e hold n hn with hfar | hwire | hwaits
      · exact .inl hfar
      · exact .inr (.inl (hw.onWire hwire))
      · obtain ⟨source, h, hmem, hne, hnode⟩ := hwaits
        rcases hw.hints (T.host e) with hsame | ⟨-, hsent⟩
        · refine .inr (.inr ⟨source, h, ?_, hne, hnode⟩)
          rwa [hsame]
        · rw [← hnode]
          exact .inr (.inl (hw.onWire_of_mem (hsent e rfl he _ hmem hne) h.told_frame))
    · obtain ⟨h, hh⟩ := Option.isSome_iff_exists.mp hn
      rw [← MembershipMap.node_of_entry hh]
      exact .inr (.inl (hw.onWire_of_mem (hnew n h hh) h.told_frame))

theorem knows_of_entry {v : V} {n : NodeId} {h : Hint A}
    (hh : (s.node v).membership.entry n = some h) : s.Known v h.node := by
  rw [Known, MembershipMap.node_of_entry hh, hh]
  rfl

/-- A node tells the truth about itself. -/
theorem told_advert (v : V) : s.Knows v (s.node v).advert.node ∧ s.Advertised (s.node v).advert :=
  ⟨.inl rfl, v, rfl⟩

/-- What a join has still to write is true. -/
theorem Inv.told_unwritten (hi : s.Inv T) {v : V} {initialSync : List ChannelIdentity}
    {stage : JoinStage} {m : ControlMsg A} (hm : m ∈ unwritten (s.node v) initialSync stage)
    {h : Hint A} (hh : m.told = some h) : s.Knows v h.node ∧ s.Advertised h := by
  cases stage with
  | reading =>
      rw [Dissemination.told_greeting hm hh]
      exact told_advert v
  | greeted =>
      have hentry := Dissemination.told_introductions hm hh
      exact ⟨.inr (knows_of_entry hentry), (hi.held v _ h hentry).2⟩
  | introduced => cases hm
  | fresh => cases hm
  | peer => cases hm
  | down => cases hm

/-- What a delivery does: the reader of `opp e` takes frame `m`, and its node
learns what the frame tells. -/
structure Reads (T : Topology V E) (s s' : JoinNet V E A) (e : E) (m : ControlMsg A) : Prop where
  mem : m ∈ s.wire e
  stage : s'.stage = s.stage
  /-- what was on a wire still is, or is what was read -/
  left : ∀ e', ∀ m' ∈ s.wire e', m' ∈ s'.wire e' ∨ e' = e ∧ m' = m
  wire : ∀ e', ∀ m' ∈ s'.wire e', m' ∈ s.wire e'
  learns : Dissemination.Learns (s.node (T.host (T.opp e))) (s'.node (T.host (T.opp e)))
    (T.opp e) m
  off : ∀ v, v ≠ T.host (T.opp e) → s'.node v = s.node v

namespace Reads

variable {e : E} {m : ControlMsg A}

theorem advert (hr : Reads T s s' e m) (v : V) : (s'.node v).advert = (s.node v).advert := by
  by_cases hv : v = T.host (T.opp e)
  · rw [hv, hr.learns.advert]
  · rw [hr.off v hv]

theorem selfNode (hr : Reads T s s' e m) (v : V) : (s'.node v).selfNode = (s.node v).selfNode :=
  congrArg Hint.node (hr.advert v)

theorem peers (hr : Reads T s s' e m) (v : V) : (s'.node v).peers = (s.node v).peers := by
  by_cases hv : v = T.host (T.opp e)
  · rw [hv, hr.learns.peers]
  · rw [hr.off v hv]

theorem advertised_iff (hr : Reads T s s' e m) {h : Hint A} :
    s'.Advertised h ↔ s.Advertised h := by
  simp only [Advertised, hr.advert]

theorem known (hr : Reads T s s' e m) {v : V} {n : NodeId} (h : s.Known v n) :
    s'.Known v n := by
  by_cases hv : v = T.host (T.opp e)
  · subst hv
    exact hr.learns.known n h
  · rwa [Known, hr.off v hv]

theorem knows (hr : Reads T s s' e m) {v : V} {n : NodeId} (h : s.Knows v n) : s'.Knows v n :=
  h.imp (fun h => by rw [hr.selfNode, h]) hr.known

theorem hints (hr : Reads T s s' e m) {v : V} {x : E × Hint A} (hx : x ∈ (s.node v).hints) :
    x ∈ (s'.node v).hints := by
  by_cases hv : v = T.host (T.opp e)
  · subst hv
    exact hr.learns.hints x hx
  · rwa [hr.off v hv]

/-- Word on a wire is still there, or has been heard. -/
theorem onWire (hr : Reads T s s' e m) {e' : E} {n : NodeId} (h : s.OnWire e' n) :
    s'.Knows (T.host (T.opp e')) n ∨ s'.OnWire e' n := by
  obtain ⟨m', hm', h, hh, rfl⟩ := h
  rcases hr.left e' m' hm' with hm' | ⟨rfl, rfl⟩
  · exact .inr ⟨m', hm', h, hh, rfl⟩
  · rw [Knows, hr.selfNode]
    exact .inl (hr.learns.told h hh)

end Reads

/-- A delivery keeps the invariant: whoever the frame tells of is known at this
end from now on, and word of them waits for all other ends. -/
theorem Inv.reads {e : E} {m : ControlMsg A} (hi : s.Inv T) (hr : Reads T s s' e m) :
    s'.Inv T where
  self v := by rw [hr.selfNode, hi.self]
  hosted v p hp := hi.hosted v p (hr.peers v ▸ hp)
  listed e' he' := by
    rw [hr.peers]
    exact hi.listed e' (hr.stage ▸ he')
  held v n h hh := by
    rw [hr.selfNode, hr.advertised_iff]
    by_cases hv : v = T.host (T.opp e)
    · subst hv
      rcases hr.learns.held n h hh with hold | ⟨htold, hne⟩
      · exact hi.held _ n h hold
      · exact ⟨hne, (hi.told e m hr.mem h htold).2⟩
    · rw [hr.off v hv] at hh
      exact hi.held v n h hh
  queued v x hx := by
    rw [hr.advertised_iff]
    by_cases hv : v = T.host (T.opp e)
    · subst hv
      rcases hr.learns.queued x hx with hold | ⟨hsome, htold⟩
      · exact (hi.queued _ x hold).imp_left hr.known
      · exact ⟨hsome, (hi.told e m hr.mem x.2 htold).2⟩
    · rw [hr.off v hv] at hx
      exact (hi.queued v x hx).imp_left hr.known
  told e' m' hm' h hh := by
    rw [hr.advertised_iff]
    exact (hi.told e' m' (hr.wire e' m' hm') h hh).imp_left hr.knows
  greeted e' he' := by
    rw [hr.selfNode]
    rcases hi.greeted e' (hr.stage ▸ he') with hfar | hon
    · exact .inl (hr.knows hfar)
    · exact hr.onWire hon
  introduced e' he' n hn := by
    have hold : s.Known (T.host e') n → s'.Knows (T.host (T.opp e')) n ∨ s'.OnWire e' n ∨
        s'.Waits (T.host e') e' n := by
      intro hn
      rcases hi.introduced e' (hr.stage ▸ he') n hn with hfar | hon | ⟨source, h, hx, hne, hnode⟩
      · exact .inl (hr.knows hfar)
      · exact (hr.onWire hon).imp_right .inl
      · exact .inr (.inr ⟨source, h, hr.hints hx, hne, hnode⟩)
    by_cases hv : T.host e' = T.host (T.opp e)
    · rw [Known, hv] at hn
      rcases hr.learns.news n hn with hn | ⟨h, htold, rfl, hqueued⟩
      · exact hold (by rwa [Known, hv])
      · by_cases he : e' = T.opp e
        · -- it came on this link, from a node that knows
          subst he
          rw [T.opp_opp]
          exact .inl (hr.knows (hi.told e m hr.mem h htold).1)
        · exact .inr (.inr ⟨T.opp e, h, hv ▸ hqueued, Ne.symm he, rfl⟩)
    · rw [Known, hr.off _ hv] at hn
      exact hold hn

variable [DecidableEq E]

/-- An end that is not a peer yet writes a part of its join. -/
theorem Inv.writes_write (hi : s.Inv T) {e : E} {frames : List (ControlMsg A)}
    {stage : JoinStage} (hpeer : stage ≠ .peer)
    (htold : ∀ m ∈ frames, ∀ h, m.told = some h → s.Knows (T.host e) h.node ∧ s.Advertised h)
    (hgreeted : stage.hasGreeted = true →
      (s.stage e).hasGreeted = true ∨ (s.node (T.host e)).heartbeat ∈ frames)
    (hintroduced : stage.hasIntroduced = true → (s.stage e).hasIntroduced = true ∨
      ∀ n h, (s.node (T.host e)).membership.entry n = some h → h.frame ∈ frames) :
    Writes T s (s.write e frames stage) (Function.update (fun _ => []) e frames) where
  advert _ := rfl
  entry _ := rfl
  wire e' := by
    by_cases he : e' = e
    · subst he
      simp [write]
    · simp [write, he]
  told e' m hm := by
    by_cases he : e' = e
    · subst he
      exact htold m (by simpa using hm)
    · simp [he] at hm
  hosted := hi.hosted
  listed e' he' := by
    by_cases he : e' = e
    · subst he
      exact absurd (by simpa [write] using he') hpeer
    · exact hi.listed e' (by simpa [write, he] using he')
  hints _ := .inl rfl
  greeted e' he' := by
    by_cases he : e' = e
    · subst he
      simpa using hgreeted (by simpa [write] using he')
    · exact .inl (by simpa [write, he] using he')
  introduced e' he' := by
    by_cases he : e' = e
    · subst he
      simpa using hintroduced (by simpa [write] using he')
    · exact .inl (by simpa [write, he] using he')

variable [DecidableEq V]

/-- A burst of a node that knows what it knew. -/
theorem Inv.writes_burst (hi : s.Inv T) {v : V} {d : Dissemination E A}
    {frames : List (E × ControlMsg A)} (cut : E → Option ℕ)
    (hadvert : d.advert = (s.node v).advert) (hmembership : d.membership = (s.node v).membership)
    (hpeers : d.peers = (s.node v).peers)
    (hframes : ∀ x ∈ frames, x.1 ∈ d.peers.map Peer.id ∧
      ∀ h, x.2.told = some h → s.Knows v h.node ∧ s.Advertised h)
    (hhints : d.hints = (s.node v).hints ∨ d.hints = [] ∧ ∀ e, T.host e = v →
      ((s.burst T v d frames cut).stage e).hasIntroduced = true →
        ∀ x ∈ (s.node v).hints, x.1 ≠ e →
          x.2.frame ∈ taken (cut e) ((frames.filter fun x => x.1 = e).map Prod.snd)) :
    Writes T s (s.burst T v d frames cut) fun e =>
      taken (cut e) ((frames.filter fun x => x.1 = e).map Prod.snd) where
  advert w := by
    by_cases hw : w = v
    · subst hw
      simpa [burst, Dissemination.advert] using hadvert
    · simp [burst, hw]
  entry w := by
    by_cases hw : w = v
    · subst hw
      simp [burst, hmembership]
    · simp [burst, hw]
  wire _ := rfl
  told e m hm h hh := by
    obtain ⟨x, hx, rfl⟩ := List.mem_map.mp (mem_of_mem_taken hm)
    obtain ⟨hx, he⟩ := List.mem_filter.mp hx
    have he' : x.1 = e := by simpa using he
    obtain ⟨hpeer, htold⟩ := hframes x hx
    obtain ⟨p, hp, hid⟩ := List.mem_map.mp hpeer
    have hhost : T.host e = v := by
      rw [← he', ← hid]
      exact hi.hosted v p (hpeers ▸ hp)
    rw [hhost]
    exact htold h hh
  hosted w p hp := by
    by_cases hw : w = v
    · subst hw
      have hmem : p ∈ d.peers := by
        simp only [burst, Function.update_self] at hp
        exact List.mem_of_mem_filter hp
      exact hi.hosted w p (hpeers ▸ hmem)
    · exact hi.hosted w p (by simpa [burst, hw] using hp)
  listed e he := by
    simp only [burst] at he
    split at he
    · cases he
    · rename_i hcut
      obtain ⟨p, hp, hid⟩ := hi.listed e he
      by_cases hw : T.host e = v
      · refine ⟨p, ?_, hid⟩
        have hnone : cut p.id = none := by
          rw [hid]
          simpa [hw, he] using hcut
        rw [hw] at hp ⊢
        simp only [burst, Function.update_self]
        exact List.mem_filter.mpr ⟨hpeers ▸ hp, by simp [hnone]⟩
      · exact ⟨p, by simpa [burst, hw] using hp, hid⟩
  hints w := by
    by_cases hw : w = v
    · subst hw
      simpa [burst] using hhints
    · simp [burst, hw]
  greeted e he := by
    simp only [burst] at he
    split at he
    · cases he
    · exact .inl he
  introduced e he := by
    simp only [burst] at he
    split at he
    · cases he
    · exact .inl he

/-- Nobody is being introduced while the lock is free, so what is left after a
burst are peers that took all of it. -/
theorem peer_of_burst {v : V} {d : Dissemination E A} {frames : List (E × ControlMsg A)}
    {cut : E → Option ℕ} (hfree : s.Free T v) {e : E} (hhost : T.host e = v)
    (he : ((s.burst T v d frames cut).stage e).hasIntroduced = true) :
    s.stage e = .peer ∧ cut e = none := by
  have hnot := hfree e hhost
  simp only [burst] at he
  split at he
  · cases he
  · rename_i hcut
    have hpeer : s.stage e = .peer := by
      cases hs : s.stage e <;> simp_all [JoinStage.hasIntroduced, JoinStage.adopting]
    exact ⟨hpeer, by simpa [hhost, hpeer] using hcut⟩

omit [DecidableEq V] in
/-- A hint is sent to every peer but the one it came from. -/
theorem Inv.mem_relayHints (hi : s.Inv T) {e : E} (hpeer : s.stage e = .peer)
    {x : E × Hint A} (hx : x ∈ (s.node (T.host e)).hints) (hne : x.1 ≠ e) :
    (e, x.2) ∈ (s.node (T.host e)).relayHints.2 := by
  obtain ⟨p, hp, hid⟩ := hi.listed e hpeer
  have hother : x.2.node ≠ (s.node (T.host e)).selfNode := by
    obtain ⟨h, hh⟩ := Option.isSome_iff_exists.mp (hi.queued _ x hx).1
    exact (hi.held _ _ h hh).1
  simp only [Dissemination.relayHints, List.mem_flatMap]
  refine ⟨x, hx, ?_⟩
  rw [if_neg hother, Dissemination.sendExcept, List.mem_map]
  refine ⟨p, List.mem_filter.mpr ⟨hp, ?_⟩, by rw [hid]⟩
  rw [hid]
  simpa using Ne.symm hne

theorem Inv.writes_relay (hi : s.Inv T) {v : V} (cut : E → Option ℕ) (hfree : s.Free T v) :
    Writes T s
      (s.burst T v (s.node v).relayHints.1
        ((s.node v).relayHints.2.map fun x => (x.1, x.2.frame)) cut)
      fun e => taken (cut e) ((((s.node v).relayHints.2.map fun x => (x.1, x.2.frame)).filter
        fun x => x.1 = e).map Prod.snd) := by
  refine hi.writes_burst cut rfl rfl rfl ?_ (.inr ⟨rfl, ?_⟩)
  · intro x hx
    obtain ⟨y, hy, rfl⟩ := List.mem_map.mp hx
    simp only [Dissemination.relayHints, List.mem_flatMap] at hy
    obtain ⟨z, hz, hy⟩ := hy
    split at hy
    · cases hy
    · obtain ⟨p, hp, rfl⟩ := List.mem_map.mp hy
      refine ⟨List.mem_map_of_mem (List.mem_of_mem_filter hp), fun h hh => ?_⟩
      rw [Hint.told_frame] at hh
      cases hh
      exact ⟨.inr (hi.queued v z hz).1, (hi.queued v z hz).2⟩
  · intro e hhost he x hx hne
    obtain ⟨hpeer, hcut⟩ := peer_of_burst hfree hhost he
    subst hhost
    rw [hcut]
    have hsent := hi.mem_relayHints hpeer hx hne
    exact List.mem_map.mpr ⟨(e, x.2.frame), List.mem_filter.mpr
      ⟨List.mem_map.mpr ⟨(e, x.2), hsent, rfl⟩, by simp⟩, rfl⟩

theorem Inv.writes_say [DecidableEq A] (hi : s.Inv T) {v : V} {frames : List (E × ControlMsg A)}
    (cut : E → Option ℕ)
    (hframes : ∀ x ∈ frames, x.1 ∈ (s.node v).peers.map Peer.id ∧ (s.node v).Says x.2 = true) :
    Writes T s (s.burst T v (s.node v) frames cut)
      fun e => taken (cut e) ((frames.filter fun x => x.1 = e).map Prod.snd) := by
  refine hi.writes_burst cut rfl rfl rfl (fun x hx => ?_) (.inl rfl)
  obtain ⟨hpeer, hsays⟩ := hframes x hx
  refine ⟨hpeer, fun h hh => ?_⟩
  rw [Dissemination.Says.told hsays hh]
  exact told_advert v

theorem reads_deliver [DecidableEq A] {e : E} (now : Instant) {m : ControlMsg A}
    {rest : List (ControlMsg A)} (hwire : s.wire e = m :: rest) :
    Reads T s { s with
      node := Function.update s.node (T.host (T.opp e))
        ((s.node (T.host (T.opp e))).receive now (T.opp e) m)
      wire := Function.update s.wire e rest } e m where
  mem := by
    rw [hwire]
    exact .head _
  stage := rfl
  left e' m' hm' := by
    by_cases he : e' = e
    · subst he
      rw [hwire, List.mem_cons] at hm'
      exact hm'.symm.imp (fun h => by simpa using h) fun h => ⟨rfl, h⟩
    · exact .inl (by simpa [he] using hm')
  wire e' m' hm' := by
    by_cases he : e' = e
    · subst he
      rw [hwire]
      exact List.mem_cons_of_mem _ (by simpa using hm')
    · simpa [he] using hm'
  learns := by
    simp only [Function.update_self]
    exact Dissemination.receive_learns _ now _ m
  off v hv := Function.update_of_ne hv _ _

omit [DecidableEq E] in
/-- A node changes its links only: it gets a peer it has introduced itself to, or
forgets who was on a link. -/
theorem Inv.writes_links (hi : s.Inv T) {v : V} {d : Dissemination E A}
    (hnode : s'.node = Function.update s.node v d) (hwire : s'.wire = s.wire)
    (hadvert : d.advert = (s.node v).advert) (hmembership : d.membership = (s.node v).membership)
    (hhints : d.hints = (s.node v).hints)
    (hhosted : ∀ p ∈ d.peers, T.host p.id = v) (hkept : ∀ p ∈ (s.node v).peers, p ∈ d.peers)
    (hstage : ∀ e, s'.stage e = s.stage e ∨ s.stage e = .introduced ∧ T.host e = v ∧
      ∃ p ∈ d.peers, p.id = e) :
    Writes T s s' fun _ => [] where
  advert w := by
    by_cases hw : w = v
    · rw [hw, hnode, Function.update_self, hadvert]
    · rw [hnode, Function.update_of_ne hw]
  entry w := by
    by_cases hw : w = v
    · rw [hw, hnode, Function.update_self, hmembership]
    · rw [hnode, Function.update_of_ne hw]
  wire e := by rw [hwire, List.append_nil]
  told e m hm := by cases hm
  hosted w p hp := by
    by_cases hw : w = v
    · rw [hw, hnode, Function.update_self] at hp
      rw [hw]
      exact hhosted p hp
    · rw [hnode, Function.update_of_ne hw] at hp
      exact hi.hosted w p hp
  listed e he := by
    by_cases hw : T.host e = v
    · rw [hw, hnode, Function.update_self]
      rcases hstage e with hsame | ⟨-, -, hpeer⟩
      · obtain ⟨p, hp, hid⟩ := hi.listed e (hsame ▸ he)
        exact ⟨p, hkept p (hw ▸ hp), hid⟩
      · exact hpeer
    · rw [hnode, Function.update_of_ne hw]
      rcases hstage e with hsame | ⟨-, hhost, -⟩
      · exact hi.listed e (hsame ▸ he)
      · exact absurd hhost hw
  hints w := by
    by_cases hw : w = v
    · rw [hw, hnode, Function.update_self]
      exact .inl hhints
    · rw [hnode, Function.update_of_ne hw]
      exact .inl rfl
  greeted e he := by
    rcases hstage e with hsame | ⟨hbefore, -⟩
    · exact .inl (hsame ▸ he)
    · exact .inl (by rw [hbefore]; rfl)
  introduced e he := by
    rcases hstage e with hsame | ⟨hbefore, -⟩
    · exact .inl (hsame ▸ he)
    · exact .inl (by rw [hbefore]; rfl)

variable [LinearOrder A]

theorem Inv.step (hi : s.Inv T) (h : s.Step T s') : s'.Inv T := by
  obtain ⟨cmd, hallowed, rfl⟩ := h
  cases cmd with
  | adopt e =>
      exact hi.writes (hi.writes_write (by decide) (by simp) (by simp [JoinStage.hasGreeted])
        (by simp [JoinStage.hasIntroduced]))
  | greet e initialSync =>
      refine hi.writes (hi.writes_write (by decide) (fun m hm h hh => ?_) (fun _ => .inr ?_)
        (by simp [JoinStage.hasIntroduced]))
      · rw [Dissemination.told_greeting hm hh]
        exact told_advert _
      · simp [Dissemination.greeting]
  | introduce e =>
      have hstage : s.stage e = .greeted := hallowed
      refine hi.writes (hi.writes_write (by decide) (fun m hm h hh => ?_)
        (fun _ => .inl (by rw [hstage]; rfl)) fun _ => .inr fun n h hh => ?_)
      · have hentry := Dissemination.told_introductions hm hh
        exact ⟨.inr (knows_of_entry hentry), (hi.held _ _ h hentry).2⟩
      · exact Dissemination.frame_mem_introductions hh (hi.held _ n h hh).1
  | push e here there outbound =>
      have hstage : s.stage e = .introduced := hallowed
      refine hi.writes (hi.writes_links rfl ?_ rfl rfl rfl (fun p hp => ?_)
        (fun p hp => List.mem_append_left _ hp) fun e' => ?_)
      · simp [perform, write]
      · rcases List.mem_append.mp hp with hp | hp
        · exact hi.hosted _ p hp
        · rw [List.mem_singleton.mp hp]
      · by_cases he : e' = e
        · subst he
          exact .inr ⟨hstage, rfl, _, List.mem_append_right _ (.head _), rfl⟩
        · exact .inl (Function.update_of_ne he _ _)
  | abandon e initialSync written =>
      refine hi.writes (hi.writes_write (by decide) (fun m hm h hh => ?_)
        (by simp [JoinStage.hasGreeted]) (by simp [JoinStage.hasIntroduced]))
      exact hi.told_unwritten (List.mem_of_mem_take hm) hh
  | deliver e now =>
      simp only [perform]
      split
      · exact hi
      · exact hi.reads (reads_deliver now ‹_›)
  | hangUp e =>
      exact hi.writes (hi.writes_links rfl rfl rfl rfl rfl (hi.hosted _) (fun _ hp => hp)
        fun _ => .inl rfl)
  | relay v cut => exact hi.writes (hi.writes_relay cut hallowed)
  | say v frames cut => exact hi.writes (hi.writes_say cut hallowed.2)

end Steps

/-! ## Where nothing is on its way -/

/-- Both ends are peers, and read. -/
def Live (T : Topology V E) (s : JoinNet V E A) (e : E) : Prop :=
  s.stage e = .peer ∧ s.stage (T.opp e) = .peer ∧
    s.ended e = false ∧ s.ended (T.opp e) = false

instance (T : Topology V E) (s : JoinNet V E A) (e : E) : Decidable (s.Live T e) :=
  inferInstanceAs (Decidable (_ ∧ _))

/-- There is a live link from `v` to `w`. -/
def Linked (T : Topology V E) (s : JoinNet V E A) (v w : V) : Prop :=
  ∃ e, s.Live T e ∧ T.host e = v ∧ T.host (T.opp e) = w

/-- Nothing is on the wires of live links, and no hint waits. -/
def Quiescent (T : Topology V E) (s : JoinNet V E A) : Prop :=
  (∀ e, s.Live T e → s.wire e = []) ∧ ∀ v, (s.node v).hints = []

section Quiescence

variable {T : Topology V E} {s : JoinNet V E A} {v w : V} {n : NodeId}

theorem Live.symm {e : E} (h : s.Live T e) : s.Live T (T.opp e) := by
  obtain ⟨hpeer, hpeer', hreads, hreads'⟩ := h
  refine ⟨hpeer', ?_, hreads', ?_⟩
  · rwa [T.opp_opp]
  · rwa [T.opp_opp]

theorem Linked.symm (h : s.Linked T v w) : s.Linked T w v := by
  obtain ⟨e, hlive, hv, hw⟩ := h
  exact ⟨T.opp e, hlive.symm, hw, by rwa [T.opp_opp]⟩

/-- Whoever one end of a live link knows, the other one does. -/
theorem Inv.knows_of_linked (hi : s.Inv T) (hq : s.Quiescent T) (h : s.Linked T v w)
    (hn : s.Knows v n) : s.Knows w n := by
  obtain ⟨e, hlive, rfl, rfl⟩ := h
  have hempty : ∀ n, ¬ s.OnWire e n := by
    rintro n ⟨m, hm, -⟩
    rw [hq.1 e hlive] at hm
    cases hm
  rcases hn with rfl | hn
  · exact (hi.greeted e (by rw [hlive.1]; rfl)).resolve_right (hempty _)
  · rcases hi.introduced e (by rw [hlive.1]; rfl) n hn with hfar | hon | ⟨source, h, hx, -⟩
    · exact hfar
    · exact absurd hon (hempty n)
    · rw [hq.2] at hx
      cases hx

theorem Inv.knows_of_path (hi : s.Inv T) (hq : s.Quiescent T)
    (h : Relation.ReflTransGen (s.Linked T) v w) (hn : s.Knows v n) : s.Knows w n := by
  induction h with
  | refl => exact hn
  | tail _ hlast ih => exact hi.knows_of_linked hq hlast ih

variable [DecidableEq V] [DecidableEq E] [LinearOrder A]

theorem inv_of_reachable (h : Run.Reachable (Initial T) (Step T) s) : s.Inv T :=
  h.invariant (fun _ => inv_initial) fun _ _ hi hstep => hi.step hstep

end Quiescence

/-! ## Three nodes in a line -/

inductive Place where
  | first
  | middle
  | last
deriving DecidableEq

instance : Fintype Place := ⟨{.first, .middle, .last}, fun v => by cases v <;> decide⟩

/-- Ends 0 and 1 join the first two nodes, ends 2 and 3 the last two. -/
def line : Topology Place (Fin 4) where
  self
    | .first => 1
    | .middle => 2
    | .last => 3
  host := ![.first, .middle, .middle, .last]
  opp := ![1, 0, 3, 2]
  opp_opp := by decide

def strangers : JoinNet Place (Fin 4) ℕ where
  node
    | .first => .new 1 1 10 fun _ => none
    | .middle => .new 2 2 10 fun _ => none
    | .last => .new 3 3 10 fun _ => none
  wire := fun _ => []
  stage := fun _ => .fresh
  ended := fun _ => false

theorem strangers_initial : strangers.Initial line := by
  refine ⟨?_, ?_, ?_, ?_, fun _ => rfl, fun _ => rfl⟩ <;>
  · intro v
    cases v <;> rfl

/-- An end is adopted. -/
def joins (e : Fin 4) : List (JoinCommand Place (Fin 4) ℕ) :=
  [.adopt e, .greet e [], .introduce e, .push e 0 1 true]

/-- The first two nodes meet, then the last two; the middle one introduces the
others to each other, one in its directory and one by a hint. -/
def meetings : List (JoinCommand Place (Fin 4) ℕ) :=
  [joins 0, joins 1, [.deliver 0 1, .deliver 1 1], joins 2, joins 3,
    [.deliver 2 2, .deliver 2 2, .deliver 3 2],
    [.relay .first fun _ => none, .relay .middle fun _ => none, .relay .last fun _ => none],
    [.deliver 2 3, .deliver 1 3, .relay .first fun _ => none]].flatten

theorem line_acquainted : ∃ s : JoinNet Place (Fin 4) ℕ,
    Run.Reachable (Initial line) (Step line) s ∧ (s.Live line 0 ∧ s.Live line 2) ∧
      (∀ e, s.wire e = []) ∧ ∀ v, (s.node v).hints = [] := by
  refine Run.exists_reachable_perform (Initial line) (Step line)
    (fun s cmd => s.perform line cmd) (fun s cmd => s.Allowed line cmd)
    (fun _ cmd h => ⟨cmd, h, rfl⟩) strangers meetings
    (fun s => (s.Live line 0 ∧ s.Live line 2) ∧ (∀ e, s.wire e = []) ∧
      ∀ v, (s.node v).hints = []) strangers_initial ?_
  decide +kernel

theorem line_path {s : JoinNet Place (Fin 4) ℕ} (h0 : s.Live line 0)
    (h2 : s.Live line 2) : Relation.ReflTransGen (s.Linked line) .first .last :=
  .head ⟨0, h0, rfl, rfl⟩ (.single ⟨2, h2, rfl, rfl⟩)

section Results

variable {T : Topology V E} {s : JoinNet V E A} {v w : V} [DecidableEq V] [DecidableEq E]
  [LinearOrder A]

/-- **The directories close up.** However links were made and lost, whenever
nothing is on its way two nodes with live links between them, over any number of
others, have heard of the same ids, counting their own; also if some id is in use
twice. -/
theorem directories_close (h : Run.Reachable (Initial T) (Step T) s) (hq : s.Quiescent T)
    (hpath : Relation.ReflTransGen (s.Linked T) v w) (n : NodeId) :
    s.Knows v n ↔ s.Knows w n := by
  have hi := inv_of_reachable h
  have hback : Relation.ReflTransGen (s.Linked T) w v :=
    (Relation.reflTransGen_swap.mpr hpath).lift id fun _ _ => Linked.symm
  exact ⟨hi.knows_of_path hq hpath, hi.knows_of_path hq hback⟩

theorem directories_close_line :
    ∃ s : JoinNet Place (Fin 4) ℕ, s.Quiescent line ∧
      s.Linked line .first .middle ∧ s.Linked line .middle .last ∧
      ∀ n, s.Knows .first n ↔ s.Knows .last n := by
  obtain ⟨s, hs, ⟨h0, h2⟩, hwire, hhints⟩ := line_acquainted
  have hq : s.Quiescent line := ⟨fun e _ => hwire e, hhints⟩
  exact ⟨s, hq, ⟨0, h0, rfl, rfl⟩, ⟨2, h2, rfl, rfl⟩, directories_close hs hq (line_path h0 h2)⟩

/-- **One link is enough**: where no two processes share an id and nothing is on
its way, every node knows every other one its links lead to, over any number of
hops, at the addresses and under the name that one gives itself. -/
theorem one_link_suffices (h : Run.Reachable (Initial T) (Step T) s)
    (hunique : Function.Injective T.self) (hq : s.Quiescent T)
    (hpath : Relation.ReflTransGen (s.Linked T) v w) (hne : v ≠ w) :
    (s.node w).membership.entry (T.self v) = some (s.node v).advert := by
  have hi := inv_of_reachable h
  have hknows : s.Knows w (s.node v).selfNode := hi.knows_of_path hq hpath (.inl rfl)
  rw [hi.self] at hknows
  rcases hknows with hself | hknown
  · rw [hi.self] at hself
    exact absurd (hunique hself) hne
  · obtain ⟨x, hx⟩ := Option.isSome_iff_exists.mp hknown
    obtain ⟨u, hu⟩ := (hi.held w _ x hx).2
    have hnode : T.self u = T.self v := by
      rw [← hi.self u, ← MembershipMap.node_of_entry hx, ← hu]
      rfl
    rw [hx, ← hu, hunique hnode]

theorem one_link_suffices_line :
    ∃ s : JoinNet Place (Fin 4) ℕ, s.Quiescent line ∧
      s.Linked line .first .middle ∧ s.Linked line .middle .last ∧
      (s.node .last).membership.entry 1 = some (s.node .first).advert := by
  obtain ⟨s, hs, ⟨h0, h2⟩, hwire, hhints⟩ := line_acquainted
  have hq : s.Quiescent line := ⟨fun e _ => hwire e, hhints⟩
  exact ⟨s, hq, ⟨0, h0, rfl, rfl⟩, ⟨2, h2, rfl, rfl⟩,
    one_link_suffices hs (by decide) hq (line_path h0 h2) (by decide)⟩

end Results

end JoinNet

end XchannelNet
