import XchannelNet.Membership.Links

/-!
# Dedup — two nodes agree on a link without asking

One fact carries the argument: the least link is the least of whatever part of
the links an end can decide about, so no end ever drops it. An end that knew
who was on every link that is left, when it decided, left no other.
-/

namespace XchannelNet.NodePair

variable {P A : Type}

/-- Two nodes under two ids, each with one control address, and links between
them that are named alike at both ends and opened by one of the two. Who is on
a link may be known or not. -/
structure Paired (s : NodePair P A) : Prop where
  ids : (s.node .a).selfNode ≠ (s.node .b).selfNode
  keys : ∀ x, ((s.node x).peers.map Peer.key).Nodup
  linked : ∀ x, ∀ p ∈ (s.node x).peers, ∃ q ∈ (s.node x.other).peers,
    q.key = p.key ∧ q.outbound = !p.outbound
  identified : ∀ x id y, (s.node x).linkPeers id = some y →
    y = ((s.node x.other).selfNode, (s.node x.other).selfControlAddr)
  undisputed : ∀ x, (s.node x.other).selfNode ∉ (s.node x).conflicts

namespace Paired

section

variable {s : NodePair P A}

/-- Both ends rank a link alike. -/
theorem rank_eq {x : Side} {p q : Peer P A} (hkey : q.key = p.key)
    (hout : q.outbound = !p.outbound) : s.rank x.other q = s.rank x p := by
  simp only [rank, linkRank, initiator, hkey, hout, Side.other_other]
  cases p.outbound <;> rfl

variable (h : s.Paired)

include h

theorem selfNode_ne (x : Side) : (s.node x.other).selfNode ≠ (s.node x).selfNode := by
  cases x with
  | a => exact h.ids.symm
  | b => exact h.ids

/-- A key names one link. -/
theorem eq_of_key {x : Side} {p q : Peer P A} (hp : p ∈ (s.node x).peers)
    (hq : q ∈ (s.node x).peers) (hkey : p.key = q.key) : p = q :=
  List.inj_on_of_nodup_map (h.keys x) hp hq hkey

/-- Links with one key are one link. -/
theorem peers_eq_singleton {k : LinkKey A} {x : Side} {m : Peer P A}
    (hm : m ∈ (s.node x).peers) (hall : ∀ p ∈ (s.node x).peers, p.key = k) :
    (s.node x).peers = [m] := by
  have heq : ∀ p ∈ (s.node x).peers, p = m := fun p hp =>
    h.eq_of_key hp hm ((hall p hp).trans (hall m hm).symm)
  refine List.perm_singleton.mp ((List.perm_ext_iff_of_nodup (h.keys x).of_map
    (List.nodup_singleton m)).mpr fun p => ?_)
  rw [List.mem_singleton]
  exact ⟨heq p, fun hpm => hpm ▸ hm⟩

variable [LinearOrder A]

/-- One control address is no conflict. -/
theorem not_conflicted (x : Side) :
    (s.node x.other).selfNode ∉ (s.node x).conflicted := by
  have hsub : (s.node x).controlAddrs (s.node x.other).selfNode ⊆
      {(s.node x.other).selfControlAddr} := by
    intro c hc
    simp only [Dissemination.controlAddrs, List.mem_toFinset, List.mem_filterMap] at hc
    obtain ⟨p, -, hp⟩ := hc
    simp only [Option.map_eq_some_iff, Option.filter_eq_some_iff] at hp
    obtain ⟨y, ⟨hy, -⟩, rfl⟩ := hp
    rw [h.identified x p.id y hy]
    exact Finset.mem_singleton_self _
  have hcard : ((s.node x).controlAddrs (s.node x.other).selfNode).card ≤ 1 :=
    (Finset.card_le_card hsub).trans (Finset.card_singleton _).le
  simp only [Dissemination.conflicted, Finset.mem_union, Finset.mem_filter, not_or, not_and,
    not_lt]
  exact ⟨fun _ => hcard, h.undisputed x⟩

/-- A link stands as a candidate as soon as it is known who is on it. -/
theorem candidate_eq {x : Side} {p : Peer P A} (hp : (s.node x).Knows p.id) :
    (s.node x).candidate p = some ((s.node x.other).selfNode, s.rank x p) := by
  obtain ⟨y, hy⟩ := Option.isSome_iff_exists.mp hp
  have hid := h.identified x p.id y hy
  subst hid
  simp [Dissemination.candidate, hy, h.not_conflicted x, rank, Option.filter]

omit h in
theorem candidate_eq_none {x : Side} {p : Peer P A} (hp : ¬ (s.node x).Knows p.id) :
    (s.node x).candidate p = none := by
  have hnone : (s.node x).linkPeers p.id = none := by
    simpa [Dissemination.Knows] using hp
  simp [Dissemination.candidate, hnone]

/-- A link is dropped exactly if both it and a lesser one are known. -/
theorem keeps_iff {x : Side} {p : Peer P A} (hp : p ∈ (s.node x).peers) :
    (s.node x).keeps p = true ↔ ((s.node x).Knows p.id → ∀ q ∈ (s.node x).peers,
      (s.node x).Knows q.id → s.rank x p ≤ s.rank x q) := by
  by_cases hk : (s.node x).Knows p.id
  · have hcand := h.candidate_eq hk
    rw [Dissemination.keeps, hcand]
    simp only [decide_eq_true_eq, hk, forall_const]
    rw [Best.winners_eq_some_iff hp hcand]
    constructor
    · intro hall q hq hkq
      exact hall q hq _ (h.candidate_eq hkq)
    · intro hall q hq c hc
      by_cases hkq : (s.node x).Knows q.id
      · rw [h.candidate_eq hkq] at hc
        cases hc
        exact hall q hq hkq
      · rw [candidate_eq_none hkq] at hc
        cases hc
  · rw [Dissemination.keeps, candidate_eq_none hk]
    simp [hk]

/-- A link that comes up under a key of its own keeps the nodes paired. -/
theorem connect (dialler : Side) (id : Side → P) {socket : Side → A}
    (hnew : ∀ x, ∀ p ∈ (s.node x).peers, p.key ≠ linkKey (socket .a) (socket .b)) :
    (s.connect dialler id socket).Paired where
  ids := h.ids
  keys x := by
    have hfresh : linkKey (socket x) (socket x.other) ∉ (s.node x).peers.map Peer.key := by
      rw [linkKey_sides, List.mem_map]
      rintro ⟨p, hp, hkey⟩
      exact hnew x p hp hkey
    simp only [NodePair.connect, Dissemination.adopt, List.map_append, List.map_cons, List.map_nil]
    exact (h.keys x).append (List.nodup_singleton _) (List.disjoint_singleton.mpr hfresh)
  linked x p hp := by
    simp only [NodePair.connect, Dissemination.adopt, List.mem_append, List.mem_singleton] at hp ⊢
    rcases hp with hp | rfl
    · obtain ⟨q, hq, hlink⟩ := h.linked x p hp
      exact ⟨q, .inl hq, hlink⟩
    · refine ⟨_, .inr rfl, ?_, ?_⟩
      · rw [linkKey_sides, linkKey_sides]
      · cases x <;> cases dialler <;> rfl
  identified := h.identified
  undisputed := h.undisputed

end

end Paired

/-! ## What a command does -/

section Steps

variable [LinearOrder A] {d : Dissemination P A} {far : NodeId × A} {keys : List (LinkKey A)}

/-- At one end, the links named in `keys` are closed, and nothing else changes
but what is known of a link; whoever is new on one is `far`. -/
structure EndCloses (far : NodeId × A) (keys : List (LinkKey A)) (d d' : Dissemination P A) :
    Prop where
  selfNode : d'.selfNode = d.selfNode
  selfControlAddr : d'.selfControlAddr = d.selfControlAddr
  conflicts : d'.conflicts = d.conflicts
  peers : d'.peers = d.peers.filter fun p => p.key ∉ keys
  identified : ∀ id y, d'.linkPeers id = some y → d.linkPeers id = some y ∨ y = far

theorem EndCloses.refl (d : Dissemination P A) : EndCloses far [] d d :=
  ⟨rfl, rfl, rfl, by simp, fun _ _ => .inl⟩

/-- From one state to another, the links named in `keys` are closed. -/
def Closes (s s' : NodePair P A) (keys : List (LinkKey A)) : Prop :=
  ∀ x, EndCloses ((s.node x.other).selfNode, (s.node x.other).selfControlAddr) keys
    (s.node x) (s'.node x)

/-- The links a command closes. -/
def gone (s : NodePair P A) : LinkCommand P → List (LinkKey A)
  | .heard _ _ _ => []
  | .dedup x => (s.node x).dedupLinks.2.1.map Peer.key

variable {s s' : NodePair P A}

/-- At the end that decides, the links left are the ones not dropped. -/
theorem Paired.keeps_eq (h : s.Paired) {x : Side} {p : Peer P A} (hp : p ∈ (s.node x).peers) :
    (s.node x).keeps p = decide (p.key ∉ s.gone (.dedup x)) := by
  rw [Bool.eq_iff_iff, decide_eq_true_eq]
  simp only [gone, Dissemination.dedupLinks, List.mem_map, List.mem_filter, not_exists, not_and]
  constructor
  · rintro hkeep q ⟨hq, hdrop⟩ hkey
    rw [h.eq_of_key hq hp hkey, hkeep] at hdrop
    cases hdrop
  · intro hall
    by_contra hdrop
    exact hall p ⟨hp, by simpa using hdrop⟩ rfl

theorem Closes.mem_peers (hc : s.Closes s' keys) {x : Side} {p : Peer P A} :
    p ∈ (s'.node x).peers ↔ p ∈ (s.node x).peers ∧ p.key ∉ keys := by
  rw [(hc x).peers, List.mem_filter, decide_eq_true_eq]

theorem Closes.rank (hc : s.Closes s' keys) (x : Side) (p : Peer P A) :
    s'.rank x p = s.rank x p := by
  rw [NodePair.rank, NodePair.rank, (hc x).selfNode, (hc x.other).selfNode]

theorem Paired.of_closes (h : s.Paired) (hc : s.Closes s' keys) : s'.Paired where
  ids := by
    rw [(hc .a).selfNode, (hc .b).selfNode]
    exact h.ids
  keys x := by
    rw [(hc x).peers]
    exact (h.keys x).sublist (List.filter_sublist.map _)
  linked x p hp := by
    obtain ⟨hp, hkey⟩ := hc.mem_peers.mp hp
    obtain ⟨q, hq, hqkey, hout⟩ := h.linked x p hp
    exact ⟨q, hc.mem_peers.mpr ⟨hq, hqkey ▸ hkey⟩, hqkey, hout⟩
  identified x id y hy := by
    rw [(hc x.other).selfNode, (hc x.other).selfControlAddr]
    rcases (hc x).identified id y hy with hy | hy
    · exact h.identified x id y hy
    · exact hy
  undisputed x := by
    rw [(hc x.other).selfNode, (hc x).conflicts]
    exact h.undisputed x

/-- Both ends hold the link with this key, and no lesser one. -/
def Holds (s : NodePair P A) (k : LinkKey A) : Prop :=
  ∀ x, ∃ m ∈ (s.node x).peers, m.key = k ∧ ∀ q ∈ (s.node x).peers, s.rank x m ≤ s.rank x q

/-- **Nobody drops the least link.** -/
theorem Holds.notMem_gone {k : LinkKey A} (hk : s.Holds k) (h : s.Paired)
    (cmd : LinkCommand P) : k ∉ s.gone cmd := by
  cases cmd with
  | heard x now link => exact List.not_mem_nil
  | dedup x =>
      obtain ⟨m, hm, rfl, hmin⟩ := hk x
      have hkeep : (s.node x).keeps m = true := (h.keeps_iff hm).mpr fun _ q hq _ => hmin q hq
      rw [h.keeps_eq hm] at hkeep
      exact of_decide_eq_true hkeep

theorem Holds.of_closes {k : LinkKey A} (hk : s.Holds k) (hc : s.Closes s' keys)
    (hkeys : k ∉ keys) : s'.Holds k := by
  intro x
  obtain ⟨m, hm, rfl, hmin⟩ := hk x
  refine ⟨m, hc.mem_peers.mpr ⟨hm, hkeys⟩, rfl, fun q hq => ?_⟩
  rw [hc.rank, hc.rank]
  exact hmin q (hc.mem_peers.mp hq).1

/-- The least link, seen from the other end. -/
theorem Paired.holds (h : s.Paired) {m : Peer P A} (hm : m ∈ (s.node .a).peers)
    (hmin : ∀ q ∈ (s.node .a).peers, s.rank .a m ≤ s.rank .a q) : s.Holds m.key := by
  intro x
  cases x with
  | a => exact ⟨m, hm, rfl, hmin⟩
  | b =>
      obtain ⟨m', hm', hkey, hout⟩ := h.linked .a m hm
      refine ⟨m', hm', hkey, fun q' hq' => ?_⟩
      obtain ⟨q, hq, hqkey, hqout⟩ := h.linked .b q' hq'
      calc s.rank .b m' = s.rank .a m := Paired.rank_eq (x := .a) hkey hout
        _ ≤ s.rank .a q := hmin q hq
        _ = s.rank .b q' := Paired.rank_eq (x := .b) hqkey hqout

/-! ### The commands -/

variable [DecidableEq P]

theorem endCloses_recordHeartbeat (now : Instant) (link : P) (b : Hint A)
    (hfar : far = (b.node, b.controlAddr)) :
    EndCloses far [] d (d.recordHeartbeat now link b) := by
  refine ⟨rfl, rfl, rfl, by simp [Dissemination.recordHeartbeat], fun id y hy => ?_⟩
  simp only [Dissemination.recordHeartbeat, Function.update_apply] at hy
  split at hy
  · cases hy
    exact .inr hfar.symm
  · exact .inl hy

omit [LinearOrder A] in
theorem linkPeers_endReaders {ids : List P} {id : P} {y : NodeId × A}
    (h : (d.endReaders ids).linkPeers id = some y) : d.linkPeers id = some y := by
  simp only [Dissemination.endReaders] at h
  split at h
  · cases h
  · exact h

theorem endCloses_shutByPeer : EndCloses far keys d (d.shutByPeer keys) :=
  ⟨rfl, rfl, rfl, rfl, fun _ _ hy => .inl (linkPeers_endReaders hy)⟩

theorem endCloses_dedupLinks
    (hkeeps : ∀ p ∈ d.peers, d.keeps p = decide (p.key ∉ keys)) :
    EndCloses far keys d (d.dedupLinks.1.endReaders (d.dedupLinks.2.1.map Peer.id)) :=
  ⟨rfl, rfl, rfl, List.filter_congr hkeeps, fun _ _ hy => .inl (linkPeers_endReaders hy)⟩

/-- **Step**: every command closes links and nothing else. -/
theorem Paired.closes (h : s.Paired) (cmd : LinkCommand P) :
    s.Closes (s.perform cmd) (s.gone cmd) := by
  intro y
  cases cmd with
  | heard x now link =>
      simp only [perform, Dissemination.heartbeat,
        Dissemination.receive_heartbeat (h.selfNode_ne x)]
      by_cases hy : y = x
      · subst hy
        rw [Function.update_self]
        exact endCloses_recordHeartbeat now link _ rfl
      · rw [Function.update_of_ne hy]
        exact EndCloses.refl _
  | dedup x =>
      by_cases hy : y = x
      · subst hy
        simp only [perform, if_pos]
        exact endCloses_dedupLinks fun p hp => h.keeps_eq hp
      · simp only [perform, if_neg hy]
        exact endCloses_shutByPeer

/-! ## Whole runs -/

/-- What every run keeps of the least link. -/
theorem Paired.run {k : LinkKey A} (h : s.Paired) (hk : s.Holds k)
    (cmds : List (LinkCommand P)) : (s.run cmds).Paired ∧ (s.run cmds).Holds k :=
  Trace.run_invariant (I := fun x : NodePair P A => x.Paired ∧ x.Holds k)
    (fun _ cmd hx => ⟨hx.1.of_closes (hx.1.closes cmd),
      hx.2.of_closes (hx.1.closes cmd) (hx.2.notMem_gone hx.1 cmd)⟩) ⟨h, hk⟩ cmds

/-- Links never come back. -/
theorem Paired.peers_run (h : s.Paired) {cmds : List (LinkCommand P)} {x : Side} {p : Peer P A}
    (hp : p ∈ ((s.run cmds).node x).peers) : p ∈ (s.node x).peers := by
  induction cmds generalizing s with
  | nil => exact hp
  | cons cmd cmds ih =>
      have hc := h.closes cmd
      exact (hc.mem_peers.mp (ih (h.of_closes hc) hp)).1

/-- `x` ran `dedup_links` when it already knew who was on every link that is
left now. -/
def Settled (s : NodePair P A) (cmds : List (LinkCommand P)) (x : Side) : Prop :=
  ∃ before after, cmds = before ++ .dedup x :: after ∧
    ∀ p ∈ ((s.run cmds).node x).peers, ((s.run before).node x).Knows p.id

/-- After such a run the least link is the only one at that end. -/
theorem Settled.key_eq {k : LinkKey A} (h : s.Paired) (hk : s.Holds k)
    {cmds : List (LinkCommand P)} {x : Side} (hset : s.Settled cmds x) {p : Peer P A}
    (hp : p ∈ ((s.run cmds).node x).peers) : p.key = k := by
  obtain ⟨m, hm, rfl, -⟩ := (h.run hk cmds).2 x
  obtain ⟨before, after, rfl, hknew⟩ := hset
  obtain ⟨hb, hkb⟩ := h.run hk before
  set r := s.run before with hr
  have hrun : s.run (before ++ .dedup x :: after) = (r.perform (.dedup x)).run after := by
    rw [run, Trace.run_append, Trace.run_cons]
    rfl
  -- both links were there when `x` decided, and `x` knew both
  have hat {q : Peer P A} (hq : q ∈ ((s.run (before ++ .dedup x :: after)).node x).peers) :
      q ∈ (r.node x).peers ∧ q.key ∉ r.gone (.dedup x) := by
    rw [hrun] at hq
    have hc := hb.closes (.dedup x)
    exact hc.mem_peers.mp ((hb.of_closes hc).peers_run hq)
  obtain ⟨hpr, hpgone⟩ := hat hp
  obtain ⟨hmr, -⟩ := hat hm
  have hle : r.rank x p ≤ r.rank x m := by
    refine (hb.keeps_iff hpr).mp ?_ (hknew p hp) m hmr (hknew m hm)
    rw [hb.keeps_eq hpr]
    exact decide_eq_true hpgone
  have hge : r.rank x m ≤ r.rank x p := by
    obtain ⟨m', hm', hkey, hmin⟩ := hkb x
    rw [← hb.eq_of_key hm' hmr hkey]
    exact hmin p hpr
  exact congrArg (fun c : LinkRank A => (ofLex c).2) (le_antisymm hle hge)

/-- **Duplicate links resolve alike at both ends.** However hearing of each
other and dropping links interleave, both ends keep the least link; and once
an end has run `dedup_links` knowing who is on every link that is left, that
link is the only one, at both. -/
theorem dedup_agrees (h : s.Paired) {m : Peer P A} (hm : m ∈ (s.node .a).peers)
    (hmin : ∀ q ∈ (s.node .a).peers, s.rank .a m ≤ s.rank .a q)
    (cmds : List (LinkCommand P)) :
    (∀ x, ∃ p ∈ ((s.run cmds).node x).peers, p.key = m.key) ∧
    ((∃ x, s.Settled cmds x) →
      ∀ x, ∃ p, ((s.run cmds).node x).peers = [p] ∧ p.key = m.key) := by
  have hk := h.holds hm hmin
  obtain ⟨hend, hkend⟩ := h.run hk cmds
  have hboth (x : Side) : ∃ p ∈ ((s.run cmds).node x).peers, p.key = m.key := by
    obtain ⟨p, hp, hkey, -⟩ := hkend x
    exact ⟨p, hp, hkey⟩
  refine ⟨hboth, fun ⟨x, hset⟩ y => ?_⟩
  have hall : ∀ p ∈ ((s.run cmds).node y).peers, p.key = m.key := by
    intro p hp
    rcases Side.eq_or_eq_other x y with rfl | rfl
    · exact hset.key_eq h hk hp
    · obtain ⟨q, hq, hkey, -⟩ := hend.linked _ p hp
      rw [Side.other_other] at hq
      exact hkey.symm.trans (hset.key_eq h hk hq)
  obtain ⟨p, hp, hkey⟩ := hboth y
  exact ⟨p, hend.peers_eq_singleton hp hall, hkey⟩

end Steps

/-- Nodes 1 and 2 have dialled each other. -/
def crossDialled : NodePair ℕ ℕ where
  node
    | .a => { Dissemination.new 1 8001 10 (fun _ => none) with
        peers := [⟨1, linkKey 8001 5002, false⟩, ⟨2, linkKey 5001 8002, true⟩] }
    | .b => { Dissemination.new 2 8002 10 (fun _ => none) with
        peers := [⟨1, linkKey 8002 5001, false⟩, ⟨2, linkKey 5002 8001, true⟩] }

theorem crossDialled_agrees :
    crossDialled.Paired ∧
      ∀ x, ∃ p, ((crossDialled.run [.heard .a 0 1, .heard .b 0 1, .heard .a 0 2, .dedup .b,
        .dedup .a]).node x).peers = [p] ∧ p.key = linkKey 5001 8002 := by
  have hpaired : crossDialled.Paired := by
    refine ⟨by decide +kernel, ?_, ?_, ?_, ?_⟩
    · intro x
      cases x <;> decide +kernel
    · intro x
      cases x <;> decide +kernel
    · intro x id y hy
      cases x <;> cases hy
    · intro x
      cases x <;> decide +kernel
  refine ⟨hpaired, (dedup_agrees (m := ⟨2, linkKey 5001 8002, true⟩) hpaired (by decide +kernel)
    (by decide +kernel) _).2
    ⟨.a, [.heard .a 0 1, .heard .b 0 1, .heard .a 0 2, .dedup .b], [], rfl, ?_⟩⟩
  decide +kernel

end XchannelNet.NodePair
