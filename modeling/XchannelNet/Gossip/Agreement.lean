import XchannelNet.Gossip.Model

/-!
# Gossip agreement at quiescence

The invariant relates the two registries of a link to what is under way
between them: whatever the host of an adopted end knows, its neighbour knows
too, or is about to be told (`Inv.covered`). Keeping that up when a merge
moves a registry needs the converse bound as well: nothing a node ever sent
is above its own entry, so the peer a relay skips has already got it.
-/

namespace XchannelNet.Gossip

variable {V E : Type*}

/-- The key a node stands at for a name. -/
def Net.key (s : Net V E) (v : V) (n : ChannelName) : WithBot OrderingKey :=
  (s.node v).registry.keyAt n

/-- An identity under way from end `e` to the other side. -/
def OnTheWay [DecidableEq E] (T : Topology V E) (s : Net V E) (e : E) (id : ChannelIdentity) :
    Prop :=
  id ∈ s.wire e ∨ (T.opp e, id) ∈ (s.node (T.host (T.opp e))).inbox ∨
    ∃ out ∈ (s.node (T.host e)).pending, out.targets e = true ∧ out.identity = id

/-- What the host of `e` holds for `n` is known across the link, or on its way. -/
def Covered [DecidableEq E] (T : Topology V E) (s : Net V E) (e : E) (n : ChannelName) : Prop :=
  s.key (T.host e) n ≤ s.key (T.host (T.opp e)) n ∨
    ∃ id, OnTheWay T s e id ∧ id.name = n ∧ s.key (T.host e) n ≤ (id.key : WithBot OrderingKey)

/-- What holds of every run in which creations of names `fails` may fail behind
their claim. -/
structure Inv [DecidableEq E] (T : Topology V E) (fails : ChannelName → Prop) (s : Net V E) :
    Prop where
  owed : ∀ v, ∀ out ∈ (s.node v).pending,
    (out.identity.key : WithBot OrderingKey) ≤ s.key v out.identity.name
  sent : ∀ e, ∀ id ∈ s.wire e, (id.key : WithBot OrderingKey) ≤ s.key (T.host e) id.name
  received : ∀ v source id, (source, id) ∈ (s.node v).inbox →
    (id.key : WithBot OrderingKey) ≤ s.key (T.host (T.opp source)) id.name
  covered : ∀ e, s.ends e = .up → s.ends (T.opp e) ≠ .down → ∀ n, ¬ fails n → Covered T s e n

section Frame

variable [DecidableEq V]

theorem Net.setNode_node (s : Net V E) (v w : V) (st : NodeState E) :
    (s.setNode v st).node w = if w = v then st else s.node w := by
  simp [Net.setNode, Function.update_apply]

theorem Net.setNode_self (s : Net V E) (v : V) (st : NodeState E) :
    (s.setNode v st).node v = st := by
  simp [Net.setNode_node]

theorem Net.key_setNode (s : Net V E) (v w : V) (st : NodeState E) (n : ChannelName) :
    (s.setNode v st).key w n = if w = v then st.registry.keyAt n else s.key w n := by
  simp only [Net.key, Net.setNode_node]
  split <;> rfl

theorem Net.key_setNode_of_registry {s : Net V E} {v : V} {st : NodeState E}
    (h : st.registry = (s.node v).registry) (w : V) (n : ChannelName) :
    (s.setNode v st).key w n = s.key w n := by
  rw [Net.key_setNode]
  split
  · rename_i hw
    rw [hw, h]
    rfl
  · rfl

theorem key_le_handle {s : Net V E} {v : V} {source : E} {id : ChannelIdentity}
    {rest : List (E × ChannelIdentity)} (w : V) (n : ChannelName) :
    s.key w n ≤ (s.handle v source id rest).key w n := by
  rw [Net.handle, Net.key_setNode]
  split
  · rename_i hw
    subst hw
    exact Registry.keyAt_le_mergeTracked _ id n
  · exact le_rfl

end Frame

/-! ## Steps inside one node -/

/-- What a step that touches a single node has to respect: its keys only
rise, it handles an identity by absorbing it, and a key that rose is owed to
every peer that does not have it yet. -/
structure LocalStep [DecidableEq E] (T : Topology V E) (s : Net V E) (v : V)
    (st : NodeState E) : Prop where
  grows : ∀ n, s.key v n ≤ st.registry.keyAt n
  inbox : ∀ x ∈ st.inbox, x ∈ (s.node v).inbox
  handled : ∀ x ∈ (s.node v).inbox,
    x ∈ st.inbox ∨ (x.2.key : WithBot OrderingKey) ≤ st.registry.keyAt x.2.name
  kept : ∀ out ∈ (s.node v).pending, out ∈ st.pending
  owed : ∀ out ∈ st.pending, out ∈ (s.node v).pending ∨
    (out.identity.key : WithBot OrderingKey) ≤ st.registry.keyAt out.identity.name
  told : ∀ n, st.registry.keyAt n = s.key v n ∨ ∀ e, T.host e = v →
    (∃ out ∈ st.pending, out.targets e = true ∧ out.identity.name = n ∧
      st.registry.keyAt n ≤ (out.identity.key : WithBot OrderingKey)) ∨
    st.registry.keyAt n ≤ s.key (T.host (T.opp e)) n

section LocalSteps

variable [DecidableEq E] {T : Topology V E} {fails : ChannelName → Prop} {s : Net V E} {v : V}
  {st : NodeState E}

/-- A local merge announced to every peer, or one that moved nothing. -/
theorem localStep_announce {r : Registry} {id : ChannelIdentity} {outs : List (Outgoing E)}
    (hr : ∀ n, r.keyAt n = (((s.node v).registry.mergeTracked id).1).keyAt n)
    (houts : outs = [.announce id] ∨
      outs = [] ∧ ¬ ((s.node v).registry.mergeTracked id).2.changed = true) :
    LocalStep T s v { s.node v with registry := r, pending := (s.node v).pending ++ outs } where
  grows := fun n => (Registry.keyAt_le_mergeTracked _ id n).trans (hr n).ge
  inbox := fun _ hx => hx
  handled := fun _ hx => .inl hx
  kept := fun _ ho => List.mem_append_left _ ho
  owed := by
    intro out ho
    rcases List.mem_append.mp ho with ho | ho
    · exact .inl ho
    · rcases houts with rfl | ⟨rfl, -⟩
      · rw [List.mem_singleton.mp ho]
        exact .inr ((Registry.key_le_keyAt_mergeTracked _ id).trans (hr _).ge)
      · cases ho
  told := by
    intro n
    by_cases hc : ((s.node v).registry.mergeTracked id).2.changed = true
    · rcases houts with rfl | ⟨-, hnc⟩
      · by_cases hn : id.name = n
        · subst hn
          refine .inr fun e _ => .inl ⟨.announce id, by simp, rfl, rfl, ?_⟩
          rw [Registry.mergeTracked_changed] at hc
          simp only [hr, Registry.keyAt_mergeTracked, if_true]
          exact max_le hc.le le_rfl
        · left
          simp only [hr, Registry.keyAt_mergeTracked, if_neg hn]
          rfl
      · exact absurd hc hnc
    · left
      simp only [hr, Registry.keyAt_mergeTracked_of_not_changed hc]
      rfl

theorem localStep_nothing : LocalStep T s v (s.node v) where
  grows := fun _ => le_rfl
  inbox := fun _ hx => hx
  handled := fun _ hx => .inl hx
  kept := fun _ ho => ho
  owed := fun _ ho => .inl ho
  told := fun _ => .inl rfl

theorem localStep_reap (n : ChannelName) : LocalStep T s v ((s.node v).reap n) := by
  rw [NodeState.reap]
  rcases Registry.reap_cases (s.node v).registry n with h | ⟨id, -, -, h⟩
  · rw [h]
    exact localStep_nothing
  · rw [h]
    exact localStep_announce (fun _ => rfl) (.inl rfl)

theorem localStep_deregister (self : NodeId) (n : ChannelName) :
    LocalStep T s v ((s.node v).deregister self n) := by
  rw [NodeState.deregister]
  rcases Registry.deregister_cases (s.node v).registry n self with h | ⟨h, -⟩
  · rw [h]
    exact localStep_nothing
  · rw [h]
    exact localStep_reap n

theorem localStep_register (self : NodeId) (now : UInt64) (q : ClaimRequest) :
    LocalStep T s v ((s.node v).register self now q) := by
  have hfst := Registry.claimName_fst (s.node v).registry self now q
  rw [NodeState.register]
  split
  · rename_i r id heq
    have hid : id = (s.node v).registry.claimIdentity self now q :=
      Registry.claimName_ok (congrArg Prod.snd heq)
    rw [heq] at hfst
    subst hid hfst
    exact localStep_announce (fun _ => rfl) (.inl rfl)
  · rename_i r err heq
    rw [heq] at hfst
    subst hfst
    have hnc : ¬ ((s.node v).registry.mergeTracked
        ((s.node v).registry.claimIdentity self now q)).2.changed = true := by
      intro hc
      have hok := Registry.claimName_ok_of_changed hc
      rw [heq] at hok
      cases hok
    have h := localStep_announce (T := T) (s := s) (v := v) (fun _ => rfl) (.inr ⟨rfl, hnc⟩)
    simpa using h

/-- Handling an identity. The relay skips the end it came in on, whose host
has sent it and so stands at least as high. -/
theorem localStep_handle (h : Inv T fails s) {source : E} {id : ChannelIdentity}
    {rest : List (E × ChannelIdentity)} (hin : (s.node v).inbox = (source, id) :: rest) :
    LocalStep T s v (NodeState.handle { s.node v with inbox := rest } source id) where
  grows := fun n => Registry.keyAt_le_mergeTracked _ id n
  inbox := fun x hx => by
    rw [hin]
    exact List.mem_cons_of_mem _ hx
  handled := by
    intro x hx
    rw [hin] at hx
    rcases List.mem_cons.mp hx with rfl | hx
    · exact .inr (Registry.key_le_keyAt_mergeTracked _ id)
    · exact .inl hx
  kept := fun _ ho => List.mem_append_left _ ho
  owed := by
    intro out ho
    rcases NodeState.mem_pending_handle ho with ho | hw
    · exact .inl ho
    · right
      rw [hw]
      exact Registry.key_winner_le _ id
  told := by
    intro n
    by_cases hc : ((s.node v).registry.mergeTracked id).2.changed = true
    · by_cases hn : id.name = n
      · subst hn
        have hwin : (s.node v).registry.winnerOver id = id :=
          Registry.winnerOver_of_lt ((Registry.mergeTracked_changed _ _).mp hc)
        have hkey : ((s.node v).registry.mergeTracked id).1.keyAt id.name
            = (id.key : WithBot OrderingKey) := by
          rw [Registry.keyAt_mergeTracked, if_pos rfl]
          exact max_eq_right ((Registry.mergeTracked_changed _ _).mp hc).le
        refine .inr fun e _ => ?_
        by_cases he : e = source
        · subst he
          exact .inr (hkey.le.trans (h.received v e id (by simp [hin])))
        · refine .inl ⟨.relay source id, ?_, by simp [Outgoing.targets, he], rfl, hkey.le⟩
          simp [NodeState.handle, hc, hwin]
      · left
        change ((s.node v).registry.mergeTracked id).1.keyAt n = _
        rw [Registry.keyAt_mergeTracked, if_neg hn]
        rfl
    · exact .inl (Registry.keyAt_mergeTracked_of_not_changed hc n)

variable [DecidableEq V]

theorem LocalStep.key_le (h : LocalStep T s v st) (w : V) (n : ChannelName) :
    s.key w n ≤ (s.setNode v st).key w n := by
  rw [Net.key_setNode]
  split
  · rename_i hw
    subst hw
    exact h.grows n
  · exact le_rfl

/-- What was under way still is, or has been absorbed on the far side. -/
theorem LocalStep.onTheWay (h : LocalStep T s v st) {e : E} {id : ChannelIdentity}
    (hid : OnTheWay T s e id) : OnTheWay T (s.setNode v st) e id ∨
      (id.key : WithBot OrderingKey) ≤ (s.setNode v st).key (T.host (T.opp e)) id.name := by
  rcases hid with hw | hi | ⟨out, ho, ht, rfl⟩
  · exact .inl (.inl hw)
  · by_cases hv : T.host (T.opp e) = v
    · rw [hv] at hi
      rcases h.handled _ hi with hi | hle
      · refine .inl (.inr (.inl ?_))
        rw [hv, Net.setNode_self]
        exact hi
      · rw [Net.key_setNode, if_pos hv]
        exact .inr hle
    · refine .inl (.inr (.inl ?_))
      rw [Net.setNode_node, if_neg hv]
      exact hi
  · refine .inl (.inr (.inr ⟨out, ?_, ht, rfl⟩))
    rw [Net.setNode_node]
    split
    · rename_i hv
      rw [hv] at ho
      exact h.kept out ho
    · exact ho

theorem LocalStep.covered (h : LocalStep T s v st) {e : E} {n : ChannelName}
    (hc : Covered T s e n) : Covered T (s.setNode v st) e n := by
  have hold : (s.setNode v st).key (T.host e) n = s.key (T.host e) n →
      Covered T (s.setNode v st) e n := by
    intro hk
    rcases hc with hle | ⟨id, hid, rfl, hle⟩
    · exact .inl (hk ▸ hle.trans (h.key_le _ n))
    · rcases h.onTheWay hid with hid | hfar
      · exact .inr ⟨id, hid, rfl, hk ▸ hle⟩
      · exact .inl (hk ▸ hle.trans hfar)
  by_cases hv : T.host e = v
  · rcases h.told n with hk | htold
    · apply hold
      rw [Net.key_setNode, if_pos hv, hk, hv]
    · -- the key rose here: the news is owed to this end, or not news there
      have hk : (s.setNode v st).key (T.host e) n = st.registry.keyAt n := by
        rw [Net.key_setNode, if_pos hv]
      rcases htold e hv with ⟨out, ho, ht, hn, hle⟩ | hle
      · refine .inr ⟨out.identity, .inr (.inr ⟨out, ?_, ht, rfl⟩), hn, hk ▸ hle⟩
        rw [hv, Net.setNode_self]
        exact ho
      · exact .inl (hk ▸ hle.trans (h.key_le _ n))
  · apply hold
    rw [Net.key_setNode, if_neg hv]

theorem Inv.local (h : Inv T fails s) (hl : LocalStep T s v st) :
    Inv T fails (s.setNode v st) where
  owed := by
    intro w out ho
    rw [Net.setNode_node] at ho
    by_cases hw : w = v
    · subst hw
      rw [if_pos rfl] at ho
      rw [Net.key_setNode, if_pos rfl]
      rcases hl.owed out ho with ho | hle
      · exact (h.owed w out ho).trans (hl.grows _)
      · exact hle
    · rw [if_neg hw] at ho
      exact (h.owed w out ho).trans (hl.key_le _ _)
  sent := fun e id hid => (h.sent e id hid).trans (hl.key_le _ _)
  received := by
    intro w source id hid
    rw [Net.setNode_node] at hid
    refine (h.received w source id ?_).trans (hl.key_le _ _)
    by_cases hw : w = v
    · subst hw
      rw [if_pos rfl] at hid
      exact hl.inbox _ hid
    · rw [if_neg hw] at hid
      exact hid
  covered := fun e hup hopp n hn => hl.covered (h.covered e hup hopp n hn)

end LocalSteps

/-! ## Steps on the wires -/

/-- What a step that moves messages has to respect: no registry moves, no
message appears from nowhere, and a link that is up afterwards was up and
kept what was under way, or has just been covered. -/
structure WireStep [DecidableEq E] (T : Topology V E) (s s' : Net V E) : Prop where
  key : ∀ v n, s'.key v n = s.key v n
  owed : ∀ v, ∀ out ∈ (s'.node v).pending, out ∈ (s.node v).pending
  sent : ∀ e, ∀ id ∈ s'.wire e, id ∈ s.wire e ∨
    (id.key : WithBot OrderingKey) ≤ s.key (T.host e) id.name
  received : ∀ v source id, (source, id) ∈ (s'.node v).inbox →
    (source, id) ∈ (s.node v).inbox ∨
      (id.key : WithBot OrderingKey) ≤ s.key (T.host (T.opp source)) id.name
  covered : ∀ e, s'.ends e = .up → s'.ends (T.opp e) ≠ .down →
    (s.ends e = .up ∧ s.ends (T.opp e) ≠ .down ∧
      ∀ id, OnTheWay T s e id → OnTheWay T s' e id) ∨ ∀ n, Covered T s' e n

section WireSteps

variable [DecidableEq E] {T : Topology V E} {fails : ChannelName → Prop} {s s' : Net V E}

theorem Inv.wire (h : Inv T fails s) (hw : WireStep T s s') : Inv T fails s' where
  owed := fun v out ho => (h.owed v out (hw.owed v out ho)).trans (hw.key v _).ge
  sent := by
    intro e id hid
    rw [hw.key]
    exact (hw.sent e id hid).elim (h.sent e id) (fun hle => hle)
  received := by
    intro v source id hid
    rw [hw.key]
    exact (hw.received v source id hid).elim (h.received v source id) (fun hle => hle)
  covered := by
    intro e hup hopp n hn
    rcases hw.covered e hup hopp with ⟨hup', hopp', hmono⟩ | hc
    · rcases h.covered e hup' hopp' n hn with hle | ⟨id, hid, hn, hle⟩
      · exact .inl (by rw [hw.key, hw.key]; exact hle)
      · exact .inr ⟨id, hmono id hid, hn, by rw [hw.key]; exact hle⟩
    · exact hc n

/-- An adopted end is covered by the snapshot it has just been sent. -/
theorem wireStep_adopt {e : E} (hfresh : s.ends e = .fresh) : WireStep T s (s.adopt T e) where
  key := fun _ _ => rfl
  owed := fun _ _ ho => ho
  sent := by
    intro e' id hid
    simp only [Net.adopt, Function.update_apply] at hid
    split at hid
    · rename_i he
      subst he
      rcases List.mem_append.mp hid with hid | hid
      · exact .inl hid
      · exact .inr (Registry.key_le_keyAt_of_mem_iter hid)
    · exact .inl hid
  received := fun _ _ _ hid => .inl hid
  covered := by
    intro e' hup hopp
    by_cases he : e' = e
    · subst he
      right
      intro n
      cases hraw : (s.node (T.host e')).registry.getRaw n with
      | none =>
          left
          have hbot : (s.adopt T e').key (T.host e') n = ⊥ := by
            change Registry.keyAt _ n = ⊥
            rw [Registry.keyAt]
            exact congrArg _ hraw
          rw [hbot]
          exact bot_le
      | some id =>
          have hname : id.name = n := Registry.getRaw_name hraw
          subst hname
          refine .inr ⟨id, .inl ?_, rfl, ?_⟩
          · simp [Net.adopt, Registry.mem_iter.mpr hraw]
          · change Registry.keyAt _ id.name ≤ _
            rw [Registry.keyAt]
            exact (congrArg (KeyMerge.slotKey ChannelIdentity.key) hraw).le
    · left
      simp only [Net.adopt, Function.update_apply, if_neg he] at hup hopp
      refine ⟨hup, ?_, fun id hid => ?_⟩
      · split at hopp
        · rename_i ho
          rw [ho, hfresh]
          decide
        · exact hopp
      · rcases hid with hid | hid
        · exact .inl (by simpa [Net.adopt, he] using hid)
        · exact .inr hid

theorem wireStep_adoptFailed {e : E} (k : ℕ) : WireStep T s (s.adoptFailed T e k) where
  key := fun _ _ => rfl
  owed := fun _ _ ho => ho
  sent := by
    intro e' id hid
    simp only [Net.adoptFailed, Function.update_apply] at hid
    split at hid
    · rename_i he
      subst he
      rcases List.mem_append.mp hid with hid | hid
      · exact .inl hid
      · exact .inr (Registry.key_le_keyAt_of_mem_iter (List.mem_of_mem_take hid))
    · exact .inl hid
  received := fun _ _ _ hid => .inl hid
  covered := by
    intro e' hup hopp
    left
    simp only [Net.adoptFailed, Function.update_apply] at hup hopp
    split at hup
    · cases hup
    · rename_i he
      split at hopp
      · exact absurd rfl hopp
      · refine ⟨hup, hopp, fun id hid => ?_⟩
        rcases hid with hid | hid
        · exact .inl (by simpa [Net.adoptFailed, he] using hid)
        · exact .inr hid

theorem wireStep_dropEnd {e : E} : WireStep T s (s.dropEnd e) where
  key := fun _ _ => rfl
  owed := fun _ _ ho => ho
  sent := fun _ _ hid => .inl hid
  received := fun _ _ _ hid => .inl hid
  covered := by
    intro e' hup hopp
    left
    simp only [Net.dropEnd, Function.update_apply] at hup hopp
    split at hup
    · cases hup
    · split at hopp
      · exact absurd rfl hopp
      · exact ⟨hup, hopp, fun _ hid => hid⟩

theorem wireStep_lose {e : E} (k : ℕ) (hdown : s.ends e = .down ∨ s.ends (T.opp e) = .down) :
    WireStep T s (s.lose e k) where
  key := fun _ _ => rfl
  owed := fun _ _ ho => ho
  sent := by
    intro e' id hid
    left
    simp only [Net.lose, Function.update_apply] at hid
    split at hid
    · rename_i he
      rw [he]
      exact List.mem_of_mem_take hid
    · exact hid
  received := fun _ _ _ hid => .inl hid
  covered := by
    intro e' hup hopp
    refine .inl ⟨hup, hopp, fun id hid => ?_⟩
    rcases hid with hid | hid
    · have he : e' ≠ e := by
        rintro rfl
        rcases hdown with hd | hd
        · exact absurd (hup.symm.trans hd) (by decide)
        · exact hopp hd
      exact .inl (by simpa [Net.lose, he] using hid)
    · exact .inr hid

variable [DecidableEq V]

theorem key_recv {e : E} {id : ChannelIdentity} {rest : List ChannelIdentity} (w : V)
    (n : ChannelName) : (s.recv T e id rest).key w n = s.key w n := by
  change (s.setNode _ _).key w n = _
  apply Net.key_setNode_of_registry
  rfl

theorem key_flush {v : V} {out : Outgoing E} {rest : List (Outgoing E)} (w : V)
    (n : ChannelName) : (s.flush T v out rest).key w n = s.key w n := by
  change (s.setNode _ _).key w n = _
  apply Net.key_setNode_of_registry
  rfl

/-- A message read leaves what is owed as it is. -/
theorem pending_recv (s : Net V E) (e : E) (id : ChannelIdentity) (rest : List ChannelIdentity)
    (v : V) : ((s.recv T e id rest).node v).pending = (s.node v).pending := by
  simp only [Net.recv, Net.setNode_node]
  split
  · rename_i hv
    rw [hv]
  · rfl

theorem wireStep_recv (h : Inv T fails s) {e : E} {id : ChannelIdentity}
    {rest : List ChannelIdentity} (hwire : s.wire e = id :: rest) :
    WireStep T s (s.recv T e id rest) where
  key := key_recv
  owed := by
    intro v out ho
    rwa [pending_recv] at ho
  sent := by
    intro e' x hx
    left
    simp only [Net.recv, Function.update_apply] at hx
    split at hx
    · rename_i he
      rw [he, hwire]
      exact List.mem_cons_of_mem _ hx
    · exact hx
  received := by
    intro v source x hx
    simp only [Net.recv, Net.setNode_node] at hx
    split at hx
    · rename_i hv
      subst hv
      rcases List.mem_append.mp hx with hx | hx
      · exact .inl hx
      · obtain ⟨rfl, rfl⟩ := Prod.mk.inj (List.mem_singleton.mp hx)
        rw [T.opp_opp]
        exact .inr (h.sent e x (by simp [hwire]))
    · exact .inl hx
  covered := by
    intro e' hup hopp
    refine .inl ⟨hup, hopp, fun x hx => ?_⟩
    rcases hx with hx | hx | ⟨out, ho, ht, rfl⟩
    · by_cases he : e' = e
      · -- the identity read off this wire is now in the far inbox
        subst he
        rw [hwire] at hx
        rcases List.mem_cons.mp hx with rfl | hx
        · exact .inr (.inl (by simp [Net.recv, Net.setNode_self]))
        · exact .inl (by simp [Net.recv, hx])
      · exact .inl (by simpa [Net.recv, he] using hx)
    · refine .inr (.inl ?_)
      simp only [Net.recv, Net.setNode_node]
      split
      · rename_i hv
        rw [hv] at hx
        exact List.mem_append_left _ hx
      · exact hx
    · refine .inr (.inr ⟨out, ?_, ht, rfl⟩)
      rwa [pending_recv]

/-- A call leaves every inbox as it is. -/
theorem inbox_flush (s : Net V E) (v w : V) (out : Outgoing E)
    (rest : List (Outgoing E)) : ((s.flush T v out rest).node w).inbox = (s.node w).inbox := by
  simp only [Net.flush, Net.setNode_node]
  split
  · rename_i hw
    rw [hw]
  · rfl

theorem wireStep_flush (h : Inv T fails s) {v : V} {out : Outgoing E}
    {before after : List (Outgoing E)} (hpend : (s.node v).pending = before ++ out :: after) :
    WireStep T s (s.flush T v out (before ++ after)) where
  key := key_flush
  owed := by
    intro w o ho
    simp only [Net.flush, Net.setNode_node] at ho
    split at ho
    · rename_i hw
      rw [hw, hpend]
      exact ((List.sublist_cons_self _ _).append_left _).subset ho
    · exact ho
  sent := by
    intro e x hx
    simp only [Net.flush] at hx
    split at hx
    · rename_i hc
      rcases List.mem_append.mp hx with hx | hx
      · exact .inl hx
      · rw [List.mem_singleton.mp hx, hc.1]
        exact .inr (h.owed v out (by simp [hpend]))
    · exact .inl hx
  received := by
    intro w source x hx
    rw [inbox_flush] at hx
    exact .inl hx
  covered := by
    intro e hup hopp
    refine .inl ⟨hup, hopp, fun x hx => ?_⟩
    rcases hx with hx | hx | ⟨o, ho, ht, rfl⟩
    · left
      simp only [Net.flush]
      split
      · exact List.mem_append_left _ hx
      · exact hx
    · refine .inr (.inl ?_)
      rwa [inbox_flush]
    · by_cases hv : T.host e = v
      · -- either this very call reaches the wire, or it is still owed
        rw [hv, hpend] at ho
        rcases List.mem_append.mp ho with ho | ho
        · refine .inr (.inr ⟨o, ?_, ht, rfl⟩)
          simp [Net.flush, Net.setNode_node, hv, ho]
        · rcases List.mem_cons.mp ho with rfl | ho
          · have hup' : s.ends e = .up := hup
            exact .inl (by simp [Net.flush, hv, hup', ht])
          · refine .inr (.inr ⟨o, ?_, ht, rfl⟩)
            simp [Net.flush, Net.setNode_node, hv, ho]
      · refine .inr (.inr ⟨o, ?_, ht, rfl⟩)
        simpa [Net.flush, Net.setNode_node, hv] using ho

end WireSteps

/-! ## Every run -/

section Runs

variable [DecidableEq E] {T : Topology V E} {fails : ChannelName → Prop} {s s' : Net V E}

theorem inv_initial (h : Initial s) : Inv T fails s where
  owed := fun v out ho => by simp [(h.1 v).2] at ho
  sent := fun e id hid => by simp [(h.2 e).2] at hid
  received := fun v source id hid => by simp [(h.1 v).1] at hid
  covered := fun e hup _ _ _ => by simp [(h.2 e).1] at hup

/-- With nothing under way, coverage is an inequality of keys. -/
theorem Inv.key_le_of_quiescent (h : Inv T fails s) (hq : Quiescent T s) {e : E}
    (hlive : Live T s e) {n : ChannelName} (hn : ¬ fails n) :
    s.key (T.host e) n ≤ s.key (T.host (T.opp e)) n := by
  rcases h.covered e hlive.1 (by rw [hlive.2]; decide) n hn with hle | ⟨id, hid, -, -⟩
  · exact hle
  · exfalso
    rcases hid with hid | hid | ⟨out, ho, -, -⟩
    · simp [hq.1 e hlive] at hid
    · simp [(hq.2 _).1] at hid
    · simp [(hq.2 _).2] at ho

/-- Both ways round, keys are the same. -/
theorem Inv.agree (h : Inv T fails s) (hq : Quiescent T s) {e : E} (hlive : Live T s e)
    {n : ChannelName} (hn : ¬ fails n) :
    ((s.node (T.host e)).registry.getRaw n).map ChannelIdentity.key =
      ((s.node (T.host (T.opp e))).registry.getRaw n).map ChannelIdentity.key := by
  have hlive' : Live T s (T.opp e) := ⟨hlive.2, by rw [T.opp_opp]; exact hlive.1⟩
  have hback := h.key_le_of_quiescent hq hlive' hn
  rw [T.opp_opp] at hback
  exact KeyMerge.slotKey_inj.mp (le_antisymm (h.key_le_of_quiescent hq hlive hn) hback)

variable [DecidableEq V]

theorem inv_step (h : Inv T fails s) (hs : Step T s s') : Inv T fails s' := by
  cases hs with
  | gossip hg =>
      cases hg with
      | recv hw => exact h.wire (wireStep_recv h hw)
      | handle hin => exact h.local (localStep_handle h hin)
      | flush hp => exact h.wire (wireStep_flush h hp)
  | register v now q => exact h.local (localStep_register _ now q)
  | deregister v n => exact h.local (localStep_deregister _ n)
  | reap v n => exact h.local (localStep_reap n)
  | adopt hf => exact h.wire (wireStep_adopt hf)
  | adoptFailed k _ => exact h.wire (wireStep_adoptFailed k)
  | dropEnd _ => exact h.wire wireStep_dropEnd
  | lose k hd => exact h.wire (wireStep_lose k hd)

/-- A registration that is not announced any more was owed for its own name only. -/
theorem Inv.abandon (h : Inv T fails s) {v : V} {id : ChannelIdentity}
    {before after : List (Outgoing E)} (hfails : fails id.name)
    (hpending : (s.node v).pending = before ++ .announce id :: after) :
    Inv T fails (s.abandon v (before ++ after)) := by
  have hkey : ∀ w n, (s.abandon v (before ++ after)).key w n = s.key w n :=
    Net.key_setNode_of_registry rfl
  have hnode : ∀ w, (s.abandon v (before ++ after)).node w =
      if w = v then { s.node v with pending := before ++ after } else s.node w :=
    fun w => s.setNode_node v w _
  have hinbox : ∀ w, ((s.abandon v (before ++ after)).node w).inbox = (s.node w).inbox := by
    intro w
    rw [hnode]
    split
    · rename_i hw
      rw [hw]
    · rfl
  refine ⟨fun w out ho => ?_, fun e x hx => ?_, fun w source x hx => ?_,
    fun e hup hopp n hn => ?_⟩
  · rw [hkey]
    refine h.owed w out ?_
    rw [hnode] at ho
    split at ho
    · rename_i hw
      rw [hw, hpending]
      exact ((List.sublist_cons_self _ _).append_left _).subset ho
    · exact ho
  · rw [hkey]
    exact h.sent e x hx
  · rw [hkey]
    refine h.received w source x ?_
    rwa [hinbox] at hx
  · rw [Covered, hkey, hkey]
    rcases h.covered e hup hopp n hn with hle | ⟨x, hx, rfl, hle⟩
    · exact .inl hle
    · refine .inr ⟨x, ?_, rfl, hle⟩
      rcases hx with hx | hx | ⟨out, ho, ht, rfl⟩
      · exact .inl hx
      · refine .inr (.inl ?_)
        rwa [hinbox]
      · refine .inr (.inr ⟨out, ?_, ht, rfl⟩)
        rw [hnode]
        split
        · rename_i hw
          rw [hw, hpending] at ho
          rcases List.mem_append.mp ho with ho | ho
          · exact List.mem_append_left _ ho
          · rcases List.mem_cons.mp ho with rfl | ho
            · exact absurd hfails hn
            · exact List.mem_append_right _ ho
        · exact ho

theorem inv_falteringStep (h : Inv T fails s) (hs : FalteringStep T fails s s') :
    Inv T fails s' := by
  cases hs with
  | step hs => exact inv_step h hs
  | abandon hfails _ hpending => exact h.abandon hfails hpending

/-- **Agreement at quiescence**: in every reachable state with nothing in
flight, nothing unmerged and nothing owed, the two nodes of a live link hold
the same names at the same keys. -/
theorem quiescent_agreement (h : Run.Reachable Initial (Step T) s) (hq : Quiescent T s)
    {e : E} (hlive : Live T s e) (n : ChannelName) :
    ((s.node (T.host e)).registry.getRaw n).map ChannelIdentity.key =
      ((s.node (T.host (T.opp e))).registry.getRaw n).map ChannelIdentity.key := by
  have hinv : Inv T (fun _ => False) s :=
    h.invariant (fun _ h0 => inv_initial h0) (fun _ _ hi hs => inv_step hi hs)
  exact hinv.agree hq hlive id

end Runs

/-- Two nodes and one link. -/
def pair : Topology Bool Bool where
  self := fun v => if v then 2 else 1
  host := fun e => e
  opp := fun e => !e
  opp_opp := by decide

def pairEntry : ChannelIdentity :=
  { name := "c", owner := 1, regionSize := 4096, mtu := 0, earliestIndex := 0,
    registeredAtNanos := 100, epoch := 0, deleted := false, memberOf := none }

/-- One node has registered a channel, and there is no link yet. -/
def pairStart : Net Bool Bool where
  node := fun v => ⟨if v then .new else (Registry.new.mergeTracked pairEntry).1, [], []⟩
  ends := fun _ => .fresh
  wire := fun _ => []

def pairLinked : Net Bool Bool := (pairStart.adopt pair false).adopt pair true
def pairMerged : Net Bool Bool :=
  (pairLinked.recv pair false pairEntry []).handle true true pairEntry []
def pairEnd : Net Bool Bool := pairMerged.flush pair true (.relay true pairEntry) ([] ++ [])

theorem pairEnd_reachable : Run.Reachable Initial (Step pair) pairEnd := by
  have h0 : Run.Reachable Initial (Step pair) pairStart := .start (by simp [Initial, pairStart])
  have h1 : Run.Reachable Initial (Step pair) (pairStart.adopt pair false) :=
    h0.next (.adopt (by decide))
  have h2 : Run.Reachable Initial (Step pair) pairLinked := h1.next (.adopt (by decide))
  have h3 : Run.Reachable Initial (Step pair) (pairLinked.recv pair false pairEntry []) :=
    h2.next (.gossip (.recv (by decide)))
  have h4 : Run.Reachable Initial (Step pair) pairMerged :=
    h3.next (.gossip (.handle (by rfl)))
  exact h4.next (.gossip (.flush (by rfl)))

theorem quiescent_agreement_pair :
    Quiescent pair pairEnd ∧ Live pair pairEnd false ∧
    ((pairEnd.node true).registry.getRaw "c").map ChannelIdentity.key = some pairEntry.key := by
  have hq : Quiescent pair pairEnd := by
    refine ⟨fun e _ => ?_, fun v => ?_⟩
    · cases e <;> decide
    · cases v <;> exact ⟨rfl, rfl⟩
  have hl : Live pair pairEnd false := ⟨rfl, rfl⟩
  refine ⟨hq, hl, ?_⟩
  rw [← show ((pairEnd.node false).registry.getRaw "c").map ChannelIdentity.key
    = some pairEntry.key by decide]
  exact (quiescent_agreement pairEnd_reachable hq hl "c").symm

end XchannelNet.Gossip
