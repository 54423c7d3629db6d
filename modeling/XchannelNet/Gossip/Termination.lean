import XchannelNet.Gossip.Agreement
import XchannelNet.Lib.Weight

/-!
# Gossip termination

One delivery can put many messages on the wires, so their number is no
measure. What shrinks is lexicographic. First, the room registries have left
to rise: a merge that moves a map uses up one (node, identity) pair, over
the finite set of identities in circulation. Below that, the weight of the
messages, where a message weighs more the more circulating identities lie
strictly above it: a reply always carries something strictly above what it
answers, and a tie on the key is answered by nothing.
-/

namespace XchannelNet.Gossip

open Finset

variable {V E : Type*} [Fintype V] [Fintype E]

/-- Every identity held, queued, owed or in flight anywhere. -/
def Net.circulating (s : Net V E) : Finset ChannelIdentity :=
  (univ.biUnion fun v => ((s.node v).registry.iter ++ (s.node v).inbox.map Prod.snd
    ++ (s.node v).pending.map Outgoing.identity).toFinset) ∪
  univ.biUnion fun e => (s.wire e).toFinset

/-- How many identities of `K` lie strictly above `id`, under its name. -/
def above (K : Finset ChannelIdentity) (id : ChannelIdentity) : ℕ :=
  #{x ∈ K | x.name = id.name ∧ id.key < x.key}

/-- The (node, identity) pairs a merge could still use up. -/
def room (K : Finset ChannelIdentity) (s : Net V E) : ℕ :=
  ∑ v, #{x ∈ K | s.key v x.name < (x.key : WithBot OrderingKey)}

def wireWeight (K : Finset ChannelIdentity) (id : ChannelIdentity) : ℕ :=
  3 * above K id + 3

def inboxWeight (K : Finset ChannelIdentity) (x : E × ChannelIdentity) : ℕ :=
  3 * above K x.2 + 2

/-- A call weighs more than everything it will put on the wires. -/
def outWeight (K : Finset ChannelIdentity) : Outgoing E → ℕ
  | .announce id => Fintype.card E * wireWeight K id + 1
  | .relay _ id => Fintype.card E * wireWeight K id + 1
  | .reply _ id => wireWeight K id + 1

def nodeWeight (K : Finset ChannelIdentity) (st : NodeState E) : ℕ :=
  (st.inbox.map (inboxWeight K)).sum + (st.pending.map (outWeight K)).sum

/-- The weight of all messages. -/
def weight (K : Finset ChannelIdentity) (s : Net V E) : ℕ :=
  ∑ v, nodeWeight K (s.node v) + ∑ e, ((s.wire e).map (wireWeight K)).sum

/-- The measure every delivery decreases. -/
def gossipMeasure (s : Net V E) : ℕ ×ₗ ℕ :=
  toLex (room s.circulating s, weight s.circulating s)

/-! ## Fewer identities in circulation weigh less -/

section Mono

variable {K K' : Finset ChannelIdentity}

theorem above_mono (h : K' ⊆ K) (id : ChannelIdentity) : above K' id ≤ above K id :=
  card_le_card (filter_subset_filter _ h)

omit [Fintype E] in
theorem room_mono {s s' : Net V E} (h : K' ⊆ K) (hkey : ∀ v n, s.key v n ≤ s'.key v n) :
    room K' s' ≤ room K s := by
  apply sum_le_sum
  intro v _
  apply card_le_card
  intro x hx
  rw [mem_filter] at hx ⊢
  exact ⟨h hx.1, (hkey v _).trans_lt hx.2⟩

omit [Fintype V] in
theorem outWeight_mono (h : K' ⊆ K) (out : Outgoing E) : outWeight K' out ≤ outWeight K out := by
  have hw (id : ChannelIdentity) : wireWeight K' id ≤ wireWeight K id := by
    have := above_mono h id
    simp only [wireWeight]
    omega
  cases out with
  | announce id => exact Nat.succ_le_succ (Nat.mul_le_mul_left _ (hw id))
  | relay _ id => exact Nat.succ_le_succ (Nat.mul_le_mul_left _ (hw id))
  | reply _ id => exact Nat.succ_le_succ (hw id)

theorem weight_mono (h : K' ⊆ K) (s : Net V E) : weight K' s ≤ weight K s := by
  apply Nat.add_le_add
  · apply sum_le_sum
    intro v _
    apply Nat.add_le_add
    · apply List.sum_le_sum
      intro x _
      have := above_mono h x.2
      simp only [inboxWeight]
      omega
    · exact List.sum_le_sum fun out _ => outWeight_mono h out
  · apply sum_le_sum
    intro e _
    apply List.sum_le_sum
    intro id _
    have := above_mono h id
    simp only [wireWeight]
    omega

end Mono

/-- An identity of `K` strictly above another has strictly less above it. -/
theorem above_lt {K : Finset ChannelIdentity} {id w : ChannelIdentity} (hw : w ∈ K)
    (hname : w.name = id.name) (hlt : id.key < w.key) : above K w < above K id := by
  apply card_lt_card
  rw [ssubset_iff_of_subset]
  · refine ⟨w, ?_, ?_⟩
    · rw [mem_filter]
      exact ⟨hw, hname, hlt⟩
    · rw [mem_filter]
      exact fun h => lt_irrefl _ h.2.2
  · intro x hx
    rw [mem_filter] at hx ⊢
    exact ⟨hx.1, hx.2.1.trans hname, hlt.trans hx.2.2⟩

/-! ## Steps put nothing new into circulation -/

theorem mem_circulating {s : Net V E} {id : ChannelIdentity} :
    id ∈ s.circulating ↔
      (∃ v, (s.node v).registry.getRaw id.name = some id ∨
        (∃ source, (source, id) ∈ (s.node v).inbox) ∨
        ∃ out ∈ (s.node v).pending, out.identity = id) ∨
      ∃ e, id ∈ s.wire e := by
  simp [Net.circulating, Registry.mem_iter]

theorem circulating_node {s : Net V E} {v : V} {id : ChannelIdentity}
    (h : (s.node v).registry.getRaw id.name = some id ∨
      (∃ source, (source, id) ∈ (s.node v).inbox) ∨
      ∃ out ∈ (s.node v).pending, out.identity = id) : id ∈ s.circulating :=
  mem_circulating.mpr (.inl ⟨v, h⟩)

theorem circulating_wire {s : Net V E} {e : E} {id : ChannelIdentity} (h : id ∈ s.wire e) :
    id ∈ s.circulating :=
  mem_circulating.mpr (.inr ⟨e, h⟩)

/-- The winner of a merge at a node is in circulation there already. -/
theorem circulating_winner {s : Net V E} {v : V} {source : E} {id : ChannelIdentity}
    (hin : (source, id) ∈ (s.node v).inbox) :
    (s.node v).registry.winnerOver id ∈ s.circulating := by
  by_cases hlt : (s.node v).registry.keyAt id.name < (id.key : WithBot OrderingKey)
  · rw [Registry.winnerOver_of_lt hlt]
    exact circulating_node (.inr (.inl ⟨source, hin⟩))
  · refine circulating_node (v := v) (.inl ?_)
    rw [Registry.winnerOver_name]
    exact Registry.getRaw_of_not_lt hlt

section Steps

variable {s : Net V E}

/-- A merge stores the incoming identity or what was there. -/
theorem circulating_merge {v : V} {source : E} {id x : ChannelIdentity}
    (hin : (source, id) ∈ (s.node v).inbox)
    (hx : ((s.node v).registry.mergeTracked id).1.getRaw x.name = some x) :
    x ∈ s.circulating := by
  rw [Registry.getRaw_mergeTracked] at hx
  split at hx
  · rename_i hn
    rw [← hn, Registry.mergeSlot_getRaw, Option.some.injEq] at hx
    rw [← hx]
    exact circulating_winner hin
  · exact circulating_node (.inl hx)

variable [DecidableEq V]

/-- One node and the wires replaced, all from circulating identities. -/
theorem circulating_update {v : V} {st : NodeState E} {wire : E → List ChannelIdentity}
    (hreg : ∀ id, st.registry.getRaw id.name = some id → id ∈ s.circulating)
    (hin : ∀ source id, (source, id) ∈ st.inbox → id ∈ s.circulating)
    (hout : ∀ out ∈ st.pending, out.identity ∈ s.circulating)
    (hwire : ∀ e, ∀ id ∈ wire e, id ∈ s.circulating) :
    Net.circulating { s.setNode v st with wire } ⊆ s.circulating := by
  intro id hid
  rcases mem_circulating.mp hid with ⟨w, hw⟩ | ⟨e, he⟩
  · change _ ∨ (∃ _, _ ∈ ((s.setNode v st).node w).inbox) ∨ _ at hw
    by_cases hwv : w = v
    · simp only [Net.setNode_node, if_pos hwv] at hw
      rcases hw with hw | ⟨source, hw⟩ | ⟨out, hw, rfl⟩
      · exact hreg id hw
      · exact hin source id hw
      · exact hout out hw
    · simp only [Net.setNode_node, if_neg hwv] at hw
      exact circulating_node hw
  · exact hwire e id he

variable [DecidableEq E] {T : Topology V E} {s' : Net V E}

theorem circulating_step (h : GossipStep T s s') : s'.circulating ⊆ s.circulating := by
  cases h with
  | @recv e id rest hw =>
      apply circulating_update
      · exact fun x hx => circulating_node (.inl hx)
      · intro source x hx
        rcases List.mem_append.mp hx with hx | hx
        · exact circulating_node (.inr (.inl ⟨source, hx⟩))
        · rw [(Prod.mk.inj (List.mem_singleton.mp hx)).2]
          exact circulating_wire (e := e) (by simp [hw])
      · exact fun out ho => circulating_node (.inr (.inr ⟨out, ho, rfl⟩))
      · intro e' x hx
        simp only [Function.update_apply] at hx
        split at hx
        · exact circulating_wire (e := e) (by simp [hw, hx])
        · exact circulating_wire hx
  | @handle v source id rest hin =>
      have hmem : (source, id) ∈ (s.node v).inbox := by simp [hin]
      apply circulating_update
      · exact fun x hx => circulating_merge hmem hx
      · intro src x hx
        refine circulating_node (v := v) (.inr (.inl ⟨src, ?_⟩))
        rw [hin]
        exact List.mem_cons_of_mem _ hx
      · intro out ho
        rcases NodeState.mem_pending_handle ho with ho | ho
        · exact circulating_node (.inr (.inr ⟨out, ho, rfl⟩))
        · rw [ho]
          exact circulating_winner hmem
      · exact fun e x hx => circulating_wire hx
  | @flush v out before after hp =>
      apply circulating_update
      · exact fun x hx => circulating_node (.inl hx)
      · exact fun source x hx => circulating_node (.inr (.inl ⟨source, hx⟩))
      · intro o ho
        refine circulating_node (v := v) (.inr (.inr ⟨o, ?_, rfl⟩))
        rw [hp]
        rcases List.mem_append.mp ho with ho | ho
        · exact List.mem_append_left _ ho
        · exact List.mem_append_right _ (List.mem_cons_of_mem _ ho)
      · intro e x hx
        split at hx
        · rcases List.mem_append.mp hx with hx | hx
          · exact circulating_wire hx
          · rw [List.mem_singleton.mp hx]
            exact circulating_node (v := v) (.inr (.inr ⟨out, by simp [hp], rfl⟩))
        · exact circulating_wire hx

end Steps

/-! ## Each step pays -/

section Pay

variable [DecidableEq V] {s : Net V E} (K : Finset ChannelIdentity)

theorem sum_nodeWeight_setNode (v : V) (st : NodeState E) :
    ∑ w, nodeWeight K ((s.setNode v st).node w) + nodeWeight K (s.node v) =
      ∑ w, nodeWeight K (s.node w) + nodeWeight K st := by
  have h := Weight.sum_add_eq_of_eq_off (f := fun w => nodeWeight K ((s.setNode v st).node w))
    (g := fun w => nodeWeight K (s.node w)) v (fun w hw => by rw [Net.setNode_node, if_neg hw])
  simpa [Net.setNode_self] using h

theorem weight_setNode_lt {v : V} {st : NodeState E}
    (h : nodeWeight K st < nodeWeight K (s.node v)) :
    weight K (s.setNode v st) < weight K s := by
  have hn := sum_nodeWeight_setNode (s := s) K v st
  simp only [weight]
  change ∑ w, nodeWeight K ((s.setNode v st).node w) + ∑ e, _ < _
  have hwire : (s.setNode v st).wire = s.wire := rfl
  rw [hwire]
  omega

/-- Handling what the map already dominates: a reply is worth less than what
it answers, since the winner lies strictly above it. -/
theorem weight_handle {v : V} {source : E} {id : ChannelIdentity}
    {rest : List (E × ChannelIdentity)} (hin : (s.node v).inbox = (source, id) :: rest)
    (hK : (s.node v).registry.winnerOver id ∈ K)
    (hc : ¬ ((s.node v).registry.mergeTracked id).2.changed = true) :
    weight K (s.handle v source id rest) < weight K s := by
  have hpay : nodeWeight K (NodeState.handle { s.node v with inbox := rest } source id) <
      nodeWeight K (s.node v) := by
    simp only [nodeWeight, NodeState.handle, hc, hin]
    by_cases hlost : lostTo id ((s.node v).registry.winnerOver id) = true
    · have habove : above K ((s.node v).registry.winnerOver id) < above K id := by
        apply above_lt hK (Registry.winnerOver_name _ id)
        rw [Registry.mergeTracked_changed] at hc
        have hraw := Registry.getRaw_of_not_lt hc
        rw [Registry.keyAt, hraw, KeyMerge.slotKey_some, WithBot.coe_lt_coe, not_lt] at hc
        exact lt_of_le_of_ne hc (by simpa [lostTo] using hlost)
      simp [hlost, outWeight, wireWeight, inboxWeight]
      omega
    · simp [hlost, inboxWeight]
  exact weight_setNode_lt K hpay

variable [DecidableEq E] {T : Topology V E}

theorem weight_recv {e : E} {id : ChannelIdentity} {rest : List ChannelIdentity}
    (hw : s.wire e = id :: rest) : weight K (s.recv T e id rest) < weight K s := by
  have hn := sum_nodeWeight_setNode (s := s) K (T.host (T.opp e))
    { s.node (T.host (T.opp e)) with
      inbox := (s.node (T.host (T.opp e))).inbox ++ [(T.opp e, id)] }
  have he := Weight.sum_add_eq_of_eq_off
    (f := fun e' => ((Function.update s.wire e rest e').map (wireWeight K)).sum)
    (g := fun e' => ((s.wire e').map (wireWeight K)).sum) e
    (fun e' h => by rw [Function.update_of_ne h])
  simp only [nodeWeight, List.map_append, List.map_cons, List.map_nil, List.sum_append,
    List.sum_cons, List.sum_nil, inboxWeight] at hn
  simp only [Function.update_self, hw, List.map_cons, List.sum_cons, wireWeight] at he
  simp only [weight, Net.recv, nodeWeight]
  omega

omit [Fintype V] in
/-- What a call puts on the wires is less than the call. -/
theorem flush_cost (v : V) (out : Outgoing E) :
    ∑ e, (if T.host e = v ∧ s.ends e = .up ∧ out.targets e = true
      then wireWeight K out.identity else 0) < outWeight K out := by
  have hall : ∀ (P : E → Prop) [DecidablePred P] (c : ℕ),
      ∑ e, (if P e then c else 0) ≤ Fintype.card E * c := by
    intro P _ c
    calc ∑ e, (if P e then c else 0) ≤ ∑ _e : E, c :=
          sum_le_sum fun e _ => by split <;> omega
      _ = Fintype.card E * c := by simp
  cases out with
  | announce id => exact Nat.lt_succ_of_le (hall _ _)
  | relay source id => exact Nat.lt_succ_of_le (hall _ _)
  | reply dest id =>
      -- a reply goes to one end
      apply Nat.lt_succ_of_le
      calc ∑ e, (if T.host e = v ∧ s.ends e = .up ∧ (Outgoing.reply dest id).targets e = true
              then wireWeight K id else 0)
          ≤ ∑ e, (if e = dest then wireWeight K id else 0) := by
            apply sum_le_sum
            intro e _
            by_cases hd : e = dest
            · rw [if_pos hd]
              split <;> omega
            · rw [if_neg hd, if_neg (by simp [Outgoing.targets, hd])]
        _ = wireWeight K id := by simp

theorem weight_flush {v : V} {out : Outgoing E} {before after : List (Outgoing E)}
    (hp : (s.node v).pending = before ++ out :: after) :
    weight K (s.flush T v out (before ++ after)) < weight K s := by
  have hn := sum_nodeWeight_setNode (s := s) K v
    { s.node v with pending := before ++ after }
  have hwires : ∑ e, (((s.flush T v out (before ++ after)).wire e).map (wireWeight K)).sum =
      ∑ e, ((s.wire e).map (wireWeight K)).sum +
      ∑ e, (if T.host e = v ∧ s.ends e = .up ∧ out.targets e = true
        then wireWeight K out.identity else 0) := by
    rw [← sum_add_distrib]
    apply sum_congr rfl
    intro e _
    simp only [Net.flush]
    split <;> simp
  have hcost := flush_cost (s := s) (T := T) K v out
  simp only [nodeWeight, hp, List.map_append, List.map_cons, List.sum_append,
    List.sum_cons] at hn
  rw [weight, hwires]
  simp only [weight, Net.flush, nodeWeight]
  omega

end Pay

section Steps

variable [DecidableEq V] [DecidableEq E] {T : Topology V E} {s s' : Net V E}

omit [Fintype E] [DecidableEq E] in
/-- A merge that moves a map uses up the pair of its node and its identity. -/
theorem room_handle_lt {K : Finset ChannelIdentity} {v : V} {source : E}
    {id : ChannelIdentity} {rest : List (E × ChannelIdentity)} (hK : id ∈ K)
    (hc : ((s.node v).registry.mergeTracked id).2.changed = true) :
    room K (s.handle v source id rest) < room K s := by
  apply sum_lt_sum
  · intro w _
    apply card_le_card
    intro x hx
    rw [mem_filter] at hx ⊢
    exact ⟨hx.1, (key_le_handle w _).trans_lt hx.2⟩
  · refine ⟨v, mem_univ v, card_lt_card ?_⟩
    rw [ssubset_iff_of_subset]
    · refine ⟨id, ?_, ?_⟩
      · rw [mem_filter]
        exact ⟨hK, (Registry.mergeTracked_changed _ _).mp hc⟩
      · rw [mem_filter, Net.handle, Net.key_setNode, if_pos rfl]
        exact fun h => absurd h.2 (not_lt.mpr (Registry.key_le_keyAt_mergeTracked _ id))
    · intro x hx
      rw [mem_filter] at hx ⊢
      exact ⟨hx.1, (key_le_handle v _).trans_lt hx.2⟩

/-- **Every delivery decreases the measure.** -/
theorem gossipMeasure_lt (h : GossipStep T s s') : gossipMeasure s' < gossipMeasure s := by
  have hK := circulating_step h
  have hle : room s'.circulating s' ≤ room s.circulating s ∧
      weight s.circulating s' < weight s.circulating s →
      gossipMeasure s' < gossipMeasure s := by
    rintro ⟨hroom, hweight⟩
    rw [gossipMeasure, gossipMeasure, Prod.Lex.toLex_lt_toLex]
    rcases hroom.lt_or_eq with hlt | heq
    · exact .inl hlt
    · exact .inr ⟨heq, (weight_mono hK s').trans_lt hweight⟩
  cases h with
  | recv hw =>
      refine hle ⟨room_mono hK fun v n => ?_, weight_recv _ hw⟩
      exact (key_recv v n).ge
  | flush hp =>
      refine hle ⟨room_mono hK fun v n => ?_, weight_flush _ hp⟩
      exact (key_flush v n).ge
  | @handle v source id rest hin =>
      have hmem : (source, id) ∈ (s.node v).inbox := by simp [hin]
      by_cases hc : ((s.node v).registry.mergeTracked id).2.changed = true
      · rw [gossipMeasure, gossipMeasure, Prod.Lex.toLex_lt_toLex]
        left
        refine (room_mono hK fun _ _ => le_rfl).trans_lt (room_handle_lt ?_ hc)
        exact circulating_node (.inr (.inl ⟨source, hmem⟩))
      · exact hle ⟨room_mono hK key_le_handle, weight_handle _ hin (circulating_winner hmem) hc⟩

/-- **Gossip termination**: over any finite topology, from any state at all,
delivering and handling stops. -/
theorem gossip_terminates (T : Topology V E) :
    (∀ s s', GossipStep T s s' → gossipMeasure s' < gossipMeasure s) ∧
    WellFounded (fun s' s => GossipStep T s s') ∧
    ∀ run : ℕ → Net V E, ¬ ∀ i, GossipStep T (run i) (run (i + 1)) := by
  have hwf : WellFounded (fun s' s => GossipStep T s s') :=
    Subrelation.wf gossipMeasure_lt (InvImage.wf gossipMeasure wellFounded_lt)
  refine ⟨fun _ _ => gossipMeasure_lt, hwf, fun run => ?_⟩
  exact Run.terminates_iff_acc.mpr (hwf.apply (run 0)) run rfl

end Steps

end XchannelNet.Gossip
