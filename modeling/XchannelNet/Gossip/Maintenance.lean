import XchannelNet.Broadcast.Sending
import XchannelNet.Gossip.Termination

/-!
# Maintenance — a tick that gathers before it sends

The maintenance loop does not handle one identity after the other. It takes
the whole inbox, merges all of it, gathers what it owes by the link an identity
came in on, and only then writes: what is relayed first, what is replied after
it, each link's share in the order of a hash map and cut into frames. Readers,
clients and other links go on meanwhile.

All this is the gossip of one identity at a time in another order. A node in
the middle of a tick stands for one whose inbox still has what is not merged
and which still owes what is not written; with that, every step of the loop is
some steps of `Gossip.FalteringStep`, or none. A name whose creation failed behind
its claim is the one exception to agreement: nobody is told of it.
-/

namespace XchannelNet.Gossip

open Broadcast (chunks MAX_IDENTITIES_PER_FRAME)

variable {V E : Type*}

/-! ## What a tick gathers -/

/-- `HashMap<PeerId, Vec<ChannelIdentity>>`, its entries in some order. -/
abbrev Deltas (E : Type*) := List (E × List ChannelIdentity)

/-- `entry(e).or_default().push(id)` -/
def Deltas.push [DecidableEq E] (e : E) (id : ChannelIdentity) : Deltas E → Deltas E
  | [] => [(e, [id])]
  | (e', ids) :: rest =>
    if e' = e then (e', ids ++ [id]) :: rest else (e', ids) :: Deltas.push e id rest

/-- What is to be relayed, what is to be replied, and the names that were found
to be tombstoned. -/
structure Gathered (E : Type*) where
  toRelay : Deltas E
  toReply : Deltas E
  retired : List ChannelName

/-- One frame to be written: to all links but one, or to one alone. -/
structure Outbound (E : Type*) where
  isReply : Bool
  link : E
  ids : List ChannelIdentity

/-- The call a frame makes on behalf of one of its identities. -/
def Outbound.call (f : Outbound E) (id : ChannelIdentity) : Outgoing E :=
  if f.isReply then .reply f.link id else .relay f.link id

def Outbound.targets [DecidableEq E] (f : Outbound E) (e : E) : Bool :=
  if f.isReply then e = f.link else e ≠ f.link

/-- The frames of a map. -/
def Deltas.frames (isReply : Bool) (d : Deltas E) : List (Outbound E) :=
  d.flatMap fun x => (chunks MAX_IDENTITIES_PER_FRAME x.2).map (⟨isReply, x.1, ·⟩)

/-- Where a node is in its tick. -/
inductive Phase (E : Type*) where
  | idle
  | merging (pumped : List (E × ChannelIdentity)) (gathered : Gathered E)
  | sending (frames : List (Outbound E)) (retired : List ChannelName)

/-- What follows from a merge is gathered under the link the identity came in
on. -/
def Gathered.note [DecidableEq E] (g : Gathered E) (source : E) (id : ChannelIdentity)
    (merged : Merged) : Gathered E where
  toRelay := if merged.changed then g.toRelay.push source merged.winner else g.toRelay
  toReply :=
    if !merged.changed && lostTo id merged.winner then g.toReply.push source merged.winner
    else g.toReply
  retired := if merged.winner.deleted then g.retired ++ [id.name] else g.retired

/-- The mesh, where each node is in its tick, and the channels it subscribes
to. -/
structure Mesh (V E : Type*) where
  net : Net V E
  phase : V → Phase E
  subscribed : V → List ChannelName

section Steps

variable [DecidableEq V] [DecidableEq E] (T : Topology V E)

namespace Mesh

def setPhase (m : Mesh V E) (v : V) (phase : Phase E) : Mesh V E :=
  { m with phase := Function.update m.phase v phase }

/-- Take the whole inbox. -/
def pump (m : Mesh V E) (v : V) : Mesh V E :=
  { (m.setPhase v (.merging (m.net.node v).inbox ⟨[], [], []⟩)) with
    net := m.net.setNode v { m.net.node v with inbox := [] } }

def merge (m : Mesh V E) (v : V) (source : E) (id : ChannelIdentity)
    (rest : List (E × ChannelIdentity)) (g : Gathered E) : Mesh V E :=
  let (registry, merged) := (m.net.node v).registry.mergeTracked id
  { (m.setPhase v (.merging rest (g.note source id merged))) with
    net := m.net.setNode v { m.net.node v with registry } }

/-- Write a frame to every peer it is for. -/
def write (m : Mesh V E) (v : V) (f : Outbound E) (rest : List (Outbound E))
    (retired : List ChannelName) : Mesh V E :=
  { (m.setPhase v (.sending rest retired)) with
    net := { m.net with
      wire := fun e =>
        if T.host e = v ∧ m.net.ends e = .up ∧ f.targets e then m.net.wire e ++ f.ids
        else m.net.wire e } }

/-- The end of the pump: what is tombstoned is no longer subscribed to. -/
def retire (m : Mesh V E) (v : V) (retired : List ChannelName) : Mesh V E :=
  { (m.setPhase v .idle) with
    subscribed := Function.update m.subscribed v ((m.subscribed v).filter (· ∉ retired)) }

end Mesh

/-- What goes on inside a tick. -/
inductive TickStep : Mesh V E → Mesh V E → Prop
  | pump {m : Mesh V E} {v : V} (hidle : m.phase v = .idle) (h : (m.net.node v).inbox ≠ []) :
      TickStep m (m.pump v)
  | merge {m : Mesh V E} {v : V} {source : E} {id : ChannelIdentity}
      {rest : List (E × ChannelIdentity)} {g : Gathered E}
      (h : m.phase v = .merging ((source, id) :: rest) g) :
      TickStep m (m.merge v source id rest g)
  -- the maps are walked in whatever order they have
  | send {m : Mesh V E} {v : V} {g : Gathered E} {relays replies : Deltas E}
      (h : m.phase v = .merging [] g) (hrelay : relays.Perm g.toRelay)
      (hreply : replies.Perm g.toReply) :
      TickStep m (m.setPhase v (.sending (relays.frames false ++ replies.frames true) g.retired))
  | write {m : Mesh V E} {v : V} {f : Outbound E} {rest : List (Outbound E)}
      {retired : List ChannelName} (h : m.phase v = .sending (f :: rest) retired) :
      TickStep m (m.write T v f rest retired)
  | retire {m : Mesh V E} {v : V} {retired : List ChannelName}
      (h : m.phase v = .sending [] retired) : TickStep m (m.retire v retired)

/-- Messages arriving and announcements going out. -/
inductive Traffic : Net V E → Net V E → Prop
  | recv {s : Net V E} {e : E} {id : ChannelIdentity} {rest : List ChannelIdentity}
      (h : s.wire e = id :: rest) : Traffic s (s.recv T e id rest)
  | announce {s : Net V E} {v : V} {out : Outgoing E} {before after : List (Outgoing E)}
      (h : (s.node v).pending = before ++ out :: after) :
      Traffic s (s.flush T v out (before ++ after))

/-- Local operations and the life of links. A peer that does not take a frame
is one that was dropped before it was written. -/
inductive Change : Net V E → Net V E → Prop
  | register (s : Net V E) (v : V) (now : UInt64) (q : ClaimRequest) :
      Change s (s.setNode v ((s.node v).register (T.self v) now q))
  | deregister (s : Net V E) (v : V) (n : ChannelName) :
      Change s (s.setNode v ((s.node v).deregister (T.self v) n))
  | reap (s : Net V E) (v : V) (n : ChannelName) :
      Change s (s.setNode v ((s.node v).reap n))
  | adopt {s : Net V E} {e : E} (h : s.ends e = .fresh) : Change s (s.adopt T e)
  | adoptFailed {s : Net V E} {e : E} (k : ℕ) (h : s.ends e = .fresh) :
      Change s (s.adoptFailed T e k)
  | dropEnd {s : Net V E} {e : E} (h : s.ends e = .up) : Change s (s.dropEnd e)
  | lose {s : Net V E} {e : E} (k : ℕ) (h : s.ends e = .down ∨ s.ends (T.opp e) = .down) :
      Change s (s.lose e k)

/-- Everything the mesh can do, if creations of names `fails` may fail behind their
claim. -/
inductive MeshStep (fails : ChannelName → Prop) : Mesh V E → Mesh V E → Prop
  | tick {m m' : Mesh V E} (h : TickStep T m m') : MeshStep fails m m'
  | traffic {m : Mesh V E} {s : Net V E} (h : Traffic T m.net s) :
      MeshStep fails m { m with net := s }
  | change {m : Mesh V E} {s : Net V E} (h : Change T m.net s) :
      MeshStep fails m { m with net := s }
  | abandon {m : Mesh V E} {v : V} {id : ChannelIdentity} {before after : List (Outgoing E)}
      (hfails : fails id.name) (hclaim : id.deleted = false)
      (h : (m.net.node v).pending = before ++ .announce id :: after) :
      MeshStep fails m { m with net := m.net.abandon v (before ++ after) }
  | subscribe (m : Mesh V E) (v : V) (names : List ChannelName) :
      MeshStep fails m { m with subscribed := Function.update m.subscribed v names }

/-- Before any link, and no node in a tick. -/
def Mesh.Initial (m : Mesh V E) : Prop := Gossip.Initial m.net ∧ ∀ v, m.phase v = .idle

end Steps

/-! ## What it stands for -/

/-- What is pumped and not merged. -/
def Phase.inbox : Phase E → List (E × ChannelIdentity)
  | .merging pumped _ => pumped
  | _ => []

/-- The calls of a map, one for each identity. -/
def Deltas.calls (call : E → ChannelIdentity → Outgoing E) (d : Deltas E) : List (Outgoing E) :=
  d.flatMap fun x => x.2.map (call x.1)

def Gathered.owed (g : Gathered E) : List (Outgoing E) :=
  g.toRelay.calls .relay ++ g.toReply.calls .reply

/-- What is gathered and not written. -/
def Phase.owed : Phase E → List (Outgoing E)
  | .idle => []
  | .merging _ g => g.owed
  | .sending frames _ => frames.flatMap fun f => f.ids.map f.call

/-- A node in the middle of its tick, and one that handles an identity at a
time. In which order it owes its calls does not matter. -/
structure Matches (st : NodeState E) (phase : Phase E) (a : NodeState E) : Prop where
  registry : a.registry = st.registry
  inbox : a.inbox = phase.inbox ++ st.inbox
  pending : a.pending.Perm (st.pending ++ phase.owed)

structure Sim (m : Mesh V E) (s : Net V E) : Prop where
  node : ∀ v, Matches (m.net.node v) (m.phase v) (s.node v)
  ends : s.ends = m.net.ends
  wire : s.wire = m.net.wire

/-- Gathering a call adds it to those there are. -/
theorem Deltas.calls_push [DecidableEq E] (call : E → ChannelIdentity → Outgoing E) (e : E)
    (id : ChannelIdentity) (d : Deltas E) :
    ((d.push e id).calls call).Perm (d.calls call ++ [call e id]) := by
  induction d with
  | nil => rfl
  | cons x rest ih =>
      obtain ⟨e', ids⟩ := x
      rw [Deltas.push]
      split
      · rename_i he
        subst he
        simp only [calls, List.flatMap_cons, List.map_append, List.map_cons, List.map_nil,
          List.append_assoc]
        exact (List.perm_append_comm).append_left _
      · simp only [calls, List.flatMap_cons, List.append_assoc] at ih ⊢
        exact ih.append_left _

/-- The frames of a map make its calls, in the map's order. -/
theorem Deltas.calls_frames (isReply : Bool) (d : Deltas E) :
    ((d.frames isReply).flatMap fun f => f.ids.map f.call) =
      d.calls fun e id => (⟨isReply, e, []⟩ : Outbound E).call id := by
  induction d with
  | nil => rfl
  | cons x rest ih =>
      simp only [frames, calls, List.flatMap_cons, List.flatMap_append] at ih ⊢
      rw [ih]
      congr 1
      nth_rewrite 2 [← Broadcast.flatten_chunks (by decide : 0 < MAX_IDENTITIES_PER_FRAME) x.2]
      rw [List.flatMap_map, List.map_flatten, List.flatMap_def]
      rfl

/-- What an identity adds to what is gathered is what handling it makes a node
owe. -/
theorem Gathered.owed_note [DecidableEq E] (g : Gathered E) (source : E) (id : ChannelIdentity)
    (merged : Merged) :
    (g.note source id merged).owed.Perm (g.owed ++
      if merged.changed then [.relay source merged.winner]
      else if lostTo id merged.winner then [.reply source merged.winner]
      else []) := by
  have hrelay := g.toRelay.calls_push .relay source merged.winner
  have hreply := g.toReply.calls_push .reply source merged.winner
  simp only [owed, note]
  by_cases hchanged : merged.changed = true
  · simp only [hchanged, Bool.not_true, Bool.false_and, if_true, Bool.false_eq_true, if_false]
    refine (hrelay.append_right _).trans ?_
    rw [List.append_assoc, List.append_assoc]
    exact List.perm_append_comm.append_left _
  · by_cases hlost : lostTo id merged.winner = true
    · simp only [hchanged, hlost, Bool.not_false, Bool.and_self, if_true, Bool.false_eq_true,
        if_false]
      rw [List.append_assoc]
      exact hreply.append_left _
    · simp [hchanged, hlost]

/-- A local operation goes by the registry and owes what follows from it. -/
theorem Matches.local {st a : NodeState E} {phase : Phase E} (h : Matches st phase a)
    (r : Registry) (outs : List (Outgoing E)) :
    Matches { st with registry := r, pending := st.pending ++ outs } phase
      { a with registry := r, pending := a.pending ++ outs } := by
  refine ⟨rfl, h.inbox, ?_⟩
  dsimp only
  rw [List.append_assoc]
  refine (h.pending.append_right outs).trans ?_
  rw [List.append_assoc]
  exact List.perm_append_comm.append_left _

/-- A call that is owed is among those of the node it stands for. -/
theorem Matches.owes {st a : NodeState E} {phase : Phase E} (h : Matches st phase a)
    {out : Outgoing E} {rest : List (Outgoing E)}
    (howed : (st.pending ++ phase.owed).Perm (out :: rest)) :
    ∃ before after, a.pending = before ++ out :: after ∧ (before ++ after).Perm rest := by
  have hperm := h.pending.trans howed
  obtain ⟨before, after, hsplit⟩ := List.append_of_mem (hperm.mem_iff.mpr List.mem_cons_self)
  rw [hsplit] at hperm
  exact ⟨before, after, hsplit, (List.perm_middle.symm.trans hperm).cons_inv⟩

/-- One of the calls is named first. -/
theorem perm_owed {out : Outgoing E} {pending before after : List (Outgoing E)}
    (h : pending = before ++ out :: after) (owed : List (Outgoing E)) :
    (pending ++ owed).Perm (out :: (before ++ after ++ owed)) := by
  rw [h, List.append_assoc, List.cons_append, List.append_assoc]
  exact List.perm_middle

theorem Outbound.identity_call (f : Outbound E) (id : ChannelIdentity) :
    (f.call id).identity = id := by
  rw [call]
  split <;> rfl

/-- Burying a name goes by the registry. -/
theorem disseminateTombstone_local (f : Registry → Registry × Option ChannelIdentity) :
    ∃ (g : Registry → Registry) (outs : Registry → List (Outgoing E)), ∀ st : NodeState E,
      st.disseminateTombstone (f st.registry) =
        { st with registry := g st.registry, pending := st.pending ++ outs st.registry } := by
  refine ⟨fun r => (f r).1, fun r => ((f r).2.map Outgoing.announce).toList, fun st => ?_⟩
  rcases hf : f st.registry with ⟨r, _ | tombstone⟩
  · simp [NodeState.disseminateTombstone, hf]
  · simp [NodeState.disseminateTombstone, hf]

theorem register_local (self : NodeId) (now : UInt64) (q : ClaimRequest) :
    ∃ (g : Registry → Registry) (outs : Registry → List (Outgoing E)), ∀ st : NodeState E,
      st.register self now q =
        { st with registry := g st.registry, pending := st.pending ++ outs st.registry } := by
  refine ⟨fun r => (r.claimName self now q).1,
    fun r => ((r.claimName self now q).2.toOption.map Outgoing.announce).toList, fun st => ?_⟩
  rcases hclaim : st.registry.claimName self now q with ⟨r, e | identity⟩
  · simp [NodeState.register, hclaim, Except.toOption]
  · simp [NodeState.register, hclaim, Except.toOption]

theorem sim_initial {m : Mesh V E} (hm : m.Initial) : Sim m m.net := by
  refine ⟨fun v => ?_, rfl, rfl⟩
  rw [hm.2 v]
  exact ⟨rfl, rfl, by simp [Phase.owed]⟩

/-- Nothing in flight on a live link, nothing unmerged, nothing owed, and no
node in its tick. -/
def Mesh.Quiescent (T : Topology V E) (m : Mesh V E) : Prop :=
  Gossip.Quiescent T m.net ∧ ∀ v, m.phase v = .idle

theorem Sim.quiescent {T : Topology V E} {m : Mesh V E} {s : Net V E} (h : Sim m s)
    (hq : m.Quiescent T) : Quiescent T s := by
  refine ⟨fun e hlive => ?_, fun v => ?_⟩
  · rw [h.wire]
    refine hq.1.1 e ?_
    rwa [Live, h.ends] at hlive
  · have hnode := h.node v
    rw [hq.2 v] at hnode
    obtain ⟨hinbox, hpending⟩ := hq.1.2 v
    refine ⟨hnode.inbox.trans hinbox, ?_⟩
    have hperm := hnode.pending
    rw [hpending] at hperm
    exact List.perm_nil.mp hperm

section Simulation

variable [DecidableEq V] {T : Topology V E} {fails : ChannelName → Prop} {m : Mesh V E}
  {s : Net V E}

/-- One node moves on, and so does what it stands for. -/
theorem Sim.set (h : Sim m s) (v : V) {st a : NodeState E} {phase : Phase E}
    (hmatch : Matches st phase a) :
    Sim { (m.setPhase v phase) with net := m.net.setNode v st } (s.setNode v a) := by
  refine ⟨fun w => ?_, h.ends, h.wire⟩
  simp only [Net.setNode_node, Mesh.setPhase, Function.update_apply]
  split
  · exact hmatch
  · exact h.node w

/-- A tick that only moves on inside a node stands for what it stood for. -/
theorem Sim.stutter (h : Sim m s) (v : V) {st : NodeState E} {phase : Phase E}
    (hmatch : Matches st phase (s.node v)) :
    Sim { (m.setPhase v phase) with net := m.net.setNode v st } s := by
  have hsame : s.setNode v (s.node v) = s := by
    rw [Net.setNode, Function.update_eq_self]
  exact hsame ▸ h.set v hmatch

/-- The node is the same and further on in its tick. -/
theorem Sim.turn (h : Sim m s) (v : V) {phase : Phase E}
    (hmatch : Matches (m.net.node v) phase (s.node v)) : Sim (m.setPhase v phase) s := by
  have hsame : m.net.setNode v (m.net.node v) = m.net := by
    rw [Net.setNode, Function.update_eq_self]
  have hturn := h.stutter v hmatch
  rwa [hsame] at hturn

theorem Sim.pump (h : Sim m s) (v : V) (hidle : m.phase v = .idle) : Sim (m.pump v) s := by
  have hnode := h.node v
  rw [hidle] at hnode
  refine h.stutter v ⟨hnode.registry, ?_, hnode.pending⟩
  rw [hnode.inbox]
  exact (List.append_nil _).symm

theorem Sim.send (h : Sim m s) (v : V) {g : Gathered E} {relays replies : Deltas E}
    (hphase : m.phase v = .merging [] g) (hrelay : relays.Perm g.toRelay)
    (hreply : replies.Perm g.toReply) :
    Sim (m.setPhase v (.sending (relays.frames false ++ replies.frames true) g.retired)) s := by
  have hnode := h.node v
  rw [hphase] at hnode
  refine h.turn v ⟨hnode.registry, hnode.inbox, hnode.pending.trans (List.Perm.append_left _ ?_)⟩
  simp only [Phase.owed, List.flatMap_append, Deltas.calls_frames]
  exact (hrelay.symm.flatMap_right _).append (hreply.symm.flatMap_right _)

theorem Sim.retire (h : Sim m s) (v : V) {retired : List ChannelName}
    (hphase : m.phase v = .sending [] retired) : Sim (m.retire v retired) s := by
  have hnode := h.node v
  rw [hphase] at hnode
  have hmatch : Matches (m.net.node v) .idle (s.node v) :=
    ⟨hnode.registry, hnode.inbox, hnode.pending⟩
  have hturn := h.turn v hmatch
  exact ⟨hturn.node, hturn.ends, hturn.wire⟩

/-- An operation on one node that goes by its registry. -/
theorem Sim.local (h : Sim m s) (v : V) {op : NodeState E → NodeState E}
    (hop : ∃ (f : Registry → Registry) (outs : Registry → List (Outgoing E)), ∀ st, op st =
      { st with registry := f st.registry, pending := st.pending ++ outs st.registry }) :
    Sim { m with net := m.net.setNode v (op (m.net.node v)) } (s.setNode v (op (s.node v))) := by
  obtain ⟨f, outs, hop⟩ := hop
  have hnode := h.node v
  have hmatch : Matches (op (m.net.node v)) (m.phase v) (op (s.node v)) := by
    rw [hop, hop, hnode.registry]
    exact hnode.local _ _
  have hset := h.set v hmatch
  rwa [Mesh.setPhase, Function.update_eq_self] at hset

variable [DecidableEq E]

theorem Matches.note {st a : NodeState E} {source : E} {id : ChannelIdentity}
    {rest : List (E × ChannelIdentity)} {g : Gathered E}
    (h : Matches st (.merging ((source, id) :: rest) g) a) :
    Matches { st with registry := (st.registry.mergeTracked id).1 }
      (.merging rest (g.note source id (st.registry.mergeTracked id).2))
      (NodeState.handle { a with inbox := rest ++ st.inbox } source id) := by
  have hreg := h.registry
  refine ⟨?_, rfl, ?_⟩
  · simp only [NodeState.handle, hreg]
  · simp only [NodeState.handle, hreg]
    refine (h.pending.append_right _).trans ?_
    rw [List.append_assoc]
    exact (g.owed_note source id _).symm.append_left _

theorem Outbound.targets_call (f : Outbound E) (id : ChannelIdentity) (e : E) :
    (f.call id).targets e = f.targets e := by
  rw [call, targets]
  split <;> rfl

/-- One call is made, and the node is further on in its tick. -/
def Mesh.called (T : Topology V E) (m : Mesh V E) (v : V) (out : Outgoing E)
    (pending : List (Outgoing E)) (phase : Phase E) : Mesh V E :=
  { (m.setPhase v phase) with net := m.net.flush T v out pending }

/-- A call that is owed can be made next, whatever else is owed. -/
theorem Sim.called (h : Sim m s) (v : V) {out : Outgoing E} {pending : List (Outgoing E)}
    {phase : Phase E} (hinbox : phase.inbox = (m.phase v).inbox)
    (howed : ((m.net.node v).pending ++ (m.phase v).owed).Perm
      (out :: (pending ++ phase.owed))) :
    ∃ s', GossipStep T s s' ∧ Sim (m.called T v out pending phase) s' := by
  have hnode := h.node v
  obtain ⟨before, after, hsplit, hrest⟩ := hnode.owes howed
  refine ⟨_, .flush hsplit, fun w => ?_, h.ends, ?_⟩
  · simp only [Mesh.called, Net.flush, Net.setNode_node, Mesh.setPhase, Function.update_apply]
    split
    · refine ⟨hnode.registry, ?_, hrest⟩
      dsimp only
      rw [hinbox]
      exact hnode.inbox
    · exact h.node w
  · funext e
    simp only [Mesh.called, Net.flush, h.ends, h.wire]

/-- Writing a frame is making a call for its first identity and writing the
rest. -/
theorem Mesh.write_cons (m : Mesh V E) (v : V) (isReply : Bool) (link : E) (id : ChannelIdentity)
    (ids : List ChannelIdentity) (rest : List (Outbound E)) (retired : List ChannelName)
    (phase : Phase E) :
    (m.called T v ((⟨isReply, link, []⟩ : Outbound E).call id) (m.net.node v).pending phase).write T
        v ⟨isReply, link, ids⟩ rest retired =
      m.write T v ⟨isReply, link, id :: ids⟩ rest retired := by
  have hnode : Function.update m.net.node v
      { m.net.node v with pending := (m.net.node v).pending } = m.net.node :=
    Function.update_eq_self v m.net.node
  simp only [Mesh.write, Mesh.called, Net.flush, Net.setNode, Mesh.setPhase, hnode,
    Function.update_idem, Outbound.targets_call, Outbound.identity_call]
  congr 2
  funext e
  have htargets : ∀ ids', (⟨isReply, link, ids'⟩ : Outbound E).targets e =
      (⟨isReply, link, []⟩ : Outbound E).targets e := fun _ => rfl
  simp only [htargets]
  split
  · rw [List.append_assoc, List.singleton_append]
  · rfl

/-- A frame is its identities, one call after the other. -/
theorem Sim.write (ids : List ChannelIdentity) (h : Sim m s) (v : V) {isReply : Bool} {link : E}
    {rest : List (Outbound E)} {retired : List ChannelName}
    (hphase : m.phase v = .sending (⟨isReply, link, ids⟩ :: rest) retired) :
    ∃ s', Relation.ReflTransGen (GossipStep T) s s' ∧
      Sim (m.write T v ⟨isReply, link, ids⟩ rest retired) s' := by
  induction ids generalizing m s with
  | nil =>
      have hnode := h.node v
      rw [hphase] at hnode
      have hmatch : Matches (m.net.node v) (.sending rest retired) (s.node v) :=
        ⟨hnode.registry, hnode.inbox, hnode.pending⟩
      have hturn := h.turn v hmatch
      refine ⟨s, .refl, hturn.node, hturn.ends, ?_⟩
      rw [hturn.wire]
      funext e
      simp [Mesh.write, Mesh.setPhase]
  | cons id ids ih =>
      have howed : ((m.net.node v).pending ++ (m.phase v).owed).Perm
          ((⟨isReply, link, []⟩ : Outbound E).call id :: ((m.net.node v).pending ++
            (Phase.sending (⟨isReply, link, ids⟩ :: rest) retired).owed)) := by
        rw [hphase]
        exact List.perm_middle
      obtain ⟨s₁, hstep, hsim⟩ := h.called (T := T) v (by rw [hphase]; rfl) howed
      obtain ⟨s', hsteps, hend⟩ := ih hsim (by simp [Mesh.called, Mesh.setPhase])
      rw [Mesh.write_cons] at hend
      exact ⟨s', hsteps.head hstep, hend⟩

theorem Sim.merge (h : Sim m s) (v : V) {source : E} {id : ChannelIdentity}
    {rest : List (E × ChannelIdentity)} {g : Gathered E}
    (hphase : m.phase v = .merging ((source, id) :: rest) g) :
    ∃ s', GossipStep T s s' ∧ Sim (m.merge v source id rest g) s' := by
  have hnode := h.node v
  rw [hphase] at hnode
  have hinbox : (s.node v).inbox = (source, id) :: (rest ++ (m.net.node v).inbox) := hnode.inbox
  exact ⟨_, .handle hinbox, h.set v hnode.note⟩

/-- **A step of a tick** is some steps of gossip, or none. -/
theorem Sim.tick {m' : Mesh V E} (h : Sim m s) (hstep : TickStep T m m') :
    ∃ s', Relation.ReflTransGen (GossipStep T) s s' ∧ Sim m' s' := by
  cases hstep with
  | pump hidle _ => exact ⟨s, .refl, h.pump _ hidle⟩
  | merge hphase =>
      obtain ⟨s', hs, hsim⟩ := h.merge (T := T) _ hphase
      exact ⟨s', .single hs, hsim⟩
  | send hphase hrelay hreply => exact ⟨s, .refl, h.send _ hphase hrelay hreply⟩
  | write hphase => exact Sim.write _ h _ hphase
  | retire hphase => exact ⟨s, .refl, h.retire _ hphase⟩

theorem Sim.traffic {n : Net V E} (h : Sim m s) (hstep : Traffic T m.net n) :
    ∃ s', GossipStep T s s' ∧ Sim { m with net := n } s' := by
  cases hstep with
  | @recv e id rest hw =>
      have hw' : s.wire e = id :: rest := by rw [h.wire, hw]
      refine ⟨_, .recv hw', fun v => ?_, h.ends, ?_⟩
      · simp only [Net.recv, Net.setNode_node]
        split
        · rename_i hv
          have hnode := h.node (T.host (T.opp e))
          rw [hv]
          refine ⟨hnode.registry, ?_, hnode.pending⟩
          dsimp only
          rw [hnode.inbox, List.append_assoc]
        · exact h.node v
      · simp only [Net.recv, h.wire]
  | @announce v out before after hp =>
      obtain ⟨s', hs, hsim⟩ := h.called (T := T) v rfl (perm_owed hp (m.phase v).owed)
      rw [Mesh.called, Mesh.setPhase, Function.update_eq_self] at hsim
      exact ⟨s', hs, hsim⟩

theorem Sim.change {n : Net V E} (h : Sim m s) (hstep : Change T m.net n) :
    ∃ s', Step T s s' ∧ Sim { m with net := n } s' := by
  cases hstep with
  | register v now q => exact ⟨_, .register s v now q, h.local v (register_local _ _ _)⟩
  | deregister v name =>
      exact ⟨_, .deregister s v name,
        h.local v (disseminateTombstone_local (·.deregister name (T.self v)))⟩
  | reap v name =>
      exact ⟨_, .reap s v name, h.local v (disseminateTombstone_local (·.reap name))⟩
  | @adopt e hfresh =>
      refine ⟨_, .adopt (h.ends ▸ hfresh), h.node, ?_, ?_⟩
      · simp only [Net.adopt, h.ends]
      · simp only [Net.adopt, h.wire, (h.node _).registry]
  | @adoptFailed e k hfresh =>
      refine ⟨_, .adoptFailed k (h.ends ▸ hfresh), h.node, ?_, ?_⟩
      · simp only [Net.adoptFailed, h.ends]
      · simp only [Net.adoptFailed, h.wire, (h.node _).registry]
  | dropEnd hup =>
      refine ⟨_, .dropEnd (h.ends ▸ hup), h.node, ?_, h.wire⟩
      simp only [Net.dropEnd, h.ends]
  | lose k hdown =>
      refine ⟨_, .lose k (h.ends ▸ hdown), h.node, h.ends, ?_⟩
      simp only [Net.lose, h.wire]

/-- A registration that is not announced any more is no longer owed. -/
theorem Sim.abandon (h : Sim m s) {v : V} {id : ChannelIdentity}
    {before after : List (Outgoing E)} (hfails : fails id.name) (hclaim : id.deleted = false)
    (hpending : (m.net.node v).pending = before ++ .announce id :: after) :
    ∃ s', FalteringStep T fails s s' ∧
      Sim { m with net := m.net.abandon v (before ++ after) } s' := by
  have hnode := h.node v
  obtain ⟨before', after', hsplit, hrest⟩ := hnode.owes (perm_owed hpending (m.phase v).owed)
  have hmatch : Matches { m.net.node v with pending := before ++ after } (m.phase v)
      { s.node v with pending := before' ++ after' } :=
    ⟨hnode.registry, hnode.inbox, hrest⟩
  have hset := h.set v hmatch
  rw [Mesh.setPhase, Function.update_eq_self] at hset
  exact ⟨_, .abandon hfails hclaim hsplit, hset⟩

/-- Every step of the mesh is some steps of gossip one identity at a time. -/
theorem Sim.step {m' : Mesh V E} (h : Sim m s) (hstep : MeshStep T fails m m') :
    ∃ s', Relation.ReflTransGen (FalteringStep T fails) s s' ∧ Sim m' s' := by
  cases hstep with
  | tick hs =>
      obtain ⟨s', hsteps, hsim⟩ := h.tick hs
      exact ⟨s', hsteps.lift id fun _ _ hg => .step (.gossip hg), hsim⟩
  | traffic hs =>
      obtain ⟨s', hs', hsim⟩ := h.traffic hs
      exact ⟨s', .single (.step (.gossip hs')), hsim⟩
  | change hs =>
      obtain ⟨s', hs', hsim⟩ := h.change hs
      exact ⟨s', .single (.step hs'), hsim⟩
  | abandon hfails hclaim hpending =>
      obtain ⟨s', hs', hsim⟩ := h.abandon (T := T) hfails hclaim hpending
      exact ⟨s', .single hs', hsim⟩
  | subscribe v names => exact ⟨s, .refl, h.node, h.ends, h.wire⟩

/-- **The batched maintenance loop refines gossip of one identity at a time.**
Every state a mesh of nodes can come to that pump whole inboxes, gather what
they owe by link and write it in frames, in any order of their maps and however
nodes interleave, stands for a reachable state of nodes that handle an identity
at a time: the same registries, links and wires, with what a node has pumped
and not merged in its inbox, and what it has gathered and not written owed. Whatever
creations fail behind their claim in the one fail in the other. -/
theorem maintenance_refines_gossip (h : Run.Reachable Mesh.Initial (MeshStep T fails) m) :
    ∃ s, Run.Reachable Initial (FalteringStep T fails) s ∧ Sim m s := by
  exact h.simulated (fun m hm => ⟨m.net, hm.1, sim_initial hm⟩) fun _ _ _ hsim hstep =>
    hsim.step hstep

end Simulation

/-- Two linked nodes, of which one has sent the other its channel. -/
def pairMesh : Mesh Bool Bool :=
  ⟨pairLinked.recv pair false pairEntry [], fun _ => .idle, fun _ => []⟩

/-- The other one has merged what it got. -/
def pairGathered : Mesh Bool Bool := (pairMesh.pump true).merge true true pairEntry [] ⟨[], [], []⟩

/-- It is about to relay it to everyone else, who is nobody. -/
def pairSending : Mesh Bool Bool :=
  pairGathered.setPhase true (.sending (Deltas.frames false [(true, [pairEntry])] ++ []) [])

def pairTicked : Mesh Bool Bool :=
  (pairSending.write pair true ⟨false, true, [pairEntry]⟩ [] []).retire true []

/-- A creation of another channel has got as far as the claim. -/
def pairClaimed : Mesh Bool Bool :=
  { pairTicked with
    net := pairTicked.net.setNode false
      ((pairTicked.net.node false).register 1 200 ⟨"d", 4096, 0, none⟩) }

/-- It fails there. -/
def pairAbandoned : Mesh Bool Bool :=
  { pairClaimed with net := pairClaimed.net.abandon false ([] ++ []) }

theorem pairAbandoned_reachable :
    Run.Reachable Mesh.Initial (MeshStep pair (· = "d")) pairAbandoned := by
  have h0 : Run.Reachable Mesh.Initial (MeshStep pair (· = "d"))
      (⟨pairStart, fun _ => .idle, fun _ => []⟩ : Mesh Bool Bool) :=
    .start ⟨by simp [Initial, pairStart], fun _ => rfl⟩
  have h1 := h0.next (.change (s := pairStart.adopt pair false) (.adopt (by decide)))
  have h2 := h1.next (.change (s := pairLinked) (.adopt (by decide)))
  have h3 : Run.Reachable Mesh.Initial (MeshStep pair (· = "d")) pairMesh :=
    h2.next (.traffic (.recv (by decide)))
  have h4 : Run.Reachable Mesh.Initial (MeshStep pair (· = "d")) (pairMesh.pump true) :=
    h3.next (.tick (.pump rfl (by decide)))
  have h5 : Run.Reachable Mesh.Initial (MeshStep pair (· = "d")) pairGathered :=
    h4.next (.tick (.merge rfl))
  have hphase : pairGathered.phase true = .merging [] ⟨[(true, [pairEntry])], [], []⟩ := rfl
  have h6 : Run.Reachable Mesh.Initial (MeshStep pair (· = "d")) pairSending :=
    h5.next (.tick (.send hphase (.refl _) (.refl _)))
  have h7 : Run.Reachable Mesh.Initial (MeshStep pair (· = "d"))
      (pairSending.write pair true ⟨false, true, [pairEntry]⟩ [] []) :=
    h6.next (.tick (.write rfl))
  have h8 : Run.Reachable Mesh.Initial (MeshStep pair (· = "d")) pairTicked :=
    h7.next (.tick (.retire rfl))
  have h9 : Run.Reachable Mesh.Initial (MeshStep pair (· = "d")) pairClaimed :=
    h8.next (.change (.register _ false 200 _))
  have howed : (pairClaimed.net.node false).pending =
      [] ++ .announce ((pairTicked.net.node false).registry.claimIdentity 1 200
        ⟨"d", 4096, 0, none⟩) :: [] := rfl
  exact h9.next (.abandon rfl rfl howed)

theorem maintenance_refines_gossip_pair :
    ∃ s, Run.Reachable Initial (FalteringStep pair (· = "d")) s ∧ Sim pairAbandoned s ∧
      (s.node true).registry.getRaw "c" = some pairEntry := by
  obtain ⟨s, hs, hsim⟩ := maintenance_refines_gossip pairAbandoned_reachable
  refine ⟨s, hs, hsim, ?_⟩
  rw [(hsim.node true).registry]
  decide

/-- **Agreement at quiescence, for the loop as it is**: in every reachable state
in which no node is in its tick and nothing is under way, the two nodes of a
live link hold a name at the same key, if no creation of that name has failed behind
its claim. -/
theorem maintenance_agreement [DecidableEq V] [DecidableEq E] {T : Topology V E}
    {fails : ChannelName → Prop} {m : Mesh V E}
    (h : Run.Reachable Mesh.Initial (MeshStep T fails) m) (hq : m.Quiescent T) {e : E}
    (hlive : Live T m.net e) {n : ChannelName} (hn : ¬ fails n) :
    ((m.net.node (T.host e)).registry.getRaw n).map ChannelIdentity.key =
      ((m.net.node (T.host (T.opp e))).registry.getRaw n).map ChannelIdentity.key := by
  obtain ⟨s, hs, hsim⟩ : ∃ s, Run.Reachable Initial (FalteringStep T fails) s ∧ Sim m s := by
    refine h.simulated (fun m hm => ⟨m.net, hm.1, sim_initial hm⟩) fun m m' s hsim hstep => ?_
    exact hsim.step hstep
  have hinv : Inv T fails s :=
    hs.invariant (fun _ h0 => inv_initial h0) (fun _ _ hi hstep => inv_falteringStep hi hstep)
  have hlive' : Live T s e := by rwa [Live, hsim.ends]
  rw [← (hsim.node _).registry, ← (hsim.node _).registry]
  exact hinv.agree (hsim.quiescent hq) hlive' hn

/-- The two agree on the one name, and not on the one whose creation failed. -/
theorem maintenance_agreement_pair :
    pairAbandoned.Quiescent pair ∧ Live pair pairAbandoned.net false ∧
    ((pairAbandoned.net.node true).registry.getRaw "c").map ChannelIdentity.key =
      some pairEntry.key ∧
    ((pairAbandoned.net.node true).registry.getRaw "d").map ChannelIdentity.key ≠
      ((pairAbandoned.net.node false).registry.getRaw "d").map ChannelIdentity.key := by
  have hq : pairAbandoned.Quiescent pair := by
    refine ⟨⟨fun e _ => ?_, fun v => ?_⟩, fun v => ?_⟩
    · cases e <;> rfl
    · cases v <;> exact ⟨rfl, rfl⟩
    · cases v <;> rfl
  have hl : Live pair pairAbandoned.net false := ⟨rfl, rfl⟩
  refine ⟨hq, hl, ?_, by decide⟩
  rw [← show ((pairAbandoned.net.node false).registry.getRaw "c").map ChannelIdentity.key
    = some pairEntry.key by decide]
  exact (maintenance_agreement pairAbandoned_reachable hq hl (n := "c") (by decide)).symm

/-! ## Ticks come to rest -/

section Termination

open Finset

/-- How far a node is from its next merge or write. -/
def Phase.rank : Phase E → ℕ
  | .merging (_ :: _) _ => 1
  | .idle => 2
  | .sending frames _ => 3 + frames.length
  | .merging [] g => 4 + (g.toRelay.frames false).length + (g.toReply.frames true).length

/-- What the mesh stands for. -/
def Mesh.stands (m : Mesh V E) : Net V E :=
  { m.net with
    node := fun v => ⟨(m.net.node v).registry, (m.phase v).inbox ++ (m.net.node v).inbox,
      (m.net.node v).pending ++ (m.phase v).owed⟩ }

theorem sim_stands (m : Mesh V E) : Sim m m.stands :=
  ⟨fun _ => ⟨rfl, rfl, .refl _⟩, rfl, rfl⟩

variable [Fintype V] [Fintype E] {m m' : Mesh V E} {s : Net V E}

/-- The measure does not see the order of what is owed. -/
theorem Sim.gossipMeasure_eq (h : Sim m s) : gossipMeasure s = gossipMeasure m.stands := by
  have hnode : ∀ v, (s.node v).registry = (m.stands.node v).registry ∧
      (s.node v).inbox = (m.stands.node v).inbox ∧
      (s.node v).pending.Perm (m.stands.node v).pending :=
    fun v => ⟨(h.node v).registry, (h.node v).inbox, (h.node v).pending⟩
  have hcirc : s.circulating = m.stands.circulating := by
    ext id
    simp only [mem_circulating, (hnode _).1, (hnode _).2.1, (hnode _).2.2.mem_iff, h.wire]
    rfl
  have hroom : ∀ K, room K s = room K m.stands := by
    intro K
    refine sum_congr rfl fun v _ => congrArg card (filter_congr fun x _ => ?_)
    rw [Net.key, Net.key, (hnode v).1]
  have hweight : ∀ K, weight K s = weight K m.stands := by
    intro K
    have hterm : ∀ v, nodeWeight K (s.node v) = nodeWeight K (m.stands.node v) := by
      intro v
      rw [nodeWeight, nodeWeight, (hnode v).2.1, ((hnode v).2.2.map (outWeight K)).sum_eq]
    simp only [weight, hterm, h.wire]
    rfl
  rw [gossipMeasure, gossipMeasure, hcirc, hroom, hweight]

def tickMeasure (m : Mesh V E) : (ℕ ×ₗ ℕ) ×ₗ ℕ :=
  toLex (gossipMeasure m.stands, ∑ v, (m.phase v).rank)

/-- Gossip made progress. -/
theorem tickMeasure_lt_of_gossip (hsim : Sim m' s)
    (hlt : gossipMeasure s < gossipMeasure m.stands) : tickMeasure m' < tickMeasure m := by
  rw [hsim.gossipMeasure_eq] at hlt
  exact Prod.Lex.toLex_lt_toLex.mpr (.inl hlt)

variable [DecidableEq V] [DecidableEq E] {T : Topology V E}

/-- A node got further in its tick, and gossip did not go back. -/
theorem tickMeasure_lt_of_rank (v : V) (hsim : Sim m' s)
    (hsteps : Relation.ReflTransGen (GossipStep T) m.stands s)
    (hphase : ∀ w, w ≠ v → m'.phase w = m.phase w)
    (hrank : (m'.phase v).rank < (m.phase v).rank) : tickMeasure m' < tickMeasure m := by
  have hsum : ∑ w, (m'.phase w).rank < ∑ w, (m.phase w).rank := by
    have := Weight.sum_add_eq_of_eq_off (f := fun w => (m'.phase w).rank)
      (g := fun w => (m.phase w).rank) v fun w hw => congrArg Phase.rank (hphase w hw)
    omega
  rcases Relation.reflTransGen_iff_eq_or_transGen.mp hsteps with rfl | htrans
  · refine Prod.Lex.toLex_lt_toLex.mpr (.inr ⟨?_, hsum⟩)
    exact hsim.gossipMeasure_eq.symm
  · refine tickMeasure_lt_of_gossip hsim ?_
    clear hsim hsteps
    induction htrans with
    | single hstep => exact gossipMeasure_lt hstep
    | tail _ hstep ih => exact (gossipMeasure_lt hstep).trans ih

theorem tickMeasure_lt_of_tick (h : TickStep T m m') : tickMeasure m' < tickMeasure m := by
  have hstands := sim_stands m
  have hother : ∀ (v : V) (phase : Phase E) (w : V), w ≠ v →
      (m.setPhase v phase).phase w = m.phase w :=
    fun v phase w hw => Function.update_of_ne hw _ _
  have hself : ∀ (v : V) (phase : Phase E), (m.setPhase v phase).phase v = phase :=
    fun v phase => Function.update_self _ _ _
  cases h with
  | @pump v hidle hne =>
      refine tickMeasure_lt_of_rank v (hstands.pump v hidle) (T := T) .refl (hother v _) ?_
      obtain ⟨x, xs, hx⟩ := List.exists_cons_of_ne_nil hne
      have hphase : (m.pump v).phase v = .merging (x :: xs) ⟨[], [], []⟩ := by
        rw [← hx]
        exact hself v _
      rw [hphase, hidle]
      exact Nat.lt_succ_self 1
  | @merge v source id rest g hphase =>
      obtain ⟨s, hs, hsim⟩ := hstands.merge (T := T) v hphase
      exact tickMeasure_lt_of_gossip hsim (gossipMeasure_lt hs)
  | @send v g relays replies hphase hrelay hreply =>
      refine tickMeasure_lt_of_rank v (hstands.send v hphase hrelay hreply) (T := T) .refl
        (hother v _) ?_
      have hlen₁ := (hrelay.flatMap_right fun x => (chunks MAX_IDENTITIES_PER_FRAME x.2).map
        fun ids => (⟨false, x.1, ids⟩ : Outbound E)).length_eq
      have hlen₂ := (hreply.flatMap_right fun x => (chunks MAX_IDENTITIES_PER_FRAME x.2).map
        fun ids => (⟨true, x.1, ids⟩ : Outbound E)).length_eq
      rw [hself, hphase, Phase.rank, Phase.rank, List.length_append, Deltas.frames, hlen₁,
        Deltas.frames, hlen₂, Deltas.frames, Deltas.frames]
      omega
  | @write v f rest retired hphase =>
      obtain ⟨s, hs, hsim⟩ := Sim.write (T := T) f.ids hstands v hphase
      refine tickMeasure_lt_of_rank v hsim hs (hother v _) ?_
      have hnext : (m.write T v f rest retired).phase v = .sending rest retired := hself v _
      rw [hnext, hphase, Phase.rank, Phase.rank, List.length_cons]
      omega
  | @retire v retired hphase =>
      refine tickMeasure_lt_of_rank v (hstands.retire v hphase) (T := T) .refl (hother v _) ?_
      have hnext : (m.retire v retired).phase v = .idle := hself v _
      rw [hnext, hphase, Phase.rank, Phase.rank]
      exact Nat.lt_succ_self 2

/-- What nodes do with what they have: ticks, deliveries and announcements. -/
inductive Busy (T : Topology V E) : Mesh V E → Mesh V E → Prop
  | tick {m m' : Mesh V E} (h : TickStep T m m') : Busy T m m'
  | traffic {m : Mesh V E} {s : Net V E} (h : Traffic T m.net s) : Busy T m { m with net := s }

/-- **Ticks come to rest.** Over any finite topology, from any state at all, the
pumps, merges, frames, deliveries and announcements of all nodes end, in
whatever order they happen and the maps are walked. -/
theorem maintenance_terminates (T : Topology V E) :
    WellFounded (fun m' m => Busy T m m') ∧
    ∀ run : ℕ → Mesh V E, ¬ ∀ i, Busy T (run i) (run (i + 1)) := by
  have hlt : ∀ m m' : Mesh V E, Busy T m m' → tickMeasure m' < tickMeasure m := by
    intro m m' h
    cases h with
    | tick h => exact tickMeasure_lt_of_tick h
    | traffic h =>
        obtain ⟨s, hs, hsim⟩ := (sim_stands m).traffic h
        exact tickMeasure_lt_of_gossip hsim (gossipMeasure_lt hs)
  have hwf : WellFounded (fun m' m => Busy T m m') :=
    Subrelation.wf (fun h => hlt _ _ h) (InvImage.wf tickMeasure wellFounded_lt)
  exact ⟨hwf, fun run => Run.terminates_iff_acc.mpr (hwf.apply (run 0)) run rfl⟩

end Termination

end XchannelNet.Gossip
