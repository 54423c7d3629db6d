import XchannelNet.Lib.Run
import XchannelNet.Node.Attach

/-!
# OwnLogs — no member is fed by the log of another incarnation

A member is attached under the epoch that the registry had, or that a slot
table has, from whatever log is at its path by then. So the two have to agree
beforehand, and stay so: of every incarnation the node may yet attach, what is
at the paths of its name is stamped with it (`Matched`).

Attaching, sampling, detaching, polling, discarding a replica and a restart
leave that as it is. What can break it is an entry that takes a name over while
a log of the name's last incarnation is still on disk, and a log that is
created while another incarnation of its name is in hand. `Settled` rules these
out, command by command.
-/

namespace XchannelNet

open Mux

namespace TopicHost

variable {φ : Type} (c : Config) (n : TopicHost φ)

/-- What is at the paths of a name. -/
def logsOf (name : ChannelName) : List φ := (n.origins name).toList ++ (n.replicas name).toList

/-- What is at the paths of an incarnation's name is of that incarnation. -/
def Clean (k : Incarnation) : Prop := ∀ f ∈ n.logsOf k.1, (n.world.files f).StampedAs k

/-- The incarnations that a pass or a restart has listed and not come to yet. -/
def inHand : List Incarnation :=
  (n.pending.map fun m => (m.name, m.epoch)) ++ n.rehosting.map Prod.fst

/-- An entry the topic's node will read an epoch from. -/
def Concerns (id : ChannelIdentity) : Prop :=
  id.memberOf = some c.setup.name ∨ id.name ∈ n.publishing

/-- The node may yet attach this incarnation. -/
def Awaits (k : Incarnation) : Prop :=
  k ∈ n.inHand ∨ ∃ id ∈ n.registry.getRaw k.1, id.epoch = k.2 ∧ n.Concerns c id

/-- An attachment has room in the slot table, and none of its writes fails, but for one
that the process is killed at. -/
def Writable (k : Incarnation) (outcomes : List WriteOutcome) : Prop :=
  .failed ∉ outcomes.take 2 ∧
    ((∃ s ∈ n.world.slots, s.member = k) ∨ n.world.session.RoomFor k.1)

/-- The epoch a `publish_to_topic` reads back. -/
def epochOf (member : ChannelName) : UInt64 :=
  ((n.registry.getRaw member).map ChannelIdentity.epoch).getD 0

/-- **The condition** on a command and the state before it.
* An entry that takes a name over finds nothing of another incarnation on disk.
* A member is published at an epoch that what is at its paths is stamped with, and while no
  other incarnation of it is in hand; nobody publishes a member under the topic's own name.
* A replica is created for the incarnation that is awaited.
* A restart finds the logs of the members that the topic lists, and claims its own ones at
  the epochs listed.
* The slot table and the marker of an attachment can be written. -/
def Settled : Command φ → Prop
  | .merge id => (n.registry.mergeTracked id).2.changed = false ∨ ¬ n.Concerns c id ∨
      n.Clean (id.name, id.epoch)
  | .createTopic _ => c.setup.name ∉ n.publishing
  | .publish _ member _ _ _ => n.Clean (member, n.registry.claimEpoch member) ∧
      ∀ k ∈ n.inHand, k.1 ≠ member ∨ k.2 = n.registry.claimEpoch member
  | .publishAttach member outcomes => n.Writable (member, n.epochOf member) outcomes
  | .newReplica name file =>
      (∀ k ∈ n.inHand, k.1 ≠ name ∨ (n.world.files file).StampedAs k) ∧
      ∀ id ∈ n.registry.getRaw name,
        ¬ n.Concerns c id ∨ (n.world.files file).StampedAs (name, id.epoch)
  | .attach outcomes => ∀ m ∈ n.pending.head?, n.Writable (m.name, m.epoch) outcomes
  | .rehost _ => c.setup.name ∉ n.publishing ∧
      ∀ cfg ∈ topicConfig n.world.retained, ∀ k ∈ cfg.members, n.Clean k
  | .reattach _ _ outcomes => ∀ x ∈ n.rehosting.head?, n.Writable x.1 outcomes ∧
      (x.2 = true ∨ (n.origins x.1.1).isNone = true ∨ n.registry.claimEpoch x.1.1 = x.1.2)
  | .deregister _ _ | .discardReplica _ | .grow _ _ | .scan | .detach _ _ | .poll _ | .restart =>
      True

instance (k : Incarnation) : Decidable (n.Clean k) :=
  inferInstanceAs (Decidable (∀ f ∈ n.logsOf k.1, _))

instance (id : ChannelIdentity) : Decidable (n.Concerns c id) :=
  inferInstanceAs (Decidable (_ ∨ _))

instance (k : Incarnation) (outcomes : List WriteOutcome) : Decidable (n.Writable k outcomes) :=
  inferInstanceAs (Decidable (_ ∧ _))

instance : DecidablePred (n.Settled c)
  | .merge id => inferInstanceAs (Decidable (_ ∨ ¬ n.Concerns c id ∨ n.Clean (id.name, id.epoch)))
  | .createTopic _ => inferInstanceAs (Decidable (¬ c.setup.name ∈ n.publishing))
  | .publish _ _ _ _ _ => inferInstanceAs (Decidable (n.Clean _ ∧ ∀ k ∈ n.inHand, _ ∨ _))
  | .publishAttach _ outcomes => inferInstanceAs (Decidable (n.Writable _ outcomes))
  | .newReplica name file => inferInstanceAs (Decidable ((∀ k ∈ n.inHand, _ ∨ _) ∧
      ∀ id ∈ n.registry.getRaw name, ¬ n.Concerns c id ∨ (n.world.files file).StampedAs _))
  | .attach outcomes =>
      inferInstanceAs (Decidable (∀ m ∈ n.pending.head?, n.Writable (m.name, m.epoch) outcomes))
  | .rehost _ => inferInstanceAs (Decidable (¬ _ ∈ n.publishing ∧
      ∀ cfg ∈ topicConfig n.world.retained, ∀ k ∈ cfg.members, n.Clean k))
  | .reattach _ _ outcomes => inferInstanceAs (Decidable
      (∀ x ∈ n.rehosting.head?, n.Writable x.1 outcomes ∧ (_ ∨ _ ∨ _)))
  | .deregister _ _ | .discardReplica _ | .grow _ _ | .scan | .detach _ _ | .poll _ | .restart =>
      isTrue trivial

/-- What is awaited matches what is on disk, and who is being published is registered. -/
structure Matched : Prop where
  clean : ∀ k, n.Awaits c k → n.Clean k
  entered : ∀ member ∈ n.publishing, (n.registry.getRaw member).isSome = true

variable {c n} {n' : TopicHost φ}

/-! ## What keeps a node matched -/

theorem mem_logsOf {name : ChannelName} {f : φ} :
    f ∈ n.logsOf name ↔ n.origins name = some f ∨ n.replicas name = some f := by
  simp [logsOf]

theorem Clean.origin {k : Incarnation} {f : φ} (h : n.Clean k) (hf : n.origins k.1 = some f) :
    (n.world.files f).StampedAs k :=
  h f (mem_logsOf.mpr (.inl hf))

theorem Clean.replica {k : Incarnation} {f : φ} (h : n.Clean k) (hf : n.replicas k.1 = some f) :
    (n.world.files f).StampedAs k :=
  h f (mem_logsOf.mpr (.inr hf))

theorem setPath_eq_some {paths : ChannelName → Option φ} {name other : ChannelName}
    {file : Option φ} {f : φ} (h : setPath paths name file other = some f) :
    paths other = some f ∨ other = name ∧ file = some f := by
  by_cases hn : other = name
  · subst hn
    rw [setPath, Function.update_self] at h
    exact .inr ⟨rfl, h⟩
  · rw [setPath, Function.update_of_ne hn] at h
    exact .inl h

variable (n n') in
/-- No log comes to a path, and a log keeps its stamp. -/
structure Inherits : Prop where
  logs : ∀ name, ∀ f ∈ n'.logsOf name, f ∈ n.logsOf name
  stamps : ∀ f k, (n.world.files f).StampedAs k → (n'.world.files f).StampedAs k

/-- The same logs at the same paths. -/
theorem Inherits.of_eq (horigins : n'.origins = n.origins) (hreplicas : n'.replicas = n.replicas)
    (hworld : n'.world = n.world) : n.Inherits n' :=
  ⟨fun name f hf => by rwa [logsOf, horigins, hreplicas] at hf, fun _ _ hk => by rwa [hworld]⟩

/-- A step that brings no log to any path, and awaits only what it awaited or finds clean. -/
theorem Matched.mono (h : n.Matched c) (hlogs : n.Inherits n')
    (hawaits : ∀ k, n'.Awaits c k → n.Awaits c k ∨ n.Clean k)
    (hentered : ∀ member ∈ n'.publishing, (n'.registry.getRaw member).isSome = true) :
    n'.Matched c where
  clean k hk f hf := hlogs.stamps f k ((hawaits k hk).elim (h.clean k) id f (hlogs.logs k.1 f hf))
  entered := hentered

/-- A log comes to a path of a name, stamped with all that is awaited of the name. -/
theorem Matched.create (h : n.Matched c) (name : ChannelName) (file : φ)
    (hlogs : ∀ other, ∀ f ∈ n'.logsOf other, f ∈ n.logsOf other ∨ other = name ∧ f = file)
    (hrest : n'.registry = n.registry ∧ n'.inHand = n.inHand ∧ n'.publishing = n.publishing ∧
      n'.world = n.world)
    (hstamp : ∀ k, n.Awaits c k → k.1 = name → (n.world.files file).StampedAs k) :
    n'.Matched c := by
  obtain ⟨hreg, hhand, hpub, hworld⟩ := hrest
  have hawaits : ∀ k, n'.Awaits c k ↔ n.Awaits c k := by
    intro k
    simp only [Awaits, Concerns, hreg, hhand, hpub]
  refine ⟨fun k hk f hf => ?_, fun member hm => ?_⟩
  · rw [hworld]
    rcases hlogs k.1 f hf with hf | ⟨hname, rfl⟩
    · exact h.clean k ((hawaits k).mp hk) f hf
    · exact hstamp k ((hawaits k).mp hk) hname
  · rw [hpub] at hm
    rw [hreg]
    exact h.entered member hm

/-- Whoever begins to publish a member has found its entry clean. -/
theorem Matched.publishing (h : n.Matched c) {member : ChannelName} {id : ChannelIdentity}
    (hraw : n.registry.getRaw member = some id) (hclean : n.Clean (member, id.epoch)) :
    { n with publishing := member :: n.publishing }.Matched c := by
  refine h.mono (.of_eq rfl rfl rfl) (fun k hk => ?_) fun m hm => ?_
  · rcases hk with hk | ⟨e, he, hepoch, hcon⟩
    · exact .inl (.inl hk)
    · by_cases hname : k.1 = member
      · rw [hname, hraw] at he
        cases he
        have hk : (member, id.epoch) = k := Prod.ext hname.symm hepoch
        exact .inr (hk ▸ hclean)
      · refine .inl (.inr ⟨e, he, hepoch, hcon.imp_right fun hin => ?_⟩)
        rw [Registry.getRaw_name he] at hin ⊢
        exact (List.mem_cons.mp hin).resolve_left hname
  · rcases List.mem_cons.mp hm with rfl | hm
    · exact Option.isSome_of_mem hraw
    · exact h.entered m hm

/-- An entry that is merged is there afterwards, if it was not before. -/
theorem isSome_mergeTracked {r : Registry} {id : ChannelIdentity} {name : ChannelName}
    (h : (r.getRaw name).isSome = true) :
    ((r.mergeTracked id).1.getRaw name).isSome = true := by
  rw [Registry.getRaw_mergeTracked]
  split
  · rw [‹id.name = name›.symm, Registry.mergeSlot_getRaw]
    rfl
  · exact h

/-- The merge of an entry that finds what is at its paths clean. What else comes in hand is
clean as well. -/
theorem Matched.merge (h : n.Matched c) {id : ChannelIdentity}
    (hok : (n.registry.mergeTracked id).2.changed = false ∨ ¬ n.Concerns c id ∨
      n.Clean (id.name, id.epoch))
    (hreg : n'.registry = (n.registry.mergeTracked id).1)
    (hhand : ∀ k ∈ n'.inHand, k ∈ n.inHand ∨ n.Clean k) (hpub : n'.publishing = n.publishing)
    (hlogs : n.Inherits n') : n'.Matched c := by
  refine h.mono hlogs (fun k hk => ?_) fun member hm => ?_
  · rcases hk with hk | ⟨e, he, hepoch, hcon⟩
    · exact (hhand k hk).imp_left .inl
    · rw [Concerns, hpub] at hcon
      rw [hreg] at he
      by_cases hch : (n.registry.mergeTracked id).2.changed = true
      · rcases Registry.getRaw_mergeTracked_choice he with hold | ⟨rfl, hname⟩
        · exact .inl (.inr ⟨e, hold, hepoch, hcon⟩)
        · -- the entry has taken the name over
          rcases hok with hsame | hnot | hclean
          · rw [hch] at hsame
            cases hsame
          · exact absurd hcon hnot
          · have hk : (e.name, e.epoch) = k := Prod.ext hname hepoch
            exact .inr (hk ▸ hclean)
      · rw [Registry.mergeTracked_of_not_changed hch] at he
        exact .inl (.inr ⟨e, he, hepoch, hcon⟩)
  · rw [hpub] at hm
    rw [hreg]
    exact isSome_mergeTracked (h.entered member hm)

/-- Less in hand, fewer paths, the same entries. -/
theorem Matched.less (h : n.Matched c) (hreg : n'.registry = n.registry)
    (hhand : n'.inHand ⊆ n.inHand) (hpub : n'.publishing ⊆ n.publishing)
    (hlogs : n.Inherits n') : n'.Matched c := by
  refine h.mono hlogs (fun k hk => .inl ?_) fun member hm => ?_
  · rcases hk with hk | ⟨e, he, hepoch, hcon⟩
    · exact .inl (hhand hk)
    · rw [hreg] at he
      exact .inr ⟨e, he, hepoch, hcon.imp_right (hpub ·)⟩
  · rw [hreg]
    exact h.entered member (hpub hm)

/-- What an operation of the mux leaves alone. -/
theorem operate_stamped [DecidableEq φ] {o : Op φ} {outcomes : List WriteOutcome}
    {x : Mux.Action φ × TopicHost φ} (h : n.operate c o outcomes = some x) :
    (∃ r, x.1 = .op o outcomes r) ∧ x.2 = { n with world := x.2.world } ∧ n.Inherits x.2 := by
  have hmoves := operate_moves h
  simp only [operate, Option.map_eq_some_iff] at h
  obtain ⟨y, hy, rfl⟩ := h
  exact ⟨World.perform_op_fst hy, rfl, fun _ _ hf => hf, fun _ _ hk =>
    hmoves.filesGrow.stampedAs hk⟩

theorem Matched.operate [DecidableEq φ] {o : Op φ} {outcomes : List WriteOutcome}
    {x : Mux.Action φ × TopicHost φ} (h : n.Matched c) (hx : n.operate c o outcomes = some x) :
    x.2.Matched c := by
  obtain ⟨-, hframe, hlogs⟩ := operate_stamped hx
  rw [hframe] at hlogs ⊢
  exact h.less rfl (List.Subset.refl _) (List.Subset.refl _) hlogs

/-- Opening the topic claims its own name. -/
theorem Matched.openTopic {now : UInt64} {regionSize mtu : UInt32}
    {rehosting : List (Incarnation × Bool)} {a : Option (Mux.Action φ)} [DecidableEq φ]
    (h : n.Matched c) (hname : c.setup.name ∉ n.publishing)
    (hre : ∀ k ∈ rehosting.map Prod.fst, n.Clean k)
    (hp : n.openTopic c now regionSize mtu rehosting = some (a, n')) : n'.Matched c := by
  set q : ClaimRequest := ⟨c.setup.name, regionSize, mtu, none⟩ with hq
  have hok : (n.registry.mergeTracked (n.registry.claimIdentity c.nodeId now q)).2.changed = false ∨
      ¬ n.Concerns c (n.registry.claimIdentity c.nodeId now q) ∨
      n.Clean (c.setup.name, n.registry.claimEpoch c.setup.name) := by
    refine .inr (.inl ?_)
    rintro (hmem | hin)
    · cases hmem
    · exact hname hin
  have hreg := Registry.claimName_fst n.registry c.nodeId now q
  simp only [TopicHost.openTopic] at hp
  split at hp
  · rename_i registry e hclaim
    cases hp
    rw [hclaim] at hreg
    exact h.merge hok hreg (fun k hk => .inl hk) rfl (.of_eq rfl rfl rfl)
  · rename_i registry identity hclaim
    rw [hclaim] at hreg
    obtain ⟨x, hx, he⟩ := Option.map_eq_some_iff.mp hp
    cases he
    have hgrow := (World.step_of_perform hx).filesGrow
    refine h.merge hok hreg (fun k hk => ?_) rfl ⟨fun _ _ hf => hf, fun _ _ hk =>
      hgrow.stampedAs hk⟩
    rcases List.mem_append.mp hk with hk | hk
    · exact .inl (List.mem_append_left _ hk)
    · exact .inr (hre k hk)

/-- A member is published: its log is there, or is created. -/
theorem Matched.publish {now : UInt64} {member : ChannelName} {regionSize mtu : UInt32} {file : φ}
    (h : n.Matched c) (hclean : n.Clean (member, n.registry.claimEpoch member))
    (hhand : ∀ k ∈ n.inHand, k.1 ≠ member ∨ k.2 = n.registry.claimEpoch member)
    (hp : n.publish c now member regionSize mtu file = some n') : n'.Matched c := by
  set q : ClaimRequest := ⟨member, regionSize, mtu, some c.setup.name⟩ with hq
  have hclaimed : { n with registry := (n.registry.claimName c.nodeId now q).1 }.Matched c :=
    h.merge (.inr (.inr hclean)) (Registry.claimName_fst ..) (fun k hk => .inl hk) rfl
      (.of_eq rfl rfl rfl)
  simp only [TopicHost.publish] at hp
  split at hp
  · rename_i registry e hclaim
    cases hp
    rwa [hclaim] at hclaimed
  rename_i registry identity hclaim
  have hholds := Registry.holds_claimName_of_ok (congrArg Prod.snd hclaim)
  obtain rfl := Registry.claimName_ok (congrArg Prod.snd hclaim)
  rw [hclaim] at hclaimed hholds
  obtain ⟨id, hraw, -, -, hepoch⟩ := Registry.holds_iff.mp hholds
  have hpublishing := hclaimed.publishing hraw (hepoch ▸ hclean)
  split at hp
  · split at hp <;> cases hp
    · exact hpublishing
    · exact hclaimed
  · rename_i hnone
    split at hp
    · rename_i hnew
      cases hp
      refine hpublishing.create member file (fun other f hf => ?_) ⟨rfl, rfl, rfl, rfl⟩ ?_
      · rcases mem_logsOf.mp hf with hf | hf
        · exact (setPath_eq_some hf).imp (fun hf => mem_logsOf.mpr (.inl hf))
            fun hf => ⟨hf.1, (Option.some.inj hf.2).symm⟩
        · exact .inl (mem_logsOf.mpr (.inr hf))
      · -- the log is stamped with the epoch claimed, and no other is awaited
        intro k hk hname
        have hk : k = (member, n.registry.claimEpoch member) := by
          rcases hk with hk | ⟨e, he, hke, -⟩
          · exact Prod.ext hname ((hhand k hk).resolve_left fun hne => hne hname)
          · rw [hname, hraw] at he
            cases he
            exact Prod.ext hname (hke.symm.trans hepoch)
        rw [hk]
        exact hnew.1
    · cases hp

/-- Deregistering leaves the entry at its epoch, and removes a log or does not. -/
theorem Matched.deregister (h : n.Matched c) (name : ChannelName) {origins : ChannelName → Option φ}
    (horigins : ∀ other f, origins other = some f → n.origins other = some f) :
    { n with registry := (n.registry.deregister name c.nodeId).1, origins }.Matched c := by
  have hlogs : n.Inherits { n with origins } := by
    refine ⟨fun other f hf => ?_, fun _ _ hk => hk⟩
    exact mem_logsOf.mpr ((mem_logsOf.mp hf).imp_left (horigins other f))
  rcases n.registry.deregister_cases name c.nodeId with hr | ⟨hr, -⟩
  · rw [hr]
    exact h.less rfl (List.Subset.refl _) (List.Subset.refl _) ⟨hlogs.logs, hlogs.stamps⟩
  rw [hr]
  rcases n.registry.reap_cases name with hr | ⟨cur, hraw, -, hr⟩
  · rw [hr]
    exact h.less rfl (List.Subset.refl _) (List.Subset.refl _) ⟨hlogs.logs, hlogs.stamps⟩
  rw [hr]
  refine h.merge ?_ rfl (fun k hk => .inl hk) rfl ⟨hlogs.logs, hlogs.stamps⟩
  by_cases hcon : n.Concerns c { cur with deleted := true }
  · have hcur : n.registry.getRaw cur.name = some cur := by rwa [Registry.getRaw_name hraw]
    exact .inr (.inr (h.clean (cur.name, cur.epoch) (.inr ⟨cur, hcur, rfl, hcon⟩)))
  · exact .inr (.inl hcon)

/-- A replica of what is awaited. -/
theorem Matched.newReplica {name : ChannelName} {file : φ} (h : n.Matched c)
    (hhand : ∀ k ∈ n.inHand, k.1 ≠ name ∨ (n.world.files file).StampedAs k)
    (hentry : ∀ id ∈ n.registry.getRaw name,
      ¬ n.Concerns c id ∨ (n.world.files file).StampedAs (name, id.epoch)) :
    { n with replicas := setPath n.replicas name (some file) }.Matched c := by
  refine h.create name file (fun other f hf => ?_) ⟨rfl, rfl, rfl, rfl⟩ fun k hk hname => ?_
  · rcases mem_logsOf.mp hf with hf | hf
    · exact .inl (mem_logsOf.mpr (.inl hf))
    · exact (setPath_eq_some hf).imp (fun hf => mem_logsOf.mpr (.inr hf))
        fun hf => ⟨hf.1, (Option.some.inj hf.2).symm⟩
  · rcases hk with hk | ⟨id, hid, hepoch, hcon⟩
    · exact (hhand k hk).resolve_left fun hne => hne hname
    · rw [hname] at hid
      have hk : (name, id.epoch) = k := Prod.ext hname.symm hepoch
      exact hk ▸ (hentry id hid).resolve_left fun hnot => hnot hcon

/-- A scan takes in hand what the registry has. -/
theorem Matched.scan (h : n.Matched c) :
    { n with live := n.sample c, pending := n.sample c }.Matched c := by
  refine h.mono (.of_eq rfl rfl rfl) (fun k hk => .inl ?_) h.entered
  rcases hk with hk | hk
  · rcases List.mem_append.mp hk with hk | hk
    · obtain ⟨id, hid, rfl⟩ := List.mem_map.mp hk
      obtain ⟨hiter, hsampled⟩ := List.mem_filter.mp hid
      rw [Bool.and_eq_true, beq_iff_eq] at hsampled
      exact .inr ⟨id, Registry.mem_iter.mp hiter, rfl, .inl hsampled.2⟩
    · exact .inl (List.mem_append_right _ hk)
  · exact .inr hk

/-- A new process awaits nothing. -/
theorem matched_of_new (hreg : n.registry = .new) (hpending : n.pending = [])
    (hrehosting : n.rehosting = []) (hpub : n.publishing = []) : n.Matched c := by
  constructor
  · rintro k (hk | ⟨id, hid, -⟩)
    · rw [inHand, hpending, hrehosting] at hk
      cases hk
    · rw [hreg, Registry.getRaw_new] at hid
      cases hid
  · rw [hpub]
    simp

/-! ## One step -/

variable [DecidableEq φ] {cmd : Command φ} {a : Option (Mux.Action φ)}

/-- A member that is to be attached again is claimed at the epoch it is listed at. -/
theorem Matched.reattach {now : UInt64} {mtu : UInt32} {outcomes : List WriteOutcome}
    (h : n.Matched c) (hok : n.Settled c (.reattach now mtu outcomes))
    (hp : n.perform c (.reattach now mtu outcomes) = some (a, n')) : n'.Matched c := by
  obtain ⟨y, hy, he⟩ := Option.map_eq_some_iff.mp hp
  cases he
  simp only [TopicHost.reattach] at hy
  -- an attempt leaves a shorter list, or the same members on it
  have hlist : ∀ {n₁ : TopicHost φ} {x : Mux.Action φ × TopicHost φ} {o : Op φ}
      {rehosting : List (Incarnation × Bool)}, n₁.operate c o outcomes = some x →
      n₁.Matched c → n₁.rehosting = n.rehosting →
      (rehosting.map Prod.fst ⊆ n.rehosting.map Prod.fst) →
      { x.2 with rehosting }.Matched c := by
    intro n₁ x o rehosting hx hn₁ hre hsub
    obtain ⟨-, hframe, -⟩ := operate_stamped hx
    refine (hn₁.operate hx).less rfl (fun k hk => ?_) (List.Subset.refl _) (.of_eq rfl rfl rfl)
    rw [hframe, inHand, hre]
    rw [hframe] at hk
    rcases List.mem_append.mp hk with hk | hk
    · exact List.mem_append_left _ hk
    · exact List.mem_append_right _ (hsub hk)
  split at hy
  · cases hy
  · rename_i k rest hre
    obtain ⟨x, hx, rfl⟩ := Option.map_eq_some_iff.mp hy
    obtain ⟨-, hepoch⟩ := hok (k, false) (by rw [hre]; rfl)
    refine hlist hx ?_ rfl ?_
    · split
      · rename_i l hl
        obtain ⟨f, hf, -⟩ := Option.map_eq_some_iff.mp hl
        split
        · refine h.merge ?_ (Registry.claimName_fst ..) (fun k hk => .inl hk) rfl
            (.of_eq rfl rfl rfl)
          have hclaim : n.registry.claimEpoch k.1 = k.2 := by
            rcases hepoch with hfalse | hnone | hepoch
            · cases hfalse
            · rw [hf] at hnone
              cases hnone
            · exact hepoch
          refine .inr (.inr ?_)
          show n.Clean (k.1, n.registry.claimEpoch k.1)
          rw [hclaim]
          exact h.clean k (.inl (List.mem_append_right _ (by rw [hre]; exact List.mem_cons_self)))
        · exact h
      · exact h
    · rw [hre]
      split
      · exact List.subset_cons_self _ _
      · exact List.Subset.refl _
  · rename_i k rest hre
    obtain ⟨x, hx, rfl⟩ := Option.map_eq_some_iff.mp hy
    refine hlist hx h rfl ?_
    rw [hre]
    exact List.subset_cons_self _ _

/-- **Step lemma**. -/
theorem Matched.step (h : n.Matched c) (hok : n.Settled c cmd)
    (hp : n.perform c cmd = some (a, n')) : n'.Matched c := by
  cases cmd with
  | merge id =>
      cases hp
      exact h.merge hok rfl (fun k hk => .inl hk) rfl (.of_eq rfl rfl rfl)
  | createTopic now =>
      simp only [perform] at hp
      exact h.openTopic hok (by simp) hp
  | publish now member regionSize mtu file =>
      obtain ⟨x, hx, he⟩ := Option.map_eq_some_iff.mp hp
      cases he
      exact h.publish hok.1 hok.2 hx
  | publishAttach member outcomes =>
      simp only [perform] at hp
      split at hp
      · obtain ⟨x, hx, he⟩ := Option.map_eq_some_iff.mp hp
        cases he
        have hx' := h.operate hx
        obtain ⟨-, hframe, -⟩ := operate_stamped hx
        refine hx'.less rfl (List.Subset.refl _) ?_ (.of_eq rfl rfl rfl)
        rw [hframe]
        exact List.erase_subset
      · cases hp
  | deregister name removed =>
      simp only [perform] at hp
      split at hp
      · cases hp
        exact h
      · rename_i registry t hd
        cases hp
        have hreg : registry = (n.registry.deregister name c.nodeId).1 := by rw [hd]
        rw [hreg]
        refine h.deregister name fun other f hf => ?_
        split at hf
        · rcases setPath_eq_some hf with hf | ⟨-, hf⟩
          · exact hf
          · cases hf
        · exact hf
  | newReplica name file =>
      simp only [perform] at hp
      split at hp
      · cases hp
        exact h.newReplica hok.1 hok.2
      · cases hp
  | discardReplica name =>
      cases hp
      refine h.less rfl (List.Subset.refl _) (List.Subset.refl _) ⟨fun other f hf => ?_,
        fun _ _ hk => hk⟩
      refine mem_logsOf.mpr ((mem_logsOf.mp hf).imp_right fun hf => ?_)
      rcases setPath_eq_some hf with hf | ⟨-, hf⟩
      · exact hf
      · cases hf
  | grow file growth =>
      have hgrow : FilesGrow n.world.files n'.world.files := by
        rcases Step.moves ⟨_, hp⟩ with ⟨-, hw⟩ | ⟨x, -, hx⟩
        · exact fun _ => .inl (by rw [hw])
        · exact hx.filesGrow
      simp only [perform] at hp
      split at hp
      · cases hp
        exact h.less rfl (List.Subset.refl _) (List.Subset.refl _) ⟨fun _ _ hf => hf,
          fun _ _ hk => hgrow.stampedAs hk⟩
      · cases hp
  | scan =>
      cases hp
      exact h.scan
  | attach outcomes =>
      simp only [perform] at hp
      split at hp
      · cases hp
      · rename_i m rest hpending
        have hrest : { n with pending := rest }.Matched c := by
          refine h.less rfl (fun k hk => ?_) (List.Subset.refl _) (.of_eq rfl rfl rfl)
          rw [inHand, hpending]
          exact List.mem_cons_of_mem _ hk
        split at hp
        · cases hp
          exact hrest
        · split at hp
          · cases hp
            exact hrest
          · obtain ⟨x, hx, he⟩ := Option.map_eq_some_iff.mp hp
            cases he
            exact hrest.operate hx
  | detach k outcomes =>
      simp only [perform] at hp
      split at hp
      · obtain ⟨x, hx, he⟩ := Option.map_eq_some_iff.mp hp
        cases he
        exact h.operate hx
      · cases hp
  | poll outcomes =>
      obtain ⟨x, hx, he⟩ := Option.map_eq_some_iff.mp hp
      cases he
      exact h.operate hx
  | restart =>
      simp only [perform] at hp
      split at hp <;> cases hp <;> exact matched_of_new rfl rfl rfl rfl
  | rehost now =>
      simp only [perform] at hp
      split at hp
      · rename_i cfg hs hcfg
        split at hp
        · refine h.openTopic hok.1 (fun k hk => ?_) hp
          rw [List.map_map] at hk
          obtain ⟨k', hk', rfl⟩ := List.mem_map.mp hk
          exact hok.2 cfg hcfg k' hk'
        · cases hp
      · cases hp
  | reattach now mtu outcomes => exact h.reattach hok hp

theorem attachesStamped_openTopic {now : UInt64} {regionSize mtu : UInt32}
    {rehosting : List (Incarnation × Bool)} {x : Mux.Action φ}
    (hp : n.openTopic c now regionSize mtu rehosting = some (some x, n')) :
    AttachesStamped n.world x := by
  simp only [TopicHost.openTopic] at hp
  split at hp
  · cases hp
  · obtain ⟨y, hy, he⟩ := Option.map_eq_some_iff.mp hp
    cases he
    rw [World.perform_open_fst hy]
    trivial

omit [DecidableEq φ] in
/-- A log that is stamped, and room to attach it. -/
theorem attachesStamped_of {k : Incarnation} {file : Option φ} {outcomes : List WriteOutcome}
    {r : Except MuxError Unit} (hw : n.Writable k outcomes)
    (hfile : ∀ f, file = some f → (n.world.files f).StampedAs k) :
    AttachesStamped n.world (.op (.addMember k.1 k.2 file) outcomes r) :=
  ⟨fun _ => hfile, hw.2.imp_right .inr, hw.1⟩

/-- The epoch that is read back is the one of the entry, which the log is stamped with. -/
theorem Matched.publishAttach_stamped {member : ChannelName} {outcomes : List WriteOutcome}
    {x : Mux.Action φ} (h : n.Matched c) (hok : n.Settled c (.publishAttach member outcomes))
    (hp : n.perform c (.publishAttach member outcomes) = some (some x, n')) :
    AttachesStamped n.world x := by
  simp only [perform] at hp
  split at hp
  · rename_i hin
    obtain ⟨y, hy, he⟩ := Option.map_eq_some_iff.mp hp
    cases he
    obtain ⟨⟨r, hr⟩, -⟩ := operate_stamped hy
    obtain ⟨id, hid⟩ := Option.isSome_iff_exists.mp (h.entered member hin)
    rw [hr, hid]
    have hepoch : n.epochOf member = id.epoch := by rw [epochOf, hid]; rfl
    have hw : n.Writable (member, id.epoch) outcomes := by rw [← hepoch]; exact hok
    have hcon : n.Concerns c id := .inr (by rwa [Registry.getRaw_name hid])
    exact attachesStamped_of hw fun f hf =>
      (h.clean (member, id.epoch) (.inr ⟨id, hid, rfl, hcon⟩)).origin hf
  · cases hp

/-- A pass attaches from the path of a member that it has in hand. -/
theorem Matched.attach_stamped {outcomes : List WriteOutcome} {x : Mux.Action φ}
    (h : n.Matched c) (hok : n.Settled c (.attach outcomes))
    (hp : n.perform c (.attach outcomes) = some (some x, n')) : AttachesStamped n.world x := by
  simp only [perform] at hp
  split at hp
  · cases hp
  · rename_i m rest hpending
    split at hp
    · cases hp
    · split at hp
      · cases hp
      · rename_i file hpath
        obtain ⟨y, hy, he⟩ := Option.map_eq_some_iff.mp hp
        cases he
        obtain ⟨⟨r, hr⟩, -⟩ := operate_stamped hy
        rw [hr]
        have hw : n.Writable (m.name, m.epoch) outcomes := hok m (by rw [hpending]; rfl)
        have hclean := h.clean (m.name, m.epoch) (.inl (List.mem_append_left _
          (List.mem_map.mpr ⟨m, by rw [hpending]; exact List.mem_cons_self, rfl⟩)))
        refine attachesStamped_of (n := n) hw fun f hf => ?_
        subst hf
        simp only [pathOf] at hpath
        split at hpath
        · exact hclean.origin (Option.some.inj hpath)
        · obtain ⟨f', hf', he⟩ := Option.map_eq_some_iff.mp hpath
          cases he
          exact hclean.replica hf'

/-- So does a restart, from either path. -/
theorem Matched.reattach_stamped {now : UInt64} {mtu : UInt32} {outcomes : List WriteOutcome}
    {x : Mux.Action φ} (h : n.Matched c) (hok : n.Settled c (.reattach now mtu outcomes))
    (hp : n.perform c (.reattach now mtu outcomes) = some (some x, n')) :
    AttachesStamped n.world x := by
  obtain ⟨y, hy, he⟩ := Option.map_eq_some_iff.mp hp
  cases he
  have hclean : ∀ k origin rest, n.rehosting = (k, origin) :: rest → n.Clean k :=
    fun k origin rest hre => h.clean k (.inl (List.mem_append_right _
      (by rw [hre]; exact List.mem_cons_self)))
  simp only [TopicHost.reattach] at hy
  split at hy
  · cases hy
  · rename_i k rest hre
    obtain ⟨z, hz, rfl⟩ := Option.map_eq_some_iff.mp hy
    obtain ⟨⟨r, hr⟩, -⟩ := operate_stamped hz
    rw [hr]
    exact attachesStamped_of (hok (k, false) (by rw [hre]; rfl)).1 fun f hf =>
      (hclean k false rest hre).origin hf
  · rename_i k rest hre
    obtain ⟨z, hz, rfl⟩ := Option.map_eq_some_iff.mp hy
    obtain ⟨⟨r, hr⟩, -⟩ := operate_stamped hz
    rw [hr]
    exact attachesStamped_of (hok (k, true) (by rw [hre]; rfl)).1 fun f hf =>
      (hclean k true rest hre).replica hf

/-- What a matched node attaches, it attaches from logs that are stamped with it. -/
theorem Matched.attachesStamped {x : Mux.Action φ} (h : n.Matched c) (hok : n.Settled c cmd)
    (hp : n.perform c cmd = some (some x, n')) : AttachesStamped n.world x := by
  cases cmd with
  | merge id => cases hp
  | createTopic now => exact attachesStamped_openTopic hp
  | publish now member regionSize mtu file =>
      obtain ⟨y, hy, he⟩ := Option.map_eq_some_iff.mp hp
      cases he
  | publishAttach member outcomes => exact h.publishAttach_stamped hok hp
  | deregister name removed =>
      simp only [perform] at hp
      split at hp <;> cases hp
  | newReplica name file =>
      simp only [perform] at hp
      split at hp <;> cases hp
  | discardReplica name => cases hp
  | grow file growth =>
      simp only [perform] at hp
      split at hp
      · cases hp
        trivial
      · cases hp
  | scan => cases hp
  | attach outcomes => exact h.attach_stamped hok hp
  | detach k outcomes =>
      simp only [perform] at hp
      split at hp
      · obtain ⟨y, hy, he⟩ := Option.map_eq_some_iff.mp hp
        cases he
        obtain ⟨⟨r, hr⟩, -⟩ := operate_stamped hy
        rw [hr]
        trivial
      · cases hp
  | poll outcomes =>
      obtain ⟨y, hy, he⟩ := Option.map_eq_some_iff.mp hp
      cases he
      obtain ⟨⟨r, hr⟩, -⟩ := operate_stamped hy
      rw [hr]
      trivial
  | restart =>
      simp only [perform] at hp
      split at hp
      · cases hp
      · rename_i hk
        cases hp
        obtain rfl : x = .kill := World.perform_kill_fst hk
        trivial
  | rehost now =>
      simp only [perform] at hp
      split at hp
      · split at hp
        · exact attachesStamped_openTopic hp
        · cases hp
      · cases hp
  | reattach now mtu outcomes => exact h.reattach_stamped hok hp

/-! ## Whole runs -/

/-- One step that meets the condition. -/
def SettledStep (c : Config) (n n' : TopicHost φ) : Prop :=
  ∃ cmd, n.Settled c cmd ∧ ∃ a, n.perform c cmd = some (a, n')

/-- **Run lemma**. -/
theorem matched_of_reachable (h : Run.Reachable (Init : TopicHost φ → Prop) (SettledStep c) n) :
    n.Matched c ∧ IsStamped c.setup n.world := by
  induction h with
  | start hn =>
      obtain ⟨hreg, -, hpending, hpub, hre, hworld⟩ := hn
      exact ⟨matched_of_new hreg hpending hre hpub, IsStamped.init hworld⟩
  | next _ hstep ih =>
      obtain ⟨hn, hst⟩ := ih
      obtain ⟨cmd, hok, a, hp⟩ := hstep
      refine ⟨hn.step hok hp, ?_⟩
      rcases Step.moves ⟨cmd, hp⟩ with ⟨-, hw⟩ | ⟨x, rfl, hx⟩
      · rwa [hw]
      · exact hst.step hx (hn.attachesStamped hok hp)

/-- **No member is fed by a log of another incarnation**, in every run whose
commands meet the condition: entries arrive, are tombstoned and reclaimed,
replicas are created, left behind, discarded and rebuilt, and passes,
publications and restarts come at any time. Every data record that the topic
attributes to a member is a record, at that index, of a log of the member's name
and incarnation. -/
theorem members_from_own_logs
    (h : Run.Reachable (Init : TopicHost φ → Prop) (SettledStep c) n)
    {k : Incarnation} {i : ℕ} {r : Record} (hr : .data i r ∈ n.world.view.trace k) :
    ∃ f, (n.world.files f).name = k.1 ∧ (n.world.files f).generation = k.2 ∧
      (n.world.files f).get? i = some r := by
  obtain ⟨f, ⟨hname, hgen⟩, hget⟩ := (matched_of_reachable h).2.data hr
  exact ⟨f, hname, hgen, hget⟩

/-- The member is retired, and its replica is discarded before another node reclaims it. -/
theorem members_from_own_logs_rebuilt :
    ∃ n : TopicHost Bool, .data 0 ⟨1, 0, []⟩ ∈ n.world.view.trace ("m", 0) ∧
      .data 0 ⟨1, 1, []⟩ ∈ n.world.view.trace ("m", 1) ∧
      ∃ f, (n.world.files f).name = "m" ∧ (n.world.files f).generation = 1 ∧
        (n.world.files f).get? 0 = some ⟨1, 1, []⟩ := by
  obtain ⟨n, hreach, hr, hr'⟩ := Run.exists_reachable_partial Init (SettledStep reclaimConfig)
    (fun n cmd => (n.perform reclaimConfig cmd).map Prod.snd) (Settled reclaimConfig)
    (fun n cmd n' hok hp => by
      obtain ⟨⟨a, n₁⟩, hp', rfl⟩ := Option.map_eq_some_iff.mp hp
      exact ⟨cmd, hok, a, hp'⟩)
    (reclaimStart reclaimedLogs)
    [.createTopic 10, .merge (memberIdentity 2 0 false), .newReplica "m" false,
      .grow false (.append ⟨1, 0, []⟩), .scan, .attach [], .poll [],
      .merge (memberIdentity 2 0 true), .scan, .detach ("m", 0) [], .discardReplica "m",
      .merge (memberIdentity 3 1 false), .newReplica "m" true,
      .grow true (.append ⟨1, 1, []⟩), .scan, .attach [], .poll []]
    (fun n => .data 0 ⟨1, 0, []⟩ ∈ n.world.view.trace ("m", 0) ∧
      .data 0 ⟨1, 1, []⟩ ∈ n.world.view.trace ("m", 1))
    (init_reclaimStart bounded_reclaimedLogs) (by decide +kernel)
  exact ⟨n, hr, hr', members_from_own_logs hreach hr'⟩

/-- **A member is fed by the log of another incarnation.** The replica of `m`
at incarnation 0 is still on disk when the node learns that `m` was reclaimed
at epoch 1. The pass finds a file at the replica path and attaches it as
`("m", 1)`. -/
theorem fed_by_stale_replica :
    ∃ n : TopicHost Unit,
      Run.Reachable Init (fun n n' => ∃ a, Step reclaimConfig n a n') n ∧
      .data 0 ⟨1, 0, []⟩ ∈ n.world.view.trace ("m", 1) ∧
      ∀ f, (n.world.files f).generation ≠ 1 := by
  obtain ⟨n, hreach, hr, hgen⟩ := Run.exists_reachable Init
    (fun n n' => ∃ a, Step reclaimConfig n a n') (perform reclaimConfig) (fun _ _ _ => True)
    (fun n cmd a n' h _ => ⟨a, cmd, h⟩)
    (reclaimStart staleLog)
    [.createTopic 10, .merge (memberIdentity 2 0 false), .newReplica "m" (),
      .grow () (.append ⟨1, 0, []⟩), .merge (memberIdentity 2 0 true),
      .merge (memberIdentity 3 1 false), .scan, .attach [], .poll []]
    (fun n => .data 0 ⟨1, 0, []⟩ ∈ n.world.view.trace ("m", 1) ∧
      (n.world.files ()).generation ≠ 1)
    (init_reclaimStart bounded_staleLog) (by decide +kernel)
  exact ⟨n, hreach, hr, fun _ => hgen⟩

end TopicHost

end XchannelNet
