import XchannelNet.Node.Passes

/-!
# Publishing — a member that was published stays attached

`publish_to_topic` claims the member's name with the topic in the identity, and
succeeds when the name is this node's, whichever identity won: if the node had
registered the name before, that entry stands, and it may name no topic or
another one. The member is attached all the same. The next pass judges it by
the entry. So a published member stays unless the node had registered its name
before, for something else.
-/

namespace XchannelNet

open Mux

namespace TopicHost

open Fallible

variable {φ : Type} [DecidableEq φ] {c : Config} {member : ChannelName}
  {n n' n₁ n₂ n₃ n₄ : TopicHost φ}

/-- What may happen to a node while nobody gives up the member: passes, step by
step and with any outcome, polls, and identities of other names. -/
inductive Later (c : Config) (member : ChannelName) : TopicHost φ → TopicHost φ → Prop
  | quiet {n n' : TopicHost φ} (h : Quiet c n n') : Later c member n n'
  | scan (n : TopicHost φ) :
      Later c member n { n with live := n.sample c, pending := n.sample c }
  | detach {n n' : TopicHost φ} {a : Option (Mux.Action φ)} (k : Incarnation)
      (outcomes : List WriteOutcome) (h : n.perform c (.detach k outcomes) = some (a, n'))
      (hup : n'.up = true) : Later c member n n'
  | merge (n : TopicHost φ) (id : ChannelIdentity) (h : id.name ≠ member) :
      Later c member n { n with registry := (n.registry.mergeTracked id).1 }

/-- A whole pass is made of such steps. -/
theorem later_of_passes (h : Passes c n n') : Relation.ReflTransGen (Later c member) n n' := by
  obtain ⟨n₁, hquiet, -, hdetach⟩ := h
  have hfirst : Relation.ReflTransGen (Later c member) n n₁ :=
    .head (.scan n) (Relation.ReflTransGen.mono (fun _ _ => .quiet) _ _ hquiet)
  refine hfirst.trans ?_
  clear hquiet hfirst
  generalize n₁.attached = ks at hdetach
  induction hdetach with
  | done => exact .refl
  | stays _ _ ih => exact ih
  | leaves outcomes h hok _ ih => exact .head (.detach _ outcomes h (up_of_detach h hok)) ih
  | meanwhile h _ ih => exact .head (.quiet h) ih

/-- The entry of a name is not touched. -/
theorem Later.getRaw (h : Later c member n n') :
    n'.registry.getRaw member = n.registry.getRaw member := by
  cases h with
  | quiet h => rw [h.effect.registry]
  | scan => rfl
  | detach k outcomes h hup => rw [(detach_effect h hup).2.2.1]
  | merge id hne => rw [Registry.getRaw_mergeTracked, if_neg hne]

theorem getRaw_later (h : Relation.ReflTransGen (Later c member) n n') :
    n'.registry.getRaw member = n.registry.getRaw member := by
  induction h with
  | refl => rfl
  | tail _ hlast ih => exact hlast.getRaw.trans ih

/-- The member's entry is live and names the topic, and its slot is there. -/
structure Enrolled (c : Config) (member : ChannelName) (id : ChannelIdentity) (n : TopicHost φ) :
    Prop where
  entry : n.registry.getRaw member = some id
  live : id.deleted = false
  topic : id.memberOf = some c.setup.name
  attached : (member, id.epoch) ∈ n.attached

omit [DecidableEq φ] in
theorem Enrolled.not_departed {id : ChannelIdentity} (h : Enrolled c member id n) :
    n.departed c (member, id.epoch) = false := by
  simp [departed, h.entry, h.live, h.topic]

theorem Enrolled.step {id : ChannelIdentity} (h : Enrolled c member id n)
    (hl : Later c member n n') : Enrolled c member id n' := by
  refine ⟨hl.getRaw.trans h.entry, h.live, h.topic, ?_⟩
  cases hl with
  | quiet hq =>
      rcases hq.effect.attached with hsame | ⟨m, -, hadd⟩
      · rw [hsame]
        exact h.attached
      · rw [hadd]
        exact List.mem_append_left _ h.attached
  | scan => exact h.attached
  | detach k outcomes hd hup =>
      obtain ⟨hdep, -, -, -, -, hsame | herase, -⟩ := detach_effect hd hup
      · rw [hsame]
        exact h.attached
      · -- it is not this one that departed
        have hne : (member, id.epoch) ≠ k := by
          rintro rfl
          rw [h.not_departed] at hdep
          cases hdep
        rw [herase]
        exact (List.mem_erase_of_ne hne).mpr h.attached
  | merge id' hne => exact h.attached

theorem Enrolled.later {id : ChannelIdentity} (h : Enrolled c member id n)
    (hl : Relation.ReflTransGen (Later c member) n n') : Enrolled c member id n' := by
  induction hl with
  | refl => exact h
  | tail _ hlast ih => exact ih.step hlast

/-! ## The call -/

omit [DecidableEq φ] in
/-- Where `publish` goes through, the node holds the name. -/
theorem holds_of_publish {now : UInt64} {regionSize mtu : UInt32} {file : φ}
    (h : n.publish c now member regionSize mtu file = some n')
    (hok : n'.publishing = member :: n.publishing) :
    ∃ e, n'.registry.Holds c.nodeId member e := by
  have hlen := congrArg List.length hok
  simp only [publish] at h
  split at h
  · cases h
    simp at hlen
  · rename_i registry identity hclaim
    have hheld := Registry.holds_claimName_of_ok (congrArg Prod.snd hclaim)
    rw [hclaim] at hheld
    split at h
    · split at h <;> cases h
      · exact ⟨_, hheld⟩
      · simp at hlen
    · split at h
      · cases h
        exact ⟨_, hheld⟩
      · cases h

/-- The attach that follows, at the epoch of the entry. -/
theorem attached_of_publishAttach {outcomes : List WriteOutcome} {a : Mux.Action φ}
    {id : ChannelIdentity} (hraw : n.registry.getRaw member = some id)
    (h : n.perform c (.publishAttach member outcomes) = some (some a, n'))
    (hok : succeeded a = true) :
    n'.registry = n.registry ∧ (member, id.epoch) ∈ n'.attached := by
  simp only [perform] at h
  split at h
  · obtain ⟨⟨x, n''⟩, hop, he⟩ := Option.map_eq_some_iff.mp h
    cases he
    refine ⟨(operate_frame hop).1, ?_⟩
    obtain ⟨m, opened, hs, ha, rfl⟩ := operate_running hop (up_of_succeeded hop hok)
    rw [hraw] at ha ⊢
    rw [ha] at hok
    rcases hr : exec ((Op.addMember member id.epoch (n.origins member)).run n.world.files)
      (m.within outcomes) with ⟨e | u, m'⟩
    · simp only [Option.map_some, Option.getD_some, hr] at hok
      cases hok
    · have hmem := mem_attached_of_addMember n.world.files hr
      simp only [Option.map_some, Option.getD_some, hr]
      exact hmem
  · cases h

/-- What this node has registered under the member's name already, it has registered for
the topic. An entry stamped later than the claim does not count: the claim replaces it. -/
def NotTakenOtherwise (c : Config) (member : ChannelName) (now : UInt64) (n : TopicHost φ) : Prop :=
  ∀ cur, n.registry.get member = some cur → cur.owner = c.nodeId → cur.registeredAtNanos ≤ now →
    cur.memberOf = some c.setup.name

omit [DecidableEq φ] in
theorem publish_registry {now : UInt64} {regionSize mtu : UInt32} {file : φ}
    (h : n.publish c now member regionSize mtu file = some n') :
    n'.registry =
      (n.registry.claimName c.nodeId now ⟨member, regionSize, mtu, some c.setup.name⟩).1 := by
  simp only [publish] at h
  split at h
  · rename_i hclaim
    cases h
    rw [hclaim]
  · rename_i hclaim
    rw [hclaim]
    split at h
    · split at h <;> cases h <;> rfl
    · split at h
      · cases h
        rfl
      · cases h

omit [DecidableEq φ] in
/-- Which is to say that the entry the claim leaves names the topic. -/
theorem memberOf_iff_of_publish {now : UInt64} {regionSize mtu : UInt32} {file : φ}
    {id : ChannelIdentity} (h : n.publish c now member regionSize mtu file = some n')
    (hid : n'.registry.get member = some id) (hown : id.owner = c.nodeId) :
    id.memberOf = some c.setup.name ↔ NotTakenOtherwise c member now n := by
  let q : ClaimRequest := ⟨member, regionSize, mtu, some c.setup.name⟩
  obtain ⟨hraw, hlive⟩ := Registry.get_eq_some.mp hid
  rw [publish_registry h, Registry.getRaw_claimName n.registry c.nodeId now q,
    Option.some.injEq] at hraw
  unfold NotTakenOtherwise
  cases hcur : n.registry.get member with
  | none =>
      -- nothing live was there, so the claim won
      refine iff_of_true ?_ fun cur hcur' => by cases hcur'
      rcases Registry.winnerOver_choice n.registry (n.registry.claimIdentity c.nodeId now q)
        with hw | hw
      · rw [← hraw, hw]
        rfl
      · rw [hraw] at hw
        have hsome : n.registry.get member = some id := Registry.get_eq_some.mpr ⟨hw, hlive⟩
        rw [hcur] at hsome
        cases hsome
  | some cur =>
      have hkey := @Registry.lt_key_claimIdentity_iff n.registry c.nodeId now q cur hcur
      rw [Registry.winnerOver_claimIdentity (q := q) hcur] at hraw
      split at hraw
      · -- the entry gave way
        rename_i hlt
        subst hraw
        refine iff_of_true rfl fun cur' hcur' howner hstamp => ?_
        cases hcur'
        rcases hkey.mp hlt with hlater | ⟨-, hlower⟩
        · exact absurd hstamp (UInt64.not_le.mpr hlater)
        · rw [howner] at hlower
          exact absurd hlower (UInt64.lt_irrefl _)
      · rename_i hnot
        subst hraw
        have hstamp := UInt64.not_lt.mp (not_or.mp (mt hkey.mpr hnot)).1
        exact ⟨fun htopic cur' hcur' _ _ => by cases hcur'; exact htopic,
          fun hall => hall cur rfl hown hstamp⟩

omit [DecidableEq φ] in
/-- A slot whose name has a live entry of something else is taken for departed by the
next pass. -/
theorem departed_of_scan {id : ChannelIdentity} (hid : n.registry.get member = some id)
    (hother : id.memberOf ≠ some c.setup.name) :
    departed c { n with live := n.sample c, pending := n.sample c } (member, id.epoch) = true := by
  rw [← Bool.not_eq_false, departed_eq_false_iff]
  rintro (⟨m, hm, hk⟩ | hraw | ⟨id', hid', hof⟩)
  · obtain ⟨hget, hof⟩ := mem_sample hm
    rw [(Prod.mk.inj hk).1, hid] at hget
    cases hget
    exact hother hof
  · rw [(Registry.get_eq_some.mp hid).1] at hraw
    cases hraw
  · rw [hid] at hid'
    cases hid'
    exact hother hof

/-- **A published member stays attached if and only if** the node had not registered its
name for something else. The node may be in any state; other threads may come between
the claim and the attach; passes, polls and merges of other names follow. Then and only
then the member's slot is always there, with no pass about to drain and close it. And
otherwise the next pass whose removals succeed does so. -/
theorem published_stays {now : UInt64} {regionSize mtu : UInt32} {file : φ}
    {outcomes : List WriteOutcome} {a : Mux.Action φ}
    (hclaim : n.publish c now member regionSize mtu file = some n₁)
    (hcreated : n₁.publishing = member :: n.publishing)
    (hbetween : Relation.ReflTransGen (Later c member) n₁ n₂)
    (hattach : n₂.perform c (.publishAttach member outcomes) = some (some a, n₃))
    (hok : succeeded a = true) :
    ∃ id, n₁.registry.get member = some id ∧
      ((∀ n₄, Relation.ReflTransGen (Later c member) n₃ n₄ →
          (member, id.epoch) ∈ n₄.attached ∧ n₄.departed c (member, id.epoch) = false) ↔
        NotTakenOtherwise c member now n) ∧
      (¬ NotTakenOtherwise c member now n →
        ∀ n₄, Passes c n₃ n₄ → (member, id.epoch) ∉ n₄.attached) := by
  obtain ⟨e, id, hid, hown, -⟩ := holds_of_publish hclaim hcreated
  have hof := memberOf_iff_of_publish hclaim hid hown
  obtain ⟨hraw, hlive⟩ := Registry.get_eq_some.mp hid
  have hraw₂ := (getRaw_later hbetween).trans hraw
  obtain ⟨hreg, hmem⟩ := attached_of_publishAttach hraw₂ hattach hok
  have hid₃ : n₃.registry.get member = some id :=
    Registry.get_eq_some.mpr ⟨by rw [hreg, hraw₂], hlive⟩
  refine ⟨id, hid, ⟨fun hstays => ?_, fun hnot n₄ hlater => ?_⟩, fun hnot n₄ hpass hk => ?_⟩
  · -- after a scan, the entry is what the slot is judged by
    by_contra hnot
    have hscan := (hstays _ (.single (.scan n₃))).2
    rw [departed_of_scan hid₃ (mt hof.mp hnot)] at hscan
    cases hscan
  · have hkept : Enrolled c member id n₃ :=
      ⟨(Registry.get_eq_some.mp hid₃).1, hlive, hof.mpr hnot, hmem⟩
    exact ⟨(hkept.later hlater).attached, (hkept.later hlater).not_departed⟩
  · obtain ⟨n', hfirst, -, hmem'⟩ := hpass.mem_attached_iff
    have hdep := departed_of_scan hid₃ (mt hof.mp hnot)
    rw [← departed_congr hfirst.registry hfirst.live, ((hmem' _).mp hk).2] at hdep
    cases hdep

/-! ## With and without an entry of the node's own -/

/-- A node with this registry and the log of `m` at its origin path creates the
topic, and publishes `m` to it. Before the claim, after it, after the attach. -/
structure Publication (registry : Registry) (n n₁ n₃ : TopicHost Unit) : Prop where
  created : ∃ a, ({ reclaimStart staleLog with
      registry, origins := fun name => if name = "m" then some () else none } :
    TopicHost Unit).perform reclaimConfig (.createTopic 10) = some (a, n)
  claimed : n.publish reclaimConfig 20 "m" 4096 0 () = some n₁
  publishing : n₁.publishing = "m" :: n.publishing
  attached : ∃ a, n₁.perform reclaimConfig (.publishAttach "m" []) = some (some a, n₃) ∧
    succeeded a = true

/-- The same, computed. -/
def publication (registry : Registry)
    (P : TopicHost Unit → TopicHost Unit → TopicHost Unit → Bool) : Bool :=
  (({ reclaimStart staleLog with
      registry, origins := fun name => if name = "m" then some () else none } :
    TopicHost Unit).perform reclaimConfig (.createTopic 10)).any fun x =>
      (x.2.publish reclaimConfig 20 "m" 4096 0 ()).any fun n₁ =>
        n₁.publishing = "m" :: x.2.publishing &&
          (n₁.perform reclaimConfig (.publishAttach "m" [])).any fun y =>
            y.1.any succeeded && P x.2 n₁ y.2

theorem exists_publication (registry : Registry)
    (P : TopicHost Unit → TopicHost Unit → TopicHost Unit → Bool)
    (h : publication registry P = true) :
    ∃ n n₁ n₃, Publication registry n n₁ n₃ ∧ P n n₁ n₃ = true := by
  obtain ⟨x, hx, h⟩ := (Option.any_eq_true _ _).mp h
  obtain ⟨n₁, hn₁, h⟩ := (Option.any_eq_true _ _).mp h
  rw [Bool.and_eq_true, decide_eq_true_eq] at h
  obtain ⟨y, hy, hP⟩ := (Option.any_eq_true _ _).mp h.2
  rw [Bool.and_eq_true] at hP
  obtain ⟨a, ha, hok⟩ := (Option.any_eq_true _ _).mp hP.1
  exact ⟨x.2, n₁, y.2, ⟨⟨x.1, hx⟩, hn₁, h.1, a, by rw [hy, ← ha], hok⟩, hP.2⟩

/-- Of a name that was not registered, the member survives a pass. -/
theorem published_stays_new :
    ∃ n n₁ n₃ n₄ : TopicHost Unit, Publication .new n n₁ n₃ ∧ Passes reclaimConfig n₃ n₄ ∧
      ∃ id, n₁.registry.get "m" = some id ∧ ("m", id.epoch) ∈ n₄.attached := by
  obtain ⟨n, n₁, n₃, hpub, hpass⟩ := exists_publication .new
    (fun n _ n₃ => decide (n.registry.get "m" = none) &&
      (n₃.attachPendingMembers reclaimConfig).isSome) (by decide +kernel)
  rw [Bool.and_eq_true, decide_eq_true_eq, Option.isSome_iff_exists] at hpass
  obtain ⟨hnone, n₄, hn₄⟩ := hpass
  have hp := passes_of_attachPendingMembers hn₄
  obtain ⟨a, hattach, hok⟩ := hpub.attached
  have hfree : NotTakenOtherwise reclaimConfig "m" 20 n := by
    intro cur hcur
    rw [hnone] at hcur
    cases hcur
  obtain ⟨id, hid, hstays, -⟩ :=
    published_stays hpub.claimed hpub.publishing .refl hattach hok
  exact ⟨n, n₁, n₃, n₄, hpub, hp, id, hid, (hstays.mpr hfree n₄ (later_of_passes hp)).1⟩

/-- The node's own registration of `m`, as a channel of no topic. -/
def ownChannel : Registry := (Registry.new.claimName 1 5 ⟨"m", 4096, 0, none⟩).1

/-- **A published member is retired by the next pass.** The node had registered
`m` as a plain channel; `publish_to_topic` succeeds and attaches it. -/
theorem published_is_retired :
    ∃ n n₁ n₃ n₄ : TopicHost Unit, Publication ownChannel n n₁ n₃ ∧
      n₃.attached = [("m", 0)] ∧ Passes reclaimConfig n₃ n₄ ∧ n₄.attached = [] := by
  obtain ⟨n, n₁, n₃, hpub, hpass⟩ := exists_publication ownChannel
    (fun _ _ n₃ => decide (n₃.attached = [("m", 0)]) &&
      (n₃.attachPendingMembers reclaimConfig).any fun n₄ => n₄.attached = []) (by decide +kernel)
  rw [Bool.and_eq_true, decide_eq_true_eq] at hpass
  obtain ⟨n₄, hn₄, hnil⟩ := (Option.any_eq_true _ _).mp hpass.2
  exact ⟨n, n₁, n₃, n₄, hpub, hpass.1, passes_of_attachPendingMembers hn₄, of_decide_eq_true hnil⟩

end TopicHost

end XchannelNet
