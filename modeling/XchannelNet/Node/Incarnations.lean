import XchannelNet.Lib.Run
import XchannelNet.Node.Hosting

/-!
# Incarnations — the epoch in the registry and the generation on disk

Which incarnation of a channel a node serves is recorded twice: as the epoch of
its registry entry and as the generation its log was stamped with. The claim
sets the one, the creation of the log the other. A restart keeps the second and
starts the first again at zero.
-/

namespace XchannelNet.Node

open Wire

variable {c : Config} {n n' : Node}

/-- Each hosted channel that the node holds is served from a log of the
incarnation that its entry says. -/
def ServesEntry (c : Config) (n : Node) : Prop :=
  ∀ name e, n.hosted name = true → n.registry.Holds c.nodeId name e →
    ∃ l, n.disk name = some l ∧ l.generation = e

/-- A name is claimed only while there is no log at its path, or one of the
epoch that the claim is going to be at. A process starts only on logs that are
all of incarnation zero. Nothing is merged: the commands are the node's own. -/
def Unreclaimed (n : Node) : Command → Prop
  | .create name _ | .publishToTopic _ name _ | .createTopic name _ =>
    ∀ l, n.disk name = some l → l.generation = n.registry.claimEpoch name
  | .restart _ => ∀ name l, n.disk name = some l → l.generation = 0
  | .merge _ => False
  | _ => True

/-! ## One operation -/

theorem ServesEntry.congr (h : ServesEntry c n) (hreg : n'.registry = n.registry)
    (hhosted : n'.hosted = n.hosted) (hdisk : n'.disk = n.disk) : ServesEntry c n' := by
  intro name e hh hheld
  rw [hhosted] at hh
  rw [hreg] at hheld
  rw [hdisk]
  exact h name e hh hheld

/-- A claim matters for its own name only, and there for the epoch claimed. -/
theorem ServesEntry.claim {q : ClaimRequest} (h : ServesEntry c n)
    (hreg : n'.registry = (n.claim c q).1.registry)
    (hhosted : ∀ name, name ≠ q.name → n'.hosted name = n.hosted name)
    (hdisk : ∀ name, name ≠ q.name → n'.disk name = n.disk name)
    (hown : ∀ id, (n.claim c q).2 = .ok id →
      ∃ l, n'.disk q.name = some l ∧ l.generation = n.registry.claimEpoch q.name) :
    ServesEntry c n' := by
  intro name e hh hheld
  rw [hreg, claim_registry] at hheld
  by_cases hn : name = q.name
  · subst hn
    have he := Registry.epoch_of_holds_claimName hheld
    rw [he]
    exact hown _ (Registry.claimName_ok_of_holds hheld)
  · rw [hhosted name hn] at hh
    rw [Registry.holds_congr (Registry.getRaw_claimName_of_ne hn)] at hheld
    rw [hdisk name hn]
    exact h name e hh hheld

theorem ServesEntry.createOrigin {name : ChannelName} (h : ServesEntry c n)
    (options : ChannelOptions) (memberOf : Option ChannelName)
    (hgen : ∀ l, n.disk name = some l → l.generation = n.registry.claimEpoch name) :
    ServesEntry c (n.createOrigin c name options memberOf).1 := by
  set q : ClaimRequest := ⟨name, options.regionSize, options.mtu, memberOf⟩ with hq
  rcases createOrigin_cases (c := c) n name options memberOf with
    he | ⟨e, hclaim, he⟩ | ⟨l, hl, he⟩ | ⟨id, log, hclaim, hbuild, he⟩
  · rw [he]
    exact h
  · rw [he]
    refine h.claim (q := q) rfl (fun _ _ => rfl) (fun _ _ => rfl) ?_
    intro id hid
    rw [hclaim] at hid
    cases hid
  · rw [he]
    refine h.claim (q := q) rfl (fun _ _ => rfl) (fun _ _ => rfl) ?_
    intro id _
    exact ⟨l, hl, hgen l hl⟩
  · rw [he]
    refine h.claim (q := q) rfl (fun _ hn => Function.update_of_ne hn _ _)
      (fun _ hn => Function.update_of_ne hn _ _) ?_
    intro id' _
    refine ⟨log, Function.update_self _ _ _, ?_⟩
    -- a new log takes the epoch claimed, one that is there has it
    cases hd : n.disk name with
    | none =>
        rw [hd, Log.build_none] at hbuild
        cases hbuild
        rw [Registry.claimName_ok hclaim]
        rfl
    | some l =>
        rw [hd] at hbuild
        rw [Log.build_some hbuild]
        exact hgen l hd

theorem ServesEntry.openMux (h : ServesEntry c n) (name : ChannelName)
    (geometry : Mux.TopicGeometry) (batch : ℕ) :
    ServesEntry c (n.openMux c name geometry batch).1 := by
  rcases openMux_cases (c := c) n name geometry batch with he | he
  · rw [he]
    exact h
  · rw [he]
    exact h.congr rfl rfl rfl

theorem ServesEntry.removeDir {name : ChannelName} (h : ServesEntry c n) (removed : Bool)
    (hgone : ∀ e, ¬ n.registry.Holds c.nodeId name e) :
    ServesEntry c (n.removeDir name removed) := by
  intro other e hh hheld
  rw [removeDir_registry] at hheld
  rw [removeDir_hosted] at hh
  have hne : other ≠ name := by
    rintro rfl
    exact hgone e hheld
  rw [removeDir_disk_of_ne removed hne]
  exact h other e hh hheld

/-- What is hosted after a deregistration was hosted and held before it. -/
theorem ServesEntry.deregistered {name : ChannelName} {t : ChannelIdentity}
    (h : ServesEntry c n) (ht : (n.registry.deregister name c.nodeId).2 = some t)
    (hreg : n'.registry = (n.registry.deregister name c.nodeId).1)
    (hhosted : n'.hosted = Function.update n.hosted name false)
    (hdisk : n'.disk = n.disk) (removed : Bool) : ServesEntry c (n'.removeDir name removed) := by
  apply ServesEntry.removeDir
  · intro other e hh hheld
    rw [hreg, Registry.holds_deregister ht] at hheld
    rw [hhosted, Function.update_of_ne hheld.1] at hh
    rw [hdisk]
    exact h other e hh hheld.2
  · intro e hheld
    rw [hreg, Registry.holds_deregister ht] at hheld
    exact hheld.1 rfl

theorem ServesEntry.deregister (h : ServesEntry c n) (name : ChannelName) (removed : Bool) :
    ServesEntry c (n.deregister c name removed) := by
  rcases deregister_cases (c := c) n name removed with he | ⟨t, ht, he⟩
  · rw [he]
    exact h
  · rw [he]
    apply h.deregistered ht <;> rfl

theorem ServesEntry.dropTopic (h : ServesEntry c n) (mux : ℕ) (topic : ChannelName)
    (removed : Bool) : ServesEntry c (n.dropTopic c mux topic removed) := by
  rcases dropTopic_cases (c := c) n mux topic removed with ⟨ht, he⟩ | ⟨t, ht, he⟩
  · rw [he]
    -- there was nothing to deregister because the node does not hold the name
    apply ServesEntry.removeDir
    · exact h.congr rfl rfl rfl
    · exact fun e hheld => Registry.not_holds_of_deregister ht hheld
  · rw [he]
    apply h.deregistered ht <;> rfl

theorem ServesEntry.write (h : ServesEntry c n) (name : ChannelName)
    (growth : TopicHost.Growth) : ServesEntry c (n.perform c (.write name growth)) := by
  intro other e hh hheld
  obtain ⟨l, hl, hgen⟩ := h other e hh hheld
  by_cases hn : other = name
  · subst hn
    refine ⟨growth.apply l, ?_, ?_⟩
    · simp [perform, hl]
    · rw [(growth.grows l).generation, hgen]
  · refine ⟨l, ?_, hgen⟩
    simpa [perform, Function.update_of_ne hn] using hl

/-! ## A restart -/

/-- A node whose logs and entries are all of incarnation zero. -/
structure AllZero (n : Node) : Prop where
  logs : ∀ name l, n.disk name = some l → l.generation = 0
  entries : ∀ name id, n.registry.getRaw name = some id → id.deleted = false ∧ id.epoch = 0

theorem AllZero.claimEpoch (h : AllZero n) (name : ChannelName) :
    n.registry.claimEpoch name = 0 := by
  simp only [Registry.claimEpoch]
  split
  · rename_i id hid
    simp [h.entries name id hid]
  · rfl

theorem AllZero.claim (h : AllZero n) (q : ClaimRequest) : AllZero (n.claim c q).1 := by
  refine ⟨h.logs, fun name id hid => ?_⟩
  rw [claim_registry] at hid
  by_cases hn : name = q.name
  · subst hn
    rw [Registry.getRaw_claimName, Option.some.injEq] at hid
    rcases Registry.winnerOver_choice n.registry
        (n.registry.claimIdentity c.nodeId (c.nowNanos n.reads) q) with hw | hw
    · rw [← hid, hw]
      exact ⟨rfl, h.claimEpoch q.name⟩
    · rw [hid] at hw
      exact h.entries _ id hw
  · rw [Registry.getRaw_claimName_of_ne hn] at hid
    exact h.entries name id hid

theorem AllZero.reclaim (h : AllZero n) (q : ClaimRequest) : AllZero (n.reclaim c q).1 := by
  rcases reclaim_cases (c := c) n q with ⟨e, -, he⟩ | ⟨id, -, he⟩
  · rw [he]
    exact h.claim q
  · rw [he]
    have hclaim : AllZero (n.claim c q).1 := h.claim q
    exact ⟨hclaim.logs, hclaim.entries⟩

theorem ServesEntry.reclaim {q : ClaimRequest} {l : Log} (h : ServesEntry c n) (hz : AllZero n)
    (hl : n.verifyStampedName q.name = some l) : ServesEntry c (n.reclaim c q).1 := by
  have hdisk : n.disk q.name = some l := (Option.filter_eq_some_iff.mp hl).1
  have hown : l.generation = n.registry.claimEpoch q.name := by
    rw [hz.logs q.name l hdisk, hz.claimEpoch]
  rcases reclaim_cases (c := c) n q with ⟨e, -, he⟩ | ⟨id, -, he⟩
  · rw [he]
    exact h.claim (q := q) rfl (fun _ _ => rfl) (fun _ _ => rfl) fun _ _ => ⟨l, hdisk, hown⟩
  · rw [he]
    exact h.claim (q := q) rfl (fun _ hn => Function.update_of_ne hn _ _) (fun _ _ => rfl)
      fun _ _ => ⟨l, hdisk, hown⟩

theorem servesEntry_boot (c : Config) (n : Node) : ServesEntry c n.boot := by
  intro name e hh _
  cases hh

theorem servesEntry_restart (found : List ChannelName)
    (hz : ∀ name l, n.disk name = some l → l.generation = 0) :
    ServesEntry c (n.boot.reconstructFromDisk c found) := by
  have hboot : AllZero n.boot :=
    ⟨hz, fun name id hid => by
      rw [boot, Registry.getRaw_new] at hid
      cases hid⟩
  have hboth : ServesEntry c (n.boot.reconstructFromDisk c found) ∧
      AllZero (n.boot.reconstructFromDisk c found) := by
    refine reconstructFromDisk_induction (I := fun n => ServesEntry c n ∧ AllZero n) ?_ ?_
      ⟨servesEntry_boot c n, hboot⟩ found
    · rintro n q l ⟨hs, hz⟩ hl
      exact ⟨hs.reclaim hz hl, hz.reclaim q⟩
    · rintro n name geometry batch ⟨hs, hz⟩ - -
      refine ⟨hs.openMux name geometry batch, ?_⟩
      rcases openMux_cases (c := c) n name geometry batch with he | he
      · rw [he]
        exact hz
      · rw [he]
        exact ⟨hz.logs, hz.entries⟩
  exact hboth.1

/-! ## Whole runs -/

theorem ServesEntry.step (h : ServesEntry c n) (hstep : Step c Unreclaimed n n') :
    ServesEntry c n' := by
  obtain ⟨cmd, hok, rfl⟩ := hstep
  cases cmd with
  | create name options => exact h.createOrigin options none hok
  | publishToTopic topic member options => exact h.createOrigin options (some topic) hok
  | createTopic name options =>
      have hcreate := h.createOrigin options.channel none hok
      change ServesEntry c (n.createTopic c name options)
      rcases createTopic_cases (c := c) n name options with he | ⟨-, he⟩
      · rw [he]
        exact hcreate
      · rw [he]
        exact hcreate.congr rfl rfl rfl
  | insertMux mux name =>
      simp only [perform]
      split
      · exact h.congr rfl rfl rfl
      · exact h
  | deregister name removed => exact h.deregister name removed
  | deregisterTopic topic =>
      simp only [perform, Node.deregisterTopic]
      split
      · exact h
      · exact h.congr rfl rfl rfl
  | finishMux mux topic finishes =>
      simp only [perform, finishMux]
      split
      · split <;> exact h.congr rfl rfl rfl
      · exact h
  | dropTopic mux topic removed =>
      simp only [perform]
      split
      · exact h.dropTopic mux topic removed
      · exact h
  | muxOf topic =>
      simp only [perform]
      split
      · exact h
      · exact h.congr rfl rfl rfl
  | dropHandle mux topic => exact h.congr rfl rfl rfl
  | merge id => exact hok.elim
  | write name growth => exact h.write name growth
  | threadExit mux topic =>
      simp only [perform]
      split
      · exact h
      · exact h.congr rfl rfl rfl
  | restart found => exact servesEntry_restart found hok

/-- **Every served log is of the incarnation the registry says**, in every run
in which no name is claimed over a log of another epoch and no process starts
on a log of a reclaimed name. -/
theorem served_log_of_entry_epoch
    (h : Run.Reachable Init (Step c Unreclaimed) n) {name : ChannelName} {id : ChannelIdentity}
    (hhosted : n.hosted name = true) (hlive : n.registry.get name = some id)
    (hown : id.owner = c.nodeId) :
    ∃ l, n.disk name = some l ∧ id.epoch = l.generation := by
  have hserves : ServesEntry c n := by
    refine h.invariant (fun n hn => ?_) fun n n' hn hstep => hn.step hstep
    rw [← hn]
    exact servesEntry_boot c n
  obtain ⟨l, hl, hgen⟩ := hserves name id.epoch hhosted ⟨id, hlive, hown, rfl⟩
  exact ⟨l, hl, hgen.symm⟩

def Command.isRestart : Command → Bool
  | .restart _ => true
  | _ => false

/-- A restart is about every log there is; of any other command it can be decided. -/
instance (n : Node) : DecidablePred fun cmd => Command.isRestart cmd = false ∧ Unreclaimed n cmd
  | .create name _ | .publishToTopic _ name _ | .createTopic name _ =>
    inferInstanceAs (Decidable (false = false ∧
      ∀ l ∈ n.disk name, l.generation = n.registry.claimEpoch name))
  | .merge _ => isFalse And.right
  | .restart _ => isFalse fun h => Bool.noConfusion h.1
  | .insertMux _ _ | .deregister _ _ | .deregisterTopic _ | .finishMux _ _ _ | .dropTopic _ _ _
  | .write _ _ | .threadExit _ _ | .muxOf _ | .dropHandle _ _ => isTrue ⟨rfl, trivial⟩

/-- A name that is created, deregistered and created again is served from a log
of incarnation one, as its entry says. -/
theorem served_log_of_reclaimed_name :
    ∃ n, Run.Reachable Init (Step (plainConfig fun _ => false) Unreclaimed) n ∧
      ∃ id ∈ n.registry.get "c", id.epoch = 1 ∧
        ∃ l, n.disk "c" = some l ∧ id.epoch = l.generation := by
  obtain ⟨n, hn, hhosted, id, hid, hown, he⟩ :=
    Run.exists_reachable_perform Init (Step (plainConfig fun _ => false) Unreclaimed)
      (perform (plainConfig fun _ => false))
      (fun n cmd => cmd.isRestart = false ∧ Unreclaimed n cmd)
      (fun n cmd h => ⟨cmd, h.2, rfl⟩) fresh
      [.create "c" plainOptions, .deregister "c" true, .create "c" plainOptions]
      (fun n => n.hosted "c" = true ∧ ∃ id ∈ n.registry.get "c", id.owner = 1 ∧ id.epoch = 1)
      init_fresh (by decide +kernel)
  exact ⟨n, hn, id, hid, he, served_log_of_entry_epoch hn hhosted hid hown⟩

/-- A command of the node itself or of one of its clients. -/
def Command.isOwn : Command → Bool
  | .merge _ => false
  | _ => true

/-- After a restart that name's entry is of epoch zero, and the log still of
incarnation one. -/
theorem restarted_after_reclaim :
    ∃ n, Run.Reachable Init (Step (plainConfig fun _ => false) fun _ cmd => cmd.isOwn = true) n ∧
      n.hosted "c" = true ∧ ∃ id ∈ n.registry.get "c",
        id.owner = (plainConfig fun _ => false).nodeId ∧
          ∃ l ∈ n.disk "c", id.epoch = 0 ∧ l.generation = 1 :=
  Run.exists_reachable_perform Init _ (perform (plainConfig fun _ => false))
    (fun _ cmd => cmd.isOwn = true) (fun _ cmd h => ⟨cmd, h, rfl⟩) fresh
    [.create "c" plainOptions, .deregister "c" true, .create "c" plainOptions, .restart ["c"]]
    _ init_fresh (by decide +kernel)

end XchannelNet.Node
