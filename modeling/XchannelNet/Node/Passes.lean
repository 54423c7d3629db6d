import XchannelNet.Mux.Attaching
import XchannelNet.Node.Attach

/-!
# Passes — whom the maintenance pass keeps and whom it retires

A pass samples the topic's members from the registry, attaches those it finds
a log for, and then goes through the slots: a slot is retired on a positive
sign that its member has left. What counts as a sign is read from the entry of
the slot's *name*: that it is a tombstone, or names another topic. The epoch of
the entry is not looked at, so a slot is kept whose name has since been
reclaimed for the same topic; and the topic in the entry is, so a member that
was published under a name of this node's is retired again.

A pass is not a single step. Polls, and the growth of logs, come in between.
-/

namespace XchannelNet

open Mux

namespace TopicHost

open Fallible

variable {φ : Type} [DecidableEq φ] {c : Config} {n n' n₁ n₂ n₃ n₄ : TopicHost φ}

/-- The attached incarnations. -/
def attached (n : TopicHost φ) : List Incarnation := n.world.slots.map Slot.member

/-- The process has not been killed. -/
def up (n : TopicHost φ) : Bool :=
  match n.world.session with
  | .running _ _ => true
  | .closed _ => false

/-! ## Steps -/

/-- What neither reads the registry nor writes it. -/
def Command.quiet : Command φ → Bool
  | .attach _ | .poll _ | .grow _ _ | .newReplica _ _ | .discardReplica _ => true
  | _ => false

/-- A step of the first half of a pass, or of the threads beside it. A member
whose path is no path, or has nothing at it yet, is passed over. -/
inductive Quiet (c : Config) : TopicHost φ → TopicHost φ → Prop
  | step {n n' : TopicHost φ} {a : Option (Mux.Action φ)} (cmd : Command φ)
      (hquiet : cmd.quiet = true) (h : n.perform c cmd = some (a, n')) (hup : n'.up = true) :
      Quiet c n n'
  | skip {n : TopicHost φ} {m : ChannelIdentity} {rest : List ChannelIdentity}
      (h : n.pending = m :: rest) : Quiet c n { n with pending := rest }

/-- The second half of a pass, for the slots there were at its beginning. Every
removal succeeds. -/
inductive Detaches (c : Config) : List Incarnation → TopicHost φ → TopicHost φ → Prop
  | done (n : TopicHost φ) : Detaches c [] n n
  | stays {k : Incarnation} {ks : List Incarnation} {n n' : TopicHost φ}
      (h : n.departed c k = false) (rest : Detaches c ks n n') : Detaches c (k :: ks) n n'
  | leaves {k : Incarnation} {ks : List Incarnation} {n n₁ n' : TopicHost φ} {a : Mux.Action φ}
      (outcomes : List WriteOutcome)
      (h : n.perform c (.detach k outcomes) = some (some a, n₁)) (hok : succeeded a = true)
      (rest : Detaches c ks n₁ n') : Detaches c (k :: ks) n n'
  | meanwhile {ks : List Incarnation} {n n₁ n' : TopicHost φ} (h : Quiet c n n₁)
      (rest : Detaches c ks n₁ n') : Detaches c ks n n'

/-- `attach_pending_members`, while the registry does not change. -/
def Passes (c : Config) (n n' : TopicHost φ) : Prop :=
  ∃ n₁, Relation.ReflTransGen (Quiet c) { n with live := n.sample c, pending := n.sample c } n₁ ∧
    n₁.pending = [] ∧ Detaches c n₁.attached n₁ n'

/-! ## What a step does to the slots -/

omit [DecidableEq φ] in
theorem attached_running {m : Mux φ} {opened : List Record}
    (h : n.world.session = .running m opened) : n.attached = m.attached := by
  rw [attached, World.slots, h]
  rfl

/-- An operation of the mux, and what it leaves of the session. -/
theorem operate_cases {o : Op φ} {outcomes : List WriteOutcome} {a : Mux.Action φ}
    (h : n.operate c o outcomes = some (a, n')) :
    ∃ m opened, n.world.session = .running m opened ∧
      a = .op o outcomes (exec (o.run n.world.files) (m.within outcomes)).1 ∧
      n' = { n with world :=
        n.world.settle opened (exec (o.run n.world.files) (m.within outcomes)) } := by
  simp only [operate, World.perform, Option.map_eq_some_iff] at h
  obtain ⟨⟨a', w⟩, hw, he⟩ := h
  cases hs : n.world.session with
  | closed disk =>
      rw [hs] at hw
      cases hw
  | running m opened =>
      rw [hs] at hw
      simp only at hw
      split at hw
      · cases hw
        cases he
        exact ⟨m, opened, rfl, rfl, rfl⟩
      · cases hw

theorem operate_running {o : Op φ} {outcomes : List WriteOutcome} {a : Mux.Action φ}
    (h : n.operate c o outcomes = some (a, n')) (hup : n'.up = true) :
    ∃ m opened, n.world.session = .running m opened ∧
      a = .op o outcomes (exec (o.run n.world.files) (m.within outcomes)).1 ∧
      n' = { n with world := { n.world with
        session := .running (exec (o.run n.world.files) (m.within outcomes)).2 opened } } := by
  obtain ⟨m, opened, hs, ha, rfl⟩ := operate_cases h
  refine ⟨m, opened, hs, ha, ?_⟩
  -- a killed write would have left the process down
  unfold World.settle at hup ⊢
  split at hup
  · cases hup
  · rename_i hrun
    rw [hrun]

/-- An operation that succeeds was not killed. -/
theorem up_of_succeeded {o : Op φ} {outcomes : List WriteOutcome} {a : Mux.Action φ}
    (h : n.operate c o outcomes = some (a, n')) (hok : succeeded a = true) : n'.up = true := by
  obtain ⟨m, opened, -, rfl, rfl⟩ := operate_cases h
  unfold World.settle
  split
  · rename_i hrun
    rw [hrun] at hok
    cases hok
  · rfl

/-- The slots after an operation of the mux. -/
theorem operate_attached {o : Op φ} {outcomes : List WriteOutcome} {a : Mux.Action φ}
    (h : n.operate c o outcomes = some (a, n')) (hup : n'.up = true)
    {P : List Incarnation → List Incarnation → Prop}
    (hP : ∀ m : Mux φ, P m.attached (exec (o.run n.world.files) m).2.attached) :
    P n.attached n'.attached := by
  obtain ⟨m, opened, hs, -, rfl⟩ := operate_running h hup
  rw [attached_running hs]
  exact hP (m.within outcomes)

theorem operate_frame {o : Op φ} {outcomes : List WriteOutcome} {a : Mux.Action φ}
    (h : n.operate c o outcomes = some (a, n')) :
    n'.registry = n.registry ∧ n'.live = n.live ∧ n'.pending = n.pending := by
  obtain ⟨m, opened, -, -, rfl⟩ := operate_cases h
  exact ⟨rfl, rfl, rfl⟩

/-- Whatever a quiet step does, it reads no more of the registry, and the only
slot it can add is that of a member the pass is still to come to. -/
structure QuietEffect (n n' : TopicHost φ) : Prop where
  registry : n'.registry = n.registry
  live : n'.live = n.live
  pending : ∀ m ∈ n'.pending, m ∈ n.pending
  attached : n'.attached = n.attached ∨
    ∃ m ∈ n.pending, n'.attached = n.attached ++ [(m.name, m.epoch)]

theorem Quiet.effect (h : Quiet c n n') : QuietEffect n n' := by
  cases h with
  | skip h => exact ⟨rfl, rfl, fun m hm => by rw [h]; exact List.mem_cons_of_mem _ hm, .inl rfl⟩
  | step cmd hquiet h hup =>
    cases cmd with
    | attach outcomes =>
        simp only [perform] at h
        split at h
        · cases h
        rename_i m rest hpending
        have hrest : ∀ x ∈ rest, x ∈ n.pending := fun x hx => by
          rw [hpending]
          exact List.mem_cons_of_mem _ hx
        split at h
        · cases h
          exact ⟨rfl, rfl, hrest, .inl rfl⟩
        · split at h
          · cases h
            exact ⟨rfl, rfl, hrest, .inl rfl⟩
          · obtain ⟨⟨a', n''⟩, hop, he⟩ := Option.map_eq_some_iff.mp h
            cases he
            obtain ⟨hreg, hlive, hpend⟩ := operate_frame hop
            refine ⟨hreg, hlive, fun x hx => hrest x (by rwa [hpend] at hx), ?_⟩
            refine operate_attached (P := fun ks ks' => ks' = ks ∨
              ∃ m ∈ n.pending, ks' = ks ++ [(m.name, m.epoch)]) hop hup fun mux => ?_
            exact (addMember_attached _ m.name m.epoch _ mux).imp_right
              fun hadd => ⟨m, by rw [hpending]; exact List.mem_cons_self, hadd⟩
    | poll outcomes =>
        obtain ⟨⟨a', n''⟩, hop, he⟩ := Option.map_eq_some_iff.mp h
        cases he
        obtain ⟨hreg, hlive, hpend⟩ := operate_frame hop
        refine ⟨hreg, hlive, fun x hx => by rwa [hpend] at hx, .inl ?_⟩
        exact operate_attached (P := fun ks ks' => ks' = ks) hop hup fun mux =>
          ((poll_attached _).bind fun _ => .pure ()) mux
    | grow file growth =>
        simp only [perform] at h
        split at h
        · cases h
          exact ⟨rfl, rfl, fun _ hm => hm, .inl rfl⟩
        · cases h
    | newReplica name file =>
        simp only [perform] at h
        split at h
        · cases h
          exact ⟨rfl, rfl, fun _ hm => hm, .inl rfl⟩
        · cases h
    | discardReplica name =>
        cases h
        exact ⟨rfl, rfl, fun _ hm => hm, .inl rfl⟩
    | merge | createTopic | publish | publishAttach | deregister | scan | detach | restart
    | rehost | reattach => cases hquiet

omit [DecidableEq φ] in
theorem run_removeMember_attached (files : φ → Log) (k : Incarnation) (m : Mux φ) :
    let r := exec ((Op.removeMember k.1 k.2).run files) m
    (r.2.attached = m.attached ∨ r.2.attached = m.attached.erase k) ∧
      (r.1 = .ok () → r.2.attached = m.attached.erase k) := by
  obtain ⟨hcases, hok⟩ := removeMember_attached files k m
  simp only [Op.run]
  rcases h : exec (removeMember files k.1 k.2) m with ⟨e | b, m'⟩ <;> rw [h] at hcases hok
  · rw [exec_bind_error h]
    exact ⟨hcases, fun he => by cases he⟩
  · rw [exec_bind_ok h]
    exact ⟨hcases, fun _ => hok b rfl⟩

/-- A removal in the second half of a pass. -/
theorem detach_effect {k : Incarnation} {outcomes : List WriteOutcome}
    {a : Option (Mux.Action φ)} (h : n.perform c (.detach k outcomes) = some (a, n'))
    (hup : n'.up = true) :
    n.departed c k = true ∧ k ∈ n.attached ∧ n'.registry = n.registry ∧ n'.live = n.live ∧
      n'.pending = n.pending ∧
      (n'.attached = n.attached ∨ n'.attached = n.attached.erase k) ∧
      ((∃ x, a = some x ∧ succeeded x = true) → n'.attached = n.attached.erase k) := by
  simp only [perform] at h
  split at h
  · rename_i hcond
    rw [Bool.and_eq_true, List.any_eq_true] at hcond
    obtain ⟨⟨s, hs, hsk⟩, hdep⟩ := hcond
    obtain ⟨⟨x, n''⟩, hop, he⟩ := Option.map_eq_some_iff.mp h
    cases he
    obtain ⟨hreg, hlive, hpend⟩ := operate_frame hop
    obtain ⟨m, opened, hrun, hx, rfl⟩ := operate_running hop hup
    obtain ⟨hcases, hok⟩ := run_removeMember_attached n.world.files k (m.within outcomes)
    have hmem : k ∈ n.attached := List.mem_map.mpr ⟨s, hs, of_decide_eq_true hsk⟩
    refine ⟨hdep, hmem, hreg, hlive, hpend, ?_, ?_⟩
    · rw [attached_running hrun]
      exact hcases
    · rintro ⟨x', hx', hsucc⟩
      rw [attached_running hrun]
      refine hok ?_
      cases hx'
      rw [hx] at hsucc
      rcases hr : (exec ((Op.removeMember k.1 k.2).run n.world.files) (m.within outcomes)).1
        with e | u
      · rw [hr] at hsucc
        cases hsucc
      · rfl
  · cases h

theorem up_of_detach {k : Incarnation} {outcomes : List WriteOutcome} {a : Mux.Action φ}
    (h : n.perform c (.detach k outcomes) = some (some a, n')) (hok : succeeded a = true) :
    n'.up = true := by
  simp only [perform] at h
  split at h
  · obtain ⟨x, hop, he⟩ := Option.map_eq_some_iff.mp h
    cases he
    exact up_of_succeeded hop hok
  · cases h

/-! ## A whole pass -/

omit [DecidableEq φ] in
theorem departed_congr (hreg : n'.registry = n.registry) (hlive : n'.live = n.live)
    (k : Incarnation) : n'.departed c k = n.departed c k := by
  rw [departed, departed, hreg, hlive]

/-- The first half keeps to its sample. -/
structure Attached (n₀ n : TopicHost φ) : Prop where
  registry : n.registry = n₀.registry
  live : n.live = n₀.live
  pending : ∀ m ∈ n.pending, m ∈ n₀.live
  kept : ∀ k ∈ n₀.attached, k ∈ n.attached
  attached : ∀ k ∈ n.attached, k ∈ n₀.attached ∨ ∃ m ∈ n₀.live, (m.name, m.epoch) = k

theorem Attached.quiet {n₀ : TopicHost φ} (h : Attached n₀ n) (hq : Quiet c n n') :
    Attached n₀ n' := by
  have heff := hq.effect
  refine ⟨heff.registry.trans h.registry, heff.live.trans h.live,
    fun m hm => h.pending m (heff.pending m hm), fun k hk => ?_, fun k hk => ?_⟩
  · rcases heff.attached with hsame | ⟨m, -, hadd⟩
    · rw [hsame]
      exact h.kept k hk
    · rw [hadd]
      exact List.mem_append_left _ (h.kept k hk)
  rcases heff.attached with hsame | ⟨m, hm, hadd⟩
  · exact h.attached k (by rwa [hsame] at hk)
  · rw [hadd, List.mem_append, List.mem_singleton] at hk
    rcases hk with hk | rfl
    · exact h.attached k hk
    · exact .inr ⟨m, h.pending m hm, rfl⟩

theorem Attached.quiets {n₀ : TopicHost φ} (h : Attached n₀ n)
    (hq : Relation.ReflTransGen (Quiet c) n n') : Attached n₀ n' := by
  induction hq with
  | refl => exact h
  | tail _ hlast ih => exact ih.quiet hlast

/-- The second half: one slot less for every time a departed member is come to. -/
theorem Detaches.count {ks : List Incarnation} (h : Detaches c ks n n') (hpend : n.pending = []) :
    n'.registry = n.registry ∧ ∀ k, n'.attached.count k +
      (if n.departed c k = true then ks.count k else 0) = n.attached.count k := by
  induction h with
  | done n => exact ⟨rfl, fun k => by simp⟩
  | @stays k ks n n' hstays rest ih =>
      obtain ⟨hreg, hcount⟩ := ih hpend
      refine ⟨hreg, fun k' => ?_⟩
      rw [← hcount k']
      by_cases hk : k = k'
      · subst hk
        simp [hstays]
      · simp [hk]
  | @leaves k ks n n₁ n' a outcomes h hok rest ih =>
      obtain ⟨hdep, hmem, hreg₁, hlive₁, hpend₁, -, herase⟩ :=
        detach_effect h (up_of_detach h hok)
      obtain ⟨hreg, hcount⟩ := ih (hpend₁.trans hpend)
      refine ⟨hreg.trans hreg₁, fun k' => ?_⟩
      have hcount' := hcount k'
      rw [departed_congr hreg₁ hlive₁, herase ⟨a, rfl, hok⟩] at hcount'
      by_cases hk : k = k'
      · subst hk
        have hpos := List.count_pos_iff.mpr hmem
        rw [List.count_erase_self] at hcount'
        simp only [hdep, if_true, List.count_cons_self] at hcount' ⊢
        omega
      · rw [List.count_erase_of_ne (Ne.symm hk)] at hcount'
        rw [← hcount', List.count_cons_of_ne hk]
  | @meanwhile ks n n₁ n' hq rest ih =>
      have heff := hq.effect
      have hpend₁ : n₁.pending = [] :=
        List.eq_nil_iff_forall_not_mem.mpr fun m hm => by simpa [hpend] using heff.pending m hm
      obtain ⟨hreg, hcount⟩ := ih hpend₁
      refine ⟨hreg.trans heff.registry, fun k => ?_⟩
      have hsame : n₁.attached = n.attached := by
        refine heff.attached.resolve_right ?_
        rintro ⟨m, hm, -⟩
        rw [hpend] at hm
        cases hm
      rw [← hsame, ← hcount k, departed_congr heff.registry heff.live]

omit [DecidableEq φ] in
theorem departed_eq_false_iff {k : Incarnation} :
    n.departed c k = false ↔ (∃ m ∈ n.live, (m.name, m.epoch) = k) ∨
      n.registry.getRaw k.1 = none ∨
      ∃ id, n.registry.get k.1 = some id ∧ id.memberOf = some c.setup.name := by
  rw [departed, Bool.and_eq_false_iff, Bool.not_eq_false', List.any_eq_true]
  refine or_congr ⟨fun ⟨m, hm, hk⟩ => ⟨m, hm, of_decide_eq_true hk⟩,
    fun ⟨m, hm, hk⟩ => ⟨m, hm, decide_eq_true hk⟩⟩ ?_
  cases hraw : n.registry.getRaw k.1 with
  | none => simp
  | some id =>
      simp only [Option.any_some, Bool.or_eq_false_iff, bne_eq_false_iff_eq, reduceCtorEq,
        false_or, Registry.get_eq_some, hraw, Option.some.injEq]
      exact ⟨fun h => ⟨id, ⟨rfl, h.1⟩, h.2⟩, fun ⟨_, ⟨he, hd⟩, hof⟩ => he ▸ ⟨hd, hof⟩⟩

omit [DecidableEq φ] in
/-- A sampled member is current. -/
theorem mem_sample {m : ChannelIdentity} (h : m ∈ n.sample c) :
    n.registry.get m.name = some m ∧ m.memberOf = some c.setup.name := by
  rw [sample, List.mem_filter, Bool.and_eq_true] at h
  obtain ⟨hiter, hdel, hof⟩ := h
  exact ⟨Registry.get_eq_some.mpr ⟨Registry.mem_iter.mp hiter, by simpa using hdel⟩,
    by simpa using hof⟩

/-- **What a pass leaves attached**: the slots there were, and those of sampled members,
as far as they have not departed. -/
theorem Passes.mem_attached_iff (h : Passes c n n') : ∃ n₁,
    Attached { n with live := n.sample c, pending := n.sample c } n₁ ∧
      n'.registry = n.registry ∧
      ∀ k, k ∈ n'.attached ↔ k ∈ n₁.attached ∧ n₁.departed c k = false := by
  obtain ⟨n₁, hquiet, hpend, hdetach⟩ := h
  have hfirst : Attached { n with live := n.sample c, pending := n.sample c } n₁ :=
    Attached.quiets ⟨rfl, rfl, fun _ hm => hm, fun _ hk => hk, fun _ hk => .inl hk⟩ hquiet
  obtain ⟨hreg, hcount⟩ := hdetach.count hpend
  refine ⟨n₁, hfirst, hreg.trans hfirst.registry, fun k => ?_⟩
  -- a departed one has no slot left, and the others have theirs
  have hk := hcount k
  rw [← List.count_pos_iff, ← List.count_pos_iff]
  cases hdep : n₁.departed c k with
  | true =>
      rw [if_pos hdep] at hk
      simp only [reduceCtorEq, and_false, iff_false]
      omega
  | false =>
      rw [if_neg (by simp [hdep])] at hk
      simp only [and_true]
      omega

/-- Nothing attached has been reclaimed for this topic at another epoch. -/
def NoneSuperseded (c : Config) (n : TopicHost φ) : Prop :=
  ∀ k ∈ n.attached, ∀ id, n.registry.get k.1 = some id → id.memberOf = some c.setup.name →
    id.epoch = k.2

/-- **A pass retires stale incarnations if and only if** none of their names has been
reclaimed for the same topic. Whatever the registry and the slots, then and only then
every slot that is left is the current incarnation of its name, or the registry does not
know the name. -/
theorem pass_retires_stale (h : Passes c n n') :
    (∀ k ∈ n'.attached,
      (∃ id, n'.registry.get k.1 = some id ∧ id.epoch = k.2 ∧
        id.memberOf = some c.setup.name) ∨
      n'.registry.getRaw k.1 = none) ↔ NoneSuperseded c n := by
  obtain ⟨n₁, hfirst, hreg, hmem⟩ := h.mem_attached_iff
  rw [hreg]
  constructor
  · -- a superseded slot has not departed, so it is there to see
    intro hcurrent k hk id hid hof
    have hstays : n₁.departed c k = false := by
      refine departed_eq_false_iff.mpr (.inr (.inr ⟨id, ?_, hof⟩))
      rw [hfirst.registry]
      exact hid
    rcases hcurrent k ((hmem k).mpr ⟨hfirst.kept k hk, hstays⟩) with ⟨id', hid', he, -⟩ | hraw
    · rw [hid] at hid'
      cases hid'
      exact he
    · rw [(Registry.get_eq_some.mp hid).1] at hraw
      cases hraw
  · intro hnone k hk
    obtain ⟨hk₁, hstays⟩ := (hmem k).mp hk
    rcases departed_eq_false_iff.mp hstays with ⟨m, hm, rfl⟩ | hraw | ⟨id, hid, hof⟩
    · rw [hfirst.live] at hm
      exact .inl ⟨m, (mem_sample hm).1, rfl, (mem_sample hm).2⟩
    · rw [hfirst.registry] at hraw
      exact .inr hraw
    · rw [hfirst.registry] at hid
      rcases hfirst.attached k hk₁ with hold | ⟨m, hm, rfl⟩
      · exact .inl ⟨id, hid, hnone k hold id hid hof, hof⟩
      · exact .inl ⟨m, (mem_sample hm).1, rfl, (mem_sample hm).2⟩

/-! ## Undisturbed passes -/

def attachAll (c : Config) : List ChannelIdentity → TopicHost φ → Option (TopicHost φ)
  | [], n => some n
  | _ :: ms, n =>
    ((n.perform c (.attach [])).filter fun x => x.2.up).bind fun x => attachAll c ms x.2

def detachAll (c : Config) : List Incarnation → TopicHost φ → Option (TopicHost φ)
  | [], n => some n
  | k :: ks, n =>
    if n.departed c k then
      ((n.perform c (.detach k [])).filter fun x => x.1.any succeeded).bind fun x =>
        detachAll c ks x.2
    else detachAll c ks n

/-- `attach_pending_members` with nothing in between, where all writes go
through. -/
def attachPendingMembers (c : Config) (n : TopicHost φ) : Option (TopicHost φ) :=
  (attachAll c (n.sample c) { n with live := n.sample c, pending := n.sample c }).bind fun n₁ =>
    if n₁.pending = [] then detachAll c n₁.attached n₁ else none

theorem quiets_of_attachAll {ms : List ChannelIdentity} (h : attachAll c ms n = some n') :
    Relation.ReflTransGen (Quiet c) n n' := by
  induction ms generalizing n with
  | nil =>
      cases h
      exact .refl
  | cons m ms ih =>
      obtain ⟨x, hx, hrest⟩ := Option.bind_eq_some_iff.mp h
      obtain ⟨hp, hup⟩ := Option.filter_eq_some_iff.mp hx
      exact .head (.step (.attach []) rfl hp hup) (ih hrest)

theorem detaches_of_detachAll {ks : List Incarnation} (h : detachAll c ks n = some n') :
    Detaches c ks n n' := by
  induction ks generalizing n with
  | nil =>
      cases h
      exact .done _
  | cons k ks ih =>
      rw [detachAll] at h
      split at h
      · obtain ⟨⟨a, n₁⟩, hx, hrest⟩ := Option.bind_eq_some_iff.mp h
        obtain ⟨hp, hok⟩ := Option.filter_eq_some_iff.mp hx
        obtain ⟨x, rfl, hsucc⟩ := (Option.any_eq_true _ _).mp hok
        exact .leaves [] hp hsucc (ih hrest)
      · rename_i hstays
        exact .stays (by simpa using hstays) (ih h)

theorem passes_of_attachPendingMembers (h : n.attachPendingMembers c = some n') :
    Passes c n n' := by
  obtain ⟨n₁, hattach, hdetach⟩ := Option.bind_eq_some_iff.mp h
  split at hdetach
  · exact ⟨n₁, quiets_of_attachAll hattach, ‹_›, detaches_of_detachAll hdetach⟩
  · cases hdetach

/-- The logs of two members. -/
def pairLogs : Bool → Log
  | false => .ofRecords "m" 0 []
  | true => .ofRecords "other" 0 []

theorem bounded_pairLogs : Bounded pairLogs := by
  intro f
  cases f <;> decide

/-- Both are attached, and `m` is tombstoned: the pass leaves the other. -/
theorem pass_retires_stale_tombstoned :
    ∃ n n' : TopicHost Bool, Passes reclaimConfig n n' ∧ n.attached = [("m", 0), ("other", 0)] ∧
      n'.attached = [("other", 0)] ∧
      ((∃ id, n'.registry.get "other" = some id ∧ id.epoch = 0 ∧ id.memberOf = some "topic") ∨
        n'.registry.getRaw "other" = none) := by
  obtain ⟨n, -, hat, hlive, hpass⟩ := Run.exists_reachable Init
    (fun n n' => ∃ a, Step reclaimConfig n a n') (perform reclaimConfig) (fun _ _ _ => true)
    (fun n cmd a n' h _ => ⟨a, cmd, h⟩) (reclaimStart pairLogs)
    [.createTopic 10, .merge (memberIdentity 2 0 false),
      .merge { memberIdentity 2 0 false with name := "other" }, .newReplica "m" false,
      .newReplica "other" true, .scan, .attach [], .attach [], .merge (memberIdentity 2 0 true)]
    (fun n => n.attached = [("m", 0), ("other", 0)] ∧
      (n.registry.get "m" = none ∧
        n.registry.get "other" = some { memberIdentity 2 0 false with name := "other" }) ∧
      (n.attachPendingMembers reclaimConfig).any
        (fun n' => decide (n'.attached = [("other", 0)])) = true)
    (init_reclaimStart bounded_pairLogs) (by decide +kernel)
  obtain ⟨n', hn', hat'⟩ := (Option.any_eq_true _ _).mp hpass
  have hat' := of_decide_eq_true hat'
  have hp := passes_of_attachPendingMembers hn'
  have hnone : NoneSuperseded reclaimConfig n := by
    intro k hk id hid _
    rw [hat, List.mem_pair] at hk
    rcases hk with rfl | rfl
    · rw [hlive.1] at hid
      cases hid
    · rw [hlive.2] at hid
      cases hid
      rfl
  exact ⟨n, n', hp, hat, hat', (pass_retires_stale hp).mpr hnone ("other", 0) (by simp [hat'])⟩

/-- **A stale incarnation stays attached.** `m` is attached at epoch 0; it is
tombstoned and reclaimed for the same topic at epoch 1 before the next pass,
which keeps the old slot, and attaches the new one beside it. -/
theorem superseded_slot_stays :
    ∃ n n' : TopicHost Unit,
      Run.Reachable Init (fun n n' => ∃ a, Step reclaimConfig n a n') n ∧
      Passes reclaimConfig n n' ∧ n'.attached = [("m", 0), ("m", 1)] ∧
      n'.registry.get "m" = some (memberIdentity 3 1 false) := by
  obtain ⟨n, hreach, hpass⟩ := Run.exists_reachable Init
    (fun n n' => ∃ a, Step reclaimConfig n a n') (perform reclaimConfig) (fun _ _ _ => true)
    (fun n cmd a n' h _ => ⟨a, cmd, h⟩) (reclaimStart staleLog)
    [.createTopic 10, .merge (memberIdentity 2 0 false), .newReplica "m" (), .scan, .attach [],
      .merge (memberIdentity 2 0 true), .merge (memberIdentity 3 1 false)]
    (fun n => (n.attachPendingMembers reclaimConfig).any
      (fun n' => decide (n'.attached = [("m", 0), ("m", 1)] ∧
        n'.registry.get "m" = some (memberIdentity 3 1 false))) = true)
    (init_reclaimStart bounded_staleLog) (by decide +kernel)
  obtain ⟨n', hn', hend⟩ := (Option.any_eq_true _ _).mp hpass
  obtain ⟨hat, hreg⟩ := of_decide_eq_true hend
  exact ⟨n, n', hreach, passes_of_attachPendingMembers hn', hat, hreg⟩

end TopicHost

end XchannelNet
