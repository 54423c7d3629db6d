import XchannelNet.Mux.Progress

/-!
# Stamps — which logs a topic's records come from

A log carries the name and the incarnation it was created with. If every
`add_member` is given a log stamped with the very `(name, epoch)` it attaches,
each data record that the topic attributes to a member is a record of such a
log, at the index the topic says. Writes may fail anywhere, except that an
`add_member` which cannot write its slot table is the end of the session: a
slot the table in force does not name would be merged under whatever member an
older table gives its ref to.
-/

namespace XchannelNet

open Mux

/-- The log was created for this incarnation. -/
def Log.StampedAs (l : Log) (k : Incarnation) : Prop := l.name = k.1 ∧ l.generation = k.2

instance (l : Log) (k : Incarnation) : Decidable (l.StampedAs k) :=
  inferInstanceAs (Decidable (_ ∧ _))

/-- What is done to a log leaves its stamp. -/
theorem Mux.FilesGrow.stampedAs {φ : Type} {files files' : φ → Log} (h : FilesGrow files files')
    {f : φ} {k : Incarnation} (hk : (files f).StampedAs k) : (files' f).StampedAs k := by
  rcases h f with he | hgr
  · rwa [he]
  · exact ⟨hgr.name.trans hk.1, hgr.generation.trans hk.2⟩

namespace Topic

variable {φ : Type} {files files' : φ → Log} {mtu : UInt32} {t t' : Topic φ} {i : ℕ} {l : Lane φ}

structure Stamped (files : φ → Log) (t : Topic φ) : Prop where
  named : t.Named
  lane : ∀ l ∈ t.lanes, (files l.file).StampedAs l.member
  data : ∀ k i r, .data i r ∈ t.view.trace k →
    ∃ f, (files f).StampedAs k ∧ (files f).get? i = some r

namespace Stamped

/-- What is said of a member without data records needs no log. -/
theorem congr (h : Stamped files t) (hn : t'.Named)
    (hl : ∀ x ∈ t'.lanes, ∃ y ∈ t.lanes, x.file = y.file ∧ x.member = y.member)
    (hd : ∀ k i r, .data i r ∈ t'.view.trace k → .data i r ∈ t.view.trace k) :
    Stamped files t' where
  named := hn
  lane := by
    intro x hx
    obtain ⟨y, hy, hfile, hmem⟩ := hl x hx
    rw [hfile, hmem]
    exact h.lane y hy
  data k i r hr := h.data k i r (hd k i r hr)

theorem mem_table {k : Incarnation} {i : ℕ} {r : Record}
    (h : .data i r ∈ (t.emit t.table).view.trace k) : .data i r ∈ t.view.trace k := by
  rwa [Ahead.trace_table] at h

theorem mem_marker {e : TopicEvent} {k : Incarnation} {i : ℕ} {r : Record}
    (h : .data i r ∈ (t.emit e).view.trace k) (he : e.Marker) : .data i r ∈ t.view.trace k := by
  rw [view_emit, View.trace_step] at h
  rcases List.mem_append.mp h with h | h
  · exact h
  · rcases View.said_marker (v := t.view) he k with hs | ⟨me, hs, hme⟩
    · rw [hs] at h
      cases h
    · rw [hs] at h
      cases List.mem_singleton.mp h
      cases hme

theorem lane_set (hi : t.lanes[i]? = some l) (l' : Lane φ) (hfile : l'.file = l.file)
    (hmem : l'.member = l.member) :
    ∀ x ∈ (t.setLane i l').lanes, ∃ y ∈ t.lanes, x.file = y.file ∧ x.member = y.member := by
  intro x hx
  rcases List.mem_or_eq_of_mem_set hx with hx | rfl
  · exact ⟨x, hx, rfl, rfl⟩
  · exact ⟨l, mem_of_lane hi, hfile, hmem⟩

theorem merge (h : Stamped files t) {r : Record} (hr : Reads files t i l r)
    (hn : ((t.setLane i l.pass).emit (.data l.memberRef l.position r)).Named) :
    Stamped files ((t.setLane i l.pass).emit (.data l.memberRef l.position r)) where
  named := hn
  lane := by
    intro x hx
    obtain ⟨y, hy, hfile, hmem⟩ := lane_set hr.lane l.pass rfl rfl x hx
    rw [hfile, hmem]
    exact h.lane y hy
  data := by
    intro k j r' hj
    have hact := h.named l (mem_of_lane hr.lane)
    rw [view_emit, view_setLane, View.trace_about rfl hact] at hj
    rcases List.mem_append.mp hj with hj | hj
    · exact h.data k j r' hj
    · split at hj
      · rename_i hk
        cases List.mem_singleton.mp hj
        subst hk
        exact ⟨l.file, h.lane l (mem_of_lane hr.lane), hr.record⟩
      · cases hj

/-- **Step lemma**. -/
theorem step (h : Stamped files t) (hwf : t.WF files) (hs : Step files mtu t t') :
    Stamped files t' := by
  have hn := h.named.step hwf hs
  have hsame : ∀ x ∈ t.lanes, ∃ y ∈ t.lanes, x.file = y.file ∧ x.member = y.member :=
    fun x hx => ⟨x, hx, rfl, rfl⟩
  cases hs with
  | reject hr => exact h.congr hn (lane_set hr.lane (Lane.pass _) rfl rfl) fun _ _ _ hd => hd
  | merge hr => exact h.merge hr hn
  | refresh => exact h.congr hn hsame fun _ _ _ hd => mem_table hd
  | @roll a b hk =>
      refine h.congr hn hsame fun k i r hd => ?_
      have hd' := mem_table (t := t.sweep a b) hd
      rwa [view_sweep hk] at hd'
  | closing => exact h.congr hn hsame fun _ _ _ hd => mem_marker hd trivial
  | @detach before i l hi hclosed =>
      refine h.congr hn (fun x hx => ⟨x, (List.eraseIdx_sublist _ _).mem hx, rfl, rfl⟩) ?_
      exact fun _ _ _ hd => mem_table (t := t.leave i) hd
  | terminal => exact h.congr hn hsame fun _ _ _ hd => mem_marker hd trivial

theorem steps (h : Stamped files t) (hwf : t.WF files)
    (hs : Relation.ReflTransGen (Step files mtu) t t') : Stamped files t' := by
  induction hs with
  | refl => exact h
  | tail hsteps hstep ih => exact ih.step (hwf.steps hsteps) hstep

theorem torn (h : Stamped files t) (ht : Torn files mtu t t') : Stamped files t' := by
  have hn := h.named.torn ht
  cases ht with
  | lose hr => exact h.congr hn (lane_set hr.lane (Lane.lose _) rfl rfl) fun _ _ _ hd => hd
  | @rollLose i l r a b hr _ hk =>
      refine h.congr hn (lane_set hr.lane (Lane.lose _) rfl rfl) fun k j r' hd => ?_
      have hv : ((t.sweep a b).setLane i l.lose).view = t.view := view_sweep hk
      rwa [hv] at hd
  | drop =>
      exact h.congr hn (fun x hx => ⟨x, (List.eraseIdx_sublist _ _).mem hx, rfl, rfl⟩)
        fun _ _ _ hd => hd

/-- A lane of a log stamped for its member, and the table that names it. -/
theorem join (h : Stamped files t) (hwf : t.WF files) {mark : Mark} (hj : Joins files t l mark)
    (hl : (files l.file).StampedAs l.member) :
    Stamped files ((t.join l).emit (t.join l).table) where
  named := named_retable (hwf.join hj)
  lane := Sequence.forall_mem_concat h.lane hl
  data k i r hd := h.data k i r (mem_table (t := t.join l) hd)

theorem attach (h : Stamped files t) (hwf : t.WF files) {mark : Mark} (hj : Joins files t l mark)
    (hl : (files l.file).StampedAs l.member) : Stamped files (t.attach l mark) := by
  have hjoin := h.join hwf hj hl
  have hmark : ∀ e : TopicEvent, e.Marker →
      Stamped files (((t.join l).emit (t.join l).table).emit e) := by
    intro e he
    refine hjoin.congr ?_ (fun x hx => ⟨x, hx, rfl, rfl⟩) fun _ _ _ hd => mem_marker hd he
    exact hjoin.named.congr (fun x hx => ⟨x, hx, rfl, rfl⟩) (active_emit_marker he)
  cases mark with
  | none => exact hjoin
  | gap a b => exact hmark _ trivial
  | regressed a b => exact hmark _ trivial

theorem reopen (h : Stamped files t) : Stamped files (fresh t.pruned t.kept : Topic φ) :=
  ⟨named_of_no_lanes rfl, by simp [fresh], h.data⟩

theorem grow (h : Stamped files t) (hg : FilesGrow files files') : Stamped files' t := by
  refine ⟨h.named, fun l hl => hg.stampedAs (h.lane l hl), fun k i r hr => ?_⟩
  obtain ⟨f, hf, hget⟩ := h.data k i r hr
  exact ⟨f, hg.stampedAs hf, hg.get? hget⟩

end Stamped

end Topic

namespace Mux

open Fallible

variable {φ : Type} {c : Setup} {w w' : World φ} {t t' : Topic φ} {a : Action φ}

/-- An `add_member` that attaches somebody reads a log stamped with the name
and the epoch it is given. There is room for its slot table, and neither of its
writes fails, but for one that the process is killed at. -/
def AttachesStamped (w : World φ) : Action φ → Prop
  | .op (.addMember name epoch file) outcomes _ =>
    ((∀ s ∈ w.slots, s.member ≠ (name, epoch)) →
      ∀ f, file = some f → (w.files f).StampedAs (name, epoch)) ∧
    w.Accommodates (name, epoch) file ∧ .failed ∉ outcomes.take 2
  | _ => True

theorem addMember_ends {m m' : Mux φ} {opened : List Record} {name : ChannelName}
    {epoch : UInt64} {file : Option φ} {outcomes : List WriteOutcome} {e : WriteError}
    (hs : w.session = .running m opened) (hroom : w.Accommodates (name, epoch) file)
    (hw : .failed ∉ outcomes.take 2)
    (h : exec (addMember w.files name epoch file) (m.within outcomes) = (.error (.write e), m')) :
    e = .killed := by
  have hkilled : ∀ x : WriteOutcome, x ≠ .failed → x.error = some e → e = .killed := by
    rintro (_ | _ | _) hx he
    · cases he
    · exact absurd rfl hx
    · cases he
      rfl
  rcases hroom.write_error hs h with ⟨x, rest, rfl, hx, -⟩ | ⟨x, y, rest, rfl, -, hy⟩
  · exact hkilled x (fun heq => hw (by simp [heq])) hx
  · exact hkilled y (fun heq => hw (by simp [heq])) hy

def IsStamped (c : Setup) (w : World φ) : Prop := ∃ t, Tracks c w t ∧ t.Stamped w.files

theorem World.files_settle (w : World φ) (opened : List Record)
    (r : Except MuxError Unit × Mux φ) : (w.settle opened r).files = w.files := by
  unfold World.settle
  split <;> rfl

/-- A step does to the members' logs no more than grow one. -/
theorem Step.filesGrow [DecidableEq φ] (h : Step c w a w') : FilesGrow w.files w'.files := by
  cases h with
  | grow hg hb => exact .update hg
  | «open» hs ho => exact fun _ => .inl rfl
  | @op m opened r o outcomes hs hv hr =>
      rw [World.files_settle]
      exact fun _ => .inl rfl
  | kill hs => exact fun _ => .inl rfl

theorem IsStamped.settle (h : Tracks c w t) {r : Except MuxError Unit × Mux φ}
    (opened : List Record) (hm : Models w.files c.geometry.mtu r.2 t')
    (hst : t'.Stamped w.files) : IsStamped c (w.settle opened r) := by
  rcases h.settle opened hm with ⟨ht, -⟩ | ⟨ht, -⟩
  · exact ⟨_, ht, by rwa [World.files_settle]⟩
  · exact ⟨_, ht, by rw [World.files_settle]; exact hst.reopen⟩

/-- **Step lemma**. -/
theorem IsStamped.step [DecidableEq φ] (h : IsStamped c w) (hs : Step c w a w')
    (ha : AttachesStamped w a) : IsStamped c w' := by
  obtain ⟨t, ht, hst⟩ := h
  cases hs with
  | grow hg hb => exact ⟨t, ht.grow hg hb, hst.grow (.update hg)⟩
  | «open» hs ho => exact ⟨t, ht.open hs ho, hst⟩
  | kill hs => exact ⟨_, ht.die (ht.running hs).stored, hst.reopen⟩
  | @op m opened r o outcomes hs hv hr =>
      subst hr
      have hm := ht.within hs outcomes
      by_cases ho : ∃ name epoch file, o = .addMember name epoch file
      · obtain ⟨name, epoch, file, rfl⟩ := ho
        have hadd := ht.added hm hv
        have hends : ∀ e m', exec (Op.run w.files (.addMember name epoch file))
            (m.within outcomes) = (.error (.write e), m') → e = .killed :=
          fun _ _ h => addMember_ends hs ha.2.1 ha.2.2 h
        generalize exec (Op.run w.files (.addMember name epoch file)) (m.within outcomes) = r
          at hadd hends ⊢
        -- the log of a lane that joins
        have hlog : ∀ {l : Lane φ} {mark : Mark}, l.member = (name, epoch) → file = some l.file →
            Topic.Joins w.files t l mark → (w.files l.file).StampedAs l.member := by
          intro l mark hmem hfile hj
          rw [hmem]
          refine ha.1 (fun s hs hsk => hj.new s.lane ?_ (hsk.trans hmem.symm)) l.file hfile
          rw [ht.slots]
          exact List.mem_map_of_mem hs
        cases hadd with
        | unchanged _ hm => exact .settle ht opened hm hst
        | bumped _ _ hm =>
            exact .settle ht opened hm (hst.congr (fun l hl => hst.named l hl)
              (fun x hx => ⟨x, hx, rfl, rfl⟩) fun _ _ _ hd => hd)
        | attached hmem hfile hj hm =>
            exact .settle ht opened hm (hst.attach ht.wf hj (hlog hmem hfile hj))
        | @pushed l mark e m' _ _ hj hm =>
            -- the process is gone, and nothing was written
            obtain rfl := hends e m' rfl
            exact ⟨fresh t.pruned t.kept, ⟨ht.bounded, hm.stored, rfl⟩, hst.reopen⟩
        | unmarked hmem hfile hj _ hm =>
            exact .settle ht opened hm (hst.join ht.wf hj (hlog hmem hfile hj))
      · have href := Op.refines (o := o) ht.bounded hm fun name epoch file he =>
          ho ⟨name, epoch, file, he⟩
        obtain ⟨t₁, hsteps, hm₁ | ⟨e, t₂, -, -, htorn, hm₂⟩⟩ := href
        · exact .settle ht opened hm₁ (hst.steps ht.wf hsteps)
        · exact .settle ht opened hm₂ ((hst.steps ht.wf hsteps).torn htorn)

theorem IsStamped.init (hw : Init w) : IsStamped c w :=
  ⟨_, .init hw, Topic.named_of_no_lanes rfl, by simp [fresh], fun _ _ _ hd => by cases hd⟩

/-- What a stamped topic says of a member comes from a log of the member. -/
theorem IsStamped.data (h : IsStamped c w) {k : Incarnation} {i : ℕ} {r : Record}
    (hr : .data i r ∈ w.view.trace k) :
    ∃ f, (w.files f).StampedAs k ∧ (w.files f).get? i = some r := by
  obtain ⟨t, ht, hst⟩ := h
  rw [ht.view] at hr
  exact hst.data k i r hr

end Mux

end XchannelNet
