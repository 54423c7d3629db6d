import XchannelNet.Mux.Progress

/-!
# Progress and the topic's own retention

Once a member's records have aged out of the topic, the only evidence of its
progress is a slot table that lists it, and a table lists the members that
are attached when it is written. A member that stays away for a whole session
is named by no table of that session. When retention then drops the last
table that does name it, its progress is forgotten: it is attached as if it
had never been seen and everything its log still holds is merged again
(`forgotten_member`).

As long as no roll drops the last retained table that names a member which is
not attached, progress does survive: that is `progress_survives_retention`.
-/

namespace XchannelNet

open Mux

namespace Topic

variable {φ : Type} {files : φ → Log} {mtu : UInt32} {t t' : Topic φ}

/-- A closed marker for a lane is in its member's trace. -/
theorem closed_mem_trace (hn : t.Named) {i : ℕ} {l : Lane φ} {before : List TopicEvent}
    (hi : t.lanes[i]? = some l) (hclosed : t.kept = before ++ [.closed l.memberRef l.cursor]) :
    .closed l.cursor ∈ t.view.trace l.member := by
  have hview : t.view = (Mux.view (t.pruned ++ before)).step (.closed l.memberRef l.cursor) := by
    rw [← view_concat, List.append_assoc, ← hclosed]
    rfl
  have hscan := View.step_marker (v := Mux.view (t.pruned ++ before))
    (e := .closed l.memberRef l.cursor) trivial
  have hact := hn l (mem_of_lane hi)
  rw [hview, hscan] at hact
  rw [hview, View.trace_about_self rfl hact]
  simp

/-- A member that is not attached after a step, and was neither closed nor
regressed, was not attached before it, and the step says nothing about it. -/
theorem Step.unattached (hs : Step files mtu t t') (hn : t.Named) {k : Incarnation}
    (hk : Unbroken (t'.view.trace k)) (ha : ¬ t'.Attached k) :
    ¬ t.Attached k ∧ t'.view.trace k = t.view.trace k := by
  have hne : ∀ l ∈ t.lanes, ¬ t.Attached k → l.member ≠ k := by
    rintro l hl hna rfl
    exact hna (attached_of_mem hl)
  cases hs with
  | reject hr => exact ⟨fun h => ha ((attached_setLane hr.lane (Lane.pass _) rfl).mpr h), rfl⟩
  | @merge i l r hr =>
      have hna : ¬ t.Attached k := fun h =>
        ha ((attached_setLane hr.lane (Lane.pass l) rfl).mpr h)
      refine ⟨hna, ?_⟩
      have hl := mem_of_lane hr.lane
      rw [view_emit, view_setLane, View.trace_about_of_ne rfl (hn l hl) (hne l hl hna).symm]
  | refresh => exact ⟨ha, Ahead.trace_table t k⟩
  | @roll a b hkept =>
      refine ⟨ha, ?_⟩
      have := Ahead.trace_table (t.sweep a b) k
      rw [view_sweep hkept] at this
      exact this
  | @closing i l hi =>
      refine ⟨ha, ?_⟩
      have hl := mem_of_lane hi
      rw [view_emit, View.trace_about_of_ne rfl (hn l hl) (hne l hl ha).symm]
  | @detach before i l hi hclosed =>
      have htrace : ((t.leave i).emit (t.leave i).table).view.trace k = t.view.trace k :=
        Ahead.trace_table (t.leave i) k
      refine ⟨fun hat => ha (attached_leave hi hat ?_), htrace⟩
      rintro rfl
      -- the lane that left was marked closed
      rw [htrace] at hk
      have := hk _ (closed_mem_trace hn hi hclosed)
      cases this
  | terminal => exact ⟨ha, by rw [view_emit, View.trace_step]; exact List.append_nil _⟩

theorem unattached_of_steps (hwf : t.WF files) (hn : t.Named)
    (hs : Relation.ReflTransGen (Step files mtu) t t') {k : Incarnation}
    (hk : Unbroken (t'.view.trace k)) (ha : ¬ t'.Attached k) :
    ¬ t.Attached k ∧ t'.view.trace k = t.view.trace k ∧ t'.recovered = t.recovered := by
  induction hs with
  | refl => exact ⟨ha, rfl, rfl⟩
  | tail hsteps hstep ih =>
      obtain ⟨ha₁, htrace⟩ := hstep.unattached (hn.steps hwf hsteps) hk ha
      rw [htrace] at hk
      obtain ⟨ha₀, htrace₀, hrec⟩ := ih hk ha₁
      exact ⟨ha₀, htrace.trans htrace₀, hstep.recovered.trans hrec⟩

/-! ## Slot tables in the retained log -/

theorem names_append {a : List TopicEvent} {k : Incarnation}
    (h : Names a k) (b : List TopicEvent) : Names (a ++ b) k := by
  obtain ⟨es, hes, he⟩ := h
  exact ⟨es, List.mem_append_left _ hes, he⟩

/-- A retained table lists every lane. -/
def Listed (t : Topic φ) : Prop := ∀ l ∈ t.lanes, Names t.kept l.member

theorem listed_retable (t : Topic φ) : (t.emit t.table).Listed := by
  intro l hl
  exact names_concat.mpr (.inr (names_table.mpr ⟨l.row, List.mem_map_of_mem hl, rfl⟩))

theorem Listed.emit (h : t.Listed) (e : TopicEvent) : (t.emit e).Listed := fun l hl =>
  names_append (h l hl) [e]

theorem Listed.setLane (h : t.Listed) {i : ℕ} {l : Lane φ} (hi : t.lanes[i]? = some l)
    (l' : Lane φ) (hmem : l'.member = l.member) : (t.setLane i l').Listed :=
  Sequence.forall_mem_set h i (hmem ▸ h l (mem_of_lane hi))

theorem Listed.step (h : t.Listed) (hs : Step files mtu t t') : t'.Listed := by
  cases hs with
  | reject hr => exact h.setLane hr.lane (Lane.pass _) rfl
  | merge hr => exact (h.setLane hr.lane (Lane.pass _) rfl).emit _
  | refresh => exact listed_retable t
  | @roll a b => exact listed_retable (t.sweep a b)
  | closing => exact h.emit _
  | detach => exact listed_retable (t.leave _)
  | terminal => exact h.emit _

theorem Listed.attach (t : Topic φ) (l : Lane φ) (mark : Mark) : (t.attach l mark).Listed := by
  have htable := listed_retable (t.join l)
  cases mark with
  | none => exact htable
  | gap a b => exact htable.emit _
  | regressed a b => exact htable.emit _

/-- An attach only adds to the log. -/
theorem names_attach {k : Incarnation} (h : Names t.kept k) (l : Lane φ) (mark : Mark) :
    Names (t.attach l mark).kept k := by
  cases mark with
  | none => exact names_append h _
  | gap a b => exact names_append (names_append h _) _
  | regressed a b => exact names_append (names_append h _) _

/-! ## The invariant -/

/-- What keeps the progress of unbroken members: cursors are ahead, a retained
table lists every member that was merged from, and one that is not attached
would be resumed ahead too. -/
structure Durable (t : Topic φ) : Prop where
  named : t.Named
  ahead : t.Ahead Unbroken
  listed : t.Listed
  seen : ∀ k, Unbroken (t.view.trace k) → merged (t.view.trace k) ≠ [] → Names t.kept k
  resumes : ∀ k, Unbroken (t.view.trace k) → ¬ t.Attached k →
    ∀ i ∈ merged (t.view.trace k), i < want (t.recovered k)

namespace Durable

theorem unbroken_of_append (a b : List MemberEvent) (h : Unbroken (a ++ b)) : Unbroken a :=
  h.of_append

/-- A member is resumed ahead of what was merged of it, or it is on record as
regressed. -/
theorem cursor_gt (h : Durable t) (hwf : t.WF files) {l : Lane φ} {mark : Mark}
    (hj : Joins files t l mark) (hk : Unbroken ((t.attach l mark).view.trace l.member)) :
    ∀ i ∈ merged (t.view.trace l.member), i < l.cursor := by
  intro i hi
  have hna : ¬ t.Attached l.member := by
    intro hat
    obtain ⟨x, hx, hxl⟩ := List.mem_map.mp hat
    exact hj.new x hx hxl
  have hpre : Unbroken (t.view.trace l.member) := by
    obtain ⟨b, hb, -⟩ := Ahead.trace_attach t l mark l.member
    rw [hb] at hk
    exact hk.of_append
  have hlt := h.resumes _ hpre hna i hi
  have hres := hj.resume
  rcases resume_cases (want (t.recovered l.member)) (files l.file).earliest (files l.file).head
    with ⟨hw, he⟩ | ⟨-, -, he⟩ | ⟨-, -, he⟩
  · rw [he, Prod.mk.injEq] at hres
    omega
  · -- the marker is attributed to this member by the table before it
    rw [he, Prod.mk.injEq] at hres
    obtain ⟨-, rfl⟩ := hres
    have hact : ((t.join l).emit (t.join l).table).view.active l.memberRef = some l.member :=
      named_retable (hwf.join hj) l (List.mem_append_right _ (List.mem_singleton_self l))
    have hmem : MemberEvent.regressed (want (t.recovered l.member) % 2 ^ 64) (files l.file).head ∈
        (t.attach l (.regressed (want (t.recovered l.member)) (files l.file).head)).view.trace
          l.member := by
      rw [Topic.attach, Mark.emitTo, view_emit, View.trace_about rfl hact]
      simp
    cases hk _ hmem
  · rw [he, Prod.mk.injEq] at hres
    omega

theorem attach (h : Durable t) (hwf : t.WF files) {l : Lane φ} {mark : Mark}
    (hj : Joins files t l mark) : Durable (t.attach l mark) := by
  have htrace := Ahead.trace_attach t l mark
  have hpre : ∀ k, Unbroken ((t.attach l mark).view.trace k) → Unbroken (t.view.trace k) := by
    intro k hk
    obtain ⟨b, hb, -⟩ := htrace k
    rw [hb] at hk
    exact hk.of_append
  have hmerged : ∀ k, merged ((t.attach l mark).view.trace k) = merged (t.view.trace k) := by
    intro k
    obtain ⟨b, hb, hnil⟩ := htrace k
    rw [hb, merged_append, hnil, List.append_nil]
  have hrec : (t.attach l mark).recovered = t.recovered := by
    cases mark <;> rfl
  refine ⟨.attach hwf hj, h.ahead.attach unbroken_of_append hwf hj (h.cursor_gt hwf hj),
    .attach t l mark, ?_, ?_⟩
  · intro k hk hne
    rw [hmerged] at hne
    exact names_attach (h.seen k (hpre k hk) hne) l mark
  · intro k hk hna i hi
    rw [hmerged] at hi
    rw [hrec]
    refine h.resumes k (hpre k hk) (fun hat => hna ?_) i hi
    obtain ⟨x, hx, rfl⟩ := List.mem_map.mp hat
    refine attached_of_mem ?_
    rw [Topic.attach, lanes_emitTo]
    exact List.mem_append_left _ hx

/-- Whole steps, if no table that names an unattached member is lost. -/
theorem steps (h : Durable t) (hwf : t.WF files)
    (hs : Relation.ReflTransGen (Step files mtu) t t')
    (hkeep : ∀ k, Unbroken (t'.view.trace k) → merged (t'.view.trace k) ≠ [] →
      ¬ t'.Attached k → Names t.kept k → Names t'.kept k) : Durable t' := by
  have hstay : ∀ t', Relation.ReflTransGen (Step files mtu) t t' →
      t'.Ahead Unbroken ∧ t'.Listed := by
    intro t' hs
    induction hs with
    | refl => exact ⟨h.ahead, h.listed⟩
    | tail hsteps hstep ih =>
        exact ⟨ih.1.step unbroken_of_append (hwf.steps hsteps) (h.named.steps hwf hsteps) hstep,
          ih.2.step hstep⟩
  obtain ⟨hahead, hlisted⟩ := hstay t' hs
  refine ⟨h.named.steps hwf hs, hahead, hlisted, ?_, ?_⟩
  · intro k hk hne
    by_cases ha : t'.Attached k
    · obtain ⟨l, hl, rfl⟩ := List.mem_map.mp ha
      exact hlisted l hl
    · have htrace := (unattached_of_steps hwf h.named hs hk ha).2.1
      refine hkeep k hk hne ha ?_
      rw [htrace] at hk hne
      exact h.seen k hk hne
  · intro k hk ha i hi
    obtain ⟨ha₀, htrace, hrec⟩ := unattached_of_steps hwf h.named hs hk ha
    rw [htrace] at hk hi
    rw [hrec]
    exact h.resumes k hk ha₀ i hi

/-- What is recovered from the retained log is ahead as well. -/
theorem reopen (h : Durable t) : Durable (fresh t.pruned t.kept : Topic φ) := by
  refine ⟨named_of_no_lanes rfl, h.ahead.congr (by simp [fresh]) rfl, by simp [Listed, fresh],
    h.seen, ?_⟩
  intro k hk _ i hi
  have hnames : Names t.kept k := h.seen k hk (List.ne_nil_of_mem hi)
  rcases view_suffix t.pruned t.kept k with ⟨-, hnext⟩ | ⟨hno, -⟩
  · exact lt_of_lt_of_eq (h.ahead.next k hk i hi) hnext.symm
  · exact absurd hnames hno

end Durable

end Topic

namespace Mux

variable {φ : Type} {c : Setup} {w w' : World φ} {t t' : Topic φ} {a : Action φ}

/-- No step loses the last retained slot table that names a member which was
merged from, was never closed nor regressed, and is not attached. -/
def KeepsTables (w w' : World φ) : Prop :=
  ∀ k, Unbroken (w'.view.trace k) → merged (w'.view.trace k) ≠ [] →
    (∀ s ∈ w'.slots, s.member ≠ k) → Names (decoded w.retained) k → Names (decoded w'.retained) k

theorem keepsTables_iff {w w' : World φ} : KeepsTables w w' ↔
    ∀ k ∈ (decoded w.retained).flatMap TopicEvent.members,
      ¬ (Unbroken (w'.view.trace k) ∧ merged (w'.view.trace k) ≠ [] ∧
        ∀ s ∈ w'.slots, s.member ≠ k) ∨
      k ∈ (decoded w'.retained).flatMap TopicEvent.members := by
  simp only [KeepsTables, names_iff, ← imp_iff_not_or]
  exact ⟨fun h k hk hall => h k hall.1 hall.2.1 hall.2.2 hk,
    fun h k hu hm hs hk => h k hk ⟨hu, hm, hs⟩⟩

instance (w w' : World φ) : Decidable (KeepsTables w w') := decidable_of_iff _ keepsTables_iff.symm

theorem Tracks.attached_iff (h : Tracks c w t) (k : Incarnation) :
    t.Attached k ↔ ∃ s ∈ w.slots, s.member = k := by
  rw [Topic.Attached, h.slots, List.map_map, List.mem_map]
  rfl

theorem Advance.durable (hadv : Advance c.geometry.mtu w w' t a t') (h : Tracks c w t)
    (h' : Tracks c w' t') (hd : t.Durable) (hkeep : KeepsTables w w') : t'.Durable := by
  cases hadv with
  | idle => exact hd
  | worked _ _ hs =>
      refine hd.steps h.wf hs fun k hk hne ha hn => ?_
      rw [← h'.names]
      rw [← h'.view] at hk hne
      refine hkeep k hk hne (fun s hs hsk => ha ?_) ((h.names k).mpr hn)
      exact (h'.attached_iff k).mpr ⟨s, hs, hsk⟩
  | bumped => exact ⟨hd.named, hd.ahead.congr (fun _ hl => hl) rfl, hd.listed, hd.seen, hd.resumes⟩
  | attached _ _ _ _ hj => exact hd.attach h.wf hj
  | died => exact hd.reopen

/-- One step of a run in which every write goes through and no table naming
an absent member is lost. -/
def Retaining [DecidableEq φ] (c : Setup) (w w' : World φ) : Prop :=
  ∃ a, Step c w a w' ∧ (a.Completes ∧ KeepsTables w w')

def IsDurable (c : Setup) (w : World φ) : Prop := ∃ t, Tracks c w t ∧ t.Durable

theorem durable_init (hw : Init w) : IsDurable c w :=
  ⟨_, .init hw, Topic.named_of_no_lanes rfl, .empty, by simp [Topic.Listed, fresh],
    fun _ _ hne => absurd rfl hne, fun _ _ _ _ hi => absurd hi List.not_mem_nil⟩

/-- **Run lemma**. -/
theorem durable_of_reachable [DecidableEq φ]
    (h : Run.Reachable (Init : World φ → Prop) (Retaining c) w) : IsDurable c w := by
  refine h.invariant (fun w hw => durable_init hw) ?_
  rintro w w' ⟨t, ht, hd⟩ ⟨a, hstep, ha, hkeep⟩
  obtain ⟨t', ht', hadv⟩ := ht.step hstep ha
  exact ⟨t', ht', hadv.durable ht ht' hd hkeep⟩

/-- A slot that was not there before an action was just attached. -/
theorem Advance.attached_slot (hadv : Advance c.geometry.mtu w w' t a t') (h : Tracks c w t)
    (h' : Tracks c w' t') {s : Slot φ} (hs : s ∈ w'.slots)
    (hnew : ∀ x ∈ w.slots, x.member ≠ s.member) :
    ∃ mark, Topic.Joins w.files t s.lane mark ∧ t' = t.attach s.lane mark := by
  have hna : ¬ t.Attached s.member := by
    rw [h.attached_iff]
    rintro ⟨x, hx, hxs⟩
    exact hnew x hx hxs
  have hl : s.lane ∈ t'.lanes := by
    rw [h'.slots]
    exact List.mem_map_of_mem hs
  have ha' : t'.Attached s.member := Topic.attached_of_mem hl
  cases hadv with
  | idle => exact absurd ha' hna
  | worked _ _ hsteps =>
      refine absurd ?_ hna
      clear h' hl
      induction hsteps with
      | refl => exact ha'
      | tail _ hstep ih => exact ih (hstep.attached ha')
  | bumped => exact absurd ha' hna
  | @attached _ _ _ _ l mark _ _ _ _ hj =>
      rw [Topic.attach, Topic.lanes_emitTo] at hl
      rcases List.mem_append.mp hl with hl | hl
      · exact absurd (Topic.attached_of_mem hl) hna
      · rw [List.mem_singleton.mp hl]
        exact ⟨mark, hj, rfl⟩
  | died => cases ha'

/-- **Progress survives retention**, in every run in which no roll drops the
last retained table naming an absent member. A member that was never closed
and never regressed is attached past every record merged of it before, and no
record of it is merged twice. -/
theorem progress_survives_retention [DecidableEq φ]
    (h : Run.Reachable (Init : World φ → Prop) (Retaining c) w) :
    (∀ k, Unbroken (w.view.trace k) → (merged (w.view.trace k)).Pairwise (· < ·)) ∧
    ∀ a w', Step c w a w' → a.Completes → ∀ s ∈ w'.slots,
      (∀ x ∈ w.slots, x.member ≠ s.member) → Unbroken (w'.view.trace s.member) →
      ∀ i ∈ merged (w.view.trace s.member), i < s.cursor := by
  obtain ⟨t, ht, hd⟩ := durable_of_reachable h
  refine ⟨fun k hk => ?_, ?_⟩
  · rw [ht.view] at hk ⊢
    exact hd.ahead.increasing k hk
  · intro a w' hstep ha s hs hnew hk i hi
    obtain ⟨t', ht', hadv⟩ := ht.step hstep ha
    obtain ⟨mark, hj, rfl⟩ := hadv.attached_slot ht ht' hs hnew
    rw [ht'.view] at hk
    rw [ht.view] at hi
    exact hd.cursor_gt ht.wf hj hk i hi

/-! ## Runs -/

/-- Of two members the second has more to say. -/
def chattyMember : Bool → Log
  | true => .ofRecords "a" 0 [⟨1, 0, []⟩]
  | false => .ofRecords "b" 0 [⟨2, 0, []⟩, ⟨2, 1, []⟩, ⟨2, 2, []⟩]

/-- Every data record starts a segment, and two segments are kept. -/
def rollingSetup : Setup := ⟨"topic", ⟨4096, 0, 1, 2⟩, 1⟩

/-- A merge whose roll sweeps the first `k` segments. -/
def mergeSweeping (i k : ℕ) : Command Bool := .op (.mergeOne i) [.done k]

theorem bounded_chattyMember : Bounded chattyMember := by
  intro f
  cases f <;> decide

/-- Both members stay attached while the record merged of the first ages out
of the topic. Its cursor is still recovered, from the tables. -/
theorem progress_survives_retention_quiet :
    ∃ (w w' : World Bool) (s : Slot Bool), s ∈ w'.slots ∧ s.member = ("a", 0) ∧
      0 ∈ merged (w.view.trace ("a", 0)) ∧
      .data 0 0 ⟨1, 0, []⟩ ∉ decoded w.retained ∧ 0 < s.cursor := by
  obtain ⟨w, a, w', hreach, hstep, ha, hmem, hgone, hnew, hk, s, hs, hsa⟩ :=
    World.exists_reachable_step rollingSetup (fun w a w' => a.Completes ∧ KeepsTables w w')
      ⟨chattyMember, .closed none, []⟩
      [.open, .op (.addMember "a" 0 (some true)) [], .op (.addMember "b" 0 (some false)) [],
        mergeSweeping 0 0, mergeSweeping 1 1, mergeSweeping 1 2, .kill, .open]
      (.op (.addMember "a" 0 (some true)) [])
      (fun w a w' => a.writeFailed = false ∧ 0 ∈ merged (w.view.trace ("a", 0)) ∧
        .data 0 0 ⟨1, 0, []⟩ ∉ decoded w.retained ∧ (∀ y ∈ w.slots, y.member ≠ ("a", 0)) ∧
        Unbroken (w'.view.trace ("a", 0)) ∧ ∃ s ∈ w'.slots, s.member = ("a", 0))
      (init_mk bounded_chattyMember) (by decide +kernel)
  refine ⟨w, w', s, hs, hsa, hmem, hgone, ?_⟩
  exact (progress_survives_retention hreach).2 a w' hstep ha s hs (by rw [hsa]; exact hnew)
    (by rw [hsa]; exact hk) 0 (by rw [hsa]; exact hmem)

/-- Retention left a closed segment that holds records, if there is any. -/
def World.leavesSegment (w : World φ) : Bool :=
  match w.session with
  | .closed _ => true
  | .running m _ => m.topic.log.closed.isEmpty ||
      (m.topic.log.closed.drop m.topic.log.pruned).any fun segment => !segment.isEmpty

/-- **A member's progress is forgotten.** Record 0 of `a` is merged in the
first session. The second session does not attach `a`, and two rolls of it
drop the segments whose tables name `a`, each leaving the newest closed
segment. In the third session `a` is attached at 0 again. -/
theorem forgotten_member :
    0 < rollingSetup.geometry.fileRollSize ∧ 1 ≤ rollingSetup.geometry.keepFiles ∧
    ∃ (w : World Bool) (a : Action Bool) (w' : World Bool),
      Run.Reachable Init (fun w w' => ∃ a, Step rollingSetup w a w' ∧
        (a.Completes ∧ w'.leavesSegment = true)) w ∧
      Step rollingSetup w a w' ∧ a.writeFailed = false ∧ ∃ s ∈ w'.slots, s.member = ("a", 0) ∧
        (∀ x ∈ w.slots, x.member ≠ s.member) ∧ Unbroken (w'.view.trace s.member) ∧
        0 ∈ merged (w.openedView.trace s.member) ∧ ¬ 0 < s.cursor := by
  refine ⟨by decide, by decide, ?_⟩
  exact World.exists_reachable_step rollingSetup
    (fun _ a w' => a.Completes ∧ w'.leavesSegment = true)
    ⟨chattyMember, .closed none, []⟩
    [.open, .op (.addMember "a" 0 (some true)) [], mergeSweeping 0 0, .kill,
      .open, .op (.addMember "b" 0 (some false)) [], mergeSweeping 0 1, mergeSweeping 0 2, .kill,
      .open]
    (.op (.addMember "a" 0 (some true)) []) _
    (init_mk bounded_chattyMember) (by decide +kernel)

end Mux

end XchannelNet
