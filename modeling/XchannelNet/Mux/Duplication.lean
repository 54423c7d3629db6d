import XchannelNet.Mux.Progress

/-!
# A member record is merged at most once

Where a member is resumed comes from a map that is filled once, when the topic
is opened. A member that is removed and attached again in the same session is
resumed where it stood at the open, and everything merged of it since is
merged again (`merged_twice`).

If no session attaches a member that it has already merged a record of, the
indices merged of every member increase strictly (`merged_at_most_once`). The
setting is that of every write going through, nothing of the topic pruned, and
one log per member, which only grows.
-/

namespace XchannelNet

open Mux

namespace Topic

variable {φ : Type} {files files' : φ → Log} {mtu : UInt32} {t t' : Topic φ}
  {fileOf : Incarnation → φ} {opened : View}

/-- Cursors are ahead of what was merged, and so is what was recovered at the
open, of what was merged by then. Nothing points past a member's log. -/
structure Resumable (files : φ → Log) (fileOf : Incarnation → φ) (opened : View) (t : Topic φ) :
    Prop where
  named : t.Named
  ahead : t.Ahead fun _ => True
  file : ∀ l ∈ t.lanes, l.file = fileOf l.member
  next_le : ∀ k, t.view.next k ≤ (files (fileOf k)).head
  recovered_le : ∀ k, want (t.recovered k) ≤ (files (fileOf k)).head
  resumes : ∀ k, ∀ i ∈ merged (opened.trace k), i < want (t.recovered k)

namespace Resumable

/-- A table says where the lanes are, which is inside their logs. -/
theorem next_table_le (h : ∀ k, t.view.next k ≤ (files (fileOf k)).head) (hwf : t.WF files)
    (hfile : ∀ l ∈ t.lanes, l.file = fileOf l.member) (k : Incarnation) :
    (t.view.step t.table).next k ≤ (files (fileOf k)).head := by
  by_cases hk : ∃ l ∈ t.lanes, l.member = k
  · obtain ⟨l, hl, rfl⟩ := hk
    rw [hwf.next_table t.view hl, ← hfile l hl]
    exact (hwf.cursor l hl).trans (hwf.position l hl)
  · rw [next_table_of_not_mem t.view fun l hl hlk => hk ⟨l, hl, hlk⟩]
    exact h k

theorem file_pass (h : ∀ l ∈ t.lanes, l.file = fileOf l.member) {i : ℕ} {l : Lane φ}
    (hi : t.lanes[i]? = some l) :
    ∀ x ∈ (t.setLane i l.pass).lanes, x.file = fileOf x.member :=
      Sequence.forall_mem_set h _ (h l (mem_of_lane hi))

/-- The lanes and the log, step by step; nothing else changes. -/
theorem file_next_step (h : Resumable files fileOf opened t) (hwf : t.WF files)
    (hs : Step files mtu t t') :
    (∀ l ∈ t'.lanes, l.file = fileOf l.member) ∧
      ∀ k, t'.view.next k ≤ (files (fileOf k)).head := by
  have hmarker : ∀ e : TopicEvent, e.Marker → ∀ k,
      (t.emit e).view.next k ≤ (files (fileOf k)).head := by
    intro e he k
    rw [view_emit, View.next, View.step_marker he]
    exact h.next_le k
  cases hs with
  | reject hr => exact ⟨file_pass h.file hr.lane, h.next_le⟩
  | @merge i l r hr =>
      refine ⟨file_pass h.file hr.lane, fun k => ?_⟩
      have hact := h.named l (mem_of_lane hr.lane)
      rw [view_emit, view_setLane]
      by_cases hk : k = l.member
      · subst hk
        have hlt := hr.position_lt
        have hle := h.next_le l.member
        rw [h.file l (mem_of_lane hr.lane)] at hlt
        rw [View.next_data hact]
        omega
      · rw [View.next_data_of_ne hact hk]
        exact h.next_le k
  | refresh =>
      refine ⟨h.file, fun k => ?_⟩
      rw [view_emit]
      exact next_table_le h.next_le hwf h.file k
  | @roll a b hk =>
      refine ⟨h.file, fun k => ?_⟩
      rw [view_emit, view_sweep hk]
      exact next_table_le h.next_le hwf h.file k
  | closing => exact ⟨h.file, hmarker _ trivial⟩
  | @detach before i l hi hclosed =>
      have hfile : ∀ x ∈ (t.leave i).lanes, x.file = fileOf x.member := fun x hx =>
        h.file x ((List.eraseIdx_sublist _ _).mem hx)
      refine ⟨hfile, fun k => ?_⟩
      rw [view_emit]
      exact next_table_le (t := t.leave i) h.next_le (hwf.leave i) hfile k
  | terminal => exact ⟨h.file, hmarker _ trivial⟩

/-- **Step lemma**. -/
theorem step (h : Resumable files fileOf opened t) (hwf : t.WF files)
    (hs : Step files mtu t t') : Resumable files fileOf opened t' := by
  obtain ⟨hfile, hnext⟩ := h.file_next_step hwf hs
  refine ⟨h.named.step hwf hs, h.ahead.step (fun _ _ _ => trivial) hwf h.named hs, hfile, hnext,
    ?_, ?_⟩
  · rw [hs.recovered]
    exact h.recovered_le
  · rw [hs.recovered]
    exact h.resumes

theorem steps (h : Resumable files fileOf opened t) (hwf : t.WF files)
    (hs : Relation.ReflTransGen (Step files mtu) t t') : Resumable files fileOf opened t' := by
  induction hs with
  | refl => exact h
  | tail hsteps hstep ih => exact ih.step (hwf.steps hsteps) hstep

theorem grow (h : Resumable files fileOf opened t) (hg : FilesGrow files files') :
    Resumable files' fileOf opened t :=
  { h with
    next_le := fun k => (h.next_le k).trans (hg.head_le _)
    recovered_le := fun k => (h.recovered_le k).trans (hg.head_le _) }

/-- A member of which nothing was merged since the open is resumed ahead of
all that was merged of it. -/
theorem cursor_gt (h : Resumable files fileOf opened t) {l : Lane φ} {mark : Mark}
    (hj : Joins files t l mark) (hfile : l.file = fileOf l.member)
    (hsame : merged (t.view.trace l.member) = merged (opened.trace l.member)) :
    ∀ i ∈ merged (t.view.trace l.member), i < l.cursor := by
  intro i hi
  rw [hsame] at hi
  have hlt := h.resumes l.member i hi
  have hle := h.recovered_le l.member
  rw [← hfile] at hle
  have hres := hj.resume
  rcases resume_cases (want (t.recovered l.member)) (files l.file).earliest (files l.file).head
    with ⟨hw, he⟩ | ⟨-, hw, -⟩ | ⟨-, -, he⟩
  · rw [he, Prod.mk.injEq] at hres
    omega
  · -- the log does not end before what was recovered
    omega
  · rw [he, Prod.mk.injEq] at hres
    omega

theorem attach (h : Resumable files fileOf opened t) (hwf : t.WF files) {l : Lane φ} {mark : Mark}
    (hj : Joins files t l mark) (hfile : l.file = fileOf l.member)
    (hsame : merged (t.view.trace l.member) = merged (opened.trace l.member)) :
    Resumable files fileOf opened (t.attach l mark) := by
  have hrec : (t.attach l mark).recovered = t.recovered := by cases mark <;> rfl
  have hlanes : ∀ x ∈ (t.join l).lanes, x.file = fileOf x.member :=
    Sequence.forall_mem_concat h.file hfile
  refine ⟨.attach hwf hj,
    h.ahead.attach (fun _ _ _ => trivial) hwf hj fun _ => h.cursor_gt hj hfile hsame,
    ?_, ?_, ?_, ?_⟩
  · intro x hx
    rw [Topic.attach, lanes_emitTo] at hx
    exact hlanes x hx
  · intro k
    rw [Ahead.next_attach]
    exact next_table_le (t := t.join l) h.next_le (hwf.join hj) hlanes k
  · rw [hrec]
    exact h.recovered_le
  · rw [hrec]
    exact h.resumes

/-- With nothing pruned, what is recovered is what the log says. -/
theorem reopen (h : Resumable files fileOf opened t) (hp : t.pruned = []) :
    Resumable files fileOf t.view (fresh t.pruned t.kept : Topic φ) := by
  have hnext : ∀ k, want ((fresh t.pruned t.kept : Topic φ).recovered k) = t.view.next k := by
    intro k
    show (Mux.view t.kept).next k = (Mux.view (t.pruned ++ t.kept)).next k
    rw [hp, List.nil_append]
  refine ⟨named_of_no_lanes rfl, h.ahead.congr (by simp [fresh]) rfl, by simp [fresh], h.next_le,
    ?_, ?_⟩
  · intro k
    rw [hnext]
    exact h.next_le k
  · intro k i hi
    rw [hnext]
    exact h.ahead.next k trivial i hi

theorem empty : Resumable files fileOf View.init (fresh [] [] : Topic φ) :=
  ⟨named_of_no_lanes rfl, .empty, by simp [fresh], fun _ => Nat.zero_le _, fun _ => Nat.zero_le _,
    fun _ _ hi => absurd hi List.not_mem_nil⟩

end Resumable

end Topic

namespace Mux

variable {φ : Type} {c : Setup} {w w' : World φ} {t t' : Topic φ} {a : Action φ}
  {fileOf : Incarnation → φ}

/-- Every write goes through, nothing of the topic is pruned, and a member is
always attached to its own log. -/
def Undisturbed (fileOf : Incarnation → φ) (a : Action φ) (w' : World φ) : Prop :=
  a.Completes ∧ w'.retained = w'.records ∧
    match a with
    | .op (.addMember name epoch (some file)) _ _ => file = fileOf (name, epoch)
    | _ => True

/-- No member is attached that a record was merged of since the topic was
opened. -/
def AttachesUnmerged (w : World φ) : Action φ → Prop
  | .op (.addMember name epoch _) _ _ => (∀ s ∈ w.slots, s.member ≠ (name, epoch)) →
      merged (w.view.trace (name, epoch)) = merged (w.openedView.trace (name, epoch))
  | _ => True

/-- The member an `add_member` is for, and what is at its path. -/
def Action.addition : Action φ → Option (Incarnation × Option φ)
  | .op (.addMember name epoch file) _ _ => some ((name, epoch), file)
  | _ => none

theorem undisturbed_iff : Undisturbed fileOf a w' ↔ a.Completes ∧ w'.retained = w'.records ∧
    ∀ x ∈ a.addition, ∀ file ∈ x.2, file = fileOf x.1 := by
  rcases a with _ | _ | ⟨⟨name, epoch, file⟩ | _ | _ | _ | _⟩ | _
  case op.addMember =>
      cases file <;> simp [Undisturbed, Action.addition]
  all_goals simp [Undisturbed, Action.addition]

instance [DecidableEq φ] : Decidable (Undisturbed fileOf a w') :=
  decidable_of_iff _ undisturbed_iff.symm

theorem attachesUnmerged_iff : AttachesUnmerged w a ↔ ∀ x ∈ a.addition,
    ¬ (∀ s ∈ w.slots, s.member ≠ x.1) ∨
      merged (w.view.trace x.1) = merged (w.openedView.trace x.1) := by
  rcases a with _ | _ | ⟨⟨name, epoch, file⟩ | _ | _ | _ | _⟩ | _
  case op.addMember =>
      rw [AttachesUnmerged, imp_iff_not_or]
      simp [Action.addition]
  all_goals simp [AttachesUnmerged, Action.addition]

instance : Decidable (AttachesUnmerged w a) := decidable_of_iff _ attachesUnmerged_iff.symm

def IsResumable (c : Setup) (fileOf : Incarnation → φ) (w : World φ) : Prop :=
  ∃ t, Tracks c w t ∧ t.Resumable w.files fileOf w.openedView

/-- **Step lemma**. -/
theorem IsResumable.step [DecidableEq φ] (h : IsResumable c fileOf w) (hs : Step c w a w')
    (hu : Undisturbed fileOf a w') (hm : AttachesUnmerged w a) : IsResumable c fileOf w' := by
  obtain ⟨t, ht, hr⟩ := h
  obtain ⟨t', ht', hadv⟩ := ht.step hs hu.1
  refine ⟨t', ht', ?_⟩
  cases hadv with
  | idle hg ho =>
      rw [ho]
      exact hr.grow hg
  | worked hf ho hsteps =>
      rw [hf, ho]
      exact hr.steps ht.wf hsteps
  | bumped hf ho =>
      rw [hf, ho]
      exact ⟨hr.named, hr.ahead.congr (fun _ hl => hl) rfl, hr.file, hr.next_le, hr.recovered_le,
        hr.resumes⟩
  | @attached name epoch file outcomes l mark hf ho hmem hfile hj =>
      rw [hf, ho]
      subst hfile
      refine hr.attach ht.wf hj (hu.2.2.trans (congrArg fileOf hmem.symm)) ?_
      rw [hmem, ← ht.view]
      refine hm fun s hs hsk => hj.new s.lane ?_ (hsk.trans hmem.symm)
      rw [ht.slots]
      exact List.mem_map_of_mem hs
  | died hf ho =>
      rw [hf, ho]
      exact hr.reopen (ht'.pruned_eq_nil hu.2.1)

/-- **A member record is merged at most once**, in every run in which no
session attaches a member that it has merged a record of. -/
theorem merged_at_most_once [DecidableEq φ] (fileOf : Incarnation → φ)
    (h : Run.Reachable (Init : World φ → Prop) (fun w w' =>
      ∃ a, Step c w a w' ∧ (Undisturbed fileOf a w' ∧ AttachesUnmerged w a)) w) (k : Incarnation) :
    (merged (w.view.trace k)).Pairwise (· < ·) := by
  have hr : IsResumable c fileOf w := by
    refine h.invariant (fun w hw => ⟨_, .init hw, ?_⟩) ?_
    · have hview : w.openedView = View.init := by
        rw [World.openedView, World.view, World.records, hw.1]
        rfl
      rw [hview]
      exact .empty
    · rintro w w' hr ⟨a, hstep, hu, hm⟩
      exact hr.step hstep hu hm
  obtain ⟨t, ht, hr⟩ := hr
  rw [ht.view]
  exact hr.ahead.increasing k trivial

/-! ## Runs -/

/-- One member with two records. -/
def twoRecords : Unit → Log := fun _ => .ofRecords "a" 0 [⟨1, 0, []⟩, ⟨1, 1, []⟩]

theorem bounded_twoRecords : Bounded twoRecords := by
  intro f
  cases f
  decide

/-- `a` is drained, removed, and attached again by the next session. -/
theorem merged_at_most_once_over_sessions :
    ∃ w : World Unit, merged (w.view.trace ("a", 0)) = [0, 1, 2] ∧
      (merged (w.view.trace ("a", 0))).Pairwise (· < ·) := by
  obtain ⟨w, hreach, hm⟩ := World.exists_reachable plainSetup
    (fun w a w' => Undisturbed (fun _ => ()) a w' ∧ AttachesUnmerged w a)
    ⟨twoRecords, .closed none, []⟩
    [.open, .op (.addMember "a" 0 (some ())) [], .op .poll [], .op (.removeMember "a" 0) [], .kill,
      .open, .append () ⟨1, 2, []⟩, .op (.addMember "a" 0 (some ())) [], .op .poll []]
    (fun w => merged (w.view.trace ("a", 0)) = [0, 1, 2])
    (init_mk bounded_twoRecords) (by decide +kernel)
  exact ⟨w, hm, merged_at_most_once (fun _ => ()) hreach ("a", 0)⟩

/-- **A record is merged twice.** In one session `a` is attached, merged from,
removed and attached again. It is resumed where it was when the topic was
opened. -/
theorem merged_twice :
    ∃ w : World Unit,
      Run.Reachable Init (fun w w' =>
        ∃ a, Step plainSetup w a w' ∧ Undisturbed (fun _ => ()) a w') w ∧
      merged (w.view.trace ("a", 0)) = [0, 1, 0] ∧
      ¬ (merged (w.view.trace ("a", 0))).Pairwise (· < ·) := by
  obtain ⟨w, hreach, hm⟩ := World.exists_reachable plainSetup
    (fun _ a w' => Undisturbed (fun _ => ()) a w')
    ⟨twoRecords, .closed none, []⟩
    [.open, .op (.addMember "a" 0 (some ())) [], .op .poll [], .op (.removeMember "a" 0) [],
      .op (.addMember "a" 0 (some ())) [], .op .poll []]
    (fun w => merged (w.view.trace ("a", 0)) = [0, 1, 0])
    (init_mk bounded_twoRecords) (by decide +kernel)
  refine ⟨w, hreach, hm, ?_⟩
  rw [hm]
  decide

end Mux

end XchannelNet
