import XchannelNet.Mux.Sessions

/-!
# Cursor recovery is exact

In a run without failing writes and without pruning, what `recover_cursors`
gives for an attached member never passes the slot's cursor, and falls short
of it only by records that can never be merged. The invariant is `Synced`:
the table in force names every lane, and between the index the log says to
resume at and the lane's cursor there are only rejected records.
-/

namespace XchannelNet

open Mux

namespace Topic

variable {φ : Type} {files files' : φ → Log} {mtu : UInt32} {t t' : Topic φ}

structure Synced (files : φ → Log) (mtu : UInt32) (t : Topic φ) : Prop where
  named : t.Named
  level : t.Level
  next_le : ∀ l ∈ t.lanes, t.view.next l.member ≤ l.cursor
  passed : ∀ l ∈ t.lanes, ∀ i, t.view.next l.member ≤ i → i < l.cursor →
    ∃ r, (files l.file).get? i = some r ∧ rejects mtu r = true

namespace Synced

/-- Only the lanes and the scan matter. -/
theorem congr (h : Synced files mtu t) (hl : t'.lanes = t.lanes)
    (hv : t'.view.toScan = t.view.toScan) : Synced files mtu t' := by
  have hnext : ∀ k, t'.view.next k = t.view.next k := fun k => by rw [View.next, View.next, hv]
  constructor
  · exact h.named.congr (fun x hx => ⟨x, hl ▸ hx, rfl, rfl⟩) (congrArg Scan.active hv)
  · rw [Level, hl]
    exact h.level
  · simp only [hl, hnext]
    exact h.next_le
  · simp only [hl, hnext]
    exact h.passed

/-- A table just written says all there is to say. -/
theorem retable (hwf : t.WF files) (hlevel : t.Level) :
    Synced files mtu (t.emit t.table) where
  named := named_retable hwf
  level := hlevel
  next_le l hl := by
    rw [view_emit, hwf.next_table t.view hl]
  passed l hl i hi hlt := by
    rw [view_emit, hwf.next_table t.view hl] at hi
    omega

theorem reject (h : Synced files mtu t) (hwf : t.WF files) {i : ℕ} {l : Lane φ} {r : Record}
    (hr : Reads files t i l r) (hrej : rejects mtu r = true) :
    Synced files mtu (t.setLane i l.pass) := by
  have hmem := mem_of_lane hr.lane
  have hlev := h.level l hmem
  constructor
  · exact h.named.setLane hr.lane l.pass rfl rfl rfl rfl
  · exact h.level.pass i l
  · intro x hx
    rcases hwf.mem_setLane hr.lane hx with rfl | ⟨hx, -⟩
    · have := h.next_le l hmem
      show t.view.next l.member ≤ l.position + 1
      omega
    · exact h.next_le x hx
  · intro x hx j hj hlt
    rcases hwf.mem_setLane hr.lane hx with rfl | ⟨hx, -⟩
    · -- the record just passed, or one passed before
      have hlt' : j < l.position + 1 := hlt
      by_cases hjp : j = l.position
      · exact ⟨r, hjp ▸ hr.record, hrej⟩
      · exact h.passed l hmem j hj (by omega)
    · exact h.passed x hx j hj hlt

theorem merge (h : Synced files mtu t) (hwf : t.WF files) {i : ℕ} {l : Lane φ} {r : Record}
    (hr : Reads files t i l r) :
    Synced files mtu ((t.setLane i l.pass).emit (.data l.memberRef l.position r)) := by
  have hmem := mem_of_lane hr.lane
  have hlev := h.level l hmem
  have hact := h.named l hmem
  have hnext : (t.view.step (.data l.memberRef l.position r)).next l.member = l.position + 1 := by
    have := h.next_le l hmem
    rw [View.next_data hact]
    omega
  constructor
  · refine h.named.setLane hr.lane l.pass rfl rfl rfl ?_
    rw [view_emit]
    exact View.active_data _ _ _
  · exact h.level.pass i l
  · intro x hx
    rw [view_emit, view_setLane]
    rcases hwf.mem_setLane hr.lane hx with rfl | ⟨hx, hne⟩
    · exact hnext.le
    · -- another lane is of another member, which the record says nothing about
      rw [View.next_data_of_ne hact hne]
      exact h.next_le x hx
  · intro x hx j hj hlt
    rw [view_emit, view_setLane] at hj
    rcases hwf.mem_setLane hr.lane hx with rfl | ⟨hx, hne⟩
    · have hlt' : j < l.position + 1 := hlt
      have hj' := hnext ▸ hj
      omega
    · rw [View.next_data_of_ne hact hne] at hj
      exact h.passed x hx j hj hlt

/-- **Step lemma**: every whole step keeps the log and the lanes in sync. -/
theorem step (h : Synced files mtu t) (hwf : t.WF files) (hs : Step files mtu t t') :
    Synced files mtu t' := by
  cases hs with
  | reject hr hrej => exact (h.reject hwf hr hrej).congr rfl rfl
  | merge hr => exact h.merge hwf hr
  | refresh => exact retable hwf h.level
  | roll hk => exact retable (t := t.sweep _ _) (hwf.congr rfl rfl) h.level
  | closing => exact h.congr rfl (by rw [view_emit]; exact View.step_marker trivial)
  | detach =>
      exact retable (hwf.leave _) fun x hx => h.level x ((List.eraseIdx_sublist _ _).mem hx)
  | terminal => exact h.congr rfl (by rw [view_emit]; exact View.step_marker trivial)

theorem attach (h : Synced files mtu t) (hwf : t.WF files) {l : Lane φ} {mark : Mark}
    (hj : Joins files t l mark) : Synced files mtu (t.attach l mark) := by
  have hlevel : (t.join l).Level := Sequence.forall_mem_concat h.level hj.position
  exact (retable (hwf.join hj) hlevel).congr (lanes_emitTo _ _ _) (scan_emitTo _ _ _)

theorem steps (h : Synced files mtu t) (hwf : t.WF files)
    (hs : Relation.ReflTransGen (Step files mtu) t t') : Synced files mtu t' := by
  induction hs with
  | refl => exact h
  | tail hsteps hstep ih => exact ih.step (hwf.steps hsteps) hstep

theorem grow (h : Synced files mtu t) (hg : FilesGrow files files') : Synced files' mtu t :=
  { h with
    passed := fun l hl i hi hlt => by
      obtain ⟨r, hr, hrej⟩ := h.passed l hl i hi hlt
      exact ⟨r, hg.get? hr, hrej⟩ }

theorem of_no_lanes (h : t.lanes = []) : Synced files mtu t :=
  ⟨named_of_no_lanes h, by simp [Level, h], by simp [h], by simp [h]⟩

end Synced

end Topic

namespace Mux

variable {φ : Type} {c : Setup} {w w' : World φ} {t t' : Topic φ} {a : Action φ}

theorem Advance.synced (h : Advance c.geometry.mtu w w' t a t') (hwf : t.WF w.files)
    (hs : Topic.Synced w.files c.geometry.mtu t) : Topic.Synced w'.files c.geometry.mtu t' := by
  cases h with
  | idle hg => exact hs.grow hg
  | worked hf _ hsteps =>
      rw [hf]
      exact hs.steps hwf hsteps
  | bumped hf =>
      rw [hf]
      exact hs.congr rfl rfl
  | attached hf _ _ _ hj =>
      rw [hf]
      exact hs.attach hwf hj
  | died => exact .of_no_lanes rfl

/-- The topic behind a world is in sync with its log. -/
def InSync (c : Setup) (w : World φ) : Prop :=
  ∃ t, Tracks c w t ∧ Topic.Synced w.files c.geometry.mtu t

/-- **Run lemma**. -/
theorem inSync_of_reachable [DecidableEq φ]
    (h : Run.Reachable (Init : World φ → Prop) (Completed c) w) : InSync c w := by
  refine h.invariant (fun w hw => ⟨_, .init hw, .of_no_lanes rfl⟩) ?_
  rintro w w' ⟨t, ht, hs⟩ ⟨a, hstep, ha⟩
  obtain ⟨t', ht', hadv⟩ := ht.step hstep ha
  exact ⟨t', ht', hadv.synced ht.wf hs⟩

/-- With nothing pruned the scan sees the whole log. -/
theorem recoverCursors_of_unpruned (h : Tracks c w t) (hp : w.retained = w.records) :
    recoverCursors w.retained = .ok t.view.out := by
  rw [recoverCursors_ok h.retained, Topic.view, Topic.history, h.pruned_eq_nil hp, List.nil_append]

/-- **Cursor recovery is exact.** In any run over any number of sessions, with
every write going through and nothing of the topic pruned: what a scan of the
topic gives for an attached member is at most the slot's cursor, and every
member record between the two is one that `merge_one` rejects. -/
theorem recovered_cursor_exact [DecidableEq φ]
    (h : Run.Reachable (Init : World φ → Prop) (Completed c) w) (hp : w.retained = w.records) :
    ∃ out, recoverCursors w.retained = .ok out ∧ ∀ s ∈ w.slots,
      want (out s.member) ≤ s.cursor ∧
      ∀ i, want (out s.member) ≤ i → i < s.cursor →
        ∃ r, (w.files s.file).get? i = some r ∧ rejects c.geometry.mtu r = true := by
  obtain ⟨t, ht, hs⟩ := inSync_of_reachable h
  refine ⟨t.view.out, recoverCursors_of_unpruned ht hp, fun s hmem => ?_⟩
  have hl : s.lane ∈ t.lanes := by
    rw [ht.slots]
    exact List.mem_map_of_mem (f := Slot.lane) hmem
  exact ⟨hs.next_le _ hl, hs.passed _ hl⟩

/-- Two members; the second record of the first uses a reserved type. -/
def twoMembers : Bool → Log
  | true => .ofRecords "a" 0 [⟨1, 0, []⟩, ⟨0xFFFF, 0, []⟩]
  | false => .ofRecords "b" 0 [⟨2, 0, []⟩]

/-- Two sessions: `a` has ref 0 in the first, `b` in the second. -/
def refReused : List (Command Bool) :=
  [.open, .op (.addMember "a" 0 (some true)) [], .op (.mergeOne 0) [], .kill,
    .open, .op (.addMember "b" 0 (some false)) [], .op (.addMember "a" 0 (some true)) [],
    .op .poll []]

/-- `a` resumes where it was, and its second record is passed over. -/
theorem recovered_cursor_exact_ref_reused :
    ∃ w : World Bool,
      w.slots.map (fun s => (s.name, s.memberRef, s.cursor)) = [("b", 0, 1), ("a", 1, 2)] ∧
      ∃ out, recoverCursors w.retained = .ok out ∧ ∀ s ∈ w.slots,
        want (out s.member) ≤ s.cursor ∧
        ∀ i, want (out s.member) ≤ i → i < s.cursor →
          ∃ r, (w.files s.file).get? i = some r ∧
            rejects plainSetup.geometry.mtu r = true := by
  have hbounded : Bounded twoMembers := by
    intro f
    cases f <;> decide
  obtain ⟨w, hreach, hslots, hp⟩ := World.exists_reachable plainSetup (fun _ a _ => a.Completes)
    ⟨twoMembers, .closed none, []⟩ refReused
    (fun w => w.slots.map (fun s => (s.name, s.memberRef, s.cursor)) =
      [("b", 0, 1), ("a", 1, 2)] ∧ w.retained = w.records)
    (init_mk hbounded) (by decide +kernel)
  exact ⟨w, hslots, recovered_cursor_exact hreach hp⟩

end Mux

end XchannelNet
