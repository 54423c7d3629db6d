import XchannelNet.Mux.Sessions

/-!
# Progress — every cursor is ahead of what was merged

The argument against merging a record twice, apart from what makes it true at
the start: as long as a member is attached ahead of all its merged records,
its cursor, and the index the log says to resume it at, stay ahead of them,
and its merged indices increase.

The members it is argued for are given by a property `P` of a member's trace
that is inherited from longer traces to shorter ones: all members, or those
that were never closed and never regressed.
-/

namespace XchannelNet

open Mux

theorem Mux.merged_append (a b : List MemberEvent) : merged (a ++ b) = merged a ++ merged b :=
  List.filterMap_append

theorem Mux.View.merged_said {v : View} {e : TopicEvent} (he : e.Marker) (k : Incarnation) :
    merged (v.said e k) = [] := by
  rcases View.said_marker (v := v) he k with h | ⟨me, h, hme⟩
  · rw [h]
    rfl
  · rw [h]
    simp [merged, hme]

theorem Mux.Unbroken.of_append {a b : List MemberEvent} (h : Unbroken (a ++ b)) : Unbroken a :=
  fun e he => h e (List.mem_append_left _ he)

namespace Topic

variable {φ : Type} {files : φ → Log} {mtu : UInt32} {t t' : Topic φ}
  {P : List MemberEvent → Prop}

structure Ahead (P : List MemberEvent → Prop) (t : Topic φ) : Prop where
  lane : ∀ l ∈ t.lanes, P (t.view.trace l.member) →
    ∀ i ∈ merged (t.view.trace l.member), i < l.cursor
  next : ∀ k, P (t.view.trace k) → ∀ i ∈ merged (t.view.trace k), i < t.view.next k
  increasing : ∀ k, P (t.view.trace k) → (merged (t.view.trace k)).Pairwise (· < ·)

namespace Ahead

theorem congr (h : Ahead P t) (hl : ∀ l ∈ t'.lanes, l ∈ t.lanes) (hv : t'.view = t.view) :
    Ahead P t' := by
  constructor
  · intro l hmem
    rw [hv]
    exact h.lane l (hl l hmem)
  · rw [hv]
    exact h.next
  · rw [hv]
    exact h.increasing

theorem trace_table (t : Topic φ) (k : Incarnation) :
    (t.emit t.table).view.trace k = t.view.trace k := by
  rw [view_emit, View.trace_step]
  exact List.append_nil _

theorem retable (h : Ahead P t) (hwf : t.WF files) : Ahead P (t.emit t.table) := by
  constructor
  · intro l hl hP
    rw [trace_table] at hP ⊢
    exact h.lane l hl hP
  · intro k hP i hi
    rw [trace_table] at hP hi
    rw [view_emit]
    by_cases hk : ∃ l ∈ t.lanes, l.member = k
    · obtain ⟨l, hl, rfl⟩ := hk
      rw [hwf.next_table t.view hl]
      exact h.lane l hl hP i hi
    · rw [next_table_of_not_mem t.view fun l hl hk' => hk ⟨l, hl, hk'⟩]
      exact h.next k hP i hi
  · intro k hP
    rw [trace_table] at hP ⊢
    exact h.increasing k hP

/-- Markers are no progress. -/
theorem marker (h : Ahead P t) (hP : ∀ a b, P (a ++ b) → P a) {e : TopicEvent} (he : e.Marker) :
    Ahead P (t.emit e) := by
  have hmerged : ∀ k, merged ((t.emit e).view.trace k) = merged (t.view.trace k) := fun k => by
    rw [view_emit, View.trace_step, merged_append, View.merged_said he, List.append_nil]
  have hPk : ∀ k, P ((t.emit e).view.trace k) → P (t.view.trace k) := fun k hk => by
    rw [view_emit, View.trace_step] at hk
    exact hP _ _ hk
  have hnext : ∀ k, (t.emit e).view.next k = t.view.next k := fun k => by
    rw [view_emit, View.next, View.next, View.step_marker he]
  constructor
  · intro l hl hk i hi
    rw [hmerged] at hi
    exact h.lane l hl (hPk _ hk) i hi
  · intro k hk i hi
    rw [hmerged] at hi
    rw [hnext]
    exact h.next k (hPk _ hk) i hi
  · intro k hk
    rw [hmerged]
    exact h.increasing k (hPk _ hk)

theorem merge (h : Ahead P t) (hP : ∀ a b, P (a ++ b) → P a) (hwf : t.WF files)
    (hn : t.Named) {i : ℕ} {l : Lane φ} {r : Record} (hr : Reads files t i l r) :
    Ahead P ((t.setLane i l.pass).emit (.data l.memberRef l.position r)) := by
  have hmem := mem_of_lane hr.lane
  have hact := hn l hmem
  have hcur := hwf.cursor l hmem
  have htrace : (t.view.step (.data l.memberRef l.position r)).trace l.member =
      t.view.trace l.member ++ [.data l.position r] := View.trace_about_self rfl hact
  have hself : merged ((t.view.step (.data l.memberRef l.position r)).trace l.member) =
      merged (t.view.trace l.member) ++ [l.position] := by
    rw [htrace, merged_append]
    rfl
  -- what was merged of this member before is below the record now merged
  have hbelow : P ((t.view.step (.data l.memberRef l.position r)).trace l.member) →
      ∀ j ∈ merged (t.view.trace l.member), j < l.position := by
    intro hk j hj
    rw [htrace] at hk
    exact lt_of_lt_of_le (h.lane l hmem (hP _ _ hk) j hj) hcur
  have hle : P ((t.view.step (.data l.memberRef l.position r)).trace l.member) →
      ∀ j ∈ merged ((t.view.step (.data l.memberRef l.position r)).trace l.member),
        j < l.position + 1 := by
    intro hk j hj
    rw [hself, List.mem_append, List.mem_singleton] at hj
    rcases hj with hj | rfl
    · have := hbelow hk j hj
      omega
    · omega
  constructor
  · intro x hx hk j hj
    rw [view_emit, view_setLane] at hk hj
    rcases hwf.mem_setLane hr.lane hx with rfl | ⟨hx, hne⟩
    · exact hle hk j hj
    · rw [View.trace_about_of_ne rfl hact hne] at hk hj
      exact h.lane x hx hk j hj
  · intro k hk j hj
    rw [view_emit, view_setLane] at hk hj ⊢
    by_cases hkl : k = l.member
    · subst hkl
      rw [View.next_data hact]
      exact lt_of_lt_of_le (hle hk j hj) (le_max_right _ _)
    · rw [View.trace_about_of_ne rfl hact hkl] at hk hj
      rw [View.next_data_of_ne hact hkl]
      exact h.next k hk j hj
  · intro k hk
    rw [view_emit, view_setLane] at hk ⊢
    by_cases hkl : k = l.member
    · subst hkl
      have hpre : P (t.view.trace l.member) := by
        rw [htrace] at hk
        exact hP _ _ hk
      rw [hself, List.pairwise_append]
      refine ⟨h.increasing _ hpre, List.pairwise_singleton _ _, ?_⟩
      intro a ha b hb
      rw [List.mem_singleton.mp hb]
      exact hbelow hk a ha
    · rw [View.trace_about_of_ne rfl hact hkl] at hk ⊢
      exact h.increasing k hk

/-- **Step lemma**: cursors stay ahead. -/
theorem step (h : Ahead P t) (hP : ∀ a b, P (a ++ b) → P a) (hwf : t.WF files) (hn : t.Named)
    (hs : Step files mtu t t') : Ahead P t' := by
  cases hs with
  | @reject i l r hr =>
      have hmem := mem_of_lane hr.lane
      have hcur := hwf.cursor l hmem
      refine ⟨fun x hx hk j hj => ?_, h.next, h.increasing⟩
      rcases hwf.mem_setLane hr.lane hx with rfl | ⟨hx, -⟩
      · have hlt : j < l.cursor := h.lane l hmem hk j hj
        show j < l.position + 1
        omega
      · exact h.lane x hx hk j hj
  | merge hr => exact h.merge hP hwf hn hr
  | refresh => exact h.retable hwf
  | @roll a b hk =>
      have hsweep : Ahead P (t.sweep a b) := h.congr (fun l hl => hl) (view_sweep hk)
      exact hsweep.retable (hwf.congr rfl rfl)
  | closing => exact h.marker hP trivial
  | @detach before i l hi hclosed =>
      have hleave : Ahead P (t.leave i) :=
        h.congr (fun l hl => (List.eraseIdx_sublist _ _).mem hl) rfl
      exact hleave.retable (hwf.leave i)
  | terminal => exact h.marker hP trivial

/-- A marker adds no merged record to a trace. -/
theorem trace_attach (t : Topic φ) (l : Lane φ) (mark : Mark) (k : Incarnation) :
    ∃ b, (t.attach l mark).view.trace k = t.view.trace k ++ b ∧ merged b = [] := by
  have htable : ((t.join l).emit (t.join l).table).view.trace k = t.view.trace k :=
    trace_table (t.join l) k
  have hmark : ∀ e : TopicEvent, e.Marker → ∃ b,
      (((t.join l).emit (t.join l).table).emit e).view.trace k = t.view.trace k ++ b ∧
        merged b = [] := fun e he =>
    ⟨_, by rw [view_emit, View.trace_step, htable], View.merged_said he k⟩
  cases mark with
  | none => exact ⟨[], by rw [List.append_nil]; exact htable, rfl⟩
  | gap a b => exact hmark _ trivial
  | regressed a b => exact hmark _ trivial

theorem next_attach (t : Topic φ) (l : Lane φ) (mark : Mark) (k : Incarnation) :
    (t.attach l mark).view.next k = (t.view.step (t.join l).table).next k := by
  have hscan : (t.attach l mark).view.toScan = (t.view.step (t.join l).table).toScan := by
    rw [Topic.attach, scan_emitTo, view_emit, view_join]
  rw [View.next, View.next, hscan]

/-- A member that is attached ahead of what was merged of it, or not cared
about from there on. -/
theorem attach (h : Ahead P t) (hP : ∀ a b, P (a ++ b) → P a) (hwf : t.WF files) {l : Lane φ}
    {mark : Mark} (hj : Joins files t l mark)
    (hl : P ((t.attach l mark).view.trace l.member) →
      ∀ i ∈ merged (t.view.trace l.member), i < l.cursor) :
    Ahead P (t.attach l mark) := by
  have hmerged : ∀ k, merged ((t.attach l mark).view.trace k) = merged (t.view.trace k) := by
    intro k
    obtain ⟨b, hb, hnil⟩ := trace_attach t l mark k
    rw [hb, merged_append, hnil, List.append_nil]
  have hPk : ∀ k, P ((t.attach l mark).view.trace k) → P (t.view.trace k) := by
    intro k hk
    obtain ⟨b, hb, -⟩ := trace_attach t l mark k
    rw [hb] at hk
    exact hP _ _ hk
  have hlane : ∀ x ∈ (t.join l).lanes, P ((t.attach l mark).view.trace x.member) →
      ∀ i ∈ merged (t.view.trace x.member), i < x.cursor := by
    intro x hx hk
    rcases List.mem_append.mp hx with hx | hx
    · exact h.lane x hx (hPk _ hk)
    · cases List.mem_singleton.mp hx
      exact hl hk
  constructor
  · intro x hx hk i hi
    rw [Topic.attach, lanes_emitTo] at hx
    rw [hmerged] at hi
    exact hlane x hx hk i hi
  · intro k hk i hi
    rw [hmerged] at hi
    rw [next_attach]
    by_cases hin : ∃ x ∈ (t.join l).lanes, x.member = k
    · obtain ⟨x, hx, rfl⟩ := hin
      rw [(hwf.join hj).next_table t.view hx]
      exact hlane x hx hk i hi
    · rw [next_table_of_not_mem t.view fun x hx hxk => hin ⟨x, hx, hxk⟩]
      exact h.next k (hPk k hk) i hi
  · intro k hk
    rw [hmerged]
    exact h.increasing k (hPk k hk)

/-- Of an empty log there is nothing to be ahead of. -/
theorem empty : Ahead P (fresh [] [] : Topic φ) :=
  ⟨by simp [fresh], fun _ _ _ hi => absurd hi List.not_mem_nil, fun _ _ => .nil⟩

end Ahead

end Topic

end XchannelNet
