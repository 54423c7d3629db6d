import XchannelNet.Mux.Progress

/-!
# Attribution — every hole in a merged topic is accounted for

Between two records of a member that follow each other in the topic, indices
may be missing. A reader is to find out why: the record was rejected, or a gap
marker between the two covers it, or the member's log is on record as
regressed there.

A frame is taken from the reader before it is committed. When the commit
fails, the slot's cursor stays and its reader does not go back, so polling on
merges the next record and nobody says what happened to this one
(`skipped_record`). An `add_member` that stops between its slot table and its
marker leaves a table with the cursor behind the gap and no gap.

If a mux is not polled with a frame lost, and every `add_member` writes table
and marker or neither, all holes are accounted for, whatever else fails and
wherever the process is killed (`holes_attributed`).
-/

namespace XchannelNet

open Mux

namespace Mux

/-- What a resumption puts on record of its member. -/
def Mark.events : Mark → List MemberEvent
  | .none => []
  | .gap fromIndex resumedAt => [.gap fromIndex resumedAt]
  | .regressed expected head => [.regressed (expected % 2 ^ 64) head]

/-! ## Holes of a trace -/

variable {R R' : ℕ → Prop} {trace after : List MemberEvent} {i n : ℕ}

/-- Index `x` is missing among the records around `between`, and there is a
reason: `R` says it was rejected, a gap covers it, or the log regressed. -/
def Explained (R : ℕ → Prop) (between : List MemberEvent) (x : ℕ) : Prop :=
  R x ∨ (∃ a b, .gap a b ∈ between ∧ a ≤ x ∧ x < b) ∨ ∃ a b, .regressed a b ∈ between

/-- Every index missing between two consecutive data records has a reason. -/
def Attributed (R : ℕ → Prop) (trace : List MemberEvent) : Prop :=
  ∀ before i r between j r' rest,
    trace = before ++ .data i r :: (between ++ .data j r' :: rest) → merged between = [] →
    ∀ x, i < x → x < j → Explained R between x

/-- `after` is what follows the last data record, which had index `i`. -/
def Since (trace : List MemberEvent) (i : ℕ) (after : List MemberEvent) : Prop :=
  ∃ before r, trace = before ++ .data i r :: after ∧ merged after = []

/-- All there is below `n`, past the last data record, has a reason to be
missing. A record with index `n` could be merged next. -/
def Settled (R : ℕ → Prop) (trace : List MemberEvent) (n : ℕ) : Prop :=
  ∀ i after, Since trace i after → ∀ x, i < x → x < n → Explained R after x

theorem Explained.mono (hR : ∀ x, R x → R' x) {x : ℕ} (h : Explained R after x)
    (more : List MemberEvent) : Explained R' (after ++ more) x := by
  rcases h with h | ⟨a, b, hg, hx⟩ | ⟨a, b, hr⟩
  · exact .inl (hR x h)
  · exact .inr (.inl ⟨a, b, List.mem_append_left _ hg, hx⟩)
  · exact .inr (.inr ⟨a, b, List.mem_append_left _ hr⟩)

/-- After a data record nothing has happened yet. -/
theorem since_data {j : ℕ} {r : Record} (h : Since (trace ++ [.data j r]) i after) :
    i = j ∧ after = [] := by
  obtain ⟨before, r', heq, hm⟩ := h
  rcases List.eq_nil_or_concat' after with rfl | ⟨after', e, rfl⟩
  · have hlast := List.append_inj_right' heq rfl
    cases hlast
    exact ⟨rfl, rfl⟩
  · -- the last event would be the data record
    rw [← List.cons_append, ← List.append_assoc] at heq
    have hlast := List.append_inj_right' heq rfl
    cases hlast
    rw [merged_append] at hm
    exact absurd hm (by simp [merged, MemberEvent.index?])

theorem since_marker {e : MemberEvent} (he : e.index? = none)
    (h : Since (trace ++ [e]) i after) :
    ∃ after', after = after' ++ [e] ∧ Since trace i after' := by
  obtain ⟨before, r, heq, hm⟩ := h
  rcases List.eq_nil_or_concat' after with rfl | ⟨after', e', rfl⟩
  · have hlast := List.append_inj_right' heq rfl
    cases hlast
    cases he
  · rw [← List.cons_append, ← List.append_assoc] at heq
    obtain ⟨hinit, hlast⟩ := List.append_inj' heq rfl
    cases hlast
    rw [merged_append, List.append_eq_nil_iff] at hm
    exact ⟨after', rfl, before, r, hinit, hm.1⟩

namespace Settled

theorem mono (h : Settled R trace n) (hR : ∀ x, R x → R' x) : Settled R' trace n := by
  intro i after hs x hi hx
  have := (h i after hs x hi hx).mono hR []
  rwa [List.append_nil] at this

theorem zero : Settled R trace 0 := fun _ _ _ x _ hx => absurd hx (Nat.not_lt_zero x)

/-- One more index is rejected. -/
theorem succ (h : Settled R trace n) (hn : R n) : Settled R trace (n + 1) := by
  intro i after hs x hi hx
  rcases Nat.lt_succ_iff_lt_or_eq.mp hx with hx | rfl
  · exact h i after hs x hi hx
  · exact .inl hn

theorem data (j : ℕ) (r : Record) : Settled R (trace ++ [.data j r]) (j + 1) := by
  intro i after hs x hi hx
  obtain ⟨rfl, -⟩ := since_data hs
  omega

theorem marker (h : Settled R trace n) {e : MemberEvent} (he : e.index? = none) :
    Settled R (trace ++ [e]) n := by
  intro i after hs x hi hx
  obtain ⟨after', rfl, hs'⟩ := since_marker he hs
  exact (h i after' hs' x hi hx).mono (fun _ h => h) [e]

/-- A gap marker bridges from what was settled to where the member resumes. -/
theorem gap {a b : ℕ} (h : Settled R trace a) : Settled R (trace ++ [.gap a b]) b := by
  intro i after hs x hi hx
  obtain ⟨after', rfl, hs'⟩ := since_marker rfl hs
  by_cases hxa : x < a
  · exact (h i after' hs' x hi hxa).mono (fun _ h => h) _
  · exact .inr (.inl ⟨a, b, List.mem_append_right _ (List.mem_singleton_self _), by omega, hx⟩)

theorem regressed (a b n : ℕ) : Settled R (trace ++ [.regressed a b]) n := by
  intro i after hs x _ _
  obtain ⟨after', rfl, -⟩ := since_marker rfl hs
  exact .inr (.inr ⟨a, b, List.mem_append_right _ (List.mem_singleton_self _)⟩)

end Settled

namespace Attributed

theorem mono (h : Attributed R trace) (hR : ∀ x, R x → R' x) : Attributed R' trace := by
  intro before i r between j r' rest heq hm x hi hx
  have := (h before i r between j r' rest heq hm x hi hx).mono hR []
  rwa [List.append_nil] at this

theorem nil : Attributed R [] := by
  intro before i r between j r' rest heq
  exact absurd heq.symm (by simp)

/-- One more event: if it is a data record, what it leaves out must be settled. -/
theorem concat (h : Attributed R trace) {e : MemberEvent}
    (he : ∀ j, e.index? = some j → Settled R trace j) : Attributed R (trace ++ [e]) := by
  intro before i r between j r' rest heq hm x hi hx
  rcases List.eq_nil_or_concat' rest with rfl | ⟨rest', e', rfl⟩
  · rw [← List.cons_append, ← List.append_assoc] at heq
    obtain ⟨hinit, hlast⟩ := List.append_inj' heq rfl
    cases hlast
    exact he j rfl i between ⟨before, r, hinit, hm⟩ x hi hx
  · have hassoc : before ++ .data i r :: (between ++ .data j r' :: (rest' ++ [e'])) =
        before ++ .data i r :: (between ++ .data j r' :: rest') ++ [e'] := by simp
    rw [hassoc] at heq
    exact h before i r between j r' rest' (List.append_inj' heq rfl).1 hm x hi hx

end Attributed

theorem Settled.said {v : View} {k : Incarnation} (h : Settled R (v.trace k) n) {e : TopicEvent}
    (he : e.Marker) : Settled R ((v.step e).trace k) n := by
  rw [View.trace_step]
  rcases View.said_marker (v := v) he k with hs | ⟨me, hs, hme⟩
  · rwa [hs, List.append_nil]
  · rw [hs]
    exact h.marker hme

theorem Attributed.said {v : View} {k : Incarnation} (h : Attributed R (v.trace k))
    {e : TopicEvent} (he : e.Marker) : Attributed R ((v.step e).trace k) := by
  rw [View.trace_step]
  rcases View.said_marker (v := v) he k with hs | ⟨me, hs, hme⟩
  · rwa [hs, List.append_nil]
  · rw [hs]
    exact h.concat fun j hj => absurd (hme.symm.trans hj) (by simp)

end Mux

namespace Topic

variable {φ : Type} {files : φ → Log} {mtu : UInt32} {t t' : Topic φ} {i : ℕ} {l : Lane φ}
  {past : List (Incarnation × ℕ)}

/-- Index `x` of member `k` was rejected, in this session or, by `past`, in an
earlier one. -/
def Rejected (past : List (Incarnation × ℕ)) (t : Topic φ) (k : Incarnation) (x : ℕ) : Prop :=
  (k, x) ∈ past ++ t.dropped

/-- Every hole is attributed, and wherever a member may be resumed, from its
slot, from the log or from what was recovered of it, none is opened. -/
structure Accounted (past : List (Incarnation × ℕ)) (t : Topic φ) : Prop where
  named : t.Named
  attributed : ∀ k, Attributed (t.Rejected past k) (t.view.trace k)
  next_le : ∀ l ∈ t.lanes, t.view.next l.member ≤ l.cursor
  next : ∀ k, Settled (t.Rejected past k) (t.view.trace k) (t.view.next k)
  lane : ∀ l ∈ t.lanes, Settled (t.Rejected past l.member) (t.view.trace l.member) l.cursor
  resumes : ∀ k, ¬ t.Attached k →
    Settled (t.Rejected past k) (t.view.trace k) (want (t.recovered k))

namespace Accounted

/-- Neither reading positions nor retention matter. -/
theorem congr (h : Accounted past t)
    (hl : ∀ x ∈ t'.lanes, ∃ y ∈ t.lanes, x.memberRef = y.memberRef ∧ x.member = y.member ∧
      x.cursor = y.cursor)
    (hst : t.Stays t') (hv : t'.view = t.view) (hr : t'.recovered = t.recovered)
    (hd : t'.dropped = t.dropped) : Accounted past t' := by
  have hrej : t'.Rejected past = t.Rejected past := by
    unfold Rejected
    rw [hd]
  constructor
  · refine h.named.congr (fun x hx => ?_) (by rw [hv])
    obtain ⟨y, hy, href, hmem, -⟩ := hl x hx
    exact ⟨y, hy, href, hmem⟩
  · rw [hrej, hv]
    exact h.attributed
  · intro x hx
    obtain ⟨y, hy, -, hmem, hcur⟩ := hl x hx
    rw [hv, hmem, hcur]
    exact h.next_le y hy
  · rw [hrej, hv]
    exact h.next
  · intro x hx
    obtain ⟨y, hy, -, hmem, hcur⟩ := hl x hx
    rw [hrej, hv, hmem, hcur]
    exact h.lane y hy
  · intro k hk
    rw [hrej, hv, hr]
    refine h.resumes k fun hat => hk ?_
    rwa [Attached, hst]

theorem lose (h : Accounted past t) (hi : t.lanes[i]? = some l) :
    Accounted past (t.setLane i l.lose) := by
  refine h.congr (fun x hx => ?_) (stays_setLane hi l.lose rfl) rfl rfl rfl
  rcases List.mem_or_eq_of_mem_set hx with hx | rfl
  · exact ⟨x, hx, rfl, rfl, rfl⟩
  · exact ⟨l, mem_of_lane hi, rfl, rfl, rfl⟩

theorem sweep (h : Accounted past t) {a b : List TopicEvent} (hk : t.kept = a ++ b) :
    Accounted past (t.sweep a b) :=
  h.congr (fun x hx => ⟨x, hx, rfl, rfl, rfl⟩) rfl (view_sweep hk) rfl rfl

theorem reject (h : Accounted past t) (hwf : t.WF files) (hlev : t.Level) {r : Record}
    (hr : Reads files t i l r) :
    Accounted past ((t.setLane i l.pass).drop l.member l.position) := by
  have hmem := mem_of_lane hr.lane
  have hmono : ∀ k x, t.Rejected past k x →
      ((t.setLane i l.pass).drop l.member l.position).Rejected past k x := by
    intro k x hx
    show (k, x) ∈ past ++ (t.dropped ++ [(l.member, l.position)])
    rw [← List.append_assoc]
    exact List.mem_append_left _ hx
  have hdrop : ((t.setLane i l.pass).drop l.member l.position).Rejected past l.member
      l.position := by
    show (l.member, l.position) ∈ past ++ (t.dropped ++ [(l.member, l.position)])
    simp
  constructor
  · exact h.named.setLane hr.lane l.pass rfl rfl rfl rfl
  · exact fun k => (h.attributed k).mono (hmono k)
  · intro x hx
    rcases hwf.mem_setLane hr.lane hx with rfl | ⟨hx, -⟩
    · have h₁ := h.next_le l hmem
      have h₂ := hlev l hmem
      show t.view.next l.member ≤ l.position + 1
      omega
    · exact h.next_le x hx
  · exact fun k => (h.next k).mono (hmono k)
  · intro x hx
    rcases hwf.mem_setLane hr.lane hx with rfl | ⟨hx, -⟩
    · -- what was settled up to the cursor, and the record at hand
      have hset := (h.lane l hmem).mono (hmono l.member)
      rw [← hlev l hmem] at hset
      exact hset.succ hdrop
    · exact (h.lane x hx).mono (hmono x.member)
  · intro k hk
    refine (h.resumes k fun hat => hk ?_).mono (hmono k)
    exact (attached_setLane hr.lane l.pass rfl).mpr hat

theorem merge (h : Accounted past t) (hwf : t.WF files) (hlev : t.Level) {r : Record}
    (hr : Reads files t i l r) :
    Accounted past ((t.setLane i l.pass).emit (.data l.memberRef l.position r)) := by
  have hmem := mem_of_lane hr.lane
  have hact := h.named l hmem
  have hcur := hlev l hmem
  have hview : ((t.setLane i l.pass).emit (.data l.memberRef l.position r)).view =
      t.view.step (.data l.memberRef l.position r) := by rw [view_emit, view_setLane]
  have hself : (t.view.step (.data l.memberRef l.position r)).trace l.member =
      t.view.trace l.member ++ [.data l.position r] := View.trace_about_self rfl hact
  have hnext : (t.view.step (.data l.memberRef l.position r)).next l.member =
      l.position + 1 := by
    have := h.next_le l hmem
    rw [View.next_data hact]
    omega
  constructor
  · refine h.named.setLane hr.lane l.pass rfl rfl rfl ?_
    rw [view_emit]
    exact View.active_data _ _ _
  · intro k
    by_cases hk : k = l.member
    · subst hk
      rw [hview, hself]
      refine (h.attributed l.member).concat fun j hj => ?_
      cases hj
      rw [hcur]
      exact h.lane l hmem
    · rw [hview, View.trace_about_of_ne rfl hact hk]
      exact h.attributed k
  · intro x hx
    rw [hview]
    rcases hwf.mem_setLane hr.lane hx with rfl | ⟨hx, hne⟩
    · exact hnext.le
    · rw [View.next_data_of_ne hact hne]
      exact h.next_le x hx
  · intro k
    by_cases hk : k = l.member
    · subst hk
      rw [hview, hself, hnext]
      exact .data _ _
    · rw [hview, View.trace_about_of_ne rfl hact hk, View.next_data_of_ne hact hk]
      exact h.next k
  · intro x hx
    rcases hwf.mem_setLane hr.lane hx with rfl | ⟨hx, hne⟩
    · show Settled _ (View.trace _ l.member) (l.position + 1)
      rw [hview, hself]
      exact .data _ _
    · rw [hview, View.trace_about_of_ne rfl hact hne]
      exact h.lane x hx
  · intro k hk
    have hna : ¬ t.Attached k := fun hat =>
      hk ((attached_setLane hr.lane l.pass rfl).mpr hat)
    have hne : k ≠ l.member := by
      rintro rfl
      exact hna (attached_of_mem hmem)
    rw [hview, View.trace_about_of_ne rfl hact hne]
    exact h.resumes k hna

theorem retable (h : Accounted past t) (hwf : t.WF files) : Accounted past (t.emit t.table) := by
  have htrace := Ahead.trace_table t
  constructor
  · exact named_retable hwf
  · intro k
    rw [htrace]
    exact h.attributed k
  · intro l hl
    rw [view_emit, hwf.next_table t.view hl]
  · intro k
    rw [htrace, view_emit]
    by_cases hk : ∃ l ∈ t.lanes, l.member = k
    · obtain ⟨l, hl, rfl⟩ := hk
      rw [hwf.next_table t.view hl]
      exact h.lane l hl
    · rw [next_table_of_not_mem t.view fun l hl hlk => hk ⟨l, hl, hlk⟩]
      exact h.next k
  · intro l hl
    rw [htrace]
    exact h.lane l hl
  · intro k hk
    rw [htrace]
    exact h.resumes k hk

theorem marker (h : Accounted past t) {e : TopicEvent} (he : e.Marker) :
    Accounted past (t.emit e) := by
  have hnext : ∀ k, (t.emit e).view.next k = t.view.next k := by
    intro k
    rw [view_emit, View.next, View.next, View.step_marker he]
  constructor
  · exact h.named.congr (fun x hx => ⟨x, hx, rfl, rfl⟩) (active_emit_marker he)
  · intro k
    rw [view_emit]
    exact (h.attributed k).said he
  · intro l hl
    rw [hnext]
    exact h.next_le l hl
  · intro k
    rw [hnext, view_emit]
    exact (h.next k).said he
  · intro l hl
    rw [view_emit]
    exact (h.lane l hl).said he
  · intro k hk
    rw [view_emit]
    exact (h.resumes k hk).said he

/-- **Step lemma**: no step of a level topic opens a hole, unless it detaches
a member. -/
theorem step (h : Accounted past t) (hwf : t.WF files) (hlev : t.Level)
    (hs : Step files mtu t t') (hst : t.Stays t') : Accounted past t' := by
  cases hs with
  | reject hr => exact h.reject hwf hlev hr
  | merge hr => exact h.merge hwf hlev hr
  | refresh => exact h.retable hwf
  | roll hk => exact (h.sweep hk).retable (hwf.congr rfl rfl)
  | closing => exact h.marker trivial
  | @detach before i l hi hclosed =>
      -- one lane fewer
      have hlen := congrArg List.length hst
      have hlt := (List.getElem?_eq_some_iff.mp hi).1
      simp only [Topic.emit, Topic.leave, List.length_map, List.length_eraseIdx_of_lt hlt] at hlen
      omega
  | terminal => exact h.marker trivial

theorem torn (h : Accounted past t) (ht : Torn files mtu t t') (hst : t.Stays t') :
    Accounted past t' := by
  cases ht with
  | lose hr => exact h.lose hr.lane
  | rollLose hr _ hk => exact (h.sweep hk).lose hr.lane
  | @drop i l hi =>
      have hlen := congrArg List.length hst
      have hlt := (List.getElem?_eq_some_iff.mp hi).1
      simp only [Topic.leave, List.length_map, List.length_eraseIdx_of_lt hlt] at hlen
      omega

theorem steps (h : Accounted past t) (hwf : t.WF files) (hlev : t.Level)
    (hs : Relation.ReflTransGen (fun t t' => Step files mtu t t' ∧ t.Stays t') t t') :
    Accounted past t' ∧ t'.WF files ∧ t'.Level := by
  induction hs with
  | refl => exact ⟨h, hwf, hlev⟩
  | tail _ hstep ih =>
      obtain ⟨h₁, hwf₁, hlev₁⟩ := ih
      exact ⟨h₁.step hwf₁ hlev₁ hstep.1 hstep.2, hstep.1.wf hwf₁, hlev₁.step hstep.1⟩

theorem trace_attach (hwf : t.WF files) {mark : Mark} (hj : Joins files t l mark)
    (k : Incarnation) : (t.attach l mark).view.trace k =
      t.view.trace k ++ if k = l.member then mark.events else [] := by
  have hact : ((t.join l).emit (t.join l).table).view.active l.memberRef = some l.member :=
    named_retable (hwf.join hj) l (List.mem_append_right _ (List.mem_singleton_self l))
  have htable : ((t.join l).emit (t.join l).table).view.trace k = t.view.trace k :=
    Ahead.trace_table (t.join l) k
  cases mark with
  | none =>
      rw [Mark.events, ite_self, List.append_nil]
      exact htable
  | gap a b =>
      rw [Topic.attach, Mark.emitTo, view_emit, View.trace_about rfl hact, htable]
      rfl
  | regressed a b =>
      rw [Topic.attach, Mark.emitTo, view_emit, View.trace_about rfl hact, htable]
      rfl

/-- A member that joins is settled up to where it is resumed, by its marker. -/
theorem settled_attach (h : Accounted past t) {mark : Mark} (hj : Joins files t l mark) :
    Settled (t.Rejected past l.member) (t.view.trace l.member ++ mark.events) l.cursor := by
  have hna : ¬ t.Attached l.member := by
    intro hat
    obtain ⟨x, hx, hxl⟩ := List.mem_map.mp hat
    exact hj.new x hx hxl
  have hset := h.resumes l.member hna
  have hres := hj.resume
  rcases resume_cases (want (t.recovered l.member)) (files l.file).earliest (files l.file).head
    with ⟨-, he⟩ | ⟨-, -, he⟩ | ⟨-, -, he⟩
  · rw [he, Prod.mk.injEq] at hres
    obtain ⟨hcur, rfl⟩ := hres
    rw [← hcur]
    exact hset.gap
  · rw [he, Prod.mk.injEq] at hres
    obtain ⟨-, rfl⟩ := hres
    exact .regressed _ _ _
  · rw [he, Prod.mk.injEq] at hres
    obtain ⟨hcur, rfl⟩ := hres
    rw [← hcur, Mark.events, List.append_nil]
    exact hset

theorem attach (h : Accounted past t) (hwf : t.WF files) {mark : Mark}
    (hj : Joins files t l mark) : Accounted past (t.attach l mark) := by
  have hself : (t.attach l mark).view.trace l.member = t.view.trace l.member ++ mark.events := by
    rw [trace_attach hwf hj, if_pos rfl]
  have hother : ∀ k, k ≠ l.member → (t.attach l mark).view.trace k = t.view.trace k := by
    intro k hk
    rw [trace_attach hwf hj, if_neg hk, List.append_nil]
  have hdrop : (t.attach l mark).dropped = t.dropped := by cases mark <;> rfl
  have hrej : (t.attach l mark).Rejected past = t.Rejected past := by
    unfold Rejected
    rw [hdrop]
  have hrec : (t.attach l mark).recovered = t.recovered := by cases mark <;> rfl
  have hset := h.settled_attach hj
  have hlane : ∀ x ∈ (t.join l).lanes, Settled ((t.attach l mark).Rejected past x.member)
      ((t.attach l mark).view.trace x.member) x.cursor := by
    intro x hx
    rw [hrej]
    rcases List.mem_append.mp hx with hx | hx
    · rw [hother _ (hj.new x hx)]
      exact h.lane x hx
    · cases List.mem_singleton.mp hx
      rw [hself]
      exact hset
  constructor
  · exact .attach hwf hj
  · intro k
    rw [hrej]
    by_cases hk : k = l.member
    · subst hk
      rw [hself]
      cases mark with
      | none =>
          rw [Mark.events, List.append_nil]
          exact h.attributed _
      | gap a b => exact (h.attributed _).concat fun j hj => by cases hj
      | regressed a b => exact (h.attributed _).concat fun j hj => by cases hj
    · rw [hother k hk]
      exact h.attributed k
  · intro x hx
    rw [Topic.attach, lanes_emitTo] at hx
    rw [Ahead.next_attach, (hwf.join hj).next_table t.view hx]
  · intro k
    rw [Ahead.next_attach]
    by_cases hk : ∃ x ∈ (t.join l).lanes, x.member = k
    · obtain ⟨x, hx, rfl⟩ := hk
      rw [(hwf.join hj).next_table t.view hx]
      exact hlane x hx
    · have hne : k ≠ l.member := by
        rintro rfl
        exact hk ⟨l, List.mem_append_right _ (List.mem_singleton_self l), rfl⟩
      rw [next_table_of_not_mem t.view fun x hx hxk => hk ⟨x, hx, hxk⟩, hrej, hother k hne]
      exact h.next k
  · intro x hx
    rw [Topic.attach, lanes_emitTo] at hx
    exact hlane x hx
  · intro k hk
    have hk' : ¬ (t.join l).Attached k := by
      rwa [Attached, Topic.attach, lanes_emitTo] at hk
    have hne : k ≠ l.member := by
      rintro rfl
      exact hk' (attached_of_mem (List.mem_append_right _ (List.mem_singleton_self l)))
    rw [hrej, hother k hne, hrec]
    refine h.resumes k fun hat => hk' ?_
    obtain ⟨x, hx, rfl⟩ := List.mem_map.mp hat
    exact attached_of_mem (List.mem_append_left _ hx)

/-- What is recovered from the retained log is where the whole log would have
the member resumed, or the beginning. -/
theorem reopen (h : Accounted past t) :
    Accounted (past ++ t.dropped) (fresh t.pruned t.kept : Topic φ) := by
  have hrej : (fresh t.pruned t.kept : Topic φ).Rejected (past ++ t.dropped) =
      t.Rejected past := by
    unfold Rejected
    rw [fresh, List.append_nil]
  refine ⟨named_of_no_lanes rfl, ?_, by simp [fresh], ?_, by simp [fresh], ?_⟩
  · rw [hrej]
    exact h.attributed
  · rw [hrej]
    exact h.next
  · intro k _
    rw [hrej]
    rcases view_suffix t.pruned t.kept k with ⟨-, hnext⟩ | ⟨-, hnext⟩
    · have hset := h.next k
      rw [show t.view.next k = _ from hnext.symm] at hset
      exact hset
    · show Settled _ _ ((Mux.view t.kept).next k)
      rw [hnext]
      exact .zero

theorem empty : Accounted [] (fresh [] [] : Topic φ) :=
  ⟨named_of_no_lanes rfl, fun _ => .nil, by simp [fresh], fun _ => .zero, by simp [fresh],
    fun _ _ => .zero⟩

end Accounted

end Topic

namespace Mux

open Fallible

variable {φ : Type} {c : Setup} {w w' : World φ} {t t' : Topic φ} {a : Action φ}

/-- What is in store for the two writes of an `add_member`: neither fails, or
the process is killed at the first. -/
def Whole (outcomes : List WriteOutcome) : Prop :=
  outcomes.head? = some .killed ∨ ∀ x ∈ outcomes.take 2, x.error = none

instance (outcomes : List WriteOutcome) : Decidable (Whole outcomes) :=
  inferInstanceAs (Decidable (_ ∨ ∀ x ∈ outcomes.take 2, _))

/-- An `add_member` that there is room for, with its writes whole, fails in one only if the
process is killed before anything was written. -/
theorem addMember_killed {m m' : Mux φ} {opened : List Record} {name : ChannelName}
    {epoch : UInt64} {file : Option φ} {outcomes : List WriteOutcome} {e : WriteError}
    (hs : w.session = .running m opened) (hw : Whole outcomes)
    (hroom : w.Accommodates (name, epoch) file)
    (h : exec (addMember w.files name epoch file) (m.within outcomes) = (.error (.write e), m')) :
    e = .killed ∧ m'.topic.log = m.topic.log := by
  rcases hroom.write_error hs h with
    ⟨x, rest, rfl, hx, hlog⟩ | ⟨x, y, rest, rfl, hx, hy⟩
  · rcases hw with hk | hw
    · cases hk
      cases hx
      exact ⟨rfl, hlog⟩
    · rw [hw x (by simp)] at hx
      cases hx
  · rcases hw with hk | hw
    · cases hk
      cases hx
    · rw [hw y (by simp)] at hy
      cases hy

/-! ## Runs of careful steps -/

/-- The sessions are of `add_member` and `poll`. A mux is polled only while
every slot's reader stands at its cursor. There is room for the slot table of
an `add_member`, and its table and its marker are committed or the process is
killed before the first of them. -/
def Careful (w : World φ) (a : Action φ) : Prop :=
  match a with
  | .op (.addMember name epoch file) outcomes _ =>
    Whole outcomes ∧ w.Accommodates (name, epoch) file
  | .op (.mergeOne _) _ _ => ∀ s ∈ w.slots, s.source.nextIndex = s.cursor
  | .op .poll _ _ => ∀ s ∈ w.slots, s.source.nextIndex = s.cursor
  | .op (.removeMember _ _) _ _ => False
  | .op .finish _ _ => False
  | _ => True

instance (w : World φ) (a : Action φ) : Decidable (Careful w a) := by
  unfold Careful
  split <;> infer_instance

def IsAccounted (c : Setup) (w : World φ) : Prop :=
  ∃ t, Tracks c w t ∧ t.Accounted w.dropped

theorem Tracks.level (h : Tracks c w t) (hs : ∀ s ∈ w.slots, s.source.nextIndex = s.cursor) :
    t.Level := by
  intro l hl
  rw [h.slots] at hl
  obtain ⟨s, hmem, rfl⟩ := List.mem_map.mp hl
  exact hs s hmem

/-- An operation that left an accounted topic, whether or not it was killed. -/
theorem IsAccounted.settle (h : Tracks c w t) {r : Except MuxError Unit × Mux φ}
    (opened : List Record) (hm : Models w.files c.geometry.mtu r.2 t')
    (hacc : t'.Accounted w.dropped) : IsAccounted c (w.settle opened r) := by
  rcases h.settle opened hm with ⟨ht, hd⟩ | ⟨ht, hd⟩
  · exact ⟨_, ht, by rwa [hd]⟩
  · refine ⟨_, ht, ?_⟩
    rw [hd]
    exact hacc.reopen

/-- Merging on a level topic, wherever it stops. -/
theorem Merges.accounted {α : Type} {files : φ → Log} {mtu : UInt32}
    {r : Except MuxError α × Mux φ} {past : List (Incarnation × ℕ)}
    (h : Merges files mtu t r) (hacc : t.Accounted past) (hwf : t.WF files) (hlev : t.Level) :
    ∃ t', Models files mtu r.2 t' ∧ t'.Accounted past := by
  obtain ⟨t₁, hsteps, hm | ⟨e, t₂, -, -, ⟨htorn, hst⟩, hm⟩⟩ := h
  · exact ⟨t₁, hm, (hacc.steps hwf hlev hsteps).1⟩
  · exact ⟨t₂, hm, (hacc.steps hwf hlev hsteps).1.torn htorn hst⟩

/-- **Step lemma**. -/
theorem IsAccounted.step [DecidableEq φ] (h : IsAccounted c w) (hs : Step c w a w')
    (hc : Careful w a) : IsAccounted c w' := by
  obtain ⟨t, ht, hacc⟩ := h
  cases hs with
  | grow hg hb => exact ⟨t, ht.grow hg hb, hacc⟩
  | «open» hs ho => exact ⟨t, ht.open hs ho, hacc⟩
  | @kill m opened hs =>
      have hm := ht.running hs
      refine ⟨_, ht.die hm.stored, ?_⟩
      show Topic.Accounted (w.dropped ++ m.dropped) _
      rw [← hm.dropped]
      exact hacc.reopen
  | @op m opened r o outcomes hs hv hr =>
      subst hr
      have hm := ht.within hs outcomes
      cases o with
      | removeMember name epoch => exact hc.elim
      | finish => exact hc.elim
      | mergeOne i =>
          have hmerge := hm.merges ht.bounded (mergeOne_does w.files i _).discard
          obtain ⟨t', hm', hacc'⟩ := hmerge.accounted hacc ht.wf (ht.level hc)
          exact .settle ht opened hm' hacc'
      | poll =>
          have hmerge := hm.merges ht.bounded (poll_does w.files _).discard
          obtain ⟨t', hm', hacc'⟩ := hmerge.accounted hacc ht.wf (ht.level hc)
          exact .settle ht opened hm' hacc'
      | addMember name epoch file =>
          have hadd := ht.added hm hv
          have hkill : ∀ e m', exec (Op.run w.files (.addMember name epoch file))
              (m.within outcomes) = (.error (.write e), m') →
              e = .killed ∧ m'.topic.log = m.topic.log :=
            fun _ _ h => addMember_killed hs hc.1 hc.2 h
          generalize exec (Op.run w.files (.addMember name epoch file)) (m.within outcomes) = r
            at hadd hkill ⊢
          cases hadd with
          | unchanged _ hm => exact .settle ht opened hm hacc
          | bumped _ _ hm =>
              exact .settle ht opened hm
                (hacc.congr (fun x hx => ⟨x, hx, rfl, rfl, rfl⟩) rfl rfl rfl rfl)
          | attached _ _ hj hm => exact .settle ht opened hm (hacc.attach ht.wf hj)
          | @pushed l mark e m' _ _ hj hm =>
              -- killed before the table: the log is as it was
              obtain ⟨rfl, -⟩ := hkill e m' rfl
              refine ⟨fresh t.pruned t.kept, ⟨ht.bounded, hm.stored, rfl⟩, ?_⟩
              show Topic.Accounted (w.dropped ++ m'.dropped) _
              rw [← hm.dropped]
              exact hacc.reopen
          | @unmarked l mark e m' _ _ hj _ hm' =>
              -- the table is one record more than there was
              obtain ⟨-, hlog⟩ := hkill e m' rfl
              have hlen := congrArg List.length hm'.records
              have hlen' := congrArg List.length hm.records
              rw [hlog] at hlen
              change (m.topic.log.records.map event).length = _ at hlen'
              simp only [Topic.history, Topic.emit, Topic.join, List.length_map,
                List.length_append, List.length_singleton] at hlen hlen'
              omega

/-- **Run lemma**. -/
theorem accounted_of_reachable [DecidableEq φ]
    (h : Run.Reachable (Init : World φ → Prop)
      (fun w w' => ∃ a, Step c w a w' ∧ Careful w a) w) : IsAccounted c w := by
  refine h.invariant (fun w hw => ⟨_, .init hw, ?_⟩) ?_
  · rw [hw.2.1]
    exact .empty
  · rintro w w' hacc ⟨a, hstep, hc⟩
    exact hacc.step hstep hc

/-- **Every hole is attributed** in a run of careful steps. Between two
consecutive data records of a member, every index left out was rejected by
`merge_one`, or lies in a gap marker's range between the two, or the member is
on record as regressed there. Any write of a merge may fail, and the process
may be killed at any write. -/
theorem holes_attributed [DecidableEq φ]
    (h : Run.Reachable (Init : World φ → Prop)
      (fun w w' => ∃ a, Step c w a w' ∧ Careful w a) w) (k : Incarnation) :
    Attributed (fun x => (k, x) ∈ w.rejected) (w.view.trace k) := by
  obtain ⟨t, ht, hacc⟩ := accounted_of_reachable h
  rw [ht.rejected, ht.view]
  exact hacc.attributed k

/-! ## Runs -/

/-- One member; of its records the second uses a reserved type if `reserved`. -/
def threeRecords (reserved : Bool) : Unit → Log := fun _ =>
  .ofRecords "a" 0 [⟨1, 0, []⟩, ⟨if reserved then 0xFFFF else 1, 1, []⟩, ⟨1, 2, []⟩]

theorem bounded_threeRecords (reserved : Bool) : Bounded (threeRecords reserved) := by
  intro f
  cases f
  cases reserved <;> decide

/-- The commit of record 2 fails, the process is killed and another session
merges it. Record 1 was rejected. -/
theorem holes_attributed_after_restart :
    ∃ w : World Unit,
      w.view.trace ("a", 0) = [.data 0 ⟨1, 0, []⟩, .data 2 ⟨1, 2, []⟩] ∧
      Attributed (fun x => (("a", 0), x) ∈ w.rejected) (w.view.trace ("a", 0)) := by
  obtain ⟨w, hreach, htrace⟩ := World.exists_reachable plainSetup
    (fun w a _ => Careful w a) ⟨threeRecords true, .closed none, []⟩
    [.open, .op (.addMember "a" 0 (some ())) [], .op .poll [], .op .poll [.failed], .kill,
      .open, .op (.addMember "a" 0 (some ())) [], .op .poll []]
    (fun w => w.view.trace ("a", 0) = [.data 0 ⟨1, 0, []⟩, .data 2 ⟨1, 2, []⟩])
    (init_mk (bounded_threeRecords true)) (by decide +kernel)
  exact ⟨w, htrace, holes_attributed hreach ("a", 0)⟩

/-- An action of a session of `add_member` and `poll`. -/
def Action.addsOrPolls : Action φ → Bool
  | .op (.addMember _ _ _) _ _ => true
  | .op .poll _ _ => true
  | .op _ _ _ => false
  | _ => true

/-- **A record is skipped.** In one session the commit of record 1 fails and
polling goes on: record 2 follows record 0 in the topic, record 1 was not
rejected and nothing says where it is. -/
theorem skipped_record :
    ∃ w : World Unit,
      Run.Reachable Init (fun w w' => ∃ a, Step plainSetup w a w' ∧ a.addsOrPolls = true) w ∧
      w.view.trace ("a", 0) = [.data 0 ⟨1, 0, []⟩, .data 2 ⟨1, 2, []⟩] ∧
      ¬ Attributed (fun x => (("a", 0), x) ∈ w.rejected) (w.view.trace ("a", 0)) := by
  obtain ⟨w, hreach, htrace, hrej⟩ := World.exists_reachable plainSetup
    (fun _ a _ => a.addsOrPolls = true)
    ⟨threeRecords false, .closed none, []⟩
    [.open, .op (.addMember "a" 0 (some ())) [], .op .poll [], .op .poll [.failed], .op .poll []]
    (fun w => w.view.trace ("a", 0) = [.data 0 ⟨1, 0, []⟩, .data 2 ⟨1, 2, []⟩] ∧
      w.rejected = [])
    (init_mk (bounded_threeRecords false)) (by decide +kernel)
  refine ⟨w, hreach, htrace, fun hatt => ?_⟩
  rw [htrace] at hatt
  rcases hatt [] 0 _ [] 2 _ [] rfl rfl 1 (by omega) (by omega) with h | ⟨a, b, h, -⟩ | ⟨a, b, h⟩
  · rw [hrej] at h
    cases h
  · cases h
  · cases h

end Mux

end XchannelNet
