import Mathlib.Data.List.Perm.Subperm
import XchannelNet.Lib.Sequence
import XchannelNet.Mux.Engine

/-!
# Topic — what a mux does, without bytes and readers

The model of a topic the engine is measured against. A lane is a member being
merged: its cursor is what the mux says it has merged up to, its position is
where it reads next. The log is a list of events, of which retention has
pruned a front part; a read is a lookup in the member's log.

A `Step` is what happens between two points at which every write so far went
through, other than a member joining. A `Torn` step is what a failing write
leaves of one: the frame was taken from the reader and not committed, or the
slot removed and the table that says so not written.
-/

namespace XchannelNet

open Mux

theorem Mux.length_le_of_refs {refs : List UInt16} (hnd : refs.Nodup) {n : UInt16}
    (h : ∀ r ∈ refs, r < n) : refs.length ≤ n.toNat := by
  have hmap : (refs.map UInt16.toNat).Nodup := hnd.map fun x y => UInt16.toNat_inj.mp
  have hsub : refs.map UInt16.toNat ⊆ List.range n.toNat := by
    intro k hk
    obtain ⟨r, hr, rfl⟩ := List.mem_map.mp hk
    exact List.mem_range.mpr (UInt16.lt_iff_toNat_lt.mp (h r hr))
  have hlen := (List.Nodup.subperm hmap hsub).length_le
  rwa [List.length_map, List.length_range] at hlen

/-- Replacing an element by one that `f` takes for the same. -/
theorem Mux.map_set_eq {α β : Type} (f : α → β) {L : List α} {i : ℕ} {a : α}
    (h : L[i]? = some a) (b : α) (hf : f b = f a) : (L.set i b).map f = L.map f := by
  rw [List.map_set, hf]
  refine List.ext_getElem? fun n => ?_
  rw [List.getElem?_set]
  split
  · rename_i hn
    subst hn
    obtain ⟨hlt, hl⟩ := List.getElem?_eq_some_iff.mp h
    simp [hlt, hl]
  · rfl

structure Lane (φ : Type) where
  memberRef : UInt16
  member : Incarnation
  file : φ
  cursor : ℕ
  position : ℕ

namespace Lane

variable {φ : Type}

def row (l : Lane φ) : Entry := ⟨l.memberRef, l.member, l.cursor⟩

/-- Past the record at hand, and on record as such. -/
def pass (l : Lane φ) : Lane φ := { l with cursor := l.position + 1, position := l.position + 1 }

/-- Past the record at hand, without anything to show for it. -/
def lose (l : Lane φ) : Lane φ := { l with position := l.position + 1 }

end Lane

structure Topic (φ : Type) where
  pruned : List TopicEvent
  kept : List TopicEvent
  lanes : List (Lane φ)
  nextRef : UInt16
  recovered : Incarnation → Option ℕ
  dropped : List (Incarnation × ℕ)

namespace Topic

variable {φ : Type}

def history (t : Topic φ) : List TopicEvent := t.pruned ++ t.kept

def view (t : Topic φ) : View := Mux.view t.history

def table (t : Topic φ) : TopicEvent := .table (t.lanes.map Lane.row)

def emit (t : Topic φ) (e : TopicEvent) : Topic φ := { t with kept := t.kept ++ [e] }

def setLane (t : Topic φ) (i : ℕ) (l : Lane φ) : Topic φ := { t with lanes := t.lanes.set i l }

def drop (t : Topic φ) (k : Incarnation) (index : ℕ) : Topic φ :=
  { t with dropped := t.dropped ++ [(k, index)] }

/-- Retention leaves the events `b`. -/
def sweep (t : Topic φ) (a b : List TopicEvent) : Topic φ :=
  { t with pruned := t.pruned ++ a, kept := b }

def join (t : Topic φ) (l : Lane φ) : Topic φ :=
  { t with lanes := t.lanes ++ [l], nextRef := t.nextRef + 1 }

/-- A ref is used up. -/
def bump (t : Topic φ) : Topic φ := { t with nextRef := t.nextRef + 1 }

def leave (t : Topic φ) (i : ℕ) : Topic φ := { t with lanes := t.lanes.eraseIdx i }

end Topic

/-- The marker a resumption writes, its indices as 64-bit fields hold them. -/
def Mux.Mark.emitTo {φ : Type} (memberRef : UInt16) (t : Topic φ) : Mux.Mark → Topic φ
  | .none => t
  | .gap fromIndex resumedAt => t.emit (.gap memberRef fromIndex resumedAt)
  | .regressed expected head => t.emit (.regressed memberRef (expected % 2 ^ 64) head)

namespace Topic

variable {φ : Type}

/-- A member joins: its slot, the table that says so, and the marker. -/
def attach (t : Topic φ) (l : Lane φ) (mark : Mark) : Topic φ :=
  mark.emitTo l.memberRef ((t.join l).emit (t.join l).table)

variable (files : φ → Log) (mtu : UInt32)

/-- Lane `i` has record `r` to read next. -/
structure Reads (t : Topic φ) (i : ℕ) (l : Lane φ) (r : Record) : Prop where
  lane : t.lanes[i]? = some l
  record : (files l.file).get? l.position = some r

/-- Lane `l` is a new member's, resumed as `add_member` does. -/
structure Joins (t : Topic φ) (l : Lane φ) (mark : Mark) : Prop where
  memberRef : l.memberRef = t.nextRef
  space : t.nextRef ≠ 65535
  new : ∀ x ∈ t.lanes, x.member ≠ l.member
  resume : Mux.resume (want (t.recovered l.member)) (files l.file).earliest (files l.file).head =
    (l.cursor, mark)
  position : l.position = l.cursor

inductive Step : Topic φ → Topic φ → Prop
  | reject {t i l r} (h : Reads files t i l r) (hr : rejects mtu r = true) :
      Step t ((t.setLane i l.pass).drop l.member l.position)
  | merge {t i l r} (h : Reads files t i l r) (hr : rejects mtu r = false) :
      Step t ((t.setLane i l.pass).emit (.data l.memberRef l.position r))
  | refresh {t} : Step t (t.emit t.table)
  | roll {t a b} (h : t.kept = a ++ b) : Step t ((t.sweep a b).emit t.table)
  | closing {t} {i : ℕ} {l : Lane φ} (h : t.lanes[i]? = some l) :
      Step t (t.emit (.closed l.memberRef l.cursor))
  | detach {t before} {i : ℕ} {l : Lane φ} (h : t.lanes[i]? = some l)
      (hclosed : t.kept = before ++ [.closed l.memberRef l.cursor]) :
      Step t ((t.leave i).emit (t.leave i).table)
  | terminal {t} : Step t (t.emit .other)

inductive Torn : Topic φ → Topic φ → Prop
  | lose {t i l r} (h : Reads files t i l r) (hr : rejects mtu r = false) :
      Torn t (t.setLane i l.lose)
  | rollLose {t i l r a b} (h : Reads files t i l r) (hr : rejects mtu r = false)
      (hk : t.kept = a ++ b) : Torn t ((t.sweep a b).setLane i l.lose)
  | drop {t} {i : ℕ} {l : Lane φ} (h : t.lanes[i]? = some l) : Torn t (t.leave i)

/-- Who is attached stays the same. -/
def Stays (t t' : Topic φ) : Prop := t'.lanes.map Lane.member = t.lanes.map Lane.member

/-! ## Well-formed topics -/

/-- What no step and no torn step breaks: one ref and one lane per member,
refs below the next one, and a lane inside its member's log. -/
structure WF (t : Topic φ) : Prop where
  refs : (t.lanes.map Lane.memberRef).Nodup
  fresh : ∀ l ∈ t.lanes, l.memberRef < t.nextRef
  members : (t.lanes.map Lane.member).Nodup
  cursor : ∀ l ∈ t.lanes, l.cursor ≤ l.position
  position : ∀ l ∈ t.lanes, l.position ≤ (files l.file).head

variable {files} {t t' : Topic φ} {i : ℕ} {l : Lane φ} {mark : Mark}

/-- A lane that is replaced by one that agrees with it in `f`. -/
theorem stays_setLane (hi : t.lanes[i]? = some l) (l' : Lane φ) (hmem : l'.member = l.member) :
    t.Stays (t.setLane i l') := map_set_eq Lane.member hi l' hmem

theorem mem_of_lane {L : List (Lane φ)} (h : L[i]? = some l) : l ∈ L := List.mem_of_getElem? h

theorem WF.congr (h : t.WF files) (hl : t'.lanes = t.lanes) (hn : t'.nextRef = t.nextRef) :
    t'.WF files := by
  obtain ⟨h₁, h₂, h₃, h₄, h₅⟩ := h
  constructor <;> rw [hl]
  · exact h₁
  · rw [hn]
    exact h₂
  · exact h₃
  · exact h₄
  · exact h₅

theorem WF.setLane (h : t.WF files) (hl : t.lanes[i]? = some l) (l' : Lane φ)
    (href : l'.memberRef = l.memberRef)
    (hmem : l'.member = l.member) (hcur : l'.cursor ≤ l'.position)
    (hpos : l'.position ≤ (files l'.file).head) : (t.setLane i l').WF files where
  refs := by
    show ((t.lanes.set i l').map _).Nodup
    rw [map_set_eq _ hl l' href]
    exact h.refs
  fresh := Sequence.forall_mem_set h.fresh i (href ▸ h.fresh l (mem_of_lane hl))
  members := by
    show ((t.lanes.set i l').map _).Nodup
    rw [map_set_eq _ hl l' hmem]
    exact h.members
  cursor := Sequence.forall_mem_set h.cursor _ hcur
  position := Sequence.forall_mem_set h.position _ hpos

theorem lt_nextRef_succ {n x : UInt16} (hn : n ≠ 65535) (h : x ≤ n) : x < n + 1 := by
  have hn' : n.toNat ≠ 65535 := fun he => hn (UInt16.toNat_inj.mp he)
  have hlt := n.toNat_lt
  rw [UInt16.le_iff_toNat_le] at h
  rw [UInt16.lt_iff_toNat_lt, UInt16.toNat_add]
  have hone : (1 : UInt16).toNat = 1 := rfl
  omega

/-- A member resumes inside its log, at or after the earliest record. -/
theorem Joins.bounds (h : Joins files t l mark) :
    (files l.file).earliest ≤ l.cursor ∧ l.cursor ≤ (files l.file).head :=
  resume_bounds (files l.file).earliest_le_head h.resume

theorem WF.join (h : t.WF files) (hj : Joins files t l mark) : (t.join l).WF files where
  refs := by
    refine Sequence.nodup_map_concat h.refs fun x hx hxl => ?_
    have hlt := h.fresh x hx
    rw [hxl, hj.memberRef] at hlt
    exact absurd hlt (UInt16.lt_irrefl _)
  fresh := by
    intro x hx
    rcases List.mem_append.mp hx with hx | hx
    · exact lt_nextRef_succ hj.space (UInt16.le_of_lt (h.fresh x hx))
    · rw [List.mem_singleton.mp hx, hj.memberRef]
      exact lt_nextRef_succ hj.space (UInt16.le_refl _)
  members := Sequence.nodup_map_concat h.members hj.new
  cursor := Sequence.forall_mem_concat h.cursor (by rw [hj.position])
  position := Sequence.forall_mem_concat h.position (by rw [hj.position]; exact hj.bounds.2)

theorem WF.leave (h : t.WF files) (i : ℕ) : (t.leave i).WF files where
  refs := h.refs.sublist ((List.eraseIdx_sublist _ _).map _)
  fresh l hl := h.fresh l ((List.eraseIdx_sublist _ _).mem hl)
  members := h.members.sublist ((List.eraseIdx_sublist _ _).map _)
  cursor l hl := h.cursor l ((List.eraseIdx_sublist _ _).mem hl)
  position l hl := h.position l ((List.eraseIdx_sublist _ _).mem hl)

theorem Reads.position_lt {r : Record} (h : Reads files t i l r) :
    l.position < (files l.file).head := (SegLog.get?_isSome_iff.mp ⟨r, h.record⟩).2

theorem WF.pass {r : Record} (h : t.WF files) (hr : Reads files t i l r) :
    (t.setLane i l.pass).WF files :=
  h.setLane hr.lane l.pass rfl rfl le_rfl hr.position_lt

theorem WF.lose {r : Record} (h : t.WF files) (hr : Reads files t i l r) :
    (t.setLane i l.lose).WF files :=
  h.setLane hr.lane l.lose rfl rfl (Nat.le_succ_of_le (h.cursor l (mem_of_lane hr.lane)))
    hr.position_lt

@[simp] theorem lanes_emitTo (memberRef : UInt16) (t : Topic φ) (mark : Mark) :
    (mark.emitTo memberRef t).lanes = t.lanes := by cases mark <;> rfl

@[simp] theorem nextRef_emitTo (memberRef : UInt16) (t : Topic φ) (mark : Mark) :
    (mark.emitTo memberRef t).nextRef = t.nextRef := by cases mark <;> rfl

theorem WF.bump (h : t.WF files) (hs : t.nextRef ≠ 65535) : t.bump.WF files :=
  ⟨h.refs, fun l hl => lt_nextRef_succ hs (UInt16.le_of_lt (h.fresh l hl)), h.members,
    h.cursor, h.position⟩

theorem Step.wf {mtu : UInt32} (h : Step files mtu t t') (hwf : t.WF files) : t'.WF files := by
  cases h with
  | reject hr => exact (hwf.pass hr).congr rfl rfl
  | merge hr => exact (hwf.pass hr).congr rfl rfl
  | refresh => exact hwf.congr rfl rfl
  | roll => exact hwf.congr rfl rfl
  | closing => exact hwf.congr rfl rfl
  | detach => exact (hwf.leave _).congr rfl rfl
  | terminal => exact hwf.congr rfl rfl

theorem WF.steps {mtu : UInt32} (hwf : t.WF files)
    (h : Relation.ReflTransGen (Step files mtu) t t') : t'.WF files := by
  induction h with
  | refl => exact hwf
  | tail _ hstep ih => exact hstep.wf ih

/-- Refs are 16 bits and the last one is never given out. -/
theorem WF.length_lt (h : t.WF files) : t.lanes.length < 65536 := by
  have hlen := length_le_of_refs h.refs (n := t.nextRef) (by simpa using h.fresh)
  have := t.nextRef.toNat_lt
  rw [List.length_map] at hlen
  omega

/-! ## What the log says after a step -/

@[simp] theorem view_emit (t : Topic φ) (e : TopicEvent) : (t.emit e).view = t.view.step e := by
  show Mux.view (t.pruned ++ (t.kept ++ [e])) = _
  rw [← List.append_assoc, view_concat]
  rfl

theorem view_sweep {a b : List TopicEvent} (h : t.kept = a ++ b) : (t.sweep a b).view = t.view := by
  show Mux.view (t.pruned ++ a ++ b) = _
  rw [List.append_assoc, ← h]
  rfl

@[simp] theorem view_setLane (t : Topic φ) (i : ℕ) (l : Lane φ) :
    (t.setLane i l).view = t.view := rfl

@[simp] theorem view_drop (t : Topic φ) (k : Incarnation) (index : ℕ) :
    (t.drop k index).view = t.view := rfl

@[simp] theorem view_join (t : Topic φ) (l : Lane φ) : (t.join l).view = t.view := rfl

@[simp] theorem view_leave (t : Topic φ) (i : ℕ) : (t.leave i).view = t.view := rfl

/-- A marker is not part of the scan. -/
theorem scan_emitTo (memberRef : UInt16) (t : Topic φ) (mark : Mark) :
    (mark.emitTo memberRef t).view.toScan = t.view.toScan := by
  cases mark with
  | none => rfl
  | gap a b => exact (congrArg View.toScan (view_emit _ _)).trans (View.step_marker trivial)
  | regressed a b => exact (congrArg View.toScan (view_emit _ _)).trans (View.step_marker trivial)

section Tables

variable (v : View)

theorem rows_refs (t : Topic φ) :
    (t.lanes.map Lane.row).map Entry.memberRef = t.lanes.map Lane.memberRef := by
  simp [Lane.row]

theorem rows_members (t : Topic φ) :
    (t.lanes.map Lane.row).map Entry.member = t.lanes.map Lane.member := by
  simp [Lane.row]

/-- A slot table puts every lane's ref in force, -/
theorem WF.active_table (h : t.WF files) (hl : l ∈ t.lanes) :
    (v.step t.table).active l.memberRef = some l.member :=
  View.active_table (by rw [rows_refs]; exact h.refs)
    (List.mem_map_of_mem (f := Lane.row) hl)

/-- and records every lane's cursor. -/
theorem WF.next_table (h : t.WF files) (hl : l ∈ t.lanes) :
    (v.step t.table).next l.member = l.cursor :=
  View.next_table (by rw [rows_members]; exact h.members)
    (List.mem_map_of_mem (f := Lane.row) hl)

theorem next_table_of_not_mem {k : Incarnation} (h : ∀ l ∈ t.lanes, l.member ≠ k) :
    (v.step t.table).next k = v.next k := by
  refine View.next_table_of_not_mem fun e he => ?_
  obtain ⟨l, hl, rfl⟩ := List.mem_map.mp he
  exact h l hl

end Tables

/-- The lanes after one was replaced: it, and those of other members. -/
theorem WF.mem_setLane (h : t.WF files) (hi : t.lanes[i]? = some l) {l' x : Lane φ}
    (hx : x ∈ (t.setLane i l').lanes) : x = l' ∨ x ∈ t.lanes ∧ x.member ≠ l.member :=
  Sequence.mem_set_of_nodup h.members hi hx

/-! ## Readers and cursors -/

/-- No reader is past the cursor of its lane. -/
def Level (t : Topic φ) : Prop := ∀ l ∈ t.lanes, l.position = l.cursor

theorem Level.pass (h : t.Level) (i : ℕ) (l : Lane φ) : (t.setLane i l.pass).Level :=
  Sequence.forall_mem_set h i rfl

theorem Level.step {mtu : UInt32} (h : t.Level) (hs : Step files mtu t t') : t'.Level := by
  cases hs with
  | reject => exact h.pass _ _
  | merge => exact h.pass _ _
  | refresh => exact h
  | roll => exact h
  | closing => exact h
  | detach => exact fun x hx => h x ((List.eraseIdx_sublist _ _).mem hx)
  | terminal => exact h

/-! ## The table in force -/

/-- The table in force names every lane. That is what attributes the records
of a lane to its member. -/
def Named (t : Topic φ) : Prop := ∀ l ∈ t.lanes, t.view.active l.memberRef = some l.member

theorem Named.congr (h : t.Named) (hl : ∀ x ∈ t'.lanes, ∃ y ∈ t.lanes, x.memberRef = y.memberRef ∧
    x.member = y.member) (hv : t'.view.active = t.view.active) : t'.Named := by
  intro x hx
  obtain ⟨y, hy, href, hmem⟩ := hl x hx
  rw [hv, href, hmem]
  exact h y hy

theorem named_of_no_lanes (h : t.lanes = []) : t.Named := by
  intro l hl
  rw [h] at hl
  cases hl

theorem named_retable (h : t.WF files) : (t.emit t.table).Named := by
  intro l hl
  rw [view_emit]
  exact h.active_table t.view hl

theorem Named.setLane (h : t.Named) (hi : t.lanes[i]? = some l) (l' : Lane φ)
    (href : l'.memberRef = l.memberRef) (hmem : l'.member = l.member)
    (hl : t'.lanes = (t.setLane i l').lanes) (hv : t'.view.active = t.view.active) :
    t'.Named := by
  refine h.congr (fun x hx => ?_) hv
  rw [hl] at hx
  rcases List.mem_or_eq_of_mem_set hx with hx | rfl
  · exact ⟨x, hx, rfl, rfl⟩
  · exact ⟨l, mem_of_lane hi, href, hmem⟩

theorem active_emit_marker {e : TopicEvent} (he : e.Marker) :
    (t.emit e).view.active = t.view.active := by
  rw [view_emit]
  exact congrArg Scan.active (View.step_marker he)

theorem Named.step {mtu : UInt32} (h : t.Named) (hwf : t.WF files) (hs : Step files mtu t t') :
    t'.Named := by
  cases hs with
  | reject hr => exact h.setLane hr.lane (Lane.pass _) rfl rfl rfl rfl
  | merge hr =>
      refine h.setLane hr.lane (Lane.pass _) rfl rfl rfl ?_
      rw [view_emit]
      exact View.active_data _ _ _
  | refresh => exact named_retable hwf
  | roll hk => exact named_retable (t := t.sweep _ _) (hwf.congr rfl rfl)
  | closing => exact h.congr (fun x hx => ⟨x, hx, rfl, rfl⟩) (active_emit_marker trivial)
  | detach => exact named_retable (hwf.leave _)
  | terminal => exact h.congr (fun x hx => ⟨x, hx, rfl, rfl⟩) (active_emit_marker trivial)

theorem Named.attach (hwf : t.WF files) (hj : Joins files t l mark) : (t.attach l mark).Named := by
  refine (named_retable (hwf.join hj)).congr (fun x hx => ⟨x, ?_, rfl, rfl⟩)
    (congrArg Scan.active (scan_emitTo _ _ _))
  rwa [Topic.attach, lanes_emitTo] at hx

theorem Named.torn {mtu : UInt32} (h : t.Named) (ht : Torn files mtu t t') : t'.Named := by
  cases ht with
  | lose hr => exact h.setLane hr.lane (Lane.lose _) rfl rfl rfl rfl
  | rollLose hr _ hk =>
      exact h.setLane hr.lane (Lane.lose _) rfl rfl rfl
        (congrArg (fun v => v.toScan.active) (view_sweep hk))
  | drop =>
      exact h.congr (fun x hx => ⟨x, (List.eraseIdx_sublist _ _).mem hx, rfl, rfl⟩) rfl

theorem Named.steps {mtu : UInt32} (h : t.Named) (hwf : t.WF files)
    (hs : Relation.ReflTransGen (Step files mtu) t t') : t'.Named := by
  induction hs with
  | refl => exact h
  | tail hsteps hstep ih => exact ih.step (hwf.steps hsteps) hstep

/-! ## Who is attached -/

def Attached (t : Topic φ) (k : Incarnation) : Prop := k ∈ t.lanes.map Lane.member

theorem attached_of_mem (h : l ∈ t.lanes) : t.Attached l.member := List.mem_map_of_mem h

theorem attached_setLane {k : Incarnation} (hi : t.lanes[i]? = some l) (l' : Lane φ)
    (hmem : l'.member = l.member) : (t.setLane i l').Attached k ↔ t.Attached k := by
  rw [Attached, stays_setLane hi l' hmem]
  rfl

theorem attached_leave {k : Incarnation} (hi : t.lanes[i]? = some l) (hk : t.Attached k)
    (hne : l.member ≠ k) : (t.leave i).Attached k := by
  obtain ⟨x, hx, rfl⟩ := List.mem_map.mp hk
  obtain ⟨j, hj⟩ := List.getElem?_of_mem hx
  refine List.mem_map_of_mem (List.mem_eraseIdx_iff_getElem?.mpr ⟨j, ?_, hj⟩)
  rintro rfl
  rw [hi] at hj
  cases hj
  exact hne rfl

theorem attached_of_leave {k : Incarnation} (h : (t.leave i).Attached k) : t.Attached k := by
  obtain ⟨x, hx, rfl⟩ := List.mem_map.mp h
  exact attached_of_mem ((List.eraseIdx_sublist _ _).mem hx)

/-- No step attaches a member. -/
theorem Step.attached {mtu : UInt32} {k : Incarnation} (hs : Step files mtu t t')
    (hk : t'.Attached k) : t.Attached k := by
  cases hs with
  | reject hr => exact (attached_setLane hr.lane (Lane.pass _) rfl).mp hk
  | merge hr => exact (attached_setLane hr.lane (Lane.pass _) rfl).mp hk
  | refresh => exact hk
  | roll => exact hk
  | closing => exact hk
  | detach => exact attached_of_leave hk
  | terminal => exact hk

theorem Step.recovered {mtu : UInt32} (hs : Step files mtu t t') : t'.recovered = t.recovered := by
  cases hs <;> rfl

end Topic

end XchannelNet
