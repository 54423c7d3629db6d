import XchannelNet.Mux.Ledger

/-!
# Audit — every record of the topic accounted for

Over any run of sessions the ledger can be kept alongside, and it stays
`Sound`: the records of the log are those emitted, in order, the mux's own
ones decode to what they were written from, and a member's record is never one
of the reserved types. Sessions may differ in name and geometry.
-/

namespace XchannelNet

namespace Mux

open Fallible

namespace Emission

/-- Whether the mux itself is the author. -/
def control : Emission → Bool
  | .data _ _ => false
  | _ => true

/-- The member a record is about. -/
def subject : Emission → Option SlotEntry
  | .slotTable _ => none
  | .topicGap e _ _ => some e
  | .memberRegressed e _ _ => some e
  | .memberClosed e => some e
  | .terminal => none
  | .data e _ => some e

/-- What a record says. -/
def event : Emission → TopicEvent
  | .slotTable t => .table (t.members.map SlotEntry.row)
  | .topicGap e a b => .gap e.memberRef (UInt64.ofNat a).toNat (UInt64.ofNat b).toNat
  | .memberRegressed e a b => .regressed e.memberRef (UInt64.ofNat a).toNat (UInt64.ofNat b).toNat
  | .memberClosed e => .closed e.memberRef e.cursor.toNat
  | .terminal => .other
  | .data e f => .data e.memberRef (UInt64.ofNat f.index).toNat f.record

theorem about_event (e : Emission) :
    e.event.about.map Prod.fst = e.subject.map (·.memberRef) := by
  cases e <;> rfl

def Sound : Emission → Prop
  | .slotTable t => (t.members.map SlotEntry.memberRef).Nodup ∧ t.members.length < 65536 ∧
      ∀ e ∈ t.members, (nameBytes e.name).length < 65536
  | .data _ f => isControl f.msgType = false
  | _ => True

end Emission

/-- The ref a record carries, if it carries one. -/
def memberRefOf (r : Record) : Option UInt16 :=
  (event r).toOption.bind fun e => e.about.map Prod.fst

namespace Emission.Sound

variable {e : Emission}

theorem isControl (h : e.Sound) : isControl e.record.msgType = e.control := by
  cases e with
  | data x f => exact h
  | _ => rfl

theorem decodeSlotTable {t : SlotTable} (h : (Emission.slotTable t).Sound) :
    decodeSlotTable (Emission.slotTable t).record.payload = .ok t :=
  decodeSlotTable_encodeSlotTable _ h.2.1 h.2.2

/-- A sound record decodes to what it was written from. -/
theorem event (h : e.Sound) : Mux.event e.record = .ok e.event := by
  cases e with
  | slotTable t =>
      have hev : Mux.event (Emission.slotTable t).record =
          (Mux.decodeSlotTable (Emission.slotTable t).record.payload).map fun t =>
            .table (t.members.map SlotEntry.row) := rfl
      rw [hev, h.decodeSlotTable]
      rfl
  | topicGap x a b => exact event_topicGap _
  | memberRegressed x a b => exact event_memberRegressed _
  | memberClosed x => exact event_memberClosed _
  | terminal => exact event_terminal
  | data x f => exact event_frameData _ h

theorem memberRefOf (h : e.Sound) : memberRefOf e.record = e.subject.map (·.memberRef) := by
  rw [Mux.memberRefOf, h.event]
  exact e.about_event

end Emission.Sound

/-! ## Sound ledgers -/

namespace Ledger

structure Sound (l : Ledger) : Prop where
  refs : (l.slots.map SlotEntry.memberRef).Nodup
  below : ∀ e ∈ l.slots, e.memberRef < l.nextRef
  names : ∀ e ∈ l.slots, (nameBytes e.name).length < 65536
  emitted : ∀ e ∈ l.emitted, e.Sound
  records : l.log.records = l.emitted.map Emission.record

namespace Sound

variable {l l' : Ledger}

theorem table (h : l.Sound) : l.table.Sound := by
  have hlen := length_le_of_refs h.refs (n := l.nextRef) (by simpa using h.below)
  have := l.nextRef.toNat_lt
  rw [List.length_map] at hlen
  exact ⟨h.refs, lt_of_le_of_lt hlen this, h.names⟩

theorem emit (h : l.Sound) {e : Emission} (he : e.Sound) : (l.emit e).Sound where
  refs := h.refs
  below := h.below
  names := h.names
  emitted x hx := by
    rcases List.mem_append.mp hx with hx | hx
    · exact h.emitted x hx
    · rwa [List.mem_singleton.mp hx]
  records := by
    show (l.log.append e.record).records = (l.emitted ++ [e]).map Emission.record
    rw [SegLog.records_append, h.records, List.map_append]
    rfl

theorem roll (h : l.Sound) (k : ℕ) : (l.roll k).Sound :=
  ⟨h.refs, h.below, h.names, h.emitted, (SegLog.records_roll _).trans h.records⟩

/-- What the slots are may change as long as refs, names and counter do not. -/
theorem slots (h : l.Sound) {slots : List SlotEntry} {nextRef : UInt16}
    (hr : (slots.map SlotEntry.memberRef).Nodup) (hb : ∀ e ∈ slots, e.memberRef < nextRef)
    (hn : ∀ e ∈ slots, (nameBytes e.name).length < 65536) :
    ({ l with slots, nextRef } : Ledger).Sound :=
  ⟨hr, hb, hn, h.emitted, h.records⟩

theorem advance (h : l.Sound) {i : ℕ} {e : SlotEntry} (he : l.slots[i]? = some e)
    (cursor : UInt64) : (l.advance i e cursor).Sound := by
  have hmem := List.mem_of_getElem? he
  refine h.slots ?_ (Sequence.forall_mem_set h.below i (h.below e hmem))
    (Sequence.forall_mem_set h.names i (h.names e hmem))
  rw [map_set_eq SlotEntry.memberRef he { e with cursor } rfl]
  exact h.refs

theorem bump (h : l.Sound) (hspace : l.nextRef ≠ 65535) : l.bump.Sound :=
  h.slots h.refs (fun e he => Topic.lt_nextRef_succ hspace (UInt16.le_of_lt (h.below e he))) h.names

theorem push (h : l.Sound) {e : SlotEntry} (he : l.Admits e) : (l.push e).Sound := by
  have hbelow := (h.bump he.space).below
  refine h.slots (Sequence.nodup_map_concat h.refs fun x hx hxe => ?_)
    (Sequence.forall_mem_concat hbelow ?_) (Sequence.forall_mem_concat h.names he.name)
  · have hlt := h.below x hx
    rw [hxe, he.ref] at hlt
    exact absurd hlt (UInt16.lt_irrefl _)
  · rw [he.ref]
    exact Topic.lt_nextRef_succ he.space (UInt16.le_refl _)

theorem erase (h : l.Sound) (i : ℕ) : (l.erase i).Sound := by
  have hsub := List.eraseIdx_sublist l.slots i
  exact h.slots (h.refs.sublist (hsub.map _)) (fun x hx => h.below x (hsub.mem hx))
    fun x hx => h.names x (hsub.mem hx)

theorem reopen (h : l.Sound) {log : Log} (hlog : log.toSegLog = l.log.toSegLog)
    (geometry : TopicGeometry) : (l.reopen log geometry).Sound where
  refs := List.nodup_nil
  below := by simp [Ledger.reopen]
  names := by simp [Ledger.reopen]
  emitted := h.emitted
  records := by
    show log.toSegLog.records = _
    rw [hlog]
    exact h.records

theorem act (h : l.Sound) (ha : Act l l') : l'.Sound := by
  cases ha with
  | pass he cursor => exact h.advance he cursor
  | merge he hrej cursor => exact (h.advance he cursor).emit (rejects_eq_false hrej)
  | refresh he => exact h.emit h.table
  | roll he k => exact (h.roll k).emit h.table
  | bump hf hspace => exact h.bump hspace
  | attach he => exact (h.push he).emit (h.push he).table
  | gap he a b => exact h.emit trivial
  | regressed he a b => exact h.emit trivial
  | closing he => exact h.emit trivial
  | detach he hclosed => exact (h.erase _).emit (h.erase _).table

theorem step (h : l.Sound) (hs : Step l l') : l'.Sound := by
  cases hs with
  | act ha => exact h.act ha
  | terminate hf hs =>
      have he : (l.emit .terminal).Sound := h.emit trivial
      exact ⟨he.refs, he.below, he.names, he.emitted, he.records⟩

theorem steps (h : l.Sound) (hs : Relation.ReflTransGen Step l l') : l'.Sound := by
  induction hs with
  | refl => exact h
  | tail _ hlast ih => exact ih.step hlast

theorem cut (h : l.Sound) (hc : Cut l l') : l'.Sound := by
  cases hc with
  | roll he k => exact h.roll k
  | attach he => exact h.push he
  | detach he hclosed => exact h.erase _

theorem turn {φ : Type} {a : Action φ} (h : l.Sound) (ht : l.Turn a l') : l'.Sound := by
  cases ht with
  | grow => exact h
  | «open» hlog geometry => exact h.reopen hlog geometry
  | op hs => exact h.steps hs
  | cut hs hc => exact (h.steps hs).cut hc
  | kill => exact h

end Sound

end Ledger

/-! ## Runs with their ledger -/

section

variable {φ : Type} [DecidableEq φ] (ok : Setup → World φ → Action φ → Prop)

/-- One action of a run of sessions, of any name and geometry each. -/
def Acting (w w' : World φ) : Prop := ∃ (c : Setup) (a : Action φ), Step c w a w' ∧ ok c w a

/-- The same with the ledger kept alongside. -/
def Auditing (x y : World φ × Ledger) : Prop :=
  ∃ (c : Setup) (a : Action φ), Step c x.1 a y.1 ∧ ok c x.1 a ∧ x.2.Turn a y.2 ∧ Follows y.1 y.2

/-- A topic that is yet to be created, and a ledger without an entry. -/
def Unwritten (x : World φ × Ledger) : Prop :=
  Init x.1 ∧ x.2.log.toSegLog = .empty 0 ∧ x.2.slots = [] ∧ x.2.finished = false ∧ x.2.emitted = []

/-- `l` is the ledger of a run that got to `w`. -/
def Audited (w : World φ) (l : Ledger) : Prop :=
  Run.Reachable Unwritten (Auditing ok) (w, l)

variable {ok} {w : World φ} {l : Ledger}

omit [DecidableEq φ] in
theorem Unwritten.follows {x : World φ × Ledger} (h : Unwritten x) : Follows x.1 x.2 := by
  unfold Follows
  rw [h.1.1]
  exact ⟨h.2.1, h.2.2.2.2⟩

theorem Audited.follows (h : Audited ok w l) : Follows w l := by
  have hinv : ∀ x, Run.Reachable Unwritten (Auditing ok) x → Follows x.1 x.2 := by
    intro x hx
    cases hx with
    | start h => exact h.follows
    | next _ h =>
        obtain ⟨c, a, -, -, -, hf⟩ := h
        exact hf
  exact hinv _ h

omit [DecidableEq φ] in
theorem Unwritten.sound {x : World φ × Ledger} (h : Unwritten x) : x.2.Sound := by
  obtain ⟨-, hlog, hs, -, hem⟩ := h
  refine ⟨by simp [hs], by simp [hs], by simp [hs], by simp [hem], ?_⟩
  rw [hlog, hem]
  rfl

theorem Audited.sound (h : Audited ok w l) : l.Sound := by
  have hinv : ∀ x, Run.Reachable Unwritten (Auditing ok) x → x.2.Sound := by
    intro x hx
    induction hx with
    | start h => exact h.sound
    | next _ h ih =>
        obtain ⟨c, a, -, -, ht, -⟩ := h
        exact ih.turn ht
  exact hinv _ h

/-- **Invariant rule** for runs with a ledger. -/
theorem Audited.invariant (h : Audited ok w l) (Inv : World φ × Ledger → Prop)
    (hinit : ∀ x, Unwritten x → Inv x)
    (hstep : ∀ x y, x.2.Sound → Follows x.1 x.2 → Inv x → Auditing ok x y → Inv y) :
    Inv (w, l) := by
  have hinv : ∀ x, Run.Reachable Unwritten (Auditing ok) x → Inv x := by
    intro x hx
    induction hx with
    | start h => exact hinit _ h
    | next hx hnext ih => exact hstep _ _ (Audited.sound hx) (Audited.follows hx) ih hnext
  exact hinv _ h

/-- A ledger without an entry. -/
def Ledger.blank : Ledger := ⟨⟨.empty 0, "", 0, 0⟩, ⟨0, 0, 0, 0⟩, [], 0, false, []⟩

omit [DecidableEq φ] in
theorem unwritten_blank (h : Init w) : Unwritten (w, .blank) := ⟨h, rfl, rfl, rfl, rfl⟩

/-- A ledger can be kept of every run. -/
theorem exists_audited (h : Run.Reachable Init (Acting ok) w) : ∃ l, Audited ok w l := by
  induction h with
  | start h => exact ⟨.blank, .start (unwritten_blank h)⟩
  | next _ h ih =>
      obtain ⟨l, hl⟩ := ih
      obtain ⟨c, a, hstep, ha⟩ := h
      obtain ⟨l', ht, hf⟩ := hl.follows.step hstep
      exact ⟨l', hl.next ⟨c, a, hstep, ha, ht, hf⟩⟩

/-- A computed run of sessions, each command with what its topic is opened
with. -/
theorem exists_acting (ok : Setup → World φ → Action φ → Prop) [∀ c w a, Decidable (ok c w a)]
    (w : World φ) (cmds : List (Setup × Command φ)) (P : World φ → Prop) [DecidablePred P]
    (h₀ : Init w)
    (h : (Run.runs (fun w x => (w.perform x.1 x.2).map fun y => ((x.1, y.1), y.2))
      (fun w a _ => ok a.1 w a.2) w cmds).any (fun w => decide (P w)) = true) :
    ∃ w', Run.Reachable Init (Acting ok) w' ∧ P w' := by
  refine Run.exists_reachable _ _ _ _ ?_ w cmds P h₀ h
  intro w x a w' hp ha
  obtain ⟨y, hy, hya⟩ := Option.map_eq_some_iff.mp hp
  cases hya
  exact ⟨x.1, y.1, World.step_of_perform hy, ha⟩

end

end Mux

end XchannelNet
