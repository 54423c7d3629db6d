import XchannelNet.Mux.Rounds

/-!
# Refinement — the engine does what the model says

`Models` relates a mux to a topic: the slots are the lanes, and the records of
the log decode to the events. Every operation of the engine does whole steps
of the model, and a torn one at the end only if a write failed. All that is
about bytes, readers and 16- or 64-bit fields is settled here; what follows
from a run is argued about topics. `add_member` is not a matter of steps: how
it can end is listed case by case (`Added`).
-/

namespace XchannelNet

namespace Mux

variable {φ : Type}

def Slot.lane (s : Slot φ) : Lane φ :=
  ⟨s.memberRef, s.member, s.file, s.cursor, s.source.nextIndex⟩

/-- Indices are 64 bits wide. -/
def Bounded (files : φ → Log) : Prop := ∀ f, (files f).head < 2 ^ 64

theorem Bounded.update [DecidableEq φ] {files : φ → Log} (h : Bounded files) (f : φ) {l : Log}
    (hl : l.head < 2 ^ 64) : Bounded (Function.update files f l) := by
  intro g
  by_cases hg : g = f
  · subst hg
    simpa using hl
  · simpa [Function.update_of_ne hg] using h g

structure Models (files : φ → Log) (mtu : UInt32) (m : Mux φ) (t : Topic φ) : Prop where
  lanes : t.lanes = m.slots.map Slot.lane
  nextRef : t.nextRef = m.nextRef
  recovered : t.recovered = m.recovered
  dropped : t.dropped = m.dropped
  records : m.topic.log.records.map event = t.history.map .ok
  pruned : t.pruned.length = m.topic.log.earliest - m.topic.log.genesis
  wf : t.WF files
  source : ∀ s ∈ m.slots, s.source.At (files s.file)
  names : ∀ s ∈ m.slots, (nameBytes s.name).length < 65536
  mtu : m.geometry.mtu = mtu

/-- From topic `t`, an operation that ended as `r` did whole steps, and a torn
one at the end only if a write failed. -/
abbrev Refines {α : Type} (files : φ → Log) (mtu : UInt32) (t : Topic φ)
    (r : Except MuxError α × Mux φ) : Prop :=
  Fallible.Ends (Models files mtu) (Topic.Step files mtu) (Topic.Torn files mtu) Interrupts t r

/-- The same of an operation that neither attaches nor detaches anybody. -/
abbrev Merges {α : Type} (files : φ → Log) (mtu : UInt32) (t : Topic φ)
    (r : Except MuxError α × Mux φ) : Prop :=
  Fallible.Ends (Models files mtu) (fun t t' => Topic.Step files mtu t t' ∧ t.Stays t')
    (fun t t' => Topic.Torn files mtu t t' ∧ t.Stays t') Interrupts t r

/-! ## The events of what the mux writes -/

theorem toNat_ofNat_of_lt {n : ℕ} (h : n < 2 ^ 64) : (UInt64.ofNat n).toNat = n := by
  rw [UInt64.toNat_ofNat', Nat.mod_eq_of_lt h]

theorem event_frameData {f : RecordFrame} (memberRef : UInt16)
    (hc : isControl f.msgType = false) :
    event ⟨f.msgType, 0, frameData ⟨memberRef, UInt64.ofNat f.index, f.userMeta⟩ f.payload⟩ =
      .ok (.data memberRef (UInt64.ofNat f.index).toNat f.record) := by
  simp only [event, if_neg (ne_slotTable_of_not_control hc), hc, split_frameData, Except.map]
  rfl

theorem event_topicGap (g : TopicGap) :
    event ⟨MSG_TYPE_TOPIC_GAP, 0, g.toPayload⟩ =
      .ok (.gap g.memberRef g.fromIndex.toNat g.resumedAt.toNat) := by
  have ht : MSG_TYPE_TOPIC_GAP ≠ MSG_TYPE_SLOT_TABLE := by decide
  have hc : isControl MSG_TYPE_TOPIC_GAP = true := by decide
  simp [event, ht, hc, TopicGap.decode, TopicGap.toPayload, decodeMarker_markerPayload, Except.map]

theorem event_memberRegressed (g : MemberRegressed) :
    event ⟨MSG_TYPE_MEMBER_REGRESSED, 0, g.toPayload⟩ =
      .ok (.regressed g.memberRef g.expected.toNat g.head.toNat) := by
  have ht : MSG_TYPE_MEMBER_REGRESSED ≠ MSG_TYPE_SLOT_TABLE := by decide
  have hg : MSG_TYPE_MEMBER_REGRESSED ≠ MSG_TYPE_TOPIC_GAP := by decide
  have hc : isControl MSG_TYPE_MEMBER_REGRESSED = true := by decide
  simp [event, ht, hg, hc, MemberRegressed.decode, MemberRegressed.toPayload,
    decodeMarker_markerPayload, Except.map]

theorem decode_memberClosed (c : MemberClosed) : MemberClosed.decode c.toPayload = .ok c := by
  obtain ⟨memberRef, finalIndex⟩ := c
  have hlen : ¬ (MemberClosed.toPayload ⟨memberRef, finalIndex⟩).length < 10 := by
    simp [MemberClosed.toPayload]
  rw [MemberClosed.decode, if_neg hlen]
  simp [MemberClosed.toPayload]

theorem event_memberClosed (c : MemberClosed) :
    event ⟨MSG_TYPE_MEMBER_CLOSED, 0, c.toPayload⟩ =
      .ok (.closed c.memberRef c.finalIndex.toNat) := by
  have ht : MSG_TYPE_MEMBER_CLOSED ≠ MSG_TYPE_SLOT_TABLE := by decide
  have hg : MSG_TYPE_MEMBER_CLOSED ≠ MSG_TYPE_TOPIC_GAP := by decide
  have hr : MSG_TYPE_MEMBER_CLOSED ≠ MSG_TYPE_MEMBER_REGRESSED := by decide
  have hc : isControl MSG_TYPE_MEMBER_CLOSED = true := by decide
  simp [event, ht, hg, hr, hc, decode_memberClosed]

theorem event_terminal : event ⟨MSG_TYPE_TERMINAL, 0, []⟩ = .ok .other := rfl

-- indices that fit in 64 bits are read back as they are

theorem event_data {f : RecordFrame} (memberRef : UInt16) (hc : isControl f.msgType = false)
    (hi : f.index < 2 ^ 64) :
    event ⟨f.msgType, 0, frameData ⟨memberRef, UInt64.ofNat f.index, f.userMeta⟩ f.payload⟩ =
      .ok (.data memberRef f.index f.record) := by
  rw [event_frameData memberRef hc, toNat_ofNat_of_lt hi]

theorem event_gap (memberRef : UInt16) {a b : ℕ} (ha : a < 2 ^ 64) (hb : b < 2 ^ 64) :
    event ⟨MSG_TYPE_TOPIC_GAP, 0,
      TopicGap.toPayload ⟨memberRef, UInt64.ofNat a, UInt64.ofNat b⟩⟩ =
      .ok (.gap memberRef a b) := by
  rw [event_topicGap, toNat_ofNat_of_lt ha, toNat_ofNat_of_lt hb]

theorem event_regressed (memberRef : UInt16) (a : ℕ) {b : ℕ} (hb : b < 2 ^ 64) :
    event ⟨MSG_TYPE_MEMBER_REGRESSED, 0,
      MemberRegressed.toPayload ⟨memberRef, UInt64.ofNat a, UInt64.ofNat b⟩⟩ =
      .ok (.regressed memberRef (a % 2 ^ 64) b) := by
  rw [event_memberRegressed, toNat_ofNat_of_lt hb]
  rfl

theorem event_closed (memberRef : UInt16) {i : ℕ} (hi : i < 2 ^ 64) :
    event ⟨MSG_TYPE_MEMBER_CLOSED, 0, MemberClosed.toPayload ⟨memberRef, UInt64.ofNat i⟩⟩ =
      .ok (.closed memberRef i) := by
  rw [event_memberClosed, toNat_ofNat_of_lt hi]

/-- What a topic's files hold, as events. -/
def Stored (pruned kept : List TopicEvent) : Option Log → Prop
  | none => pruned = [] ∧ kept = []
  | some l => l.records.map event = (pruned ++ kept).map .ok ∧
      pruned.length = l.earliest - l.genesis

section Stored

variable {pruned kept : List TopicEvent} {l : Log}

theorem Stored.retained (h : Stored pruned kept (some l)) :
    (l.contents.map Prod.fst).map event = kept.map .ok := by
  rw [SegLog.contents_map_fst, List.map_drop, h.1, ← h.2, ← List.map_drop, List.drop_left]

theorem Stored.commit (h : Stored pruned kept (some l)) {r : Record} {e : TopicEvent}
    (he : event r = .ok e) : Stored pruned (kept ++ [e]) (some (l.commit r)) := by
  have hrec : (l.commit r).records = l.records ++ [r] := SegLog.records_append _ _
  have hear : (l.commit r).earliest = l.earliest := SegLog.earliest_append _ _
  refine ⟨?_, ?_⟩
  · rw [hrec, List.map_append, h.1]
    simp [he]
  · rw [hear]
    exact h.2

/-- A roll closes the segment; the sweep takes events off the front. -/
theorem Stored.roll (h : Stored pruned kept (some l)) (k : ℕ) :
    ∃ a b, kept = a ++ b ∧ Stored (pruned ++ a) b (some (l.rollFile.pruneTo k)) := by
  have hle : l.earliest ≤ (l.rollFile.pruneTo k).earliest := by
    rw [← SegLog.earliest_roll l.toSegLog]
    exact SegLog.earliest_le_prune _ _
  have hup : (l.rollFile.pruneTo k).earliest ≤ l.head := by
    rw [← SegLog.head_roll l.toSegLog]
    exact SegLog.earliest_le_head _
  have hge := l.genesis_le_earliest
  have hlen : pruned.length + kept.length = l.records.length := by
    simpa using (congrArg List.length h.1).symm
  let n := (l.rollFile.pruneTo k).earliest - l.earliest
  refine ⟨kept.take n, kept.drop n, (List.take_append_drop n _).symm, ?_, ?_⟩
  · have hrec : (l.rollFile.pruneTo k).records = l.records := SegLog.records_roll _
    rw [hrec, h.1]
    simp
  · have hpr := h.2
    have hhead : l.head = l.genesis + l.records.length := rfl
    show (pruned ++ kept.take n).length = (l.rollFile.pruneTo k).earliest - l.genesis
    rw [List.length_append, List.length_take]
    omega

end Stored

namespace Models

variable {files : φ → Log} {mtu : UInt32} {m m' : Mux φ} {t : Topic φ} {log : Log}

theorem stored (h : Models files mtu m t) : Stored t.pruned t.kept (some m.topic.log) :=
  ⟨h.records, h.pruned⟩

/-- What the log retains is what the topic keeps. -/
theorem retained (h : Models files mtu m t) :
    (m.topic.log.contents.map Prod.fst).map event = t.kept.map .ok := h.stored.retained

/-- All else stays as it is when something is written. -/
theorem write (h : Models files mtu m t) (hb : m.Becomes log m')
    {pruned kept : List TopicEvent} (hst : Stored pruned kept (some log)) :
    Models files mtu m' { t with pruned, kept } where
  lanes := by rw [hb.slots]; exact h.lanes
  nextRef := h.nextRef.trans hb.nextRef.symm
  recovered := h.recovered.trans hb.recovered.symm
  dropped := h.dropped.trans hb.dropped.symm
  records := by rw [hb.log]; exact hst.1
  pruned := by rw [hb.log]; exact hst.2
  wf := h.wf.congr rfl rfl
  source := by rw [hb.slots]; exact h.source
  names := by rw [hb.slots]; exact h.names
  mtu := by rw [hb.geometry, h.mtu]

/-- The bookkeeping fields are not part of the model. -/
theorem frame (h : Models files mtu m t) (hb : m.Becomes m.topic.log m') : Models files mtu m' t :=
  h.write hb h.stored

theorem emit (h : Models files mtu m t) {r : Record} {e : TopicEvent} (he : event r = .ok e)
    (hb : m.Becomes (m.topic.log.commit r) m') : Models files mtu m' (t.emit e) :=
  h.write hb (h.stored.commit he)

/-- One slot is replaced by another of the same member. -/
theorem setSlot (h : Models files mtu m t) {i : ℕ} {s : Slot φ} (hi : m.slots[i]? = some s)
    (s' : Slot φ) (hname : s'.name = s.name) (hat : s'.source.At (files s'.file))
    (hwf : (t.setLane i s'.lane).WF files) :
    Models files mtu (m.setSlot i s') (t.setLane i s'.lane) where
  lanes := by
    show t.lanes.set i s'.lane = (m.slots.set i s').map Slot.lane
    rw [List.map_set, ← h.lanes]
  nextRef := h.nextRef
  recovered := h.recovered
  dropped := h.dropped
  records := h.records
  pruned := h.pruned
  wf := hwf
  source := Sequence.forall_mem_set h.source _ hat
  names := Sequence.forall_mem_set h.names i (hname ▸ h.names s (List.mem_of_getElem? hi))
  mtu := h.mtu

theorem slot (h : Models files mtu m t) {i : ℕ} {l : Lane φ} (hl : t.lanes[i]? = some l) :
    ∃ s, m.slots[i]? = some s ∧ s.lane = l := by
  rw [h.lanes, List.getElem?_map, Option.map_eq_some_iff] at hl
  exact hl

theorem lane (h : Models files mtu m t) {i : ℕ} {s : Slot φ} (hs : m.slots[i]? = some s) :
    t.lanes[i]? = some s.lane := by
  rw [h.lanes, List.getElem?_map, hs, Option.map_some]

theorem cursor_lt (h : Models files mtu m t) (hb : Bounded files) {l : Lane φ}
    (hl : l ∈ t.lanes) : l.cursor < 2 ^ 64 := by
  have h₁ := h.wf.cursor l hl
  have h₂ := h.wf.position l hl
  have h₃ := hb l.file
  omega

/-- The slot table the engine encodes is the topic's. -/
theorem event_table (h : Models files mtu m t) (hb : Bounded files) :
    event m.tableRecord = .ok t.table := by
  have hlen : (m.slots.map Slot.entry).length < 65536 := by
    have := h.wf.length_lt
    rw [h.lanes, List.length_map] at this
    rwa [List.length_map]
  have hname : ∀ e ∈ m.slots.map Slot.entry, (nameBytes e.name).length < 65536 := by
    intro e he
    obtain ⟨s, hs, rfl⟩ := List.mem_map.mp he
    exact h.names s hs
  rw [tableRecord, slotTable, event, if_pos rfl, decodeSlotTable_encodeSlotTable _ hlen hname,
    Topic.table, h.lanes, Except.map, List.map_map, List.map_map]
  congr 2
  refine List.map_congr_left fun s hs => ?_
  have hlt : s.cursor < 2 ^ 64 := h.cursor_lt hb (by
    rw [h.lanes]
    exact List.mem_map_of_mem (f := Slot.lane) hs)
  simp [Slot.entry, SlotEntry.row, Lane.row, Slot.lane, Slot.member, toNat_ofNat_of_lt hlt]

end Models

/-! ## Merging -/

open Fallible

variable {files : φ → Log} {mtu : UInt32} {m m' : Mux φ} {t : Topic φ}

theorem setLane_self {i : ℕ} {l : Lane φ} (h : t.lanes[i]? = some l) : t.setLane i l = t := by
  obtain ⟨hlt, hl⟩ := List.getElem?_eq_some_iff.mp h
  simp [Topic.setLane, ← hl]

theorem rejects_eq_false {r : Record} (h : rejects mtu r = false) :
    isControl r.msgType = false := by
  rw [rejects, Bool.or_eq_false_iff] at h
  exact h.1

namespace Models

variable {i : ℕ} {s : Slot φ} {f : RecordFrame} {source : ReplicationSource}

/-- A frame that is taken off a slot's reader is the record its lane is at. -/
theorem reads (h : Models files mtu m t) (ht : Takes files m i s f source) :
    Topic.Reads files t i s.lane f.record ∧ f.index = s.lane.position := by
  obtain ⟨-, -, hidx, hget⟩ := ht.next (h.source s (List.mem_of_getElem? ht.slot))
  exact ⟨⟨h.lane ht.slot, hget⟩, hidx⟩

/-- The frame was taken, and nothing else happened yet. -/
theorem lose (h : Models files mtu m t) (ht : Takes files m i s f source) :
    Models files mtu (m.setSlot i { s with source }) (t.setLane i s.lane.lose) := by
  obtain ⟨hat, hnext, -⟩ := ht.next (h.source s (List.mem_of_getElem? ht.slot))
  have hlose : ({ s with source } : Slot φ).lane = s.lane.lose := by
    simp [Slot.lane, Lane.lose, hnext, Slot.member]
  rw [← hlose]
  refine h.setSlot ht.slot { s with source } rfl hat ?_
  rw [hlose]
  exact h.wf.lose (h.reads ht).1

/-- The frame was taken and is on record, one way or another. -/
theorem pass (h : Models files mtu m t) (ht : Takes files m i s f source) (rejected : ℕ) :
    Models files mtu (m.setSlot i { s.past f source with rejected })
      (t.setLane i s.lane.pass) := by
  obtain ⟨hat, hnext, hidx, -⟩ := ht.next (h.source s (List.mem_of_getElem? ht.slot))
  have hpass : ({ s.past f source with rejected } : Slot φ).lane = s.lane.pass := by
    simp [Slot.past, Slot.lane, Lane.pass, hnext, hidx, Slot.member]
  rw [← hpass]
  refine h.setSlot ht.slot { s.past f source with rejected } rfl hat ?_
  rw [hpass]
  exact h.wf.pass (h.reads ht).1

theorem round (hb : Bounded files) (h : Models files mtu m t) (hr : Round files m m') :
    ∃ t', Relation.ReflTransGen (fun t t' => Topic.Step files mtu t t' ∧ t.Stays t') t t' ∧
      Models files mtu m' t' := by
  cases hr with
  | count hm => exact ⟨t, .refl, h.frame hm⟩
  | @rest i s source m' hs hr hm =>
      obtain ⟨hat, hnext, -⟩ := rest_of_none hr (h.source s (List.mem_of_getElem? hs))
      have hsame : ({ s with source } : Slot φ).lane = s.lane := by
        simp [Slot.lane, hnext, Slot.member]
      have hset := h.setSlot hs { s with source } rfl hat
        (by rw [hsame, setLane_self (h.lane hs)]; exact h.wf)
      rw [hsame, setLane_self (h.lane hs)] at hset
      exact ⟨t, .refl, hset.frame hm⟩
  | @reject i s f source m' ht hrej hm =>
      obtain ⟨hreads, hidx⟩ := h.reads ht
      rw [h.mtu] at hrej
      have hpass := h.pass ht (s.rejected + 1)
      have hdrop : Models files mtu (m.passOver i s f source)
          ((t.setLane i s.lane.pass).drop s.lane.member s.lane.position) :=
        { hpass with
          dropped := by
            rw [passOver, hidx, ← h.dropped]
            rfl
          wf := hpass.wf.congr rfl rfl }
      exact ⟨_, .single ⟨.reject hreads hrej, Topic.stays_setLane hreads.lane _ rfl⟩,
        hdrop.frame hm⟩
  | @merge i s f source m' ht hrej hm =>
      obtain ⟨hreads, hidx⟩ := h.reads ht
      rw [h.mtu] at hrej
      have hlt : f.index < 2 ^ 64 := hidx ▸ lt_trans hreads.position_lt (hb s.file)
      have hev : event (s.data f) = .ok (.data s.memberRef s.lane.position f.record) :=
        hidx ▸ event_data s.memberRef (rejects_eq_false hrej) hlt
      exact ⟨_, .single ⟨.merge hreads hrej, Topic.stays_setLane hreads.lane _ rfl⟩,
        (h.pass ht s.rejected).emit hev hm⟩
  | refresh _ hm => exact ⟨_, .single ⟨.refresh, rfl⟩, h.emit (h.event_table hb) hm⟩
  | roll _ k hm =>
      obtain ⟨a, b, hk, hst⟩ := h.stored.roll k
      exact ⟨_, .single ⟨.roll hk, rfl⟩, h.write hm (hst.commit (h.event_table hb))⟩

theorem loss (h : Models files mtu m t) (hl : Loss files m m') :
    ∃ t', (Topic.Torn files mtu t t' ∧ t.Stays t') ∧ Models files mtu m' t' := by
  cases hl with
  | lose ht hrej hm =>
      rw [h.mtu] at hrej
      exact ⟨_, ⟨.lose (h.reads ht).1 hrej, Topic.stays_setLane (h.lane ht.slot) _ rfl⟩,
        (h.lose ht).frame hm⟩
  | rollLose ht hrej k hm =>
      rw [h.mtu] at hrej
      obtain ⟨a, b, hk, hst⟩ := h.stored.roll k
      exact ⟨_, ⟨.rollLose (h.reads ht).1 hrej hk, Topic.stays_setLane (h.lane ht.slot) _ rfl⟩,
        (h.lose ht).write hm hst⟩

/-- Merging is refined, wherever it stops. -/
theorem merges (hb : Bounded files) (h : Models files mtu m t) {α : Type}
    {Q : α → Mux φ → Prop} {r : Except MuxError α × Mux φ}
    (hd : Does (Round files) (Loss files) Interrupts Q m r) : Merges files mtu t r :=
  hd.ends (round hb) (fun h hl => ⟨_, .refl, .inr (h.loss hl)⟩) h

/-! ## Membership -/

theorem erase (h : Models files mtu m t) (pos : ℕ) :
    Models files mtu (m.erase pos) (t.leave pos) where
  lanes := by
    show t.lanes.eraseIdx pos = (m.slots.eraseIdx pos).map Slot.lane
    rw [h.lanes, List.eraseIdx_map]
  nextRef := h.nextRef
  recovered := h.recovered
  dropped := h.dropped
  records := h.records
  pruned := h.pruned
  wf := h.wf.leave pos
  source s hs := h.source s ((List.eraseIdx_sublist _ _).mem hs)
  names s hs := h.names s ((List.eraseIdx_sublist _ _).mem hs)
  mtu := h.mtu

/-- A member's close is on record. -/
theorem closing (hb : Bounded files) (h : Models files mtu m t) (hs : m.slots[i]? = some s) :
    Topic.Step files mtu t (t.emit (.closed s.memberRef s.cursor)) ∧
      Stored t.pruned (t.kept ++ [.closed s.memberRef s.cursor])
        (some (m.topic.log.commit s.closed)) :=
  have hlt : s.cursor < 2 ^ 64 := h.cursor_lt hb (Topic.mem_of_lane (h.lane hs))
  ⟨.closing (h.lane hs), h.stored.commit (event_closed s.memberRef hlt)⟩

theorem move (hb : Bounded files) (h : Models files mtu m t) (hm : Move files m m') :
    ∃ t', Relation.ReflTransGen (Topic.Step files mtu) t t' ∧ Models files mtu m' t' := by
  cases hm with
  | terminate _ _ hm =>
      refine ⟨_, .single .terminal, ?_⟩
      have hfin : Models files mtu { m with finished := true } t := { h with }
      exact hfin.emit event_terminal hm
  | act hact =>
      cases hact with
      | round hr =>
          obtain ⟨t', hsteps, hm'⟩ := h.round hb hr
          exact ⟨t', Relation.ReflTransGen.mono (fun _ _ h => h.1) _ _ hsteps, hm'⟩
      | detach hs hm =>
          obtain ⟨hclose, hst⟩ := h.closing hb hs
          exact ⟨_, .tail (.single hclose) (.detach (h.lane hs) rfl),
            (h.erase _).write hm (hst.commit ((h.erase _).event_table hb))⟩

theorem tear (hb : Bounded files) (h : Models files mtu m t) (ht : Tear files m m') :
    ∃ t₁, Relation.ReflTransGen (Topic.Step files mtu) t t₁ ∧
      (Models files mtu m' t₁ ∨ ∃ t₂, Topic.Torn files mtu t₁ t₂ ∧ Models files mtu m' t₂) := by
  cases ht with
  | loss hl =>
      obtain ⟨t', htorn, hm'⟩ := h.loss hl
      exact ⟨t, .refl, .inr ⟨t', htorn.1, hm'⟩⟩
  | drop hs hm =>
      obtain ⟨hclose, hst⟩ := h.closing hb hs
      exact ⟨_, .single hclose, .inr ⟨_, .drop (h.lane hs), (h.erase _).write hm hst⟩⟩

theorem not_hasMember (h : Models files mtu m t) {name : ChannelName} {epoch : UInt64}
    (hn : m.hasMember name epoch = false) : ∀ x ∈ t.lanes, x.member ≠ (name, epoch) := by
  intro x hx hk
  rw [h.lanes] at hx
  obtain ⟨s, hs, rfl⟩ := List.mem_map.mp hx
  have hk' : s.name = name ∧ s.epoch = epoch := Prod.mk.inj hk
  rw [hasMember, List.any_eq_false] at hn
  exact hn s hs (by simp [hk'])

theorem joins (h : Models files mtu m t) {mark : Mark} (ha : Admits files m s mark) :
    Topic.Joins files t s.lane mark :=
  ⟨ha.ref.trans h.nextRef.symm, by rw [h.nextRef]; exact ha.space, h.not_hasMember ha.new,
    by rw [h.recovered]; exact ha.resume, ha.position⟩

theorem enroll (h : Models files mtu m t) {mark : Mark} (ha : Admits files m s mark)
    (hname : (nameBytes s.name).length < 65536) :
    Models files mtu (m.enroll s) (t.join s.lane) where
  lanes := by
    show t.lanes ++ [s.lane] = (m.slots ++ [s]).map Slot.lane
    rw [List.map_append, List.map_singleton, h.lanes]
  nextRef := congrArg (· + 1) h.nextRef
  recovered := h.recovered
  dropped := h.dropped
  records := h.records
  pruned := h.pruned
  wf := h.wf.join (h.joins ha)
  source := Sequence.forall_mem_concat h.source ha.place
  names := Sequence.forall_mem_concat h.names hname
  mtu := h.mtu

/-- What a resumption puts into the topic is its mark. -/
theorem mark (hb : Bounded files) (h : Models files mtu m t) {l : Lane φ} {mark : Mark}
    (hmark : resume (want (t.recovered l.member)) (files l.file).earliest (files l.file).head =
      (l.cursor, mark))
    (hm : m.Becomes ((mark.records l.memberRef).foldl Log.commit m.topic.log) m') :
    Models files mtu m' (mark.emitTo l.memberRef t) := by
  have hhead := hb l.file
  have hear := (files l.file).earliest_le_head
  rcases resume_cases (want (t.recovered l.member)) (files l.file).earliest (files l.file).head
    with ⟨hw, hres⟩ | ⟨-, -, hres⟩ | ⟨-, -, hres⟩ <;>
    rw [hres, Prod.mk.injEq] at hmark <;> obtain ⟨-, rfl⟩ := hmark
  · exact h.emit (event_gap l.memberRef (by omega) (by omega)) hm
  · exact h.emit (event_regressed l.memberRef _ hhead) hm
  · exact h.frame hm

end Models

/-- How an `add_member` can end: without effect, having only used up a ref, or
with its lane, attached whole or stopped by a failing write. -/
inductive Added (files : φ → Log) (mtu : UInt32) (member : Incarnation) (file : Option φ)
    (t : Topic φ) : Except MuxError Unit × Mux φ → Prop
  | unchanged {r m'} (hr : ∀ w, r ≠ .error (.write w)) (hm : Models files mtu m' t) :
      Added files mtu member file t (r, m')
  | bumped {e m'} (hs : t.nextRef ≠ 65535) (he : ∀ w, e ≠ .write w)
      (hm : Models files mtu m' t.bump) :
      Added files mtu member file t (.error e, m')
  | attached {l mark m'} (hmem : l.member = member) (hfile : file = some l.file)
      (hj : Topic.Joins files t l mark)
      (hm : Models files mtu m' (t.attach l mark)) :
      Added files mtu member file t (.ok (), m')
  | pushed {l mark w m'} (hmem : l.member = member) (hfile : file = some l.file)
      (hj : Topic.Joins files t l mark) (hm : Models files mtu m' (t.join l)) :
      Added files mtu member file t (.error (.write w), m')
  | unmarked {l mark w m'} (hmem : l.member = member) (hfile : file = some l.file)
      (hj : Topic.Joins files t l mark) (hmark : mark ≠ .none)
      (hm : Models files mtu m' ((t.join l).emit (t.join l).table)) :
      Added files mtu member file t (.error (.write w), m')

theorem addMember_models (hb : Bounded files) (h : Models files mtu m t) (name : ChannelName)
    (epoch : UInt64) (file : Option φ) (hname : (nameBytes name).length < 65536) :
    Added files mtu (name, epoch) file t (exec (addMember files name epoch file) m) := by
  have hadm := addMember_admission files name epoch file m
  generalize exec (addMember files name epoch file) m = r at hadm
  cases hadm with
  | present => exact .unchanged (by simp) h
  | refused _ he => exact .unchanged (fun w hw => he ⟨w, Except.error.inj hw⟩) h
  | unsourced _ hspace =>
      have hspace' : t.nextRef ≠ 65535 := by rw [h.nextRef]; exact hspace
      exact .bumped hspace' (by simp)
        { h with nextRef := congrArg (· + 1) h.nextRef, wf := h.wf.bump hspace' }
  | @attached s mark m' ha hk hf hm =>
      have hjoin := h.enroll ha (by cases hk; exact hname)
      have htable := hjoin.emit (hjoin.event_table hb) (wrote_becomes _ (m.enroll s))
      exact .attached hk hf (h.joins ha) (htable.mark hb (h.joins ha).resume (hm.of_wrote _))
  | untabled ha hk hf hm _ =>
      exact .pushed hk hf (h.joins ha) ((h.enroll ha (by cases hk; exact hname)).frame hm)
  | unmarked ha hk hf hmark hm _ =>
      have hjoin := h.enroll ha (by cases hk; exact hname)
      exact .unmarked hk hf (h.joins ha) hmark (hjoin.emit (hjoin.event_table hb) hm)

/-! ## Sessions -/

/-- A topic nobody is attached to yet: all there is was recovered from what
the log retains. -/
def fresh (pruned kept : List TopicEvent) : Topic φ :=
  ⟨pruned, kept, [], 0, (view kept).out, []⟩

theorem fresh_wf (pruned kept : List TopicEvent) : (fresh pruned kept : Topic φ).WF files :=
  ⟨List.nodup_nil, by simp [fresh], List.nodup_nil, by simp [fresh], by simp [fresh]⟩

theorem recoverFrom_stored {disk : Option Log} {pruned kept : List TopicEvent}
    (h : Stored pruned kept disk) : recoverFrom disk = .ok (view kept).out := by
  cases disk with
  | none =>
      obtain ⟨-, rfl⟩ := h
      rfl
  | some l => exact recoverCursors_ok h.retained

theorem open_models {disk : Option Log} {name : ChannelName} {geometry : TopicGeometry}
    {batch : ℕ} (h : «open» disk name geometry batch = .ok m) {pruned kept : List TopicEvent}
    (hd : Stored pruned kept disk) :
    Models files geometry.mtu m (fresh pruned kept) := by
  obtain ⟨recovered, log, hrec, hlog, rfl⟩ := open_ok h
  rw [recoverFrom_stored hd] at hrec
  cases hrec
  -- a writer on files that exist resumes them
  have hst : Stored pruned kept (some log) := by
    cases disk with
    | none =>
        obtain ⟨rfl, rfl⟩ := hd
        cases hlog
        exact ⟨rfl, rfl⟩
    | some l =>
        rw [Log.build_some hlog]
        exact hd
  exact ⟨rfl, rfl, rfl, rfl, hst.1, hst.2, fresh_wf _ _, by simp, by simp, rfl⟩

/-! ## Growth of the members' logs -/

/-- Every file is as it was, or has grown. -/
def FilesGrow (files files' : φ → Log) : Prop :=
  ∀ f, files' f = files f ∨ (files f).Grows (files' f)

variable {files' : φ → Log}

theorem FilesGrow.update [DecidableEq φ] {f : φ} {l : Log} (h : (files f).Grows l) :
    FilesGrow files (Function.update files f l) := by
  intro g
  by_cases hg : g = f
  · subst hg
    rw [Function.update_self]
    exact .inr h
  · rw [Function.update_of_ne hg]
    exact .inl rfl

theorem FilesGrow.head_le (h : FilesGrow files files') (f : φ) :
    (files f).head ≤ (files' f).head := by
  rcases h f with he | hg
  · rw [he]
  · exact hg.records.head_le

theorem FilesGrow.get? (h : FilesGrow files files') {f : φ} {i : ℕ} {r : Record}
    (hr : (files f).get? i = some r) : (files' f).get? i = some r := by
  rcases h f with he | hg
  · rw [he, hr]
  · rw [hg.records.get?_eq (SegLog.get?_isSome_iff.mp ⟨r, hr⟩).2, hr]

theorem FilesGrow.at (h : FilesGrow files files') {f : φ} {source : ReplicationSource}
    (hat : source.At (files f)) : source.At (files' f) := by
  rcases h f with he | hg
  · rw [he]
    exact hat
  · exact hat.grows hg

theorem Models.grow (h : Models files mtu m t) (hg : FilesGrow files files') :
    Models files' mtu m t := by
  refine { h with wf := { h.wf with position := ?_ }, source := ?_ }
  · intro l hl
    exact (h.wf.position l hl).trans (hg.head_le l.file)
  · intro s hs
    exact hg.at (h.source s hs)

end Mux

end XchannelNet
