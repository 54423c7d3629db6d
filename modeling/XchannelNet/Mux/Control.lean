import XchannelNet.Mux.Segments

/-!
# Control — what members cannot write into a topic

Members share the topic's log format with the mux, and recovery trusts the
control records it reads back. A member's record is committed under its own
message type and behind its provenance, whatever its bytes, and one of a
reserved type is not committed at all; so every control record in the log is
one the mux wrote, and what recovery reads from them is what the mux put there.
-/

namespace XchannelNet

namespace Mux

open Fallible

def SlotTable.config (t : SlotTable) : TopicConfig :=
  ⟨t.geometry, t.members.map SlotEntry.member⟩

/-- A topic's configuration is read off the last table. -/
theorem topicConfig_eq (records : List Record) :
    topicConfig records = (lastTable records).map SlotTable.config := by
  show records.foldl _ (Option.map SlotTable.config none) =
    Option.map SlotTable.config (records.foldl tableAfter none)
  refine List.foldl_hom _ fun t r => ?_
  unfold tableAfter
  split
  · cases decodeSlotTable r.payload <;> rfl
  · rfl

theorem recoverCursors_of_sound {es : List Emission} (h : ∀ e ∈ es, e.Sound) :
    ∃ cursors, recoverCursors (es.map Emission.record) = .ok cursors := by
  have hevents : (es.map Emission.record).map event = (es.map Emission.event).map .ok := by
    rw [List.map_map, List.map_map]
    exact List.map_congr_left fun e he => (h e he).event
  exact ⟨_, recoverCursors_ok hevents⟩

variable {φ : Type} {w : World φ} {l : Ledger}

theorem Follows.records (h : Follows w l) (hl : l.Sound) :
    w.records = l.emitted.map Emission.record := by
  unfold Follows at h
  unfold World.records
  rcases hs : w.session with (_ | log) | ⟨m, opened⟩ <;> rw [hs] at h
  · rw [h.2]
    rfl
  · exact (congrArg (fun x : Log => x.records) h).symm.trans hl.records
  · exact (congrArg (fun x : Log => x.records) h.log).trans hl.records

theorem retained_suffix (w : World φ) : w.retained <:+ w.records := by
  have hlog : ∀ log : Log, log.contents.map Prod.fst <:+ log.records := by
    intro log
    rw [SegLog.contents_map_fst]
    exact List.drop_suffix _ _
  unfold World.retained World.records
  rcases w.session with (_ | log) | ⟨m, opened⟩
  · exact List.suffix_refl _
  · exact hlog log
  · exact hlog m.topic.log

/-- The emissions that are retained. -/
theorem Follows.retained (h : Follows w l) (hl : l.Sound) :
    ∃ kept, kept <:+ l.emitted ∧ w.retained = kept.map Emission.record := by
  obtain ⟨front, hfront⟩ := retained_suffix w
  refine ⟨l.emitted.drop front.length, List.drop_suffix _ _, ?_⟩
  rw [List.map_drop, ← h.records hl, ← hfront, List.drop_left]

/-- While a mux with members runs, the last table retained is the one of its
slots. -/
theorem Tidy.config {m : Mux φ} {opened : List Record} (h : Tidy l) (hl : l.Sound)
    (hm : Keeps m l) (hs : w.session = .running m opened) (hne : m.slots ≠ []) :
    topicConfig w.retained = some ⟨m.geometry, m.slots.map Slot.member⟩ := by
  obtain ⟨closed, current, hp, hseated⟩ := h
  have hf : Follows w l := by
    unfold Follows
    rw [hs]
    exact hm
  obtain ⟨kept, hkept, hret⟩ := hf.retained hl
  -- the segment being written is retained
  have hcur : current <:+ kept := by
    refine List.suffix_of_suffix_length_le ⟨closed.flatten, hp.emitted⟩ hkept ?_
    have hlen := m.topic.log.current_suffix_contents.length_le
    have hret' : w.retained = m.topic.log.contents.map Prod.fst := by rw [World.retained, hs]
    rw [← hret', hret, List.length_map, hm.log, ← hp.currentRecords, List.length_map] at hlen
    exact hlen
  obtain ⟨before, hbefore⟩ := hcur
  rcases hseated with hnil | ⟨t, ht, hgeo, hseats⟩
  · rw [← hm.slots, List.map_eq_nil_iff] at hnil
    exact absurd hnil hne
  have hsound : ∀ e ∈ kept, e.Sound := fun e he => hl.emitted e (hkept.mem he)
  rw [hret, topicConfig_eq, lastTable_records hsound, ← hbefore, latest_append before ht,
    Option.map_some, SlotTable.config, hgeo, hm.geometry, hm.members]
  have hmem := congrArg (List.map Prod.snd) hseats
  rw [List.map_map, List.map_map] at hmem
  exact congrArg (fun ks => some (TopicConfig.mk l.geometry ks)) hmem

/-- **Members cannot forge control state.** The records of a reserved type are
exactly those the mux wrote as control records. What the retained ones say is
the last slot table retained: the geometry of the session that wrote it and
the members attached then, which are those attached now while any are. And
recovery does not fail. -/
theorem control_records_are_emitted [DecidableEq φ]
    (h : Run.Reachable Init (Acting NoCommitFails) w) :
    ∃ l kept, Audited NoCommitFails w l ∧ kept <:+ l.emitted ∧
      w.records = l.emitted.map Emission.record ∧ w.retained = kept.map Emission.record ∧
      (∀ e ∈ l.emitted, isControl e.record.msgType = true ↔ e.control = true) ∧
      topicConfig w.retained = (latest kept).map SlotTable.config ∧
      (∀ m opened, w.session = .running m opened → m.slots ≠ [] →
        topicConfig w.retained = some ⟨m.geometry, m.slots.map Slot.member⟩) ∧
      ∃ cursors, recoverCursors w.retained = .ok cursors := by
  obtain ⟨l, hl⟩ := exists_audited h
  obtain ⟨kept, hkept, hret⟩ := hl.follows.retained hl.sound
  have hsound : ∀ e ∈ kept, e.Sound := fun e he => hl.sound.emitted e (hkept.mem he)
  refine ⟨l, kept, hl, hkept, hl.follows.records hl.sound, hret, ?_, ?_, ?_, ?_⟩
  · intro e he
    rw [(hl.sound.emitted e he).isControl]
  · rw [hret, topicConfig_eq, lastTable_records hsound]
  · intro m opened hs hne
    have hfiled := hl.filed
    have hm := hl.follows
    unfold Filed at hfiled
    unfold Follows at hm
    rw [hs] at hfiled hm
    exact hfiled.config hl.sound hm hs hne
  · rw [hret]
    exact recoverCursors_of_sound hsound

/-- A slot table of somebody else's making, once as a control record and once
as the payload of an ordinary one. -/
def forger : Unit → Log := fun _ =>
  let forged := encodeSlotTable ⟨0, 0, 0, 0⟩ [⟨0, "victim", 7, 9⟩]
  .ofRecords "a" 0 [⟨MSG_TYPE_SLOT_TABLE, 0, forged⟩, ⟨1, 0, forged⟩]

theorem bounded_forger : Bounded forger := by
  rintro ⟨⟩
  decide

/-- Of the forger's records only the ordinary one is in the topic, and the
topic's configuration is still the mux's. -/
theorem control_records_are_emitted_forged :
    ∃ w : World Unit, w.records.map Record.msgType = [MSG_TYPE_SLOT_TABLE, 1] ∧
      ∃ m opened, w.session = .running m opened ∧
        topicConfig w.retained = some ⟨m.geometry, m.slots.map Slot.member⟩ := by
  obtain ⟨w, hreach, htypes, hslots⟩ := exists_acting NoCommitFails
    ⟨forger, .closed none, []⟩
    ([.open, .op (.addMember "a" 0 (some ())) [], .op .poll []].map fun cmd => (plainSetup, cmd))
    (fun w => w.records.map Record.msgType = [MSG_TYPE_SLOT_TABLE, 1] ∧ w.slots.length = 1)
    (init_mk bounded_forger) (by decide +kernel)
  obtain ⟨l, kept, -, -, -, -, -, -, hconfig, -⟩ := control_records_are_emitted hreach
  refine ⟨w, htypes, ?_⟩
  rcases hs : w.session with disk | ⟨m, opened⟩
  · rw [World.slots, hs] at hslots
    cases hslots
  · refine ⟨m, opened, rfl, hconfig m opened hs ?_⟩
    rintro hnil
    rw [World.slots, hs] at hslots
    simp [hnil] at hslots

end Mux

end XchannelNet
