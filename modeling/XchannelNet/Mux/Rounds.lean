import XchannelNet.Mux.Topic

/-!
# Rounds — what each operation does to a mux

Every operation, said once. A write goes through or it fails, and either way
the mux `Becomes` one that differs in its log and its counters only. Merging is
a sequence of `Round`s; if a write fails in the middle of one, a frame is lost
(`Loss`). How a removal, the end of a topic and an attachment can end is listed
case by case. What is proved about sessions follows the mux through rounds and
cases, and does not look into the operations again.
-/

namespace XchannelNet

namespace Mux

open Fallible

variable {φ : Type}

/-! ## Writes -/

/-- `m'` is `m` with this log. The counters may have changed, and what is in
store for the writes to come. -/
structure Becomes (m : Mux φ) (log : Log) (m' : Mux φ) : Prop where
  log : m'.topic.log = log
  geometry : m'.geometry = m.geometry
  slots : m'.slots = m.slots
  nextRef : m'.nextRef = m.nextRef
  recovered : m'.recovered = m.recovered
  finished : m'.finished = m.finished
  dropped : m'.dropped = m.dropped

theorem Becomes.refl (m : Mux φ) : m.Becomes m.topic.log m := ⟨rfl, rfl, rfl, rfl, rfl, rfl, rfl⟩

theorem Becomes.trans {m m₁ m₂ : Mux φ} {log log' : Log} (h : m.Becomes log m₁)
    (h' : m₁.Becomes log' m₂) : m.Becomes log' m₂ :=
  ⟨h'.log, h'.geometry.trans h.geometry, h'.slots.trans h.slots, h'.nextRef.trans h.nextRef,
    h'.recovered.trans h.recovered, h'.finished.trans h.finished, h'.dropped.trans h.dropped⟩

def wrote (log : Log) (m : Mux φ) : Mux φ := { m with topic := { m.topic with log } }

theorem wrote_becomes (log : Log) (m : Mux φ) : m.Becomes log (m.wrote log) :=
  ⟨rfl, rfl, rfl, rfl, rfl, rfl, rfl⟩

theorem Becomes.of_wrote {m m' : Mux φ} {log' : Log} (h : m.Becomes log' m') (log : Log) :
    (m.wrote log).Becomes log' m' :=
  ⟨h.log, h.geometry, h.slots, h.nextRef, h.recovered, h.finished, h.dropped⟩

/-- A write goes through, or fails; what then holds. -/
def Writes (p : MuxM φ Unit) (m : Mux φ) (done : Mux φ → Prop)
    (undone : WriteError → Mux φ → Prop) : Prop :=
  (∃ m', exec p m = (.ok (), m') ∧ done m') ∨
    ∃ w m', exec p m = (.error (.write w), m') ∧ undone w m'

section Writes

variable {m : Mux φ} {done done' : Mux φ → Prop} {undone undone' : WriteError → Mux φ → Prop}
  {p : MuxM φ Unit}

theorem Writes.mono (h : Writes p m done undone) (hd : ∀ m', done m' → done' m')
    (hu : ∀ w m', undone w m' → undone' w m') : Writes p m done' undone' := by
  rcases h with ⟨m', hp, h⟩ | ⟨w, m', hp, h⟩
  · exact .inl ⟨m', hp, hd m' h⟩
  · exact .inr ⟨w, m', hp, hu w m' h⟩

theorem Writes.bind {q : MuxM φ Unit} (h : Writes p m done undone)
    (hq : ∀ m', done m' → Writes q m' done' undone) : Writes (p >>= fun _ => q) m done' undone := by
  unfold Writes
  rcases h with ⟨m', hp, hd⟩ | ⟨w, m', hp, hu⟩
  · rw [exec_bind_ok hp]
    exact hq m' hd
  · rw [exec_bind_error hp]
    exact .inr ⟨w, m', rfl, hu⟩

/-- A commit followed by bookkeeping. -/
theorem Writes.modify {f : Mux φ → Mux φ} (h : Writes p m done undone)
    (hf : ∀ m', done m' → done' (f m')) : Writes (p >>= fun _ => modify f) m done' undone :=
  h.bind fun m' hd => .inl ⟨f m', rfl, hf m' hd⟩

theorem Writes.get {q : Mux φ → MuxM φ Unit} (h : Writes (q m) m done undone) :
    Writes (get >>= q) m done undone := h

end Writes

/-- A write of so many bytes that goes through: it fits, and that was in store
for it. -/
structure Makes (m : Mux φ) (len : ℕ) (m' : Mux φ) : Prop where
  fits : m.topic.mtu = 0 ∨ len ≤ m.topic.mtu.toNat
  outcome : m.topic.outcome.error = none
  mtu : m'.topic.mtu = m.topic.mtu
  rest : m'.topic.outcomes = m.topic.outcomes.tail

/-- Why one fails: it is too long for the topic, or that was in store for it. -/
def Fails (m : Mux φ) (len : ℕ) (w : WriteError) : Prop :=
  (w = .exceedsMtu ∧ 0 < m.topic.mtu ∧ m.topic.mtu.toNat < len) ∨ m.topic.outcome.error = some w

/-- After a write of as many bytes, one fails only as was in store for it. -/
theorem Makes.fails {m m' : Mux φ} {len len' : ℕ} {w : WriteError} (h : m.Makes len m')
    (hle : len' ≤ len) (hw : m'.Fails len' w) :
    m.topic.outcome.error = none ∧ m.topic.advance.outcome.error = some w := by
  refine ⟨h.outcome, ?_⟩
  rcases hw with ⟨-, hpos, hlt⟩ | hw
  · rw [h.mtu] at hpos hlt
    rcases h.fits with hzero | hfits
    · rw [hzero] at hpos
      exact absurd hpos (by decide)
    · omega
  · rwa [TopicWriter.outcome, h.rest] at hw

/-- The payload of a slot table. -/
def slotTable (m : Mux φ) : List UInt8 := encodeSlotTable m.geometry (m.slots.map Slot.entry)

def tableRecord (m : Mux φ) : Record := ⟨MSG_TYPE_SLOT_TABLE, 0, m.slotTable⟩

/-- What is committed for a frame of the slot. -/
def Slot.data (s : Slot φ) (f : RecordFrame) : Record :=
  ⟨f.msgType, 0, frameData ⟨s.memberRef, UInt64.ofNat f.index, f.userMeta⟩ f.payload⟩

def Slot.closed (s : Slot φ) : Record :=
  ⟨MSG_TYPE_MEMBER_CLOSED, 0, MemberClosed.toPayload ⟨s.memberRef, UInt64.ofNat s.cursor⟩⟩

/-- What a resumption puts into the topic. -/
def Mark.records (memberRef : UInt16) : Mark → List Record
  | .none => []
  | .gap fromIndex resumedAt =>
    [⟨MSG_TYPE_TOPIC_GAP, 0,
      TopicGap.toPayload ⟨memberRef, UInt64.ofNat fromIndex, UInt64.ofNat resumedAt⟩⟩]
  | .regressed expected head =>
    [⟨MSG_TYPE_MEMBER_REGRESSED, 0,
      MemberRegressed.toPayload ⟨memberRef, UInt64.ofNat expected, UInt64.ofNat head⟩⟩]

section

variable (m : Mux φ)

theorem commitRecord_writes (msgType : UInt16) (payload : List UInt8) :
    Writes (commitRecord msgType payload) m
      (fun m' => m.Becomes (m.topic.log.commit ⟨msgType, 0, payload⟩) m' ∧
        m.Makes payload.length m')
      (fun w m' => m.Becomes m.topic.log m' ∧ m.Fails payload.length w) := by
  apply Writes.get
  unfold Writes
  rcases m.topic.tryCommit_outcome ⟨msgType, 0, payload⟩ with
    ⟨hlong, hw⟩ | ⟨hfits, ⟨e, ho, hw⟩ | ⟨ho, hw⟩⟩ <;> rw [hw]
  · exact .inr ⟨_, _, rfl, ⟨rfl, rfl, rfl, rfl, rfl, rfl, rfl⟩, .inl ⟨rfl, hlong⟩⟩
  · exact .inr ⟨_, _, rfl, ⟨rfl, rfl, rfl, rfl, rfl, rfl, rfl⟩, .inr ho⟩
  · refine .inl ⟨_, rfl, ⟨rfl, rfl, rfl, rfl, rfl, rfl, rfl⟩, ?_, ho, rfl, rfl⟩
    rcases not_and_or.mp hfits with hzero | hle
    · exact .inl (by simpa using hzero)
    · exact .inr (not_lt.mp hle)

theorem emitSlotTable_writes :
    Writes emitSlotTable m
      (fun m' => m.Becomes (m.topic.log.commit m.tableRecord) m' ∧ m.Makes m.slotTable.length m')
      (fun w m' => m.Becomes m.topic.log m' ∧ m.Fails m.slotTable.length w) := by
  apply Writes.get
  exact (commitRecord_writes m MSG_TYPE_SLOT_TABLE m.slotTable).modify fun m' ⟨hb, hm⟩ =>
    ⟨hb.trans ⟨hb.log, rfl, rfl, rfl, rfl, rfl, rfl⟩, hm.fits, hm.outcome, hm.mtu, hm.rest⟩

theorem length_markerPayload (memberRef : UInt16) (a b : UInt64) :
    (markerPayload memberRef a b).length = 18 := by
  simp [markerPayload]

/-- Only a marker that there is can fail to be written. -/
theorem emitMark_writes (memberRef : UInt16) (mark : Mark) :
    Writes (emitMark memberRef mark) m
      (m.Becomes ((mark.records memberRef).foldl Log.commit m.topic.log))
      (fun w m' => mark ≠ .none ∧ m.Becomes m.topic.log m' ∧ m.Fails 18 w) := by
  cases mark with
  | none => exact .inl ⟨m, rfl, .refl m⟩
  | gap a b =>
      rw [← length_markerPayload memberRef (UInt64.ofNat a) (UInt64.ofNat b)]
      have hgap : Writes (emitTopicGap memberRef a b) m _ _ :=
        (commitRecord_writes m _ _).modify fun m' h =>
          h.1.trans ⟨h.1.log, rfl, rfl, rfl, rfl, rfl, rfl⟩
      exact hgap.mono (fun _ h => h) fun _ _ h => ⟨by simp, h⟩
  | regressed a b =>
      rw [← length_markerPayload memberRef (UInt64.ofNat a) (UInt64.ofNat b)]
      exact (commitRecord_writes m _ _).mono (fun _ h => h.1) fun _ _ h => ⟨by simp, h⟩

theorem rollFile_writes :
    Writes rollFile m (fun m' => ∃ k, m.Becomes (m.topic.log.rollFile.pruneTo k) m')
      (fun _ => m.Becomes m.topic.log) := by
  apply Writes.get
  unfold Writes
  rcases m.topic.rollFile_cases with ⟨k, w, hw, hlog⟩ | ⟨e, w, hw, hlog⟩ <;> rw [hw]
  · exact .inl ⟨_, rfl, k, hlog, rfl, rfl, rfl, rfl, rfl, rfl⟩
  · exact .inr ⟨_, _, rfl, hlog, rfl, rfl, rfl, rfl, rfl, rfl⟩

/-- A roll with its slot table, or neither, or the roll alone. -/
theorem rollIfFull_writes :
    Writes rollIfFull m
      (fun m' => m.Becomes m.topic.log m' ∨
        ∃ k, m.Becomes ((m.topic.log.rollFile.pruneTo k).commit m.tableRecord) m')
      (fun _ m' => m.Becomes m.topic.log m' ∨
        ∃ k, m.Becomes (m.topic.log.rollFile.pruneTo k) m') := by
  apply Writes.get
  split
  · exact .inl ⟨m, rfl, .inl (.refl m)⟩
  refine ((rollFile_writes m).mono (fun _ h => h) fun _ _ h => Or.inl h).bind fun m₁ ⟨k, h₁⟩ => ?_
  have htable : m₁.tableRecord = m.tableRecord := by
    rw [tableRecord, slotTable, h₁.geometry, h₁.slots]
    rfl
  refine (emitSlotTable_writes m₁).mono (fun m₂ ⟨h₂, _⟩ => .inr ⟨k, ?_⟩)
    fun _ m₂ ⟨h₂, _⟩ => .inr ⟨k, ?_⟩ <;> rw [h₁.log] at h₂
  · exact htable ▸ h₁.trans h₂
  · exact h₁.trans h₂

end

/-! ## Rounds -/

def setSlot (i : ℕ) (s : Slot φ) (m : Mux φ) : Mux φ := { m with slots := m.slots.set i s }

theorem modify_of_slot {L : List (Slot φ)} {i : ℕ} {s : Slot φ} (h : L[i]? = some s)
    (f : Slot φ → Slot φ) : L.modify i f = L.set i (f s) := by
  rw [List.modify_eq_set_getElem?, h]
  rfl

theorem getElem?_setSlot {m : Mux φ} {i : ℕ} {s : Slot φ} (h : m.slots[i]? = some s)
    (s' : Slot φ) : (m.setSlot i s').slots[i]? = some s' :=
  List.getElem?_set_self (List.getElem?_eq_some_iff.mp h).1

/-- Slot `i` is `s`, and reading it takes frame `f` off its reader. -/
structure Takes (files : φ → Log) (m : Mux φ) (i : ℕ) (s : Slot φ) (f : RecordFrame)
    (source : ReplicationSource) : Prop where
  slot : m.slots[i]? = some s
  frame : s.source.tryNextFrame (files s.file) = (some f, source)

/-- A reader in its place gives the record it is at, and is then at the next. -/
theorem Takes.next {files : φ → Log} {m : Mux φ} {i : ℕ} {s : Slot φ} {f : RecordFrame}
    {source : ReplicationSource} (ht : Takes files m i s f source)
    (hat : s.source.At (files s.file)) :
    source.At (files s.file) ∧ source.nextIndex = s.source.nextIndex + 1 ∧
      f.index = s.source.nextIndex ∧ (files s.file).get? s.source.nextIndex = some f.record := by
  obtain ⟨hat', -, hsome⟩ := hat.tryNextFrame
  rw [ht.frame] at hat' hsome
  obtain ⟨hidx, hof, hnext⟩ := hsome f rfl
  exact ⟨hat', hnext, hidx, hidx ▸ hof⟩

/-- Where there is nothing to read it stays. -/
theorem rest_of_none {s : Slot φ} {l : Log} {source : ReplicationSource}
    (hr : s.source.tryNextFrame l = (none, source)) (hat : s.source.At l) :
    source.At l ∧ source.nextIndex = s.source.nextIndex ∧ l.get? s.source.nextIndex = none := by
  obtain ⟨hat', hnone, -⟩ := hat.tryNextFrame
  rw [hr] at hat' hnone
  exact ⟨hat', (hnone rfl).2, (hnone rfl).1⟩

/-- The slot past a frame that was read off it. -/
def Slot.past (s : Slot φ) (f : RecordFrame) (source : ReplicationSource) : Slot φ :=
  { s with source, cursor := f.index + 1 }

/-- The frame that was read is passed over. -/
def passOver (i : ℕ) (s : Slot φ) (f : RecordFrame) (source : ReplicationSource) (m : Mux φ) :
    Mux φ :=
  { m.setSlot i { s.past f source with rejected := s.rejected + 1 } with
    dropped := m.dropped ++ [(s.member, f.index)] }

/-- One round of merging. The roll is before the frame is read: nobody could
tell, and so it is on its own. -/
inductive Round (files : φ → Log) (m : Mux φ) : Mux φ → Prop
  | count {m'} (h : m.Becomes m.topic.log m') : Round files m m'
  | rest {i : ℕ} {s source m'} (hs : m.slots[i]? = some s)
      (hr : s.source.tryNextFrame (files s.file) = (none, source))
      (h : (m.setSlot i { s with source }).Becomes m.topic.log m') : Round files m m'
  | reject {i s f source m'} (ht : Takes files m i s f source)
      (hrej : rejects m.geometry.mtu f.record = true)
      (h : (m.passOver i s f source).Becomes m.topic.log m') : Round files m m'
  | merge {i s f source m'} (ht : Takes files m i s f source)
      (hrej : rejects m.geometry.mtu f.record = false)
      (h : (m.setSlot i (s.past f source)).Becomes (m.topic.log.commit (s.data f)) m') :
      Round files m m'
  | refresh {i : ℕ} {s m'} (hs : m.slots[i]? = some s)
      (h : m.Becomes (m.topic.log.commit m.tableRecord) m') : Round files m m'
  | roll {i : ℕ} {s m'} (hs : m.slots[i]? = some s) (k : ℕ)
      (h : m.Becomes ((m.topic.log.rollFile.pruneTo k).commit m.tableRecord) m') : Round files m m'

/-- A round broken off by a failing write: the frame was taken and nothing says
so, and there may have been a roll without its slot table before. -/
inductive Loss (files : φ → Log) (m : Mux φ) : Mux φ → Prop
  | lose {i s f source m'} (ht : Takes files m i s f source)
      (hrej : rejects m.geometry.mtu f.record = false)
      (h : (m.setSlot i { s with source }).Becomes m.topic.log m') : Loss files m m'
  | rollLose {i s f source m'} (ht : Takes files m i s f source)
      (hrej : rejects m.geometry.mtu f.record = false) (k : ℕ)
      (h : (m.setSlot i { s with source }).Becomes (m.topic.log.rollFile.pruneTo k) m') :
      Loss files m m'

/-- An operation that stopped on a failing write. -/
def Interrupts (e : MuxError) : Prop := ∃ w, e = .write w

variable {files : φ → Log} {m m₀ m' : Mux φ} {i : ℕ} {s : Slot φ} {f : RecordFrame}
  {source : ReplicationSource}

/-- Rolling with a frame in hand: as if the frame were still to be read. -/
theorem rollIfFull_in_hand (ht : Takes files m i s f source)
    (hrej : rejects m.geometry.mtu f.record = false)
    (h : (m.setSlot i { s with source }).Becomes m.topic.log m₀) :
    Writes rollIfFull m₀
      (fun m₁ => ∃ g, Round files m g ∧ Takes files g i s f source ∧
        g.geometry = m.geometry ∧ (g.setSlot i { s with source }).Becomes g.topic.log m₁)
      (fun _ => Loss files m) := by
  have htable : m₀.tableRecord = m.tableRecord := by
    rw [tableRecord, tableRecord, slotTable, slotTable, h.geometry, h.slots]
    show Record.mk _ _ (encodeSlotTable _ ((m.slots.set i { s with source }).map Slot.entry)) = _
    rw [map_set_eq Slot.entry ht.slot { s with source } rfl]
    rfl
  -- the mux after the roll, with the reader where it was
  have hback : ∀ {log m₁}, m₀.Becomes log m₁ →
      m.Becomes log { m₁ with slots := m.slots } ∧
        (({ m₁ with slots := m.slots } : Mux φ).setSlot i { s with source }).Becomes
          m₁.topic.log m₁ := by
    intro log m₁ h₁
    have h₀ := h.trans h₁
    exact ⟨⟨h₀.log, h₀.geometry, rfl, h₀.nextRef, h₀.recovered, h₀.finished, h₀.dropped⟩,
      ⟨rfl, rfl, h₀.slots, rfl, rfl, rfl, rfl⟩⟩
  refine (rollIfFull_writes m₀).mono ?_ ?_
  · rintro m₁ (h₁ | ⟨k, h₁⟩)
    · rw [h.log] at h₁
      exact ⟨_, .count (hback h₁).1, ⟨ht.slot, ht.frame⟩, (hback h₁).1.geometry, (hback h₁).2⟩
    · rw [h.log, htable] at h₁
      exact ⟨_, .roll ht.slot k (hback h₁).1, ⟨ht.slot, ht.frame⟩, (hback h₁).1.geometry,
        (hback h₁).2⟩
  · rintro _ m₁ (h₁ | ⟨k, h₁⟩)
    · rw [h.log] at h₁
      exact .lose ht hrej (h.trans h₁)
    · rw [h.log] at h₁
      exact .rollLose ht hrej k (h.trans h₁)

/-- Merging a frame moves its slot's cursor, and does nothing else to the slots. -/
theorem mergeFrame_becomes (i : ℕ) (memberRef : UInt16) (f : RecordFrame) (m : Mux φ) :
    ∃ log, m.Becomes log (exec (mergeFrame i memberRef f) m).2 ∨
      (advance i f.index m).Becomes log (exec (mergeFrame i memberRef f) m).2 := by
  have hlog : ∀ {m m' : Mux φ} {log}, m.Becomes log m' → m.Becomes m'.topic.log m' :=
    fun h => ⟨rfl, h.geometry, h.slots, h.nextRef, h.recovered, h.finished, h.dropped⟩
  unfold mergeFrame
  have hroll := (rollIfFull_writes m).mono
    (fun _ h => h.elim hlog fun ⟨_, h⟩ => hlog h) fun _ _ h => h.elim hlog fun ⟨_, h⟩ => hlog h
  rcases hroll with ⟨m₁, hp, h₁⟩ | ⟨w, m₁, hp, h₁⟩
  · rw [exec_bind_ok hp]
    rcases commitRecord_writes m₁ f.msgType
      (frameData ⟨memberRef, UInt64.ofNat f.index, f.userMeta⟩ f.payload) with
      ⟨m₂, hp₂, h₂, -⟩ | ⟨w, m₂, hp₂, h₂, -⟩
    · rw [exec_bind_ok hp₂, exec_bind_ok (exec_modify _ _), exec_bind_ok (exec_get _)]
      have h₂ := h₁.trans h₂
      have hadvance : (advance i f.index m).Becomes m₂.topic.log (advance i f.index m₂) :=
        ⟨rfl, h₂.geometry, congrArg (List.modify · i _) h₂.slots, h₂.nextRef, h₂.recovered,
          h₂.finished, h₂.dropped⟩
      split
      · rcases emitSlotTable_writes (advance i f.index m₂) with
          ⟨m₃, hp₃, h₃, -⟩ | ⟨w, m₃, hp₃, h₃, -⟩ <;> rw [hp₃] <;>
          exact ⟨_, .inr (hadvance.trans h₃)⟩
      · exact ⟨_, .inr hadvance⟩
    · rw [exec_bind_error hp₂]
      exact ⟨_, .inl (h₁.trans h₂)⟩
  · rw [exec_bind_error hp]
    exact ⟨_, .inl h₁⟩

/-- An accepted frame: the roll, the record, the refresh, each if its write
goes through. If one before the record does not, the frame is lost. -/
theorem mergeFrame_does (ht : Takes files m i s f source)
    (hrej : rejects m.geometry.mtu f.record = false)
    (h : (m.setSlot i { s with source }).Becomes m.topic.log m₀) :
    Does (Round files) (Loss files) Interrupts
      (fun _ m' => m'.slots[i]? = some (s.past f source)) m
      (exec (mergeFrame i s.memberRef f) m₀) := by
  unfold mergeFrame
  rcases rollIfFull_in_hand ht hrej h with ⟨m₁, hp, g, hround, htg, hgeo, h₁⟩ | ⟨w, m₁, hp, hloss⟩
  · rw [exec_bind_ok hp]
    refine .head (.single hround) ?_
    rw [← hgeo] at hrej
    have hcommit := commitRecord_writes m₁ f.msgType
      (frameData ⟨s.memberRef, UInt64.ofNat f.index, f.userMeta⟩ f.payload)
    rcases hcommit with ⟨m₂, hp₂, h₂, -⟩ | ⟨w, m₂, hp₂, h₂, -⟩
    · rw [exec_bind_ok hp₂, exec_bind_ok (exec_modify _ _), exec_bind_ok (exec_get _)]
      rw [h₁.log] at h₂
      have hpast : (g.setSlot i (s.past f source)).Becomes (g.topic.log.commit (s.data f))
          (advance i f.index m₂) := by
        have h₂ := h₁.trans h₂
        refine ⟨h₂.log, h₂.geometry, ?_, h₂.nextRef, h₂.recovered, h₂.finished, h₂.dropped⟩
        show m₂.slots.modify i _ = g.slots.set i _
        rw [h₂.slots, modify_of_slot (getElem?_setSlot htg.slot _)]
        exact List.set_set _
      have hslot : (advance i f.index m₂).slots[i]? = some (s.past f source) := by
        rw [hpast.slots]
        exact getElem?_setSlot htg.slot _
      refine .head (.single (.merge htg hrej hpast)) ?_
      split
      · rcases emitSlotTable_writes (advance i f.index m₂) with
          ⟨m₃, hp₃, h₃, -⟩ | ⟨w, m₃, hp₃, h₃, -⟩
        · rw [hp₃]
          exact .head (.single (.refresh hslot h₃)) (.ok (by rw [h₃.slots]; exact hslot))
        · rw [hp₃]
          exact .head (.single (.count h₃)) (.error _)
      · exact .ok hslot
    · rw [exec_bind_error hp₂]
      rw [h₁.log] at h₂
      exact .broken ⟨w, rfl⟩ (.lose htg hrej (h₁.trans h₂))
  · rw [exec_bind_error hp]
    exact .broken ⟨w, rfl⟩ hloss

/-- Where slot `i`, which was `s`, is after `merge_one` said whether it merged:
its reader is further on, or at the end of the member's log. -/
def Advanced (files : φ → Log) (i : ℕ) (s : Slot φ) (merged : Bool) (m : Mux φ) : Prop :=
  ∃ s', m.slots[i]? = some s' ∧ s'.file = s.file ∧ s'.source.At (files s.file) ∧
    if merged then s.source.nextIndex < s'.source.nextIndex
    else (files s.file).get? s'.source.nextIndex = none

theorem Advanced.after {s₁ : Slot φ} {merged : Bool} (h : Advanced files i s₁ merged m)
    (hfile : s₁.file = s.file) (hle : s.source.nextIndex ≤ s₁.source.nextIndex) :
    Advanced files i s merged m := by
  obtain ⟨s', hs', hf, hat, hend⟩ := h
  rw [hfile] at hf hat hend
  refine ⟨s', hs', hf, hat, ?_⟩
  cases merged with
  | true => exact lt_of_le_of_lt hle hend
  | false => exact hend

theorem mergeLoop_does (hs : m.slots[i]? = some s) (fuel : ℕ) :
    Does (Round files) (Loss files) Interrupts
      (fun merged m' => s.source.At (files s.file) →
        (files s.file).head < s.source.nextIndex + fuel → Advanced files i s merged m') m
      (exec (mergeLoop files i s.memberRef fuel) m) := by
  induction fuel generalizing m s with
  | zero =>
      refine .ok fun hat hlt => ?_
      have hle := hat.valid.index_le
      rw [hat.index] at hle
      omega
  | succ fuel ih =>
      unfold mergeLoop
      rw [exec_bind_ok (exec_readFrame hs)]
      have hread :
          (m.setSlot i { s with source := (s.source.tryNextFrame (files s.file)).2 }).Becomes
            m.topic.log (m.setSource i (s.source.tryNextFrame (files s.file)).2) :=
        ⟨rfl, rfl, modify_of_slot hs _, rfl, rfl, rfl, rfl⟩
      rcases hr : s.source.tryNextFrame (files s.file) with ⟨_ | f, source⟩ <;> rw [hr] at hread
      · refine .head (.single (.rest hs hr hread)) (.ok fun hat _ => ?_)
        obtain ⟨hat', hnext, hnone⟩ := rest_of_none hr hat
        refine ⟨{ s with source }, ?_, rfl, hat', ?_⟩
        · rw [hread.slots]
          exact getElem?_setSlot hs _
        · exact hnext ▸ hnone
      have ht : Takes files m i s f source := ⟨hs, hr⟩
      simp only
      rw [exec_bind_ok (exec_get _)]
      by_cases hrej : rejects m.geometry.mtu f.record = true
      · rw [if_pos (by exact hrej), exec_bind_ok (exec_modify _ _)]
        have hslot : (m.setSource i source).slots[i]? = some { s with source } := by
          rw [hread.slots]
          exact getElem?_setSlot hs _
        have hpast : (m.passOver i s f source).Becomes m.topic.log
            (reject i f.index (m.setSource i source)) := by
          refine ⟨rfl, rfl, ?_, rfl, rfl, rfl, ?_⟩
          · show (m.setSource i source).slots.modify i _ = m.slots.set i _
            rw [modify_of_slot hslot, hread.slots]
            exact List.set_set _
          · show m.dropped ++ ((m.setSource i source).slots[i]?.map _).toList = _
            rw [hslot]
            rfl
        refine .head (.single (.reject ht hrej hpast)) ((ih (s :=
          { s.past f source with rejected := s.rejected + 1 }) ?_).mono fun merged m' hadv => ?_)
        · rw [hpast.slots]
          exact getElem?_setSlot hs _
        · intro hat hfuel
          obtain ⟨hat', hnext, -⟩ := ht.next hat
          refine (hadv hat' ?_).after rfl ?_
          · show (files s.file).head < source.nextIndex + fuel
            omega
          · show s.source.nextIndex ≤ source.nextIndex
            omega
      · rw [if_neg (by exact hrej)]
        refine (mergeFrame_does ht (by simpa using hrej) hread).bind fun _ m' hslot => .ok ?_
        intro hat _
        obtain ⟨hat', hnext, -⟩ := ht.next hat
        exact ⟨_, hslot, rfl, hat', hnext ▸ Nat.lt_succ_self _⟩

theorem mergeOne_does (files : φ → Log) (i : ℕ) (m : Mux φ) :
    Does (Round files) (Loss files) Interrupts
      (fun merged m' => ∀ s, m.slots[i]? = some s → s.source.At (files s.file) →
        Advanced files i s merged m') m (exec (mergeOne files i) m) := by
  unfold mergeOne
  rw [exec_bind_ok (exec_get m)]
  cases hs : m.slots[i]? with
  | none => exact .ok fun s hs' => by cases hs'
  | some s =>
      refine (mergeLoop_does hs _).mono fun merged m' hadv s' hs' hat => ?_
      cases hs'
      refine hadv hat ?_
      rw [Slot.fuel]
      omega

theorem poll_does (files : φ → Log) (m : Mux φ) :
    Does (Round files) (Loss files) Interrupts (fun _ _ => True) m (exec (poll files) m) :=
  poll_sequential (Does.sequential _ _ _)
    (fun i m => (mergeOne_does files i m).mono fun _ _ _ => trivial) m

theorem drain_does (files : φ → Log) (i fuel : ℕ) (m : Mux φ) :
    Does (Round files) (Loss files) Interrupts (fun _ _ => True) m
      (exec (drain files i fuel) m) :=
  drain_sequential (Does.sequential _ _ _)
    (fun i m => (mergeOne_does files i m).mono fun _ _ _ => trivial) i fuel m

/-- A drain that is not interrupted ends at the end of the member's log. -/
theorem drain_drained (hs : m.slots[i]? = some s) (hat : s.source.At (files s.file)) {fuel : ℕ}
    (hfuel : (files s.file).head < s.source.nextIndex + fuel) :
    Does (Round files) (Loss files) Interrupts (fun _ => Advanced files i s false) m
      (exec (drain files i fuel) m) := by
  induction fuel generalizing m s with
  | zero =>
      have hle := hat.valid.index_le
      rw [hat.index] at hle
      omega
  | succ fuel ih =>
      refine (mergeOne_does files i m).bind fun merged m₁ hadv => ?_
      obtain ⟨s₁, hs₁, hfile, hat₁, hend⟩ := hadv s hs hat
      cases merged with
      | false => exact .ok ⟨s₁, hs₁, hfile, hat₁, hend⟩
      | true =>
          have hlt : s.source.nextIndex < s₁.source.nextIndex := hend
          refine (ih hs₁ (by rwa [hfile]) ?_).mono fun _ m₂ h₂ => h₂.after hfile hlt.le
          rw [hfile]
          omega

/-! ## Who is attached -/

/-- The attached incarnations, in the order of their slots. -/
def attached (m : Mux φ) : List Incarnation := m.slots.map Slot.member

theorem attached_setSlot (hs : m.slots[i]? = some s) {s' : Slot φ} (hk : s'.member = s.member) :
    (m.setSlot i s').attached = m.attached := map_set_eq Slot.member hs s' hk

theorem Becomes.attached {log : Log} (h : m.Becomes log m') : m'.attached = m.attached :=
  congrArg (List.map Slot.member) h.slots

theorem Round.attached (h : Round files m m') : m'.attached = m.attached := by
  cases h with
  | count h => exact h.attached
  | rest hs _ h => exact h.attached.trans (attached_setSlot hs rfl)
  | reject ht _ h => exact h.attached.trans (attached_setSlot ht.slot rfl)
  | merge ht _ h => exact h.attached.trans (attached_setSlot ht.slot rfl)
  | refresh _ h => exact h.attached
  | roll _ _ h => exact h.attached

theorem Loss.attached (h : Loss files m m') : m'.attached = m.attached := by
  cases h with
  | lose ht _ h => exact h.attached.trans (attached_setSlot ht.slot rfl)
  | rollLose ht _ _ h => exact h.attached.trans (attached_setSlot ht.slot rfl)

/-- Whole rounds or a broken one, they leave the members. -/
theorem attached_of_does {α : Type} {Q : α → Mux φ → Prop} {r : Except MuxError α × Mux φ}
    (h : Does (Round files) (Loss files) Interrupts Q m r) : r.2.attached = m.attached :=
  h.keeps (P := fun x => x.attached = m.attached) (fun hx h => h.attached.trans hx)
    (fun hx h => h.attached.trans hx) rfl

theorem poll_attached (files : φ → Log) : Leaves (σ := Mux φ) attached (poll files) :=
  fun m => attached_of_does (poll_does files m)

/-! ## Leaving -/

def erase (pos : ℕ) (m : Mux φ) : Mux φ := { m with slots := m.slots.eraseIdx pos }

/-- The slot of incarnation `k` is drained, with this outcome. -/
structure Drains (files : φ → Log) (k : Incarnation) (m : Mux φ) (pos : ℕ) (s : Slot φ)
    (r : Except MuxError Unit × Mux φ) : Prop where
  first : m.attached.idxOf? k = some pos
  slot : m.slots[pos]? = some s
  drain : exec (drain files pos (s.fuel files)) m = r

/-- How a `remove_member` ends: nobody is removed, or the slot is gone, with
its marker and the table that says so or without the table. -/
inductive Removal (files : φ → Log) (k : Incarnation) (m : Mux φ) :
    Except MuxError Bool × Mux φ → Prop
  | absent (h : m.attached.idxOf? k = none) : Removal files k m (.ok false, m)
  | undrained {pos s e m'} (hd : Drains files k m pos s (.error e, m')) :
      Removal files k m (.error e, m')
  | unclosed {pos s m₁ w m'} (hd : Drains files k m pos s (.ok (), m₁))
      (h : m₁.Becomes m₁.topic.log m') : Removal files k m (.error (.write w), m')
  | untabled {pos s m₁ s₁ w m'} (hd : Drains files k m pos s (.ok (), m₁))
      (hs : m₁.slots[pos]? = some s₁)
      (h : (m₁.erase pos).Becomes (m₁.topic.log.commit s₁.closed) m') :
      Removal files k m (.error (.write w), m')
  | removed {pos s m₁ s₁ m'} (hd : Drains files k m pos s (.ok (), m₁))
      (hs : m₁.slots[pos]? = some s₁)
      (h : (m₁.erase pos).Becomes
        ((m₁.topic.log.commit s₁.closed).commit (m₁.erase pos).tableRecord) m') :
      Removal files k m (.ok true, m')

theorem Drains.attached {k : Incarnation} {pos : ℕ} {r : Except MuxError Unit × Mux φ}
    (h : Drains files k m pos s r) : r.2.attached = m.attached := by
  rw [← h.drain]
  exact attached_of_does (drain_does files pos _ m)

/-- Where `remove_member` finds its member is where the member is first. -/
theorem findIdx_attached (m : Mux φ) (k : Incarnation) :
    (m.slots.findIdx? fun s => s.name = k.1 && s.epoch = k.2) = m.attached.idxOf? k := by
  rw [attached, List.idxOf?, List.findIdx?_map]
  rfl

theorem removeMember_removal (files : φ → Log) (k : Incarnation) (m : Mux φ) :
    Removal files k m (exec (removeMember files k.1 k.2) m) := by
  unfold removeMember
  rw [exec_bind_ok (exec_get m), findIdx_attached]
  cases hpos : m.attached.idxOf? k with
  | none => exact .absent hpos
  | some pos =>
      obtain ⟨hlt, -⟩ := List.idxOf?_eq_some_iff.mp hpos
      rw [Mux.attached, List.length_map] at hlt
      have hs := List.getElem?_eq_getElem hlt
      simp only [hs, Option.map_some, Option.getD_some]
      rcases hr : exec (drain files pos (m.slots[pos].fuel files)) m with ⟨e | ⟨⟩, m₁⟩
      · rw [exec_bind_error hr]
        exact .undrained ⟨hpos, hs, hr⟩
      have hd : Drains files k m pos m.slots[pos] (.ok (), m₁) := ⟨hpos, hs, hr⟩
      rw [exec_bind_ok hr, exec_bind_ok (exec_get m₁)]
      -- the slot is still there
      have hlt₁ : pos < m₁.slots.length := by
        have hlen := congrArg List.length hd.attached
        rw [Mux.attached, Mux.attached, List.length_map, List.length_map] at hlen
        exact hlen ▸ hlt
      have hs₁ := List.getElem?_eq_getElem hlt₁
      simp only [hs₁]
      have hclosed : Writes (emitMemberClosed m₁.slots[pos].memberRef m₁.slots[pos].cursor) m₁
          (m₁.Becomes (m₁.topic.log.commit m₁.slots[pos].closed))
          (fun _ => m₁.Becomes m₁.topic.log) :=
        (commitRecord_writes m₁ _ _).mono (fun _ h => h.1) fun _ _ h => h.1
      rcases hclosed with ⟨m₂, hp₂, h₂⟩ | ⟨w, m₂, hp₂, h₂⟩
      · rw [exec_bind_ok hp₂, exec_bind_ok (exec_modify _ _)]
        have herase : (m₁.erase pos).Becomes (m₁.topic.log.commit m₁.slots[pos].closed)
            (m₂.erase pos) :=
          ⟨h₂.log, h₂.geometry, congrArg (List.eraseIdx · pos) h₂.slots, h₂.nextRef,
            h₂.recovered, h₂.finished, h₂.dropped⟩
        have htable : (m₂.erase pos).tableRecord = (m₁.erase pos).tableRecord := by
          rw [tableRecord, slotTable, herase.geometry, herase.slots]
          rfl
        rcases emitSlotTable_writes (m₂.erase pos) with ⟨m₃, hp₃, h₃, -⟩ | ⟨w, m₃, hp₃, h₃, -⟩ <;>
          rw [herase.log] at h₃
        · have hp₃' : exec emitSlotTable { m₂ with slots := m₂.slots.eraseIdx pos } =
            (.ok (), m₃) := hp₃
          rw [exec_bind_ok hp₃']
          exact .removed hd hs₁ (htable ▸ herase.trans h₃)
        · have hp₃' : exec emitSlotTable { m₂ with slots := m₂.slots.eraseIdx pos } =
            (.error (.write w), m₃) := hp₃
          rw [exec_bind_error hp₃']
          exact .untabled hd hs₁ (herase.trans h₃)
      · rw [exec_bind_error hp₂]
        exact .unclosed hd h₂

/-- A removal takes away its member's first slot, or nobody's; if it succeeds,
the first slot. -/
theorem removeMember_attached (files : φ → Log) (k : Incarnation) (m : Mux φ) :
    ((exec (removeMember files k.1 k.2) m).2.attached = m.attached ∨
      (exec (removeMember files k.1 k.2) m).2.attached = m.attached.erase k) ∧
    ∀ b, (exec (removeMember files k.1 k.2) m).1 = .ok b →
      (exec (removeMember files k.1 k.2) m).2.attached = m.attached.erase k := by
  have hgone : ∀ {pos s m₁ log m'}, Drains files k m pos s (.ok (), m₁) →
      (m₁.erase pos).Becomes log m' → m'.attached = m.attached.erase k := by
    intro pos s m₁ log m' hd h
    rw [h.attached, List.erase_eq_eraseIdx, hd.first, ← hd.attached]
    exact (List.eraseIdx_map _ _ _).symm
  have h := removeMember_removal files k m
  generalize exec (removeMember files k.1 k.2) m = r at h
  cases h with
  | absent h =>
      have herase : m.attached.erase k = m.attached := by rw [List.erase_eq_eraseIdx, h]
      exact ⟨.inl rfl, fun _ _ => herase.symm⟩
  | undrained hd => exact ⟨.inl hd.attached, fun _ hb => by cases hb⟩
  | unclosed hd h => exact ⟨.inl (h.attached.trans hd.attached), fun _ hb => by cases hb⟩
  | untabled hd _ h => exact ⟨.inr (hgone hd h), fun _ hb => by cases hb⟩
  | removed hd _ h => exact ⟨.inr (hgone hd h), fun _ _ => hgone hd h⟩

/-- Rounds, and members leaving. -/
inductive Act (files : φ → Log) (m : Mux φ) : Mux φ → Prop
  | round {m' : Mux φ} (h : Round files m m') : Act files m m'
  | detach {i : ℕ} {s m'} (hs : m.slots[i]? = some s)
      (h : (m.erase i).Becomes
        ((m.topic.log.commit s.closed).commit (m.erase i).tableRecord) m') : Act files m m'

/-- What a failing write leaves of an act: a frame is lost, or a member is gone
and no table says so. -/
inductive Tear (files : φ → Log) (m : Mux φ) : Mux φ → Prop
  | loss {m' : Mux φ} (h : Loss files m m') : Tear files m m'
  | drop {i : ℕ} {s m'} (hs : m.slots[i]? = some s)
      (h : (m.erase i).Becomes (m.topic.log.commit s.closed) m') : Tear files m m'

theorem Drains.does {k : Incarnation} {pos : ℕ} {r : Except MuxError Unit × Mux φ}
    (h : Drains files k m pos s r) :
    Does (Act files) (Tear files) Interrupts (fun _ _ => True) m r := by
  rw [← h.drain]
  exact (drain_does files pos _ m).coarsen (fun _ _ => .round) fun _ _ => .loss

theorem Drains.acts {k : Incarnation} {pos : ℕ} (h : Drains files k m pos s (.ok (), m')) :
    Relation.ReflTransGen (Act files) m m' := (h.does.whole (by simp)).1

theorem removeMember_does (files : φ → Log) (name : ChannelName) (epoch : UInt64) (m : Mux φ) :
    Does (Act files) (Tear files) Interrupts (fun _ _ => True) m
      (exec (removeMember files name epoch) m) := by
  have h := removeMember_removal files (name, epoch) m
  generalize exec (removeMember files name epoch) m = r at h
  cases h with
  | absent => exact .ok trivial
  | undrained hd =>
      obtain ⟨m₁, hsteps, ⟨rfl, -⟩ | ⟨e, he, hi, ht⟩⟩ := hd.does
      · exact .head hsteps (.error _)
      · cases he
        exact .head hsteps (.broken hi ht)
  | unclosed hd h => exact .head (hd.acts.tail (.round (.count h))) (.error _)
  | untabled hd hs h => exact .head hd.acts (.broken ⟨_, rfl⟩ (.drop hs h))
  | removed hd hs h => exact .head (hd.acts.tail (.detach hs h)) (.ok trivial)

theorem removeMembers_does (files : φ → Log) (ks : List Incarnation) (m : Mux φ) :
    Does (Act files) (Tear files) Interrupts (fun _ _ => True) m
      (exec (removeMembers files ks) m) :=
  removeMembers_sequential (Does.sequential _ _ _) (removeMember_does files) ks m

/-- Removing every member leaves no slot. -/
theorem removeMembers_slots {ks : List Incarnation}
    (h : exec (removeMembers files ks) m = (.ok (), m')) (hk : m.attached = ks) :
    m'.slots = [] := by
  induction ks generalizing m with
  | nil =>
      cases h
      exact List.map_eq_nil_iff.mp hk
  | cons k ks ih =>
      have hremoved := (removeMember_attached files k m).2
      unfold removeMembers at h
      rcases hr : exec (removeMember files k.1 k.2) m with ⟨e | b, m₁⟩
      · rw [exec_bind_error hr] at h
        cases h
      · rw [exec_bind_ok hr] at h
        refine ih h ?_
        rw [hr] at hremoved
        rw [hremoved b rfl, hk, List.erase_cons_head]

/-! ## The end of a topic -/

/-- How a `finish` ends. -/
inductive Finishing (files : φ → Log) (m : Mux φ) : Except MuxError Unit × Mux φ → Prop
  | already : Finishing files m (.ok (), m)
  | unremoved {e m'} (hr : exec (removeMembers files m.attached) m = (.error e, m')) :
      Finishing files m (.error e, m')
  | unended {m₁ w m'} (hr : exec (removeMembers files m.attached) m = (.ok (), m₁))
      (h : m₁.Becomes m₁.topic.log m') : Finishing files m (.error (.write w), m')
  | ended {m₁ m'} (hfin : m.finished = false)
      (hr : exec (removeMembers files m.attached) m = (.ok (), m₁))
      (h : ({ m₁ with finished := true } : Mux φ).Becomes
        (m₁.topic.log.commit ⟨MSG_TYPE_TERMINAL, 0, []⟩) m') : Finishing files m (.ok (), m')

theorem finish_finishing (files : φ → Log) (m : Mux φ) :
    Finishing files m (exec (finish files) m) := by
  unfold finish
  rw [exec_bind_ok (exec_get m)]
  split
  · exact .already
  rename_i hfin
  change Finishing files m (exec (removeMembers files m.attached >>= _) m)
  rcases hr : exec (removeMembers files m.attached) m with ⟨e | ⟨⟩, m₁⟩
  · rw [exec_bind_error hr]
    exact .unremoved hr
  rw [exec_bind_ok hr]
  rcases commitRecord_writes m₁ MSG_TYPE_TERMINAL [] with ⟨m₂, hp, h, -⟩ | ⟨w, m₂, hp, h, -⟩
  · rw [exec_bind_ok hp]
    exact .ended (by simpa using hfin) hr
      ⟨h.log, h.geometry, h.slots, h.nextRef, h.recovered, rfl, h.dropped⟩
  · rw [exec_bind_error hp]
    exact .unended hr h

/-- Acts, and the end of the topic. -/
inductive Move (files : φ → Log) (m : Mux φ) : Mux φ → Prop
  | act {m' : Mux φ} (h : Act files m m') : Move files m m'
  | terminate {m' : Mux φ} (hfin : m.finished = false) (hslots : m.slots = [])
      (h : ({ m with finished := true } : Mux φ).Becomes
        (m.topic.log.commit ⟨MSG_TYPE_TERMINAL, 0, []⟩) m') : Move files m m'

theorem Act.finished (h : Act files m m') : m'.finished = m.finished := by
  cases h with
  | detach _ h => exact h.finished
  | round h =>
      cases h with
      | count h => exact h.finished
      | rest _ _ h => exact h.finished
      | reject _ _ h => exact h.finished
      | merge _ _ h => exact h.finished
      | refresh _ h => exact h.finished
      | roll _ _ h => exact h.finished

theorem acts_finished (h : Relation.ReflTransGen (Act files) m m') :
    m'.finished = m.finished := by
  induction h with
  | refl => rfl
  | tail _ hact ih => rw [hact.finished, ih]

theorem finish_does (files : φ → Log) (m : Mux φ) :
    Does (Move files) (Tear files) Interrupts (fun _ _ => True) m (exec (finish files) m) := by
  have hremoved := removeMembers_does files m.attached m
  have h := finish_finishing files m
  generalize exec (finish files) m = r at h
  cases h with
  | already => exact .ok trivial
  | unremoved hr =>
      rw [hr] at hremoved
      exact hremoved.coarsen (fun _ _ => .act) fun _ _ h => h
  | unended hr h =>
      rw [hr] at hremoved
      have hacts := (hremoved.whole (by simp)).1.tail (.round (.count h))
      exact .head (Relation.ReflTransGen.mono (fun _ _ => Move.act) _ _ hacts) (.error _)
  | ended hfin hr h =>
      rw [hr] at hremoved
      obtain ⟨hacts, -⟩ := hremoved.whole (by simp)
      exact .head ((Relation.ReflTransGen.mono (fun _ _ => Move.act) _ _ hacts).tail
        (.terminate ((acts_finished hacts).trans hfin) (removeMembers_slots hr rfl) h))
        (.ok trivial)

/-! ## Joining -/

/-- A slot that `add_member` takes, and what it puts on record with it. -/
structure Admits (files : φ → Log) (m : Mux φ) (s : Slot φ) (mark : Mark) : Prop where
  running : m.finished = false
  new : m.hasMember s.name s.epoch = false
  space : m.nextRef ≠ 65535
  ref : s.memberRef = m.nextRef
  resume : Mux.resume (want (m.recovered s.member)) (files s.file).earliest (files s.file).head =
    (s.cursor, mark)
  place : s.source.At (files s.file)
  position : s.source.nextIndex = s.cursor
  rejected : s.rejected = 0

theorem length_encodeEntry (e : SlotEntry) :
    (encodeEntry e).length = 20 + (nameBytes e.name).length := by
  simp only [encodeEntry, List.length_append, Bytes.length_encode]
  omega

theorem length_encodeSlotTable (g : TopicGeometry) (es : List SlotEntry) :
    (encodeSlotTable g es).length = 23 + (es.flatMap encodeEntry).length := by
  simp only [encodeSlotTable, List.length_cons, List.length_append, Bytes.length_encode]
  omega

/-- The table of a slot more. -/
theorem length_table_push (m : Mux φ) (s : Slot φ) :
    (encodeSlotTable (push s m).geometry ((push s m).slots.map Slot.entry)).length =
      (encodeSlotTable m.geometry (m.slots.map Slot.entry)).length +
        (20 + (nameBytes s.name).length) := by
  simp only [push, length_encodeSlotTable, List.map_append, List.flatMap_append,
    List.length_append, List.map_singleton, List.flatMap_singleton, length_encodeEntry]
  rw [Nat.add_assoc]
  rfl

def bump (m : Mux φ) : Mux φ := { m with nextRef := m.nextRef + 1 }

def enroll (s : Slot φ) (m : Mux φ) : Mux φ := push s m.bump

/-- How an `add_member` can end: without effect, having only used up a ref, or
with its slot, attached whole or stopped by a failing write. -/
inductive Admission (files : φ → Log) (name : ChannelName) (epoch : UInt64) (file : Option φ)
    (m : Mux φ) : Except MuxError Unit × Mux φ → Prop
  | present (h : m.hasMember name epoch = true) : Admission files name epoch file m (.ok (), m)
  | refused {e} (h : m.finished = true ∨ m.nextRef = 65535) (he : ¬ Interrupts e) :
      Admission files name epoch file m (.error e, m)
  | unsourced (hfin : m.finished = false) (hspace : m.nextRef ≠ 65535) :
      Admission files name epoch file m (.error .source, m.bump)
  | attached {s mark m'} (ha : Admits files m s mark) (hk : s.member = (name, epoch))
      (hf : file = some s.file)
      (h : (m.enroll s).Becomes ((mark.records s.memberRef).foldl Log.commit
        (m.topic.log.commit (m.enroll s).tableRecord)) m') :
      Admission files name epoch file m (.ok (), m')
  | untabled {s mark w m'} (ha : Admits files m s mark) (hk : s.member = (name, epoch))
      (hf : file = some s.file) (h : (m.enroll s).Becomes m.topic.log m')
      (hw : (m.enroll s).Fails (m.enroll s).slotTable.length w) :
      Admission files name epoch file m (.error (.write w), m')
  | unmarked {s mark w m'} (ha : Admits files m s mark) (hk : s.member = (name, epoch))
      (hf : file = some s.file) (hmark : mark ≠ .none)
      (h : (m.enroll s).Becomes (m.topic.log.commit (m.enroll s).tableRecord) m')
      (hw : m.topic.outcome.error = none ∧ m.topic.advance.outcome.error = some w) :
      Admission files name epoch file m (.error (.write w), m')

theorem addMember_admission (files : φ → Log) (name : ChannelName) (epoch : UInt64)
    (file : Option φ) (m : Mux φ) :
    Admission files name epoch file m (exec (addMember files name epoch file) m) := by
  unfold addMember
  rw [exec_bind_ok (exec_get m)]
  split
  · exact .refused (.inl ‹_›) (by simp [Interrupts])
  split
  · exact .present ‹_›
  split
  · exact .refused (.inr ‹_›) (by simp [Interrupts])
  rename_i hfin hnew hspace
  rw [exec_bind_ok (exec_set _ _)]
  have hfin' : m.finished = false := by simpa using hfin
  cases file with
  | none => exact .unsourced hfin' hspace
  | some file =>
      rcases hres : resume (want (m.recovered (name, epoch))) (files file).earliest
        (files file).head with ⟨start, mark⟩
      have hbounds := resume_bounds (files file).earliest_le_head hres
      obtain ⟨source, hskip, hat, hpos⟩ :=
        (ReplicationSource.open_at (files file)).skipTo hbounds.1 hbounds.2
      simp only [ReplicationSource.open, hres] at hskip ⊢
      rw [hskip]
      simp only
      rw [exec_bind_ok (exec_modify _ _)]
      let s : Slot φ := ⟨m.nextRef, name, epoch, file, source, start, 0⟩
      have ha : Admits files m s mark :=
        ⟨hfin', by simpa using hnew, hspace, rfl, hres, hat, hpos, rfl⟩
      rcases emitSlotTable_writes (m.enroll s) with ⟨m₁, hp, h₁, hmade⟩ | ⟨w, m₁, hp, h₁, hw⟩
      · have hp' : exec emitSlotTable (push s { m with nextRef := m.nextRef + 1 }) =
          (.ok (), m₁) := hp
        rw [exec_bind_ok hp']
        have hmarker : 18 ≤ (m.enroll s).slotTable.length := by
          rw [slotTable, length_encodeSlotTable]
          omega
        rcases emitMark_writes m₁ m.nextRef mark with
          ⟨m₂, hp₂, h₂⟩ | ⟨w, m₂, hp₂, hmark, h₂, hw⟩ <;> rw [hp₂] <;> rw [h₁.log] at h₂
        · exact .attached ha rfl rfl (h₁.trans h₂)
        · exact .unmarked ha rfl rfl hmark (h₁.trans h₂) (hmade.fails hmarker hw)
      · have hp' : exec emitSlotTable (push s { m with nextRef := m.nextRef + 1 }) =
          (.error (.write w), m₁) := hp
        rw [exec_bind_error hp']
        exact .untabled ha rfl rfl h₁ hw

/-! ## The writes of an attachment -/

/-- There is room in a record of the topic for a slot table with one more entry. -/
def RoomFor (m : Mux φ) (name : ChannelName) : Prop :=
  m.topic.mtu = 0 ∨ (encodeSlotTable m.geometry (m.slots.map Slot.entry)).length +
    (20 + (nameBytes name).length) ≤ m.topic.mtu.toNat

instance (m : Mux φ) (name : ChannelName) : Decidable (m.RoomFor name) :=
  inferInstanceAs (Decidable (_ ∨ _))

theorem TopicWriter.outcomes_of_error {w : TopicWriter} {e : WriteError}
    (h : w.outcome.error = some e) : ∃ x rest, w.outcomes = x :: rest ∧ x.error = some e := by
  unfold outcome at h
  cases hw : w.outcomes with
  | nil =>
      rw [hw] at h
      cases h
  | cons x rest =>
      rw [hw] at h
      exact ⟨x, rest, rfl, h⟩

/-- **How an `add_member` fails in a write**: it is for a member that is not attached yet, and
there is no room for it, or the slot table ends as was in store for it, or the marker does. -/
theorem addMember_write_error {files : φ → Log} {m m' : Mux φ} {name : ChannelName}
    {epoch : UInt64} {file : Option φ} {e : WriteError}
    (h : exec (addMember files name epoch file) m = (.error (.write e), m')) :
    (∀ s ∈ m.slots, s.member ≠ (name, epoch)) ∧ file ≠ none ∧
      ((e = .exceedsMtu ∧ ¬ m.RoomFor name) ∨
      (∃ x rest, m.topic.outcomes = x :: rest ∧ x.error = some e ∧
        m'.topic.log = m.topic.log) ∨
      ∃ x y rest, m.topic.outcomes = x :: y :: rest ∧ x.error = none ∧ y.error = some e) := by
  have hadm := addMember_admission files name epoch file m
  rw [h] at hadm
  have hnew : ∀ {s mark}, Admits files m s mark → s.member = (name, epoch) →
      ∀ x ∈ m.slots, x.member ≠ (name, epoch) := by
    intro s mark ha hk
    cases hk
    simpa [hasMember, Slot.member] using ha.new
  cases hadm with
  | refused _ he => exact absurd ⟨e, rfl⟩ he
  | @untabled s mark _ _ ha hk hf hm hw =>
      refine ⟨hnew ha hk, by simp [hf], ?_⟩
      rcases hw with ⟨he, hpos, hlong⟩ | hw
      · refine .inl ⟨he, ?_⟩
        cases hk
        rw [slotTable, enroll, length_table_push] at hlong
        rintro (hzero | hle)
        · exact absurd (hzero ▸ hpos) (by decide)
        · exact absurd hle (not_le.mpr hlong)
      · obtain ⟨x, rest, hout, hx⟩ := TopicWriter.outcomes_of_error hw
        exact .inr (.inl ⟨x, rest, hout, hx, hm.log⟩)
  | unmarked ha hk hf _ _ hw =>
      refine ⟨hnew ha hk, by simp [hf], ?_⟩
      obtain ⟨y, rest, hout, hy⟩ := TopicWriter.outcomes_of_error hw.2
      have ho := hw.1
      change m.topic.outcomes.tail = y :: rest at hout
      change (m.topic.outcomes.headD (.done 0)).error = none at ho
      cases hall : m.topic.outcomes with
      | nil =>
          rw [hall] at hout
          cases hout
      | cons x rest' =>
          rw [hall] at hout ho
          cases hout
          exact .inr (.inr ⟨x, y, rest, rfl, ho, hy⟩)

end Mux

end XchannelNet
