import XchannelNet.Channel.Replication
import XchannelNet.Lib.Fallible
import XchannelNet.Mux.Recovery

/-!
# Engine — the mux

The single writer of a topic: it tails its members' logs and commits their
records, each with its provenance, into one log. The state is the code's,
field by field; an operation is a computation that stops at its first failing
write and leaves the mux as far changed as it had got.

What the disk does with a write is not the mux's choice. A `TopicWriter`
carries the outcomes in store for the writes to come: a write goes through, or
fails, or is the one the process is killed at. With nothing in store writes go
through. A member's files are read through `files`, so that they can grow
between any two operations.
-/

namespace XchannelNet

namespace Mux

/-! ## The topic writer -/

/-- What the disk does with one write. A roll that goes through also sweeps,
so that (at most) the first `k` segments are gone. -/
inductive WriteOutcome where
  | done (k : ℕ)
  | failed
  | killed
  deriving DecidableEq, Repr

/-- What a write that does not go through fails with. -/
def WriteOutcome.error : WriteOutcome → Option WriteError
  | .done _ => none
  | .failed => some .failed
  | .killed => some .killed

structure TopicWriter where
  log : Log
  mtu : UInt32
  keepFiles : UInt32
  outcomes : List WriteOutcome

namespace TopicWriter

/-- The outcome of the write at hand. -/
def outcome (w : TopicWriter) : WriteOutcome := w.outcomes.headD (.done 0)

def advance (w : TopicWriter) : TopicWriter := { w with outcomes := w.outcomes.tail }

/-- Reserve, fill and commit one record. -/
def tryCommit (w : TopicWriter) (r : Record) : Except WriteError Unit × TopicWriter :=
  if 0 < w.mtu ∧ w.mtu.toNat < r.payload.length then (.error .exceedsMtu, w)
  else
    match w.outcome with
    | .done _ => (.ok (), { w.advance with log := w.log.commit r })
    | .failed => (.error .failed, w.advance)
    | .killed => (.error .killed, w.advance)

/-- Roll; retention sweeps only where `keep_files` is set. -/
def rollFile (w : TopicWriter) : Except WriteError Unit × TopicWriter :=
  match w.outcome with
  | .done k =>
    (.ok (), { w.advance with log := w.log.rollFile.pruneTo (if w.keepFiles = 0 then 0 else k) })
  | .failed => (.error .failed, w.advance)
  | .killed => (.error .killed, w.advance)

/-- A commit is refused for the length of its record, or ends as is in store for it. -/
theorem tryCommit_outcome (w : TopicWriter) (r : Record) :
    ((0 < w.mtu ∧ w.mtu.toNat < r.payload.length) ∧ w.tryCommit r = (.error .exceedsMtu, w)) ∨
    ¬ (0 < w.mtu ∧ w.mtu.toNat < r.payload.length) ∧
      ((∃ e, w.outcome.error = some e ∧ w.tryCommit r = (.error e, w.advance)) ∨
      w.outcome.error = none ∧
        w.tryCommit r = (.ok (), { w.advance with log := w.log.commit r })) := by
  unfold tryCommit
  by_cases hlong : 0 < w.mtu ∧ w.mtu.toNat < r.payload.length
  · exact .inl ⟨hlong, if_pos hlong⟩
  · rw [if_neg hlong]
    refine .inr ⟨hlong, ?_⟩
    cases w.outcome with
    | done k => exact .inr ⟨rfl, rfl⟩
    | failed => exact .inl ⟨_, rfl, rfl⟩
    | killed => exact .inl ⟨_, rfl, rfl⟩

theorem rollFile_cases (w : TopicWriter) :
    (∃ k w', w.rollFile = (.ok (), w') ∧ w'.log = w.log.rollFile.pruneTo k) ∨
      ∃ e w', w.rollFile = (.error e, w') ∧ w'.log = w.log := by
  unfold rollFile
  cases w.outcome with
  | done k => exact .inl ⟨_, _, rfl, rfl⟩
  | failed => exact .inr ⟨_, _, rfl, rfl⟩
  | killed => exact .inr ⟨_, _, rfl, rfl⟩

end TopicWriter

/-! ## State -/

structure Slot (φ : Type) where
  memberRef : UInt16
  name : ChannelName
  epoch : UInt64
  file : φ
  source : ReplicationSource
  cursor : ℕ
  rejected : ℕ

namespace Slot

variable {φ : Type}

def member (s : Slot φ) : Incarnation := (s.name, s.epoch)

def entry (s : Slot φ) : SlotEntry := ⟨s.memberRef, s.name, s.epoch, UInt64.ofNat s.cursor⟩

end Slot

end Mux

open Mux in
/-- A mux. Of the dropped records the code keeps only the number, per slot;
`dropped` lists them, and nothing reads it. -/
structure Mux (φ : Type) where
  topic : TopicWriter
  geometry : TopicGeometry
  slots : List (Slot φ)
  nextRef : UInt16
  maxBatchPerMember : ℕ
  recovered : Incarnation → Option ℕ
  gapsEmitted : ℕ
  slotTableVersion : ℕ
  sinceSlotTable : ℕ
  bytesInSegment : ℕ
  finished : Bool
  dropped : List (Incarnation × ℕ)

/-- An operation on a mux. -/
abbrev MuxM (φ : Type) := Fallible Mux.MuxError (Mux φ)

namespace Mux

variable {φ : Type}

/-- The cursors of a topic's retained records; of a topic that does not exist
yet, none. -/
def recoverFrom : Option Log → Except MuxError (Incarnation → Option ℕ)
  | none => .ok fun _ => none
  | some l => recoverCursors (l.contents.map Prod.fst)

/-- Open or reopen the mux of a topic. The cursors are recovered before the
writer is built. The mux rolls by itself: the writer is not told when. -/
def «open» (disk : Option Log) (name : ChannelName) (geometry : TopicGeometry)
    (maxBatchPerMember : ℕ) : Except MuxError (Mux φ) := do
  let recovered ← recoverFrom disk
  let cfg : WriterConfig :=
    { name, regionSize := geometry.regionSize, mtu := geometry.mtu, fileRollSize := 0,
      keepFiles := geometry.keepFiles, baseRecordIndex := 0, generation := 0 }
  match Log.build cfg disk with
  | .error e => .error (.writer e)
  | .ok log =>
    .ok
      { topic := ⟨log, geometry.mtu, geometry.keepFiles, []⟩
        geometry, slots := [], nextRef := 0, maxBatchPerMember := max maxBatchPerMember 1
        recovered, gapsEmitted := 0, slotTableVersion := 0, sinceSlotTable := 0
        bytesInSegment := 0, finished := false, dropped := [] }

/-- A mux opened on a log: everything is new but what the log says. -/
theorem open_ok {disk : Option Log} {name : ChannelName} {geometry : TopicGeometry} {batch : ℕ}
    {m : Mux φ} (h : «open» disk name geometry batch = .ok m) :
    ∃ recovered log, recoverFrom disk = .ok recovered ∧
      Log.build ⟨name, geometry.regionSize, geometry.mtu, 0, geometry.keepFiles, 0, 0⟩ disk =
        .ok log ∧
      m = ⟨⟨log, geometry.mtu, geometry.keepFiles, []⟩, geometry, [], 0, max batch 1, recovered,
        0, 0, 0, 0, false, []⟩ := by
  unfold «open» at h
  cases hrec : recoverFrom disk with
  | error e =>
      rw [hrec] at h
      cases h
  | ok recovered =>
      rw [hrec] at h
      simp only [bind, Except.bind] at h
      split at h
      · cases h
      · rename_i log hlog
        exact ⟨recovered, log, rfl, hlog, (Except.ok.inj h).symm⟩

def hasMember (m : Mux φ) (name : ChannelName) (epoch : UInt64) : Bool :=
  m.slots.any fun s => s.name = name && s.epoch = epoch

def setSource (i : ℕ) (source : ReplicationSource) (m : Mux φ) : Mux φ :=
  { m with slots := m.slots.modify i fun s => { s with source } }

/-- A frame that can never be merged is passed over. -/
def reject (i index : ℕ) (m : Mux φ) : Mux φ :=
  { m with
    slots := m.slots.modify i fun s => { s with rejected := s.rejected + 1, cursor := index + 1 }
    dropped := m.dropped ++ (m.slots[i]?.map fun s => (s.member, index)).toList }

/-- A frame is in the topic. -/
def advance (i index : ℕ) (m : Mux φ) : Mux φ :=
  { m with
    slots := m.slots.modify i fun s => { s with cursor := index + 1 }
    sinceSlotTable := m.sinceSlotTable + 1 }

def push (s : Slot φ) (m : Mux φ) : Mux φ := { m with slots := m.slots ++ [s] }

/-! ## Writing -/

/-- Commit one record and account its size. The single commit path. -/
def commitRecord (msgType : UInt16) (payload : List UInt8) : MuxM φ Unit := do
  let m ← get
  match m.topic.tryCommit ⟨msgType, 0, payload⟩ with
  | (.ok _, topic) =>
    set { m with topic, bytesInSegment :=
            m.bytesInSegment + RECORD_OVERHEAD + (payload.length + 7) / 8 * 8 }
  | (.error e, topic) => do
    set { m with topic }
    throw (.write e)

def emitSlotTable : MuxM φ Unit := do
  let m ← get
  commitRecord MSG_TYPE_SLOT_TABLE (encodeSlotTable m.geometry (m.slots.map Slot.entry))
  modify fun m => { m with slotTableVersion := m.slotTableVersion + 1, sinceSlotTable := 0 }

def emitTopicGap (memberRef : UInt16) (fromIndex resumedAt : ℕ) : MuxM φ Unit := do
  commitRecord MSG_TYPE_TOPIC_GAP
    (TopicGap.toPayload ⟨memberRef, UInt64.ofNat fromIndex, UInt64.ofNat resumedAt⟩)
  modify fun m => { m with gapsEmitted := m.gapsEmitted + 1 }

def emitMemberRegressed (memberRef : UInt16) (expected head : ℕ) : MuxM φ Unit :=
  commitRecord MSG_TYPE_MEMBER_REGRESSED
    (MemberRegressed.toPayload ⟨memberRef, UInt64.ofNat expected, UInt64.ofNat head⟩)

def emitMemberClosed (memberRef : UInt16) (finalIndex : ℕ) : MuxM φ Unit :=
  commitRecord MSG_TYPE_MEMBER_CLOSED
    (MemberClosed.toPayload ⟨memberRef, UInt64.ofNat finalIndex⟩)

def rollFile : MuxM φ Unit := do
  let m ← get
  match m.topic.rollFile with
  | (.ok _, topic) => set { m with topic, bytesInSegment := 0 }
  | (.error e, topic) => do
    set { m with topic }
    throw (.write e)

/-- Roll if the segment is full, and start the new one with a slot table. -/
def rollIfFull : MuxM φ Unit := do
  let m ← get
  if m.geometry.fileRollSize = 0 ∨ m.bytesInSegment < m.geometry.fileRollSize.toNat then
    return ()
  else do
    rollFile
    emitSlotTable

/-! ## Members -/

/-- What a resumption has to put on record. -/
inductive Mark where
  | none
  | gap (fromIndex resumedAt : ℕ)
  | regressed (expected head : ℕ)
  deriving DecidableEq, Repr

/-- Where to resume a member and what to record about it. -/
def resume (want earliest head : ℕ) : ℕ × Mark :=
  if want < earliest then (earliest, .gap want earliest)
  else if head < want then (head, .regressed want head)
  else (want, .none)

theorem resume_cases (want earliest head : ℕ) :
    want < earliest ∧ resume want earliest head = (earliest, .gap want earliest) ∨
    earliest ≤ want ∧ head < want ∧ resume want earliest head = (head, .regressed want head) ∨
    earliest ≤ want ∧ want ≤ head ∧ resume want earliest head = (want, .none) := by
  unfold resume
  split
  · exact .inl ⟨‹_›, rfl⟩
  · split
    · exact .inr (.inl ⟨by omega, ‹_›, rfl⟩)
    · exact .inr (.inr ⟨by omega, by omega, rfl⟩)

/-- A member is taken up inside its log, at or after the earliest record. -/
theorem resume_bounds {want earliest head start : ℕ} {mark : Mark} (hle : earliest ≤ head)
    (h : resume want earliest head = (start, mark)) : earliest ≤ start ∧ start ≤ head := by
  rcases resume_cases want earliest head with ⟨-, he⟩ | ⟨hw, hw', he⟩ | ⟨hw, hw', he⟩ <;>
    rw [he, Prod.mk.injEq] at h <;> omega

def emitMark (memberRef : UInt16) : Mark → MuxM φ Unit
  | .none => return ()
  | .gap fromIndex resumedAt => emitTopicGap memberRef fromIndex resumedAt
  | .regressed expected head => emitMemberRegressed memberRef expected head

/-- Attach a member. `file` is what is at its path, if anything is. -/
def addMember (files : φ → Log) (name : ChannelName) (epoch : UInt64) (file : Option φ) :
    MuxM φ Unit := do
  let m ← get
  if m.finished then throw .retired
  else if m.hasMember name epoch then return ()
  else if m.nextRef = 65535 then throw .refSpaceExhausted
  else do
    let memberRef := m.nextRef
    set { m with nextRef := m.nextRef + 1 }
    match file with
    | none => throw .source
    | some file =>
      let (source, earliest) := ReplicationSource.open (files file)
      let (start, mark) := resume (want (m.recovered (name, epoch))) earliest (files file).head
      match source.skipTo (files file) start with
      | none => throw .seekBlocked
      | some source => do
        modify (push ⟨memberRef, name, epoch, file, source, start, 0⟩)
        emitSlotTable
        emitMark memberRef mark

/-- Whether a member record can never be merged: a reserved message type, or
too long for the topic once its provenance is in front of it. -/
def rejects (mtu : UInt32) (r : Record) : Bool :=
  isControl r.msgType || (0 < mtu && mtu.toNat < PROVENANCE_LEN + r.payload.length)

/-- The next frame of slot `i`. Reading it consumes it. -/
def readFrame (files : φ → Log) (i : ℕ) : MuxM φ (Option RecordFrame) := do
  let m ← get
  match m.slots[i]? with
  | none => return none
  | some s =>
    let (frame, source) := s.source.tryNextFrame (files s.file)
    set (m.setSource i source)
    return frame

theorem exec_readFrame {files : φ → Log} {m : Mux φ} {i : ℕ} {s : Slot φ}
    (hs : m.slots[i]? = some s) :
    Fallible.exec (readFrame files i) m =
      (.ok (s.source.tryNextFrame (files s.file)).1,
        m.setSource i (s.source.tryNextFrame (files s.file)).2) := by
  unfold readFrame
  rw [Fallible.exec_bind_ok (Fallible.exec_get m)]
  simp only [hs]
  rfl

theorem exec_readFrame_none {files : φ → Log} {m : Mux φ} {i : ℕ} (hs : m.slots[i]? = none) :
    Fallible.exec (readFrame files i) m = (.ok none, m) := by
  unfold readFrame
  rw [Fallible.exec_bind_ok (Fallible.exec_get m)]
  simp only [hs]
  rfl

/-- Commit an accepted frame: the roll comes before it, the cursor after. -/
def mergeFrame (i : ℕ) (memberRef : UInt16) (f : RecordFrame) : MuxM φ Unit := do
  rollIfFull
  commitRecord f.msgType
    (frameData ⟨memberRef, UInt64.ofNat f.index, f.userMeta⟩ f.payload)
  modify (advance i f.index)
  let m ← get
  if SLOT_TABLE_REFRESH ≤ m.sinceSlotTable then emitSlotTable else return ()

/-- The loop of `merge_one`. Every round but the last consumes a record, so
`fuel` is one more than there are records left. -/
def mergeLoop (files : φ → Log) (i : ℕ) (memberRef : UInt16) : ℕ → MuxM φ Bool
  | 0 => return false
  | fuel + 1 => do
    match ← readFrame files i with
    | none => return false
    | some f => do
      let m ← get
      if rejects m.geometry.mtu f.record then do
        modify (reject i f.index)
        mergeLoop files i memberRef fuel
      else do
        mergeFrame i memberRef f
        return true

/-- Rounds that exhaust what slot `s` has to read. -/
def Slot.fuel (files : φ → Log) (s : Slot φ) : ℕ := (files s.file).head + 1 - s.source.nextIndex

/-- Merge the next ready record of slot `i`; `false` if it is caught up. -/
def mergeOne (files : φ → Log) (i : ℕ) : MuxM φ Bool := do
  let m ← get
  match m.slots[i]? with
  | none => return false
  | some s => mergeLoop files i s.memberRef (s.fuel files)

/-- Up to `batch` records of slot `i`. -/
def pollSlot (files : φ → Log) (i : ℕ) : ℕ → MuxM φ ℕ
  | 0 => return 0
  | batch + 1 => do
    if ← mergeOne files i then do
      let merged ← pollSlot files i batch
      return merged + 1
    else return 0

def pollSlots (files : φ → Log) (batch : ℕ) : List ℕ → MuxM φ ℕ
  | [] => return 0
  | i :: is => do
    let merged ← pollSlot files i batch
    let rest ← pollSlots files batch is
    return merged + rest

/-- Merge what is ready, boundedly much from each member. -/
def poll (files : φ → Log) : MuxM φ ℕ := do
  let m ← get
  if m.finished then return 0
  else pollSlots files m.maxBatchPerMember (List.range m.slots.length)

/-- Merge slot `i` to its head. -/
def drain (files : φ → Log) (i : ℕ) : ℕ → MuxM φ Unit
  | 0 => return ()
  | fuel + 1 => do
    if ← mergeOne files i then drain files i fuel else return ()

/-- Clean leave: drain, mark the close, drop the slot. -/
def removeMember (files : φ → Log) (name : ChannelName) (epoch : UInt64) : MuxM φ Bool := do
  let m ← get
  match m.slots.findIdx? fun s => s.name = name && s.epoch = epoch with
  | none => return false
  | some pos => do
    drain files pos ((m.slots[pos]?.map (Slot.fuel files)).getD 0)
    let m ← get
    match m.slots[pos]? with
    | none => return false
    | some s => do
      emitMemberClosed s.memberRef s.cursor
      modify fun m => { m with slots := m.slots.eraseIdx pos }
      emitSlotTable
      return true

def removeMembers (files : φ → Log) : List Incarnation → MuxM φ Unit
  | [] => return ()
  | k :: ks => do
    let _ ← removeMember files k.1 k.2
    removeMembers files ks

/-- Retire the topic: drain and close every member, then the terminal marker. -/
def finish (files : φ → Log) : MuxM φ Unit := do
  let m ← get
  if m.finished then return ()
  else do
    removeMembers files (m.slots.map Slot.member)
    commitRecord MSG_TYPE_TERMINAL []
    modify fun m => { m with finished := true }

/-! ## What repeating keeps -/

section Repeating

open Fallible

variable {T : (α : Type) → Mux φ → Except MuxError α × Mux φ → Prop} (hT : Sequential T)
  {files : φ → Log}
include hT

section Merges

variable (h : ∀ i m, T Bool m (exec (mergeOne files i) m))
include h

theorem pollSlot_sequential (i batch : ℕ) (m : Mux φ) :
    T ℕ m (exec (pollSlot files i batch) m) := by
  induction batch generalizing m with
  | zero => exact hT.pure 0 m
  | succ batch ih =>
      refine hT.bind (h i m) fun merged m₁ => ?_
      cases merged with
      | false => exact hT.pure 0 m₁
      | true => exact hT.bind (ih m₁) fun _ m₂ => hT.pure _ m₂

theorem pollSlots_sequential (batch : ℕ) (is : List ℕ) (m : Mux φ) :
    T ℕ m (exec (pollSlots files batch is) m) := by
  induction is generalizing m with
  | nil => exact hT.pure 0 m
  | cons i is ih =>
      refine hT.bind (pollSlot_sequential hT h i batch m) fun _ m₁ => ?_
      exact hT.bind (ih m₁) fun _ m₂ => hT.pure _ m₂

theorem poll_sequential (m : Mux φ) : T ℕ m (exec (poll files) m) := by
  unfold poll
  rw [exec_bind_ok (exec_get m)]
  split
  · exact hT.pure 0 m
  · exact pollSlots_sequential hT h _ _ m

theorem drain_sequential (i fuel : ℕ) (m : Mux φ) : T Unit m (exec (drain files i fuel) m) := by
  induction fuel generalizing m with
  | zero => exact hT.pure () m
  | succ fuel ih =>
      refine hT.bind (h i m) fun merged m₁ => ?_
      cases merged with
      | false => exact hT.pure () m₁
      | true => exact ih m₁

end Merges

theorem removeMembers_sequential
    (h : ∀ name epoch m, T Bool m (exec (removeMember files name epoch) m))
    (ks : List Incarnation) (m : Mux φ) : T Unit m (exec (removeMembers files ks) m) := by
  induction ks generalizing m with
  | nil => exact hT.pure () m
  | cons k ks ih => exact hT.bind (h k.1 k.2 m) fun _ m₁ => ih m₁

end Repeating

end Mux

end XchannelNet
