import Mathlib.Logic.Relation
import XchannelNet.Channel.Log

/-!
# Replication — the source and the sink

The source tails an origin log and turns its records into frames; the sink
checks that frames are contiguous and commits them to the replica. A source
carries the absolute index beside the reader, as the code does: nothing in
the reader itself says where it is, so that the two agree is an invariant
(`Source.At`) that every operation keeps and growth of the log preserves.
-/

namespace XchannelNet

/-- One record on the wire. -/
structure RecordFrame where
  index : ℕ
  msgType : UInt16
  userMeta : UInt64
  startsSegment : Bool
  payload : List UInt8
  deriving DecidableEq, Repr

namespace RecordFrame

/-- The record a frame carries. -/
def record (f : RecordFrame) : Record := ⟨f.msgType, f.userMeta, f.payload⟩

/-- The frame is the record of the log at the index it claims. -/
def Of (f : RecordFrame) (l : Log) : Prop := l.get? f.index = some f.record

theorem Of.grows {f : RecordFrame} {l l' : Log} (h : f.Of l) (hg : l.Grows l') : f.Of l' := by
  have hlt := (SegLog.get?_isSome_iff.mp ⟨_, h⟩).2
  exact (hg.records.get?_eq hlt).trans h

theorem Of.grown {f : RecordFrame} {l l' : Log} (h : f.Of l)
    (hg : Relation.ReflTransGen Log.Grows l l') : f.Of l' := by
  induction hg with
  | refl => exact h
  | tail _ hg ih => exact ih.grows hg

end RecordFrame

/-! ## Origin side -/

structure ReplicationSource where
  reader : SegLog.Reader
  nextIndex : ℕ
  deriving DecidableEq, Repr

namespace ReplicationSource

/-- Open at the earliest retained record. -/
def «open» (l : Log) : ReplicationSource × ℕ :=
  let earliest := l.earliest
  (⟨⟨l.pruned, 0⟩, earliest⟩, earliest)

/-- The next frame if one is committed, by a look that does not fail: one that does is up to
whoever looks. A roll crossed while reading shows as a change of segment. -/
def tryNextFrame (l : Log) (src : ReplicationSource) :
    Option RecordFrame × ReplicationSource :=
  let segment := src.reader.seq
  match src.reader.tryRead l.toSegLog with
  | (none, reader) => (none, { src with reader })
  | (some m, reader) =>
    (some
      { index := src.nextIndex, msgType := m.msgType, userMeta := m.userMeta,
        startsSegment := reader.seq ≠ segment, payload := m.payload },
      { reader, nextIndex := src.nextIndex + 1 })

/-- Read `n` records forward; `none` where the code would block. -/
def skip (l : Log) (src : ReplicationSource) : ℕ → Option ReplicationSource
  | 0 => some src
  | n + 1 =>
    match src.reader.tryRead l.toSegLog with
    | (none, _) => none
    | (some _, reader) => skip l { reader, nextIndex := src.nextIndex + 1 } n

/-- Advance to an absolute index without materializing frames. -/
def skipTo (l : Log) (src : ReplicationSource) (target : ℕ) : Option ReplicationSource :=
  src.skip l (target - src.nextIndex)

/-- The running index is the reader's position. -/
structure At (src : ReplicationSource) (l : Log) : Prop where
  valid : src.reader.Valid l.toSegLog
  index : src.reader.index l.toSegLog = src.nextIndex

theorem open_at (l : Log) : («open» l).1.At l := ⟨SegLog.Reader.valid_earliest _, rfl⟩

theorem At.grows {src : ReplicationSource} {l l' : Log} (h : src.At l) (hg : l.Grows l') :
    src.At l' := by
  obtain ⟨hv, hi⟩ := h.valid.grow hg.records
  exact ⟨hv, hi.trans h.index⟩

theorem At.grown {src : ReplicationSource} {l l' : Log} (h : src.At l)
    (hg : Relation.ReflTransGen Log.Grows l l') : src.At l' := by
  induction hg with
  | refl => exact h
  | tail _ hg ih => exact ih.grows hg

/-- One read: the record at the running index, which moves past it. -/
theorem At.tryRead {src : ReplicationSource} {l : Log} (h : src.At l) :
    (src.reader.tryRead l.toSegLog).1 = l.get? src.nextIndex ∧
    (⟨(src.reader.tryRead l.toSegLog).2, src.nextIndex +
      if (src.reader.tryRead l.toSegLog).1.isSome then 1 else 0⟩ : ReplicationSource).At l := by
  obtain ⟨hval, hvalid, hidx⟩ := SegLog.Reader.tryRead_spec h.valid
  rw [h.index] at hval hidx
  exact ⟨hval, hvalid, hidx⟩

theorem At.tryNextFrame {src : ReplicationSource} {l : Log} (h : src.At l) :
    (src.tryNextFrame l).2.At l ∧
    ((src.tryNextFrame l).1 = none → l.get? src.nextIndex = none ∧
      (src.tryNextFrame l).2.nextIndex = src.nextIndex) ∧
    (∀ f, (src.tryNextFrame l).1 = some f → f.index = src.nextIndex ∧ f.Of l ∧
      (src.tryNextFrame l).2.nextIndex = src.nextIndex + 1) := by
  obtain ⟨hval, hat⟩ := h.tryRead
  rw [ReplicationSource.tryNextFrame]
  rcases hread : src.reader.tryRead l.toSegLog with ⟨m, reader⟩
  rw [hread] at hval hat
  cases m with
  | none => exact ⟨hat, fun _ => ⟨hval.symm, rfl⟩, fun f hf => by cases hf⟩
  | some m =>
      refine ⟨hat, fun hf => absurd hf (by simp), fun f hf => ?_⟩
      cases hf
      exact ⟨rfl, hval.symm, rfl⟩

/-- Reading forward inside the log never blocks. -/
theorem At.skip {src : ReplicationSource} {l : Log} (h : src.At l) (n : ℕ)
    (hn : src.nextIndex + n ≤ l.head) :
    ∃ src', src.skip l n = some src' ∧ src'.At l ∧ src'.nextIndex = src.nextIndex + n := by
  induction n generalizing src with
  | zero => exact ⟨src, rfl, h, rfl⟩
  | succ n ih =>
      obtain ⟨hval, hat⟩ := h.tryRead
      have hge : l.genesis ≤ src.nextIndex := by
        rw [← h.index, SegLog.Reader.index, SegLog.segBase]
        omega
      obtain ⟨m, hm⟩ := SegLog.get?_isSome_iff.mpr ⟨hge, show src.nextIndex < l.head by omega⟩
      rw [ReplicationSource.skip]
      rcases hread : src.reader.tryRead l.toSegLog with ⟨m', reader⟩
      rw [hread] at hval hat
      rw [hm] at hval
      subst hval
      obtain ⟨src', hs, hat', hidx⟩ := ih hat (by simp; omega)
      refine ⟨src', hs, hat', ?_⟩
      simp at hidx
      omega

theorem At.skipTo {src : ReplicationSource} {l : Log} (h : src.At l) {target : ℕ}
    (hle : src.nextIndex ≤ target) (htarget : target ≤ l.head) :
    ∃ src', src.skipTo l target = some src' ∧ src'.At l ∧ src'.nextIndex = target := by
  obtain ⟨src', hs, hat, hidx⟩ := h.skip (target - src.nextIndex) (by omega)
  exact ⟨src', hs, hat, by omega⟩

end ReplicationSource

/-! ## Subscriber side -/

structure ReplicationSink where
  writer : Log
  expectedIndex : ℕ

/-- What `apply` asks of the writer. -/
inductive WriterCall where
  | rollFile
  | tryReserve
  | commit
  deriving DecidableEq, Repr

inductive SinkError where
  | writer (e : WriterError)
  | refused (call : WriterCall)
  | generation (replica source : UInt64)
  | channelName (stamped name : ChannelName)
  | nonContiguous (expected index : ℕ)
  deriving DecidableEq, Repr

namespace ReplicationSink

/-- Create or reopen the replica. The base and the incarnation given are
stamped only on creation; a reopened replica of another incarnation, or of
another channel, is refused. -/
def «open» (cfg : WriterConfig) (onDisk : Option Log) : Except SinkError ReplicationSink :=
  match Log.build cfg onDisk with
  | .error e => .error (.writer e)
  | .ok writer =>
    if writer.generation ≠ cfg.generation then
      .error (.generation writer.generation cfg.generation)
    else if writer.name ≠ cfg.name then .error (.channelName writer.name cfg.name)
    else .ok { writer, expectedIndex := writer.head }

/-- Apply one frame over a writer that does not fail: contiguous or refused, rolling first if
told to. -/
def apply (sink : ReplicationSink) (f : RecordFrame) : Except SinkError ReplicationSink :=
  if f.index ≠ sink.expectedIndex then
    .error (.nonContiguous sink.expectedIndex f.index)
  else
    let writer := if f.startsSegment then sink.writer.rollFile else sink.writer
    .ok { writer := writer.commit f.record, expectedIndex := sink.expectedIndex + 1 }

/-- Apply one frame over a writer of which a call may fail. A call that fails leaves the files
as they were; a roll before it stays made. -/
def applyOver (fails : Option WriterCall) (sink : ReplicationSink) (f : RecordFrame) :
    Except SinkError Unit × ReplicationSink :=
  if f.index ≠ sink.expectedIndex then
    (.error (.nonContiguous sink.expectedIndex f.index), sink)
  else if f.startsSegment ∧ fails = some .rollFile then (.error (.refused .rollFile), sink)
  else
    let writer := if f.startsSegment then sink.writer.rollFile else sink.writer
    match fails with
    | some .tryReserve => (.error (.refused .tryReserve), { sink with writer })
    | some .commit => (.error (.refused .commit), { sink with writer })
    | _ => (.ok (), { writer := writer.commit f.record, expectedIndex := sink.expectedIndex + 1 })

/-- Opening creates an empty replica at the given base, or resumes the one on
disk; either way the incarnation is the one asked for. -/
theorem open_ok {cfg : WriterConfig} {onDisk : Option Log} {sink : ReplicationSink}
    (h : «open» cfg onDisk = .ok sink) :
    sink.expectedIndex = sink.writer.head ∧ sink.writer.generation = cfg.generation ∧
    (onDisk = none ∧ sink.writer.toSegLog = .empty cfg.baseRecordIndex ∨
      onDisk = some sink.writer) := by
  simp only [«open»] at h
  split at h
  · cases h
  · rename_i writer hb
    split at h
    · cases h
    · rename_i hgen
      split at h
      · cases h
      · cases h
        refine ⟨rfl, not_not.mp hgen, ?_⟩
        cases onDisk with
        | none =>
            rw [Log.build_none] at hb
            cases hb
            exact .inl ⟨rfl, rfl⟩
        | some l => exact .inr (congrArg some (Log.build_some hb).symm)

/-- An applied frame extends the replica by the frame's record at its head. -/
theorem apply_ok {sink sink' : ReplicationSink} {f : RecordFrame}
    (h : sink.apply f = .ok sink') :
    f.index = sink.expectedIndex ∧ sink'.expectedIndex = sink.expectedIndex + 1 ∧
    (sink'.writer = sink.writer.commit f.record ∨
      sink'.writer = sink.writer.rollFile.commit f.record) := by
  simp only [apply] at h
  split at h
  · cases h
  · rename_i hidx
    cases h
    refine ⟨not_not.mp hidx, rfl, ?_⟩
    cases f.startsSegment with
    | true => exact .inr rfl
    | false => exact .inl rfl

/-- **What comes of a frame over any writer**: what `apply` makes of it, or one of the writer's
calls has failed, over files that were rolled at most. -/
theorem applyOver_cases (fails : Option WriterCall) (sink : ReplicationSink) (f : RecordFrame) :
    (∃ e, sink.apply f = .error e ∧ sink.applyOver fails f = (.error e, sink)) ∨
    (∃ sink', sink.apply f = .ok sink' ∧ sink.applyOver fails f = (.ok (), sink')) ∨
    ∃ call writer, fails = some call ∧ (writer = sink.writer ∨ writer = sink.writer.rollFile) ∧
      sink.applyOver fails f = (.error (.refused call), { sink with writer }) := by
  by_cases hidx : f.index = sink.expectedIndex
  · have happly : sink.apply f = .ok
        { writer := (if f.startsSegment then sink.writer.rollFile else sink.writer).commit f.record,
          expectedIndex := sink.expectedIndex + 1 } := if_neg (not_not.mpr hidx)
    have hwriter : (if f.startsSegment then sink.writer.rollFile else sink.writer) = sink.writer ∨
        (if f.startsSegment then sink.writer.rollFile else sink.writer) = sink.writer.rollFile := by
      split
      · exact .inr rfl
      · exact .inl rfl
    rw [applyOver, if_neg (not_not.mpr hidx)]
    cases fails with
    | none => exact .inr (.inl ⟨_, happly, by simp⟩)
    | some call =>
        cases call with
        | rollFile =>
            cases hstarts : f.startsSegment with
            | true => exact .inr (.inr ⟨_, sink.writer, rfl, .inl rfl, by simp⟩)
            | false => exact .inr (.inl ⟨_, happly, by simp [hstarts]⟩)
        | tryReserve => exact .inr (.inr ⟨_, _, rfl, hwriter, by simp⟩)
        | commit => exact .inr (.inr ⟨_, _, rfl, hwriter, by simp⟩)
  · exact .inl ⟨_, if_pos hidx, if_pos hidx⟩

end ReplicationSink

end XchannelNet
