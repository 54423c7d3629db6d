import XchannelNet.Identity
import XchannelNet.Lib.SegmentedLog

/-!
# Channel — the xchannel log the daemon reads and writes

What is assumed of xchannel, and nothing more: a channel on disk is a
segmented append-only log of user records with absolute indices, stamped at
creation with a name and an incarnation (`generation`). Opening a writer on
files that exist resumes at their head and keeps their base, their name and
their incarnation; it is refused if the region size differs.
-/

namespace XchannelNet

/-- A user record. -/
structure Record where
  msgType : UInt16
  userMeta : UInt64
  payload : List UInt8
  deriving DecidableEq, Repr

/-- The files of one channel. -/
structure Log extends SegLog Record where
  name : ChannelName
  generation : UInt64
  regionSize : UInt32

/-- What a writer is opened with. -/
structure WriterConfig where
  name : ChannelName
  regionSize : UInt32
  mtu : UInt32
  fileRollSize : UInt64
  keepFiles : UInt32
  baseRecordIndex : ℕ
  generation : UInt64

inductive WriterError where
  | regionSizeMismatch (onDisk requested : UInt32)
  deriving DecidableEq, Repr

namespace Log

/-- Create a channel, or reopen the one on disk. -/
def build (cfg : WriterConfig) : Option Log → Except WriterError Log
  | none => .ok
      { toSegLog := .empty cfg.baseRecordIndex, name := cfg.name, generation := cfg.generation,
        regionSize := cfg.regionSize }
  | some onDisk =>
    if onDisk.regionSize ≠ cfg.regionSize then
      .error (.regionSizeMismatch onDisk.regionSize cfg.regionSize)
    else .ok onDisk

def commit (l : Log) (r : Record) : Log := { l with toSegLog := l.append r }

def rollFile (l : Log) : Log := { l with toSegLog := l.roll }

def pruneTo (l : Log) (k : ℕ) : Log := { l with toSegLog := l.prune k }

/-- A channel of one segment with these records. -/
def ofRecords (name : ChannelName) (generation : UInt64) (records : List Record) : Log :=
  { toSegLog := { SegLog.empty 0 with current := records }, name, generation, regionSize := 4096 }

/-- The stamps of a log never change; its records only grow. -/
structure Grows (l l' : Log) : Prop where
  records : SegLog.Grow l.toSegLog l'.toSegLog
  name : l'.name = l.name
  generation : l'.generation = l.generation
  regionSize : l'.regionSize = l.regionSize

theorem build_none (cfg : WriterConfig) :
    build cfg none = .ok
      { toSegLog := .empty cfg.baseRecordIndex, name := cfg.name, generation := cfg.generation,
        regionSize := cfg.regionSize } := rfl

theorem build_some {cfg : WriterConfig} {onDisk l : Log} (h : build cfg (some onDisk) = .ok l) :
    l = onDisk := by
  simp only [build] at h
  split at h
  · cases h
  · cases h
    rfl

end Log

end XchannelNet
