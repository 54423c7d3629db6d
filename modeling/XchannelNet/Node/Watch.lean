import XchannelNet.Channel.Log
import XchannelNet.Lib.Run
import XchannelNet.Node.Discovery
import XchannelNet.Wire.RoundTrip

/-!
# Watch — following the discovery log from a cursor

A listing comes with a cursor: the generation of the daemon's discovery log and
the index of its next record. From there on a client reads the log's files
itself, and the daemon does not know of it. Meanwhile the daemon appends, rolls and
prunes, or is restarted. A restart leaves the old files in place until the new
daemon first uses its log, and then replaces them; if they cannot be removed, it
goes on in them, under a generation that is not the one its cursors say.

Nothing but the generation tells a client one log from another, so no two daemons
may have the same.

The reader is not part of this program. What its calls come back with is up to the
environment, within what is documented of a reader whose log is still at the path
(`Read.Documented`): it may fail, it is at the head, or it has read the next record.
Of a reader whose files have been removed nothing is assumed.
-/

namespace XchannelNet

open Wire

/-! ## The daemon's side -/

def DISCOVERY_REGION_SIZE : UInt32 := 1048576
def DISCOVERY_KEEP_FILES : UInt32 := 4

/-- How the discovery log is opened on first use. It has no name of its own. -/
def discoveryConfig (generation : UInt64) : WriterConfig where
  name := ""
  regionSize := DISCOVERY_REGION_SIZE
  mtu := 0
  fileRollSize := 2097152
  keepFiles := DISCOVERY_KEEP_FILES
  baseRecordIndex := 0
  generation

/-- The record of a change. -/
def recordOf (change : ChannelChange) : Record :=
  let (msgType, payload) := encodeChange change
  ⟨msgType, 0, payload⟩

/-- What a client keeps of a `DiscoveryCursor`. The path is the same for all of
one node. -/
structure WatchCursor where
  generation : UInt64
  fromIndex : ℕ
  deriving DecidableEq, Repr

/-- A reader, by the log that it was opened on and the record it reads next. -/
structure ChannelWatch where
  log : ℕ
  next : ℕ
  deriving DecidableEq, Repr

/-- The path of a node's discovery log, its daemons one after the other, and one
client. -/
structure Following where
  /-- every log that was ever at the path -/
  logs : List Log
  onDisk : Option ℕ
  generation : UInt64
  /-- of all daemons so far -/
  generations : List UInt64
  /-- the log that the daemon's writer is open on -/
  discovery : Option ℕ
  cursor : Option WatchCursor
  watch : Option ChannelWatch
  handed : List ChannelChange

/-- What is not up to the daemon when it opens its log. -/
structure Opening where
  wiped : Bool
  made : Bool

namespace Following

/-- The log to write to, opened on first use. -/
def withDiscovery (o : Opening) (s : Following) : Option ℕ × Following :=
  match s.discovery with
  | some k => (some k, s)
  | none =>
    -- the error of the removal is dropped
    let onDisk := if o.wiped then none else s.onDisk
    if o.made then
      match Log.build (discoveryConfig s.generation) (onDisk.bind (s.logs[·]?)) with
      | .error _ => (none, { s with onDisk })
      | .ok l =>
        match onDisk with
        | some k => (some k, { s with discovery := some k })
        | none =>
          let k := s.logs.length
          (some k, { s with logs := s.logs ++ [l], onDisk := some k, discovery := some k })
    else (none, { s with onDisk })

def modifyLog (s : Following) (k : ℕ) (f : Log → Log) : Following :=
  { s with logs := s.logs.modify k f }

/-- What the writer does to its own log. -/
def modifyOwn (s : Following) (f : Log → Log) : Following :=
  match s.discovery with
  | some k => s.modifyLog k f
  | none => s

def publishChange (s : Following) (o : Opening) (change : ChannelChange) (written : Bool) :
    Following :=
  match s.withDiscovery o with
  | (some k, s) => if written then s.modifyLog k (·.commit (recordOf change)) else s
  -- errors are swallowed
  | (none, s) => s

/-- The cursor of a listing, if there is one. -/
def listChannels (s : Following) (o : Opening) : Option WatchCursor × Following :=
  match s.withDiscovery o with
  | (some k, s) => (s.logs[k]?.map fun l => ⟨s.generation, l.head⟩, s)
  | (none, s) => (none, s)

end Following

/-! ## The client's side -/

inductive WatchError where
  | notFound
  | replaced
  | advancedPast (retainsFrom askedFor : ℕ)
  | decode (message : String)
  | io
  deriving DecidableEq, Repr

/-- What `try_read` comes back with. -/
inductive Read where
  | failed
  | nothing
  | record (r : Record)
  deriving DecidableEq, Repr

namespace Read

/-- What is documented of reading a log at an index: records come in order, and
there is nothing to read at the head only. Any call may fail. -/
def Documented (l : Log) (index : ℕ) : Read → Prop
  | failed => True
  | nothing => l.head ≤ index
  | record r => l.get? index = some r

instance (l : Log) (index : ℕ) (read : Read) : Decidable (read.Documented l index) :=
  match read with
  | failed => .isTrue trivial
  | nothing => inferInstanceAs (Decidable (l.head ≤ index))
  | record r => inferInstanceAs (Decidable (l.get? index = some r))

end Read

namespace ChannelWatch

/-- Read forward; at the head, stop. -/
def skip : ℕ → (ℕ → Read) → Except WatchError ℕ
  | 0, _ => .ok 0
  | n + 1, reads =>
    match reads 0 with
    | .failed => .error .io
    | .nothing => .ok 0
    | .record _ => (skip n fun i => reads (i + 1)).map (· + 1)

/-- Open what is at the path at the cursor. -/
def «open» (logs : List Log) (onDisk : Option ℕ) (reads : ℕ → Read) (c : WatchCursor) :
    Except WatchError ChannelWatch :=
  match onDisk with
  | none => .error .notFound
  | some k =>
    match logs[k]? with
    | none => .error .notFound
    | some l =>
      if l.generation ≠ c.generation then .error .replaced
      else
        let index := l.earliest
        if index > c.fromIndex then .error (.advancedPast index c.fromIndex)
        else (skip (c.fromIndex - index) reads).map fun n => ⟨k, index + n⟩

/-- The next change, if one is there. -/
def tryNext (w : ChannelWatch) (read : Read) :
    Except WatchError (Option ChannelChange) × ChannelWatch :=
  match read with
  | .failed => (.error .io, w)
  | .nothing => (.ok none, w)
  | .record m =>
    match decodeChange m.msgType m.payload with
    | .ok change => (.ok (some change), { w with next := w.next + 1 })
    | .error e => (.error (.decode e), { w with next := w.next + 1 })

end ChannelWatch

namespace Following

/-- What happens next at the daemon or at the client. The files may be impossible
to open, and the reader's answers come with the command. -/
inductive Command where
  | publish (o : Opening) (change : ChannelChange) (written : Bool)
  | roll
  | prune (n : ℕ)
  | restart (generation : UInt64)
  | list (o : Opening)
  | «open» (built : Bool) (reads : ℕ → Read)
  | next (read : Read)

/-- The client opens its cursor. -/
def watchChannels (s : Following) (reads : ℕ → Read) : Following :=
  match s.cursor with
  | none => s
  | some c =>
    match ChannelWatch.open s.logs s.onDisk reads c with
    | .ok w => { s with watch := some w, handed := [] }
    | .error _ => s

/-- The client reads on. -/
def readNext (s : Following) (read : Read) : Following :=
  match s.watch with
  | none => s
  | some w =>
    match w.tryNext read with
    | (.ok (some change), w) => { s with watch := some w, handed := s.handed ++ [change] }
    | (_, w) => { s with watch := some w }

def perform (s : Following) : Command → Following
  | .publish o change written => s.publishChange o change written
  | .roll => s.modifyOwn Log.rollFile
  | .prune n => s.modifyOwn (·.pruneTo n)
  | .restart generation =>
    { s with generation, generations := s.generations ++ [generation], discovery := none }
  | .list o =>
    match s.listChannels o with
    | (some c, s) => { s with cursor := some c, watch := none, handed := [] }
    | (none, s) => s
  | .open built reads => if built then s.watchChannels reads else s
  | .next read => s.readNext read

/-- The log at the path. -/
def current (s : Following) : Option Log := s.onDisk.bind (s.logs[·]?)

/-- What the client's reader has before it, if its log is still at the path. -/
def before (s : Following) : Option (Log × ℕ) :=
  s.watch.bind fun w => if s.onDisk = some w.log then s.current.map (·, w.next) else none

/-- The log at the path, and how many of its records come before the cursor. -/
def ahead (s : Following) : Option (Log × ℕ) :=
  s.cursor.bind fun c => s.current.map fun l => (l, c.fromIndex - l.earliest)

/-- Reading forward from the beginning goes as documented. -/
def SkipsDocumented (reads : ℕ → Read) : Option (Log × ℕ) → Prop
  | none => True
  | some (l, n) => ∀ i < n, (reads i).Documented l (l.earliest + i)

def ReadDocumented (read : Read) : Option (Log × ℕ) → Prop
  | none => True
  | some (l, index) => read.Documented l index

/-- Changes have names that fit a record, a daemon has a generation of its own, and
the reader does as documented. -/
def Allowed (s : Following) : Command → Prop
  | .publish _ change _ => change.Fits
  | .restart generation => generation ∉ s.generations
  | .open _ reads => SkipsDocumented reads s.ahead
  | .next read => ReadDocumented read s.before
  | _ => True

instance (change : ChannelChange) : Decidable change.Fits :=
  match change with
  | .upserted info => inferInstanceAs (Decidable (Short info.name ∧ ∀ t ∈ info.memberOf, Short t))
  | .removed name _ => inferInstanceAs (Decidable (Short name))

instance (reads : ℕ → Read) (x : Option (Log × ℕ)) : Decidable (SkipsDocumented reads x) :=
  match x with
  | none => .isTrue trivial
  | some (l, n) =>
    inferInstanceAs (Decidable (∀ i < n, (reads i).Documented l (l.earliest + i)))

instance (read : Read) (x : Option (Log × ℕ)) : Decidable (ReadDocumented read x) :=
  match x with
  | none => .isTrue trivial
  | some (l, index) => inferInstanceAs (Decidable (read.Documented l index))

instance (s : Following) (cmd : Command) : Decidable (s.Allowed cmd) :=
  match cmd with
  | .publish _ change _ => inferInstanceAs (Decidable change.Fits)
  | .restart generation => inferInstanceAs (Decidable (generation ∉ s.generations))
  | .open _ reads => inferInstanceAs (Decidable (SkipsDocumented reads s.ahead))
  | .next read => inferInstanceAs (Decidable (ReadDocumented read s.before))
  | .roll | .prune _ | .list _ => .isTrue trivial

def Step (s s' : Following) : Prop := ∃ cmd, s.Allowed cmd ∧ s' = s.perform cmd

/-- What the environment decides if the log has to be opened. -/
def Command.opening : Command → Option Opening
  | .publish o _ _ => some o
  | .list o => some o
  | _ => none

/-- Where the log is opened, the old files can be removed. -/
def Command.Wipes (cmd : Command) : Prop := cmd.opening.all (·.wiped) = true

instance (cmd : Command) : Decidable cmd.Wipes :=
  inferInstanceAs (Decidable (cmd.opening.all (·.wiped) = true))

def AllowedWiping (s : Following) (cmd : Command) : Prop := s.Allowed cmd ∧ cmd.Wipes

instance (s : Following) (cmd : Command) : Decidable (s.AllowedWiping cmd) :=
  inferInstanceAs (Decidable (s.Allowed cmd ∧ cmd.Wipes))

def WipingStep (s s' : Following) : Prop := ∃ cmd, s.AllowedWiping cmd ∧ s' = s.perform cmd

theorem WipingStep.step {s s' : Following} (h : s.WipingStep s') : s.Step s' := by
  obtain ⟨cmd, ⟨hallowed, -⟩, hs'⟩ := h
  exact ⟨cmd, hallowed, hs'⟩

/-- The first daemon starts, with nothing on disk. -/
def Init (s : Following) : Prop :=
  s.logs = [] ∧ s.onDisk = none ∧ s.generations = [s.generation] ∧ s.discovery = none ∧
    s.cursor = none ∧ s.watch = none

/-! ## What is kept -/

/-- The log holds these changes and nothing else. -/
structure Holds (l : Log) (cs : List ChannelChange) : Prop where
  genesis : l.genesis = 0
  records : l.records = cs.map recordOf
  fits : ∀ c ∈ cs, c.Fits

theorem Holds.get? {l : Log} {cs : List ChannelChange} (h : Holds l cs) (i : ℕ) :
    l.get? i = cs[i]?.map recordOf := by
  rw [SegLog.get?, h.genesis, h.records]
  simp

theorem decode_recordOf {change : ChannelChange} (h : change.Fits) :
    decodeChange (recordOf change).msgType (recordOf change).payload = .ok change :=
  (reads_change h).accept _

/-- One log later: it grew, or nothing happened to it. Its changes are still
there. -/
structure Later (l l' : Log) : Prop where
  generation : l'.generation = l.generation
  head : l.head ≤ l'.head
  holds : ∀ cs, Holds l cs → ∃ new, Holds l' (cs ++ new)

theorem Later.refl (l : Log) : Later l l :=
  ⟨rfl, le_rfl, fun _ h => ⟨[], by rwa [List.append_nil]⟩⟩

theorem later_commit (l : Log) {change : ChannelChange} (hfits : change.Fits) :
    Later l (l.commit (recordOf change)) where
  generation := rfl
  head := (SegLog.Grow.append l.toSegLog _).head_le
  holds cs h := by
    refine ⟨[change], h.genesis, ?_, ?_⟩
    · rw [List.map_append, ← h.records]
      exact SegLog.records_append _ _
    · rw [List.forall_mem_append, List.forall_mem_singleton]
      exact ⟨h.fits, hfits⟩

theorem later_roll (l : Log) : Later l l.rollFile where
  generation := rfl
  head := (SegLog.Grow.roll l.toSegLog).head_le
  holds cs h :=
    ⟨[], h.genesis, by simpa [Log.rollFile] using h.records, by simpa using h.fits⟩

theorem later_prune (l : Log) (n : ℕ) : Later l (l.pruneTo n) where
  generation := rfl
  head := (SegLog.Grow.prune l.toSegLog n).head_le
  holds cs h :=
    ⟨[], h.genesis, by simpa [Log.pruneTo] using h.records, by simpa using h.fits⟩

/-- The first log of a daemon. -/
def created (generation : UInt64) : Log where
  toSegLog := .empty 0
  name := ""
  generation
  regionSize := DISCOVERY_REGION_SIZE

theorem holds_created (generation : UInt64) : Holds (created generation) [] :=
  ⟨rfl, rfl, by simp⟩

/-- What comes of opening the log: it is open, it cannot be opened, it goes on in
files that would not go away, or it is created. -/
inductive Opens (o : Opening) (s : Following) : Option ℕ → Following → Prop
  | already {k : ℕ} (h : s.discovery = some k) : Opens o s (some k) s
  | failed (h : s.discovery = none) {onDisk : Option ℕ} (hd : onDisk = none ∨ onDisk = s.onDisk) :
      Opens o s none { s with onDisk }
  | resumed (h : s.discovery = none) (hleft : o.wiped = false) {k : ℕ} (hk : s.onDisk = some k) :
      Opens o s (some k) { s with discovery := some k }
  | created (h : s.discovery = none) :
      Opens o s (some s.logs.length)
        { s with
          logs := s.logs ++ [created s.generation]
          onDisk := some s.logs.length
          discovery := some s.logs.length }

theorem withDiscovery_opens (o : Opening) (s : Following) :
    Opens o s (s.withDiscovery o).1 (s.withDiscovery o).2 := by
  rw [withDiscovery]
  split
  · rename_i k h
    exact .already h
  · rename_i h
    have honDisk : (if o.wiped then none else s.onDisk) = none ∨
        o.wiped = false ∧ (if o.wiped then none else s.onDisk) = s.onDisk := by
      cases o.wiped
      · exact .inr ⟨rfl, rfl⟩
      · exact .inl rfl
    have hd := honDisk.imp_right And.right
    generalize (if o.wiped then none else s.onDisk) = onDisk at honDisk hd
    dsimp only
    split
    · split
      · exact .failed h hd
      · rename_i l hbuild
        cases onDisk with
        | none =>
            cases hbuild
            exact .created h
        | some k =>
            rcases honDisk with hnone | ⟨hleft, hk⟩
            · cases hnone
            · exact .resumed h hleft hk.symm
    · exact .failed h hd

/-- Where one client stands: what was handed to it is, from its cursor on, what
the log of its listing holds. -/
structure Stands (logs : List Log) (handed : List ChannelChange) (c : WatchCursor)
    (w : ChannelWatch) (l : Log) (cs : List ChannelChange) : Prop where
  log : logs[w.log]? = some l
  generation : l.generation = c.generation
  holds : Holds l cs
  next : w.next = c.fromIndex + handed.length
  told : handed <+: cs.drop c.fromIndex

structure Inv (s : Following) : Prop where
  held : ∀ (k : ℕ) l, s.logs[k]? = some l → ∃ cs, Holds l cs
  distinct : ∀ (j k : ℕ) l l', s.logs[j]? = some l → s.logs[k]? = some l' →
    l.generation = l'.generation → j = k
  onDisk : ∀ k, s.onDisk = some k → k < s.logs.length
  discovery : ∀ k, s.discovery = some k → k < s.logs.length
  /-- a log of the running daemon is the one that it writes to -/
  own : ∀ (k : ℕ) l, s.logs[k]? = some l → l.generation = s.generation → s.discovery = some k
  running : s.generation ∈ s.generations
  past : ∀ (k : ℕ) l, s.logs[k]? = some l → l.generation ∈ s.generations
  listed : ∀ c, s.cursor = some c → c.generation ∈ s.generations ∧
    (c.generation = s.generation → s.discovery ≠ none)
  reached : ∀ c (k : ℕ) l, s.cursor = some c → s.logs[k]? = some l → l.generation = c.generation →
    c.fromIndex ≤ l.head
  watched : ∀ w, s.watch = some w → w.log < s.logs.length
  watching : ∀ w, s.watch = some w → s.onDisk = some w.log →
    ∃ c l cs, s.cursor = some c ∧ Stands s.logs s.handed c w l cs

theorem inv_init {s : Following} (h : s.Init) : s.Inv := by
  obtain ⟨hlogs, honDisk, hgens, hdisc, hcursor, hwatch⟩ := h
  constructor <;> simp [hlogs, honDisk, hgens, hdisc, hcursor, hwatch]

section Logs

variable {s : Following}

theorem Stands.later {logs logs' : List Log} {handed : List ChannelChange} {c : WatchCursor}
    {w : ChannelWatch} {l l' : Log} {cs : List ChannelChange} (h : Stands logs handed c w l cs)
    (hlog : logs'[w.log]? = some l') (hl : Later l l') :
    ∃ cs', Stands logs' handed c w l' cs' := by
  obtain ⟨new, hnew⟩ := hl.holds cs h.holds
  refine ⟨cs ++ new, hlog, hl.generation.trans h.generation, hnew, h.next, ?_⟩
  rw [List.drop_append]
  exact h.told.trans (List.prefix_append _ _)

/-- Files are only ever added, and they stay what they are. -/
theorem Inv.opens (hi : s.Inv) {o : Opening} {k : Option ℕ} {s' : Following} (h : Opens o s k s') :
    s'.Inv ∧ s'.discovery = k := by
  cases h with
  | already h => exact ⟨hi, h⟩
  | failed h hd =>
      rcases hd with rfl | rfl
      · exact ⟨{ hi with onDisk := by simp, watching := by simp }, h⟩
      · exact ⟨hi, h⟩
  | @resumed h _ k hk =>
      refine ⟨{ hi with discovery := ?_, own := ?_, listed := ?_ }, rfl⟩
      · rintro _ ⟨⟩
        exact hi.onDisk k hk
      · -- the daemon has no log of its own yet
        intro j l hl hgen
        exact absurd ((hi.own j l hl hgen).symm.trans h) (by simp)
      · exact fun c hc => ⟨(hi.listed c hc).1, by simp⟩
  | created h =>
      have hold : ∀ {j : ℕ} {l : Log}, (s.logs ++ [created s.generation])[j]? = some l →
          s.logs[j]? = some l ∨ j = s.logs.length ∧ l = created s.generation := by
        intro j l hl
        rw [List.getElem?_append] at hl
        split at hl
        · exact .inl hl
        · rename_i hj
          rw [List.getElem?_singleton] at hl
          split at hl
          · exact .inr ⟨by omega, by simpa using hl.symm⟩
          · cases hl
      have hnot : ∀ {j : ℕ} {l : Log}, s.logs[j]? = some l → l.generation ≠ s.generation := by
        intro j l hl hgen
        exact absurd ((hi.own j l hl hgen).symm.trans h) (by simp)
      refine ⟨⟨?_, ?_, ?_, ?_, ?_, hi.running, ?_, ?_, ?_, ?_, ?_⟩, rfl⟩
      · intro j l hl
        rcases hold hl with hl | ⟨-, rfl⟩
        · exact hi.held j l hl
        · exact ⟨[], holds_created _⟩
      · intro j k l l' hl hl' heq
        rcases hold hl with hl | ⟨rfl, rfl⟩ <;> rcases hold hl' with hl' | ⟨rfl, rfl⟩
        · exact hi.distinct j k l l' hl hl' heq
        · exact absurd heq (hnot hl)
        · exact absurd heq.symm (hnot hl')
        · rfl
      · rintro _ ⟨⟩
        simp
      · rintro _ ⟨⟩
        simp
      · intro j l hl hgen
        rcases hold hl with hl | ⟨rfl, -⟩
        · exact absurd hgen (hnot hl)
        · rfl
      · intro j l hl
        rcases hold hl with hl | ⟨-, rfl⟩
        · exact hi.past j l hl
        · exact hi.running
      · exact fun c hc => ⟨(hi.listed c hc).1, by simp⟩
      · intro c j l hc hl hgen
        rcases hold hl with hl | ⟨-, rfl⟩
        · exact hi.reached c j l hc hl hgen
        · exact absurd h ((hi.listed c hc).2 hgen.symm)
      · intro w hw
        have hlt := hi.watched w hw
        rw [List.length_append]
        exact Nat.lt_add_right _ hlt
      · -- the log of a watch is another one
        intro w hw hdisk
        have hlt := hi.watched w hw
        rw [← Option.some.inj hdisk] at hlt
        exact absurd hlt (Nat.lt_irrefl _)

/-- Every log at hand is one that was there, with the generation it had. -/
theorem getElem?_modifyLog {k j : ℕ} {f : Log → Log} (hf : ∀ l, Later l (f l)) {l' : Log}
    (h : (s.modifyLog k f).logs[j]? = some l') :
    ∃ l, s.logs[j]? = some l ∧ Later l l' := by
  rw [Following.modifyLog, List.getElem?_modify] at h
  obtain ⟨l, hl, rfl⟩ := Option.map_eq_some_iff.mp h
  refine ⟨l, hl, ?_⟩
  split
  · exact hf l
  · exact .refl l

/-- And every log that was there still is. -/
theorem modifyLog_getElem? {k j : ℕ} {f : Log → Log} (hf : ∀ l, Later l (f l)) {l : Log}
    (h : s.logs[j]? = some l) : ∃ l', (s.modifyLog k f).logs[j]? = some l' ∧ Later l l' := by
  rw [Following.modifyLog, List.getElem?_modify, h]
  refine ⟨_, rfl, ?_⟩
  split
  · exact hf l
  · exact .refl l

theorem Inv.modifyLog (hi : s.Inv) (k : ℕ) {f : Log → Log} (hf : ∀ l, Later l (f l)) :
    (s.modifyLog k f).Inv := by
  have hback : ∀ {j : ℕ} {l' : Log}, (s.modifyLog k f).logs[j]? = some l' →
      ∃ l, s.logs[j]? = some l ∧ Later l l' := getElem?_modifyLog hf
  have hlength : (s.modifyLog k f).logs.length = s.logs.length := List.length_modify _ _ _
  refine ⟨?_, ?_, ?_, ?_, ?_, hi.running, ?_, hi.listed, ?_, ?_, ?_⟩
  · intro j l' hl'
    obtain ⟨l, hl, hlater⟩ := hback hl'
    obtain ⟨cs, hcs⟩ := hi.held j l hl
    obtain ⟨new, hnew⟩ := hlater.holds cs hcs
    exact ⟨_, hnew⟩
  · intro i j l₁ l₂ hl₁ hl₂ heq
    obtain ⟨m₁, hm₁, hlater₁⟩ := hback hl₁
    obtain ⟨m₂, hm₂, hlater₂⟩ := hback hl₂
    refine hi.distinct i j m₁ m₂ hm₁ hm₂ ?_
    rw [← hlater₁.generation, heq, hlater₂.generation]
  · rw [hlength]
    exact hi.onDisk
  · rw [hlength]
    exact hi.discovery
  · intro j l' hl' hgen
    obtain ⟨l, hl, hlater⟩ := hback hl'
    exact hi.own j l hl (hlater.generation.symm.trans hgen)
  · intro j l' hl'
    obtain ⟨l, hl, hlater⟩ := hback hl'
    rw [hlater.generation]
    exact hi.past j l hl
  · intro c j l' hc hl' hgen
    obtain ⟨l, hl, hlater⟩ := hback hl'
    exact (hi.reached c j l hc hl (hlater.generation.symm.trans hgen)).trans hlater.head
  · rw [hlength]
    exact hi.watched
  · intro w hw hdisk
    obtain ⟨c, l, cs, hc, hstands⟩ := hi.watching w hw hdisk
    obtain ⟨l', hl', hlater⟩ := modifyLog_getElem? hf hstands.log
    obtain ⟨cs', hstands'⟩ := hstands.later hl' hlater
    exact ⟨c, l', cs', hc, hstands'⟩

theorem Inv.modifyOwn (hi : s.Inv) {f : Log → Log} (hf : ∀ l, Later l (f l)) :
    (s.modifyOwn f).Inv := by
  rw [Following.modifyOwn]
  split
  · exact hi.modifyLog _ hf
  · exact hi

theorem Inv.publishChange (hi : s.Inv) (o : Opening) {change : ChannelChange}
    (hfits : change.Fits) (written : Bool) : (s.publishChange o change written).Inv := by
  have hopens := withDiscovery_opens o s
  rw [Following.publishChange]
  split <;> rename_i heq <;> rw [heq] at hopens
  · split
    · exact (hi.opens hopens).1.modifyLog _ fun l => later_commit l hfits
    · exact (hi.opens hopens).1
  · exact (hi.opens hopens).1

theorem Inv.restart (hi : s.Inv) {generation : UInt64} (hnew : generation ∉ s.generations) :
    (s.perform (.restart generation)).Inv where
  held := hi.held
  distinct := hi.distinct
  onDisk := hi.onDisk
  discovery := by simp [perform]
  own k l hl hgen := by
    have hpast := hi.past k l hl
    rw [show l.generation = generation from hgen] at hpast
    exact absurd hpast hnew
  running := by simp [perform]
  past k l hl := List.mem_append_left _ (hi.past k l hl)
  listed c hc := by
    have hpast := (hi.listed c hc).1
    refine ⟨List.mem_append_left _ hpast, fun hgen => ?_⟩
    rw [show c.generation = generation from hgen] at hpast
    exact absurd hpast hnew
  reached := hi.reached
  watched := hi.watched
  watching := hi.watching

/-- A cursor is where the log of its generation ends, if there is such a log. -/
theorem Inv.list (hi : s.Inv) (o : Opening) : (s.perform (.list o)).Inv := by
  have hopens := withDiscovery_opens o s
  rw [perform, listChannels]
  rcases hwith : s.withDiscovery o with ⟨k, s'⟩
  rw [hwith] at hopens
  obtain ⟨hi', hdisc⟩ := hi.opens hopens
  cases k with
  | none => exact hi'
  | some k =>
      dsimp only
      cases hl : s'.logs[k]? with
      | none => exact hi'
      | some l =>
          refine { hi' with listed := ?_, reached := ?_, watched := by simp, watching := by simp }
          · rintro _ ⟨⟩
            refine ⟨hi'.running, fun _ hnone => ?_⟩
            cases hdisc.symm.trans hnone
          · rintro _ j m ⟨⟩ hm hgen
            have hj : s'.discovery = some j := hi'.own j m hm hgen
            obtain rfl : k = j := Option.some.inj (hdisc.symm.trans hj)
            obtain rfl : l = m := Option.some.inj (hl.symm.trans hm)
            exact le_rfl

end Logs

/-! ## Reading -/

/-- Reading forward as documented, within the log, gets all the way. -/
theorem skip_eq {l : Log} {index n m : ℕ} {reads : ℕ → Read} (hn : index + n ≤ l.head)
    (hreads : ∀ i < n, (reads i).Documented l (index + i))
    (h : ChannelWatch.skip n reads = .ok m) : m = n := by
  induction n generalizing index m reads with
  | zero =>
      cases h
      rfl
  | succ n ih =>
      have hfirst := hreads 0 (Nat.succ_pos n)
      unfold ChannelWatch.skip at h
      cases hread : reads 0 with
      | failed =>
          rw [hread] at h
          cases h
      | nothing =>
          -- the log is longer than that
          rw [hread] at hfirst
          have hhead : l.head ≤ index := hfirst
          omega
      | record r =>
          rw [hread] at h
          obtain ⟨k, hk, rfl⟩ : ∃ k, ChannelWatch.skip n (fun i => reads (i + 1)) = .ok k ∧
              k + 1 = m := by
            rcases hskip : ChannelWatch.skip n fun i => reads (i + 1) with e | k
            · simp [hskip, Except.map] at h
            · exact ⟨k, rfl, by simpa [hskip, Except.map] using h⟩
          have hrest : ∀ i < n, (reads (i + 1)).Documented l (index + 1 + i) := by
            intro i hi
            have hone := hreads (i + 1) (Nat.succ_lt_succ hi)
            rwa [show index + (i + 1) = index + 1 + i by omega] at hone
          rw [ih (by omega) hrest hk]

theorem open_cases {logs : List Log} {onDisk : Option ℕ} {reads : ℕ → Read} {c : WatchCursor}
    {w : ChannelWatch} (h : ChannelWatch.open logs onDisk reads c = .ok w) :
    ∃ k l n, onDisk = some k ∧ logs[k]? = some l ∧ l.generation = c.generation ∧
      l.earliest ≤ c.fromIndex ∧ ChannelWatch.skip (c.fromIndex - l.earliest) reads = .ok n ∧
      w = ⟨k, l.earliest + n⟩ := by
  unfold ChannelWatch.open at h
  split at h
  · cases h
  · rename_i k
    split at h
    · cases h
    · rename_i l hl
      dsimp only at h
      split_ifs at h with hgen hpast
      rcases hskip : ChannelWatch.skip (c.fromIndex - l.earliest) reads with e | n
      · rw [hskip] at h
        cases h
      · rw [hskip] at h
        cases h
        exact ⟨k, l, n, rfl, hl, not_not.mp hgen, Nat.not_lt.mp hpast, hskip, rfl⟩

theorem Inv.watchChannels {s : Following} (hi : s.Inv) {reads : ℕ → Read}
    (hreads : SkipsDocumented reads s.ahead) : (s.watchChannels reads).Inv := by
  rw [Following.watchChannels]
  split
  · exact hi
  · rename_i c hc
    split
    · rename_i w hopen
      obtain ⟨k, l, n, hk, hl, hgen, hearliest, hskip, rfl⟩ := open_cases hopen
      obtain ⟨cs, hcs⟩ := hi.held k l hl
      have hhead := hi.reached c k l hc hl hgen
      have hahead : s.ahead = some (l, c.fromIndex - l.earliest) := by
        simp [ahead, current, hc, hk, hl]
      rw [hahead] at hreads
      have hn : n = c.fromIndex - l.earliest := skip_eq (by omega) hreads hskip
      refine { hi with watched := ?_, watching := ?_ }
      · rintro _ ⟨⟩
        exact (List.getElem?_eq_some_iff.mp hl).1
      · rintro _ ⟨⟩ -
        refine ⟨c, l, cs, hc, hl, hgen, hcs, ?_, List.nil_prefix⟩
        show l.earliest + n = c.fromIndex + 0
        omega
    · exact hi

/-- A call that does not fail returns the change at its place, and moves on. -/
theorem Stands.tryNext {logs : List Log} {handed : List ChannelChange} {c : WatchCursor}
    {w : ChannelWatch} {l : Log} {cs : List ChannelChange} (h : Stands logs handed c w l cs)
    {read : Read} (hread : read.Documented l w.next) :
    w.tryNext read = (.error .io, w) ∨
      ∃ w', w.tryNext read = (.ok cs[c.fromIndex + handed.length]?, w') ∧
        Stands logs (handed ++ cs[c.fromIndex + handed.length]?.toList) c w' l cs := by
  rw [h.next] at hread
  cases read with
  | failed => exact .inl rfl
  | nothing =>
      have hend : cs[c.fromIndex + handed.length]? = none := by
        have hhead : l.head ≤ c.fromIndex + handed.length := hread
        have hnone : l.get? (c.fromIndex + handed.length) = none := by
          by_contra hsome
          obtain ⟨r, hr⟩ := Option.ne_none_iff_exists'.mp hsome
          exact absurd (SegLog.get?_isSome_iff.mp ⟨r, hr⟩).2 (Nat.not_lt.mpr hhead)
        rw [h.holds.get?] at hnone
        simpa using hnone
      right
      rw [hend, Option.toList_none, List.append_nil]
      exact ⟨w, rfl, h⟩
  | record m =>
      have hget : l.get? (c.fromIndex + handed.length) = some m := hread
      rw [h.holds.get?] at hget
      obtain ⟨change, hchange, rfl⟩ := Option.map_eq_some_iff.mp hget
      have hdecode := decode_recordOf (h.holds.fits _ (List.mem_of_getElem? hchange))
      right
      rw [hchange]
      refine ⟨⟨w.log, w.next + 1⟩, by simp only [ChannelWatch.tryNext, hdecode], ?_⟩
      refine ⟨h.log, h.generation, h.holds, ?_, ?_⟩
      · rw [Option.toList_some, List.length_append, List.length_singleton, h.next]
        rfl
      · obtain ⟨later, hlater⟩ := h.told
        have hnext : later[0]? = some change := by
          rw [← hchange, ← List.getElem?_drop, ← hlater, List.getElem?_append_right le_rfl,
            Nat.sub_self]
        cases later with
        | nil => cases hnext
        | cons first later =>
            obtain rfl : first = change := Option.some.inj hnext
            exact ⟨later, by rw [← hlater]; simp⟩

theorem log_tryNext (w : ChannelWatch) (read : Read) : (w.tryNext read).2.log = w.log := by
  unfold ChannelWatch.tryNext
  split
  · rfl
  · rfl
  · split <;> rfl

theorem failed_of_io {w : ChannelWatch} {read : Read} (h : (w.tryNext read).1 = .error .io) :
    read = .failed := by
  cases read with
  | failed => rfl
  | nothing => cases h
  | record m =>
      unfold ChannelWatch.tryNext at h
      dsimp only at h
      split at h <;> cases h

/-- What the client's reader answers, by what stands at the path. -/
theorem before_of_watch {s : Following} {w : ChannelWatch} {l : Log} (hw : s.watch = some w)
    (hdisk : s.onDisk = some w.log) (hl : s.logs[w.log]? = some l) :
    s.before = some (l, w.next) := by
  simp [before, current, hw, hdisk, hl]

theorem Inv.readNext {s : Following} (hi : s.Inv) {read : Read}
    (hread : ReadDocumented read s.before) : (s.readNext read).Inv := by
  rw [Following.readNext]
  split
  · exact hi
  · rename_i w hw
    have hlog := log_tryNext w read
    -- the reader stays on its log; what it is handed matters while that is at the path
    have hstands : s.onDisk = some w.log → ∃ c l cs, s.cursor = some c ∧
        Stands s.logs s.handed c w l cs ∧ read.Documented l w.next := by
      intro hdisk
      obtain ⟨c, l, cs, hc, hstands⟩ := hi.watching w hw hdisk
      rw [before_of_watch hw hdisk hstands.log] at hread
      exact ⟨c, l, cs, hc, hstands, hread⟩
    rcases hnext : w.tryNext read with ⟨out, w'⟩
    rw [hnext] at hlog
    have hlog' : w'.log = w.log := hlog
    -- whatever else the state is, it is not touched
    have hnow : ∀ handed, (∀ c l cs, s.cursor = some c → Stands s.logs s.handed c w l cs →
        read.Documented l w.next → Stands s.logs handed c w' l cs) →
        ({ s with watch := some w', handed } : Following).Inv := by
      intro handed hmoved
      refine { hi with watched := ?_, watching := ?_ }
      · rintro _ ⟨⟩
        rw [hlog']
        exact hi.watched w hw
      · rintro _ ⟨⟩ hdisk
        rw [hlog'] at hdisk
        obtain ⟨c, l, cs, hc, hstands, hdocumented⟩ := hstands hdisk
        exact ⟨c, l, cs, hc, hmoved c l cs hc hstands hdocumented⟩
    split
    · rename_i change w₁ heq
      cases heq
      refine hnow _ fun c l cs hc hstands hdocumented => ?_
      rcases hstands.tryNext hdocumented with hio | ⟨w₂, hok, hstands'⟩
      · rw [hnext] at hio
        cases hio
      · rw [hnext] at hok
        obtain ⟨hfound, rfl⟩ := Prod.mk.inj hok
        rw [← Except.ok.inj hfound] at hstands'
        exact hstands'
    · rename_i x w₁ hother heq
      cases heq
      refine hnow _ fun c l cs hc hstands hdocumented => ?_
      rcases hstands.tryNext hdocumented with hio | ⟨w₂, hok, hstands'⟩
      · rw [hnext] at hio
        cases hio
        exact hstands
      · rw [hnext] at hok
        obtain ⟨hfound, rfl⟩ := Prod.mk.inj hok
        cases hchange : cs[c.fromIndex + s.handed.length]? with
        | none =>
            rw [hchange, Option.toList_none, List.append_nil] at hstands'
            exact hstands'
        | some change =>
            rw [hchange] at hfound
            exact absurd hfound (hother change)

theorem Inv.step {s s' : Following} (hi : s.Inv) (h : s.Step s') : s'.Inv := by
  obtain ⟨cmd, hallowed, rfl⟩ := h
  cases cmd with
  | publish o change written => exact hi.publishChange o hallowed written
  | roll => exact hi.modifyOwn later_roll
  | prune n => exact hi.modifyOwn fun l => later_prune l n
  | restart generation => exact hi.restart hallowed
  | list o => exact hi.list o
  | «open» built reads =>
      cases built
      · exact hi
      · exact hi.watchChannels hallowed
  | next read => exact hi.readNext hallowed

theorem inv_of_reachable {s : Following} (h : Run.Reachable Init Step s) : s.Inv :=
  h.invariant (fun _ => inv_init) fun _ _ hi hs => hi.step hs

/-- The first daemon starts. -/
def first : Following := ⟨[], none, 1, [1], none, none, none, []⟩

/-- A client lists and watches, and the daemon is restarted. Its log is still there
until it is used. -/
def outlived : List Command :=
  [.publish ⟨true, true⟩ (.removed "x" 0) true, .list ⟨true, true⟩,
    .publish ⟨true, true⟩ (.removed "y" 1) true, .roll,
    .open true (fun _ => .record (recordOf (.removed "x" 0))),
    .next .failed, .next (.record (recordOf (.removed "y" 1))), .restart 2, .next .nothing]

theorem outlived_reachable : ∃ s, Run.Reachable Init WipingStep s ∧
    s.cursor = some ⟨1, 1⟩ ∧ s.watch = some ⟨0, 2⟩ ∧ s.onDisk = some 0 ∧
    s.handed = [.removed "y" 1] ∧ s.generation = 2 ∧ s.generations = [1, 2] := by
  refine Run.exists_reachable_perform Init WipingStep perform AllowedWiping
    (fun _ cmd h => ⟨cmd, h, rfl⟩) first outlived _ ⟨rfl, rfl, rfl, rfl, rfl, rfl⟩ ?_
  decide +kernel

/-- **A watch hands out what follows its listing.** Whatever the daemons of a node
append, roll and prune meanwhile, and whichever calls fail: as long as the log of its
listing has not been replaced, what a client has been handed is a beginning of what
that log holds from its cursor on. No change is missed, handed out twice or taken from
the log of another daemon. The next call returns the next change, or none if there is
none yet, unless the files cannot be read. A client that is handed none has applied to
its listing what `replay` applies. -/
theorem watch_follows_listing {s : Following} (h : Run.Reachable Init Step s) {c : WatchCursor}
    {w : ChannelWatch} (hc : s.cursor = some c) (hw : s.watch = some w)
    (hthere : s.onDisk = some w.log) :
    ∃ l cs, s.logs[w.log]? = some l ∧ l.generation = c.generation ∧
      l.records = cs.map recordOf ∧ s.handed <+: cs.drop c.fromIndex ∧
      ∀ read : Read, read.Documented l w.next →
        ((w.tryNext read).1 = .error .io ∧ read = .failed ∨
          (w.tryNext read).1 = .ok cs[c.fromIndex + s.handed.length]?) ∧
        ((w.tryNext read).1 = .ok none → ∀ namePrefix view,
          (s.handed.filter fun d => startsWith namePrefix (ChannelChanges.nameOf d)).foldl
            ChannelChanges.apply view = ChannelChanges.replay namePrefix c.fromIndex cs view) := by
  obtain ⟨c', l, cs, hc', hstands⟩ := (inv_of_reachable h).watching w hw hthere
  obtain rfl : c = c' := Option.some.inj (hc.symm.trans hc')
  refine ⟨l, cs, hstands.log, hstands.generation, hstands.holds.records, hstands.told, ?_⟩
  intro read hread
  rcases hstands.tryNext hread with hio | ⟨w', hnext, -⟩
  · rw [hio]
    refine ⟨.inl ⟨rfl, ?_⟩, fun hnone => by cases hnone⟩
    exact failed_of_io (congrArg Prod.fst hio)
  · rw [hnext]
    refine ⟨.inr rfl, fun hnone namePrefix view => ?_⟩
    have hend : cs[c.fromIndex + s.handed.length]? = none := by simpa using hnone
    have hall : s.handed = cs.drop c.fromIndex := by
      refine hstands.told.eq_of_length_le ?_
      rw [List.getElem?_eq_none_iff] at hend
      rw [List.length_drop]
      omega
    rw [ChannelChanges.replay, hall]

theorem watch_follows_listing_outlived :
    ∃ s c w, Run.Reachable Init Step s ∧ s.cursor = some c ∧ s.watch = some w ∧
      s.handed = [.removed "y" 1] ∧ s.generation ≠ c.generation ∧
      ∃ l, s.logs[w.log]? = some l ∧ l.generation = c.generation := by
  obtain ⟨s, hs, hcursor, hwatch, hthere, hhanded, hgen, -⟩ := outlived_reachable
  have hs' : Run.Reachable Init Step s :=
    hs.invariant (fun _ => .start) fun _ _ hr hstep => hr.next hstep.step
  obtain ⟨l, cs, hlog, hlgen, -⟩ := watch_follows_listing hs' hcursor hwatch hthere
  exact ⟨s, _, _, hs', hcursor, hwatch, hhanded, by rw [hgen]; decide, l, hlog, hlgen⟩

/-! ## A cursor and its daemon -/

/-- Where old files can be removed, a daemon writes to a log of its own, and that is
the one at the path. -/
def Sole (s : Following) : Prop :=
  ∀ k, s.discovery = some k → s.onDisk = some k ∧
    ∃ l, s.logs[k]? = some l ∧ l.generation = s.generation

/-- A generation that no daemon will have again, and no log at the path. -/
structure Gone (g : UInt64) (s : Following) : Prop where
  past : g ∈ s.generations
  another : g ≠ s.generation
  replaced : ∀ (k : ℕ) l, s.onDisk = some k → s.logs[k]? = some l → l.generation ≠ g

section Cursor

variable {s s' : Following} {g : UInt64}

theorem Sole.opens (h : s.Sole) {o : Opening} (ho : o.wiped = true) {k : Option ℕ}
    (hopens : Opens o s k s') : s'.Sole := by
  cases hopens with
  | already hk => exact h
  | failed hnone hd =>
      intro k hk
      exact absurd (hk.symm.trans hnone) (by simp)
  | resumed hnone hleft hk => cases ho.symm.trans hleft
  | created hnone =>
      rintro _ ⟨⟩
      exact ⟨rfl, _, List.getElem?_concat_length, rfl⟩

theorem Gone.opens (h : Gone g s) {o : Opening} {k : Option ℕ} (hopens : Opens o s k s') :
    Gone g s' := by
  cases hopens with
  | already hk => exact h
  | failed hnone hd =>
      refine ⟨h.past, h.another, fun k l hk hl => ?_⟩
      rcases hd with rfl | rfl
      · cases hk
      · exact h.replaced k l hk hl
  | resumed hnone hleft hk => exact ⟨h.past, h.another, h.replaced⟩
  | created hnone =>
      refine ⟨h.past, h.another, ?_⟩
      rintro _ l ⟨⟩ hl
      rw [List.getElem?_concat_length] at hl
      rw [← Option.some.inj hl]
      exact Ne.symm h.another

theorem Sole.modifyLog (h : s.Sole) (k : ℕ) {f : Log → Log} (hf : ∀ l, Later l (f l)) :
    (s.modifyLog k f).Sole := by
  intro j hj
  obtain ⟨hdisk, l, hl, hgen⟩ := h j hj
  obtain ⟨l', hl', hlater⟩ := modifyLog_getElem? hf hl
  exact ⟨hdisk, l', hl', hlater.generation.trans hgen⟩

theorem Gone.modifyLog (h : Gone g s) (k : ℕ) {f : Log → Log} (hf : ∀ l, Later l (f l)) :
    Gone g (s.modifyLog k f) := by
  refine ⟨h.past, h.another, fun j l' hj hl' => ?_⟩
  obtain ⟨l, hl, hlater⟩ := getElem?_modifyLog hf hl'
  rw [hlater.generation]
  exact h.replaced j l hj hl

/-- What the client does is not seen at the daemon, nor in the files. -/
structure SameDaemon (s s' : Following) : Prop where
  logs : s'.logs = s.logs
  onDisk : s'.onDisk = s.onDisk
  discovery : s'.discovery = s.discovery
  generation : s'.generation = s.generation
  generations : s'.generations = s.generations

theorem sameDaemon_watchChannels (s : Following) (reads : ℕ → Read) :
    SameDaemon s (s.watchChannels reads) := by
  unfold watchChannels
  split
  · exact ⟨rfl, rfl, rfl, rfl, rfl⟩
  · split <;> exact ⟨rfl, rfl, rfl, rfl, rfl⟩

theorem sameDaemon_readNext (s : Following) (read : Read) : SameDaemon s (s.readNext read) := by
  unfold readNext
  split
  · exact ⟨rfl, rfl, rfl, rfl, rfl⟩
  · split <;> exact ⟨rfl, rfl, rfl, rfl, rfl⟩

theorem Sole.same (h : s.Sole) (hs : SameDaemon s s') : s'.Sole := by
  intro k hk
  rw [hs.discovery] at hk
  rw [hs.onDisk, hs.logs, hs.generation]
  exact h k hk

theorem Gone.same (h : Gone g s) (hs : SameDaemon s s') : Gone g s' := by
  refine ⟨?_, ?_, fun k l hk hl => ?_⟩
  · rw [hs.generations]
    exact h.past
  · rw [hs.generation]
    exact h.another
  · rw [hs.onDisk] at hk
    rw [hs.logs] at hl
    exact h.replaced k l hk hl

/-- What is kept by opening the log, by writing to it and by a new daemon is kept by
every command. -/
theorem perform_keeps {P : Following → Prop} {ok : Opening → Prop}
    (hopens : ∀ {s s' : Following} {o k}, ok o → P s → Opens o s k s' → P s')
    (hmodify : ∀ {s : Following} (k) {f : Log → Log}, (∀ l, Later l (f l)) → P s →
      P (s.modifyLog k f))
    (hrestart : ∀ {s : Following} {generation}, generation ∉ s.generations → P s →
      P (s.perform (.restart generation)))
    (hsame : ∀ {s s' : Following}, SameDaemon s s' → P s → P s')
    {cmd : Command} (hallowed : s.Allowed cmd) (hok : ∀ o, cmd.opening = some o → ok o)
    (h : P s) : P (s.perform cmd) := by
  have hown : ∀ {f : Log → Log}, (∀ l, Later l (f l)) → P (s.modifyOwn f) := by
    intro f hf
    rw [Following.modifyOwn]
    split
    · exact hmodify _ hf h
    · exact h
  cases cmd with
  | publish o change written =>
      have hfirst := hopens (hok o rfl) h (withDiscovery_opens o s)
      rw [perform, Following.publishChange]
      rcases hwith : s.withDiscovery o with ⟨_ | k, s₁⟩ <;> rw [hwith] at hfirst
      · exact hfirst
      · dsimp only
        split
        · exact hmodify k (fun l => later_commit l hallowed) hfirst
        · exact hfirst
  | roll => exact hown later_roll
  | prune n => exact hown fun l => later_prune l n
  | restart generation => exact hrestart hallowed h
  | list o =>
      refine hsame ?_ (hopens (hok o rfl) h (withDiscovery_opens o s))
      rw [perform, listChannels]
      rcases s.withDiscovery o with ⟨_ | k, s₁⟩
      · exact ⟨rfl, rfl, rfl, rfl, rfl⟩
      · cases hl : s₁.logs[k]? <;> simp only [hl, Option.map] <;> exact ⟨rfl, rfl, rfl, rfl, rfl⟩
  | «open» built reads =>
      cases built
      · exact h
      · exact hsame (sameDaemon_watchChannels s reads) h
  | next read => exact hsame (sameDaemon_readNext s read) h

theorem Sole.step (h : s.Sole) (hstep : s.WipingStep s') : s'.Sole := by
  obtain ⟨cmd, ⟨hallowed, hwipes⟩, rfl⟩ := hstep
  refine perform_keeps (P := Sole) (fun ho h hopens => h.opens ho hopens)
    (fun k _ hf h => h.modifyLog k hf) (fun _ _ k hk => by cases hk) (fun hs h => h.same hs)
    hallowed (fun o ho => ?_) h
  rw [Command.Wipes, ho] at hwipes
  exact hwipes

theorem Gone.step (h : Gone g s) (hstep : s.Step s') : Gone g s' := by
  obtain ⟨cmd, hallowed, rfl⟩ := hstep
  refine perform_keeps (P := Gone g) (fun _ h hopens => h.opens hopens)
    (fun k _ hf h => h.modifyLog k hf) (fun hnew h => ?_) (fun hs h => h.same hs) hallowed
    (fun _ _ => trivial) h
  refine ⟨List.mem_append_left _ h.past, ?_, h.replaced⟩
  rintro rfl
  exact hnew h.past

theorem sole_of_reachable (h : Run.Reachable Init WipingStep s) : s.Sole := by
  refine h.invariant (fun s hs => ?_) fun _ _ hs hstep => hs.step hstep
  obtain ⟨-, -, -, hdisc, -⟩ := hs
  intro k hk
  cases hdisc.symm.trans hk

end Cursor

/-- **A cursor does not outlive its daemon.** Where the old files can be removed, and
once a later daemon has used its log, a cursor of an earlier one is never opened
again, however the run goes on: the client is told that the log was replaced, or there
is nothing at the path. -/
theorem stale_cursor_refused {s s' : Following} (h : Run.Reachable Init WipingStep s)
    {c : WatchCursor} (hpast : c.generation ∈ s.generations)
    (hgone : c.generation ≠ s.generation) (hused : s.discovery ≠ none)
    (hrun : Relation.ReflTransGen Step s s') (reads : ℕ → Read) :
    ChannelWatch.open s'.logs s'.onDisk reads c =
      .error (if s'.onDisk = none then .notFound else .replaced) := by
  obtain ⟨k, hk⟩ := Option.ne_none_iff_exists'.mp hused
  obtain ⟨hdisk, l, hl, hgen⟩ := sole_of_reachable h k hk
  have hstart : Gone c.generation s := by
    refine ⟨hpast, hgone, fun j m hj hm => ?_⟩
    obtain rfl : k = j := Option.some.inj (hdisk.symm.trans hj)
    obtain rfl : l = m := Option.some.inj (hl.symm.trans hm)
    rw [hgen]
    exact Ne.symm hgone
  have hinv : s.Inv := inv_of_reachable (h.invariant (fun _ => .start) fun _ _ hr hstep =>
    hr.next hstep.step)
  obtain ⟨hinv', hend⟩ : s'.Inv ∧ Gone c.generation s' := by
    induction hrun with
    | refl => exact ⟨hinv, hstart⟩
    | tail _ hstep ih => exact ⟨ih.1.step hstep, ih.2.step hstep⟩
  unfold ChannelWatch.open
  cases hdisk' : s'.onDisk with
  | none => rfl
  | some j =>
      have hlt := hinv'.onDisk j hdisk'
      have hother := hend.replaced j _ hdisk' (List.getElem?_eq_getElem hlt)
      simp only [List.getElem?_eq_getElem hlt, if_pos hother, reduceCtorEq, if_false]

/-- The client of a first daemon, when a second one has published. -/
theorem stale_cursor_refused_outlived :
    ∃ s c, Run.Reachable Init WipingStep s ∧ s.cursor = some c ∧ s.generation = 2 ∧
      ∀ reads, ChannelWatch.open s.logs s.onDisk reads c = .error .replaced := by
  obtain ⟨s, hs, hcursor, hdisc, hdisk, hgen, hgens⟩ : ∃ s, Run.Reachable Init WipingStep s ∧
      s.cursor = some ⟨1, 1⟩ ∧ s.discovery = some 1 ∧ s.onDisk = some 1 ∧ s.generation = 2 ∧
      s.generations = [1, 2] := by
    refine Run.exists_reachable_perform Init WipingStep perform AllowedWiping
      (fun _ cmd h => ⟨cmd, h, rfl⟩) first
      (outlived ++ [.publish ⟨true, true⟩ (.removed "z" 2) true]) _
      ⟨rfl, rfl, rfl, rfl, rfl, rfl⟩ ?_
    decide +kernel
  refine ⟨s, ⟨1, 1⟩, hs, hcursor, hgen, fun reads => ?_⟩
  have hrefused := stale_cursor_refused hs (c := ⟨1, 1⟩) (by rw [hgens]; decide)
    (by rw [hgen]; decide) (by rw [hdisc]; decide) .refl reads
  rwa [if_neg (by rw [hdisk]; decide)] at hrefused

/-- Files that cannot be removed are gone on with: a client is handed a change of
the second daemon on top of a listing of the first. -/
theorem watch_crosses_unwiped_restart : ∃ s, Run.Reachable Init Step s ∧
    s.cursor = some ⟨1, 0⟩ ∧ s.generation = 2 ∧ s.handed = [.removed "x" 0] := by
  refine Run.exists_reachable_perform Init Step perform Allowed
    (fun _ cmd h => ⟨cmd, h, rfl⟩) first [.list ⟨true, true⟩, .restart 2,
      .publish ⟨false, true⟩ (.removed "x" 0) true, .open true (fun _ => .failed),
      .next (.record (recordOf (.removed "x" 0)))]
    _ ⟨rfl, rfl, rfl, rfl, rfl, rfl⟩ ?_
  decide +kernel

end Following

end XchannelNet
