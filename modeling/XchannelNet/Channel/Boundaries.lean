import XchannelNet.Channel.Replication
import XchannelNet.Lib.Run

/-!
# Boundaries — where the replica begins a new file

A frame says whether its record begins a new file at the origin, and the sink
rolls before it applies such a frame. The source finds out by comparing the
reader's segment before and after ONE read. That never tells a boundary that
is not there, but it tells every one only while the reader is inside a
segment: not when a read that found nothing has already moved on to the next
file, and not when the source was opened where the boundary is.
-/

namespace XchannelNet

/-- `try_next_frame` with a reader that steps `j` segments ahead where there
is nothing to read. -/
def ReplicationSource.poll (l : Log) (src : ReplicationSource) (j : ℕ) :
    Option RecordFrame × ReplicationSource :=
  match src.tryNextFrame l with
  | (none, _) => (none, { src with reader := src.reader.drift l.toSegLog j })
  | (some f, src') => (some f, src')

namespace Boundaries

/-- A connection: the origin's source, the frames in flight, and the index
the sink expects. -/
structure Link where
  source : ReplicationSource
  wire : List RecordFrame
  expectedIndex : ℕ

/-- One origin and the replica of one subscriber. -/
structure Mirror where
  origin : Log
  replica : Option Log
  link : Option Link

inductive Action where
  -- the origin's writer
  | append (r : Record)
  | roll
  | prune (k : ℕ)
  -- the connection
  | connect (cfg : WriterConfig)
  | poll (j : ℕ)
  | deliver
  | disconnect
  -- the subscriber dies between the roll and the commit of a frame
  | interrupt
  -- retention at the replica, and a replica thrown away
  | pruneReplica (k : ℕ)
  | discard

/-- Open the source at the index the replica is opened with, and the replica.
The position is valid if that is where both are. -/
def connect (m : Mirror) (cfg : WriterConfig) : Option Mirror :=
  match (ReplicationSource.open m.origin).1.skipTo m.origin cfg.baseRecordIndex with
  | none => none
  | some source =>
    match ReplicationSink.open cfg m.replica with
    | .error _ => none
    | .ok sink =>
      if source.nextIndex = sink.expectedIndex then
        some { m with
          replica := some sink.writer
          link := some { source, wire := [], expectedIndex := sink.expectedIndex } }
      else none

/-- Apply the next frame; a sink that refuses it ends the connection. -/
def deliver (m : Mirror) (r : Log) (ln : Link) (f : RecordFrame) (wire : List RecordFrame) :
    Mirror :=
  match ReplicationSink.apply ⟨r, ln.expectedIndex⟩ f with
  | .error _ => { m with link := none }
  | .ok sink =>
    { m with
      replica := some sink.writer
      link := some { ln with wire, expectedIndex := sink.expectedIndex } }

def perform (m : Mirror) : Action → Option Mirror
  | .append r => some { m with origin := m.origin.commit r }
  | .roll => some { m with origin := m.origin.rollFile }
  | .prune k => some { m with origin := m.origin.pruneTo k }
  | .connect cfg => if m.link.isNone then connect m cfg else none
  | .poll j =>
    m.link.map fun ln =>
      let (f, source) := ln.source.poll m.origin j
      { m with link := some { ln with source, wire := ln.wire ++ f.toList } }
  | .deliver =>
    match m.replica, m.link with
    | some r, some ln =>
      match ln.wire with
      | f :: wire => some (deliver m r ln f wire)
      | [] => none
    | _, _ => none
  | .disconnect => some { m with link := none }
  | .interrupt =>
    match m.replica, m.link with
    | some r, some ln =>
      match ln.wire with
      | f :: _ =>
        if f.index = ln.expectedIndex ∧ f.startsSegment then
          some { m with replica := some r.rollFile, link := none }
        else none
      | [] => none
    | _, _ => none
  | .pruneReplica k => m.replica.map fun r => { m with replica := some (r.pruneTo k) }
  | .discard => if m.link.isNone then some { m with replica := none } else none

/-- An origin with any history, and no replica yet. -/
def Init (m : Mirror) : Prop := m.replica = none ∧ m.link = none

/-- Any action that is allowed and can be performed. -/
def Step (allowed : Mirror → Action → Prop) (m m' : Mirror) : Prop :=
  ∃ a, allowed m a ∧ perform m a = some m'

/-- A connection opened at a valid position: source and sink are both there. -/
structure Opens (m : Mirror) (cfg : WriterConfig) (source : ReplicationSource)
    (sink : ReplicationSink) : Prop where
  seek : (ReplicationSource.open m.origin).1.skipTo m.origin cfg.baseRecordIndex = some source
  opened : ReplicationSink.open cfg m.replica = .ok sink
  start : source.nextIndex = sink.expectedIndex

/-- What an action does, where it can be performed. -/
inductive Effect (m : Mirror) : Action → Mirror → Prop
  | grow {a : Action} {o : Log} (hg : m.origin.Grows o) : Effect m a { m with origin := o }
  | connect {cfg : WriterConfig} {source : ReplicationSource} {sink : ReplicationSink}
      (ho : Opens m cfg source sink) :
      Effect m (.connect cfg) { m with
        replica := some sink.writer
        link := some { source, wire := [], expectedIndex := sink.expectedIndex } }
  | poll {ln : Link} (j : ℕ) (hln : m.link = some ln) :
      Effect m (.poll j) { m with link := some { ln with
        source := (ln.source.poll m.origin j).2
        wire := ln.wire ++ (ln.source.poll m.origin j).1.toList } }
  | deliver {r : Log} {ln : Link} {f : RecordFrame} {wire : List RecordFrame}
      {sink : ReplicationSink} (hr : m.replica = some r) (hln : m.link = some ln)
      (hw : ln.wire = f :: wire) (happ : ReplicationSink.apply ⟨r, ln.expectedIndex⟩ f = .ok sink) :
      Effect m .deliver { m with
        replica := some sink.writer
        link := some { ln with wire, expectedIndex := sink.expectedIndex } }
  | unlink {a : Action} : Effect m a { m with link := none }
  | interrupt {r : Log} {ln : Link} {f : RecordFrame} (hr : m.replica = some r)
      (hln : m.link = some ln) (hf : f ∈ ln.wire) (hnext : f.index = ln.expectedIndex)
      (hs : f.startsSegment = true) :
      Effect m .interrupt { m with replica := some r.rollFile, link := none }
  | pruneReplica {r : Log} (k : ℕ) (hr : m.replica = some r) :
      Effect m (.pruneReplica k) { m with replica := some (r.pruneTo k) }
  | discard (hln : m.link = none) : Effect m .discard { m with replica := none }

theorem effect_of_perform {m m' : Mirror} {a : Action} (ha : perform m a = some m') :
    Effect m a m' := by
  cases a with
  | append r =>
      cases ha
      exact .grow ⟨.append _ _, rfl, rfl, rfl⟩
  | roll =>
      cases ha
      exact .grow ⟨.roll _, rfl, rfl, rfl⟩
  | prune k =>
      cases ha
      exact .grow ⟨.prune _ _, rfl, rfl, rfl⟩
  | connect cfg =>
      simp only [perform, connect] at ha
      split at ha
      · split at ha
        · cases ha
        · rename_i source hskip
          split at ha
          · cases ha
          · rename_i sink hopen
            split at ha
            · cases ha
              exact .connect ⟨hskip, hopen, ‹_›⟩
            · cases ha
      · cases ha
  | poll j =>
      simp only [perform, Option.map_eq_some_iff] at ha
      obtain ⟨ln, hln, rfl⟩ := ha
      exact .poll j hln
  | deliver =>
      simp only [perform, deliver] at ha
      split at ha
      · rename_i r ln hr hln
        split at ha
        · rename_i f wire hw
          split at ha
          · cases ha
            exact .unlink
          · cases ha
            exact .deliver hr hln hw ‹_›
        · cases ha
      · cases ha
  | disconnect =>
      cases ha
      exact .unlink
  | interrupt =>
      simp only [perform] at ha
      split at ha
      · rename_i r ln hr hln
        split at ha
        · rename_i f wire hw
          split at ha
          · rename_i hnow
            cases ha
            exact .interrupt hr hln (hw ▸ List.mem_cons_self) hnow.1 hnow.2
          · cases ha
        · cases ha
      · cases ha
  | pruneReplica k =>
      simp only [perform, Option.map_eq_some_iff] at ha
      obtain ⟨r, hr, rfl⟩ := ha
      exact .pruneReplica k hr
  | discard =>
      simp only [perform] at ha
      split at ha
      · cases ha
        exact .discard (Option.isNone_iff_eq_none.mp ‹_›)
      · cases ha

/-! ## No boundary is made up -/

/-- What a frame in flight says is so: it begins a file only where the origin
does. -/
structure Truthful (o : Log) (f : RecordFrame) : Prop where
  lt_head : f.index < o.head
  starts : f.startsSegment = true → f.index ∈ o.boundaries

/-- A connection serves the origin to the replica. -/
structure Link.Serves (ln : Link) (o r : Log) : Prop where
  source : ln.source.At o
  expects : ln.expectedIndex = r.head
  wire : ∀ f ∈ ln.wire, Truthful o f

/-- The replica is behind the origin and begins files only where the origin
does. -/
structure Behind (r o : Log) : Prop where
  head_le : r.head ≤ o.head
  subset : ∀ k ∈ r.boundaries, k ∈ o.boundaries

structure Sound (m : Mirror) : Prop where
  replica : ∀ r, m.replica = some r → Behind r m.origin
  link : ∀ ln, m.link = some ln → ∃ r, m.replica = some r ∧ ln.Serves m.origin r

section Growth

variable {o o' r : Log} (hg : o.Grows o')

include hg

theorem Truthful.grows {f : RecordFrame} (h : Truthful o f) : Truthful o' f :=
  ⟨h.lt_head.trans_le hg.records.head_le, fun hs => hg.records.mem_boundaries.1 (h.starts hs)⟩

theorem Link.Serves.grows {ln : Link} (h : ln.Serves o r) : ln.Serves o' r :=
  ⟨h.source.grows hg, h.expects, fun f hf => (h.wire f hf).grows hg⟩

theorem Behind.grows (h : Behind r o) : Behind r o' :=
  ⟨h.head_le.trans hg.records.head_le, fun k hk => hg.records.mem_boundaries.1 (h.subset k hk)⟩

end Growth

/-- The source's own invariant is kept by reading forward, and a source that
has read is inside a segment. -/
theorem skip_some {src src' : ReplicationSource} {l : Log} (h : src.At l) {n : ℕ}
    (hs : src.skip l n = some src') :
    src'.At l ∧ src'.nextIndex = src.nextIndex + n ∧ (n ≠ 0 → src'.reader.offset ≠ 0) := by
  induction n generalizing src with
  | zero =>
      cases hs
      exact ⟨h, rfl, fun hne => absurd rfl hne⟩
  | succ n ih =>
      have hat := h.tryRead.2
      rw [ReplicationSource.skip] at hs
      rcases hread : src.reader.tryRead l.toSegLog with ⟨m, reader⟩
      rw [hread] at hat hs
      cases m with
      | none => cases hs
      | some m =>
          obtain ⟨hat', hidx, hoff⟩ := ih hat hs
          have hidx' : src'.nextIndex = src.nextIndex + 1 + n := hidx
          refine ⟨hat', by omega, fun _ => ?_⟩
          rcases Nat.eq_zero_or_pos n with rfl | hpos
          · cases hs
            have hm : (src.reader.tryRead l.toSegLog).1 = some m := by rw [hread]
            have hne := SegLog.Reader.offset_ne_zero_of_tryRead hm
            rwa [hread] at hne
          · exact hoff hpos.ne'

/-- What a poll does: it finds nothing, and the reader may drift; or it reads
a record and compares the reader's segment before and after. -/
theorem poll_cases (l : Log) (src : ReplicationSource) (j : ℕ) :
    (src.reader.tryRead l.toSegLog).1 = none ∧
      src.poll l j = (none, { src with reader := src.reader.drift l.toSegLog j }) ∨
    ∃ m f, (src.reader.tryRead l.toSegLog).1 = some m ∧
      src.poll l j = (some f, ⟨(src.reader.tryRead l.toSegLog).2, src.nextIndex + 1⟩) ∧
      f.index = src.nextIndex ∧
      f.startsSegment = decide ((src.reader.tryRead l.toSegLog).2.seq ≠ src.reader.seq) := by
  rw [ReplicationSource.poll, ReplicationSource.tryNextFrame]
  rcases src.reader.tryRead l.toSegLog with ⟨m, reader⟩
  cases m with
  | none => exact .inl ⟨rfl, rfl⟩
  | some m => exact .inr ⟨m, _, rfl, rfl, rfl, rfl⟩

theorem at_poll {src : ReplicationSource} {l : Log} (h : src.At l) (j : ℕ) :
    (src.poll l j).2.At l := by
  have hat := h.tryRead
  rcases poll_cases l src j with ⟨hnone, hpoll⟩ | ⟨m, f, hread, hpoll, -, -⟩
  · rw [hpoll]
    obtain ⟨hvalid, hidx⟩ := h.valid.drift (by rw [h.index, ← hat.1, hnone]) j
    exact ⟨hvalid, hidx.trans h.index⟩
  · rw [hpoll]
    have hnext := hat.2
    rw [hread] at hnext
    exact hnext

theorem truthful_of_poll {src : ReplicationSource} {l : Log} (h : src.At l) {j : ℕ}
    {f : RecordFrame} (hf : f ∈ (src.poll l j).1) : Truthful l f := by
  rcases poll_cases l src j with ⟨-, hpoll⟩ | ⟨m, f', hread, hpoll, hidx, hstarts⟩
  · rw [hpoll] at hf
    cases hf
  · rw [hpoll] at hf
    cases hf
    refine ⟨?_, fun hs => ?_⟩
    · rw [hidx]
      exact (SegLog.get?_isSome_iff.mp ⟨m, h.tryRead.1.symm.trans hread⟩).2
    · rw [hidx, ← h.index]
      rw [hstarts, decide_eq_true_eq] at hs
      exact (SegLog.Reader.mem_boundaries_iff h.valid hread).1 hs

/-- An applied frame begins a file of the replica exactly if it says so. -/
theorem apply_boundaries {sink sink' : ReplicationSink} {f : RecordFrame}
    (h : sink.apply f = .ok sink') :
    sink'.writer.genesis = sink.writer.genesis ∧ sink'.writer.head = sink.writer.head + 1 ∧
    sink'.writer.boundaries =
      sink.writer.boundaries ++ if f.startsSegment then [sink.writer.head] else [] := by
  simp only [ReplicationSink.apply] at h
  split at h
  · cases h
  · cases h
    cases f.startsSegment with
    | true => simp [Log.commit, Log.rollFile]
    | false => simp [Log.commit]

/-- One connection serves one replica. -/
theorem Sound.serves {m : Mirror} (h : Sound m) {r : Log} {ln : Link} (hr : m.replica = some r)
    (hln : m.link = some ln) : ln.Serves m.origin r := by
  obtain ⟨r', hr', hs⟩ := h.link ln hln
  cases hr.symm.trans hr'
  exact hs

theorem Behind.apply {o r : Log} (h : Behind r o) {n : ℕ} {f : RecordFrame}
    {sink : ReplicationSink} (hf : Truthful o f) (hn : n = r.head)
    (happ : ReplicationSink.apply ⟨r, n⟩ f = .ok sink) : Behind sink.writer o := by
  obtain ⟨-, hhead, hbound⟩ := apply_boundaries happ
  have hnext : f.index = r.head := (ReplicationSink.apply_ok happ).1.trans hn
  refine ⟨by rw [hhead, ← hnext]; exact hf.lt_head, fun k hk => ?_⟩
  rw [hbound, List.mem_append] at hk
  rcases hk with hold | hnew
  · exact h.subset k hold
  · split at hnew
    · rw [List.mem_singleton.mp hnew, ← hnext]
      exact hf.starts ‹_›
    · cases hnew

theorem Sound.connect {m : Mirror} {cfg : WriterConfig} {source : ReplicationSource}
    {sink : ReplicationSink} (h : Sound m) (ho : Opens m cfg source sink) :
    Sound { m with
      replica := some sink.writer
      link := some { source, wire := [], expectedIndex := sink.expectedIndex } } := by
  obtain ⟨hat, -, -⟩ := skip_some (ReplicationSource.open_at m.origin) ho.seek
  obtain ⟨hexp, -, hwriter⟩ := ReplicationSink.open_ok ho.opened
  refine ⟨fun r hr => ?_, fun ln hln => ?_⟩
  · cases hr
    rcases hwriter with ⟨-, hempty⟩ | hold
    · refine ⟨?_, fun k hk => ?_⟩
      · rw [← hexp, ← ho.start, ← hat.index]
        exact hat.valid.index_le
      · rw [hempty] at hk
        cases hk
    · exact h.replica _ hold
  · cases hln
    exact ⟨_, rfl, hat, hexp, fun f hf => by cases hf⟩

theorem Sound.effect {m m' : Mirror} {a : Action} (h : Sound m) (he : Effect m a m') :
    Sound m' := by
  cases he with
  | grow hg =>
      refine ⟨fun r hr => (h.replica r hr).grows hg, fun ln hln => ?_⟩
      obtain ⟨r, hr, hs⟩ := h.link ln hln
      exact ⟨r, hr, hs.grows hg⟩
  | connect ho => exact h.connect ho
  | poll j hln =>
      refine ⟨h.replica, fun ln' hln' => ?_⟩
      obtain ⟨r, hr, hs⟩ := h.link _ hln
      cases hln'
      refine ⟨r, hr, at_poll hs.source j, hs.expects, fun f hf => ?_⟩
      rcases List.mem_append.mp hf with hold | hnew
      · exact hs.wire f hold
      · exact truthful_of_poll hs.source (Option.mem_toList.mp hnew)
  | deliver hr hln hw happ =>
      have hs := h.serves hr hln
      refine ⟨fun r' hr' => ?_, fun ln' hln' => ⟨_, rfl, ?_⟩⟩
      · cases hr'
        exact (h.replica _ hr).apply (hs.wire _ (hw ▸ List.mem_cons_self)) hs.expects happ
      · cases hln'
        have hexp := (ReplicationSink.apply_ok happ).2.1
        have hhead := (apply_boundaries happ).2.1
        refine ⟨hs.source, ?_, fun f' hf' => hs.wire f' (hw ▸ List.mem_cons_of_mem _ hf')⟩
        rw [hhead, hexp]
        exact congrArg (· + 1) hs.expects
  | unlink => exact ⟨h.replica, fun _ hln => by cases hln⟩
  | interrupt hr hln hf hnext hstarts =>
      have hs := h.serves hr hln
      have hold := h.replica _ hr
      refine ⟨fun r' hr' => ?_, fun _ hln' => by cases hln'⟩
      cases hr'
      refine ⟨by simpa [Log.rollFile] using hold.head_le, fun k hk => ?_⟩
      simp only [Log.rollFile, SegLog.boundaries_roll, List.mem_append, List.mem_singleton] at hk
      rcases hk with hk | rfl
      · exact hold.subset k hk
      · rw [← hs.expects, ← hnext]
        exact (hs.wire _ hf).starts hstarts
  | pruneReplica k hr =>
      have hold := h.replica _ hr
      refine ⟨fun r' hr' => ?_, fun ln hln => ⟨_, rfl, ?_⟩⟩
      · cases hr'
        exact ⟨hold.head_le, hold.subset⟩
      · have hs := h.serves hr hln
        exact ⟨hs.source, hs.expects, hs.wire⟩
  | discard hln =>
      refine ⟨fun _ hr => (by cases hr), fun ln hln' => ?_⟩
      cases hln.symm.trans hln'

theorem sound_of_init {m : Mirror} (h : Init m) : Sound m := by
  refine ⟨fun r hr => ?_, fun ln hln => ?_⟩
  · cases h.1.symm.trans hr
  · cases h.2.symm.trans hln

/-- **The replica begins a file only where the origin does**, whatever the
reader's empty reads do and wherever the replica was resumed. -/
theorem no_boundary_made_up {allowed : Mirror → Action → Prop} {m : Mirror}
    (h : Run.Reachable Init (Step allowed) m) {r : Log} (hr : m.replica = some r) {k : ℕ}
    (hk : k ∈ r.boundaries) : k ∈ m.origin.boundaries := by
  have hsound : Sound m := by
    refine h.invariant (fun _ => sound_of_init) ?_
    rintro s s' hs ⟨a, -, ha⟩
    exact hs.effect (effect_of_perform ha)
  exact (hsound.replica r hr).subset k hk

/-! ## Where none is missed -/

/-- A poll that finds nothing stays in its segment. -/
def Stays (m : Mirror) : Action → Prop
  | .poll j => ∀ ln ∈ m.link, (ln.source.poll m.origin j).1 = none →
      (ln.source.poll m.origin j).2.reader.seq = ln.source.reader.seq
  | _ => True

/-- A replica that has records is not resumed at the very first record the
origin retains. -/
def Inside (m : Mirror) : Action → Prop
  | .connect _ => ∀ r ∈ m.replica, r.head = r.genesis ∨ m.origin.earliest < r.head
  | _ => True

instance (m : Mirror) : DecidablePred (Stays m) := fun a => by
  cases a <;> unfold Stays <;> infer_instance

instance (m : Mirror) : DecidablePred (Inside m) := fun a => by
  cases a <;> unfold Inside <;> infer_instance

/-- A frame in flight tells a boundary above the replica's base. -/
def Tells (o r : Log) (f : RecordFrame) : Prop :=
  r.genesis < f.index → f.index ∈ o.boundaries → f.startsSegment = true

/-- The connection misses none: the source is inside a segment, or has not
passed the replica's base. -/
structure Link.Attentive (ln : Link) (o r : Log) : Prop where
  wire : ∀ f ∈ ln.wire, Tells o r f
  inside : ln.source.reader.offset = 0 → ln.source.nextIndex ≤ r.genesis

/-- The replica begins a file wherever the origin does, above its base and
as far as it goes. -/
def Covers (r o : Log) : Prop :=
  ∀ k, r.genesis < k → k < r.head → k ∈ o.boundaries → k ∈ r.boundaries

structure Complete (m : Mirror) : Prop where
  replica : ∀ r, m.replica = some r → Covers r m.origin
  link : ∀ r ln, m.replica = some r → m.link = some ln → ln.Attentive m.origin r

theorem tells_of_poll {src : ReplicationSource} {l r : Log} (h : src.At l)
    (hin : src.reader.offset = 0 → src.nextIndex ≤ r.genesis) {j : ℕ} {f : RecordFrame}
    (hf : f ∈ (src.poll l j).1) : Tells l r f := by
  rcases poll_cases l src j with ⟨-, hpoll⟩ | ⟨m, f', hread, hpoll, hidx, hstarts⟩
  · rw [hpoll] at hf
    cases hf
  · rw [hpoll] at hf
    cases hf
    intro hbase hmem
    rw [hidx] at hbase hmem
    rw [← h.index] at hmem
    have hoff : src.reader.offset ≠ 0 := fun h0 => absurd (hin h0) (not_le.mpr hbase)
    rw [hstarts, decide_eq_true_eq]
    exact (SegLog.Reader.mem_boundaries_iff h.valid hread).2 hoff hmem

/-- A poll that stays leaves the source inside a segment if it was in one. -/
theorem inside_of_poll {src : ReplicationSource} {l r : Log} {j : ℕ}
    (hin : src.reader.offset = 0 → src.nextIndex ≤ r.genesis)
    (hc : (src.poll l j).1 = none → (src.poll l j).2.reader.seq = src.reader.seq) :
    (src.poll l j).2.reader.offset = 0 → (src.poll l j).2.nextIndex ≤ r.genesis := by
  rcases poll_cases l src j with ⟨-, hpoll⟩ | ⟨m, f', hread, hpoll, -, -⟩
  · rw [hpoll] at hc ⊢
    have hstay := SegLog.Reader.drift_eq_self (hc rfl)
    dsimp only
    rw [hstay]
    exact hin
  · rw [hpoll]
    exact fun h0 => absurd h0 (SegLog.Reader.offset_ne_zero_of_tryRead hread)

theorem Covers.apply {o r : Log} (h : Covers r o) {n : ℕ} {f : RecordFrame}
    {sink : ReplicationSink} (hf : Tells o r f) (hn : n = r.head)
    (happ : ReplicationSink.apply ⟨r, n⟩ f = .ok sink) : Covers sink.writer o := by
  obtain ⟨hgen, hhead, hbound⟩ := apply_boundaries happ
  have hnext : f.index = r.head := (ReplicationSink.apply_ok happ).1.trans hn
  intro k hbase hlt hmem
  rw [hgen] at hbase
  rw [hhead] at hlt
  rw [hbound, List.mem_append]
  rcases Nat.lt_succ_iff_lt_or_eq.mp hlt with hlt | rfl
  · exact .inl (h k hbase hlt hmem)
  · right
    rw [if_pos (hf (hnext ▸ hbase) (hnext ▸ hmem))]
    exact List.mem_singleton_self _

/-- A source that is opened where a segment begins serves a replica without
records. -/
theorem Opens.inside {m : Mirror} {cfg : WriterConfig} {source : ReplicationSource}
    {sink : ReplicationSink} (ho : Opens m cfg source sink) (hinside : Inside m (.connect cfg)) :
    source.reader.offset = 0 → source.nextIndex ≤ sink.writer.genesis := by
  obtain ⟨-, hidx, hoff⟩ := skip_some (ReplicationSource.open_at m.origin) ho.seek
  obtain ⟨hexp, -, hwriter⟩ := ReplicationSink.open_ok ho.opened
  intro h0
  have hstart := ho.start
  rw [hstart, hexp]
  rcases hwriter with ⟨-, hempty⟩ | hold
  · rw [hempty]
    exact le_rfl
  · rcases hinside _ hold with hnone | hlt
    · exact hnone.le
    · -- the source has read at least one record to get there
      refine absurd h0 (hoff ?_)
      have hopened : (ReplicationSource.open m.origin).1.nextIndex = m.origin.earliest := rfl
      omega

theorem Complete.connect {m : Mirror} {cfg : WriterConfig} {source : ReplicationSource}
    {sink : ReplicationSink} (h : Complete m) (ho : Opens m cfg source sink)
    (hinside : Inside m (.connect cfg)) :
    Complete { m with
      replica := some sink.writer
      link := some { source, wire := [], expectedIndex := sink.expectedIndex } } := by
  refine ⟨fun r hr => ?_, fun r ln hr hln => ?_⟩
  · cases hr
    rcases (ReplicationSink.open_ok ho.opened).2.2 with ⟨-, hempty⟩ | hold
    · intro k hbase hlt
      rw [hempty] at hbase hlt
      exact absurd (hbase.trans hlt) (lt_irrefl _)
    · exact h.replica _ hold
  · cases hr
    cases hln
    exact ⟨fun f hf => (by cases hf), ho.inside hinside⟩

theorem Complete.effect {m m' : Mirror} {a : Action} (hs : Sound m) (h : Complete m)
    (hstays : Stays m a) (hinside : Inside m a) (he : Effect m a m') : Complete m' := by
  cases he with
  | grow hg =>
      refine ⟨fun r hr k hbase hlt hmem => ?_, fun r ln hr hln => ⟨fun f hf hbase hmem => ?_, ?_⟩⟩
      · have hle := (hs.replica r hr).head_le
        exact h.replica r hr k hbase hlt (hg.records.mem_boundaries.2 (hlt.trans_le hle) hmem)
      · have hlt := ((hs.serves hr hln).wire f hf).lt_head
        exact (h.link r ln hr hln).wire f hf hbase (hg.records.mem_boundaries.2 hlt hmem)
      · exact (h.link r ln hr hln).inside
  | connect ho => exact h.connect ho hinside
  | poll j hln =>
      refine ⟨h.replica, fun r ln' hr hln' => ?_⟩
      cases hln'
      have hserves := hs.serves hr hln
      have hatt := h.link r _ hr hln
      refine ⟨fun f hf => ?_, inside_of_poll hatt.inside (hstays _ hln)⟩
      rcases List.mem_append.mp hf with hold | hnew
      · exact hatt.wire f hold
      · exact tells_of_poll hserves.source hatt.inside (Option.mem_toList.mp hnew)
  | deliver hr hln hw happ =>
      have hatt := h.link _ _ hr hln
      have hgen := (apply_boundaries happ).1
      refine ⟨fun r' hr' => ?_, fun r' ln' hr' hln' => ?_⟩
      · cases hr'
        exact (h.replica _ hr).apply (hatt.wire _ (hw ▸ List.mem_cons_self))
          (hs.serves hr hln).expects happ
      · cases hr'
        cases hln'
        refine ⟨fun f' hf' => ?_, ?_⟩
        · rw [Tells, hgen]
          exact hatt.wire f' (hw ▸ List.mem_cons_of_mem _ hf')
        · rw [hgen]
          exact hatt.inside
  | unlink => exact ⟨h.replica, fun _ _ _ hln => by cases hln⟩
  | interrupt hr hln hf hnext hstarts =>
      refine ⟨fun r' hr' k hbase hlt hmem => ?_, fun _ _ _ hln' => by cases hln'⟩
      cases hr'
      simp only [Log.rollFile, SegLog.boundaries_roll, SegLog.head_roll, List.mem_append] at hlt ⊢
      exact .inl (h.replica _ hr k hbase hlt hmem)
  | pruneReplica k hr =>
      have hold := h.replica _ hr
      refine ⟨fun r' hr' => ?_, fun r' ln hr' hln => ?_⟩
      · cases hr'
        exact hold
      · cases hr'
        have hatt := h.link _ ln hr hln
        exact ⟨hatt.wire, hatt.inside⟩
  | discard hln => exact ⟨fun _ hr => (by cases hr), fun _ _ hr => (by cases hr)⟩

theorem complete_of_init {m : Mirror} (h : Init m) : Complete m := by
  refine ⟨fun r hr => ?_, fun _ ln _ hln => ?_⟩
  · cases h.1.symm.trans hr
  · cases h.2.symm.trans hln

/-- What a run keeps in which no boundary is missed. -/
structure Aligned (m : Mirror) : Prop where
  sound : Sound m
  complete : Complete m

theorem Aligned.step {m m' : Mirror} (h : Aligned m)
    (hs : Step (fun m a => Stays m a ∧ Inside m a) m m') : Aligned m' := by
  obtain ⟨a, ⟨hstays, hinside⟩, ha⟩ := hs
  have he := effect_of_perform ha
  exact ⟨h.sound.effect he, h.complete.effect h.sound hstays hinside he⟩

/-- **File boundaries are mirrored**: where empty polls stay in their segment
and no replica with records is resumed at the origin's first one, a record
that the replica holds above its base begins a file of the replica exactly if
it begins a file of the origin. -/
theorem boundaries_mirrored {m : Mirror}
    (h : Run.Reachable Init (Step fun m a => Stays m a ∧ Inside m a) m) {r : Log}
    (hr : m.replica = some r) {k : ℕ} (hbase : r.genesis < k) (hhead : k < r.head) :
    k ∈ r.boundaries ↔ k ∈ m.origin.boundaries := by
  have hinv : Aligned m :=
    h.invariant (fun _ h0 => ⟨sound_of_init h0, complete_of_init h0⟩) fun _ _ => Aligned.step
  exact ⟨(hinv.sound.replica r hr).subset k, hinv.complete.replica r hr k hbase hhead⟩

/-! ## Computed runs -/

/-- A channel with one record, and nobody subscribed. -/
def fresh : Mirror where
  origin := .ofRecords "c" 0 [⟨1, 0, []⟩]
  replica := none
  link := none

/-- How a replica is opened at an index. -/
def config (start : ℕ) : WriterConfig where
  name := "c"
  regionSize := 4096
  mtu := 0
  fileRollSize := 0
  keepFiles := 0
  baseRecordIndex := start
  generation := 0

theorem boundaries_mirrored_resumed : ∃ m r,
    Run.Reachable Init (Step fun m a => Stays m a ∧ Inside m a) m ∧ m.replica = some r ∧
    r.genesis < 1 ∧ 1 < r.head ∧ 1 ∈ m.origin.boundaries ∧ 1 ∈ r.boundaries := by
  obtain ⟨m, hm, r, hr, hgen, hhead, hmem⟩ := Run.exists_reachable_partial Init
    (Step fun m a => Stays m a ∧ Inside m a) perform (fun m a => Stays m a ∧ Inside m a)
    (fun _ a _ h hp => ⟨a, h, hp⟩) fresh
    [.connect (config 0), .poll 0, .deliver, .disconnect, .roll, .append ⟨2, 0, []⟩,
      .connect (config 1), .poll 0, .deliver]
    (fun m => ∃ r ∈ m.replica, r.genesis < 1 ∧ 1 < r.head ∧ 1 ∈ m.origin.boundaries)
    ⟨rfl, rfl⟩ (by decide +kernel)
  exact ⟨m, r, hm, hr, hgen, hhead, hmem, (boundaries_mirrored hm hr hgen hhead).mpr hmem⟩

/-- The replica goes on in one file where the origin begins a new one. -/
def Missed (m : Mirror) : Prop :=
  ∃ r ∈ m.replica, r.genesis < 1 ∧ 1 < r.head ∧ 1 ∈ m.origin.boundaries ∧ 1 ∉ r.boundaries

instance : DecidablePred Missed := fun m => by
  unfold Missed
  infer_instance

/-- A boundary is missed after an empty poll that has stepped into the new
file, and, without any such poll, after a resume at the first record that the
origin retains. -/
theorem boundary_missed :
    (∃ m, Run.Reachable Init (Step Inside) m ∧ Missed m) ∧
    (∃ m, Run.Reachable Init (Step Stays) m ∧ Missed m) := by
  constructor
  · exact Run.exists_reachable_partial Init (Step Inside) perform Inside
      (fun _ a _ h hp => ⟨a, h, hp⟩) fresh
      [.connect (config 0), .poll 0, .deliver, .roll, .poll 1, .append ⟨2, 0, []⟩, .poll 0,
        .deliver]
      Missed ⟨rfl, rfl⟩ (by decide +kernel)
  · exact Run.exists_reachable_partial Init (Step Stays) perform Stays
      (fun _ a _ h hp => ⟨a, h, hp⟩) fresh
      [.connect (config 0), .poll 0, .deliver, .disconnect, .roll, .append ⟨2, 0, []⟩, .prune 1,
        .connect (config 1), .poll 0, .deliver]
      Missed ⟨rfl, rfl⟩ (by decide +kernel)

end Boundaries

end XchannelNet
