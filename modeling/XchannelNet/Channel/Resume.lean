import XchannelNet.Channel.Stream

/-!
# Resume — a subscription accepted while the log grows

`accept_subscription` looks at the log at one moment after the other: it opens
the source, then reads the head, then seeks record by record. The origin's
writer goes on all the while. What is decided is decided by the earliest record
of the first moment and the head of the second, and the seek that follows stays
below that head, so that it never waits for the writer.
-/

namespace XchannelNet

/-- A log as time goes by. Between two moments it may grow by any amount. -/
structure History where
  log : ℕ → Log
  grows : ∀ t, Relation.ReflTransGen Log.Grows (log t) (log (t + 1))

namespace History

variable (h : History)

theorem grown {t t' : ℕ} (hle : t ≤ t') :
    Relation.ReflTransGen Log.Grows (h.log t) (h.log t') := by
  induction t', hle using Nat.le_induction with
  | base => exact .refl
  | succ t' _ ih => exact ih.trans (h.grows t')

theorem head_le {t t' : ℕ} (hle : t ≤ t') : (h.log t).head ≤ (h.log t').head := by
  have hg := h.grown hle
  generalize h.log t' = l at hg ⊢
  induction hg with
  | refl => exact le_rfl
  | tail _ hg ih => exact ih.trans hg.records.head_le

theorem generation_eq {t t' : ℕ} (hle : t ≤ t') :
    (h.log t').generation = (h.log t).generation := by
  have hg := h.grown hle
  generalize h.log t' = l at hg ⊢
  induction hg with
  | refl => rfl
  | tail _ hg ih => exact hg.generation.trans ih

/-- Read `n` records forward, from moment `t` on; `none` where the code would
wait for one to be written. -/
def skip (t : ℕ) (src : ReplicationSource) : ℕ → Option ReplicationSource
  | 0 => some src
  | n + 1 =>
    match src.reader.tryRead (h.log t).toSegLog with
    | (none, _) => none
    | (some _, reader) => skip (t + 1) { reader, nextIndex := src.nextIndex + 1 } n

/-- `accept_subscription`: the source is opened at moment 0, the head read at
moment 1, and the seek begins at moment 2. -/
def acceptSubscription (c : ChannelSource) (name : ChannelName) (fromIndex : ℕ)
    (theirGeneration : UInt64) : Accepted :=
  let (source, earliest) := ReplicationSource.open (h.log 0)
  decideSubscription c earliest (h.log 1).head (h.log 1).generation
    (fun start => h.skip 2 source (start - source.nextIndex)) name fromIndex theirGeneration

/-- One poll at each of `n` moments from `t` on: the frames, and the source
after them. -/
def polls (t : ℕ) (src : ReplicationSource) : ℕ → List RecordFrame × ReplicationSource
  | 0 => ([], src)
  | n + 1 =>
    let (frames, src) := polls t src n
    let (frame, src) := src.tryNextFrame (h.log (t + n))
    (frames ++ frame.toList, src)

/-- The history of a log that stays as it is. -/
def still (l : Log) : History := ⟨fun _ => l, fun _ => .refl⟩

/-- Over a log that does not move the handshake is the one of the still log. -/
theorem acceptSubscription_still (l : Log) (c : ChannelSource) (name : ChannelName)
    (fromIndex : ℕ) (theirGeneration : UInt64) :
    (still l).acceptSubscription c name fromIndex theirGeneration =
      XchannelNet.acceptSubscription l c name fromIndex theirGeneration := by
  have hskip : ∀ n t src, (still l).skip t src n = src.skip l n := by
    intro n
    induction n with
    | zero => exact fun _ _ => rfl
    | succ n ih =>
        intro t src
        have hlog : (still l).log t = l := rfl
        rw [skip, ReplicationSource.skip, hlog]
        rcases src.reader.tryRead l.toSegLog with ⟨_ | m, reader⟩
        · rfl
        · exact ih _ _
  simp only [acceptSubscription, XchannelNet.acceptSubscription, answerSubscription, hskip]
  rfl

/-! ## The seek -/

variable {h}

/-- What was committed at an earlier moment is read without waiting. -/
theorem skip_some {t₀ t : ℕ} {src : ReplicationSource} (hat : src.At (h.log t)) (hle : t₀ ≤ t)
    (n : ℕ) (hn : src.nextIndex + n ≤ (h.log t₀).head) :
    ∃ src', h.skip t src n = some src' ∧ src'.At (h.log (t + n)) ∧
      src'.nextIndex = src.nextIndex + n := by
  induction n generalizing t src with
  | zero => exact ⟨src, rfl, hat, rfl⟩
  | succ n ih =>
      obtain ⟨hval, hnext⟩ := hat.tryRead
      have hhead := h.head_le hle
      have hge : (h.log t).genesis ≤ src.nextIndex := by
        rw [← hat.index, SegLog.Reader.index, SegLog.segBase]
        omega
      obtain ⟨m, hm⟩ := SegLog.get?_isSome_iff.mpr
        ⟨hge, show src.nextIndex < (h.log t).head by omega⟩
      rw [skip]
      rcases hread : src.reader.tryRead (h.log t).toSegLog with ⟨m', reader⟩
      rw [hread] at hval hnext
      rw [hm] at hval
      subst hval
      have hnext' : (⟨reader, src.nextIndex + 1⟩ : ReplicationSource).At (h.log (t + 1)) :=
        hnext.grown (h.grows t)
      obtain ⟨src', hs, hat', hidx⟩ := ih hnext' (hle.trans (Nat.le_succ t)) (by dsimp only; omega)
      refine ⟨src', hs, ?_, by rw [hidx]; dsimp only; omega⟩
      rw [show t + (n + 1) = t + 1 + n by omega]
      exact hat'

/-! ## The frames that follow -/

/-- What the polls of `n` moments from `t` on have yielded, and where they have
left the source. -/
structure Streams (h : History) (start t n : ℕ) (frames : List RecordFrame)
    (src : ReplicationSource) : Prop where
  indices : frames.map RecordFrame.index = List.range' start frames.length
  records : ∀ f ∈ frames, f.Of (h.log (t + n))
  place : src.At (h.log (t + n))
  next : src.nextIndex = start + frames.length

theorem Streams.poll {start t n : ℕ} {frames : List RecordFrame} {src : ReplicationSource}
    (hs : Streams h start t n frames src) :
    Streams h start t (n + 1) (frames ++ (src.tryNextFrame (h.log (t + n))).1.toList)
      (src.tryNextFrame (h.log (t + n))).2 := by
  obtain ⟨hplace, hnone, hsome⟩ := hs.place.tryNextFrame
  have hgrows := h.grows (t + n)
  have hold : ∀ f ∈ frames, f.Of (h.log (t + (n + 1))) := fun f hf => (hs.records f hf).grown hgrows
  rcases hpoll : src.tryNextFrame (h.log (t + n)) with ⟨frame, src'⟩
  rw [hpoll] at hplace hnone hsome
  cases frame with
  | none =>
      rw [Option.toList_none, List.append_nil]
      exact ⟨hs.indices, hold, hplace.grown hgrows, (hnone rfl).2.trans hs.next⟩
  | some f =>
      obtain ⟨hidx, hof, hnext⟩ := hsome f rfl
      rw [Option.toList_some]
      refine ⟨?_, fun f' hf' => ?_, hplace.grown hgrows, ?_⟩
      · rw [List.map_append, List.map_singleton, hs.indices, List.length_append,
          List.length_singleton, List.range'_1_concat, hidx, hs.next]
      · rcases List.mem_append.mp hf' with hf' | hf'
        · exact hold f' hf'
        · rw [List.mem_singleton.mp hf']
          exact hof.grown hgrows
      · rw [List.length_append, List.length_singleton, hnext, hs.next]
        omega

theorem polls_streams {t : ℕ} {src : ReplicationSource} (hat : src.At (h.log t)) (n : ℕ) :
    Streams h src.nextIndex t n (h.polls t src n).1 (h.polls t src n).2 := by
  induction n with
  | zero => exact ⟨rfl, nofun, hat, rfl⟩
  | succ n ih => exact ih.poll

/-- A poll finds nothing only where everything that is committed was sent. -/
theorem head_le_of_poll_none {t : ℕ} {src : ReplicationSource} (hat : src.At (h.log t))
    (hnone : (src.tryNextFrame (h.log t)).1 = none) : (h.log t).head ≤ src.nextIndex := by
  have hge : (h.log t).genesis ≤ src.nextIndex := by
    rw [← hat.index, SegLog.Reader.index, SegLog.segBase]
    omega
  by_contra hlt
  obtain ⟨m, hm⟩ := SegLog.get?_isSome_iff.mpr ⟨hge, not_le.mp hlt⟩
  rw [(hat.tryNextFrame.2.1 hnone).1] at hm
  cases hm

/-! ## The decision -/

/-- The subscriber's replica is not a prefix of this log. -/
def Diverges (h : History) (fromIndex : ℕ) (theirGeneration : UInt64) : Prop :=
  0 < fromIndex ∧ (theirGeneration ≠ (h.log 0).generation ∨
    theirGeneration = (h.log 0).generation ∧ (h.log 0).earliest ≤ fromIndex ∧
      (h.log 1).head < fromIndex)

/-- What the subscriber needs next is gone. -/
def Lags (h : History) (fromIndex : ℕ) (theirGeneration : UInt64) : Prop :=
  0 < fromIndex ∧ theirGeneration = (h.log 0).generation ∧ fromIndex < (h.log 0).earliest

/-- The acknowledgement of a subscription. -/
def ack (h : History) (c : ChannelSource) (fromIndex : ℕ) : SubscribeAck where
  start := max fromIndex (h.log 0).earliest
  head := (h.log 1).head
  regionSize := c.regionSize
  mtu := c.mtu
  fileRollSize := c.fileRollSize
  keepFiles := c.keepFiles
  generation := (h.log 1).generation

variable (h) (c : ChannelSource) (name : ChannelName) (fromIndex : ℕ) (theirGeneration : UInt64)

/-- The three answers, each under its condition. -/
theorem acceptSubscription_cases :
    (h.Diverges fromIndex theirGeneration ∧ h.acceptSubscription c name fromIndex theirGeneration =
      .refused (.diverged name (h.log 0).earliest (h.log 1).head)) ∨
    (h.Lags fromIndex theirGeneration ∧ h.acceptSubscription c name fromIndex theirGeneration =
      .refused (.gap name (h.log 0).earliest (h.log 0).earliest)) ∨
    (¬ h.Diverges fromIndex theirGeneration ∧ ¬ h.Lags fromIndex theirGeneration ∧
      (h.ack c fromIndex).start ≤ (h.log 1).head ∧ ∃ source,
        h.acceptSubscription c name fromIndex theirGeneration =
          .serving (h.ack c fromIndex) source ∧
        source.At (h.log (2 + ((h.ack c fromIndex).start - (h.log 0).earliest))) ∧
        source.nextIndex = (h.ack c fromIndex).start) := by
  have hgen : (h.log 1).generation = (h.log 0).generation := h.generation_eq (Nat.zero_le 1)
  have hle : (h.log 0).earliest ≤ (h.log 1).head :=
    (SegLog.earliest_le_head _).trans (h.head_le (Nat.zero_le 1))
  have hearliest : (ReplicationSource.open (h.log 0)).2 = (h.log 0).earliest := rfl
  simp only [acceptSubscription, decideSubscription, hgen, hearliest]
  split
  · rename_i hdiv
    exact .inl ⟨⟨hdiv.1, .inl hdiv.2⟩, rfl⟩
  rename_i hsame
  split
  · rename_i hgap
    have hagree : theirGeneration = (h.log 0).generation :=
      not_not.mp fun hne => hsame ⟨hgap.1, hne⟩
    exact .inr (.inl ⟨⟨hgap.1, hagree, hgap.2⟩, rfl⟩)
  rename_i hfits
  split
  · rename_i hahead
    have hpos : 0 < fromIndex := Nat.zero_lt_of_lt hahead
    have hagree : theirGeneration = (h.log 0).generation := not_not.mp fun hne => hsame ⟨hpos, hne⟩
    have hge : (h.log 0).earliest ≤ fromIndex := not_lt.mp fun hlt => hfits ⟨hpos, hlt⟩
    exact .inl ⟨⟨hpos, .inr ⟨hagree, hge, hahead⟩⟩, rfl⟩
  · rename_i hahead
    have hstart : max fromIndex (h.log 0).earliest ≤ (h.log 1).head := max_le (not_lt.mp hahead) hle
    have hidx₀ : (ReplicationSource.open (h.log 0)).1.nextIndex = (h.log 0).earliest := rfl
    -- the source was opened two moments before the seek begins
    have hat : (ReplicationSource.open (h.log 0)).1.At (h.log 2) :=
      (ReplicationSource.open_at _).grown (h.grown (Nat.zero_le 2))
    obtain ⟨source, hskip, hplace, hidx⟩ := skip_some hat (Nat.le_succ 1)
      (max fromIndex (h.log 0).earliest - (h.log 0).earliest) (by omega)
    refine .inr (.inr ⟨?_, fun hlag => hfits ⟨hlag.1, hlag.2.2⟩, hstart, source, ?_, hplace, ?_⟩)
    · rintro ⟨hpos, hne | ⟨-, -, hlt⟩⟩
      · exact hsame ⟨hpos, hne⟩
      · exact hahead hlt
    · rw [hidx₀, hskip]
      simp [ack, hgen]
    · rw [hidx, hidx₀]
      exact Nat.add_sub_of_le (le_max_right _ _)

/-- **The resume decision is exact and its seek never waits.** The answer is
`Diverged`, `Gap` or `SubscribeAck` each exactly under its condition. On an
acknowledgement, from any later moment on, polls yield the records of the log
from `start` on, each under its own index; one that yields nothing has nothing
left to send. -/
theorem resume_exact :
    ((∃ e hd, h.acceptSubscription c name fromIndex theirGeneration =
        .refused (.diverged name e hd)) ↔ h.Diverges fromIndex theirGeneration) ∧
    ((∃ e hd, h.acceptSubscription c name fromIndex theirGeneration =
        .refused (.gap name e hd)) ↔ h.Lags fromIndex theirGeneration) ∧
    (¬ h.Diverges fromIndex theirGeneration → ¬ h.Lags fromIndex theirGeneration →
      (h.log 0).earliest ≤ (h.ack c fromIndex).start ∧
      (h.ack c fromIndex).start ≤ (h.log 1).head ∧
      ∃ source, h.acceptSubscription c name fromIndex theirGeneration =
          .serving (h.ack c fromIndex) source ∧
        ∀ t n, 2 + ((h.ack c fromIndex).start - (h.log 0).earliest) ≤ t →
          (h.polls t source n).1.map RecordFrame.index =
            List.range' (h.ack c fromIndex).start (h.polls t source n).1.length ∧
          (∀ f ∈ (h.polls t source n).1, f.Of (h.log (t + n))) ∧
          (((h.polls t source n).2.tryNextFrame (h.log (t + n))).1 = none →
            (h.log (t + n)).head = (h.ack c fromIndex).start + (h.polls t source n).1.length)) := by
  rcases h.acceptSubscription_cases c name fromIndex theirGeneration with
    ⟨hdiv, hans⟩ | ⟨hlag, hans⟩ | ⟨hdiv, hlag, hstart, source, hans, hat, hidx⟩
  · have hnot : ¬ h.Lags fromIndex theirGeneration := by
      rintro ⟨-, hagree, hlt⟩
      rcases hdiv.2 with hne | ⟨-, hge, -⟩
      · exact hne hagree
      · omega
    simp [hans, hdiv, hnot]
  · have hnot : ¬ h.Diverges fromIndex theirGeneration := by
      rintro ⟨-, hne | ⟨-, hge, -⟩⟩
      · exact hne hlag.2.1
      · exact absurd hlag.2.2 (not_lt.mpr hge)
    simp [hans, hlag, hnot]
  · refine ⟨by simp [hans, hdiv], by simp [hans, hlag], fun _ _ => ?_⟩
    refine ⟨le_max_right _ _, hstart, source, hans, fun t n ht => ?_⟩
    have hstreams := polls_streams (hat.grown (h.grown ht)) n
    rw [hidx] at hstreams
    refine ⟨hstreams.indices, hstreams.records, fun hnone => ?_⟩
    rw [← hstreams.next]
    refine le_antisymm (head_le_of_poll_none hstreams.place hnone) ?_
    rw [← hstreams.place.index]
    exact hstreams.place.valid.index_le

end History

end XchannelNet
