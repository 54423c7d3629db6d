import XchannelNet.Channel.Subscription

/-!
# Replica safety

A replica is a window of ONE log, and stays so along every run. The proof
rests on two facts that do not mention the handshake's refusals at all:
whatever is in flight on a connection is a record of the log that connection
was opened on, at the index it claims; and the sink only ever takes the
frame at its own head. The incarnation check is what ties a reopened replica
to the log it is being extended from, so the invariant needs incarnations to
tell the logs of the store apart.
-/

namespace XchannelNet

/-! ## What the subscriber holds -/

/-- The replica is a window of a log of its own incarnation. -/
def ReplicaOf (store : List Log) (r : Log) (o : ℕ) : Prop :=
  ∃ l, store[o]? = some l ∧ r.generation = l.generation ∧ r.IsWindowOf l.toSegLog

/-- A live connection is to a log of the store, its source is positioned in
it and everything in flight is a record of it. -/
structure ConnectedTo (store : List Log) (o : ℕ) (source : Option ReplicationSource)
    (wire : List RecordFrame) (l : Log) : Prop where
  log : store[o]? = some l
  source : ∀ src, source = some src → src.At l
  wire : ∀ f ∈ wire, f.Of l

/-- What each phase of a connection guarantees. -/
def PhaseInv {P : Type*} (store : List Log) (replica : Option Log) : Phase P → Prop
  | .idle | .asked .. | .refused _ => True
  | .opened o _ _ source earliest =>
    ∃ l, ConnectedTo store o (some source) [] l ∧ source.nextIndex = earliest ∧
      l.genesis ≤ earliest ∧ earliest ≤ l.head
  | .accepted o ack source wire =>
    ∃ l, ConnectedTo store o source wire l ∧ ack.generation = l.generation ∧
      l.genesis ≤ ack.start ∧ ack.start ≤ l.head
  | .streaming o source wire expectedIndex =>
    ∃ l r, ConnectedTo store o source wire l ∧ replica = some r ∧
      r.generation = l.generation ∧ expectedIndex = r.head

structure SubInv {P : Type*} (store : List Log) (s : Subscriber P) : Prop where
  replica : ∀ r, s.replica = some r → ∃ o, ReplicaOf store r o
  phase : PhaseInv store s.replica s.phase

/-- No two logs of the store carry one incarnation. -/
def UniqueGenerations (store : List Log) : Prop :=
  ∀ (i j : ℕ) (li lj : Log), store[i]? = some li → store[j]? = some lj →
    li.generation = lj.generation → i = j

/-- Every log of the one store is in the other, perhaps grown. -/
def StoreLe (store store' : List Log) : Prop :=
  ∀ (o : ℕ) (l : Log), store[o]? = some l → ∃ l', store'[o]? = some l' ∧ (l' = l ∨ l.Grows l')

section Growth

variable {P : Type*} {store store' : List Log}

theorem StoreLe.set {store : List Log} {o : ℕ} {l l' : Log} (hl : store[o]? = some l)
    (hg : l.Grows l') : StoreLe store (store.set o l') := by
  intro i li hi
  by_cases hio : i = o
  · subst hio
    rw [hl] at hi
    cases hi
    have hlt : i < store.length := (List.getElem?_eq_some_iff.mp hl).1
    exact ⟨l', by simp [hlt], .inr hg⟩
  · exact ⟨li, by rw [List.getElem?_set_ne (Ne.symm hio)]; exact hi, .inl rfl⟩

theorem ReplicaOf.mono {r : Log} {o : ℕ} (h : ReplicaOf store r o)
    (hle : StoreLe store store') : ReplicaOf store' r o := by
  obtain ⟨l, hl, hgen, hwin⟩ := h
  obtain ⟨l', hl', rfl | hg⟩ := hle o l hl
  · exact ⟨l', hl', hgen, hwin⟩
  · exact ⟨l', hl', hgen.trans hg.generation.symm, hwin.grow hg.records⟩

theorem ConnectedTo.mono {o : ℕ} {source : Option ReplicationSource} {wire : List RecordFrame}
    {l : Log} (h : ConnectedTo store o source wire l) (hle : StoreLe store store') :
    ∃ l', ConnectedTo store' o source wire l' ∧ l'.generation = l.generation ∧
      l'.genesis = l.genesis ∧ l.head ≤ l'.head := by
  obtain ⟨l', hl', rfl | hg⟩ := hle o l h.log
  · exact ⟨l', ⟨hl', h.source, h.wire⟩, rfl, rfl, le_rfl⟩
  · exact ⟨l', ⟨hl', fun src hs => (h.source src hs).grows hg,
      fun f hf => (h.wire f hf).grows hg⟩, hg.generation, hg.records.genesis_eq,
      hg.records.head_le⟩

/-- Logs may grow, and new ones appear, under a subscriber's feet. -/
theorem SubInv.mono {s : Subscriber P} (h : SubInv store s) (hle : StoreLe store store') :
    SubInv store' s where
  replica := by
    intro r hr
    obtain ⟨o, ho⟩ := h.replica r hr
    exact ⟨o, ho.mono hle⟩
  phase := by
    have hp := h.phase
    cases hph : s.phase with
    | idle => trivial
    | asked peer fromIndex generation => trivial
    | refused reply => trivial
    | opened o fromIndex generation source earliest =>
        rw [hph] at hp
        obtain ⟨l, hc, hidx, hge, hlt⟩ := hp
        obtain ⟨l', hc', -, hgs, hhd⟩ := hc.mono hle
        exact ⟨l', hc', hidx, hgs.trans_le hge, hlt.trans hhd⟩
    | accepted o ack source wire =>
        rw [hph] at hp
        obtain ⟨l, hc, hgen, hge, hlt⟩ := hp
        obtain ⟨l', hc', hgn, hgs, hhd⟩ := hc.mono hle
        exact ⟨l', hc', hgen.trans hgn.symm, hgs.trans_le hge, hlt.trans hhd⟩
    | streaming o source wire expectedIndex =>
        rw [hph] at hp
        obtain ⟨l, r, hc, hr, hgen, hexp⟩ := hp
        obtain ⟨l', hc', hgn, -, -⟩ := hc.mono hle
        exact ⟨l', r, hc', hr, hgen.trans hgn.symm, hexp⟩

end Growth

section Steps

variable {P : Type*} {name : ChannelName} {m : Mesh P} {s s' : Subscriber P}

theorem ConnectedTo.send {store : List Log} {o : ℕ} {source : ReplicationSource}
    {wire : List RecordFrame} {l : Log} (h : ConnectedTo store o (some source) wire l) :
    ConnectedTo store o (some (source.tryNextFrame l).2)
      (wire ++ (source.tryNextFrame l).1.toList) l := by
  obtain ⟨hat, -, hframe⟩ := (h.source source rfl).tryNextFrame
  refine ⟨h.log, ?_, ?_⟩
  · intro src hs
    cases hs
    exact hat
  · intro f hf
    rcases List.mem_append.mp hf with hf | hf
    · exact h.wire f hf
    · exact (hframe f (Option.mem_toList.mp hf)).2.1

theorem ConnectedTo.cut {store : List Log} {o : ℕ} {source : Option ReplicationSource}
    {wire : List RecordFrame} {l : Log} (h : ConnectedTo store o source wire l) (k : ℕ) :
    ConnectedTo store o none (wire.take k) l :=
  ⟨h.log, by simp, fun f hf => h.wire f (List.mem_of_mem_take hf)⟩

/-- A step that leaves the replica alone keeps the invariant if it keeps the
phase's part of it. -/
theorem SubInv.enter {store : List Log} (h : SubInv store s) {phase : Phase P}
    (hp : PhaseInv store s.replica phase) : SubInv store (s.enter phase) :=
  ⟨h.replica, hp⟩

/-- Opening the sink: a fresh replica is an empty window of the log the
connection is to, a reopened one is of that log's incarnation. -/
theorem SubInv.openSink {store : List Log} (h : SubInv store s) {o : ℕ} {ack : SubscribeAck}
    {source : Option ReplicationSource} {wire : List RecordFrame} {sink : ReplicationSink}
    (hp : s.phase = .accepted o ack source wire)
    (hsub : subscribe name s.replica (.subscribeAck name ack) = .ok sink) :
    SubInv store (⟨some sink.writer, .streaming o source wire sink.expectedIndex⟩ :
      Subscriber P) := by
  have hph := h.phase
  rw [hp] at hph
  obtain ⟨l, hc, hgen, hge, hle⟩ := hph
  have hopen : ReplicationSink.open (ack.config name) s.replica = .ok sink := by
    simp only [subscribe] at hsub
    split at hsub
    · rename_i hok
      cases hsub
      exact hok
    · cases hsub
  obtain ⟨hexp, hwgen, hdisk⟩ := ReplicationSink.open_ok hopen
  refine ⟨?_, l, sink.writer, hc, rfl, hwgen.trans hgen, hexp⟩
  intro r hr
  cases hr
  rcases hdisk with ⟨-, hempty⟩ | hsome
  · refine ⟨o, l, hc.log, hwgen.trans hgen, ?_⟩
    rw [hempty]
    exact SegLog.IsWindowOf.empty hge hle
  · exact h.replica _ hsome

/-- Applying a frame: the replica is of the connection's incarnation, hence
of its log, and the frame is that log's record at the replica's head. -/
theorem SubInv.apply {store : List Log} (huniq : UniqueGenerations store) (h : SubInv store s)
    {o : ℕ} {source : Option ReplicationSource} {f : RecordFrame} {wire : List RecordFrame}
    {expectedIndex : ℕ} {r : Log} {sink : ReplicationSink}
    (hp : s.phase = .streaming o source (f :: wire) expectedIndex)
    (hr : s.replica = some r) (happ : ReplicationSink.apply ⟨r, expectedIndex⟩ f = .ok sink) :
    SubInv store (⟨some sink.writer, .streaming o source wire sink.expectedIndex⟩ :
      Subscriber P) := by
  have hph := h.phase
  rw [hp] at hph
  obtain ⟨l, r', hc, hr', hgen, hexp⟩ := hph
  obtain rfl : r = r' := Option.some.inj (hr.symm.trans hr')
  obtain ⟨hidx, hexp', hw⟩ := ReplicationSink.apply_ok happ
  obtain ⟨o', l', hl', hgen', hwin⟩ := h.replica r hr
  obtain rfl : o' = o := huniq o' o l' l hl' hc.log (hgen'.symm.trans hgen)
  obtain rfl : l' = l := Option.some.inj (hl'.symm.trans hc.log)
  have hof : l'.get? r.head = some f.record := by
    have := hc.wire f (by simp)
    rwa [RecordFrame.Of, hidx, hexp] at this
  have hnew : sink.writer.generation = r.generation ∧ sink.writer.head = r.head + 1 ∧
      sink.writer.IsWindowOf l'.toSegLog := by
    rcases hw with hw | hw
    · rw [hw]
      exact ⟨rfl, SegLog.head_append _ _, hwin.append hof⟩
    · rw [hw]
      refine ⟨rfl, ?_, hwin.roll.append ?_⟩
      · exact (SegLog.head_append _ _).trans (by rw [Log.rollFile, SegLog.head_roll])
      · rw [SegLog.head_roll]
        exact hof
  obtain ⟨hwgen, hwhead, hwwin⟩ := hnew
  refine ⟨?_, l', sink.writer, ⟨hl', hc.source, fun g hg => hc.wire g (by simp [hg])⟩, rfl,
    hwgen.trans hgen, ?_⟩
  · intro r₂ hr₂
    cases hr₂
    exact ⟨o', l', hl', hwgen.trans hgen, hwwin⟩
  · rw [hexp', hwhead]
    exact congrArg (· + 1) hexp

theorem SubInv.replaced {store : List Log} (h : SubInv store s) {r r' : Log}
    (hr : s.replica = some r) (hgen : r'.generation = r.generation) (hhead : r'.head = r.head)
    (hwin : ∀ l, r.IsWindowOf l → r'.IsWindowOf l) :
    SubInv store { s with replica := some r' } where
  replica := by
    intro r₂ hr₂
    cases hr₂
    obtain ⟨o, l, hl, hg, hw⟩ := h.replica r hr
    exact ⟨o, l, hl, hgen.trans hg, hwin _ hw⟩
  phase := by
    have hp := h.phase
    simp only
    cases hph : s.phase with
    | streaming o source wire expectedIndex =>
        rw [hph] at hp
        obtain ⟨l, r₂, hc, hr₂, hg, hexp⟩ := hp
        obtain rfl : r = r₂ := Option.some.inj (hr.symm.trans hr₂)
        exact ⟨l, r', hc, rfl, hgen.trans hg, hexp.trans hhead.symm⟩
    | _ =>
        rw [hph] at hp
        exact hp

/-- **Every step of a subscriber keeps the replica a window of one log**, as
long as incarnations tell the logs of the store apart. -/
theorem SubInv.step (huniq : UniqueGenerations m.store) (h : SubInv m.store s)
    (hs : SubStep name m s s') : SubInv m.store s' := by
  cases hs with
  | ask peer regionSize hidle hres => exact h.enter trivial
  | @openSource peer fromIndex generation o l hp hserve hl =>
      refine h.enter ⟨l, ⟨hl, ?_, by simp⟩, rfl, l.genesis_le_earliest, l.earliest_le_head⟩
      intro src hsrc
      cases hsrc
      exact ReplicationSource.open_at l
  | refuse hp hl hans => exact h.enter trivial
  | @accept o fromIndex generation source earliest l c ack source' hp hl hans =>
      have hph := h.phase
      rw [hp] at hph
      obtain ⟨l', hc, hidx, hge, hle⟩ := hph
      obtain rfl : l = l' := Option.some.inj (hl.symm.trans hc.log)
      obtain ⟨hgen, hstart, hhead, hat, -⟩ :=
        answerSubscription_serving (hc.source source rfl) hidx hle hans
      refine h.enter ⟨l, ⟨hl, ?_, by simp⟩, hgen, ?_, hhead⟩
      · intro src hsrc
        cases hsrc
        exact hat
      · rw [hstart]
        exact hge.trans (le_max_right _ _)
  | @sendEarly o ack source wire l hp hl =>
      have hph := h.phase
      rw [hp] at hph
      obtain ⟨l', hc, hrest⟩ := hph
      obtain rfl : l = l' := Option.some.inj (hl.symm.trans hc.log)
      exact h.enter ⟨l, hc.send, hrest⟩
  | @send o source wire expectedIndex l hp hl =>
      have hph := h.phase
      rw [hp] at hph
      obtain ⟨l', r, hc, hrest⟩ := hph
      obtain rfl : l = l' := Option.some.inj (hl.symm.trans hc.log)
      exact h.enter ⟨l, r, hc.send, hrest⟩
  | openSink hp hsub => exact h.openSink hp hsub
  | rebuild hp hsub => exact ⟨by simp, trivial⟩
  | apply hp hr happ => exact h.apply huniq hp hr happ
  | @cutEarly o ack source wire k hp =>
      have hph := h.phase
      rw [hp] at hph
      obtain ⟨l, hc, hrest⟩ := hph
      exact h.enter ⟨l, hc.cut k, hrest⟩
  | @cut o source wire expectedIndex k hp =>
      have hph := h.phase
      rw [hp] at hph
      obtain ⟨l, r, hc, hrest⟩ := hph
      exact h.enter ⟨l, r, hc.cut k, hrest⟩
  | drop => exact h.enter trivial
  | rollReplica hr =>
      exact h.replaced hr rfl (SegLog.head_roll _) (fun _ hw => hw.roll)
  | pruneReplica k hr =>
      exact h.replaced hr rfl (SegLog.head_prune _ k) (fun _ hw => hw.prune k)

end Steps

/-! ## One origin log -/

/-- One origin, one subscriber. -/
structure OneOrigin where
  origin : Log
  sub : Subscriber Unit

namespace OneOrigin

/-- Every attempt meets the origin, whatever region size the registry says. -/
def mesh (w : OneOrigin) : Mesh Unit where
  store := [w.origin]
  resolve := fun _ _ => True
  serving := fun _ => some 0

/-- The origin grows, or the subscriber takes a step against it. -/
inductive Step (name : ChannelName) : OneOrigin → OneOrigin → Prop
  | origin {w : OneOrigin} {l : Log} (hg : w.origin.Grows l) : Step name w { w with origin := l }
  | subscriber {w : OneOrigin} {sub : Subscriber Unit} (hs : SubStep name w.mesh w.sub sub) :
      Step name w { w with sub }

/-- No replica yet, and no connection. -/
def Init (w : OneOrigin) : Prop := w.sub = ⟨none, .idle⟩

theorem subInv_init {w : OneOrigin} (h : w.Init) : SubInv [w.origin] w.sub := by
  rw [h]
  exact ⟨by simp, trivial⟩

theorem uniqueGenerations_singleton (l : Log) : UniqueGenerations [l] := by
  intro i j li lj hi hj _
  have hi' := (List.getElem?_eq_some_iff.mp hi).1
  have hj' := (List.getElem?_eq_some_iff.mp hj).1
  simp only [List.length_cons, List.length_nil] at hi' hj'
  omega

theorem subInv_step {name : ChannelName} {w w' : OneOrigin} (h : SubInv [w.origin] w.sub)
    (hs : Step name w w') : SubInv [w'.origin] w'.sub := by
  cases hs with
  | origin hg => exact h.mono (StoreLe.set (o := 0) rfl hg)
  | subscriber hs => exact SubInv.step (m := w.mesh) (uniqueGenerations_singleton _) h hs

/-- **Replica safety**: along every run the replica holds a contiguous run of
the origin's records, each at its own index, and is never ahead of it. -/
theorem replica_safe {name : ChannelName} {w : OneOrigin}
    (h : Run.Reachable Init (Step name) w) {r : Log} (hr : w.sub.replica = some r) :
    r.head ≤ w.origin.head ∧ ∃ base n,
      r.contents.map (fun x => (x.2, some x.1)) =
        (List.range' base n).map (fun i => (i, w.origin.get? i)) := by
  have hinv : SubInv [w.origin] w.sub :=
    h.invariant (fun _ h0 => subInv_init h0) (fun _ _ hi hs => subInv_step hi hs)
  obtain ⟨o, l, hl, -, hwin⟩ := hinv.replica r hr
  obtain ⟨ho, hlo⟩ := List.getElem?_eq_some_iff.mp hl
  have hlw : l = w.origin := by
    simp only [List.length_cons, List.length_nil] at ho
    obtain rfl : o = 0 := by omega
    exact hlo.symm
  subst hlw
  exact ⟨hwin.head_le, _, _, hwin.contents_eq⟩

/-- An origin of two segments, the first one pruned. -/
def sampleOrigin : Log where
  genesis := 0
  closed := [[⟨1, 0, [10]⟩]]
  current := [⟨1, 0, [11]⟩, ⟨2, 7, [12]⟩]
  pruned := 1
  pruned_le := by decide
  name := "c"
  generation := 3
  regionSize := 4096

def sampleChannel : ChannelSource := ⟨4096, 0, 0, 0⟩

theorem replica_safe_sample : ∃ w : OneOrigin, ∃ r : Log,
    Run.Reachable Init (Step "c") w ∧ w.sub.replica = some r ∧
    r.contents = [((⟨1, 0, [11]⟩ : Record), 1)] ∧ r.head ≤ w.origin.head := by
  have h₀ : Run.Reachable Init (Step "c") ⟨sampleOrigin, ⟨none, .idle⟩⟩ := .start rfl
  have h₁ := h₀.next (.subscriber (.ask () 4096 rfl trivial))
  have h₂ := h₁.next (.subscriber (.openSource rfl rfl rfl))
  have h₃ := h₂.next (.subscriber (.accept (c := sampleChannel) rfl rfl rfl))
  have h₄ := h₃.next (.subscriber (.sendEarly rfl rfl))
  have h₅ := h₄.next (.subscriber (.openSink rfl rfl))
  have h₆ := h₅.next (.subscriber (.apply rfl rfl rfl))
  exact ⟨_, _, h₆, rfl, by decide, (replica_safe h₆ rfl).1⟩

end OneOrigin

end XchannelNet
