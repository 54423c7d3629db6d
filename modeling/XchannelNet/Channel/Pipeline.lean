import XchannelNet.Channel.Ends
import XchannelNet.Lib.Run

/-!
# Pipeline — a record on its way from the origin's log to the replica

The server's poll item, the bytes on the connection and the client's poll item,
each moving on its own: the server in batches over a socket that takes what it
likes, the client in batches over reads that stop anywhere, and the origin's
writer between any two looks at the log. A look at the log may fail, the
connection may break and so may the writer of the replica. The two items meet in
the byte stream alone. What it says is kept in `Inv`: some of the frames the server
has sent, all of them whole, and behind these the bytes the client has not consumed.
-/

namespace XchannelNet

open Wire

/-! ## Both ends -/

/-- What is not up to the two items: the origin's log, what the server's looks at it fail
with, and what the writer of the replica fails at, by the index of the record. -/
structure Surroundings extends History where
  readFails : ℕ → SegLog.Reader → Option ErrorKind
  writeFails : ℕ → Option WriterCall

/-- A subscription under way: the two items, whether the server's end is gone,
whether the connection is broken, and what the client has failed with. -/
structure Pipeline where
  server : ServerPollItem
  client : ClientPollItem
  closed : Bool
  broken : Bool
  failed : Option StreamError

namespace Pipeline

inductive Action where
  /-- The duty cycle of the server, over a socket that makes this of its writes. -/
  | serve (batch : ℕ) (uptakes : List Uptake)
  /-- The server is gone, with what was still in its outbox. -/
  | close
  /-- The connection breaks: a read that would wait for bytes fails from now on. -/
  | cut
  /-- The duty cycle of the client, over a socket that is read by this schedule. -/
  | receive (batch : ℕ) (arrivals : List Wire.Arrival)

/-- What the socket takes is on its way; a poll that fails drops the item. -/
def serve (env : Surroundings) (batch : ℕ) (uptakes : List Uptake) (p : Pipeline) : Pipeline :=
  let (r, server) := (p.server.facing uptakes).poll env.readFails env.toHistory batch
  let bytes := server.conn.socket.taken.drop p.server.conn.socket.taken.length
  { p with
    server
    client := p.client.facing bytes p.client.conn.socket.arrivals
    closed := r.toBool.not }

/-- A connection that is open has no end of the stream. A poll that applies less than its
batch has come to a read that would block, and over a broken connection fails there. -/
def receive (env : Surroundings) (batch : ℕ) (arrivals : List Wire.Arrival) (p : Pipeline) :
    Pipeline :=
  let reads :=
    if p.closed then arrivals else Wire.Arrival.opened arrivals p.client.conn.socket.stream.length
  match (p.client.facing [] reads).poll env.writeFails batch with
  | (.error e, client) => { p with client, failed := some e }
  | (.ok applied, client) =>
    { p with
      client
      failed := if p.broken ∧ applied < batch then some (.io .connectionReset) else p.failed }

def perform (env : Surroundings) (p : Pipeline) : Action → Pipeline
  | .serve batch uptakes => if p.closed then p else p.serve env batch uptakes
  | .close => { p with closed := true }
  | .cut => { p with broken := true }
  | .receive batch arrivals => if p.failed.isSome then p else p.receive env batch arrivals

/-- The two items as they are adopted after the handshake. -/
def adopt (source : ReplicationSource) (limit : ℕ) (sink : ReplicationSink) (head : ℕ) :
    Pipeline :=
  ⟨.adopt ⟨[], []⟩ source limit, .adopt ⟨[], sink, head⟩ [], false, false, none⟩

/-! ## What they keep -/

/-- What the client may fail with: the bytes end because the server is gone, the connection is
broken, or the writer of the replica has failed. It is never for what it was sent. -/
def Excuses (env : Surroundings) (p : Pipeline) (e : StreamError) : Prop :=
  e = .io .unexpectedEof ∧ p.closed = true ∨ e = .io .connectionReset ∧ p.broken = true ∨
    ∃ i call, env.writeFails i = some call ∧ e = .sink (.refused call)

/-- Where a run of the two items can be. `sent` is what the server has sent,
of which the client has applied the first `done`. -/
structure Inv (env : Surroundings) (start limit base : ℕ) (sent : List RecordFrame) (done : ℕ)
    (p : Pipeline) : Prop where
  wired : p.server.Wired env.toHistory start sent
  sends : p.closed = false → p.server.Sends env.toHistory start limit ∧ sent = p.server.frames
  done_le : done ≤ sent.length
  bytes : p.failed = none → p.server.conn.socket.taken =
    ((sent.take done).map RecordFrame.framed).flatten ++ p.client.conn.rest
  index : p.client.sink.expectedIndex = start + done
  replica : p.client.sink.Mirrors base (env.log p.server.clock)
  failed : ∀ e, p.failed = some e → p.Excuses env e

variable {env : Surroundings} {start limit base : ℕ} {p : Pipeline}

theorem inv_adopt {source : ReplicationSource} {sink : ReplicationSink} (head : ℕ)
    (hat : source.At (env.log 0)) (hsink : sink.Mirrors base (env.log 0))
    (hstart : sink.expectedIndex = source.nextIndex) :
    Inv env source.nextIndex limit base [] 0 (adopt source limit sink head) := by
  have hsends : (ServerPollItem.adopt ⟨[], []⟩ source limit).Sends env.toHistory
      source.nextIndex limit := ⟨ServerPollItem.forwards_adopt [] hat limit, nofun⟩
  exact ⟨hsends.wired, fun _ => ⟨hsends, rfl⟩, le_rfl, fun _ => rfl, hstart, hsink, nofun⟩

/-- What the client has not consumed belongs to the frames it has not applied. -/
theorem Inv.follows {sent : List RecordFrame} {done : ℕ} (hi : Inv env start limit base sent done p)
    (hindex : ∀ t, (env.log t).head ≤ 2 ^ 64) (hfailed : p.failed = none)
    (arrivals : List Wire.Arrival) :
    StreamClient.Follows base (env.log p.server.clock) (sent.drop done)
      (p.client.facing [] arrivals).client := by
  have hread := hi.wired.read
  have hframes := hi.wired.frames
  have hof : ∀ f ∈ sent, f.Of (env.log p.server.clock) := fun f hf => by
    have := hframes.records f (hread.mem hf)
    rwa [Nat.zero_add] at this
  have hindices : sent.map RecordFrame.index = List.range' start sent.length := by
    obtain ⟨more, hmore⟩ := hread
    have := hframes.indices
    rw [← hmore, List.map_append, List.length_append, ← List.range'_append_1] at this
    exact List.append_inj_left this (by simp)
  refine ⟨?_, ?_, fun f hf => hof f (List.mem_of_mem_drop hf),
    fun f hf => ⟨hi.wired.short f (List.mem_of_mem_drop hf), ?_⟩, hi.replica⟩
  · -- the socket took a part of the stream, which begins with what is applied
    have hstream : p.server.conn.socket.taken <+: (sent.map RecordFrame.framed).flatten := by
      rw [← hi.wired.stream]
      exact List.prefix_append _ _
    rw [hi.bytes hfailed] at hstream
    nth_rewrite 2 [← List.take_append_drop done sent] at hstream
    rw [List.map_append, List.flatten_append] at hstream
    simpa [ClientPollItem.client, ClientPollItem.facing] using
      (List.prefix_append_right_inj _).mp hstream
  · rw [List.map_drop, hindices, List.drop_range', List.length_drop]
    simp [ClientPollItem.client, ClientPollItem.facing, hi.index]
  · have hlt := (SegLog.get?_isSome_iff.mp ⟨_, hof f (List.mem_of_mem_drop hf)⟩).2
    exact hlt.trans_le (hindex _)

theorem Inv.serve {sent : List RecordFrame} {done : ℕ} (hi : Inv env start limit base sent done p)
    (hopen : p.closed = false) (batch : ℕ) (uptakes : List Uptake) :
    p.server.clock ≤ (p.serve env batch uptakes).server.clock ∧
      ∃ sent', Inv env start limit base sent' done (p.serve env batch uptakes) := by
  obtain ⟨hsends, hsent⟩ := hi.sends hopen
  obtain ⟨⟨bytes, htaken⟩, hclock, sent', hpre, hwired, hok⟩ :=
    @ServerPollItem.Sends.poll env.readFails _ _ _ _ (hsends.facing uptakes) batch
  rw [Pipeline.serve]
  rcases hpoll : (p.server.facing uptakes).poll env.readFails env.toHistory batch with ⟨r, server⟩
  rw [hpoll] at htaken hclock hwired hok
  dsimp only [ServerPollItem.facing, FramedOut.facing] at htaken hclock hpre hwired hok ⊢
  rw [← hsent] at hpre
  have htake : sent'.take done = sent.take done := by
    obtain ⟨more, rfl⟩ := hpre
    exact List.take_append_of_le_length hi.done_le
  refine ⟨hclock, sent', hwired, fun hclosed => ?_, hi.done_le.trans hpre.length_le,
    fun hfailed => ?_, hi.index, hi.replica.grown (env.grown hclock), fun e he => ?_⟩
  · cases r with
    | error e => cases hclosed
    | ok k => exact hok k rfl
  · dsimp only [ClientPollItem.facing]
    rw [FramedConn.rest_facing, ← htaken, List.drop_left, hi.bytes hfailed, htake,
      List.append_assoc]
  · rcases hi.failed e he with ⟨-, hclosed⟩ | hexcuse
    · rw [hopen] at hclosed
      cases hclosed
    · exact .inr hexcuse

theorem Inv.close {sent : List RecordFrame} {done : ℕ} (hi : Inv env start limit base sent done p) :
    Inv env start limit base sent done { p with closed := true } :=
  ⟨hi.wired, nofun, hi.done_le, hi.bytes, hi.index, hi.replica,
    fun e he => (hi.failed e he).imp_left fun h => ⟨h.1, rfl⟩⟩

theorem Inv.cut {sent : List RecordFrame} {done : ℕ} (hi : Inv env start limit base sent done p) :
    Inv env start limit base sent done { p with broken := true } :=
  ⟨hi.wired, hi.sends, hi.done_le, hi.bytes, hi.index, hi.replica,
    fun e he => (hi.failed e he).imp_right (Or.imp_left fun h => ⟨h.1, rfl⟩)⟩

theorem Inv.fail {sent : List RecordFrame} {done : ℕ} (hi : Inv env start limit base sent done p)
    {e : StreamError} (he : p.Excuses env e) :
    Inv env start limit base sent done { p with failed := some e } :=
  ⟨hi.wired, hi.sends, hi.done_le, nofun, hi.index, hi.replica, fun _ he' => by cases he'; exact he⟩

/-- What the client fails with over what it was sent. -/
theorem Inv.poll_error {sent : List RecordFrame} {done : ℕ}
    (hi : Inv env start limit base sent done p) (hindex : ∀ t, (env.log t).head ≤ 2 ^ 64)
    (hfailed : p.failed = none) {reads : List Wire.Arrival}
    (hreads : p.closed = false → Arrival.Blocks (fun _ => True) reads
      p.client.conn.socket.stream.length) {batch : ℕ} {e : StreamError} {client : ClientPollItem}
    (hpoll : (p.client.facing [] reads).poll env.writeFails batch = (.error e, client)) :
    (e = .io .unexpectedEof ∧ p.closed = true ∨
      ∃ i call, p.client.sink.expectedIndex ≤ i ∧ env.writeFails i = some call ∧
        e = .sink (.refused call)) ∧
    client.sink.Mirrors base (env.log p.server.clock) ∧
    ∃ n, done + n ≤ sent.length ∧
      client.sink.expectedIndex = p.client.sink.expectedIndex + n := by
  have hlen := hi.done_le
  rcases @ClientPollItem.poll_spec env.writeFails batch (p.client.facing [] reads) with
    ⟨k, client', hp, -⟩ | ⟨e', client', hp, hrun⟩
  · rw [hpoll] at hp
    cases hp
  · rw [hpoll] at hp
    cases hp
    obtain ⟨he, hmirrors, n, hn, hidx⟩ :=
      @StreamClient.Follows.run env.writeFails _ _ _ _ (hi.follows hindex hfailed reads)
    rw [hrun] at he hmirrors hidx
    rw [List.length_drop] at hn
    refine ⟨he.imp_left fun heof => ⟨heof, ?_⟩, hmirrors, n, by omega, hidx⟩
    -- bytes do not end as long as the server is there
    by_contra hopen
    have hblocks : (p.client.facing [] reads).conn.socket.Blocks fun _ => True := by
      simpa [Socket.Blocks, ClientPollItem.facing, FramedConn.facing] using
        hreads (Bool.eq_false_of_not_eq_true hopen)
    rcases @ClientPollItem.poll_blocks env.writeFails _ batch _ hblocks with
      ⟨k, item, hp, -⟩ | ⟨e', item, hp, hne⟩
    · rw [hpoll] at hp
      cases hp
    · rw [hpoll] at hp
      cases hp
      exact hne heof

theorem Inv.receive {sent : List RecordFrame} {done : ℕ}
    (hi : Inv env start limit base sent done p) (hindex : ∀ t, (env.log t).head ≤ 2 ^ 64)
    (hfailed : p.failed = none) (batch : ℕ) (arrivals : List Wire.Arrival) :
    ∃ done', done ≤ done' ∧ Inv env start limit base sent done' (p.receive env batch arrivals) := by
  rw [Pipeline.receive]
  generalize hreads : (if p.closed = true then arrivals
    else Wire.Arrival.opened arrivals p.client.conn.socket.stream.length) = reads
  have hblocks : p.closed = false → Arrival.Blocks (fun _ => True) reads
      p.client.conn.socket.stream.length := by
    intro hopen
    rw [← hreads, hopen]
    exact Wire.Arrival.opened_blocks _ _
  have hindex₀ := hi.index
  rcases hpoll : (p.client.facing [] reads).poll env.writeFails batch with ⟨e | k, client⟩
  · obtain ⟨he, hmirrors, n, hn, hidx⟩ := hi.poll_error hindex hfailed hblocks hpoll
    refine ⟨done + n, Nat.le_add_right _ _, hi.wired, hi.sends, hn, nofun, ?_, hmirrors,
      fun e' he' => ?_⟩
    · dsimp only
      omega
    · cases he'
      exact he.imp_right fun ⟨i, call, _, hcall⟩ => .inr ⟨i, call, hcall⟩
  · rcases @ClientPollItem.poll_spec env.writeFails batch (p.client.facing [] reads) with
      ⟨k', client', hp, hmany, -⟩ | ⟨e, client', hp, -⟩
    · rw [hpoll] at hp
      cases hp
      obtain ⟨hk, hbytes, hidx, hnext⟩ := (hi.follows hindex hfailed reads).recvMany hmany
      rw [List.length_drop] at hk
      have hle := hi.done_le
      have happlied : Inv env start limit base sent (done + k) { p with client } := by
        refine ⟨hi.wired, hi.sends, by omega, fun _ => ?_, ?_, hnext.replica, hi.failed⟩
        · simp only [ClientPollItem.client, ClientPollItem.facing, FramedConn.rest_facing,
            List.append_nil] at hbytes
          dsimp only
          rw [hi.bytes hfailed, hbytes, List.take_add, List.map_append, List.flatten_append,
            List.append_assoc]
        · simp only [ClientPollItem.client, ClientPollItem.facing] at hidx
          dsimp only
          omega
      refine ⟨done + k, Nat.le_add_right _ _, ?_⟩
      dsimp only
      split
      · rename_i hbreaks
        exact happlied.fail (.inr (.inl ⟨rfl, hbreaks.1⟩))
      · exact happlied
    · rw [hpoll] at hp
      cases hp

/-- The states the two items can be in after the handshake. -/
def Reachable (env : Surroundings) (source : ReplicationSource) (limit : ℕ) (sink : ReplicationSink)
    (head : ℕ) : Pipeline → Prop :=
  Run.Reachable (Eq (adopt source limit sink head)) fun p p' => ∃ a, p' = p.perform env a

/-- Some of what the server has sent is applied. -/
def Sound (env : Surroundings) (start limit base : ℕ) (p : Pipeline) : Prop :=
  ∃ sent done, Inv env start limit base sent done p

theorem Sound.perform (hindex : ∀ t, (env.log t).head ≤ 2 ^ 64) (a : Action)
    (hs : Sound env start limit base p) : Sound env start limit base (p.perform env a) := by
  obtain ⟨sent, done, hi⟩ := hs
  cases a with
  | serve batch uptakes =>
      rw [Pipeline.perform]
      split
      · exact ⟨sent, done, hi⟩
      · obtain ⟨-, sent', hi'⟩ := hi.serve (Bool.eq_false_of_not_eq_true ‹_›) batch uptakes
        exact ⟨sent', done, hi'⟩
  | close => exact ⟨sent, done, hi.close⟩
  | cut => exact ⟨sent, done, hi.cut⟩
  | receive batch arrivals =>
      rw [Pipeline.perform]
      split
      · exact ⟨sent, done, hi⟩
      · rename_i hnot
        obtain ⟨done', -, hi'⟩ :=
          hi.receive hindex (Option.not_isSome_iff_eq_none.mp hnot) batch arrivals
        exact ⟨sent, done', hi'⟩

section

variable {source : ReplicationSource} {sink : ReplicationSink} {head : ℕ}

theorem Reachable.sound (hindex : ∀ t, (env.log t).head ≤ 2 ^ 64) (hat : source.At (env.log 0))
    (hsink : sink.Mirrors base (env.log 0)) (hstart : sink.expectedIndex = source.nextIndex)
    (hp : Reachable env source limit sink head p) : Sound env source.nextIndex limit base p := by
  refine hp.invariant (fun p hinit => ?_) fun p p' hs hstep => ?_
  · rw [← hinit]
    exact ⟨[], 0, inv_adopt head hat hsink hstart⟩
  · obtain ⟨a, rfl⟩ := hstep
    exact hs.perform hindex a

/-- **End to end the replica is the origin's log.** However the server's polls,
the client's polls, partial writes, partial reads and the origin's writer
interleave, and whatever fails, the replica is at every moment a window of the
origin's log that begins where it began, up to the index the client expects next,
which the server has read past. The client fails with the end of the stream only
after the server's end is gone, with a broken connection only after it broke, or
because the writer of its own replica failed, and never for what it was sent. -/
theorem replica_end_to_end (hindex : ∀ t, (env.log t).head ≤ 2 ^ 64)
    (hat : source.At (env.log 0)) (hwindow : sink.writer.IsWindowOf (env.log 0).toSegLog)
    (hhead : sink.expectedIndex = sink.writer.head)
    (hstart : sink.expectedIndex = source.nextIndex)
    (hp : Reachable env source limit sink head p) :
    p.client.sink.writer.genesis = sink.writer.genesis ∧
    p.client.sink.writer.IsWindowOf (env.log p.server.clock).toSegLog ∧
    p.client.sink.writer.head = p.client.sink.expectedIndex ∧
    source.nextIndex ≤ p.client.sink.expectedIndex ∧
    p.client.sink.expectedIndex ≤ p.server.source.nextIndex ∧
    ∀ e, p.failed = some e →
      e = .io .unexpectedEof ∧ p.closed = true ∨ e = .io .connectionReset ∧ p.broken = true ∨
        ∃ i call, env.writeFails i = some call ∧ e = .sink (.refused call) := by
  obtain ⟨sent, done, hi⟩ := hp.sound hindex hat ⟨rfl, hwindow, hhead⟩ hstart
  have hnext := hi.wired.frames.next
  have hle := hi.done_le.trans hi.wired.read.length_le
  have hidx := hi.index
  exact ⟨hi.replica.based, hi.replica.window, hi.replica.expected.symm, by omega, by omega,
    hi.failed⟩

end

/-- Two records at the origin. -/
def origin : Log := .ofRecords "c" 0 [⟨1, 0, [7]⟩, ⟨2, 0, [8, 9]⟩]

/-- An empty replica. -/
def blank : ReplicationSink := ⟨.ofRecords "c" 0 [], 0⟩

/-- Nothing is written at the origin any more, and the writer of the replica fails at some
records. -/
def quiet (writeFails : ℕ → Option WriterCall) : Surroundings :=
  { History.still origin with readFails := fun _ _ => none, writeFails }

/-- A part of the first record is on its way, and is read. -/
def underWay (writeFails : ℕ → Option WriterCall) : Pipeline :=
  ((adopt (ReplicationSource.open origin).1 64 blank 2).perform (quiet writeFails)
    (.serve 1 [.bytes 9, .wouldBlock])).perform (quiet writeFails) (.receive 4 [.bytes 5])

/-- A writer that does not commit the second record. -/
def stubborn (i : ℕ) : Option WriterCall := if i = 1 then some .commit else none

/-- Both records are there, of which the writer takes the first only. -/
def refused : Pipeline :=
  ((underWay stubborn).perform (quiet stubborn) (.serve 8 [])).perform (quiet stubborn)
    (.receive 8 (List.replicate 100 (.bytes READ_CHUNK)))

theorem underWay_reachable (writeFails : ℕ → Option WriterCall) :
    Reachable (quiet writeFails) (ReplicationSource.open origin).1 64 blank 2
      (underWay writeFails) :=
  .next (.next (.start rfl) ⟨_, rfl⟩) ⟨_, rfl⟩

theorem blank_isWindowOf : blank.writer.IsWindowOf origin.toSegLog :=
  SegLog.IsWindowOf.empty (by decide) (by decide)

theorem replica_end_to_end_under_way :
    refused.client.sink.writer.IsWindowOf origin.toSegLog ∧ refused.client.sink.writer.head = 1 ∧
      refused.server.source.nextIndex = 2 ∧
      refused.failed = some (.sink (.refused .commit)) ∧ refused.closed = false := by
  have hreach : Reachable (quiet stubborn) (ReplicationSource.open origin).1 64 blank 2 refused :=
    .next (.next (underWay_reachable stubborn) ⟨_, rfl⟩) ⟨_, rfl⟩
  obtain ⟨-, hwindow, hhead, -, -, -⟩ := replica_end_to_end
    (fun _ => show origin.head ≤ 2 ^ 64 by decide) (ReplicationSource.open_at _) blank_isWindowOf
    rfl rfl hreach
  exact ⟨hwindow, hhead.trans (by decide +kernel), by decide +kernel, by decide +kernel,
    by decide +kernel⟩

/-! ## Catching up -/

section

variable {source : ReplicationSource} {sink : ReplicationSink} {head : ℕ}

end

end Pipeline

end XchannelNet
