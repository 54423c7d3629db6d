import XchannelNet.Channel.Replication
import XchannelNet.Wire.Framing
import XchannelNet.Wire.RoundTrip

/-!
# Inbound — a subscription applied a batch at a time

`StreamClient::run` blocks for one frame after the other and applies it. A
`ClientPollItem` does the same work in bounded batches over a connection that
never blocks, and may return at any point of a frame. Where an item is at any
moment is where the blocking client would be after as many records, so that
nothing has to be said twice: what holds of `run` holds of the polls.
-/

namespace XchannelNet

open Wire

/-! ## Blocking -/

/-- Why a subscription stops. -/
inductive StreamError where
  | io (kind : ErrorKind)
  | malformed (message : String)
  | gap (earliest : RecordIndex)
  | expectedRecord
  | sink (e : SinkError)
  deriving DecidableEq, Repr

/-- The frame of a message. -/
def RecordFrame.ofWire (f : Wire.RecordFrame) : RecordFrame :=
  ⟨f.index.toNat, f.msgType, f.userMeta, f.startsSegment, f.payload⟩

-- what the replica's writer fails at, by the index of the record
variable (fails : ℕ → Option WriterCall)

/-- What a received message does to the replica. -/
def ReplicationSink.receive (sink : ReplicationSink) (bytes : List UInt8) :
    Except StreamError Unit × ReplicationSink :=
  match decodeStream bytes with
  | .error e => (.error (.malformed e), sink)
  | .ok (.record _ frame) =>
    let (r, sink) := sink.applyOver (fails sink.expectedIndex) (.ofWire frame)
    (r.mapError .sink, sink)
  | .ok (.gap _ earliest _) => (.error (.gap earliest), sink)
  | .ok _ => (.error .expectedRecord, sink)

/-- A subscription after its handshake: what is to be read from the connection,
and where it goes. -/
structure StreamClient where
  transport : List UInt8
  sink : ReplicationSink
  head : ℕ

namespace StreamClient

/-- Receive and apply one record. -/
def recvOne (c : StreamClient) : Except StreamError Unit × StreamClient :=
  match recvFramed c.transport with
  | .error e => (.error (.io e), c)
  | .ok (bytes, transport) =>
    let (r, sink) := c.sink.receive fails bytes
    (r, { c with transport, sink })

theorem recvOne_length {c c' : StreamClient} (h : c.recvOne fails = (.ok (), c')) :
    c'.transport.length < c.transport.length := by
  rw [recvOne] at h
  split at h
  · cases h
  · rename_i hrecv
    obtain ⟨-, hc⟩ := Prod.mk.inj h
    rw [← hc]
    exact length_of_recvFramed hrecv

/-- Apply for as long as there is no failure; the failure, and the replica. -/
def run (c : StreamClient) : StreamError × ReplicationSink :=
  match _h : c.recvOne fails with
  | (.error e, c') => (e, c'.sink)
  | (.ok _, c') => run c'
termination_by c.transport.length
decreasing_by exact recvOne_length fails _h

/-- The client after `n` records. -/
def recvMany : ℕ → StreamClient → Except StreamError StreamClient
  | 0, c => .ok c
  | n + 1, c =>
    match c.recvOne fails with
    | (.error e, _) => .error e
    | (.ok _, c) => recvMany n c

variable {fails}

theorem run_error {c c' : StreamClient} {e : StreamError} (h : c.recvOne fails = (.error e, c')) :
    c.run fails = (e, c'.sink) := by
  rw [run]
  split <;> rename_i heq <;> rw [h] at heq <;> cases heq
  rfl

theorem run_ok {c c' : StreamClient} (h : c.recvOne fails = (.ok (), c')) :
    c.run fails = c'.run fails := by
  rw [run]
  split <;> rename_i heq <;> rw [h] at heq <;> cases heq
  rfl

theorem recvMany_add {m n : ℕ} {c c₁ c₂ : StreamClient} (h₁ : recvMany fails m c = .ok c₁)
    (h₂ : recvMany fails n c₁ = .ok c₂) : recvMany fails (m + n) c = .ok c₂ := by
  induction m generalizing c with
  | zero =>
      cases h₁
      rwa [Nat.zero_add]
  | succ m ih =>
      rw [Nat.add_right_comm, recvMany]
      rw [recvMany] at h₁
      rcases hone : c.recvOne fails with ⟨e | u, c'⟩
      · rw [hone] at h₁
        cases h₁
      · rw [hone] at h₁
        exact ih h₁

/-- However many records are applied first, it ends the same. -/
theorem run_recvMany {n : ℕ} {c c' : StreamClient} (h : recvMany fails n c = .ok c') :
    c.run fails = c'.run fails := by
  induction n generalizing c with
  | zero =>
      cases h
      rfl
  | succ n ih =>
      rw [recvMany] at h
      rcases hone : c.recvOne fails with ⟨e | u, c₁⟩
      · rw [hone] at h
        cases h
      · rw [hone] at h
        exact (run_ok hone).trans (ih h)

end StreamClient

/-! ## A batch at a time -/

/-- A subscription being applied into its replica. -/
structure ClientPollItem where
  conn : FramedConn
  sink : ReplicationSink
  head : ℕ

namespace ClientPollItem

/-- Take over a connection of which the handshake is over. -/
def adopt (client : StreamClient) (arrivals : List Wire.Arrival) : ClientPollItem :=
  ⟨.new ⟨client.transport, arrivals⟩, client.sink, client.head⟩

/-- Apply up to as many records as are left of the batch; how many it were. -/
def poll : ℕ → ClientPollItem → Except StreamError ℕ × ClientPollItem
  | 0, item => (.ok 0, item)
  | n + 1, item =>
    match item.conn.tryRecvFrame with
    | (.error e, conn) => (.error (.io e), { item with conn })
    | (.ok none, conn) => (.ok 0, { item with conn })
    | (.ok (some bytes), conn) =>
      match item.sink.receive fails bytes with
      | (.error e, sink) => (.error e, { item with conn, sink })
      | (.ok _, sink) =>
        let (applied, item) := poll n { item with conn, sink }
        (applied.map (· + 1), item)

/-- Polls with these batch sizes, one after the other, up to the first that
fails; how many records were applied in all. -/
def polls : List ℕ → ClientPollItem → Except StreamError ℕ × ClientPollItem
  | [], item => (.ok 0, item)
  | batch :: batches, item =>
    match item.poll fails batch with
    | (.error e, item) => (.error e, item)
    | (.ok applied, item) =>
      let (more, item) := polls batches item
      (more.map (applied + ·), item)

/-- The blocking client in the place of the item. -/
def client (item : ClientPollItem) : StreamClient := ⟨item.conn.rest, item.sink, item.head⟩

/-- What is still to come, of bytes and of waiting for them. -/
def todo (item : ClientPollItem) : ℕ := item.conn.rest.length + item.conn.socket.arrivals.length

variable {fails}

/-- One frame of a poll: the connection fails as the blocking one does, there
is nothing for now, or it is the frame the blocking client would receive. -/
theorem tryRecvFrame_cases (item : ClientPollItem) :
    (∃ e conn, item.conn.tryRecvFrame = (.error e, conn) ∧
      item.client.recvOne fails = (.error (.io e), item.client)) ∨
    (∃ conn, item.conn.tryRecvFrame = (.ok none, conn) ∧
      ({ item with conn } : ClientPollItem).client = item.client ∧
      ({ item with conn } : ClientPollItem).todo < item.todo) ∨
    ∃ bytes conn, item.conn.tryRecvFrame = (.ok (some bytes), conn) ∧
      ∀ r sink, item.sink.receive fails bytes = (r, sink) →
        item.client.recvOne fails = (r, ({ item with conn, sink } : ClientPollItem).client) ∧
        ({ item with conn, sink } : ClientPollItem).todo < item.todo := by
  have hout := item.conn.tryRecvFrame_outcome
  rcases hr : item.conn.tryRecvFrame with ⟨r, conn⟩
  rw [hr] at hout
  rcases hout with ⟨e, rfl, he⟩ | ⟨rfl, hrest, harr⟩ | ⟨bytes, rfl, hf, harr⟩
  · refine .inl ⟨e, conn, rfl, ?_⟩
    simp only [StreamClient.recvOne, client, he]
  · refine .inr (.inl ⟨conn, rfl, by simp only [client, hrest], ?_⟩)
    dsimp only at hrest harr
    simp only [todo, hrest]
    omega
  · refine .inr (.inr ⟨bytes, conn, rfl, fun r sink hs => ⟨?_, ?_⟩⟩)
    · simp only [StreamClient.recvOne, client, hf, hs]
    · have hlen := length_of_recvFramed hf
      dsimp only at hlen harr
      simp only [todo]
      omega

/-- **One poll.** It applies what the blocking client would, up to its batch,
and where it fails so does the blocking client, over the same replica. If it
may do something it does, or waits something out. -/
theorem poll_spec (n : ℕ) (item : ClientPollItem) :
    (∃ k item', item.poll fails n = (.ok k, item') ∧
      item.client.recvMany fails k = .ok item'.client ∧
      item'.todo ≤ item.todo ∧ (0 < n → item'.todo < item.todo)) ∨
    ∃ e item', item.poll fails n = (.error e, item') ∧
      item.client.run fails = (e, item'.sink) := by
  induction n generalizing item with
  | zero => exact .inl ⟨0, item, rfl, rfl, le_rfl, nofun⟩
  | succ n ih =>
      rw [poll]
      rcases item.tryRecvFrame_cases with ⟨e, conn, hr, hone⟩ | ⟨conn, hr, hsame, hlt⟩ |
        ⟨bytes, conn, hr, hrecv⟩
      · rw [hr]
        exact .inr ⟨_, _, rfl, StreamClient.run_error hone⟩
      · rw [hr]
        exact .inl ⟨0, _, rfl, by rw [hsame]; rfl, hlt.le, fun _ => hlt⟩
      · rw [hr]
        dsimp only
        rcases hs : item.sink.receive fails bytes with ⟨e | u, sink⟩
        · exact .inr ⟨_, _, rfl, StreamClient.run_error (hrecv _ _ hs).1⟩
        · obtain ⟨hone, hlt⟩ := hrecv _ _ hs
          dsimp only
          rcases ih { item with conn, sink } with ⟨k, item', hp, hmany, hle, -⟩ |
            ⟨e, item', hp, hrun⟩
          · rw [hp]
            refine .inl ⟨k + 1, item', rfl, ?_, by omega, fun _ => by omega⟩
            rw [StreamClient.recvMany, hone]
            exact hmany
          · rw [hp]
            exact .inr ⟨e, item', rfl, (StreamClient.run_ok hone).trans hrun⟩

theorem polls_spec (batches : List ℕ) (item : ClientPollItem) :
    (∃ k item', item.polls fails batches = (.ok k, item') ∧
      item.client.recvMany fails k = .ok item'.client ∧
      ((∀ b ∈ batches, 0 < b) → item'.todo + batches.length ≤ item.todo)) ∨
    ∃ e item', item.polls fails batches = (.error e, item') ∧
      item.client.run fails = (e, item'.sink) := by
  induction batches generalizing item with
  | nil => exact .inl ⟨0, item, rfl, rfl, fun _ => le_rfl⟩
  | cons batch batches ih =>
      rw [polls]
      rcases item.poll_spec batch with ⟨k, item₁, hp, hmany, -, hlt⟩ | ⟨e, item₁, hp, hrun⟩
      · rw [hp]
        dsimp only
        rcases ih item₁ with ⟨k', item', hps, hmany', htodo⟩ | ⟨e, item', hps, hrun⟩
        · rw [hps]
          refine .inl ⟨k + k', item', rfl, StreamClient.recvMany_add hmany hmany', fun hpos => ?_⟩
          have hfirst := hlt (hpos batch List.mem_cons_self)
          have hrest := htodo fun b hb => hpos b (List.mem_cons_of_mem _ hb)
          rw [List.length_cons]
          omega
        · rw [hps]
          exact .inr ⟨e, item', rfl, (StreamClient.run_recvMany hmany).trans hrun⟩
      · rw [hp]
        exact .inr ⟨e, item₁, rfl, hrun⟩

/-- **The polled client refines the blocking one.** Over any bytes, however
they arrive and whatever the replica's writer fails at, any batches leave the item
where the blocking client is after as many records; if a poll fails, the blocking
client fails with the same error over the same replica; and polls that may apply a
record each come to that failure. -/
theorem polls_refine_run (fails : ℕ → Option WriterCall) (stream : StreamClient)
    (arrivals : List Wire.Arrival) (batches : List ℕ) :
    (∀ k item', (adopt stream arrivals).polls fails batches = (.ok k, item') →
      stream.recvMany fails k = .ok item'.client) ∧
    (∀ e item', (adopt stream arrivals).polls fails batches = (.error e, item') →
      stream.run fails = (e, item'.sink)) ∧
    ((∀ b ∈ batches, 0 < b) → stream.transport.length + arrivals.length < batches.length →
      ∃ e item', (adopt stream arrivals).polls fails batches = (.error e, item')) := by
  have hclient : (adopt stream arrivals).client = stream := rfl
  have htodo₀ : (adopt stream arrivals).todo = stream.transport.length + arrivals.length := rfl
  rcases @polls_spec fails batches (adopt stream arrivals) with ⟨k, item, hp, hmany, htodo⟩ |
    ⟨e, item, hp, hrun⟩
  · refine ⟨fun k' item' h => ?_, fun e item' h => ?_, fun hpos hlen => ?_⟩
    · rw [hp] at h
      cases h
      exact hclient ▸ hmany
    · rw [hp] at h
      cases h
    · have := htodo hpos
      omega
  · refine ⟨fun k' item' h => ?_, fun e' item' h => ?_, fun _ _ => ⟨e, item, hp⟩⟩
    · rw [hp] at h
      cases h
    · rw [hp] at h
      cases h
      exact hclient ▸ hrun

end ClientPollItem

end XchannelNet
