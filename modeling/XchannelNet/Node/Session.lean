import XchannelNet.Lib.Run
import XchannelNet.Wire.Fitting

/-!
# Session — what a client of the daemon is answered

A client and the thread that serves it share a socket. The client writes a request
and waits for the reply; the daemon reads a request, carries it out and writes the
reply, until something fails. Each end may see any part of what the other has
written so far. Other threads of the daemon move on meanwhile.

What the operations themselves do is left open; here it is only what is done with
their results.
-/

namespace XchannelNet

open Wire

/-! ## The daemon's side -/

/-- The operations of a node behind `handle_request`. Errors are their texts. -/
structure Handlers (σ : Type) where
  createForClient : ChannelName → ChannelOptions → σ → Except String String × σ
  createTopic : ChannelName → TopicOptions → σ → Except String String × σ
  publishToTopic : ChannelName → ChannelName → ChannelOptions → σ → Except String String × σ
  /-- the path of a channel that is hosted here -/
  hosted : σ → ChannelName → Option String
  /-- the replica of a subscription that has not been stopped -/
  activeReplica : σ → ChannelName → Option String
  /-- with the milliseconds to wait, if there is a limit -/
  subscribe : ChannelName → Option UInt64 → σ → Except String String × σ
  deregister : ChannelName → σ → Except String Bool × σ
  retireSubscription : ChannelName → σ → σ
  listChannels : String → σ → Except String (List ChannelInfo × DiscoveryCursor) × σ
  forceDeregister : ChannelName → σ → Except String Bool × σ
  subscriptionStatus : σ → ChannelName → Option SubscriptionStatus

def createdOrError {σ : Type} : Except String String × σ → ClientReply × σ
  | (.ok path, s) => (.created path, s)
  | (.error message, s) => (.error message, s)

namespace Handlers

variable {σ : Type} (H : Handlers σ)

def handleRequest (s : σ) : ClientRequest → ClientReply × σ
  | .create name options => createdOrError (H.createForClient name options s)
  | .subscribe name waitMs =>
    match H.hosted s name with
    | some path => (.subscribed path, s)
    | none =>
      match H.activeReplica s name with
      | some path => (.subscribed path, s)
      | none =>
        match H.subscribe name (if waitMs ≠ 0 then some waitMs else none) s with
        | (.ok replicaPath, s) => (.subscribed replicaPath, s)
        | (.error message, s) => (.error message, s)
  | .createTopic name options => createdOrError (H.createTopic name options s)
  | .publishToTopic topic member options => createdOrError (H.publishToTopic topic member options s)
  | .deregister name =>
    match H.deregister name s with
    | (.ok existed, s) => (.deregistered existed, H.retireSubscription name s)
    | (.error message, s) => (.error message, s)
  | .listChannels namePrefix =>
    match H.listChannels namePrefix s with
    | (.ok (channels, cursor), s) => (.channels channels cursor, s)
    | (.error message, s) => (.error message, s)
  | .forceDeregister name =>
    match H.forceDeregister name s with
    | (.ok existed, s) => (.deregistered existed, s)
    | (.error message, s) => (.error message, s)
  | .subscriptionStatus name =>
    match H.subscriptionStatus s name with
    | some status => (.status status, s)
    | none => (.error ("channel '" ++ name ++ "' is neither hosted nor subscribed here"), s)

end Handlers

/-! ## The client's side -/

/-- A call of the client library. A wait is in microseconds. -/
inductive Call where
  | createChannel (name : ChannelName) (options : ChannelOptions)
  | createTopic (name : ChannelName) (options : TopicOptions)
  | publishToTopic (topic member : ChannelName) (options : ChannelOptions)
  | subscribePath (name : ChannelName) (wait : Option ℕ)
  | deregister (name : ChannelName)
  | listChannels (namePrefix : String)
  | forceDeregister (name : ChannelName)
  | subscriptionStatus (name : ChannelName)
  deriving DecidableEq, Repr

/-- What a call returns. For channels to be written, the path at which the writer
is opened. -/
inductive Outcome where
  | writerAt (path : String)
  | done
  | replicaAt (path : String)
  | existed (existed : Bool)
  | listed (channels : List ChannelInfo) (cursor : DiscoveryCursor)
  | health (status : SubscriptionStatus)
  | rpcError (message : String)
  | unexpected
  | undecodable (message : String)
  | io
  deriving DecidableEq, Repr

namespace Call

def request : Call → ClientRequest
  | .createChannel name options => .create name options
  | .createTopic name options => .createTopic name options
  | .publishToTopic topic member options => .publishToTopic topic member options
  | .subscribePath name wait => .subscribe name ((wait.map fun d => UInt64.ofNat (d / 1000)).getD 0)
  | .deregister name => .deregister name
  | .listChannels namePrefix => .listChannels namePrefix
  | .forceDeregister name => .forceDeregister name
  | .subscriptionStatus name => .subscriptionStatus name

/-- What a call makes of a reply. -/
def outcome : Call → ClientReply → Outcome
  | _, .error message => .rpcError message
  | .createChannel _ _, .created path => .writerAt path
  | .createTopic _ _, .created _ => .done
  | .publishToTopic _ _ _, .created path => .writerAt path
  | .subscribePath _ _, .subscribed replicaPath => .replicaAt replicaPath
  | .deregister _, .deregistered existed => .existed existed
  | .listChannels _, .channels channels cursor => .listed channels cursor
  | .forceDeregister _, .deregistered existed => .existed existed
  | .subscriptionStatus _, .status status => .health status
  | _, _ => .unexpected

/-- Client and daemon agree on what answers what. -/
theorem outcome_handleRequest {σ : Type} (H : Handlers σ) (c : Call) (s : σ) :
    c.outcome (H.handleRequest s c.request).1 ≠ .unexpected := by
  cases c with
  | createChannel name options =>
      simp only [request, Handlers.handleRequest]
      rcases H.createForClient name options s with ⟨r, s'⟩
      cases r <;> simp [createdOrError, outcome]
  | createTopic name options =>
      simp only [request, Handlers.handleRequest]
      rcases H.createTopic name options s with ⟨r, s'⟩
      cases r <;> simp [createdOrError, outcome]
  | publishToTopic topic member options =>
      simp only [request, Handlers.handleRequest]
      rcases H.publishToTopic topic member options s with ⟨r, s'⟩
      cases r <;> simp [createdOrError, outcome]
  | subscribePath name wait =>
      simp only [request, Handlers.handleRequest]
      split
      · simp [outcome]
      · split
        · simp [outcome]
        · split <;> simp [outcome]
  | deregister name =>
      simp only [request, Handlers.handleRequest]
      split <;> simp [outcome]
  | listChannels namePrefix =>
      simp only [request, Handlers.handleRequest]
      split <;> simp [outcome]
  | forceDeregister name =>
      simp only [request, Handlers.handleRequest]
      split <;> simp [outcome]
  | subscriptionStatus name =>
      simp only [request, Handlers.handleRequest]
      split <;> simp [outcome]

end Call

-- a wait of less than a millisecond is asked for as no limit at all
example (name : ChannelName) :
    (Call.subscribePath name (some 999)).request = (Call.subscribePath name none).request := rfl

/-! ## Both -/

structure Session (σ : Type) where
  node : σ
  /-- what the client has still to write of its request -/
  writing : List UInt8
  up : List UInt8
  /-- what the daemon has still to write of its reply -/
  replying : List UInt8
  down : List UInt8
  serving : Bool
  sent : List Call
  /-- what the daemon has carried out, and how it answered -/
  answered : List (ClientRequest × ClientReply)
  returned : List Outcome

namespace Session

variable {σ : Type} (H : Handlers σ)

def start (node : σ) : Session σ := ⟨node, [], [], [], [], true, [], [], []⟩

inductive Command (σ : Type) where
  | call (c : Call)
  | write (n : ℕ)
  | serve
  | reply (n : ℕ)
  | receive
  | breakOff
  | elsewhere (node : σ)

/-- The client begins a call. A request that is too long is not sent, and the call
fails without a trace. -/
def beginCall (s : Session σ) (c : Call) : Session σ :=
  match sendFramed (encodeClientRequest c.request) with
  | .error _ => s
  | .ok bytes => { s with writing := bytes, sent := s.sent ++ [c] }

/-- The daemon has a reply. If it is too long the session is over. -/
def sendReply (s : Session σ) (reply : ClientReply) : Session σ :=
  match sendFramed (encodeClientReply reply) with
  | .error _ => { s with serving := false }
  | .ok bytes => { s with replying := bytes }

/-- One round of `handle_client`, as soon as there is a frame. -/
def handleClient (s : Session σ) : Session σ :=
  match recvFramed s.up with
  | .error .unexpectedEof => s
  | .error _ => { s with serving := false }
  | .ok (bytes, up) =>
    match decodeClientRequest bytes with
    | .ok req =>
      let (reply, node) := H.handleRequest s.node req
      { s with up, node, answered := s.answered ++ [(req, reply)] }.sendReply reply
    | .error message => { s with up }.sendReply (.error message)

/-- The client looks for the reply to its last call. -/
def receive (s : Session σ) : Session σ :=
  match s.sent.getLast? with
  | none => s
  | some c =>
    match recvFramed s.down with
    | .ok (bytes, down) =>
      let outcome :=
        match decodeClientReply bytes with
        | .ok reply => c.outcome reply
        | .error message => .undecodable message
      { s with down, returned := s.returned ++ [outcome] }
    | .error e =>
      -- with the other end there, it waits
      if e = .unexpectedEof ∧ s.serving then s else { s with returned := s.returned ++ [.io] }

def perform (s : Session σ) : Command σ → Session σ
  | .call c => s.beginCall c
  | .write n => { s with up := s.up ++ s.writing.take n, writing := s.writing.drop n }
  | .serve => s.handleClient H
  | .reply n => { s with down := s.down ++ s.replying.take n, replying := s.replying.drop n }
  | .receive => s.receive
  | .breakOff => { s with serving := false }
  | .elsewhere node => { s with node }

/-- A client has one request in flight, and a thread of the daemon one reply. Nothing keeps a
client from another call when one has failed. -/
def Allowed (s : Session σ) : Command σ → Prop
  | .call _ => s.sent.length = s.returned.length
  | .serve => s.serving = true ∧ s.replying = []
  | .reply _ => s.serving = true
  | .receive => s.sent.length ≠ s.returned.length
  | _ => True

instance (s : Session σ) (cmd : Command σ) : Decidable (s.Allowed cmd) :=
  match cmd with
  | .call _ => inferInstanceAs (Decidable (s.sent.length = s.returned.length))
  | .serve => inferInstanceAs (Decidable (_ ∧ _))
  | .reply _ => inferInstanceAs (Decidable (s.serving = true))
  | .receive => inferInstanceAs (Decidable (s.sent.length ≠ s.returned.length))
  | .write _ | .breakOff | .elsewhere _ => .isTrue trivial

def Step (s s' : Session σ) : Prop := ∃ cmd, s.Allowed cmd ∧ s' = s.perform H cmd

/-- What carries a call on: the client writes its request and looks for the reply, the daemon
serves it and writes the reply. Nothing breaks. -/
def Command.exchanges : Command σ → Bool
  | .write _ | .serve | .reply _ | .receive => true
  | .call _ | .breakOff | .elsewhere _ => false

def Exchange (s s' : Session σ) : Prop :=
  ∃ cmd, cmd.exchanges = true ∧ s.Allowed cmd ∧ s' = s.perform H cmd

/-! ## What is kept -/

/-- A call has returned what its own request was answered. -/
def Fulfilled (s : Session σ) (i : ℕ) (o : Outcome) : Prop :=
  ∃ c reply, s.sent[i]? = some c ∧ s.answered[i]? = some (c.request, reply) ∧
    o = c.outcome reply ∧ o ≠ .unexpected

/-- What was carried out is what was asked, in order, and what was returned is what
that was answered. -/
structure History (s : Session σ) : Prop where
  asked : s.answered.map Prod.fst <+: s.sent.map Call.request
  returned : ∀ i o, s.returned[i]? = some o → s.Fulfilled i o

/-- Nothing is under way. -/
structure Idle (s : Session σ) : Prop where
  history : s.History
  returned : s.returned.length = s.sent.length
  answered : s.answered.length = s.sent.length
  quiet : s.writing = [] ∧ s.up = [] ∧ s.replying = [] ∧ s.down = []

/-- A request is under way. -/
structure Asking (s : Session σ) (c : Call) : Prop where
  history : s.History
  sent : ∃ before, s.sent = before ++ [c] ∧ s.returned.length = before.length ∧
    s.answered.length = before.length
  framed : sendFramed (encodeClientRequest c.request) = .ok (s.up ++ s.writing)
  quiet : s.replying = [] ∧ s.down = []

/-- A reply is under way, or was too long. -/
structure Replying (s : Session σ) (c : Call) (reply : ClientReply) : Prop where
  history : s.History
  sent : ∃ before, s.sent = before ++ [c] ∧ s.returned.length = before.length ∧
    s.answered.length = before.length + 1 ∧
    s.answered[before.length]? = some (c.request, reply)
  expected : c.outcome reply ≠ .unexpected
  framed : sendFramed (encodeClientReply reply) = .ok (s.down ++ s.replying) ∨
    s.serving = false ∧ s.down = []
  quiet : s.writing = [] ∧ s.up = []

/-- A call has failed: the daemon is gone, with no whole reply left behind, and every call
since has failed too. -/
structure Lost (s : Session σ) : Prop where
  asked : s.answered.map Prod.fst <+: s.sent.map Call.request
  returned : ∃ kept n, s.returned = kept ++ List.replicate n .io ∧
    ∀ i o, kept[i]? = some o → s.Fulfilled i o
  serving : s.serving = false
  down : recvFramed s.down = .error .unexpectedEof
  last : s.returned.length = s.sent.length ∨ s.returned.length + 1 = s.sent.length

inductive Inv (s : Session σ) : Prop
  | idle (h : s.Idle)
  | asking (c : Call) (h : s.Asking c)
  | replying (c : Call) (reply : ClientReply) (h : s.Replying c reply)
  | lost (h : s.Lost)

section Steps

variable {s : Session σ} {H}

/-- More may be asked and carried out. -/
theorem Fulfilled.mono {s' : Session σ} {i : ℕ} {o : Outcome} (h : s.Fulfilled i o)
    (hsent : s.sent <+: s'.sent) (hanswered : s.answered <+: s'.answered) : s'.Fulfilled i o := by
  obtain ⟨c, reply, hc, hreply, ho⟩ := h
  obtain ⟨calls, hcalls⟩ := hsent
  obtain ⟨more, hmore⟩ := hanswered
  refine ⟨c, reply, ?_, ?_, ho⟩
  · rw [← hcalls, List.getElem?_append_left (List.getElem?_eq_some_iff.mp hc).1]
    exact hc
  · rw [← hmore, List.getElem?_append_left (List.getElem?_eq_some_iff.mp hreply).1]
    exact hreply

/-- The client goes on to the next call. -/
theorem History.sent (h : s.History) (c : Call) (writing : List UInt8) :
    ({ s with writing, sent := s.sent ++ [c] } : Session σ).History where
  asked := by
    rw [List.map_append]
    exact h.asked.trans (List.prefix_append _ _)
  returned i o ho := (h.returned i o ho).mono (List.prefix_append _ _) List.prefix_rfl

theorem Idle.beginCall (h : s.Idle) (c : Call) : (s.beginCall c).Inv := by
  obtain ⟨-, hup, hreplying, hdown⟩ := h.quiet
  unfold Session.beginCall
  split
  · exact .idle h
  · rename_i bytes hbytes
    refine .asking c ⟨h.history.sent c bytes, ⟨s.sent, rfl, h.returned, h.answered⟩, ?_,
      hreplying, hdown⟩
    rw [hbytes, hup, List.nil_append]

/-- The last call returns what it was answered. -/
theorem History.return {before : List Call} {c : Call} {reply : ClientReply} (h : s.History)
    (hsent : s.sent = before ++ [c]) (hreturned : s.returned.length = before.length)
    (hreply : s.answered[before.length]? = some (c.request, reply))
    (hexpected : c.outcome reply ≠ .unexpected) (down : List UInt8) :
    ({ s with down, returned := s.returned ++ [c.outcome reply] } : Session σ).History := by
  refine ⟨h.asked, fun i o ho => ?_⟩
  rw [List.getElem?_append] at ho
  split at ho
  · exact h.returned i o ho
  · rename_i hi
    rw [List.getElem?_singleton] at ho
    split at ho
    · rename_i hzero
      obtain rfl : c.outcome reply = o := by simpa using ho
      have hi' : i = before.length := by omega
      refine ⟨c, reply, ?_, hi' ▸ hreply, rfl, hexpected⟩
      show s.sent[i]? = some c
      rw [hsent, hi', List.getElem?_concat_length]
    · cases ho

/-- What has come in of a frame is all of it, or nothing yet. -/
theorem recvFramed_partial {payload got rest : List UInt8}
    (h : sendFramed payload = .ok (got ++ rest)) :
    rest = [] ∧ recvFramed got = .ok (payload, []) ∨
      rest ≠ [] ∧ recvFramed got = .error .unexpectedEof := by
  by_cases hrest : rest = []
  · refine .inl ⟨hrest, ?_⟩
    rw [hrest, List.append_nil] at h
    have hrecv := recvFramed_sendFramed h []
    rwa [List.append_nil] at hrecv
  · refine .inr ⟨hrest, recvFramed_begun h (List.prefix_append _ _) fun heq => ?_⟩
    exact hrest (List.self_eq_append_right.mp heq)

/-- The request under way is carried out. -/
theorem Asking.answer {c : Call} (h : s.Asking c) {reply : ClientReply}
    (hexpected : c.outcome reply ≠ .unexpected) (hwriting : s.writing = []) (node : σ) :
    (({ s with
        up := []
        node
        answered := s.answered ++ [(c.request, reply)] } : Session σ).sendReply reply).Replying
      c reply := by
  obtain ⟨before, hsent, hreturned, hanswered⟩ := h.sent
  obtain ⟨hreplying, hdown⟩ := h.quiet
  have hasked : s.answered.map Prod.fst = before.map Call.request := by
    have hprefix := h.history.asked
    rw [hsent, List.map_append] at hprefix
    exact (List.prefix_of_prefix_length_le hprefix (List.prefix_append _ _)
      (by simp [hanswered])).eq_of_length (by simp [hanswered])
  have hlast : (s.answered ++ [(c.request, reply)])[before.length]? = some (c.request, reply) := by
    rw [← hanswered, List.getElem?_concat_length]
  have hhistory : ∀ s' : Session σ, s'.sent = s.sent → s'.returned = s.returned →
      s'.answered = s.answered ++ [(c.request, reply)] → s'.History := by
    intro s' hs hr ha
    refine ⟨?_, fun i o ho => ?_⟩
    · rw [hs, ha, List.map_append, hasked, hsent, List.map_append]
      exact List.prefix_rfl
    · rw [hr] at ho
      exact (h.history.returned i o ho).mono (hs ▸ List.prefix_rfl)
        (ha ▸ List.prefix_append _ _)
  unfold Session.sendReply
  split
  · exact ⟨hhistory _ rfl rfl rfl, ⟨before, hsent, hreturned, by simp [hanswered], hlast⟩,
      hexpected, .inr ⟨rfl, hdown⟩, hwriting, rfl⟩
  · rename_i bytes hbytes
    refine ⟨hhistory _ rfl rfl rfl, ⟨before, hsent, hreturned, by simp [hanswered], hlast⟩,
      hexpected, .inl ?_, hwriting, rfl⟩
    rw [hbytes, hdown, List.nil_append]

/-- A request that has come in is carried out. The daemon stops serving over a reply that is too
long, and over nothing else. -/
theorem Asking.handled {c : Call} (h : s.Asking c) (hwriting : s.writing = []) :
    ∃ reply, (s.handleClient H).Replying c reply ∧ ((s.handleClient H).serving = s.serving ∨
      MAX_FRAME_LEN < (encodeClientReply reply).length) := by
  rcases recvFramed_partial h.framed with ⟨-, hrecv⟩ | ⟨hne, -⟩
  · have hdecode : decodeClientRequest (encodeClientRequest c.request) = .ok c.request :=
      (reads_clientRequest (ClientRequest.fits_of_length (sendFramed_le h.framed))).accept _
    have hexpected := c.outcome_handleRequest H s.node
    simp only [Session.handleClient, hrecv, hdecode]
    refine ⟨_, h.answer hexpected hwriting _, ?_⟩
    unfold Session.sendReply sendFramed
    split
    · rename_i hsend
      split at hsend
      · exact .inr ‹_›
      · cases hsend
    · exact .inl rfl
  · exact absurd hwriting hne

theorem Asking.handleClient {c : Call} (h : s.Asking c) : (s.handleClient H).Inv := by
  rcases recvFramed_partial h.framed with ⟨hwriting, -⟩ | ⟨-, hrecv⟩
  · obtain ⟨reply, hreply, -⟩ := h.handled (H := H) hwriting
    exact .replying c reply hreply
  · simp only [Session.handleClient, hrecv]
    exact .asking c h

/-- A call fails, and the daemon is gone. -/
theorem History.lost (h : s.History) {before : List Call} {c : Call}
    (hsent : s.sent = before ++ [c]) (hreturned : s.returned.length = before.length)
    (hserving : s.serving = false) (hdown : recvFramed s.down = .error .unexpectedEof) :
    ({ s with returned := s.returned ++ [.io] } : Session σ).Inv :=
  .lost ⟨h.asked, ⟨s.returned, 1, rfl, h.returned⟩, hserving, hdown,
    .inl (by simp [hsent, hreturned])⟩

theorem Asking.receive {c : Call} (h : s.Asking c) : s.receive.Inv := by
  obtain ⟨before, hsent, hreturned, hanswered⟩ := h.sent
  have hlast : s.sent.getLast? = some c := by rw [hsent, List.getLast?_concat]
  have hrecv : recvFramed s.down = .error .unexpectedEof := by rw [h.quiet.2]; rfl
  simp only [Session.receive, hlast, hrecv, true_and]
  split
  · exact .asking c h
  · rename_i hserving
    exact h.history.lost hsent hreturned (Bool.eq_false_iff.mpr hserving) hrecv

theorem Replying.receive {c : Call} {reply : ClientReply} (h : s.Replying c reply) :
    s.receive.Inv := by
  obtain ⟨before, hsent, hreturned, hlength, hanswered⟩ := h.sent
  have hlast : s.sent.getLast? = some c := by rw [hsent, List.getLast?_concat]
  have hpartly : recvFramed s.down = .error .unexpectedEof → s.receive.Inv := by
    intro hrecv
    simp only [Session.receive, hlast, hrecv, true_and]
    split
    · exact .replying c reply h
    · rename_i hserving
      exact h.history.lost hsent hreturned (Bool.eq_false_iff.mpr hserving) hrecv
  rcases h.framed with hframed | ⟨-, hdown⟩
  · rcases recvFramed_partial hframed with ⟨hreplying, hrecv⟩ | ⟨-, hrecv⟩
    · have hdecode : decodeClientReply (encodeClientReply reply) = .ok reply :=
        (reads_clientReply (ClientReply.fits_of_length (sendFramed_le hframed))).accept _
      simp only [Session.receive, hlast, hrecv, hdecode]
      refine .idle ⟨h.history.return hsent hreturned hanswered h.expected [], ?_, ?_, h.quiet.1,
        h.quiet.2, hreplying, rfl⟩
      · simp [hsent, hreturned]
      · simp [hsent, hlength]
    · exact hpartly hrecv
  · exact hpartly (by rw [hdown]; rfl)

/-- Another call fails. -/
theorem Lost.receive (h : s.Lost) (hwaits : s.sent.length ≠ s.returned.length) :
    s.receive.Lost := by
  have hlast := h.last.resolve_left (Ne.symm hwaits)
  obtain ⟨c, hc⟩ : ∃ c, s.sent.getLast? = some c := by
    cases hsent : s.sent.getLast? with
    | some c => exact ⟨c, rfl⟩
    | none => simp [List.getLast?_eq_none_iff.mp hsent] at hlast
  obtain ⟨kept, n, hreturned, hkept⟩ := h.returned
  simp only [Session.receive, hc, h.down, h.serving, Bool.false_eq_true, and_false, if_false]
  refine ⟨h.asked, ⟨kept, n + 1, ?_, hkept⟩, rfl, h.down, .inl ?_⟩
  · rw [hreturned, List.append_assoc, ← List.replicate_succ']
  · simpa using hlast

theorem Lost.beginCall (h : s.Lost) (hreturned : s.sent.length = s.returned.length) (c : Call) :
    (s.beginCall c).Lost := by
  obtain ⟨kept, n, heq, hkept⟩ := h.returned
  unfold Session.beginCall
  split
  · exact h
  · refine ⟨?_, ⟨kept, n, heq, fun i o ho => (hkept i o ho).mono (List.prefix_append _ _)
      List.prefix_rfl⟩, h.serving, h.down, .inr ?_⟩
    · rw [List.map_append]
      exact h.asked.trans (List.prefix_append _ _)
    · simp [hreturned]

theorem sendReply_sent (s : Session σ) (reply : ClientReply) :
    (s.sendReply reply).sent = s.sent := by
  unfold Session.sendReply
  split <;> rfl

/-- The daemon has no part in what is asked. -/
theorem handleClient_sent (s : Session σ) : (s.handleClient H).sent = s.sent := by
  unfold Session.handleClient
  split
  · rfl
  · rfl
  · split
    · exact sendReply_sent _ _
    · exact sendReply_sent _ _

/-- There is nothing to serve. -/
theorem handleClient_of_nil (h : s.up = []) : s.handleClient H = s := by
  have hrecv : recvFramed s.up = .error .unexpectedEof := by rw [h]; rfl
  simp only [Session.handleClient, hrecv]

theorem Idle.step (h : s.Idle) {cmd : Command σ} (hallowed : s.Allowed cmd) :
    (s.perform H cmd).Inv := by
  obtain ⟨hwriting, hup, hreplying, hdown⟩ := h.quiet
  cases cmd with
  | call c => exact h.beginCall c
  | write n =>
      refine .idle ⟨⟨h.history.asked, h.history.returned⟩, h.returned, h.answered, ?_⟩
      simp [perform, hwriting, hup, hreplying, hdown]
  | serve =>
      show (s.handleClient H).Inv
      rw [handleClient_of_nil hup]
      exact .idle h
  | reply n =>
      refine .idle ⟨⟨h.history.asked, h.history.returned⟩, h.returned, h.answered, ?_⟩
      simp [perform, hwriting, hup, hreplying, hdown]
  | receive => exact absurd h.returned.symm hallowed
  | breakOff => exact .idle ⟨⟨h.history.asked, h.history.returned⟩, h.returned, h.answered, h.quiet⟩
  | elsewhere node =>
      exact .idle ⟨⟨h.history.asked, h.history.returned⟩, h.returned, h.answered, h.quiet⟩

theorem Asking.step {c : Call} (h : s.Asking c) {cmd : Command σ} (hallowed : s.Allowed cmd) :
    (s.perform H cmd).Inv := by
  obtain ⟨before, hsent, hreturned, -⟩ := h.sent
  cases cmd with
  | call c' =>
      refine absurd hallowed ?_
      simp [Allowed, hsent, hreturned]
  | write n =>
      refine .asking c ⟨⟨h.history.asked, h.history.returned⟩, h.sent, ?_, h.quiet⟩
      rw [h.framed]
      simp [perform]
  | serve => exact h.handleClient
  | reply n =>
      refine .asking c ⟨⟨h.history.asked, h.history.returned⟩, h.sent, h.framed, ?_⟩
      simp [perform, h.quiet.1, h.quiet.2]
  | receive => exact h.receive
  | breakOff => exact .asking c ⟨⟨h.history.asked, h.history.returned⟩, h.sent, h.framed, h.quiet⟩
  | elsewhere node =>
      exact .asking c ⟨⟨h.history.asked, h.history.returned⟩, h.sent, h.framed, h.quiet⟩

theorem Replying.step {c : Call} {reply : ClientReply} (h : s.Replying c reply) {cmd : Command σ}
    (hallowed : s.Allowed cmd) : (s.perform H cmd).Inv := by
  obtain ⟨before, hsent, hreturned, -⟩ := h.sent
  cases cmd with
  | call c' =>
      refine absurd hallowed ?_
      simp [Allowed, hsent, hreturned]
  | write n =>
      refine .replying c reply ⟨⟨h.history.asked, h.history.returned⟩, h.sent, h.expected,
        h.framed, ?_⟩
      simp [perform, h.quiet.1, h.quiet.2]
  | serve =>
      show (s.handleClient H).Inv
      rw [handleClient_of_nil h.quiet.2]
      exact .replying c reply h
  | reply n =>
      have hserving : s.serving = true := hallowed
      refine .replying c reply ⟨⟨h.history.asked, h.history.returned⟩, h.sent, h.expected,
        .inl ?_, h.quiet⟩
      rcases h.framed with hframed | ⟨hdone, -⟩
      · rw [hframed]
        simp [perform]
      · rw [hserving] at hdone
        cases hdone
  | receive => exact h.receive
  | breakOff =>
      refine .replying c reply ⟨⟨h.history.asked, h.history.returned⟩, h.sent, h.expected,
        h.framed.imp_right fun hdone => ⟨rfl, hdone.2⟩, h.quiet⟩
  | elsewhere node =>
      exact .replying c reply ⟨⟨h.history.asked, h.history.returned⟩, h.sent, h.expected,
        h.framed, h.quiet⟩

theorem Lost.step (h : s.Lost) {cmd : Command σ} (hallowed : s.Allowed cmd) :
    (s.perform H cmd).Inv := by
  have hsame : ∀ s' : Session σ, s'.sent = s.sent → s'.answered = s.answered →
      s'.returned = s.returned → s'.down = s.down → s'.serving = false → s'.Inv := by
    intro s' hs ha hr hd hserving
    obtain ⟨kept, n, heq, hkept⟩ := h.returned
    refine .lost ⟨?_, ⟨kept, n, hr ▸ heq, fun i o ho => ?_⟩, hserving, hd ▸ h.down, ?_⟩
    · rw [hs, ha]
      exact h.asked
    · exact (hkept i o ho).mono (hs ▸ List.prefix_rfl) (ha ▸ List.prefix_rfl)
    · rw [hs, hr]
      exact h.last
  cases cmd with
  | call c => exact .lost (h.beginCall hallowed c)
  | serve =>
      have hserving := hallowed.1
      rw [h.serving] at hserving
      cases hserving
  | reply n =>
      have hserving : s.serving = true := hallowed
      rw [h.serving] at hserving
      cases hserving
  | receive => exact .lost (h.receive hallowed)
  | write n => exact hsame _ rfl rfl rfl rfl h.serving
  | breakOff => exact hsame _ rfl rfl rfl rfl rfl
  | elsewhere node => exact hsame _ rfl rfl rfl rfl h.serving

theorem Inv.step (h : s.Inv) {s' : Session σ} (hstep : Step H s s') : s'.Inv := by
  obtain ⟨cmd, hallowed, rfl⟩ := hstep
  cases h with
  | idle h => exact h.step hallowed
  | asking c h => exact h.step hallowed
  | replying c reply h => exact h.step hallowed
  | lost h => exact h.step hallowed

theorem inv_start (node : σ) : (start node).Inv :=
  .idle ⟨⟨List.prefix_rfl, by simp [start]⟩, rfl, rfl, rfl, rfl, rfl, rfl⟩

theorem inv_of_reachable {node : σ} (h : Run.Reachable (· = start node) (Step H) s) : s.Inv := by
  refine h.invariant (fun s hs => ?_) fun _ _ hi hstep => hi.step hstep
  rw [hs]
  exact inv_start node

/-! ## A call comes to its end -/

/-- With a frame to read, or no one left to wait for, the call returns. -/
theorem receive_returns {before : List Call} {c : Call} (hsent : s.sent = before ++ [c])
    (hreturned : s.returned.length = before.length)
    (hready : (∃ x, recvFramed s.down = .ok x) ∨ s.serving = false) :
    s.receive.sent = s.sent ∧ s.receive.returned.length = s.sent.length := by
  have hlast : s.sent.getLast? = some c := by rw [hsent, List.getLast?_concat]
  have hlength : s.returned.length + 1 = s.sent.length := by simp [hsent, hreturned]
  unfold Session.receive
  rw [hlast]
  dsimp only
  split
  · simpa using hlength
  · rename_i e herror
    rcases hready with ⟨x, hx⟩ | hserving
    · rw [hx] at herror
      cases herror
    · rw [if_neg (by simp [hserving])]
      simpa using hlength

variable (H) in
/-- The call of `s` has come to its end in `s'`, by nothing but what carries it on. If the daemon
was there it has carried the call out, and it is still there unless its reply was too long. -/
structure Returns (s s' : Session σ) : Prop where
  run : Relation.ReflTransGen (Exchange H) s s'
  sent : s'.sent = s.sent
  returned : s'.returned.length = s'.sent.length
  answered : s.serving = true → s'.answered.length = s'.sent.length ∧ (s'.serving = true ∨
    ∃ x ∈ s'.answered.getLast?, MAX_FRAME_LEN < (encodeClientReply x.2).length)

theorem receive_frame (s : Session σ) :
    s.receive.answered = s.answered ∧ s.receive.serving = s.serving := by
  unfold Session.receive
  split
  · exact ⟨rfl, rfl⟩
  · split
    · exact ⟨rfl, rfl⟩
    · split <;> exact ⟨rfl, rfl⟩

/-- The daemon is gone: the client finds out, or finds the reply. -/
theorem returns_of_gone {before : List Call} {c : Call} (hsent : s.sent = before ++ [c])
    (hreturned : s.returned.length = before.length) (hserving : s.serving = false) :
    Returns H s s.receive := by
  have hwaits : s.sent.length ≠ s.returned.length := by simp [hsent, hreturned]
  obtain ⟨hsame, hlength⟩ := receive_returns hsent hreturned (.inr hserving)
  refine ⟨.single ⟨.receive, rfl, hwaits, rfl⟩, hsame, hlength.trans (by rw [hsame]), ?_⟩
  intro hs
  rw [hserving] at hs
  cases hs

theorem Replying.returns {c : Call} {reply : ClientReply} (h : s.Replying c reply)
    (hserving : s.serving = true) : ∃ s', Returns H s s' := by
  obtain ⟨before, hsent, hreturned, hanswered, -⟩ := h.sent
  have hwaits : s.sent.length ≠ s.returned.length := by simp [hsent, hreturned]
  -- the daemon writes the rest of the reply first
  obtain ⟨bytes, hframed⟩ : ∃ bytes, sendFramed bytes = .ok (s.down ++ s.replying) := by
    rcases h.framed with hframed | ⟨hdone, -⟩
    · exact ⟨_, hframed⟩
    · rw [hserving] at hdone
      cases hdone
  let s₁ := s.perform H (.reply s.replying.length)
  have hrecv : recvFramed s₁.down = .ok (bytes, []) := by
    have hwhole := recvFramed_sendFramed hframed []
    simpa [s₁, perform] using hwhole
  obtain ⟨hsame, hlength⟩ := receive_returns (s := s₁) hsent hreturned (.inl ⟨_, hrecv⟩)
  obtain ⟨hcarried, hthere⟩ := receive_frame s₁
  have hfirst : Exchange H s s₁ := ⟨.reply _, rfl, hserving, rfl⟩
  refine ⟨s₁.receive, .tail (.single hfirst) ⟨.receive, rfl, hwaits, rfl⟩, hsame,
    hlength.trans (by rw [hsame]), fun _ => ⟨?_, .inl (hthere.trans hserving)⟩⟩
  rw [hcarried, hsame]
  simp [s₁, perform, hsent, hanswered]

/-- A request that the daemon has carried out, and can not answer in a frame. -/
theorem Replying.too_long {c : Call} {reply : ClientReply} (h : s.Replying c reply)
    (hserving : s.serving = false) (hlong : MAX_FRAME_LEN < (encodeClientReply reply).length) :
    s.receive.answered.length = s.receive.sent.length ∧
      ∃ x ∈ s.receive.answered.getLast?, MAX_FRAME_LEN < (encodeClientReply x.2).length := by
  obtain ⟨before, hsent, hreturned, hanswered, hlast⟩ := h.sent
  obtain ⟨hsame, -⟩ := receive_returns hsent hreturned (.inr hserving)
  obtain ⟨hcarried, -⟩ := receive_frame s
  rw [hcarried, hsame]
  refine ⟨by simp [hsent, hanswered], (c.request, reply), ?_, hlong⟩
  rw [List.getLast?_eq_getElem?, hanswered, Nat.add_sub_cancel]
  exact hlast

theorem Asking.returns {c : Call} (h : s.Asking c) (hserving : s.serving = true) :
    ∃ s', Returns H s s' := by
  -- the client writes the rest of its request, and the daemon carries it out
  let s₁ := s.perform H (.write s.writing.length)
  have hasking : s₁.Asking c := by
    refine ⟨⟨h.history.asked, h.history.returned⟩, h.sent, ?_, h.quiet⟩
    rw [h.framed]
    simp [s₁, perform]
  obtain ⟨reply, hreply, hend⟩ := hasking.handled (H := H) (by simp [s₁, perform])
  have hsent : (s₁.handleClient H).sent = s.sent := handleClient_sent s₁
  have hwrite : Exchange H s s₁ := ⟨.write _, rfl, trivial, rfl⟩
  have hserve : Exchange H s₁ (s₁.handleClient H) := ⟨.serve, rfl, ⟨hserving, h.quiet.1⟩, rfl⟩
  have hfirst := (Relation.ReflTransGen.single hwrite).tail hserve
  by_cases hthere : (s₁.handleClient H).serving = true
  · obtain ⟨s', hret⟩ := hreply.returns (H := H) hthere
    exact ⟨s', hfirst.trans hret.run, hret.sent.trans hsent, hret.returned,
      fun _ => hret.answered hthere⟩
  · have hgone := Bool.eq_false_iff.mpr hthere
    obtain ⟨before, hbefore, hreturned, -⟩ := hreply.sent
    have hret : Returns H _ _ := returns_of_gone hbefore hreturned hgone
    have hlong := hend.resolve_left fun hsame => hthere (hsame.trans hserving)
    obtain ⟨hcarried, hlong⟩ := hreply.too_long hgone hlong
    exact ⟨_, hfirst.trans hret.run, hret.sent.trans hsent, hret.returned,
      fun _ => ⟨hcarried, .inr hlong⟩⟩

theorem Inv.returns (h : s.Inv) : ∃ s', Returns H s s' := by
  cases h with
  | idle h =>
      exact ⟨s, .refl, rfl, h.returned, fun hserving => ⟨h.answered, .inl hserving⟩⟩
  | asking c h =>
      by_cases hserving : s.serving = true
      · exact h.returns hserving
      · obtain ⟨before, hsent, hreturned, -⟩ := h.sent
        exact ⟨_, returns_of_gone hsent hreturned (Bool.eq_false_iff.mpr hserving)⟩
  | replying c reply h =>
      by_cases hserving : s.serving = true
      · exact h.returns hserving
      · obtain ⟨before, hsent, hreturned, -⟩ := h.sent
        exact ⟨_, returns_of_gone hsent hreturned (Bool.eq_false_iff.mpr hserving)⟩
  | lost h =>
      by_cases hwaits : s.sent.length = s.returned.length
      · refine ⟨s, .refl, rfl, hwaits.symm, fun hserving => ?_⟩
        rw [h.serving] at hserving
        cases hserving
      · have hlast := h.last.resolve_left (Ne.symm hwaits)
        rcases List.eq_nil_or_concat s.sent with hnil | ⟨before, c, hsent⟩
        · simp [hnil] at hlast
        · rw [List.concat_eq_append] at hsent
          rw [hsent, List.length_append] at hlast
          exact ⟨_, returns_of_gone hsent (by simpa using hlast) h.serving⟩

theorem Inv.asked (h : s.Inv) : s.answered.map Prod.fst <+: s.sent.map Call.request := by
  cases h with
  | idle h => exact h.history.asked
  | asking c h => exact h.history.asked
  | replying c reply h => exact h.history.asked
  | lost h => exact h.asked

theorem Inv.returned (h : s.Inv) {i : ℕ} {o : Outcome} (ho : s.returned[i]? = some o) :
    s.Fulfilled i o ∨
      s.serving = false ∧ ∀ j o', i ≤ j → s.returned[j]? = some o' → o' = .io := by
  cases h with
  | idle h => exact .inl (h.history.returned i o ho)
  | asking c h => exact .inl (h.history.returned i o ho)
  | replying c reply h => exact .inl (h.history.returned i o ho)
  | lost h =>
      obtain ⟨kept, n, heq, hkept⟩ := h.returned
      by_cases hi : i < kept.length
      · rw [heq, List.getElem?_append_left hi] at ho
        exact .inl (hkept i o ho)
      · refine .inr ⟨h.serving, fun j o' hj ho' => ?_⟩
        rw [heq, List.getElem?_append_right (by omega)] at ho'
        exact List.eq_of_mem_replicate (List.mem_of_getElem? ho')

end Steps

end Session

end XchannelNet
