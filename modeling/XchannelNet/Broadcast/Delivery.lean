import XchannelNet.Broadcast.Sending
import XchannelNet.Wire.Fitting

/-!
# Delivery — what a peer takes of what it is sent

Sockets may take any part of what they are offered, stall and fail. A peer whose
frame is not taken whole is dropped, and nothing is written to it again: what it
has taken are the frames for it, in order, and perhaps a part of one more (`Told`).

What others do with their frames uses up the time of a burst and of a tick. It
is never held against a peer that takes every buffer whole: its frame is written
before the clock is looked at, and one call is all it takes.

Here every peer has a socket of its own, and calls may take any time at all.
-/

namespace XchannelNet.Broadcast

open Wire

/-! ## A burst, send by send -/

/-- One send of a burst: to all but one, or to one. -/
inductive Send where
  | except (id : PeerId) (frame : List UInt8)
  | only (id : PeerId) (frames : List (List UInt8))

def Links.send {σ : Type} (N : Net σ) (x : Links × σ) : Send → Links × σ
  | .except id frame => sendExcept N id frame x
  | .only id frames => sendOnly N id frames x

section Bursts

variable {A : Type} [SocketText A]

def Hint.frame (h : Hint A) : List UInt8 :=
  encodeControl (.peerHint h.node h.addr h.controlAddr h.name)

def Burst.allowance : Burst A → ℕ
  | .announce delta | .relay _ delta | .reply _ delta =>
    burstAllowance (identitiesEncodedLen delta)
  | .relayHints pending => burstAllowance (pending.length * HINT_ENCODED_BYTES)
  | .emitHeartbeat | .announceLeaving => PEER_SMALL_FRAME_BUDGET

def Burst.sends (self : Self A) : Burst A → List Send
  | .announce delta => (deltaFrames A delta).map (.except NO_PEER)
  | .relay source delta => (deltaFrames A delta).map (.except source)
  | .reply dest delta => [.only dest (deltaFrames A delta)]
  | .relayHints pending =>
    (pending.filter (·.node ≠ self.node)).map fun h => .except h.source h.frame
  | .emitHeartbeat => [.except NO_PEER (encodeControl self.heartbeat)]
  | .announceLeaving => [.except NO_PEER (encodeControl (.leaving self.node : ControlMsg A))]

/-- A burst gives the peers their allowance and makes its sends. -/
theorem perform_eq_sends {σ : Type} (N : Net σ) (self : Self A) (x : Links × σ) (b : Burst A) :
    perform N self x b =
      (b.sends self).foldl (Links.send N) (x.1.beginBurst b.allowance, x.2) := by
  cases b with
  | announce delta =>
      simp only [perform, announce, Links.broadcast, Links.send, Burst.sends, List.foldl_map,
        Burst.allowance]
  | relay source delta =>
      simp only [perform, relay, Links.send, Burst.sends, List.foldl_map, Burst.allowance]
  | reply dest delta => rfl
  | relayHints pending =>
      simp only [perform, relayHints, Links.send, Burst.sends, List.foldl_map, Burst.allowance,
        Hint.frame]
  | emitHeartbeat => rfl
  | announceLeaving => rfl

end Bursts

/-- The frames of a send that are for `p`. -/
def Send.addressed (p : PeerId) : Send → List (List UInt8)
  | .except id frame => if p = id then [] else [frame]
  | .only id frames => if p = id then frames else []

/-- The frames of a burst that are for `p`: all of them, unless `p` is where they
came from or another was asked for. -/
def Burst.addressed {A : Type} [SocketText A] (self : Self A) (p : PeerId) :
    Burst A → List (List UInt8)
  | .announce delta => deltaFrames A delta
  | .relay source delta => if p = source then [] else deltaFrames A delta
  | .reply dest delta => if p = dest then deltaFrames A delta else []
  | .relayHints pending =>
    (pending.filter fun h => h.node ≠ self.node ∧ h.source ≠ p).map Hint.frame
  | .emitHeartbeat => [encodeControl self.heartbeat]
  | .announceLeaving => [encodeControl (.leaving self.node : ControlMsg A)]

theorem Burst.flatMap_sends {A : Type} [SocketText A] (self : Self A) {p : PeerId}
    (hp : p ≠ NO_PEER) (b : Burst A) :
    (b.sends self).flatMap (Send.addressed p) = b.addressed self p := by
  cases b with
  | announce delta => simp [sends, addressed, Send.addressed, List.flatMap_map, hp]
  | relay source delta =>
      by_cases h : p = source <;> simp [sends, addressed, Send.addressed, List.flatMap_map, h]
  | reply dest delta => simp [sends, addressed, Send.addressed]
  | relayHints pending =>
      induction pending with
      | nil => rfl
      | cons h pending ih =>
          have hcomm : h.source = p ↔ p = h.source := eq_comm
          by_cases hn : h.node = self.node <;> by_cases hs : p = h.source <;>
            simpa [sends, addressed, Send.addressed, hn, hcomm, hs] using ih
  | emitHeartbeat => simp [sends, addressed, Send.addressed, hp]
  | announceLeaving => simp [sends, addressed, Send.addressed, hp]

/-! ## A socket for every peer -/

/-- What a write call comes back with, after whatever time. -/
abbrev Reply := CallOf fun _ => True

section Accepted

variable {allowed : ℕ → Prop}

/-- How many bytes a call took. -/
def WriteOf.accepted (w : WriteOf allowed) : ℕ :=
  match w.call.answer with
  | .wrote n => min n w.offered
  | _ => 0

def SocketsOf.accepted (s : SocketsOf allowed) : ℕ := (s.made.map WriteOf.accepted).sum

end Accepted

/-- What the sockets do: the replies to the calls that write a peer's `k`-th
buffer. Past their end the socket is closed. -/
abbrev Behaviour := PeerId → ℕ → List UInt8 → List Reply

/-- Every call to the peer takes the whole buffer, whatever time it takes. -/
def Behaviour.Accepts (net : Behaviour) (p : PeerId) : Prop :=
  ∀ k bytes, bytes ≠ [] → ∃ took rest, net p k bytes = ⟨.wrote bytes.length, took, trivial⟩ :: rest

/-- The clock, how many buffers each peer was written and the bytes it took. -/
structure Wires where
  now : ℕ
  written : PeerId → ℕ
  taken : PeerId → List UInt8

namespace Wires

def writeAllBy (net : Behaviour) (q : PeerId) (bytes : List UInt8) (deadline : ℕ) (w : Wires) :
    Except ErrorKind Unit × Wires :=
  let (sent, s) := writeLoop deadline (net q (w.written q) bytes) bytes w.now false w.now []
  (sent, ⟨s.now, Function.update w.written q (w.written q + 1),
    Function.update w.taken q (w.taken q ++ bytes.take s.accepted)⟩)

def sendFrameBy (net : Behaviour) (q : PeerId) (bytes : List UInt8) (deadline : ℕ) (w : Wires) :
    Except ErrorKind Unit × Wires :=
  sendWith (writeAllBy net q · deadline) bytes w

def net (net : Behaviour) : Net Wires := ⟨now, sendFrameBy net⟩

end Wires

/-! ## One frame -/

/-- The bytes of a frame on the wire. -/
def framed (frame : List UInt8) : List UInt8 := Bytes.encode 4 frame.length ++ frame

theorem sendFramed_eq_framed {frame : List UInt8} (h : frame.length ≤ MAX_FRAME_LEN) :
    sendFramed frame = .ok (framed frame) := if_neg (Nat.not_lt.mpr h)

/-- The frames of a stream that breaks off within a frame, or after one. -/
theorem recvAll_broken {frames : List (List UInt8)} (h : ∀ f ∈ frames, f.length ≤ MAX_FRAME_LEN)
    {begun : List UInt8} (hbegun : recvFramed begun = .error .unexpectedEof) :
    recvAll ((frames.map framed).flatten ++ begun) = (frames, .unexpectedEof) := by
  induction frames with
  | nil => exact recvAll_error hbegun
  | cons f frames ih =>
      have hf := sendFramed_eq_framed (h f List.mem_cons_self)
      rw [List.map_cons, List.flatten_cons, List.append_assoc,
        recvAll_ok (recvFramed_sendFramed hf _), ih fun g hg => h g (List.mem_cons_of_mem f hg)]

/-- The calls take the whole buffer exactly if the write succeeds. -/
theorem writeLoop_accepted {allowed : ℕ → Prop} (deadline : ℕ) (calls : List (CallOf allowed))
    (bytes : List UInt8) (lastProgress : ℕ) (attempted : Bool) (now : ℕ)
    (made : List (WriteOf allowed)) :
    (writeLoop deadline calls bytes lastProgress attempted now made).1 = .ok () ↔
      bytes.length + (made.map WriteOf.accepted).sum ≤
        (writeLoop deadline calls bytes lastProgress attempted now made).2.accepted := by
  induction calls generalizing bytes lastProgress attempted now made with
  | nil =>
      unfold writeLoop
      split_ifs with hnil <;> simp [SocketsOf.accepted, hnil]
  | cons c rest ih =>
      unfold writeLoop
      split_ifs with hnil
      · simp [SocketsOf.accepted, hnil]
      · simp [SocketsOf.accepted, hnil]
      · simp [SocketsOf.accepted, hnil]
      · obtain ⟨answer, took, hallowed⟩ := c
        -- a call that took nothing
        have hretry : ∀ w : WriteOf allowed, w.accepted = 0 →
            ((writeLoop deadline rest bytes lastProgress true (now + took) (w :: made)).1 = .ok () ↔
              bytes.length + (made.map WriteOf.accepted).sum ≤
                (writeLoop deadline rest bytes lastProgress true (now + took)
                  (w :: made)).2.accepted) := by
          intro w hw
          have hrest := ih bytes lastProgress true (now + took) (w :: made)
          rwa [List.map_cons, List.sum_cons, hw, Nat.zero_add] at hrest
        cases answer with
        | wrote n =>
            cases n with
            | zero => simp [SocketsOf.accepted, WriteOf.accepted, hnil]
            | succ n =>
                -- what this call left is for the ones that follow
                refine (ih _ _ _ _ _).trans ?_
                simp only [List.length_drop, List.map_cons, List.sum_cons, WriteOf.accepted]
                omega
        | wouldBlock => exact hretry _ rfl
        | timedOut => exact hretry _ rfl
        | interrupted => exact hretry _ rfl
        | failed => simp [SocketsOf.accepted, WriteOf.accepted, hnil]

/-- How a frame is written to `p` over whatever sockets: whole, or cut off with
an error. Writing to another leaves `p` alone. -/
structure Net.Writes {σ : Type} (N : Net σ) (p : PeerId) (taken : σ → List UInt8) : Prop where
  whole : ∀ {frame deadline s s'}, N.sendFrameBy p frame deadline s = (.ok (), s') →
    frame.length ≤ MAX_FRAME_LEN ∧ taken s' = taken s ++ framed frame
  cut : ∀ {frame deadline s s' e}, N.sendFrameBy p frame deadline s = (.error e, s') →
    ∃ begun, recvFramed begun = .error .unexpectedEof ∧ taken s' = taken s ++ begun
  others : ∀ {q : PeerId}, q ≠ p → ∀ frame deadline s,
    taken (N.sendFrameBy q frame deadline s).2 = taken s

theorem Wires.writeAllBy_taken {net : Behaviour} {q : PeerId} {bytes : List UInt8} {deadline : ℕ}
    {w w' : Wires} {sent : Except ErrorKind Unit}
    (h : writeAllBy net q bytes deadline w = (sent, w')) :
    ∃ begun, begun <+: bytes ∧ w'.taken q = w.taken q ++ begun ∧
      (sent = .ok () ↔ begun = bytes) := by
  have hwhole := writeLoop_accepted deadline (net q (w.written q) bytes) bytes w.now false w.now []
  cases h
  refine ⟨_, List.take_prefix _ _, Function.update_self _ _ _, hwhole.trans ?_⟩
  rw [List.take_eq_self_iff]
  simp

theorem Wires.writeAllBy_others {net : Behaviour} {p q : PeerId} (hq : q ≠ p)
    (bytes : List UInt8) (deadline : ℕ) (w : Wires) :
    (writeAllBy net q bytes deadline w).2.taken p = w.taken p :=
  Function.update_of_ne hq.symm _ _

theorem Wires.writes (net : Behaviour) (p : PeerId) :
    (Wires.net net).Writes p (taken · p) where
  whole := by
    intro frame deadline w w' h
    have h' : sendFrameBy net p frame deadline w = (.ok (), w') := h
    simp only [sendFrameBy, sendWith] at h'
    split at h'
    · cases h'
    · rename_i hlen
      split at h'
      · cases h'
      · rename_i w₁ hhead
        obtain ⟨begun, -, htaken, hsent⟩ := writeAllBy_taken hhead
        obtain ⟨begun', -, htaken', hsent'⟩ := writeAllBy_taken h'
        refine ⟨Nat.not_lt.mp hlen, ?_⟩
        rw [htaken', htaken, hsent.mp rfl, hsent'.mp rfl, List.append_assoc, framed]
  cut := by
    intro frame deadline w w' e h
    have h' : sendFrameBy net p frame deadline w = (.error e, w') := h
    simp only [sendFrameBy, sendWith] at h'
    split at h'
    · cases h'
      exact ⟨[], rfl, (List.append_nil _).symm⟩
    · rename_i hlen
      have hlen' := Nat.not_lt.mp hlen
      split at h'
      · rename_i e' w₁ hhead
        cases h'
        obtain ⟨begun, hbegin, htaken, hsent⟩ := writeAllBy_taken hhead
        refine ⟨begun, recvFramed_begun (sendFramed_eq_framed hlen')
          (hbegin.trans (List.prefix_append _ _)) ?_, htaken⟩
        intro hall
        have hle := hbegin.length_le
        rw [hall, framed, List.length_append] at hle
        have hbody : frame = [] := List.eq_nil_of_length_eq_zero (by omega)
        rw [framed, hbody, List.append_nil] at hall
        rw [hbody] at hsent
        cases hsent.mpr hall
      · rename_i w₁ hhead
        obtain ⟨begun, -, htaken, hsent⟩ := writeAllBy_taken hhead
        obtain ⟨begun', hbegin', htaken', hsent'⟩ := writeAllBy_taken h'
        refine ⟨Bytes.encode 4 frame.length ++ begun', recvFramed_begun
          (sendFramed_eq_framed hlen') ((List.prefix_append_right_inj _).mpr hbegin')
          fun hall => ?_, ?_⟩
        · cases hsent'.mpr (List.append_cancel_left hall)
        · rw [htaken', htaken, hsent.mp rfl, List.append_assoc]
  others := by
    intro q hq frame deadline w
    show (sendFrameBy net q frame deadline w).2.taken p = _
    simp only [sendFrameBy, sendWith]
    split
    · rfl
    · have hhead := @writeAllBy_others net p q hq (Bytes.encode 4 frame.length) deadline w
      split <;> rename_i hw <;> rw [hw] at hhead
      · exact hhead
      · exact (writeAllBy_others hq frame deadline _).trans hhead

/-- Some socket of `p` does not take the frame. -/
def Net.Refuses {σ : Type} (N : Net σ) (p : PeerId) (frame : List UInt8) : Prop :=
  ∃ deadline s e s', N.sendFrameBy p frame deadline s = (.error e, s')

theorem Wires.writeAllBy_accepted {net : Behaviour} {p : PeerId} (h : net.Accepts p)
    (bytes : List UInt8) (deadline : ℕ) (w : Wires) :
    (writeAllBy net p bytes deadline w).1 = .ok () := by
  by_cases hb : bytes = []
  · subst hb
    rw [writeAllBy, writeLoop_nil]
  · obtain ⟨took, rest, hreply⟩ := h (w.written p) bytes hb
    rw [writeAllBy, hreply, writeLoop_whole deadline hb rfl]

/-- A peer that takes every buffer whole takes every frame. -/
theorem Behaviour.Accepts.not_refuses {net : Behaviour} {p : PeerId} (h : net.Accepts p)
    {frame : List UInt8} (hlen : frame.length ≤ MAX_FRAME_LEN) :
    ¬ (Wires.net net).Refuses p frame := by
  rintro ⟨deadline, w, e, w', hsend⟩
  have hsend' : Wires.sendFrameBy net p frame deadline w = (.error e, w') := hsend
  simp only [Wires.sendFrameBy, sendWith, if_neg (Nat.not_lt.mpr hlen)] at hsend'
  have hhead := Wires.writeAllBy_accepted h (Bytes.encode 4 frame.length) deadline w
  split at hsend'
  · rename_i hfailed
    rw [hfailed] at hhead
    cases hhead
  · rename_i w₁ _
    have hbody := Wires.writeAllBy_accepted h frame deadline w₁
    rw [hsend'] at hbody
    cases hbody

/-! ## Whole bursts -/

/-- Before, `p` had taken `before`; since, it is told these frames. It has taken
the first of them whole: all, if it is a peer, and if not, perhaps a part of the
next. If it `stays` for all the rest of the node does, it is a peer unless it
refuses a frame. -/
structure Told {σ : Type} (N : Net σ) (p : PeerId) (taken : σ → List UInt8)
    (before : List UInt8) (stays : Prop) (frames : List (List UInt8)) (x : Links × σ) : Prop where
  nodup : (x.1.peers.map Peer.id).Nodup
  taken_eq : ∃ whole begun, whole <+: frames ∧ (∀ f ∈ whole, f.length ≤ MAX_FRAME_LEN) ∧
    recvFramed begun = .error .unexpectedEof ∧
    taken x.2 = before ++ (whole.map framed).flatten ++ begun ∧
    (p ∈ x.1.peers.map Peer.id → whole = frames ∧ begun = [])
  kept : stays → (∀ f ∈ frames, ¬ N.Refuses p f) → p ∈ x.1.peers.map Peer.id

namespace Told

variable {σ : Type} {N : Net σ} {p : PeerId} {taken : σ → List UInt8} {before : List UInt8}
  {stays : Prop} {frames more : List (List UInt8)} {x y : Links × σ}

/-- Nothing more is written to a link that is gone. -/
theorem gone (h : Told N p taken before stays frames x) (hnodup : (y.1.peers.map Peer.id).Nodup)
    (hx : p ∉ x.1.peers.map Peer.id) (hy : p ∉ y.1.peers.map Peer.id)
    (htaken : taken y.2 = taken x.2) : Told N p taken before stays (frames ++ more) y := by
  obtain ⟨-, ⟨whole, begun, hwhole, hfits, hbegun, heq, -⟩, hkept⟩ := h
  refine ⟨hnodup, ⟨whole, begun, hwhole.trans (List.prefix_append _ _), hfits, hbegun,
    by rw [htaken, heq], fun hmem => absurd hmem hy⟩, fun hstays hnone => ?_⟩
  exact absurd (hkept hstays fun f hf => hnone f (List.mem_append_left _ hf)) hx

/-- A peer takes one more frame. -/
theorem sent (h : Told N p taken before stays frames x) (hx : p ∈ x.1.peers.map Peer.id)
    (hnodup : (y.1.peers.map Peer.id).Nodup) (hy : p ∈ y.1.peers.map Peer.id)
    {frame : List UInt8} (hfits : frame.length ≤ MAX_FRAME_LEN)
    (htaken : taken y.2 = taken x.2 ++ framed frame) :
    Told N p taken before stays (frames ++ [frame]) y := by
  obtain ⟨-, ⟨whole, begun, -, hfits', -, heq, hall⟩, -⟩ := h
  obtain ⟨rfl, rfl⟩ := hall hx
  refine ⟨hnodup, ⟨whole ++ [frame], [], List.prefix_rfl, ?_, rfl, ?_, fun _ => ⟨rfl, rfl⟩⟩,
    fun _ _ => hy⟩
  · exact List.forall_mem_append.mpr ⟨hfits', by simpa using hfits⟩
  · rw [htaken, heq]
    simp

/-- A peer does not take a frame, and is dropped. -/
theorem dropped (h : Told N p taken before stays frames x) (hx : p ∈ x.1.peers.map Peer.id)
    (hnodup : (y.1.peers.map Peer.id).Nodup) (hy : p ∉ y.1.peers.map Peer.id)
    {frame : List UInt8} (hmore : frame ∈ more) (hrefuses : N.Refuses p frame)
    {begun : List UInt8} (hbegun : recvFramed begun = .error .unexpectedEof)
    (htaken : taken y.2 = taken x.2 ++ begun) :
    Told N p taken before stays (frames ++ more) y := by
  obtain ⟨-, ⟨whole, begun', -, hfits, -, heq, hall⟩, -⟩ := h
  obtain ⟨rfl, rfl⟩ := hall hx
  refine ⟨hnodup, ⟨whole, begun, List.prefix_append _ _, hfits, hbegun, ?_,
    fun hmem => absurd hmem hy⟩, fun _ hnone => ?_⟩
  · rw [htaken, heq, List.append_nil]
  · exact absurd hrefuses (hnone frame (List.mem_append_right _ hmore))

/-- The links change, and `p` is not concerned. -/
theorem same (h : Told N p taken before stays frames x) (hnodup : (y.1.peers.map Peer.id).Nodup)
    (hmem : p ∈ y.1.peers.map Peer.id → p ∈ x.1.peers.map Peer.id)
    (hkept : stays → p ∈ x.1.peers.map Peer.id → p ∈ y.1.peers.map Peer.id)
    (htaken : taken y.2 = taken x.2) : Told N p taken before stays frames y := by
  obtain ⟨-, ⟨whole, begun, hwhole, hfits, hbegun, heq, hall⟩, hkept'⟩ := h
  exact ⟨hnodup, ⟨whole, begun, hwhole, hfits, hbegun, by rw [htaken, heq],
    fun h => hall (hmem h)⟩, fun hstays hnone => hkept hstays (hkept' hstays hnone)⟩

end Told

/-- What a frame for all peers but `except` comes to for the peer `p`. -/
inductive Outcome {σ : Type} (N : Net σ) (p : PeerId) (taken : σ → List UInt8)
    (except : PeerId) (frame : List UInt8) (s : σ) (kept : List Peer) (s' : σ) : Prop
  | spared (h : p = except) (hkept : p ∈ kept.map Peer.id) (htaken : taken s' = taken s)
  | took (h : p ≠ except) (hkept : p ∈ kept.map Peer.id) (hfits : frame.length ≤ MAX_FRAME_LEN)
      (htaken : taken s' = taken s ++ framed frame)
  | dropped (h : p ≠ except) (hgone : p ∉ kept.map Peer.id) (hrefuses : N.Refuses p frame)
      {begun : List UInt8} (hbegun : recvFramed begun = .error .unexpectedEof)
      (htaken : taken s' = taken s ++ begun)

section Outcome

variable {σ : Type} {N : Net σ} {p except : PeerId} {taken : σ → List UInt8}
  {frame : List UInt8} {s s₁ s' : σ} {kept : List Peer}

theorem Outcome.of_taken (h : Outcome N p taken except frame s₁ kept s')
    (htaken : taken s₁ = taken s) : Outcome N p taken except frame s kept s' := by
  cases h with
  | spared h hkept h' => exact .spared h hkept (by rw [h', htaken])
  | took h hkept hfits h' => exact .took h hkept hfits (by rw [h', htaken])
  | dropped h hgone hrefuses hbegun h' =>
      exact .dropped h hgone hrefuses hbegun (by rw [h', htaken])

/-- Another peer comes first. -/
theorem Outcome.cons (h : Outcome N p taken except frame s₁ kept s') {q : Peer} (hq : q.id ≠ p)
    (htaken : taken s₁ = taken s) : Outcome N p taken except frame s (q :: kept) s' := by
  cases h.of_taken htaken with
  | spared h hkept h' => exact .spared h (List.mem_cons_of_mem _ hkept) h'
  | took h hkept hfits h' => exact .took h (List.mem_cons_of_mem _ hkept) hfits h'
  | dropped h hgone hrefuses hbegun h' =>
      refine .dropped h ?_ hrefuses hbegun h'
      rw [List.map_cons, List.mem_cons, not_or]
      exact ⟨Ne.symm hq, hgone⟩

end Outcome

theorem id_of_sendTo {σ : Type} {N : Net σ} {q q' : Peer} {frame : List UInt8}
    {tickLeft tickLeft' : ℕ} {s s' : σ} {sent : Except ErrorKind Unit}
    (h : sendTo N q frame tickLeft s = (sent, q', tickLeft', s')) :
    q'.id = q.id := congrArg (·.2.1.id) h.symm

theorem retainSent_ids {σ : Type} (N : Net σ) (except : PeerId) (frame : List UInt8)
    (ps : List Peer) (tickLeft : ℕ) (s : σ) :
    ((retainSent N except frame ps tickLeft s).1.map Peer.id).Sublist (ps.map Peer.id) := by
  induction ps generalizing tickLeft s with
  | nil => exact List.Sublist.slnil
  | cons q ps ih =>
      unfold retainSent
      split
      · exact (ih tickLeft s).cons_cons _
      · split <;> rename_i hsend
        · rw [List.map_cons, List.map_cons, id_of_sendTo hsend]
          exact (ih _ _).cons_cons _
        · exact (ih _ _).cons _

theorem map_id_replaceF {dest : PeerId} {q : Peer} (hq : q.id = dest) (ps : List Peer) :
    (ps.replaceF fun r => if r.id = dest then some q else none).map Peer.id =
      ps.map Peer.id := by
  induction ps with
  | nil => rfl
  | cons r ps ih => by_cases hr : r.id = dest <;> simp [hr, hq, ih]

namespace Net.Writes

variable {σ : Type} {N : Net σ} {p : PeerId} {taken : σ → List UInt8} {before : List UInt8}
  {stays : Prop} (hN : N.Writes p taken)
include hN

theorem sendTo_others {q : Peer} (hq : q.id ≠ p) {frame : List UInt8}
    {tickLeft tickLeft' : ℕ} {s s' : σ} {q' : Peer} {sent : Except ErrorKind Unit}
    (h : sendTo N q frame tickLeft s = (sent, q', tickLeft', s')) : taken s' = taken s :=
  (congrArg (taken ·.2.2.2) h).symm.trans (hN.others hq _ _ _)

theorem sendTo_ok {q : Peer} (hq : q.id = p) {frame : List UInt8}
    {tickLeft tickLeft' : ℕ} {s s' : σ} {q' : Peer}
    (h : sendTo N q frame tickLeft s = (.ok (), q', tickLeft', s')) :
    frame.length ≤ MAX_FRAME_LEN ∧ taken s' = taken s ++ framed frame := by
  subst hq
  have hsent : N.sendFrameBy q.id frame (N.now s + min q.burstLeft tickLeft) s = (.ok (), s') :=
    Prod.ext (congrArg (·.1) h) (congrArg (·.2.2.2) h)
  exact hN.whole hsent

theorem sendTo_error {q : Peer} (hq : q.id = p) {frame : List UInt8}
    {tickLeft tickLeft' : ℕ} {s s' : σ} {q' : Peer} {e : ErrorKind}
    (h : sendTo N q frame tickLeft s = (.error e, q', tickLeft', s')) :
    N.Refuses p frame ∧
      ∃ begun, recvFramed begun = .error .unexpectedEof ∧ taken s' = taken s ++ begun := by
  subst hq
  have hsent : N.sendFrameBy q.id frame (N.now s + min q.burstLeft tickLeft) s = (.error e, s') :=
    Prod.ext (congrArg (·.1) h) (congrArg (·.2.2.2) h)
  exact ⟨⟨_, _, _, _, hsent⟩, hN.cut hsent⟩

theorem retainSent_of_notMem (except : PeerId) (frame : List UInt8) {ps : List Peer}
    (hp : p ∉ ps.map Peer.id) (tickLeft : ℕ) (s : σ) :
    taken (retainSent N except frame ps tickLeft s).2.2 = taken s := by
  induction ps generalizing tickLeft s with
  | nil => rfl
  | cons q ps ih =>
      rw [List.map_cons, List.mem_cons, not_or] at hp
      unfold retainSent
      split
      · exact ih hp.2 tickLeft s
      · split
        · rename_i hsend
          exact (ih hp.2 _ _).trans (hN.sendTo_others (Ne.symm hp.1) hsend)
        · rename_i hsend
          exact (ih hp.2 _ _).trans (hN.sendTo_others (Ne.symm hp.1) hsend)

/-- A frame for all peers but one: `p` is that one, or takes the frame, or is
dropped. -/
theorem retainSent_of_mem {except : PeerId} {frame : List UInt8} {ps : List Peer}
    (hnodup : (ps.map Peer.id).Nodup) (hp : p ∈ ps.map Peer.id) (tickLeft : ℕ) (s : σ) :
    Outcome N p taken except frame s (retainSent N except frame ps tickLeft s).1
      (retainSent N except frame ps tickLeft s).2.2 := by
  induction ps generalizing tickLeft s with
  | nil => cases hp
  | cons q ps ih =>
      rw [List.map_cons, List.nodup_cons] at hnodup
      rw [List.map_cons, List.mem_cons] at hp
      unfold retainSent
      -- it is either this peer's turn, or its turn is among the rest
      rcases hp with rfl | hp
      · have hrest := hN.retainSent_of_notMem except frame hnodup.1
        have hlater : ∀ tickLeft s,
            q.id ∉ (retainSent N except frame ps tickLeft s).1.map Peer.id :=
          fun tickLeft s h => hnodup.1 ((retainSent_ids N except frame ps tickLeft s).subset h)
        split
        · rename_i hexcept
          exact .spared hexcept List.mem_cons_self (hrest _ _)
        · rename_i hexcept
          split
          · rename_i hsend
            obtain ⟨hfits, htaken⟩ := hN.sendTo_ok rfl hsend
            refine .took hexcept ?_ hfits ((hrest _ _).trans htaken)
            rw [List.map_cons, id_of_sendTo hsend]
            exact List.mem_cons_self
          · rename_i hsend
            obtain ⟨hrefuses, begun, hbegun, htaken⟩ := hN.sendTo_error rfl hsend
            exact .dropped hexcept (hlater _ _) hrefuses hbegun ((hrest _ _).trans htaken)
      · have hq : q.id ≠ p := fun h => hnodup.1 (h ▸ hp)
        split
        · exact (ih hnodup.2 hp tickLeft s).cons hq rfl
        · split
          · rename_i hsend
            refine (ih hnodup.2 hp _ _).cons ?_ (hN.sendTo_others hq hsend)
            rwa [id_of_sendTo hsend]
          · rename_i hsend
            exact (ih hnodup.2 hp _ _).of_taken (hN.sendTo_others hq hsend)

/-- Frames for `p` alone. -/
theorem sendOnly_self (fs : List (List UInt8)) {frames : List (List UInt8)} {x : Links × σ}
    (hx : Told N p taken before stays frames x) :
    Told N p taken before stays (frames ++ fs) (Links.sendOnly N p fs x) := by
  induction fs generalizing frames x with
  | nil => simpa [Links.sendOnly] using hx
  | cons frame fs ih =>
      obtain ⟨l, s⟩ := x
      unfold Links.sendOnly
      split
      · rename_i hfind
        have hnone : p ∉ l.peers.map Peer.id := by
          intro hmem
          obtain ⟨q, hq, hid⟩ := List.mem_map.mp hmem
          exact absurd (List.find?_eq_none.mp hfind q hq) (by simpa using hid)
        exact hx.gone hx.nodup hnone hnone rfl
      · rename_i q hfind
        have hid : q.id = p := by simpa using List.find?_some hfind
        have hmem : p ∈ l.peers.map Peer.id :=
          List.mem_map.mpr ⟨q, List.mem_of_find?_eq_some hfind, hid⟩
        split
        · rename_i q' tickLeft s' hsend
          obtain ⟨hfits, htaken⟩ := hN.sendTo_ok hid hsend
          have hids := map_id_replaceF ((id_of_sendTo hsend).trans hid) l.peers
          have hone : Told N p taken before stays (frames ++ [frame])
              (⟨l.peers.replaceF _, tickLeft⟩, s') :=
            hx.sent hmem (by rw [hids]; exact hx.nodup) (by rw [hids]; exact hmem) hfits htaken
          simpa using ih hone
        · rename_i e q' tickLeft s' hsend
          obtain ⟨hrefuses, begun, hbegun, htaken⟩ := hN.sendTo_error hid hsend
          refine hx.dropped hmem ((List.filter_sublist.map _).nodup hx.nodup) ?_
            List.mem_cons_self hrefuses hbegun htaken
          simp

/-- Frames for another. -/
theorem sendOnly_others {dest : PeerId} (hp : p ≠ dest) (fs : List (List UInt8))
    {frames : List (List UInt8)} {x : Links × σ} (hx : Told N p taken before stays frames x) :
    Told N p taken before stays frames (Links.sendOnly N dest fs x) := by
  induction fs generalizing x with
  | nil => exact hx
  | cons frame fs ih =>
      obtain ⟨l, s⟩ := x
      unfold Links.sendOnly
      split
      · exact hx
      · rename_i q hfind
        have hid : q.id = dest := by simpa using List.find?_some hfind
        split
        · rename_i q' tickLeft s' hsend
          have hids := map_id_replaceF ((id_of_sendTo hsend).trans hid) l.peers
          refine ih (hx.same ?_ (fun h => ?_) (fun _ h => ?_)
            (hN.sendTo_others (hid ▸ hp.symm) hsend))
          · rw [hids]
            exact hx.nodup
          · rwa [hids] at h
          · rwa [hids]
        · rename_i e q' tickLeft s' hsend
          refine hx.same ((List.filter_sublist.map _).nodup hx.nodup)
            (fun h => (List.filter_sublist.map _).subset h) (fun _ h => ?_)
            (hN.sendTo_others (hid ▸ hp.symm) hsend)
          obtain ⟨r, hr, rfl⟩ := List.mem_map.mp h
          exact List.mem_map.mpr ⟨r, List.mem_filter.mpr ⟨hr, by simpa using hp⟩, rfl⟩

/-- One send of a burst. -/
theorem send {frames : List (List UInt8)} {x : Links × σ}
    (hx : Told N p taken before stays frames x) (a : Send) :
    Told N p taken before stays (frames ++ a.addressed p) (Links.send N x a) := by
  cases a with
  | except id frame =>
      have hids := retainSent_ids N id frame x.1.peers x.1.tickWriteLeft x.2
      have hnodup := hids.nodup hx.nodup
      by_cases hmem : p ∈ x.1.peers.map Peer.id
      · have houtcome : Outcome N p taken id frame x.2 _ _ :=
          hN.retainSent_of_mem hx.nodup hmem x.1.tickWriteLeft x.2
        cases houtcome with
        | spared hp hkept htaken =>
            rw [Send.addressed, if_pos hp, List.append_nil]
            exact hx.same hnodup (fun _ => hmem) (fun _ _ => hkept) htaken
        | took hp hkept hfits htaken =>
            rw [Send.addressed, if_neg hp]
            exact hx.sent hmem hnodup hkept hfits htaken
        | dropped hp hgone hrefuses hbegun htaken =>
            rw [Send.addressed, if_neg hp]
            exact hx.dropped hmem hnodup hgone List.mem_cons_self hrefuses hbegun htaken
      · exact hx.gone hnodup hmem (fun h => hmem (hids.subset h))
          (hN.retainSent_of_notMem id frame hmem _ _)
  | only id fs =>
      by_cases hp : p = id
      · subst hp
        rw [Send.addressed, if_pos rfl]
        exact hN.sendOnly_self fs hx
      · rw [Send.addressed, if_neg hp, List.append_nil]
        exact hN.sendOnly_others hp fs hx

/-- A link that is not there is not written to, and does not come back. -/
theorem send_notMem {x : Links × σ} (hx : p ∉ x.1.peers.map Peer.id) (a : Send) :
    p ∉ (Links.send N x a).1.peers.map Peer.id ∧ taken (Links.send N x a).2 = taken x.2 := by
  cases a with
  | except id frame =>
      exact ⟨fun h => hx ((retainSent_ids N id frame x.1.peers _ _).subset h),
        hN.retainSent_of_notMem id frame hx _ _⟩
  | only id fs =>
      show p ∉ (Links.sendOnly N id fs x).1.peers.map Peer.id ∧
        taken (Links.sendOnly N id fs x).2 = taken x.2
      induction fs generalizing x with
      | nil => exact ⟨hx, rfl⟩
      | cons frame fs ih =>
          obtain ⟨l, s⟩ := x
          unfold Links.sendOnly
          split
          · exact ⟨hx, rfl⟩
          · rename_i q hfind
            have hid : q.id = id := by simpa using List.find?_some hfind
            have hq : q.id ≠ p :=
              fun h => hx (List.mem_map.mpr ⟨q, List.mem_of_find?_eq_some hfind, h⟩)
            split
            · rename_i q' tickLeft s' hsend
              have hids := map_id_replaceF ((id_of_sendTo hsend).trans hid) l.peers
              have hlater := @ih (⟨l.peers.replaceF _, tickLeft⟩, s') (by rw [hids]; exact hx)
              exact ⟨hlater.1, hlater.2.trans (hN.sendTo_others hq hsend)⟩
            · rename_i e q' tickLeft s' hsend
              exact ⟨fun h => hx ((List.filter_sublist.map _).subset h),
                hN.sendTo_others hq hsend⟩

theorem perform_notMem {A : Type} [SocketText A] (self : Self A) {x : Links × σ}
    (hx : p ∉ x.1.peers.map Peer.id) (b : Burst A) :
    p ∉ (perform N self x b).1.peers.map Peer.id ∧
      taken (perform N self x b).2 = taken x.2 := by
  have hfold : ∀ (as : List Send) (y : Links × σ), p ∉ y.1.peers.map Peer.id →
      p ∉ (as.foldl (Links.send N) y).1.peers.map Peer.id ∧
        taken (as.foldl (Links.send N) y).2 = taken y.2 := by
    intro as
    induction as with
    | nil => exact fun y hy => ⟨hy, rfl⟩
    | cons a as ih =>
        intro y hy
        obtain ⟨hgone, htaken⟩ := hN.send_notMem hy a
        obtain ⟨hgone', htaken'⟩ := ih _ hgone
        exact ⟨hgone', htaken'.trans htaken⟩
  rw [perform_eq_sends]
  refine hfold _ (x.1.beginBurst b.allowance, x.2) ?_
  simpa [Links.beginBurst] using hx

theorem sends {frames : List (List UInt8)} {x : Links × σ}
    (hx : Told N p taken before stays frames x) (as : List Send) :
    Told N p taken before stays (frames ++ as.flatMap (Send.addressed p))
      (as.foldl (Links.send N) x) := by
  induction as generalizing frames x with
  | nil => simpa using hx
  | cons a as ih => simpa using ih (hN.send hx a)

theorem perform {A : Type} [SocketText A] (self : Self A) (hp : p ≠ NO_PEER)
    {frames : List (List UInt8)} {x : Links × σ} (hx : Told N p taken before stays frames x)
    (b : Burst A) :
    Told N p taken before stays (frames ++ b.addressed self p) (perform N self x b) := by
  rw [← b.flatMap_sends self hp]
  have hbegin : Told N p taken before stays frames (x.1.beginBurst b.allowance, x.2) := by
    have hids : (x.1.beginBurst b.allowance).peers.map Peer.id = x.1.peers.map Peer.id := by
      simp [Links.beginBurst]
    refine hx.same ?_ (fun h => ?_) (fun _ h => ?_) rfl
    · rw [hids]
      exact hx.nodup
    · rwa [hids] at h
    · rwa [hids]
  rw [perform_eq_sends]
  exact hN.sends hbegin _

end Net.Writes

/-! ## Whole runs -/

/-- What happens on the control plane, one thing after the other. -/
inductive Turn (A : Type) where
  | pause (elapsed : ℕ)
  | beginTick
  | burst (b : Burst A)

section Turns

variable {A : Type} [SocketText A]

def Turn.addressed (self : Self A) (p : PeerId) : Turn A → List (List UInt8)
  | .burst b => b.addressed self p
  | _ => []

def Wires.turn (net : Behaviour) (self : Self A) (x : Links × Wires) : Turn A → Links × Wires
  | .pause elapsed => (x.1, { x.2 with now := x.2.now + elapsed })
  | .beginTick => (x.1.beginTick, x.2)
  | .burst b => perform (Wires.net net) self x b

/-- A link to `p`, in a table where no two have one id: ids are given out in
order, from the one after `NO_PEER`. -/
structure Links.Has (l : Links) (p : PeerId) : Prop where
  nodup : (l.peers.map Peer.id).Nodup
  mem : p ∈ l.peers.map Peer.id

theorem Told.turn {net : Behaviour} {p : PeerId} {before : List UInt8} {stays : Prop}
    {frames : List (List UInt8)} {x : Links × Wires}
    (h : Told (Wires.net net) p (Wires.taken · p) before stays frames x) (hp : p ≠ NO_PEER)
    (self : Self A) (t : Turn A) :
    Told (Wires.net net) p (Wires.taken · p) before stays (frames ++ t.addressed self p)
      (Wires.turn net self x t) := by
  cases t with
  | pause elapsed =>
      show Told _ _ _ _ _ (frames ++ []) _
      rw [List.append_nil]
      exact h.same h.nodup id (fun _ => id) rfl
  | beginTick =>
      show Told _ _ _ _ _ (frames ++ []) _
      rw [List.append_nil]
      exact h.same h.nodup id (fun _ => id) rfl
  | burst b => exact (Wires.writes net p).perform self hp h b

theorem Told.turns {net : Behaviour} {p : PeerId} {before : List UInt8} {stays : Prop}
    {frames : List (List UInt8)} {x : Links × Wires}
    (h : Told (Wires.net net) p (Wires.taken · p) before stays frames x) (hp : p ≠ NO_PEER)
    (self : Self A) (turns : List (Turn A)) :
    Told (Wires.net net) p (Wires.taken · p) before stays
      (frames ++ turns.flatMap (Turn.addressed self p))
      (turns.foldl (Wires.turn net self) x) := by
  induction turns generalizing frames x with
  | nil => simpa using h
  | cons t turns ih => simpa using ih (h.turn hp self t)

/-- A peer whose calls all take what they are given keeps its link, whatever is
left of any allowance and whatever other sockets do. It has taken the frames for
it and nothing else, whole and in order, and so it reads them. -/
theorem healthy_peer_kept (self : Self A) {net : Behaviour} {p : PeerId} (haccepts : net.Accepts p)
    (hp : p ≠ NO_PEER) {l : Links} (hl : l.Has p) (w : Wires) (turns : List (Turn A))
    (hlen : ∀ f ∈ turns.flatMap (Turn.addressed self p), f.length ≤ MAX_FRAME_LEN) :
    let frames := turns.flatMap (Turn.addressed self p)
    let y := turns.foldl (Wires.turn net self) (l, w)
    p ∈ y.1.peers.map Peer.id ∧ y.2.taken p = w.taken p ++ (frames.map framed).flatten ∧
      recvAll (frames.map framed).flatten = (frames, .unexpectedEof) := by
  intro frames y
  have hstart : Told (Wires.net net) p (Wires.taken · p) (w.taken p) True [] (l, w) :=
    ⟨hl.nodup, ⟨[], [], List.prefix_rfl, by simp, rfl, by simp, fun _ => ⟨rfl, rfl⟩⟩,
      fun _ _ => hl.mem⟩
  have hrun : Told (Wires.net net) p (Wires.taken · p) (w.taken p) True frames y :=
    hstart.turns hp self turns
  have hmem : p ∈ y.1.peers.map Peer.id :=
    hrun.kept trivial fun f hf => haccepts.not_refuses (hlen f hf)
  obtain ⟨whole, begun, -, -, -, htaken, hall⟩ := hrun.taken_eq
  obtain ⟨rfl, rfl⟩ := hall hmem
  rw [List.append_nil] at htaken
  refine ⟨hmem, htaken, ?_⟩
  simpa using @recvAll_broken _ hlen [] rfl

end Turns

/-- Peer 1 takes nothing. All others take everything, a minute a call. -/
def minuteEach : Behaviour := fun p _ bytes =>
  if p = 1 then [⟨.timedOut, STALL_LIMIT, trivial⟩]
  else [⟨.wrote bytes.length, 60000000, trivial⟩]

/-- With nothing left for the burst or the tick, peer 1 is dropped and peer 2,
which comes after it, is not. -/
theorem healthy_peer_kept_minutes :
    let self : Self Loopback := ⟨1, .v4, .v6, "a"⟩
    let turns := [.burst .emitHeartbeat, .pause 5, .burst (.relayHints [⟨1, 7, .v4, .v6, "b"⟩])]
    let y := turns.foldl (Wires.turn minuteEach self)
      (⟨[⟨1, 0⟩, ⟨2, 0⟩], 0⟩, ⟨0, fun _ => 0, fun _ => []⟩)
    y.1.peers.map Peer.id = [2] ∧
      recvAll (y.2.taken 2) =
        ([encodeControl self.heartbeat, encodeControl (.peerHint 7 Loopback.v4 .v6 "b")],
          .unexpectedEof) := by
  intro self turns y
  have haccepts : minuteEach.Accepts 2 := fun k bytes _ => ⟨60000000, [], rfl⟩
  obtain ⟨-, htaken, hrecv⟩ := healthy_peer_kept self haccepts (by decide)
    (l := ⟨[⟨1, 0⟩, ⟨2, 0⟩], 0⟩) ⟨by decide, by decide⟩ ⟨0, fun _ => 0, fun _ => []⟩
    turns (by decide +kernel)
  refine ⟨by decide +kernel, ?_⟩
  rw [htaken]
  exact hrecv

end XchannelNet.Broadcast
