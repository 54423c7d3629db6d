import XchannelNet.Broadcast.Delivery
import XchannelNet.Broadcast.FrameSize
import XchannelNet.Membership.Reader

/-!
# Conversation — what the far end of a link reads

A link whose frame is not taken whole is dropped, and nothing is written to it
again. What its socket took travels to the far end, in order and at its own pace,
and is read there frame by frame. So the far end reads what was said to it,
message by message and in order; all of it, if the link is there and what is on
its way arrives. A frame that was cut off is no message.

A link begins with a join, which is written before the link is among the peers.
A join that fails leaves no peer behind.
-/

namespace XchannelNet.Broadcast

open Wire

/-! ## Whole conversations -/

section Conversation

variable {A : Type} [SocketText A]

/-- The messages of a burst that are for `p`. -/
def Burst.messages (self : Self A) (p : PeerId) : Burst A → List (ControlMsg A)
  | .announce delta => (chunks MAX_IDENTITIES_PER_FRAME delta).map .registryDelta
  | .relay source delta =>
    if p = source then [] else (chunks MAX_IDENTITIES_PER_FRAME delta).map .registryDelta
  | .reply dest delta =>
    if p = dest then (chunks MAX_IDENTITIES_PER_FRAME delta).map .registryDelta else []
  | .relayHints pending =>
    (pending.filter fun h => h.node ≠ self.node ∧ h.source ≠ p).map fun h =>
      .peerHint h.node h.addr h.controlAddr h.name
  | .emitHeartbeat => [self.heartbeat]
  | .announceLeaving => [.leaving self.node]

theorem Burst.addressed_eq (self : Self A) (p : PeerId) (b : Burst A) :
    b.addressed self p = (b.messages self p).map encodeControl := by
  cases b with
  | announce delta => simp [addressed, messages, deltaFrames]
  | relay source delta =>
      by_cases h : p = source
      · simp [addressed, messages, h]
      · simp [addressed, messages, deltaFrames, h]
  | reply dest delta =>
      by_cases h : p = dest
      · simp [addressed, messages, deltaFrames, h]
      · simp [addressed, messages, h]
  | relayHints pending => simp [addressed, messages, Function.comp_def, Hint.frame]
  | emitHeartbeat => rfl
  | announceLeaving => rfl

def Turn.messages (self : Self A) (p : PeerId) : Turn A → List (ControlMsg A)
  | .burst b => b.messages self p
  | .pause _ => []
  | .beginTick => []

/-- What a link is told first: the registry, who is speaking, and everyone they
know. -/
def joinMessages (self : Self A) (initialSync : List ChannelIdentity)
    (directory : List (XchannelNet.Hint A)) : List (ControlMsg A) :=
  (chunks MAX_IDENTITIES_PER_FRAME initialSync).map .registrySync ++ [self.heartbeat] ++
    (directory.filter fun h => h.node ≠ self.node).map fun h =>
      .peerHint h.node h.addr h.controlAddr h.name

/-- Write frames one after the other under one deadline, up to the first that is
not taken. -/
def Wires.sendAll (net : Behaviour) (q : PeerId) (deadline : ℕ) (w : Wires) :
    List (List UInt8) → Except ErrorKind Unit × Wires
  | [] => (.ok (), w)
  | frame :: frames =>
    match sendFrameBy net q frame deadline w with
    | (.error e, w) => (.error e, w)
    | (.ok (), w) => sendAll net q deadline w frames

/-- A node's side of the control plane. -/
structure Plane where
  links : Links
  wires : Wires
  nextPeerId : PeerId

namespace Plane

/-- A connection comes up: the join is written, and if that succeeds the link is
a peer. The deadline is set for the `known` members of that moment; the directory
is read later, and may have grown. -/
def adopt (net : Behaviour) (self : Self A) (initialSync : List ChannelIdentity) (known : ℕ)
    (directory : List (XchannelNet.Hint A)) (x : Plane) : Plane :=
  let id := x.nextPeerId
  let deadline := x.wires.now + burstAllowance
    (identitiesEncodedLen initialSync + known * HINT_ENCODED_BYTES)
  match x.wires.sendAll net id deadline
      ((joinMessages self initialSync directory).map encodeControl) with
  | (.ok (), wires) =>
    ⟨{ x.links with peers := x.links.peers ++ [⟨id, PEER_BURST_MIN⟩] }, wires, id + 1⟩
  | (.error _, wires) => ⟨x.links, wires, id + 1⟩

/-- What happens on the control plane: bursts and pauses, a link that comes up,
and one that is dropped for another reason than a failed write. -/
inductive Talk (A : Type) where
  | turn (t : Turn A)
  | adopt (initialSync : List ChannelIdentity) (known : ℕ)
      (directory : List (XchannelNet.Hint A))
  | drop (id : PeerId)

def talk (net : Behaviour) (self : Self A) (x : Plane) : Talk A → Plane
  | .turn t =>
    let (links, wires) := Wires.turn net self (x.links, x.wires) t
    ⟨links, wires, x.nextPeerId⟩
  | .adopt initialSync known directory => x.adopt net self initialSync known directory
  | .drop id =>
    { x with links := { x.links with peers := x.links.peers.filter (·.id ≠ id) } }

/-- No links yet. -/
def new (now : ℕ) : Plane := ⟨⟨[], TICK_WRITE_BUDGET⟩, ⟨now, fun _ => 0, fun _ => []⟩, NO_PEER + 1⟩

/-- What `p` is told, when the next link will be `next`. -/
def said (self : Self A) (p : PeerId) : PeerId → List (Talk A) → List (ControlMsg A)
  | _, [] => []
  | next, .turn t :: talks =>
    (if p < next then t.messages self p else []) ++ said self p next talks
  | next, .adopt initialSync _ directory :: talks =>
    (if p = next then joinMessages self initialSync directory else []) ++
      said self p (next + 1) talks
  | next, .drop _ :: talks => said self p next talks

/-- How far `p` has been told some messages. A link that has not come up has been
told nothing. -/
structure Telling (net : Behaviour) (p : PeerId) (msgs : List (ControlMsg A)) (x : Plane) :
    Prop where
  ids : ∀ q ∈ x.links.peers, q.id < x.nextPeerId
  told : Told (Wires.net net) p (Wires.taken · p) [] False (msgs.map encodeControl)
    (x.links, x.wires)
  fresh : x.nextPeerId ≤ p → msgs = [] ∧ x.wires.taken p = []

end Plane

/-- The join of `p` is written whole, or the link is gone. -/
theorem Wires.sendAll_taken {net : Behaviour} {p : PeerId} {deadline : ℕ}
    {frames : List (List UInt8)} {w w' : Wires} {sent : Except ErrorKind Unit}
    (h : w.sendAll net p deadline frames = (sent, w')) :
    ∃ whole begun, whole <+: frames ∧ (∀ f ∈ whole, f.length ≤ MAX_FRAME_LEN) ∧
      recvFramed begun = .error .unexpectedEof ∧
      w'.taken p = w.taken p ++ (whole.map framed).flatten ++ begun ∧
      (sent = .ok () → whole = frames ∧ begun = []) := by
  induction frames generalizing w with
  | nil =>
      cases h
      exact ⟨[], [], List.prefix_rfl, by simp, rfl, by simp, fun _ => ⟨rfl, rfl⟩⟩
  | cons frame frames ih =>
      unfold sendAll at h
      split at h
      · rename_i e w₁ hsend
        cases h
        obtain ⟨begun, hbegun, htaken⟩ := (Wires.writes net p).cut hsend
        exact ⟨[], begun, List.nil_prefix, by simp, hbegun, by simpa using htaken, by simp⟩
      · rename_i w₁ hsend
        obtain ⟨hfits, htaken⟩ := (Wires.writes net p).whole hsend
        obtain ⟨whole, begun, hwhole, hall, hbegun, htaken', hsent⟩ := ih h
        refine ⟨frame :: whole, begun, (List.prefix_cons_inj _).mpr hwhole, ?_, hbegun, ?_, ?_⟩
        · intro f hf
          rcases List.mem_cons.mp hf with rfl | hf
          · exact hfits
          · exact hall f hf
        · rw [htaken', htaken]
          simp
        · intro hok
          rw [(hsent hok).1]
          exact ⟨rfl, (hsent hok).2⟩

theorem Wires.sendAll_others {net : Behaviour} {p q : PeerId} (hq : q ≠ p) {deadline : ℕ}
    {frames : List (List UInt8)} {w : Wires} :
    (w.sendAll net q deadline frames).2.taken p = w.taken p := by
  induction frames generalizing w with
  | nil => rfl
  | cons frame frames ih =>
      have hone := (Wires.writes net p).others hq frame deadline w
      unfold sendAll
      split
      · rename_i hsend
        exact (congrArg (·.2.taken p) hsend).symm.trans hone
      · rename_i hsend
        rw [ih]
        exact (congrArg (·.2.taken p) hsend).symm.trans hone

namespace Plane

variable {self : Self A} {net : Behaviour} {p : PeerId} {msgs : List (ControlMsg A)} {x : Plane}

/-- A link that has not come up is not a peer. -/
theorem Telling.notMem (h : Telling net p msgs x) (hp : x.nextPeerId ≤ p) :
    p ∉ x.links.peers.map Peer.id := by
  intro hmem
  obtain ⟨q, hq, rfl⟩ := List.mem_map.mp hmem
  exact absurd (h.ids q hq) (Nat.not_lt.mpr hp)

/-- A link that was known before `id` came up. -/
theorem mem_of_mem_snoc {ps : List Peer} {q : Peer} (hne : p ≠ q.id)
    (h : p ∈ (ps ++ [q]).map Peer.id) : p ∈ ps.map Peer.id := by
  rw [List.map_append, List.mem_append] at h
  rcases h with h | h
  · exact h
  · exact absurd (by simpa using h) hne

variable (self)

theorem Telling.adopt (h : Telling net p msgs x)
    (initialSync : List ChannelIdentity) (known : ℕ) (directory : List (XchannelNet.Hint A)) :
    Telling net p (msgs ++ if p = x.nextPeerId then joinMessages self initialSync directory else [])
      (x.adopt net self initialSync known directory) := by
  have hnext : x.nextPeerId ∉ x.links.peers.map Peer.id := by
    intro hmem
    obtain ⟨q, hq, hid⟩ := List.mem_map.mp hmem
    exact absurd (h.ids q hq) (by rw [hid]; exact lt_irrefl _)
  have hnodup :
      ((x.links.peers ++ [(⟨x.nextPeerId, PEER_BURST_MIN⟩ : Peer)]).map Peer.id).Nodup := by
    rw [List.map_append, List.nodup_append]
    refine ⟨h.told.nodup, by simp, ?_⟩
    rintro a ha b hb rfl
    rw [List.map_singleton, List.mem_singleton] at hb
    subst hb
    exact hnext ha
  have hlater : ∀ q ∈ x.links.peers, q.id < x.nextPeerId + 1 :=
    fun q hq => Nat.lt_succ_of_lt (h.ids q hq)
  rw [Plane.adopt]
  generalize x.wires.now + burstAllowance _ = deadline
  rcases hsend : x.wires.sendAll net x.nextPeerId deadline
    ((joinMessages self initialSync directory).map encodeControl) with ⟨sent, wires⟩
  by_cases hp : p = x.nextPeerId
  · -- this is the link that comes up
    subst hp
    obtain ⟨rfl, hnothing⟩ := h.fresh le_rfl
    obtain ⟨whole, begun, hwhole, hfits, hbegun, htaken, hsent⟩ := Wires.sendAll_taken hsend
    rw [hnothing, List.nil_append] at htaken
    rw [if_pos rfl, List.nil_append]
    cases sent with
    | ok u =>
        refine ⟨?_, ⟨hnodup, ⟨whole, begun, hwhole, hfits, hbegun, htaken, fun _ => hsent rfl⟩,
          nofun⟩, ?_⟩
        · exact List.forall_mem_append.mpr ⟨hlater, by simp⟩
        · exact fun hle => absurd hle (Nat.not_succ_le_self _)
    | error e =>
        exact ⟨hlater, ⟨h.told.nodup, ⟨whole, begun, hwhole, hfits, hbegun, htaken,
          fun hmem => absurd hmem hnext⟩, nofun⟩, fun hle => absurd hle (Nat.not_succ_le_self _)⟩
  · have hothers : wires.taken p = x.wires.taken p := by
      rw [← @Wires.sendAll_others net p x.nextPeerId (Ne.symm hp) deadline
        ((joinMessages self initialSync directory).map encodeControl) x.wires, hsend]
    have hfresh : x.nextPeerId + 1 ≤ p → msgs = [] ∧ wires.taken p = [] := by
      intro hle
      rw [hothers]
      exact h.fresh (Nat.le_of_succ_le hle)
    rw [if_neg hp, List.append_nil]
    cases sent with
    | ok u =>
        exact ⟨List.forall_mem_append.mpr ⟨hlater, by simp⟩,
          h.told.same hnodup (mem_of_mem_snoc hp) nofun hothers, hfresh⟩
    | error e => exact ⟨hlater, h.told.same h.told.nodup id nofun hothers, hfresh⟩

theorem Telling.turn (hp : p ≠ NO_PEER) (h : Telling net p msgs x) (t : Turn A) :
    Telling net p (msgs ++ if p < x.nextPeerId then t.messages self p else [])
      (x.talk net self (.turn t)) := by
  cases t with
  | pause elapsed =>
      simpa [talk, Wires.turn, Turn.messages] using
        (⟨h.ids, h.told.same h.told.nodup id nofun rfl, h.fresh⟩ :
          Telling net p msgs { x with wires := { x.wires with now := x.wires.now + elapsed } })
  | beginTick =>
      simpa [talk, Wires.turn, Turn.messages] using
        (⟨h.ids, h.told.same h.told.nodup id nofun rfl, h.fresh⟩ :
          Telling net p msgs { x with links := x.links.beginTick })
  | burst b =>
      have hids : ∀ q ∈ (perform (Wires.net net) self (x.links, x.wires) b).1.peers,
          q.id < x.nextPeerId := by
        intro q hq
        by_contra hge
        have hnot : q.id ∉ x.links.peers.map Peer.id := by
          intro hmem
          obtain ⟨r, hr, hid⟩ := List.mem_map.mp hmem
          exact hge (hid ▸ h.ids r hr)
        exact ((Wires.writes net q.id).perform_notMem self hnot b).1
          (List.mem_map_of_mem hq)
      by_cases hlt : p < x.nextPeerId
      · rw [if_pos hlt]
        refine ⟨hids, ?_, fun hle => absurd hlt (Nat.not_lt.mpr hle)⟩
        rw [List.map_append, Turn.messages, ← Burst.addressed_eq]
        exact (Wires.writes net p).perform self hp h.told b
      · have hle := Nat.not_lt.mp hlt
        have hnot : p ∉ (x.links, x.wires).1.peers.map Peer.id := h.notMem hle
        obtain ⟨hgone, htaken⟩ := (Wires.writes net p).perform_notMem self hnot b
        rw [if_neg hlt, List.append_nil]
        refine ⟨hids, h.told.same ?_ (fun hmem => absurd hmem hgone) nofun htaken, fun _ => ?_⟩
        · exact ((Wires.writes net p).perform self hp h.told b).nodup
        · exact ⟨(h.fresh hle).1, htaken.trans (h.fresh hle).2⟩

theorem Telling.drop (h : Telling net p msgs x) (id : PeerId) :
    Telling net p msgs (x.talk net self (.drop id)) :=
  ⟨fun q hq => h.ids q (List.mem_of_mem_filter hq),
    h.told.same ((List.filter_sublist.map _).nodup h.told.nodup)
      (fun hmem => (List.filter_sublist.map _).subset hmem) nofun rfl, h.fresh⟩

/-- By induction over what happens: everything that is said is told. -/
theorem Telling.talks (hp : p ≠ NO_PEER) (talks : List (Talk A))
    (h : Telling net p msgs x) :
    Telling net p (msgs ++ said self p x.nextPeerId talks) (talks.foldl (talk net self) x) := by
  induction talks generalizing msgs x with
  | nil => simpa [said] using h
  | cons t talks ih =>
      cases t with
      | turn t =>
          have hlater := ih (h.turn self hp t)
          rw [show (x.talk net self (.turn t)).nextPeerId = x.nextPeerId from rfl] at hlater
          simpa [said] using hlater
      | adopt initialSync known directory =>
          have hnext :
              (x.adopt net self initialSync known directory).nextPeerId = x.nextPeerId + 1 := by
            rw [Plane.adopt]
            split <;> rfl
          have hlater := ih (h.adopt self initialSync known directory)
          rw [hnext] at hlater
          simpa [said, talk] using hlater
      | drop id => exact ih (h.drop self id)

theorem telling_new (net : Behaviour) (p : PeerId) (now : ℕ) :
    Telling net p ([] : List (ControlMsg A)) (new now) :=
  ⟨by simp [new], ⟨by simp [new], ⟨[], [], List.prefix_rfl, by simp, rfl, rfl,
    fun _ => ⟨rfl, rfl⟩⟩, nofun⟩, fun _ => ⟨rfl, rfl⟩⟩

/-- Everything said since there were no links is told. -/
theorem telling_said (net : Behaviour) (hp : p ≠ NO_PEER) (now : ℕ) (talks : List (Talk A)) :
    Telling net p (said self p (NO_PEER + 1) talks) (talks.foldl (talk net self) (new now)) :=
  (telling_new net p now).talks self hp talks

end Plane

/-- The reader of a link: it stops at what it cannot decode. -/
def decodeWhile : List (List UInt8) → List (ControlMsg A)
  | [] => []
  | bytes :: frames =>
    match decodeControl bytes with
    | .ok m => m :: decodeWhile frames
    | .error _ => []

/-- What is read off a link. -/
def heard (stream : List UInt8) : List (ControlMsg A) := decodeWhile (recvAll stream).1

theorem decodeWhile_encode [LawfulSocketText A] {msgs : List (ControlMsg A)}
    (h : ∀ m ∈ msgs, m.Fits) : decodeWhile (msgs.map encodeControl) = msgs := by
  induction msgs with
  | nil => rfl
  | cons m msgs ih =>
      have hm : decodeControl (encodeControl m) = .ok m :=
        (reads_control (h m List.mem_cons_self)).accept _
      rw [List.map_cons, decodeWhile, hm, ih fun m' hm' => h m' (List.mem_cons_of_mem m hm')]

/-- What the sockets took of a link that has been told `msgs`, frame by frame. -/
theorem Plane.Telling.frames {net : Behaviour} {p : PeerId} {msgs : List (ControlMsg A)}
    {x : Plane} (h : Telling net p msgs x) :
    ∃ read, read <+: msgs ∧ (∀ m ∈ read, m.Fits) ∧
      recvAll (x.wires.taken p) = (read.map encodeControl, .unexpectedEof) ∧
      (p ∈ x.links.peers.map Peer.id → read = msgs) := by
  obtain ⟨whole, begun, hwhole, hlen, hbegun, htaken, hall⟩ := h.told.taken_eq
  obtain ⟨read, hread, rfl⟩ : ∃ read, read <+: msgs ∧ read.map encodeControl = whole := by
    rw [List.prefix_iff_eq_take] at hwhole
    refine ⟨_, List.take_prefix whole.length _, ?_⟩
    rw [List.map_take, ← hwhole]
  refine ⟨read, hread, fun m hm => ControlMsg.fits_of_length (hlen _ (List.mem_map_of_mem hm)),
    ?_, fun hmem => hread.eq_of_length ?_⟩
  · rw [show x.wires.taken p = _ from htaken, List.nil_append]
    exact recvAll_broken hlen hbegun
  · simpa using congrArg List.length (hall hmem).1

/-- What is read off a link that has been told `msgs`. -/
theorem Plane.Telling.heard [LawfulSocketText A] {net : Behaviour} {p : PeerId}
    {msgs : List (ControlMsg A)} {x : Plane} (h : Telling net p msgs x) :
    heard (x.wires.taken p) <+: msgs ∧
      (p ∈ x.links.peers.map Peer.id → heard (x.wires.taken p) = msgs) := by
  obtain ⟨read, hread, hfits, hframes, hall⟩ := h.frames
  have hheard : Broadcast.heard (x.wires.taken p) = read := by
    rw [Broadcast.heard, hframes]
    exact decodeWhile_encode hfits
  rw [hheard]
  exact ⟨hread, hall⟩

/-- What a socket took it keeps. -/
theorem Plane.Telling.taken_prefix {net : Behaviour} {p : PeerId} {msgs : List (ControlMsg A)}
    {x : Plane} (h : Telling net p msgs x) (hp : p ≠ NO_PEER) (self : Self A) (t : Talk A) :
    x.wires.taken p <+: (x.talk net self t).wires.taken p := by
  cases t with
  | turn t =>
      -- what follows is told after what has been taken so far
      have hstart : Told (Wires.net net) p (Wires.taken · p) (x.wires.taken p) False []
          (x.links, x.wires) :=
        ⟨h.told.nodup, ⟨[], [], List.prefix_rfl, by simp, rfl, by simp, fun _ => ⟨rfl, rfl⟩⟩,
          nofun⟩
      obtain ⟨whole, begun, -, -, -, htaken, -⟩ := (hstart.turn hp self t).taken_eq
      refine ⟨(whole.map framed).flatten ++ begun, ?_⟩
      rw [← List.append_assoc]
      exact htaken.symm
  | adopt initialSync known directory =>
      rw [talk, Plane.adopt]
      generalize x.wires.now + burstAllowance _ = deadline
      rcases hsend : x.wires.sendAll net x.nextPeerId deadline
        ((joinMessages self initialSync directory).map encodeControl) with ⟨sent, wires⟩
      have hgrows : x.wires.taken p <+: wires.taken p := by
        by_cases hid : x.nextPeerId = p
        · subst hid
          obtain ⟨whole, begun, -, -, -, htaken, -⟩ := Wires.sendAll_taken hsend
          rw [htaken, List.append_assoc]
          exact List.prefix_append _ _
        · have hothers := @Wires.sendAll_others net p x.nextPeerId hid deadline
            ((joinMessages self initialSync directory).map encodeControl) x.wires
          rw [hsend] at hothers
          rw [← hothers]
      cases sent with
      | ok u => exact hgrows
      | error e => exact hgrows
  | drop id => exact List.prefix_rfl

/-! ## The far end -/

/-- Why a reader has stopped: its connection failed, or it was sent what is no
message. -/
inductive Ended where
  | connection
  | rejected
  deriving DecidableEq, Repr

/-- The far end of a link: how much of what the socket here took has arrived, the
part of it not yet read, and the messages read. -/
structure FarEnd (A : Type) where
  arrived : ℕ
  buffered : List UInt8
  read : List (ControlMsg A)
  ended : Option Ended

namespace FarEnd

def new : FarEnd A := ⟨0, [], [], none⟩

/-- Up to `n` more of the bytes taken arrive, in order. -/
def arrive (taken : List UInt8) (n : ℕ) (f : FarEnd A) : FarEnd A :=
  { f with
    arrived := min (f.arrived + n) taken.length
    buffered := f.buffered ++ (taken.drop f.arrived).take n }

/-- The reader's next round. It waits while there is no whole frame. -/
def readOne (f : FarEnd A) : FarEnd A :=
  match f.ended with
  | some _ => f
  | none =>
    match recvFramed f.buffered with
    | .error .unexpectedEof => f
    | .error _ => { f with ended := some .rejected }
    | .ok (frame, rest) =>
      match decodeControl frame with
      | .ok m => { f with buffered := rest, read := f.read ++ [m] }
      | .error _ => { f with buffered := rest, ended := some .rejected }

/-- The connection fails, which is the end of the reader. -/
def sever (f : FarEnd A) : FarEnd A :=
  { f with ended := some (f.ended.getD .connection) }

/-- The messages read are the frames that came before what is buffered. -/
structure Follows (f : FarEnd A) (taken : List UInt8) : Prop where
  arrived_le : f.arrived ≤ taken.length
  split : ∀ more, recvAll (taken.take f.arrived ++ more) =
    (f.read.map encodeControl ++ (recvAll (f.buffered ++ more)).1,
      (recvAll (f.buffered ++ more)).2)
  fits : ∀ m ∈ f.read, m.Fits
  accepted : f.ended ≠ some .rejected

variable {f : FarEnd A} {taken taken' : List UInt8} {msgs : List (ControlMsg A)}

theorem follows_new (taken : List UInt8) : (new : FarEnd A).Follows taken where
  arrived_le := Nat.zero_le _
  split := fun more => by simp [new]
  fits := by simp [new]
  accepted := nofun

theorem Follows.grow (h : f.Follows taken) (hgrow : taken <+: taken') : f.Follows taken' where
  arrived_le := h.arrived_le.trans hgrow.length_le
  split := by
    obtain ⟨more, rfl⟩ := hgrow
    rw [List.take_append_of_le_length h.arrived_le]
    exact h.split
  fits := h.fits
  accepted := h.accepted

theorem Follows.arrive (h : f.Follows taken) (n : ℕ) : (f.arrive taken n).Follows taken where
  arrived_le := Nat.min_le_right _ _
  split := by
    intro more
    have htake : taken.take (min (f.arrived + n) taken.length) =
        taken.take f.arrived ++ (taken.drop f.arrived).take n := by
      rw [← List.take_take, List.take_length, List.take_add]
    simp only [FarEnd.arrive, htake, List.append_assoc, h.split]
  fits := h.fits
  accepted := h.accepted

theorem Follows.sever (h : f.Follows taken) : f.sever.Follows taken := by
  refine ⟨h.arrived_le, h.split, h.fits, ?_⟩
  have hended := h.accepted
  unfold FarEnd.sever
  cases hf : f.ended with
  | none => nofun
  | some e =>
      rw [hf] at hended
      exact hended

/-- All that is read from what has arrived is what is read from what was taken. -/
theorem Follows.split_taken (h : f.Follows taken)
    (htaken : recvAll taken = (msgs.map encodeControl, .unexpectedEof)) :
    f.read.map encodeControl ++ (recvAll (f.buffered ++ taken.drop f.arrived)).1 =
        msgs.map encodeControl ∧
      (recvAll (f.buffered ++ taken.drop f.arrived)).2 = .unexpectedEof := by
  have hsplit := h.split (taken.drop f.arrived)
  rw [List.take_append_drop, htaken] at hsplit
  exact ⟨(Prod.mk.inj hsplit).1.symm, (Prod.mk.inj hsplit).2.symm⟩

/-- What has been read is a beginning of what was taken. -/
theorem Follows.read_prefix [LawfulSocketText A] (h : f.Follows taken)
    (htaken : recvAll taken = (msgs.map encodeControl, .unexpectedEof))
    (hfits : ∀ m ∈ msgs, m.Fits) : f.read <+: msgs := by
  have hframes : f.read.map encodeControl <+: msgs.map encodeControl :=
    ⟨_, (h.split_taken htaken).1⟩
  rw [List.prefix_iff_eq_take, List.length_map, ← List.map_take] at hframes
  have hread := congrArg (decodeWhile (A := A)) hframes
  rw [decodeWhile_encode h.fits,
    decodeWhile_encode fun m hm => hfits m (List.mem_of_mem_take hm)] at hread
  rw [hread]
  exact List.take_prefix _ _

/-- What one round of the reader does: it has stopped, it waits for the rest of a
frame, or it reads one more message. It meets nothing it cannot read. -/
theorem Follows.readOne_cases [LawfulSocketText A] (h : f.Follows taken)
    (htaken : recvAll taken = (msgs.map encodeControl, .unexpectedEof))
    (hfits : ∀ m ∈ msgs, m.Fits) :
    (f.readOne = f ∧ (f.ended ≠ none ∨ recvFramed f.buffered = .error .unexpectedEof)) ∨
      ∃ m rest, m.Fits ∧ recvFramed f.buffered = .ok (encodeControl m, rest) ∧
        f.readOne = { f with buffered := rest, read := f.read ++ [m] } := by
  obtain ⟨hframes, hend⟩ := h.split_taken htaken
  unfold readOne
  cases hended : f.ended with
  | some e => exact .inl ⟨rfl, .inl nofun⟩
  | none =>
      cases hrecv : recvFramed f.buffered with
      | error e =>
          rcases recvFramed_error hrecv with rfl | rfl
          · exact .inl ⟨rfl, .inr rfl⟩
          · -- an oversized frame would be the end of what was taken
            rw [recvAll_error (recvFramed_append_invalid hrecv _)] at hend
            cases hend
      | ok next =>
          obtain ⟨frame, rest⟩ := next
          rw [recvAll_ok (recvFramed_append_ok hrecv _)] at hframes
          obtain ⟨m, hm, rfl⟩ : ∃ m ∈ msgs, encodeControl m = frame := by
            have hmem : frame ∈ msgs.map encodeControl := by
              rw [← hframes]
              simp
            simpa using hmem
          have hdecode : decodeControl (encodeControl m) = .ok m :=
            (reads_control (hfits m hm)).accept _
          exact .inr ⟨m, rest, hfits m hm, rfl, by simp only [hdecode]⟩

theorem Follows.readOne [LawfulSocketText A] (h : f.Follows taken)
    (htaken : recvAll taken = (msgs.map encodeControl, .unexpectedEof))
    (hfits : ∀ m ∈ msgs, m.Fits) : f.readOne.Follows taken := by
  rcases h.readOne_cases htaken hfits with ⟨hsame, -⟩ | ⟨m, rest, hm, hrecv, hread⟩
  · rw [hsame]
    exact h
  · rw [hread]
    refine ⟨h.arrived_le, fun more => ?_, List.forall_mem_append.mpr ⟨h.fits, by simpa using hm⟩,
      h.accepted⟩
    rw [h.split more, recvAll_ok (recvFramed_append_ok hrecv more)]
    simp

/-- Once everything has arrived, a reader that reads on has read everything. -/
theorem Follows.reads_all [LawfulSocketText A] (h : f.Follows taken)
    (htaken : recvAll taken = (msgs.map encodeControl, .unexpectedEof))
    (hfits : ∀ m ∈ msgs, m.Fits) (hreading : f.ended = none) (harrived : f.arrived = taken.length)
    {m : ℕ} (hm : msgs.length ≤ f.read.length + m) : (FarEnd.readOne^[m] f).read = msgs := by
  induction m generalizing f with
  | zero => exact (h.read_prefix htaken hfits).eq_of_length_le hm
  | succ m ih =>
      rw [Function.iterate_succ_apply]
      rcases h.readOne_cases htaken hfits with ⟨hsame, hwhy⟩ | ⟨msg, rest, -, -, hread⟩
      · -- the reader waits, so there is nothing more to read
        have hwaits : recvFramed f.buffered = .error .unexpectedEof :=
          hwhy.resolve_left fun hne => hne hreading
        have hframes := (h.split_taken htaken).1
        rw [harrived, List.drop_length, List.append_nil, recvAll_error hwaits,
          List.append_nil] at hframes
        have hlen : f.read.length = msgs.length := by
          simpa using congrArg List.length hframes
        rw [hsame]
        exact ih h hreading harrived (by omega)
      · refine ih (h.readOne htaken hfits) ?_ ?_ ?_
        · rw [hread]
          exact hreading
        · rw [hread]
          exact harrived
        · rw [hread, List.length_append, List.length_singleton]
          omega

end FarEnd

/-- A node and the far ends of its links. -/
structure Exchange (A : Type) where
  plane : Plane
  far : PeerId → FarEnd A

/-- Something happens here, bytes arrive at a far end, a far end reads, or its
connection fails. -/
inductive Event (A : Type) where
  | here (t : Plane.Talk A)
  | arrive (p : PeerId) (n : ℕ)
  | read (p : PeerId)
  | sever (p : PeerId)

/-- What happened here. -/
def Event.talk : Event A → List (Plane.Talk A)
  | .here t => [t]
  | _ => []

namespace Exchange

def new (now : ℕ) : Exchange A := ⟨Plane.new now, fun _ => .new⟩

def step (net : Behaviour) (self : Self A) (y : Exchange A) : Event A → Exchange A
  | .here t => { y with plane := y.plane.talk net self t }
  | .arrive p n =>
    { y with far := Function.update y.far p ((y.far p).arrive (y.plane.wires.taken p) n) }
  | .read p => { y with far := Function.update y.far p (y.far p).readOne }
  | .sever p => { y with far := Function.update y.far p (y.far p).sever }

theorem plane_foldl (net : Behaviour) (self : Self A) (es : List (Event A)) (y : Exchange A) :
    (es.foldl (step net self) y).plane =
      (es.flatMap Event.talk).foldl (Plane.talk net self) y.plane := by
  induction es generalizing y with
  | nil => rfl
  | cons e es ih =>
      rw [List.foldl_cons, ih]
      cases e <;> rfl

/-- At any time the far end has read a part of what was taken, and what was taken
is told. -/
theorem follows_step [LawfulSocketText A] {net : Behaviour} {self : Self A} {p : PeerId}
    (hp : p ≠ NO_PEER) {msgs : List (ControlMsg A)} {y : Exchange A}
    (htelling : y.plane.Telling net p msgs)
    (h : (y.far p).Follows (y.plane.wires.taken p)) (e : Event A) :
    ((y.step net self e).far p).Follows ((y.step net self e).plane.wires.taken p) := by
  obtain ⟨read, -, hfits, hframes, -⟩ := htelling.frames
  -- what happens at one far end leaves the others alone
  have hupdate : ∀ (q : PeerId) (g : FarEnd A), (q = p → g.Follows (y.plane.wires.taken p)) →
      ((Function.update y.far q g) p).Follows (y.plane.wires.taken p) := by
    intro q g hg
    by_cases hq : q = p
    · subst hq
      rw [Function.update_self]
      exact hg rfl
    · rw [Function.update_of_ne (Ne.symm hq)]
      exact h
  cases e with
  | here t => exact h.grow (htelling.taken_prefix hp self t)
  | arrive q n => exact hupdate q _ fun hq => by subst hq; exact h.arrive n
  | read q => exact hupdate q _ fun hq => by subst hq; exact h.readOne hframes hfits
  | sever q => exact hupdate q _ fun hq => by subst hq; exact h.sever

end Exchange

theorem Exchange.follows [LawfulSocketText A] (net : Behaviour) (self : Self A) {p : PeerId}
    (hp : p ≠ NO_PEER) (now : ℕ) (es : List (Event A)) :
    let y := es.foldl (Exchange.step net self) (Exchange.new now)
    y.plane.Telling net p (Plane.said self p (NO_PEER + 1) (es.flatMap Event.talk)) ∧
      (y.far p).Follows (y.plane.wires.taken p) := by
  have htelling : ∀ es : List (Event A),
      (es.foldl (Exchange.step net self) (Exchange.new now)).plane.Telling net p
        (Plane.said self p (NO_PEER + 1) (es.flatMap Event.talk)) := by
    intro es
    rw [plane_foldl]
    exact Plane.telling_said self net hp now _
  refine ⟨htelling es, ?_⟩
  induction es using List.reverseRecOn with
  | nil => exact FarEnd.follows_new _
  | append_singleton es e ih =>
      rw [List.foldl_concat]
      exact follows_step hp (htelling es) ih e

theorem Exchange.far_reads (net : Behaviour) (self : Self A) (p : PeerId) (m : ℕ)
    (y : Exchange A) :
    ((List.replicate m (.read p)).foldl (Exchange.step net self) y).far p =
      FarEnd.readOne^[m] (y.far p) := by
  induction m generalizing y with
  | zero => rfl
  | succ m ih =>
      rw [List.replicate_succ, List.foldl_cons, ih, Function.iterate_succ_apply]
      simp only [step, Function.update_self]

/-- **The far end reads what was said.** Whatever the sockets do and whatever
happens on the other links, what the far end of a link has read is a beginning of
the messages it was told, in their order, and it never meets what is no message.
While the link is a peer and its connection has not failed, the far end reads all of
them once they arrive. -/
theorem far_end_reads [LawfulSocketText A] (net : Behaviour) (self : Self A) {p : PeerId}
    (hp : p ≠ NO_PEER) (now : ℕ) (es : List (Event A)) :
    let y := es.foldl (Exchange.step net self) (Exchange.new now)
    let said := Plane.said self p (NO_PEER + 1) (es.flatMap Event.talk)
    (y.far p).read <+: said ∧ (y.far p).ended ≠ some .rejected ∧
      (p ∈ y.plane.links.peers.map Peer.id → (y.far p).ended = none → ∀ n m,
        (y.plane.wires.taken p).length ≤ (y.far p).arrived + n →
        said.length ≤ (y.far p).read.length + m →
        (((.arrive p n :: List.replicate m (.read p)).foldl
          (Exchange.step net self) y).far p).read = said) := by
  intro y said
  obtain ⟨htelling, hfollows⟩ : y.plane.Telling net p said ∧ _ :=
    Exchange.follows net self hp now es
  obtain ⟨read, hread, hfits, hframes, hall⟩ := htelling.frames
  refine ⟨(hfollows.read_prefix hframes hfits).trans hread, hfollows.accepted, ?_⟩
  intro hmem hreading n m hn hm
  have harrived : ((y.step net self (.arrive p n)).far p) =
      (y.far p).arrive (y.plane.wires.taken p) n := Function.update_self ..
  rw [List.foldl_cons, Exchange.far_reads, harrived, ← hall hmem]
  refine (hfollows.arrive n).reads_all hframes hfits hreading (Nat.min_eq_right hn) ?_
  rw [hall hmem]
  exact hm

/-- Peer 1 takes nothing of its join and never becomes a peer. Of what peer 2 is
told, 80 bytes arrive in time for it to read a message; the rest comes later. -/
theorem far_end_reads_second :
    let self : Self Loopback := ⟨1, .v4, .v6, "a"⟩
    let es := [.here (.adopt [] 0 []), .here (.adopt [] 1 [⟨7, .v4, .v6, "b"⟩]), .arrive 2 80,
      .read 2, .read 2, .here (.turn (.burst .emitHeartbeat))]
    let y := es.foldl (Exchange.step minuteEach self) (Exchange.new 0)
    y.plane.links.peers.map Peer.id = [2] ∧ (y.far 2).read = [self.heartbeat] ∧
      (((.arrive 2 200 :: List.replicate 2 (.read 2)).foldl
        (Exchange.step minuteEach self) y).far 2).read =
        [self.heartbeat, .peerHint 7 Loopback.v4 .v6 "b", self.heartbeat] := by
  intro self es y
  have hpeers : y.plane.links.peers.map Peer.id = [2] := by decide +kernel
  have hread : (y.far 2).read = [self.heartbeat] := by decide +kernel
  have hsaid : Plane.said self 2 (NO_PEER + 1) (es.flatMap Event.talk) =
      [self.heartbeat, .peerHint 7 Loopback.v4 .v6 "b", self.heartbeat] := by decide +kernel
  have hended : (y.far 2).ended = none := by decide +kernel
  have harrives : (y.plane.wires.taken 2).length ≤ (y.far 2).arrived + 200 := by decide +kernel
  obtain ⟨-, -, hall⟩ := far_end_reads minuteEach self (p := 2) (by decide) 0 es
  have hy : es.foldl (Exchange.step minuteEach self) (Exchange.new 0) = y := rfl
  rw [hsaid, hy] at hall
  -- of the run, only what was computed above matters
  clear_value y
  have hmem : 2 ∈ y.plane.links.peers.map Peer.id := by
    rw [hpeers]
    exact List.mem_singleton_self 2
  have hmore : 3 ≤ (y.far 2).read.length + 2 := by
    rw [hread]
    decide
  exact ⟨hpeers, hread, hall hmem hended 200 2 harrives hmore⟩

end Conversation

/-! ## The identities among the messages -/

section Inbox

variable {P A : Type}

/-- The identities a burst carries to `p`. -/
def Burst.identities (p : PeerId) : Burst A → List ChannelIdentity
  | .announce delta => delta
  | .relay source delta => if p = source then [] else delta
  | .reply dest delta => if p = dest then delta else []
  | _ => []

/-- The identities told to `p`, when the next link will be `next`: the registry as
it was when the link came up, then every change. -/
def Plane.disseminated (p : PeerId) : PeerId → List (Plane.Talk A) → List ChannelIdentity
  | _, [] => []
  | next, .turn (.burst b) :: talks =>
    (if p < next then b.identities p else []) ++ disseminated p next talks
  | next, .adopt initialSync _ _ :: talks =>
    (if p = next then initialSync else []) ++ disseminated p (next + 1) talks
  | next, _ :: talks => disseminated p next talks

/-- Cutting a list of identities into frames is invisible to who reads them. -/
theorem flatMap_identitiesOf_chunks {f : List ChannelIdentity → ControlMsg A}
    (hf : ∀ ids, identitiesOf (f ids) = ids) (ids : List ChannelIdentity) :
    ((chunks MAX_IDENTITIES_PER_FRAME ids).map f).flatMap identitiesOf = ids := by
  rw [List.flatMap_map]
  simp only [hf]
  rw [List.flatMap_id', flatten_chunks (by decide)]

theorem Burst.identities_eq (self : Self A) (p : PeerId) (b : Burst A) :
    (b.messages self p).flatMap identitiesOf = b.identities p := by
  have hdelta := flatMap_identitiesOf_chunks (A := A) (f := .registryDelta) fun _ => rfl
  cases b with
  | announce delta => exact hdelta delta
  | relay source delta =>
      rw [messages, identities]
      split
      · rfl
      · exact hdelta delta
  | reply dest delta =>
      rw [messages, identities]
      split
      · exact hdelta delta
      · rfl
  | relayHints pending => simp [messages, identities, identitiesOf, List.flatMap_map]
  | emitHeartbeat => rfl
  | announceLeaving => rfl

theorem joinMessages_identities (self : Self A) (initialSync : List ChannelIdentity)
    (directory : List (XchannelNet.Hint A)) :
    (joinMessages self initialSync directory).flatMap identitiesOf = initialSync := by
  have hsync := flatMap_identitiesOf_chunks (A := A) (f := .registrySync) fun _ => rfl
  simp [joinMessages, hsync, List.flatMap_map, identitiesOf, Self.heartbeat]

theorem Plane.said_identities (self : Self A) (p next : PeerId) (talks : List (Plane.Talk A)) :
    (Plane.said self p next talks).flatMap identitiesOf = Plane.disseminated p next talks := by
  fun_induction Plane.disseminated p next talks with
  | case1 next => rfl
  | case2 next b talks ih =>
      rw [said, List.flatMap_append, ih]
      split
      · rw [Turn.messages, Burst.identities_eq]
      · rfl
  | case3 next initialSync known directory talks ih =>
      rw [said, List.flatMap_append, ih]
      split
      · rw [joinMessages_identities]
      · rfl
  | case4 next t talks hburst hadopt ih =>
      cases t with
      | turn t => cases t <;> simp_all [said, Turn.messages]
      | adopt => simp_all
      | drop => exact ih

variable [DecidableEq P] [DecidableEq A]

/-- What came in on link `f`. -/
def inboxOf (f : P) (d : Dissemination P A) : List ChannelIdentity :=
  (d.inbox.filter fun i => i.1 = f).map Prod.snd

theorem inboxOf_receive (d : Dissemination P A) (t : Instant) (f id : P) (m : ControlMsg A) :
    inboxOf f (d.receive t id m) = inboxOf f d ++ if id = f then identitiesOf m else [] := by
  have hids : ∀ ids : List ChannelIdentity,
      inboxOf f { d with inbox := d.inbox ++ ids.map fun i => (id, i) } =
        inboxOf f d ++ if id = f then ids else [] := by
    intro ids
    by_cases hf : id = f <;> simp [inboxOf, List.filter_map, Function.comp_def, hf]
  -- every other frame leaves the inbox alone
  have hrest : (d.receive t id m).inbox = d.inbox → identitiesOf m = [] →
      inboxOf f (d.receive t id m) = inboxOf f d ++ if id = f then identitiesOf m else [] := by
    intro hinbox hnone
    simp [inboxOf, hinbox, hnone]
  cases m with
  | registryDelta ids => exact hids ids
  | registrySync ids => exact hids ids
  | register id => exact hrest rfl rfl
  | deregister name incarnation => exact hrest rfl rfl
  | registerRejected name reason => exact hrest rfl rfl
  | heartbeat node addr controlAddr name =>
      refine hrest ?_ rfl
      simp only [Dissemination.receive]
      split_ifs <;> rfl
  | peerHint node addr controlAddr name =>
      refine hrest ?_ rfl
      simp only [Dissemination.receive]
      split_ifs <;> rfl
  | leaving node =>
      refine hrest ?_ rfl
      simp only [Dissemination.receive]
      split_ifs <;> rfl

/-- The messages among the arrivals that came in on link `f`. -/
def messagesOn (f : P) (es : List (XchannelNet.Arrival P A)) : List (ControlMsg A) :=
  (es.filter fun a => a.link = f).map (·.msg)

theorem inboxOf_arrivals (f : P) (es : List (XchannelNet.Arrival P A)) (d : Dissemination P A) :
    inboxOf f (d.arrivals es) = inboxOf f d ++ (messagesOn f es).flatMap identitiesOf := by
  induction es generalizing d with
  | nil => simp [Dissemination.arrivals, messagesOn]
  | cons a es ih =>
      have hlater : inboxOf f (d.arrivals (a :: es)) =
          inboxOf f (d.arrive a) ++ (messagesOn f es).flatMap identitiesOf := ih (d.arrive a)
      rw [hlater, Dissemination.arrive, inboxOf_receive, List.append_assoc]
      by_cases hf : a.link = f <;> simp [messagesOn, hf]

/-- **Identities reach the far registry's inbox.** A node reads the link at its
own pace and among arrivals on its other links. What it then has in its inbox from
this link is, after what it had, a beginning of the identities it was told: the
registry as of the join, then every change, in order, none lost between two and none
doubled. It has them all once the link, still a peer, is read to its end. -/
theorem identities_delivered [SocketText A] [LawfulSocketText A] (net : Behaviour)
    (self : Self A) {p : PeerId} (hp : p ≠ NO_PEER) (now : ℕ) (talks : List (Plane.Talk A))
    (d : Dissemination P A) (f : P) (es : List (XchannelNet.Arrival P A))
    (hread : messagesOn f es <+:
      heard ((talks.foldl (Plane.talk net self) (Plane.new now)).wires.taken p)) :
    let x := talks.foldl (Plane.talk net self) (Plane.new now)
    ∃ ids, inboxOf f (d.arrivals es) = inboxOf f d ++ ids ∧
      ids <+: Plane.disseminated p (NO_PEER + 1) talks ∧
      (p ∈ x.links.peers.map Peer.id → messagesOn f es = heard (x.wires.taken p) →
        ids = Plane.disseminated p (NO_PEER + 1) talks) := by
  intro x
  obtain ⟨hbegin, hall⟩ := (Plane.telling_said self net hp now talks).heard
  refine ⟨_, inboxOf_arrivals f es d, ?_, fun hmem hend => ?_⟩
  · rw [← Plane.said_identities self]
    exact (hread.trans hbegin).flatMap identitiesOf
  · rw [hend, hall hmem, Plane.said_identities]

/-- Link 5 of another node is peer 2 of this one. -/
theorem identities_delivered_second :
    let self : Self Loopback := ⟨1, .v4, .v6, "a"⟩
    let talks := [.adopt [] 0 [], .adopt [named "x"] 0 [],
      .turn (.burst (.announce [named "y"]))]
    let x := talks.foldl (Plane.talk minuteEach self) (Plane.new 0)
    let es : List (XchannelNet.Arrival ℕ Loopback) :=
      (heard (x.wires.taken 2)).map fun m => ⟨0, 5, m⟩
    inboxOf 5 ((Dissemination.new 7 .v6 1000 fun _ => none).arrivals es) =
      [named "x", named "y"] := by
  intro self talks x es
  have hes : messagesOn 5 es = heard (x.wires.taken 2) := by
    simp [es, messagesOn, List.filter_map, Function.comp_def]
  have hpeers : 2 ∈ x.links.peers.map Peer.id := by decide +kernel
  simp only [x] at hpeers hes
  obtain ⟨ids, hin, -, hall⟩ := identities_delivered (p := 2) minuteEach self (by decide) 0 talks
    (Dissemination.new 7 .v6 1000 fun _ => none) 5 es (by rw [hes])
  have hids : ids = [named "x", named "y"] := hall hpeers hes
  rw [hin, hids]
  rfl

end Inbox

end XchannelNet.Broadcast
