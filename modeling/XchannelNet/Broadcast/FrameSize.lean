import XchannelNet.Broadcast.Sending
import XchannelNet.Lib.Run
import XchannelNet.Node.Hosting
import XchannelNet.Registry.Basic
import XchannelNet.Wire.RoundTrip

/-!
# FrameSize — how large the frames of a registry get

Identities come in with the frames of peers, each of which is at most
`MAX_FRAME_LEN` long, or are claimed here under a name that was looked at. They
go out again in other groups: a full frame holds `MAX_IDENTITIES_PER_FRAME` of
them, however long they are. Nothing bounds what one identity takes but the
frame it came in, so two that came alone may not fit in one frame together.
-/

namespace XchannelNet.Broadcast

open Wire Mux

/-! ## The encoded length -/

/-- The length that is counted by hand is the one the encoder writes. -/
theorem length_putIdentity (id : ChannelIdentity) :
    (putIdentity id).length = identityEncodedLen id := by
  obtain ⟨name, owner, regionSize, mtu, earliestIndex, registeredAtNanos, epoch, deleted,
    memberOf⟩ := id
  cases memberOf <;>
    simp [putIdentity, identityEncodedLen, W.str, W.bytes, W.u64, W.u32, W.bool, W.u8, W.optStr,
      Bytes.length_encode] <;> omega

theorem length_putIdentities (ids : List ChannelIdentity) :
    (putIdentities ids).length = 4 + identitiesEncodedLen ids := by
  simp [putIdentities, W.list, W.u32, Bytes.length_encode, identitiesEncodedLen,
    List.length_flatten, Function.comp_def, length_putIdentity]

theorem identitiesEncodedLen_le {ids : List ChannelIdentity} {room : ℕ}
    (h : ∀ id ∈ ids, identityEncodedLen id ≤ room) :
    identitiesEncodedLen ids ≤ ids.length * room := by
  have hle := List.sum_le_card_nsmul (ids.map identityEncodedLen) room
  rw [List.length_map, smul_eq_mul] at hle
  refine hle fun n hn => ?_
  obtain ⟨id, hid, rfl⟩ := List.mem_map.mp hn
  exact h id hid

/-! ## The registry -/

/-- What one identity may take for a full frame of them to be sent. -/
def IDENTITY_ROOM : ℕ := (MAX_FRAME_LEN - 5) / MAX_IDENTITIES_PER_FRAME

/-- The identities a reader takes from a message. -/
def identitiesOf {A : Type} : ControlMsg A → List ChannelIdentity
  | .registryDelta ids => ids
  | .registrySync ids => ids
  | _ => []

section Registry

variable (A : Type) [SocketText A]

/-- One change of a registry: an identity of a frame that was accepted is
merged, a name is claimed, for a topic or not, or a name is given up. What a
peer sends and what is claimed for a topic is `ok`. -/
inductive Intake (ok : ChannelIdentity → Prop) (r : Registry) : Registry → Prop
  | arrived {frame : List UInt8} {msg : ControlMsg A} {id : ChannelIdentity}
      (hlen : frame.length ≤ MAX_FRAME_LEN) (hmsg : decodeControl frame = .ok msg)
      (hid : id ∈ identitiesOf msg) (hok : ok id) : Intake ok r (r.mergeTracked id).1
  | claimed {id : ChannelIdentity} (hname : validateChannelName id.name)
      (hok : id.memberOf.isSome → ok id) : Intake ok r (r.mergeTracked id).1
  | deregistered (n : ChannelName) (owner : NodeId) : Intake ok r (r.deregister n owner).1
  | reaped (n : ChannelName) : Intake ok r (r.reap n).1

end Registry

/-- Every entry has room in a full frame. -/
def Roomy (r : Registry) : Prop :=
  ∀ n id, r.getRaw n = some id → identityEncodedLen id ≤ IDENTITY_ROOM

theorem Roomy.mergeTracked {r : Registry} (h : Roomy r) {id : ChannelIdentity}
    (hid : identityEncodedLen id ≤ IDENTITY_ROOM) : Roomy (r.mergeTracked id).1 := by
  intro n id' hget
  rcases Registry.getRaw_mergeTracked_choice hget with hold | ⟨rfl, -⟩
  · exact h n id' hold
  · exact hid

theorem Roomy.reap {r : Registry} (h : Roomy r) (n : ChannelName) : Roomy (r.reap n).1 := by
  rcases r.reap_cases n with hr | ⟨id, hget, -, hr⟩ <;> rw [hr]
  · exact h
  · exact h.mergeTracked (h n id hget)

/-- A name that was looked at is short. -/
theorem length_of_validateChannelName {name : ChannelName} (h : validateChannelName name) :
    (nameBytes name).length ≤ CHANNEL_NAME_MAX := by
  simp only [validateChannelName, Bool.and_eq_true, decide_eq_true_eq] at h
  exact h.1.1.2

variable {A : Type} [SocketText A]

theorem Roomy.intake {r r' : Registry} (h : Roomy r)
    (hstep : Intake A (fun id => identityEncodedLen id ≤ IDENTITY_ROOM) r r') : Roomy r' := by
  cases hstep with
  | arrived _ _ _ hok => exact h.mergeTracked hok
  | @claimed id hname hok =>
      refine h.mergeTracked ?_
      cases hm : id.memberOf with
      | some t => exact hok (by simp [hm])
      | none =>
          have hlen := length_of_validateChannelName hname
          simp only [identityEncodedLen, hm, Option.elim_none]
          have : CHANNEL_NAME_MAX + 50 ≤ IDENTITY_ROOM := by decide
          omega
  | deregistered n owner =>
      rcases r.deregister_cases n owner with hr | ⟨hr, -⟩ <;> rw [hr]
      · exact h
      · exact h.reap n
  | reaped n => exact h.reap n

/-! ## The frames -/

theorem chunks_spec {α : Type} {n : ℕ} {as batch : List α} (h : batch ∈ chunks n as) :
    batch.length ≤ n ∧ batch ⊆ as := by
  obtain ⟨i, -, rfl⟩ := List.mem_map.mp h
  exact ⟨List.length_take_le _ _,
    fun a ha => List.mem_of_mem_drop (List.mem_of_mem_take ha)⟩

theorem length_encodeControl_delta (ids : List ChannelIdentity) :
    (encodeControl (.registryDelta ids : ControlMsg A)).length = 5 + identitiesEncodedLen ids := by
  simp [encodeControl, W.u8, length_putIdentities]
  omega

theorem length_encodeControl_sync (ids : List ChannelIdentity) :
    (encodeControl (.registrySync ids : ControlMsg A)).length = 5 + identitiesEncodedLen ids := by
  simp [encodeControl, W.u8, length_putIdentities]
  omega

theorem writeLoop_ne_invalidInput (deadline : ℕ) (calls : List Call) (bytes : List UInt8)
    (last : ℕ) (attempted : Bool) (now : ℕ) (made : List Write) :
    (writeLoop deadline calls bytes last attempted now made).1 ≠ .error .invalidInput := by
  induction calls generalizing bytes last attempted now made with
  | nil =>
      unfold writeLoop
      split_ifs <;> simp
  | cons c rest ih =>
      unfold writeLoop
      split_ifs
      · simp
      · simp
      · simp
      · dsimp only
        split
        · simp
        · exact ih _ _ _ _ _
        · exact ih _ _ _ _ _
        · exact ih _ _ _ _ _
        · exact ih _ _ _ _ _
        · simp

/-- Only the length of a frame is a reason to refuse it as invalid. -/
theorem sendFrameBy_ne_invalidInput {bytes : List UInt8} (h : bytes.length ≤ MAX_FRAME_LEN)
    (deadline : ℕ) (s : Sockets) : (sendFrameBy bytes deadline s).1 ≠ .error .invalidInput := by
  have hlen : (writeAllBy (Bytes.encode 4 bytes.length) deadline s).1 ≠ .error .invalidInput :=
    writeLoop_ne_invalidInput _ _ _ _ _ _ _
  simp only [sendFrameBy, sendWith]
  rw [if_neg (by omega)]
  split <;> rename_i hw
  · rwa [hw] at hlen
  · exact writeLoop_ne_invalidInput _ _ _ _ _ _ _

theorem sendFrameBy_of_lt {bytes : List UInt8} (h : MAX_FRAME_LEN < bytes.length)
    (deadline : ℕ) (s : Sockets) : sendFrameBy bytes deadline s = (.error .invalidInput, s) :=
  if_pos h

/-- A registry can be gossiped on: every frame of a join, an announcement, a
relay or a reply is short enough to be sent, if no identity that comes in, and
none claimed for a topic, takes more than `IDENTITY_ROOM`. -/
theorem frames_accepted {r : Registry}
    (h : Run.Reachable (· = Registry.new)
      (Intake A fun id => identityEncodedLen id ≤ IDENTITY_ROOM) r)
    {ids : List ChannelIdentity} (hids : ∀ id ∈ ids, id ∈ r.iter) {frame : List UInt8}
    (hframe : frame ∈ syncFrames A ids ∨ frame ∈ deltaFrames A ids) :
    frame.length ≤ MAX_FRAME_LEN ∧
      ∀ deadline s, (sendFrameBy frame deadline s).1 ≠ .error .invalidInput := by
  have hroomy : Roomy r := by
    refine h.invariant ?_ fun r r' hr hstep => hr.intake hstep
    rintro _ rfl n id hget
    rw [Registry.getRaw_new] at hget
    cases hget
  have hbatch : ∀ batch ∈ chunks MAX_IDENTITIES_PER_FRAME ids,
      5 + identitiesEncodedLen batch ≤ MAX_FRAME_LEN := by
    intro batch hb
    obtain ⟨hlen, hsub⟩ := chunks_spec hb
    have hle := identitiesEncodedLen_le fun id hid =>
      hroomy id.name id (Registry.mem_iter.mp (hids id (hsub hid)))
    have hmul := Nat.mul_le_mul_right IDENTITY_ROOM hlen
    have hroom : 5 + MAX_IDENTITIES_PER_FRAME * IDENTITY_ROOM ≤ MAX_FRAME_LEN := by decide
    omega
  have hmax : frame.length ≤ MAX_FRAME_LEN := by
    rcases hframe with hf | hf <;> obtain ⟨batch, hb, rfl⟩ := List.mem_map.mp hf
    · rw [length_encodeControl_sync]
      exact hbatch batch hb
    · rw [length_encodeControl_delta]
      exact hbatch batch hb
  exact ⟨hmax, sendFrameBy_ne_invalidInput hmax⟩

/-! ## Two that came alone -/

def named (name : ChannelName) : ChannelIdentity :=
  ⟨name, 2, 65536, 1500, 0, 7, 0, false, none⟩

theorem identityEncodedLen_named (name : ChannelName) :
    identityEncodedLen (named name) = (nameBytes name).length + 46 := by
  simp [identityEncodedLen, named]
  omega

theorem intake_named {ok : ChannelIdentity → Prop} {name : ChannelName} (r : Registry)
    (hok : ok (named name)) (hlen : (nameBytes name).length + 51 ≤ MAX_FRAME_LEN) :
    Intake Loopback ok r (r.mergeTracked (named name)).1 := by
  have hshort : Short name := by
    have : MAX_FRAME_LEN < 2 ^ 32 := by decide
    unfold Short
    omega
  have hfits : (ControlMsg.registryDelta [named name] : ControlMsg Loopback).Fits :=
    ⟨by simp, by simpa [IdentityFits, named] using hshort⟩
  refine .arrived ?_ ((reads_control hfits).accept _) (List.mem_singleton_self _) hok
  rw [length_encodeControl_delta]
  simp only [identitiesEncodedLen, List.map_cons, List.map_nil, List.sum_cons, List.sum_nil,
    identityEncodedLen_named]
  omega

/-- Two identities, each in a frame of its own. -/
theorem exists_two (ok : ChannelIdentity → Prop) {x y : ChannelName} (hne : x ≠ y)
    (hx : ok (named x)) (hy : ok (named y)) (hxlen : (nameBytes x).length + 51 ≤ MAX_FRAME_LEN)
    (hylen : (nameBytes y).length + 51 ≤ MAX_FRAME_LEN) :
    ∃ r, Run.Reachable (· = Registry.new) (Intake Loopback ok) r ∧
      ∀ id ∈ [named x, named y], id ∈ r.iter := by
  refine ⟨((Registry.new.mergeTracked (named x)).1.mergeTracked (named y)).1,
    .next (.next (.start rfl) (intake_named _ hx hxlen)) (intake_named _ hy hylen), ?_⟩
  intro id hid
  have hne' : y ≠ x := hne.symm
  simp only [List.mem_cons, List.not_mem_nil, or_false] at hid
  rcases hid with rfl | rfl <;>
    simp [Registry.mem_iter, Registry.getRaw_mergeTracked, named, hne, hne', KeyMerge.mergeSlot]

theorem chunks_two {α : Type} (a b : α) : chunks MAX_IDENTITIES_PER_FRAME [a, b] = [[a, b]] := by
  simp [chunks, MAX_IDENTITIES_PER_FRAME]

theorem frames_accepted_two :
    ∃ r : Registry, (∀ id ∈ [named "a", named "b"], id ∈ r.iter) ∧
      ∀ frame ∈ syncFrames Loopback [named "a", named "b"], frame.length ≤ MAX_FRAME_LEN := by
  obtain ⟨r, hr, hids⟩ := exists_two (fun id => identityEncodedLen id ≤ IDENTITY_ROOM)
    (x := "a") (y := "b") (by decide) (by decide) (by decide) (by decide) (by decide)
  exact ⟨r, hids, fun frame hframe => (frames_accepted hr hids (.inl hframe)).1⟩

theorem length_nameBytes_replicate (n : ℕ) {c : Char} (hc : c.utf8Size = 1) :
    (nameBytes (String.ofList (List.replicate n c))).length = n := by
  have hlen : ∀ n, String.utf8Len (List.replicate n c) = n := by
    intro n
    induction n with
    | zero => rfl
    | succ n ih => rw [List.replicate_succ, String.utf8Len_cons, ih, hc]
  exact (String.utf8ByteSize_ofList _).trans (hlen n)

/-- Two identities that fill most of a frame each do not fit in one. -/
theorem exists_refused {n : ℕ} (hn : n + 51 ≤ MAX_FRAME_LEN)
    (hmax : MAX_FRAME_LEN < 2 * (n + 46) + 5) :
    ∃ r, Run.Reachable (· = Registry.new) (Intake Loopback fun _ => True) r ∧
      ∃ ids : List ChannelIdentity, (∀ id ∈ ids, id ∈ r.iter) ∧
        (∃ frame ∈ syncFrames Loopback ids,
          ∀ deadline s, sendFrameBy frame deadline s = (.error .invalidInput, s)) ∧
        ∃ frame ∈ deltaFrames Loopback ids,
          ∀ deadline s, sendFrameBy frame deadline s = (.error .invalidInput, s) := by
  have hlen : ∀ c : Char, c.utf8Size = 1 →
      (nameBytes (String.ofList (List.replicate n c))).length = n :=
    fun c hc => length_nameBytes_replicate n hc
  have ha := hlen 'a' (by decide)
  have hb := hlen 'b' (by decide)
  have hne : String.ofList (List.replicate n 'a') ≠ String.ofList (List.replicate n 'b') := by
    intro heq
    have hrep := List.replicate_inj.mp (String.ofList_injective heq)
    have hpos : n ≠ 0 := by
      rintro rfl
      exact absurd hmax (by decide)
    exact absurd (hrep.2.resolve_left hpos) (by decide)
  generalize String.ofList (List.replicate n 'a') = a at ha hne
  generalize String.ofList (List.replicate n 'b') = b at hb hne
  obtain ⟨r, hr, hids⟩ := exists_two (fun _ => True) hne trivial trivial (ha ▸ hn) (hb ▸ hn)
  have hover : MAX_FRAME_LEN < 5 + identitiesEncodedLen [named a, named b] := by
    simp only [identitiesEncodedLen, List.map_cons, List.map_nil, List.sum_cons, List.sum_nil,
      identityEncodedLen_named, ha, hb]
    omega
  refine ⟨r, hr, _, hids, ⟨_, List.mem_map_of_mem (chunks_two _ _ ▸ List.mem_singleton_self _),
    fun deadline s => sendFrameBy_of_lt ?_ deadline s⟩,
    ⟨_, List.mem_map_of_mem (chunks_two _ _ ▸ List.mem_singleton_self _),
    fun deadline s => sendFrameBy_of_lt ?_ deadline s⟩⟩
  · rwa [length_encodeControl_sync]
  · rwa [length_encodeControl_delta]

/-- A join and a relay of two identities, each of which came in with a frame
that was accepted, are refused. -/
theorem frame_refused :
    ∃ r, Run.Reachable (· = Registry.new) (Intake Loopback fun _ => True) r ∧
      ∃ ids : List ChannelIdentity, (∀ id ∈ ids, id ∈ r.iter) ∧
        (∃ frame ∈ syncFrames Loopback ids,
          ∀ deadline s, sendFrameBy frame deadline s = (.error .invalidInput, s)) ∧
        ∃ frame ∈ deltaFrames Loopback ids,
          ∀ deadline s, sendFrameBy frame deadline s = (.error .invalidInput, s) :=
  exists_refused (n := 40 * 2 ^ 20) (by decide) (by decide)

end XchannelNet.Broadcast
