import Mathlib.Algebra.Order.BigOperators.Group.List
import XchannelNet.Wire.Framing
import XchannelNet.Wire.RoundTrip

/-!
# Fitting — what is sent as a frame is read back

A length prefix has four bytes, and no frame is that long. So a message that is
sent at all is one whose strings and lists fit their prefixes: of the messages
that do not survive the format none gets past the limit on frames. And as long as
a frame has not come in whole it is no frame.
-/

namespace XchannelNet.Wire

theorem length_le_flatten {parts : List (List UInt8)} {part : List UInt8} (h : part ∈ parts) :
    part.length ≤ parts.flatten.length :=
  (List.sublist_flatten_of_mem h).length_le

theorem short_of_length {s : String} (h : (W.str s).length ≤ MAX_FRAME_LEN) : Short s := by
  have hlen : (W.str s).length = 4 + (Mux.nameBytes s).length := by
    simp [W.str, W.bytes, W.u32, Bytes.length_encode]
  have hmax : MAX_FRAME_LEN < 2 ^ 32 := by decide
  unfold Short
  omega

theorem short_of_optStr {o : Option String} (h : (W.optStr o).length ≤ MAX_FRAME_LEN) :
    ∀ t ∈ o, Short t := by
  rintro t rfl
  refine short_of_length (Nat.le_trans ?_ h)
  simp [W.optStr]

/-- A part of a message that is short enough is. -/
theorem part_le {parts : List (List UInt8)} {part : List UInt8}
    (h : parts.flatten.length ≤ MAX_FRAME_LEN) (hpart : part ∈ parts) :
    part.length ≤ MAX_FRAME_LEN :=
  (length_le_flatten hpart).trans h

theorem identityFits_of_length {id : ChannelIdentity}
    (h : (putIdentity id).length ≤ MAX_FRAME_LEN) : IdentityFits id :=
  ⟨short_of_length (part_le h (by simp)), short_of_optStr (part_le h (by simp))⟩

theorem infoFits_of_length {c : ChannelInfo} (h : (putInfo c).length ≤ MAX_FRAME_LEN) :
    InfoFits c :=
  ⟨short_of_length (part_le h (by simp)), short_of_optStr (part_le h (by simp))⟩

/-- Every element takes at least a byte, so the count fits if they do. -/
theorem listFits_of_length {α : Type} {put : α → List UInt8} {fits : α → Prop} {as : List α}
    (hfits : ∀ a, (put a).length ≤ MAX_FRAME_LEN → fits a) (hpos : ∀ a, 0 < (put a).length)
    (h : (W.list put as).length ≤ MAX_FRAME_LEN) : ListFits fits as := by
  have hparts : (as.map put).flatten.length ≤ MAX_FRAME_LEN := by
    refine Nat.le_trans ?_ h
    simp [W.list]
  have hcount : as.length ≤ (as.map put).flatten.length := by
    rw [List.length_flatten, List.map_map]
    have hone : ∀ n ∈ as.map (List.length ∘ put), 1 ≤ n := by
      simpa using fun a _ => Nat.succ_le_of_lt (hpos a)
    have hsum := List.card_nsmul_le_sum _ 1 hone
    simpa using hsum
  have hmax : MAX_FRAME_LEN < 2 ^ 32 := by decide
  exact ⟨by omega, fun a ha => hfits a (part_le hparts (List.mem_map_of_mem ha))⟩

theorem putIdentity_pos (id : ChannelIdentity) : 0 < (putIdentity id).length := by
  simp [putIdentity, W.u64, Bytes.length_encode]

theorem putInfo_pos (c : ChannelInfo) : 0 < (putInfo c).length := by
  simp [putInfo, W.u64, Bytes.length_encode]

theorem ControlMsg.fits_of_length {A : Type} [SocketText A] {m : ControlMsg A}
    (h : (encodeControl m).length ≤ MAX_FRAME_LEN) : m.Fits := by
  cases m with
  | register id => exact identityFits_of_length (part_le h (by simp))
  | registryDelta ids =>
      exact listFits_of_length (fun _ => identityFits_of_length) putIdentity_pos
        (part_le h (List.mem_cons_of_mem _ List.mem_cons_self))
  | registrySync ids =>
      exact listFits_of_length (fun _ => identityFits_of_length) putIdentity_pos
        (part_le h (List.mem_cons_of_mem _ List.mem_cons_self))
  | leaving node => trivial
  | deregister name owner => exact short_of_length (part_le h (by simp))
  | heartbeat node addr controlAddr name => exact short_of_length (part_le h (by simp))
  | peerHint node addr controlAddr name => exact short_of_length (part_le h (by simp))
  | registerRejected name winner => exact short_of_length (part_le h (by simp))

theorem ClientRequest.fits_of_length {m : ClientRequest}
    (h : (encodeClientRequest m).length ≤ MAX_FRAME_LEN) : m.Fits := by
  cases m with
  | publishToTopic topic member options =>
      exact ⟨short_of_length (part_le h (by simp)), short_of_length (part_le h (by simp))⟩
  | create name options => exact short_of_length (part_le h (by simp))
  | subscribe name waitMs => exact short_of_length (part_le h (by simp))
  | createTopic name options => exact short_of_length (part_le h (by simp))
  | deregister name => exact short_of_length (part_le h (by simp))
  | listChannels namePrefix => exact short_of_length (part_le h (by simp))
  | forceDeregister name => exact short_of_length (part_le h (by simp))
  | subscriptionStatus name => exact short_of_length (part_le h (by simp))

theorem ClientReply.fits_of_length {m : ClientReply}
    (h : (encodeClientReply m).length ≤ MAX_FRAME_LEN) : m.Fits := by
  cases m with
  | channels infos cursor =>
      exact ⟨listFits_of_length (fun _ => infoFits_of_length) putInfo_pos
        (part_le h (List.mem_cons_of_mem _ List.mem_cons_self)),
        short_of_length (part_le h (by simp))⟩
  | created path => exact short_of_length (part_le h (by simp))
  | subscribed replicaPath => exact short_of_length (part_le h (by simp))
  | error message => exact short_of_length (part_le h (by simp))
  | deregistered existed => trivial
  | status status => trivial

theorem sendFramed_le {bytes sent : List UInt8} (h : sendFramed bytes = .ok sent) :
    bytes.length ≤ MAX_FRAME_LEN := by
  unfold sendFramed at h
  split at h
  · cases h
  · rename_i hle
    exact Nat.not_lt.mp hle

/-- A frame that is cut off is not read. -/
theorem recvFramed_begun {frame sent begun : List UInt8} (h : sendFramed frame = .ok sent)
    (hbegun : begun <+: sent) (hcut : begun ≠ sent) :
    recvFramed begun = .error .unexpectedEof := by
  obtain ⟨more, hmore⟩ := hbegun
  have hwhole := recvFramed_sendFramed h []
  rw [List.append_nil, ← hmore] at hwhole
  cases hread : recvFramed begun with
  | ok x =>
      obtain ⟨f, rest⟩ := x
      rw [recvFramed_append_ok hread more] at hwhole
      have hnil : rest ++ more = [] := (Prod.mk.inj (Except.ok.inj hwhole)).2
      have hmore' : more = [] := (List.append_eq_nil_iff.mp hnil).2
      rw [hmore', List.append_nil] at hmore
      exact absurd hmore hcut
  | error e =>
      rcases recvFramed_error hread with rfl | rfl
      · rfl
      · rw [recvFramed_append_invalid hread more] at hwhole
        cases hwhole

end XchannelNet.Wire
