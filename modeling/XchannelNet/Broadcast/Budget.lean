import XchannelNet.Broadcast.Sending
import XchannelNet.Wire.RoundTrip

/-!
# Budget — what a tick spends on writes

A write call that begins before its deadline ends within one slice of it, and
after the deadline there is at most one more call for each buffer. Whatever a
frame takes is charged to the tick. So a tick overspends only by what a frame
takes that is sent with nothing left: nothing, if a call that is late and takes
all it is offered returns at once. A late call that takes less costs the peer
its link, which can happen to a peer only once.

Without that, every frame of a tick may cost two slices beyond the budget.
-/

namespace XchannelNet.Broadcast

open Wire

/-- A call past its deadline that takes all it is offered returns at once. -/
def WriteOf.Prompt (w : Write) : Prop := w.deadline ≤ w.start → w.Whole → w.call.took = 0

instance (w : Write) : Decidable w.Prompt := inferInstanceAs (Decidable (_ → _ → _))

def SocketsOf.Prompt (s : Sockets) : Prop := ∀ w ∈ s.made, w.Prompt

/-! ## One buffer -/

/-- What writing a buffer comes to, from `s` to `s'`. Once a call was made, no
other is made past the deadline. -/
structure Costs (deadline : ℕ) (bytes : List UInt8) (attempted : Bool) (s : Sockets)
    (sent : Except ErrorKind Unit) (s' : Sockets) : Prop where
  made : s.made <:+ s'.made
  spent : s'.spent + s.now = s.spent + s'.now
  le : s'.now ≤ max (s.now + if attempted then 0 else PEER_WRITE_SLICE)
    (deadline + PEER_WRITE_SLICE)
  refused : attempted → deadline ≤ s.now → sent = .ok () → bytes = []
  ok : sent = .ok () → s'.Prompt →
    if deadline ≤ s.now then s'.now = s.now else s'.now ≤ deadline + PEER_WRITE_SLICE

namespace Costs

variable {deadline : ℕ} {bytes : List UInt8} {attempted : Bool} {s s' : Sockets}
  {sent : Except ErrorKind Unit}

/-- Nothing more is written. -/
theorem stop (h : sent = .ok () → bytes = []) : Costs deadline bytes attempted s sent s where
  made := List.suffix_rfl
  spent := rfl
  le := by omega
  refused _ _ hsent := h hsent
  ok _ _ := by split <;> omega

/-- One more call, which does not come too late, and what follows it. -/
theorem call {bytes' : List UInt8} {c : Call} {rest : List Call}
    (hcall : ¬(attempted ∧ deadline ≤ s.now))
    (hwhole : bytes' = [] → (⟨s.now, deadline, bytes.length, c⟩ : Write).Whole)
    (h : Costs deadline bytes' true
      ⟨s.now + c.took, rest, ⟨s.now, deadline, bytes.length, c⟩ :: s.made⟩ sent s') :
    Costs deadline bytes attempted s sent s' where
  made := (List.suffix_cons _ _).trans h.made
  spent := by
    have hspent := h.spent
    simp only [SocketsOf.spent, List.map_cons, List.sum_cons] at hspent ⊢
    omega
  le := by
    have hle : s'.now ≤ max (s.now + c.took) (deadline + PEER_WRITE_SLICE) := h.le
    have htook : c.took ≤ PEER_WRITE_SLICE := c.took_allowed
    cases attempted with
    | false => simp only [Bool.false_eq_true, if_false]; omega
    | true => simp only [true_and, not_le] at hcall; omega
  refused ha hd _ := (hcall ⟨ha, hd⟩).elim
  ok hsent hp := by
    have hok := h.ok hsent hp
    have htook : c.took ≤ PEER_WRITE_SLICE := c.took_allowed
    dsimp only at hok
    split
    · -- The call was late: it was the first one, and it took everything.
      rename_i hd
      have hd' : deadline ≤ s.now + c.took := by omega
      have hw := hp _ (h.made.subset List.mem_cons_self)
      have h0 : c.took = 0 := hw hd (hwhole (h.refused rfl hd' hsent))
      rw [if_pos hd'] at hok
      omega
    · split at hok <;> omega

/-- A last call. -/
theorem fails {c : Call} {rest : List Call} {e : ErrorKind}
    (hcall : ¬(attempted ∧ deadline ≤ s.now)) :
    Costs deadline bytes attempted s (.error e)
      ⟨s.now + c.took, rest, ⟨s.now, deadline, bytes.length, c⟩ :: s.made⟩ := by
  -- as before a buffer of which something is left
  have hstop : Costs deadline [0] true
      ⟨s.now + c.took, rest, ⟨s.now, deadline, bytes.length, c⟩ :: s.made⟩ (.error e)
      ⟨s.now + c.took, rest, ⟨s.now, deadline, bytes.length, c⟩ :: s.made⟩ := .stop nofun
  exact .call hcall (fun hnil => (List.cons_ne_nil _ _ hnil).elim) hstop

end Costs

theorem writeLoop_costs (deadline : ℕ) (calls : List Call) (bytes : List UInt8) (last : ℕ)
    (attempted : Bool) (now : ℕ) (made : List Write) :
    Costs deadline bytes attempted ⟨now, calls, made⟩
      (writeLoop deadline calls bytes last attempted now made).1
      (writeLoop deadline calls bytes last attempted now made).2 := by
  induction calls generalizing bytes last attempted now made with
  | nil =>
      unfold writeLoop
      split_ifs with hnil
      · exact .stop fun _ => hnil
      · exact .stop fun h => by cases h
      · exact .stop fun h => by cases h
      · exact .stop fun h => by cases h
  | cons c rest ih =>
      unfold writeLoop
      split_ifs with hnil hcall
      · exact .stop fun _ => hnil
      · exact .stop fun h => by cases h
      · exact .stop fun h => by cases h
      · have hretry := ih bytes last true (now + c.took) (⟨now, deadline, bytes.length, c⟩ :: made)
        dsimp only
        split
        · exact .fails hcall
        · rename_i n hn
          refine .call hcall (fun hrest => ?_) (ih _ _ _ _ _)
          rw [List.drop_eq_nil_iff] at hrest
          simpa only [WriteOf.Whole, hn] using hrest
        · exact .call hcall (fun h => absurd h hnil) hretry
        · exact .call hcall (fun h => absurd h hnil) hretry
        · exact .call hcall (fun h => absurd h hnil) hretry
        · exact .fails hcall

theorem writeAllBy_costs (bytes : List UInt8) (deadline : ℕ) (s : Sockets) :
    Costs deadline bytes false s (writeAllBy bytes deadline s).1
      (writeAllBy bytes deadline s).2 :=
  writeLoop_costs deadline s.calls bytes s.now false s.now s.made

/-! ## One frame -/

/-- What sending a frame comes to, with `left` of the allowances. -/
structure FrameCosts (left : ℕ) (s : Sockets) (sent : Except ErrorKind Unit) (s' : Sockets) :
    Prop where
  made : s.made <:+ s'.made
  spent : s'.spent + s.now = s.spent + s'.now
  le : s'.now ≤ s.now + left + 2 * PEER_WRITE_SLICE
  ok : sent = .ok () → s'.Prompt →
    s'.now ≤ s.now + left + PEER_WRITE_SLICE ∧ (left = 0 → s'.now = s.now)

theorem SocketsOf.Prompt.of_suffix {s s' : Sockets} (h : s'.Prompt) (hmade : s.made <:+ s'.made) :
    s.Prompt :=
  fun w hw => h w (hmade.subset hw)

theorem sendFrameBy_costs (bytes : List UInt8) (left : ℕ) (s : Sockets) :
    FrameCosts left s (sendFrameBy bytes (s.now + left) s).1
      (sendFrameBy bytes (s.now + left) s).2 := by
  simp only [sendFrameBy, sendWith]
  split
  · exact ⟨List.suffix_rfl, rfl, by dsimp only; omega, nofun⟩
  have hlen := writeAllBy_costs (Bytes.encode 4 bytes.length) (s.now + left) s
  generalize writeAllBy (Bytes.encode 4 bytes.length) (s.now + left) s = r at hlen ⊢
  obtain ⟨sent, s₁⟩ := r
  have hle : s₁.now ≤ max (s.now + PEER_WRITE_SLICE) (s.now + left + PEER_WRITE_SLICE) := hlen.le
  cases sent with
  | error e => exact ⟨hlen.made, hlen.spent, by dsimp only; omega, nofun⟩
  | ok =>
      have hbody := writeAllBy_costs bytes (s.now + left) s₁
      dsimp only at hlen ⊢
      generalize writeAllBy bytes (s.now + left) s₁ = r at hbody ⊢
      obtain ⟨sent, s₂⟩ := r
      have hle' : s₂.now ≤ max (s₁.now + PEER_WRITE_SLICE)
          (s.now + left + PEER_WRITE_SLICE) := hbody.le
      have hspent : s₁.spent + s.now = s.spent + s₁.now := hlen.spent
      have hspent' : s₂.spent + s₁.now = s₁.spent + s₂.now := hbody.spent
      refine ⟨hlen.made.trans hbody.made, ?_, ?_, fun hsent hp => ?_⟩
      · dsimp only
        omega
      · dsimp only
        omega
      · have hok := hlen.ok rfl (hp.of_suffix hbody.made)
        have hok' := hbody.ok hsent hp
        dsimp only at hok hok' ⊢
        split at hok
        · rw [if_pos (by omega)] at hok'
          exact ⟨by omega, fun _ => by omega⟩
        · split at hok' <;> exact ⟨by omega, by omega⟩

theorem sendTo_costs {p p' : Peer} {frame : List UInt8} {tickLeft tickLeft' : ℕ}
    {s s' : Sockets} {sent : Except ErrorKind Unit}
    (h : sendTo Sockets.net p frame tickLeft s = (sent, p', tickLeft', s')) :
    FrameCosts (min p.burstLeft tickLeft) s sent s' ∧
      tickLeft' = tickLeft - (s'.now - s.now) := by
  have hcosts := sendFrameBy_costs frame (min p.burstLeft tickLeft) s
  simp only [sendTo, Sockets.net, Prod.mk.injEq] at h
  obtain ⟨rfl, -, rfl, rfl⟩ := h
  exact ⟨hcosts, rfl⟩

/-! ## One tick -/

/-- With `n` peers at the start of a tick and `k` of them still linked, the time
spent and what the tick has left are within the budget and two slices for every
peer that was dropped; once nothing is left, within one more for every peer. -/
def Within (n k tickLeft : ℕ) (s : Sockets) : Prop :=
  k ≤ n ∧ (s.Prompt → s.spent + tickLeft + 2 * PEER_WRITE_SLICE * k ≤
    TICK_WRITE_BUDGET + 2 * PEER_WRITE_SLICE * n +
      if tickLeft = 0 then PEER_WRITE_SLICE * n else 0)

namespace Within

variable {n k tickLeft tickLeft' : ℕ} {s s' : Sockets} {p p' : Peer} {frame : List UInt8}

theorem mono {k' : ℕ} (h : Within n k tickLeft s) (hk : k' ≤ k) : Within n k' tickLeft s := by
  refine ⟨hk.trans h.1, fun hp => ?_⟩
  have hle := h.2 hp
  have hmul := Nat.mul_le_mul_left (2 * PEER_WRITE_SLICE) hk
  omega

theorem sent (h : Within n (k + 1) tickLeft s)
    (hsend : sendTo Sockets.net p frame tickLeft s = (.ok (), p', tickLeft', s')) :
    Within n (k + 1) tickLeft' s' := by
  obtain ⟨hcosts, rfl⟩ := sendTo_costs hsend
  refine ⟨h.1, fun hp => ?_⟩
  have hle := h.2 (hp.of_suffix hcosts.made)
  have hspent := hcosts.spent
  obtain ⟨hover, hnone⟩ := hcosts.ok rfl hp
  -- Only a peer that is there can overspend.
  have hslice : PEER_WRITE_SLICE * 1 ≤ PEER_WRITE_SLICE * n :=
    Nat.mul_le_mul_left _ (Nat.le_trans (Nat.le_add_left 1 k) h.1)
  by_cases ht : tickLeft = 0
  · have hnow := hnone (by omega)
    rw [if_pos ht] at hle
    rw [if_pos (by omega)]
    omega
  · rw [if_neg ht] at hle
    split <;> omega

theorem dropped (h : Within n (k + 1) tickLeft s) {e : ErrorKind}
    (hsend : sendTo Sockets.net p frame tickLeft s = (.error e, p', tickLeft', s')) :
    Within n k tickLeft' s' := by
  obtain ⟨hcosts, rfl⟩ := sendTo_costs hsend
  refine ⟨(Nat.le_succ k).trans h.1, fun hp => ?_⟩
  have hle := h.2 (hp.of_suffix hcosts.made)
  have hspent := hcosts.spent
  have hover := hcosts.le
  rw [Nat.mul_succ] at hle
  by_cases ht : tickLeft = 0
  · rw [if_pos ht] at hle
    rw [if_pos (by omega)]
    omega
  · rw [if_neg ht] at hle
    split <;> omega

end Within

/-- By induction over the peers still to be sent to; `j` were kept before them. -/
theorem Within.retainSent (except : PeerId) (frame : List UInt8) {n j : ℕ} (ps : List Peer)
    {tickLeft : ℕ} {s : Sockets} (h : Within n (j + ps.length) tickLeft s) :
    Within n (j + (Broadcast.retainSent Sockets.net except frame ps tickLeft s).1.length)
      (Broadcast.retainSent Sockets.net except frame ps tickLeft s).2.1
      (Broadcast.retainSent Sockets.net except frame ps tickLeft s).2.2 := by
  induction ps generalizing j tickLeft s with
  | nil => exact h
  | cons p ps ih =>
      have hcount : ∀ qs : List Peer, j + (p :: qs).length = j + 1 + qs.length := by
        intro qs
        rw [List.length_cons]
        omega
      rw [hcount] at h
      unfold Broadcast.retainSent
      split
      · exact (congrArg (Within n · _ _) (hcount _)).mpr (ih h)
      · have hsucc : j + 1 + ps.length = j + ps.length + 1 := by omega
        split <;> rename_i hsend
        · rw [hsucc] at h
          have hsent := h.sent hsend
          rw [← hsucc] at hsent
          exact (congrArg (Within n · _ _) (List.length_cons ▸ by omega)).mpr (ih hsent)
        · rw [hsucc] at h
          exact ih (h.dropped hsend)

/-- Within the budget, in a tick that began with `n` peers. -/
def Links.Within (n : ℕ) (x : Links × Sockets) : Prop :=
  Broadcast.Within n x.1.peers.length x.1.tickWriteLeft x.2

namespace Links.Within

variable {n : ℕ} {x : Links × Sockets}

theorem beginBurst (h : Links.Within n x) (allowance : ℕ) :
    Links.Within n (x.1.beginBurst allowance, x.2) := by
  unfold Links.Within Links.beginBurst
  rw [List.length_map]
  exact h

theorem sendExcept (h : Links.Within n x) (except : PeerId) (frame : List UInt8) :
    Links.Within n (Links.sendExcept Sockets.net except frame x) := by
  have hj : Broadcast.Within n (0 + x.1.peers.length) x.1.tickWriteLeft x.2 := by
    rwa [Nat.zero_add]
  have hr := Broadcast.Within.retainSent except frame x.1.peers hj
  rwa [Nat.zero_add] at hr

theorem sendOnly (dest : PeerId) (frames : List (List UInt8)) (h : Links.Within n x) :
    Links.Within n (Links.sendOnly Sockets.net dest frames x) := by
  induction frames generalizing x with
  | nil => exact h
  | cons frame frames ih =>
      obtain ⟨l, s⟩ := x
      unfold Links.sendOnly
      split
      · exact h
      · rename_i p hfind
        have hp : p ∈ l.peers := List.mem_of_find?_eq_some hfind
        obtain ⟨k, hk⟩ : ∃ k, l.peers.length = k + 1 :=
          Nat.exists_eq_add_one_of_ne_zero (List.length_pos_of_mem hp).ne'
        have hl : Broadcast.Within n (k + 1) l.tickWriteLeft s := hk ▸ h
        split <;> rename_i hsend
        · refine ih ?_
          unfold Links.Within
          rw [List.length_replaceF, hk]
          exact hl.sent hsend
        · refine (hl.dropped hsend).mono ?_
          have hlt : (l.peers.filter (·.id ≠ dest)).length < l.peers.length :=
            List.length_filter_lt_length_iff_exists.mpr
              ⟨p, hp, by simpa using List.find?_some hfind⟩
          dsimp only
          omega

theorem foldl {α : Type} {f : Links × Sockets → α → Links × Sockets} (as : List α)
    (hf : ∀ x a, Links.Within n x → Links.Within n (f x a)) (h : Links.Within n x) :
    Links.Within n (as.foldl f x) := by
  induction as generalizing x with
  | nil => exact h
  | cons a as ih => exact ih (hf x a h)

variable {A : Type} [SocketText A]

theorem perform (self : Self A) (h : Links.Within n x) (b : Burst A) :
    Links.Within n (Broadcast.perform Sockets.net self x b) := by
  cases b with
  | announce delta => exact (h.beginBurst _).foldl _ fun _ frame hx => hx.sendExcept _ frame
  | relay source delta => exact (h.beginBurst _).foldl _ fun _ frame hx => hx.sendExcept _ frame
  | reply dest delta => exact (h.beginBurst _).sendOnly _ _
  | relayHints pending => exact (h.beginBurst _).foldl _ fun _ _ hx => hx.sendExcept _ _
  | emitHeartbeat => exact (h.beginBurst _).sendExcept _ _
  | announceLeaving => exact (h.beginBurst _).sendExcept _ _

end Links.Within

variable {A : Type} [SocketText A]

theorem within_tick (self : Self A) (l : Links) (now : ℕ) (calls : List Call)
    (bursts : List (ℕ × Burst A)) :
    Links.Within l.peers.length (tick self l ⟨now, calls, []⟩ bursts) := by
  have hstart : Links.Within l.peers.length (l.beginTick, ⟨now, calls, []⟩) :=
    ⟨Nat.le_refl _, fun _ => by simp [SocketsOf.spent, Links.beginTick]⟩
  exact hstart.foldl bursts fun x b hx =>
    Links.Within.perform self (x := (x.1, { x.2 with now := x.2.now + b.1 })) hx b.2

/-- Between two ticks, the time spent in writes is at most the budget and three
slices for every peer, whatever is sent, if no late call that takes all it is
offered takes time. -/
theorem spent_le_budget (self : Self A) (l : Links) (now : ℕ) (calls : List Call)
    (bursts : List (ℕ × Burst A))
    (hprompt : (tick self l ⟨now, calls, []⟩ bursts).2.Prompt) :
    (tick self l ⟨now, calls, []⟩ bursts).2.spent ≤
      TICK_WRITE_BUDGET + 3 * l.peers.length * PEER_WRITE_SLICE := by
  have hle := (within_tick self l now calls bursts).2 hprompt
  have hcomm : PEER_WRITE_SLICE * l.peers.length = l.peers.length * PEER_WRITE_SLICE :=
    Nat.mul_comm _ _
  rw [Nat.mul_assoc 2 PEER_WRITE_SLICE l.peers.length, hcomm] at hle
  rw [Nat.mul_assoc 3]
  split at hle <;> omega

/-- A peer that takes part of a frame and is dropped, and one that takes all of it. -/
theorem spent_le_budget_dropped :
    let self : Self Loopback := ⟨1, .v4, .v6, "a"⟩
    let x := tick self ⟨[⟨1, 0⟩, ⟨2, 0⟩], 0⟩
      ⟨0, [⟨.wrote 4, 0, by decide⟩, ⟨.wrote 3, 20000, by decide⟩, ⟨.failed, 20000, by decide⟩,
        ⟨.wrote 4, 100, by decide⟩, ⟨.wrote 9, 100, by decide⟩], []⟩ [(0, .announceLeaving)]
    x.2.Prompt ∧ x.1.peers.map Peer.id = [2] ∧ x.2.spent = 40200 ∧
      x.2.spent ≤ TICK_WRITE_BUDGET + 3 * 2 * PEER_WRITE_SLICE := by
  intro self x
  have hprompt : x.2.Prompt := by
    unfold SocketsOf.Prompt
    decide +kernel
  exact ⟨hprompt, by decide +kernel, by decide +kernel, spent_le_budget self _ 0 _ _ hprompt⟩

/-! ## A peer that takes its time

Of a peer that takes each buffer in one call, at the end of the call's slice,
every frame costs two slices, and the peer is never dropped. -/

theorem writeAllBy_whole {bytes : List UInt8} {s : Sockets} {c : Call} {rest : List Call}
    (deadline : ℕ) (hne : bytes ≠ []) (hcalls : s.calls = c :: rest)
    (hc : c.answer = .wrote bytes.length) :
    writeAllBy bytes deadline s = (.ok (), ⟨s.now + c.took, rest,
      ⟨s.now, deadline, bytes.length, c⟩ :: s.made⟩) := by
  rw [writeAllBy, hcalls, writeLoop_whole deadline hne hc]

theorem sendFrameBy_whole {frame : List UInt8} {s : Sockets} {c c' : Call} {rest : List Call}
    (deadline : ℕ) (hne : frame ≠ []) (hlen : frame.length ≤ MAX_FRAME_LEN)
    (hcalls : s.calls = c :: c' :: rest) (hc : c.answer = .wrote 4)
    (hc' : c'.answer = .wrote frame.length) :
    ∃ s', sendFrameBy frame deadline s = (.ok (), s') ∧ s'.calls = rest ∧
      s'.spent = s.spent + (c.took + c'.took) := by
  have hlen4 : (Bytes.encode 4 frame.length).length = 4 := Bytes.length_encode _ _
  have hne4 : Bytes.encode 4 frame.length ≠ [] :=
    List.ne_nil_of_length_pos (by rw [hlen4]; decide)
  simp only [sendFrameBy, sendWith]
  rw [if_neg (by omega), writeAllBy_whole deadline hne4 hcalls (by rw [hc, hlen4])]
  dsimp only
  rw [writeAllBy_whole deadline hne rfl hc']
  refine ⟨_, rfl, rfl, ?_⟩
  simp only [SocketsOf.spent, List.map_cons, List.sum_cons]
  omega

theorem broadcast_whole {frame : List UInt8} {s : Sockets} {c c' : Call} {rest : List Call}
    {p : Peer} (tickLeft : ℕ) (hp : p.id ≠ NO_PEER) (hne : frame ≠ [])
    (hlen : frame.length ≤ MAX_FRAME_LEN) (hcalls : s.calls = c :: c' :: rest)
    (hc : c.answer = .wrote 4) (hc' : c'.answer = .wrote frame.length) :
    ∃ p' tickLeft' s', Links.broadcast Sockets.net frame (⟨[p], tickLeft⟩, s) =
        (⟨[p'], tickLeft'⟩, s') ∧
      p'.id = p.id ∧ s'.calls = rest ∧ s'.spent = s.spent + (c.took + c'.took) := by
  obtain ⟨s', hsend, hrest, hspent⟩ :=
    sendFrameBy_whole (s.now + min p.burstLeft tickLeft) hne hlen hcalls hc hc'
  refine ⟨{ p with burstLeft := p.burstLeft - (s'.now - s.now) }, tickLeft - (s'.now - s.now), s',
    ?_, rfl, hrest, hspent⟩
  simp [Links.broadcast, Links.sendExcept, Broadcast.retainSent, hp, sendTo, Sockets.net, hsend]

/-- An identity that is announced on its own. -/
def fed : ChannelIdentity := ⟨"fed", 1, 65536, 1500, 0, 7, 1, false, none⟩

theorem deltaFrames_fed :
    ∃ frame, deltaFrames Loopback [fed] = [frame] ∧ frame.length = 54 :=
  ⟨_, rfl, by decide⟩

def slowly (n : ℕ) : Call := ⟨.wrote n, PEER_WRITE_SLICE, Nat.le_refl _⟩

/-- The two calls its frame takes. -/
def fedCalls : List Call := [slowly 4, slowly 54]

theorem announce_fed {s : Sockets} {rest : List Call} {l : Links} {p : Peer}
    (hl : l.peers = [p]) (hp : p.id ≠ NO_PEER) (hcalls : s.calls = fedCalls ++ rest) :
    ∃ l' p' s', announce Sockets.net Loopback [fed] (l, s) = (l', s') ∧ l'.peers = [p'] ∧
      p'.id ≠ NO_PEER ∧ s'.calls = rest ∧ s'.spent = s.spent + 2 * PEER_WRITE_SLICE := by
  obtain ⟨frame, hframes, hlen⟩ := deltaFrames_fed
  have hne : frame ≠ [] := List.ne_nil_of_length_pos (by omega)
  have hmax : frame.length ≤ MAX_FRAME_LEN := hlen.le.trans (by decide)
  obtain ⟨p', tickLeft', s', hsend, hid, hrest, hspent⟩ :=
    broadcast_whole (p := { p with burstLeft := min _ l.tickWriteLeft }) l.tickWriteLeft hp hne
      hmax hcalls rfl (congrArg Answer.wrote hlen.symm)
  refine ⟨⟨[p'], tickLeft'⟩, p', s', ?_, rfl, hid ▸ hp, hrest, ?_⟩
  · rw [announce, hframes, List.foldl_cons, List.foldl_nil, Links.beginBurst, hl]
    exact hsend
  · rw [hspent]
    exact congrArg _ (Nat.two_mul _).symm

/-- Any number of announcements, by induction on how many are to come. -/
theorem spent_announcing (self : Self Loopback) (n : ℕ) {s : Sockets} {l : Links} {p : Peer}
    (hl : l.peers = [p]) (hp : p.id ≠ NO_PEER)
    (hcalls : s.calls = (List.replicate n fedCalls).flatten) :
    ((List.replicate n (0, Burst.announce [fed])).foldl
      (fun x b => perform Sockets.net self (x.1, { x.2 with now := x.2.now + b.1 }) b.2)
        (l, s)).2.spent = s.spent + n * (2 * PEER_WRITE_SLICE) := by
  induction n generalizing s l p with
  | zero => simp
  | succ n ih =>
      rw [List.replicate_succ, List.flatten_cons] at hcalls
      obtain ⟨l', p', s', hsend, hl', hp', hcalls', hspent⟩ := announce_fed hl hp hcalls
      rw [List.replicate_succ, List.foldl_cons]
      have hstep : perform Sockets.net self (l, { s with now := s.now + 0 }) (.announce [fed]) =
        (l', s') := hsend
      rw [hstep, ih hl' hp' hcalls', hspent, Nat.succ_mul n]
      omega

/-- No number of slices for each peer bounds what a tick spends over its budget:
a peer that takes each buffer at the end of its slice is sent one frame after
another. -/
theorem budget_unbounded :
    ¬ ∃ c : ℕ, ∀ (self : Self Loopback) (l : Links) (now : ℕ) (calls : List Call)
      (bursts : List (ℕ × Burst Loopback)),
      (tick self l ⟨now, calls, []⟩ bursts).2.spent ≤
        TICK_WRITE_BUDGET + c * l.peers.length * PEER_WRITE_SLICE := by
  rintro ⟨c, hc⟩
  have hle := hc ⟨1, .v4, .v6, "a"⟩ ⟨[⟨1, 0⟩], 0⟩ 0
    (List.replicate (c + 125) fedCalls).flatten
    (List.replicate (c + 125) (0, .announce [fed]))
  rw [tick, spent_announcing _ _ rfl (by decide) rfl] at hle
  simp only [SocketsOf.spent, List.map_nil, List.sum_nil, List.length_singleton, TICK_WRITE_BUDGET,
    PEER_WRITE_SLICE] at hle
  omega

end XchannelNet.Broadcast
