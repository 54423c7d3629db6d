import Mathlib.Data.List.Perm.Subperm
import XchannelNet.Lib.Run

/-!
# Serving — the connections a node takes on, and the cycle that polls them

Two listeners share one count of connections. A connection that is one too many is
counted before it is refused, so the count can be ahead of what there is. A
connection that is taken on holds its place until it ends: while its thread shakes
hands, while it is queued for the duty cycle, while it is polled, or while its
thread answers a client.

The duty cycle takes in what is queued, polls every item once and begins again.
Listeners, handshakes, sessions and the duty cycle run concurrently; every command
here is one step of one of them.
-/

namespace XchannelNet

def MAX_CONNECTIONS : ℕ := 4096

inductive Listener where
  | stream
  | client
  deriving DecidableEq, Repr

/-- An item of the duty cycle: what it stands for, the cycle that took it in and
how often it has been polled. -/
structure PolledItem where
  id : ℕ
  adopted : ℕ
  polls : ℕ
  deriving DecidableEq, Repr

/-- The items of one kind, as far as the duty cycle has come with them. -/
structure Roster where
  queued : List ℕ
  polled : List PolledItem
  waiting : List PolledItem

namespace Roster

def empty : Roster := ⟨[], [], []⟩

def push (r : Roster) (id : ℕ) : Roster := { r with queued := r.queued ++ [id] }

/-- Take in what is queued. -/
def adopt (r : Roster) (cycle : ℕ) : Roster :=
  ⟨[], [], r.polled ++ r.waiting ++ r.queued.map fun id => ⟨id, cycle, 0⟩⟩

/-- Poll the next item; one whose poll fails is dropped. -/
def poll (r : Roster) (keep : Bool) : Roster :=
  match r.waiting with
  | [] => r
  | x :: waiting =>
    { r with
      polled := if keep then r.polled ++ [{ x with polls := x.polls + 1 }] else r.polled
      waiting }

/-- What is dropped by that. -/
def dropped (r : Roster) (keep : Bool) : List ℕ :=
  if keep then [] else (r.waiting.take 1).map PolledItem.id

/-- All there are. -/
def ids (r : Roster) : List ℕ :=
  r.queued ++ r.polled.map PolledItem.id ++ r.waiting.map PolledItem.id

theorem ids_push (r : Roster) (id : ℕ) : (r.push id).ids.Perm (id :: r.ids) := by
  simp only [ids, push, List.append_assoc]
  exact List.perm_middle

theorem ids_adopt (r : Roster) (cycle : ℕ) : (r.adopt cycle).ids.Perm r.ids := by
  simp only [ids, adopt, List.map_append, List.map_map, Function.comp_def, List.map_id',
    List.map_nil, List.nil_append]
  rw [List.append_assoc r.queued]
  exact List.perm_append_comm

/-- A poll loses no item but the one that it drops. -/
theorem ids_poll (r : Roster) (keep : Bool) :
    ((r.poll keep).ids ++ r.dropped keep).Perm r.ids := by
  unfold poll dropped
  split
  · rename_i hnone
    cases keep <;> simp [hnone]
  · rename_i x waiting hwaiting
    cases keep
    · simp only [ids, hwaiting, Bool.false_eq_true, if_false, List.take_succ_cons, List.take_zero,
        List.map_cons, List.map_nil, List.append_assoc]
      exact (List.perm_append_comm.append_left _).append_left _
    · simp [ids, hwaiting]

/-- Only an item's own poll removes it. -/
theorem head_of_lost {r : Roster} {keep : Bool} {id : ℕ} (h : id ∈ r.ids)
    (hlost : id ∉ (r.poll keep).ids) :
    keep = false ∧ r.waiting.head?.map PolledItem.id = some id := by
  have hmem := (r.ids_poll keep).symm.subset h
  rcases List.mem_append.mp hmem with hkept | hdropped
  · exact absurd hkept hlost
  · cases keep with
    | true => simp [dropped] at hdropped
    | false =>
        refine ⟨rfl, ?_⟩
        cases hw : r.waiting with
        | nil => simp [dropped, hw] at hdropped
        | cons x waiting => simpa [dropped, hw, eq_comm] using hdropped

/-- In cycle `cycle`, some items have been polled and some wait. -/
structure Paced (r : Roster) (cycle : ℕ) : Prop where
  polled : ∀ x ∈ r.polled, x.adopted + x.polls = cycle + 1
  waiting : ∀ x ∈ r.waiting, x.adopted + x.polls = cycle

/-- Between two cycles. -/
structure Rested (r : Roster) (cycle : ℕ) : Prop where
  polled : ∀ x ∈ r.polled, x.adopted + x.polls = cycle
  waiting : r.waiting = []

theorem Rested.adopt {r : Roster} {cycle : ℕ} (h : r.Rested cycle) :
    (r.adopt cycle).Paced cycle where
  polled := by simp [Roster.adopt]
  waiting := by
    intro x hx
    simp only [Roster.adopt, h.waiting, List.append_nil, List.mem_append, List.mem_map] at hx
    rcases hx with hx | ⟨id, -, rfl⟩
    · exact h.polled x hx
    · rfl

theorem Paced.poll {r : Roster} {cycle : ℕ} (h : r.Paced cycle) (keep : Bool) :
    (r.poll keep).Paced cycle := by
  unfold Roster.poll
  split
  · exact h
  · rename_i x waiting hwaiting
    have hx : x.adopted + x.polls = cycle := h.waiting x (by simp [hwaiting])
    refine ⟨?_, fun y hy => h.waiting y (by simp [hwaiting, hy])⟩
    cases keep
    · exact h.polled
    · intro y hy
      rcases List.mem_append.mp hy with hy | hy
      · exact h.polled y hy
      · rw [List.mem_singleton.mp hy, ← hx]
        rfl

theorem Paced.rested {r : Roster} {cycle : ℕ} (h : r.Paced cycle) (hdone : r.waiting = []) :
    r.Rested (cycle + 1) := ⟨h.polled, hdone⟩

end Roster

/-- Where the duty cycle is. -/
inductive DutyPhase where
  | adopting
  | servers
  | clients
  | muxes
  deriving DecidableEq, Repr

structure Serving where
  conns : ℕ
  refusing : Listener → Bool
  /-- how many connections were ever taken on -/
  accepted : ℕ
  handshakes : List ℕ
  sessions : List ℕ
  ended : List ℕ
  servers : Roster
  clients : Roster
  phase : DutyPhase
  cycle : ℕ

namespace Serving

/-- What happens next. Which connections come, and which handshakes, polls and
sessions fail, is not up to the node. -/
inductive Command where
  | accept (l : Listener)
  | refuse (l : Listener)
  | handshake (k : ℕ) (ok : Bool)
  | hangUp (k : ℕ)
  | establish (id : ℕ)
  | adopt
  | pollServer (ok : Bool)
  | pollClient (ok : Bool)
  | pollMuxes

/-- The count goes up first, and what it was decides. -/
def acquireConn (s : Serving) (l : Listener) : Serving :=
  if s.conns ≥ MAX_CONNECTIONS then
    { s with conns := s.conns + 1, refusing := Function.update s.refusing l true }
  else
    let s := { s with conns := s.conns + 1, accepted := s.accepted + 1 }
    match l with
    | .stream => { s with handshakes := s.handshakes ++ [s.accepted - 1] }
    | .client => { s with sessions := s.sessions ++ [s.accepted - 1] }

/-- The guards of these connections are dropped. -/
def release (s : Serving) (ids : List ℕ) : Serving :=
  { s with conns := s.conns - ids.length, ended := s.ended ++ ids }

/-- A thread of `serve_stream` ends: with an item for the duty cycle, which takes
the guard along, or without. -/
def finishHandshake (s : Serving) (k : ℕ) (ok : Bool) : Serving :=
  match s.handshakes[k]? with
  | none => s
  | some id =>
    let s := { s with handshakes := s.handshakes.eraseIdx k }
    if ok then { s with servers := s.servers.push id } else s.release [id]

/-- A thread of `serve_client` ends. -/
def endSession (s : Serving) (k : ℕ) : Serving :=
  match s.sessions[k]? with
  | none => s
  | some id => { s with sessions := s.sessions.eraseIdx k }.release [id]

def pollServer (s : Serving) (ok : Bool) : Serving :=
  match s.servers.waiting with
  | [] => { s with phase := .clients }
  | _ :: _ => { s with servers := s.servers.poll ok }.release (s.servers.dropped ok)

/-- A sink is dropped if it fails or its subscription was stopped. -/
def pollClient (s : Serving) (ok : Bool) : Serving :=
  match s.clients.waiting with
  | [] => { s with phase := .muxes }
  | _ :: _ => { s with clients := s.clients.poll ok }

def perform (s : Serving) : Command → Serving
  | .accept l => s.acquireConn l
  | .refuse l => { s with conns := s.conns - 1, refusing := Function.update s.refusing l false }
  | .handshake k ok => s.finishHandshake k ok
  | .hangUp k => s.endSession k
  | .establish id => { s with clients := s.clients.push id }
  | .adopt =>
    { s with
      servers := s.servers.adopt s.cycle
      clients := s.clients.adopt s.cycle
      phase := .servers }
  | .pollServer ok => s.pollServer ok
  | .pollClient ok => s.pollClient ok
  | .pollMuxes => { s with phase := .adopting, cycle := s.cycle + 1 }

/-- A listener takes one connection at a time, and the duty cycle is one thread. -/
def Allowed (s : Serving) : Command → Prop
  | .accept l => s.refusing l = false
  | .refuse l => s.refusing l = true
  | .adopt => s.phase = .adopting
  | .pollServer _ => s.phase = .servers
  | .pollClient _ => s.phase = .clients
  | .pollMuxes => s.phase = .muxes
  | _ => True

def Step (s s' : Serving) : Prop := ∃ cmd, s.Allowed cmd ∧ s' = s.perform cmd

def idle : Serving := ⟨0, fun _ => false, 0, [], [], [], .empty, .empty, .adopting, 0⟩

/-! ## The count -/

/-- The connections there are. -/
def live (s : Serving) : List ℕ := s.handshakes ++ s.sessions ++ s.servers.ids

/-- How many listeners have counted one too many and not yet taken it back. -/
def refusals (s : Serving) : ℕ := (s.refusing .stream).toNat + (s.refusing .client).toNat

/-- The count is what there is and what is about to be taken back, and everyone who
was taken on is in one place. -/
structure Counted (s : Serving) : Prop where
  count : s.conns = s.live.length + s.refusals
  bound : s.live.length ≤ MAX_CONNECTIONS
  placed : (s.live ++ s.ended).Perm (List.range s.accepted)

section Counting

variable {s s' : Serving}

/-- Connections end, or only change their place. -/
theorem Counted.release (h : s.Counted) (ids : List ℕ) (hlive : (s'.live ++ ids).Perm s.live)
    (hconns : s'.conns = s.conns) (hended : s'.ended = s.ended) (hrefuse : s'.refusing = s.refusing)
    (haccepted : s'.accepted = s.accepted) : (s'.release ids).Counted := by
  have hlength : s'.live.length + ids.length = s.live.length := by
    rw [← List.length_append]
    exact hlive.length_eq
  have hbound := h.bound
  refine ⟨?_, ?_, ?_⟩
  · show s'.conns - ids.length = s'.live.length + s'.refusals
    rw [hconns, h.count, refusals, refusals, hrefuse]
    omega
  · show s'.live.length ≤ MAX_CONNECTIONS
    omega
  · show (s'.live ++ (s'.ended ++ ids)).Perm (List.range s'.accepted)
    rw [hended, haccepted]
    refine .trans ?_ h.placed
    refine .trans ?_ (hlive.append_right s.ended)
    rw [List.append_assoc]
    exact List.perm_append_comm.append_left _

theorem Counted.move (h : s.Counted) (hlive : s'.live.Perm s.live)
    (hconns : s'.conns = s.conns) (hended : s'.ended = s.ended) (hrefuse : s'.refusing = s.refusing)
    (haccepted : s'.accepted = s.accepted) : s'.Counted := by
  have hreleased := h.release [] (by simpa using hlive) hconns hended hrefuse haccepted
  have hsame : s'.release [] = s' := by simp [Serving.release]
  rwa [hsame] at hreleased

theorem refusals_le (s : Serving) {l : Listener} (h : s.refusing l = false) : s.refusals ≤ 1 := by
  cases l
  · simp only [refusals, h]
    cases s.refusing .client <;> simp
  · simp only [refusals, h]
    cases s.refusing .stream <;> simp

theorem refusals_update (s : Serving) (l : Listener) (b : Bool) :
    (Function.update s.refusing l b .stream).toNat +
      (Function.update s.refusing l b .client).toNat + (s.refusing l).toNat =
        s.refusals + b.toNat := by
  cases l <;> simp [refusals] <;> omega

theorem Counted.acquireConn (h : s.Counted) {l : Listener} (hl : s.refusing l = false) :
    (s.acquireConn l).Counted := by
  have hcount := h.count
  unfold Serving.acquireConn
  split
  · -- one too many: only the count goes up
    refine ⟨?_, h.bound, h.placed⟩
    have hupdate := refusals_update s l true
    rw [hl] at hupdate
    show s.conns + 1 = s.live.length + _
    simp only [refusals] at hupdate ⊢
    simp only [Bool.toNat_true, Bool.toNat_false, Nat.add_zero] at hupdate
    rw [hupdate, h.count, refusals]
    omega
  · rename_i hlt
    have hplaced : ((s.accepted :: s.live) ++ s.ended).Perm (List.range (s.accepted + 1)) := by
      rw [List.range_succ, List.cons_append]
      exact (h.placed.cons _).trans (List.perm_append_singleton _ _).symm
    have hbound : s.live.length + 1 ≤ MAX_CONNECTIONS := by omega
    have hnew : ∀ s' : Serving, s'.live.Perm (s.accepted :: s.live) → s'.conns = s.conns + 1 →
        s'.ended = s.ended → s'.refusing = s.refusing → s'.accepted = s.accepted + 1 →
        s'.Counted := by
      intro s' hlive hconns hended hrefuse haccepted
      have hlength : s'.live.length = s.live.length + 1 := by simpa using hlive.length_eq
      refine ⟨?_, by omega, ?_⟩
      · rw [hconns, hcount, hlength, refusals, refusals, hrefuse]
        omega
      · rw [hended, haccepted]
        exact (hlive.append_right _).trans hplaced
    cases l with
    | stream =>
        refine hnew _ ?_ rfl rfl rfl rfl
        simp only [live, Nat.add_sub_cancel, List.append_assoc, List.singleton_append]
        exact List.perm_middle
    | client =>
        refine hnew _ ?_ rfl rfl rfl rfl
        simp only [live, Nat.add_sub_cancel, List.append_assoc, List.singleton_append]
        rw [← List.append_assoc, ← List.append_assoc]
        exact List.perm_middle

theorem Counted.refuse (h : s.Counted) {l : Listener} (hl : s.refusing l = true) :
    (s.perform (.refuse l)).Counted := by
  have hupdate := refusals_update s l false
  have hcount := h.count
  refine ⟨?_, h.bound, h.placed⟩
  show s.conns - 1 = s.live.length + _
  simp only [refusals] at hupdate hcount ⊢
  rw [hl] at hupdate
  simp only [perform, Bool.toNat_true, Bool.toNat_false] at hupdate ⊢
  omega

theorem perm_eraseIdx {l : List ℕ} {k a : ℕ} (h : l[k]? = some a) :
    (a :: l.eraseIdx k).Perm l := by
  obtain ⟨hk, rfl⟩ := List.getElem?_eq_some_iff.mp h
  exact List.getElem_cons_eraseIdx_perm hk

theorem Counted.finishHandshake (h : s.Counted) (k : ℕ) (ok : Bool) :
    (s.finishHandshake k ok).Counted := by
  unfold Serving.finishHandshake
  split
  · exact h
  · rename_i id hid
    have herase := perm_eraseIdx hid
    cases ok with
    | true =>
        refine h.move ?_ rfl rfl rfl rfl
        show (s.handshakes.eraseIdx k ++ s.sessions ++ (s.servers.push id).ids).Perm _
        refine ((s.servers.ids_push id).append_left _).trans ?_
        refine List.perm_middle.trans ?_
        rw [live, ← List.cons_append, ← List.cons_append]
        exact (herase.append_right _).append_right _
    | false =>
        refine h.release [id] ?_ rfl rfl rfl rfl
        show (s.handshakes.eraseIdx k ++ s.sessions ++ s.servers.ids ++ [id]).Perm _
        refine List.perm_append_comm.trans ?_
        rw [List.singleton_append, ← List.cons_append, ← List.cons_append]
        exact (herase.append_right _).append_right _

theorem Counted.endSession (h : s.Counted) (k : ℕ) : (s.endSession k).Counted := by
  unfold Serving.endSession
  split
  · exact h
  · rename_i id hid
    refine h.release [id] ?_ rfl rfl rfl rfl
    show (s.handshakes ++ s.sessions.eraseIdx k ++ s.servers.ids ++ [id]).Perm _
    refine List.perm_append_comm.trans ?_
    rw [List.singleton_append, live, List.append_assoc, List.append_assoc]
    refine List.perm_middle.symm.trans (.append_left _ ?_)
    exact (perm_eraseIdx hid).append_right _

theorem Counted.step (h : s.Counted) {cmd : Command} (hallowed : s.Allowed cmd) :
    (s.perform cmd).Counted := by
  cases cmd with
  | accept l => exact h.acquireConn hallowed
  | refuse l => exact h.refuse hallowed
  | handshake k ok => exact h.finishHandshake k ok
  | hangUp k => exact h.endSession k
  | establish id => exact h.move .rfl rfl rfl rfl rfl
  | adopt => exact h.move ((s.servers.ids_adopt s.cycle).append_left _) rfl rfl rfl rfl
  | pollServer ok =>
      show (s.pollServer ok).Counted
      unfold Serving.pollServer
      split
      · exact h.move .rfl rfl rfl rfl rfl
      · refine h.release _ ?_ rfl rfl rfl rfl
        rw [live, live, List.append_assoc]
        exact (s.servers.ids_poll ok).append_left _
  | pollClient ok =>
      show (s.pollClient ok).Counted
      unfold Serving.pollClient
      split <;> exact h.move .rfl rfl rfl rfl rfl
  | pollMuxes => exact h.move .rfl rfl rfl rfl rfl

theorem counted_idle : idle.Counted :=
  ⟨rfl, by decide, by simp [live, idle, Roster.ids, Roster.empty]⟩

theorem counted_of_reachable (h : Run.Reachable (· = idle) Step s) : s.Counted := by
  refine h.invariant (fun s hs => ?_) fun s s' hc hstep => ?_
  · rw [hs]
    exact counted_idle
  · obtain ⟨cmd, hallowed, rfl⟩ := hstep
    exact hc.step hallowed

end Counting

/-! ## The cycle -/

/-- How far the duty cycle has come with the items of both kinds. -/
structure OnTurn (s : Serving) : Prop where
  resting : s.phase = .adopting → s.servers.Rested s.cycle ∧ s.clients.Rested s.cycle
  polling : s.phase ≠ .adopting → s.servers.Paced s.cycle ∧ s.clients.Paced s.cycle
  serversDone : s.phase = .clients ∨ s.phase = .muxes → s.servers.waiting = []
  clientsDone : s.phase = .muxes → s.clients.waiting = []

section Cycling

variable {s s' : Serving}

/-- Who comes and goes elsewhere does not matter. -/
theorem OnTurn.aside (h : s.OnTurn) (hphase : s'.phase = s.phase) (hcycle : s'.cycle = s.cycle)
    (hservers : s'.servers.polled = s.servers.polled ∧ s'.servers.waiting = s.servers.waiting)
    (hclients : s'.clients.polled = s.clients.polled ∧ s'.clients.waiting = s.clients.waiting) :
    s'.OnTurn := by
  obtain ⟨hsp, hsw⟩ := hservers
  obtain ⟨hcp, hcw⟩ := hclients
  refine ⟨?_, ?_, ?_, ?_⟩
  · intro hp
    obtain ⟨hs, hc⟩ := h.resting (hphase ▸ hp)
    rw [hcycle]
    exact ⟨⟨hsp ▸ hs.polled, hsw ▸ hs.waiting⟩, ⟨hcp ▸ hc.polled, hcw ▸ hc.waiting⟩⟩
  · intro hp
    obtain ⟨hs, hc⟩ := h.polling (hphase ▸ hp)
    rw [hcycle]
    exact ⟨⟨hsp ▸ hs.polled, hsw ▸ hs.waiting⟩, ⟨hcp ▸ hc.polled, hcw ▸ hc.waiting⟩⟩
  · rw [hphase, hsw]
    exact h.serversDone
  · rw [hphase, hcw]
    exact h.clientsDone

theorem OnTurn.pollServer (h : s.OnTurn) (hphase : s.phase = .servers) (ok : Bool) :
    (s.pollServer ok).OnTurn := by
  obtain ⟨hs, hc⟩ := h.polling (by simp [hphase])
  unfold Serving.pollServer
  split
  · rename_i hdone
    exact ⟨by simp, fun _ => ⟨hs, hc⟩, fun _ => hdone, by simp⟩
  · refine ⟨?_, fun _ => ⟨hs.poll ok, hc⟩, ?_, ?_⟩ <;> simp [Serving.release, hphase]

theorem OnTurn.pollClient (h : s.OnTurn) (hphase : s.phase = .clients) (ok : Bool) :
    (s.pollClient ok).OnTurn := by
  obtain ⟨hs, hc⟩ := h.polling (by simp [hphase])
  have hservers := h.serversDone (.inl hphase)
  unfold Serving.pollClient
  split
  · rename_i hdone
    exact ⟨by simp, fun _ => ⟨hs, hc⟩, fun _ => hservers, fun _ => hdone⟩
  · exact ⟨by simp [hphase], fun _ => ⟨hs, hc.poll ok⟩, fun _ => hservers, by simp [hphase]⟩

theorem OnTurn.step (h : s.OnTurn) {cmd : Command} (hallowed : s.Allowed cmd) :
    (s.perform cmd).OnTurn := by
  cases cmd with
  | accept l =>
      show (s.acquireConn l).OnTurn
      unfold acquireConn
      split
      · exact h.aside rfl rfl ⟨rfl, rfl⟩ ⟨rfl, rfl⟩
      · cases l <;> exact h.aside rfl rfl ⟨rfl, rfl⟩ ⟨rfl, rfl⟩
  | refuse l => exact h.aside rfl rfl ⟨rfl, rfl⟩ ⟨rfl, rfl⟩
  | handshake k ok =>
      show (s.finishHandshake k ok).OnTurn
      unfold finishHandshake
      split
      · exact h
      · cases ok <;> exact h.aside rfl rfl ⟨rfl, rfl⟩ ⟨rfl, rfl⟩
  | hangUp k =>
      show (s.endSession k).OnTurn
      unfold endSession
      split
      · exact h
      · exact h.aside rfl rfl ⟨rfl, rfl⟩ ⟨rfl, rfl⟩
  | establish id => exact h.aside rfl rfl ⟨rfl, rfl⟩ ⟨rfl, rfl⟩
  | adopt =>
      obtain ⟨hs, hc⟩ := h.resting hallowed
      exact ⟨by simp [perform], fun _ => ⟨hs.adopt, hc.adopt⟩, by simp [perform], by simp [perform]⟩
  | pollServer ok => exact h.pollServer hallowed ok
  | pollClient ok => exact h.pollClient hallowed ok
  | pollMuxes =>
      have hphase : s.phase = .muxes := hallowed
      obtain ⟨hs, hc⟩ := h.polling (by simp [hphase])
      have hservers := h.serversDone (.inr hphase)
      have hclients := h.clientsDone hphase
      exact ⟨fun _ => ⟨hs.rested hservers, hc.rested hclients⟩, by simp [perform],
        by simp [perform], by simp [perform]⟩

theorem onTurn_of_reachable (h : Run.Reachable (· = idle) Step s) : s.OnTurn := by
  refine h.invariant (fun s hs => ?_) fun s s' ht hstep => ?_
  · rw [hs]
    exact ⟨fun _ => ⟨⟨by simp [idle, Roster.empty], rfl⟩, ⟨by simp [idle, Roster.empty], rfl⟩⟩,
      by simp [idle], fun _ => rfl, fun _ => rfl⟩
  · obtain ⟨cmd, hallowed, rfl⟩ := hstep
    exact ht.step hallowed

/-- Whose place at the duty cycle is given up, and by what. -/
theorem servers_lost {cmd : Command} {id : ℕ} (hid : id ∈ s.servers.ids)
    (hlost : id ∉ (s.perform cmd).servers.ids) :
    cmd = .pollServer false ∧ s.servers.waiting.head?.map PolledItem.id = some id := by
  cases cmd with
  | accept l =>
      refine absurd ?_ hlost
      show id ∈ (s.acquireConn l).servers.ids
      unfold acquireConn
      split
      · exact hid
      · cases l <;> exact hid
  | handshake k ok =>
      refine absurd ?_ hlost
      show id ∈ (s.finishHandshake k ok).servers.ids
      unfold finishHandshake
      split
      · exact hid
      · cases ok
        · exact hid
        · exact (s.servers.ids_push _).symm.subset (List.mem_cons_of_mem _ hid)
  | hangUp k =>
      refine absurd ?_ hlost
      show id ∈ (s.endSession k).servers.ids
      unfold endSession
      split <;> exact hid
  | adopt => exact absurd ((s.servers.ids_adopt s.cycle).symm.subset hid) hlost
  | pollServer ok =>
      cases hw : s.servers.waiting with
      | nil =>
          refine absurd ?_ hlost
          show id ∈ (s.pollServer ok).servers.ids
          simpa [Serving.pollServer, hw] using hid
      | cons x waiting =>
          have hpoll : (s.perform (.pollServer ok)).servers = s.servers.poll ok := by
            simp [perform, Serving.pollServer, hw, Serving.release]
          obtain ⟨rfl, hhead⟩ := Roster.head_of_lost hid (hpoll ▸ hlost)
          exact ⟨rfl, hw ▸ hhead⟩
  | pollClient ok =>
      refine absurd ?_ hlost
      show id ∈ (s.pollClient ok).servers.ids
      unfold Serving.pollClient
      split <;> exact hid
  | refuse l => exact absurd hid hlost
  | establish id' => exact absurd hid hlost
  | pollMuxes => exact absurd hid hlost

end Cycling

/-- A subscriber and a client come, and the subscriber is polled for one cycle and a
half. -/
def visited : List Command :=
  [.accept .stream, .accept .client, .handshake 0 true, .adopt, .pollServer true, .pollServer true,
    .pollClient true, .pollMuxes, .adopt, .pollServer true, .hangUp 0]

instance (s : Serving) (cmd : Command) : Decidable (s.Allowed cmd) :=
  match cmd with
  | .accept l => inferInstanceAs (Decidable (s.refusing l = false))
  | .refuse l => inferInstanceAs (Decidable (s.refusing l = true))
  | .adopt => inferInstanceAs (Decidable (s.phase = .adopting))
  | .pollServer _ => inferInstanceAs (Decidable (s.phase = .servers))
  | .pollClient _ => inferInstanceAs (Decidable (s.phase = .clients))
  | .pollMuxes => inferInstanceAs (Decidable (s.phase = .muxes))
  | .handshake _ _ | .hangUp _ | .establish _ => .isTrue trivial

theorem visited_reachable : ∃ s, Run.Reachable (· = idle) Step s ∧
    s.servers.polled = [⟨0, 0, 2⟩] ∧ s.ended = [1] ∧ s.cycle = 1 := by
  refine Run.exists_reachable_perform (· = idle) Step perform Allowed
    (fun _ cmd h => ⟨cmd, h, rfl⟩) idle visited _ rfl ?_
  decide +kernel

/-- **The limit on connections holds under every interleaving.** There are never more
than `MAX_CONNECTIONS`, counting those that are queued or still shaking hands. The
count is what there is and at most one refusal of each listener that is still to be
taken back: no place is lost or given up twice. Everyone who was taken on is in one
place, or has ended. A listener turns a connection away only if at most one place
was free. -/
theorem connections_bounded {s : Serving} (h : Run.Reachable (· = idle) Step s) :
    s.live.length ≤ MAX_CONNECTIONS ∧ s.conns = s.live.length + s.refusals ∧ s.refusals ≤ 2 ∧
      (s.live ++ s.ended).Perm (List.range s.accepted) ∧
      ∀ l, s.refusing l = false → s.conns ≥ MAX_CONNECTIONS →
        MAX_CONNECTIONS ≤ s.live.length + 1 := by
  have hc := counted_of_reachable h
  refine ⟨hc.bound, hc.count, ?_, hc.placed, fun l hl hfull => ?_⟩
  · unfold refusals
    have := Bool.toNat_le (s.refusing .stream)
    have := Bool.toNat_le (s.refusing .client)
    omega
  · have hone := s.refusals_le hl
    have hcount := hc.count
    omega

theorem connections_bounded_visited :
    ∃ s, Run.Reachable (· = idle) Step s ∧ s.ended = [1] ∧
      (s.live ++ s.ended).Perm (List.range s.accepted) := by
  obtain ⟨s, hs, -, hended, -⟩ := visited_reachable
  exact ⟨s, hs, hended, (connections_bounded hs).2.2.2.1⟩

/-- **The duty cycle starves no one.** Whatever else fails, comes or goes: every
subscriber that is served and every replica that is fed has been polled once in each
cycle since it was taken in, at most once in the one under way, and no subscriber
loses its place but by a poll of its own. -/
theorem polled_every_cycle {s : Serving} (h : Run.Reachable (· = idle) Step s) :
    (∀ x ∈ s.servers.polled ++ s.servers.waiting ++ (s.clients.polled ++ s.clients.waiting),
      s.cycle ≤ x.adopted + x.polls ∧ x.adopted + x.polls ≤ s.cycle + 1) ∧
      ∀ cmd, ∀ id ∈ s.servers.ids, id ∉ (s.perform cmd).servers.ids →
        cmd = .pollServer false ∧ s.servers.waiting.head?.map PolledItem.id = some id := by
  refine ⟨?_, fun cmd id hid hlost => servers_lost hid hlost⟩
  have ht := onTurn_of_reachable h
  have hroster : ∀ {r : Roster}, r.Rested s.cycle ∨ r.Paced s.cycle →
      ∀ x ∈ r.polled ++ r.waiting, s.cycle ≤ x.adopted + x.polls ∧
        x.adopted + x.polls ≤ s.cycle + 1 := by
    rintro r (hr | hr) x hx <;> rcases List.mem_append.mp hx with hx | hx
    · have := hr.polled x hx
      omega
    · simp [hr.waiting] at hx
    · have := hr.polled x hx
      omega
    · have := hr.waiting x hx
      omega
  have hboth : (s.servers.Rested s.cycle ∨ s.servers.Paced s.cycle) ∧
      (s.clients.Rested s.cycle ∨ s.clients.Paced s.cycle) := by
    by_cases hphase : s.phase = .adopting
    · exact ⟨.inl (ht.resting hphase).1, .inl (ht.resting hphase).2⟩
    · exact ⟨.inr (ht.polling hphase).1, .inr (ht.polling hphase).2⟩
  intro x hx
  rcases List.mem_append.mp hx with hx | hx
  · exact hroster hboth.1 x hx
  · exact hroster hboth.2 x hx

theorem polled_every_cycle_visited :
    ∃ s, Run.Reachable (· = idle) Step s ∧ s.servers.polled = [⟨0, 0, 2⟩] ∧
      s.cycle ≤ 0 + 2 ∧ 0 + 2 ≤ s.cycle + 1 := by
  obtain ⟨s, hs, hpolled, -, -⟩ := visited_reachable
  exact ⟨s, hs, hpolled, (polled_every_cycle hs).1 ⟨0, 0, 2⟩ (by simp [hpolled])⟩

end Serving

end XchannelNet
