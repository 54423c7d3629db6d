import Mathlib.Algebra.BigOperators.Group.List.Basic
import Mathlib.Algebra.GroupWithZero.Nat
import XchannelNet.Identity
import XchannelNet.Lib.Run
import XchannelNet.Lib.Sequence

/-!
# Subscriptions — who writes a replica

The machinery that keeps replicas fresh, as far as their files go. A
subscription is a state shared by whoever holds its handle, by the thread that
establishes its connection and by the item that the duty cycle polls. Client
threads, the conductor, the establish threads and the duty cycle run
concurrently; every command here is one step of one of them.

Stopping a subscription sets a flag and nothing more. Its thread may be past
the point where it looks at the flag, its item may be queued or in the middle
of a poll.
-/

namespace XchannelNet

/-- Where a thread of `establish` stands. It has a writer open on the replica
while it reads the replica's position and once it has opened the sink. -/
inductive Establishing where
  | spawned
  | resolving
  | probing
  | asking
  | discarding
  | holding
  | publishing
  | ending
  deriving DecidableEq, Repr

/-- Where a connected sink is: handed over, polled, or dropped with the flag
still to be cleared. -/
inductive PollItem where
  | queued
  | polled
  | dropped
  deriving DecidableEq, Repr

/-- One subscription: the flags that are shared, the threads that establish it
and the items that carry its sink. -/
structure Subscription where
  name : ChannelName
  stopped : Bool
  connected : Bool
  establishing : Bool
  threads : List Establishing
  items : List PollItem
  deriving DecidableEq, Repr

/-- What is not up to a thread: an answer that it can go on with, one that says
to rebuild, or a failure. -/
inductive Reply where
  | ok
  | rebuild
  | fails
  deriving DecidableEq, Repr

namespace Subscription

def new (name : ChannelName) : Subscription := ⟨name, false, false, false, [], []⟩

/-- `Subscription::stop`. -/
def stop (s : Subscription) : Subscription := { s with stopped := true }

/-- `spawn_establish`: one attempt at a time, and one per backoff window. The flag is cleared
again if there is no thread to be had. -/
def spawnEstablish (s : Subscription) (due spawned : Bool) : Subscription :=
  if s.establishing then s
  else if due && spawned then { s with establishing := true, threads := .spawned :: s.threads }
  else s

def enter (s : Subscription) (k : ℕ) (phase : Establishing) : Subscription :=
  { s with threads := s.threads.set k phase }

/-- The next step of a thread of `establish`. The flags are looked at once, at
the beginning. -/
def advance (s : Subscription) (k : ℕ) (replicaExists : Bool) (reply : Reply) : Subscription :=
  match s.threads[k]? with
  | none => s
  | some .spawned => s.enter k (if s.stopped || s.connected then .ending else .resolving)
  | some .resolving =>
    if reply = .fails then s.enter k .ending
    else s.enter k (if replicaExists then .probing else .asking)
  | some .probing => s.enter k .asking
  | some .asking =>
    match reply with
    | .ok => s.enter k .holding
    | .rebuild => s.enter k .discarding
    | .fails => s.enter k .ending
  | some .discarding => s.enter k .ending
  | some .holding =>
    if reply = .fails then s.enter k .ending
    -- published before the item is handed over
    else { s.enter k .publishing with connected := true }
  | some .publishing => { s.enter k .ending with items := .queued :: s.items }
  | some .ending => { s with threads := s.threads.eraseIdx k, establishing := false }

/-- The duty cycle takes over what is queued. -/
def drain (s : Subscription) : Subscription :=
  { s with items := s.items.map fun i => if i = .queued then .polled else i }

/-- The duty cycle comes to an item. -/
def poll (s : Subscription) (k : ℕ) (fails : Bool) : Subscription :=
  if s.items[k]? = some .polled ∧ (s.stopped || fails) then
    { s with items := s.items.set k .dropped }
  else s

/-- The flag is cleared once the item is gone. -/
def clear (s : Subscription) (k : ℕ) : Subscription :=
  if s.items[k]? = some .dropped then
    { s with items := s.items.eraseIdx k, connected := false }
  else s

end Subscription

/-- A client thread in the middle of a `Subscribe`, or the maintenance pass in
the middle of `ensure_member_subscription`: the table has been looked at, the
subscription has been made, the first attempt has been started. -/
inductive Caller where
  | checked (name : ChannelName)
  | created (sub : ℕ)
  | started (sub : ℕ)
  deriving DecidableEq, Repr

/-- The whole machinery. `table` are the subscriptions kept, `wanted` those the
conductor found unconnected, `replicas` the replica files there are. -/
structure Machinery where
  subs : List Subscription
  table : ChannelName → Option ℕ
  callers : List Caller
  wanted : List ℕ
  replicas : ChannelName → Bool

namespace Machinery

inductive Command where
  | request (name : ChannelName)
  | giveUp (k : ℕ)
  | create (k : ℕ)
  | start (k : ℕ) (due spawned : Bool)
  | keep (k : ℕ)
  | unsubscribe (name : ChannelName)
  | collect (sub : ℕ)
  | spawn (sub : ℕ) (due spawned : Bool)
  | advance (sub k : ℕ) (reply : Reply)
  | drain
  | poll (sub k : ℕ) (fails : Bool)
  | clear (sub k : ℕ)
  deriving DecidableEq, Repr

def modifySub (m : Machinery) (i : ℕ) (f : Subscription → Subscription) : Machinery :=
  { m with subs := m.subs.modify i f }

/-- A handle leaves the table: it is stopped, and that is all. -/
def release (m : Machinery) : Option ℕ → Machinery
  | none => m
  | some i => m.modifySub i Subscription.stop

/-- Whether the table has a subscription that is still wanted. -/
def isActive (m : Machinery) (name : ChannelName) : Bool :=
  ((m.table name).bind (m.subs[·]?)).any fun s => !s.stopped

/-- What a thread does to the replica's files. -/
def touch (m : Machinery) (i k : ℕ) (reply : Reply) : ChannelName → Bool :=
  match m.subs[i]? with
  | none => m.replicas
  | some s =>
    match s.threads[k]?, reply with
    | some .asking, .ok => Function.update m.replicas s.name true
    | some .discarding, _ => Function.update m.replicas s.name false
    | _, _ => m.replicas

/-- What a command does. -/
def perform (m : Machinery) : Command → Machinery
  | .request name =>
    if m.isActive name then m else { m with callers := .checked name :: m.callers }
  | .giveUp k =>
    match m.callers[k]? with
    | some (.checked _) => { m with callers := m.callers.eraseIdx k }
    | _ => m
  | .create k =>
    match m.callers[k]? with
    | some (.checked name) =>
      { m with
        subs := m.subs ++ [.new name]
        callers := m.callers.set k (.created m.subs.length) }
    | _ => m
  | .start k due spawned =>
    match m.callers[k]? with
    | some (.created i) =>
      { m.modifySub i (·.spawnEstablish due spawned) with
        callers := m.callers.set k (.started i) }
    | _ => m
  | .keep k =>
    match m.callers[k]? with
    | some (.started i) =>
      match m.subs[i]? with
      | none => m
      | some s =>
        { m.release (m.table s.name) with
          table := Function.update m.table s.name (some i)
          callers := m.callers.eraseIdx k }
    | _ => m
  | .unsubscribe name =>
    { m.release (m.table name) with table := Function.update m.table name none }
  | .collect i =>
    match m.subs[i]? with
    | none => m
    | some s => if s.stopped || s.connected then m else { m with wanted := i :: m.wanted }
  | .spawn i due spawned =>
    if i ∈ m.wanted then
      { m.modifySub i (·.spawnEstablish due spawned) with wanted := m.wanted.erase i }
    else m
  | .advance i k reply =>
    { m.modifySub i fun s => s.advance k (m.replicas s.name) reply with
      replicas := m.touch i k reply }
  | .drain => { m with subs := m.subs.map Subscription.drain }
  | .poll i k fails => m.modifySub i (·.poll k fails)
  | .clear i k => m.modifySub i (·.clear k)

/-- One step of a machinery whose commands are subject to a condition. -/
def Step (allowed : Machinery → Command → Prop) (m m' : Machinery) : Prop :=
  ∃ cmd, allowed m cmd ∧ m' = m.perform cmd

/-- A daemon that has just started, on whatever replicas. -/
def Init (m : Machinery) : Prop :=
  m.subs = [] ∧ m.table = (fun _ => none) ∧ m.callers = [] ∧ m.wanted = []

end Machinery

/-! ## Writers -/

/-- A writer is open on the replica. -/
def Establishing.writes : Establishing → Bool
  | .probing | .holding | .publishing => true
  | _ => false

/-- The writer is that of a sink. -/
def Establishing.sinks : Establishing → Bool
  | .holding | .publishing => true
  | _ => false

def PollItem.sinks : PollItem → Bool
  | .dropped => false
  | _ => true

namespace Subscription

def writers (s : Subscription) : ℕ :=
  s.threads.countP Establishing.writes + s.items.countP PollItem.sinks

def liveSinks (s : Subscription) : ℕ :=
  s.threads.countP Establishing.sinks + s.items.countP PollItem.sinks

/-- The subscription has been stopped and has let go: its thread, if it has
one, has not looked at the flag yet or is about to end, and its item, if it has
one, has been dropped. -/
def Retired (s : Subscription) : Prop :=
  s.stopped = true ∧ (∀ t ∈ s.threads, t = .spawned ∨ t = .ending) ∧ ∀ i ∈ s.items, i = .dropped

instance (s : Subscription) : Decidable s.Retired := inferInstanceAs (Decidable (_ ∧ _ ∧ _))

end Subscription

namespace Machinery

/-- The writers open on a name's replica. -/
def writers (m : Machinery) (name : ChannelName) : ℕ :=
  ((m.subs.filter (·.name = name)).map Subscription.writers).sum

/-- The sinks among them. -/
def liveSinks (m : Machinery) (name : ChannelName) : ℕ :=
  ((m.subs.filter (·.name = name)).map Subscription.liveSinks).sum

/-- Some thread is about to remove the replica's directory. -/
def Discarding (m : Machinery) (name : ChannelName) : Prop :=
  ∃ s ∈ m.subs, s.name = name ∧ .discarding ∈ s.threads

instance (m : Machinery) (name : ChannelName) : Decidable (m.Discarding name) :=
  inferInstanceAs (Decidable (∃ s ∈ m.subs, _ ∧ _))

/-- A subscription to a name is made only once all earlier ones to that name
are retired. -/
def Exclusive (m : Machinery) : Command → Prop
  | .create k => ∀ name, m.callers[k]? = some (.checked name) →
      ∀ s ∈ m.subs, s.name = name → s.Retired
  | _ => True

theorem exclusive_create_iff (m : Machinery) (k : ℕ) : Exclusive m (.create k) ↔
    ∀ s ∈ m.subs, m.callers[k]? = some (.checked s.name) → s.Retired :=
  ⟨fun h s hs hname => h s.name hname s hs rfl, fun h _ hname s hs hn => h s hs (hn ▸ hname)⟩

instance (m : Machinery) : DecidablePred (Exclusive m)
  | .create k => decidable_of_iff _ (exclusive_create_iff m k).symm
  | .request _ | .giveUp _ | .start _ _ _ | .keep _ | .unsubscribe _ | .collect _ | .spawn _ _ _
  | .advance _ _ _ | .drain | .poll _ _ _ | .clear _ _ => isTrue trivial

end Machinery

/-! ## One subscription -/

/-- The thread has found the subscription unconnected and not connected it
itself. -/
def Establishing.alone : Establishing → Bool
  | .resolving | .probing | .asking | .discarding | .holding => true
  | _ => false

namespace Subscription

variable {s : Subscription}

/-- A subscription has one thread at most and one item at most, and never a
writer in both. -/
structure Sound (s : Subscription) : Prop where
  thread : s.threads = [] ∨ ∃ t, s.threads = [t] ∧ s.establishing = true ∧
    (t.alone = true → s.connected = false ∧ s.items = []) ∧ (t = .publishing → s.items = [])
  item : s.items = [] ∨ ∃ i, s.items = [i] ∧ s.connected = true
  publishing : .publishing ∈ s.threads → s.connected = true

/-- What a step of one subscription has to keep. -/
structure Keeps (f : Subscription → Subscription) : Prop where
  name : ∀ s, (f s).name = s.name
  sound : ∀ s, s.Sound → (f s).Sound
  retired : ∀ s, s.Retired → (f s).Retired

theorem sound_new (name : ChannelName) : (new name).Sound :=
  ⟨.inl rfl, .inl rfl, fun h => by cases h⟩

theorem keeps_stop : Keeps stop :=
  ⟨fun _ => rfl, fun _ h => ⟨h.thread, h.item, h.publishing⟩, fun _ h => ⟨rfl, h.2⟩⟩

theorem keeps_spawnEstablish (due spawned : Bool) : Keeps (·.spawnEstablish due spawned) := by
  constructor
  · intro s
    simp only [spawnEstablish]
    split
    · rfl
    · split <;> rfl
  · intro s h
    simp only [spawnEstablish]
    split
    · exact h
    rename_i hidle
    split
    · -- no attempt is going on, so that there is no thread
      have hnone : s.threads = [] := by
        rcases h.thread with hnil | ⟨t, -, hest, -⟩
        · exact hnil
        · exact absurd hest hidle
      refine ⟨.inr ⟨.spawned, by simp [hnone], rfl, nofun, nofun⟩, h.item, ?_⟩
      simp [hnone]
    · exact h
  · rintro s ⟨hstop, hthreads, hitems⟩
    simp only [spawnEstablish]
    split
    · exact ⟨hstop, hthreads, hitems⟩
    · split
      · refine ⟨hstop, fun t ht => ?_, hitems⟩
        rcases List.mem_cons.mp ht with rfl | ht
        · exact .inl rfl
        · exact hthreads t ht
      · exact ⟨hstop, hthreads, hitems⟩

/-- A thread goes on without touching anything else. -/
theorem Sound.enter {t t' : Establishing} (h : s.Sound) (ht : s.threads = [t])
    (halone : t'.alone = true → s.connected = false ∧ s.items = [])
    (hpub : t' ≠ .publishing) : (s.enter 0 t').Sound := by
  obtain hnil | ⟨_, heq, hest, -⟩ := h.thread
  · rw [hnil] at ht
    cases ht
  refine ⟨.inr ⟨t', by simp [Subscription.enter, ht], hest, halone, fun hp => absurd hp hpub⟩,
    h.item, ?_⟩
  simp [Subscription.enter, ht, hpub.symm]

theorem sound_advance (k : ℕ) (replicaExists : Bool) (reply : Reply) (h : s.Sound) :
    (s.advance k replicaExists reply).Sound := by
  obtain hnil | ⟨t, ht, hest, halone, hpub⟩ := h.thread
  · simpa [advance, hnil] using h
  cases k with
  | succ k => simpa [advance, ht] using h
  | zero =>
      have hget : s.threads[0]? = some t := by simp [ht]
      have hend : (s.enter 0 .ending).Sound :=
        h.enter ht nofun (by decide)
      simp only [advance, hget]
      cases t with
      | spawned =>
          simp only
          split
          · exact hend
          · rename_i hflags
            have hconn : s.connected = false := by
              cases hc : s.connected <;> simp_all
            refine h.enter ht (fun _ => ⟨hconn, ?_⟩) (by decide)
            rcases h.item with hi | ⟨i, -, hc⟩
            · exact hi
            · rw [hconn] at hc
              cases hc
      | resolving =>
          simp only
          split
          · exact hend
          · refine h.enter ht (fun _ => halone rfl) ?_
            split <;> decide
      | probing => exact h.enter ht (fun _ => halone rfl) (by decide)
      | asking =>
          cases reply with
          | ok => exact h.enter ht (fun _ => halone rfl) (by decide)
          | rebuild => exact h.enter ht (fun _ => halone rfl) (by decide)
          | fails => exact hend
      | discarding => exact hend
      | holding =>
          simp only
          split
          · exact hend
          · obtain ⟨-, hitems⟩ := halone rfl
            exact ⟨.inr ⟨.publishing, by simp [enter, ht], hest, nofun, fun _ => hitems⟩,
              .inl hitems, fun _ => rfl⟩
      | publishing =>
          have hitems : s.items = [] := hpub rfl
          have hconn : s.connected = true := h.publishing (by simp [ht])
          refine ⟨.inr ⟨.ending, by simp [enter, ht], hest, nofun, nofun⟩,
            .inr ⟨.queued, by simp [hitems], hconn⟩, ?_⟩
          simp [enter, ht]
      | ending => exact ⟨.inl (by simp [ht]), h.item, by simp [ht]⟩

theorem retired_advance (k : ℕ) (replicaExists : Bool) (reply : Reply) (h : s.Retired) :
    (s.advance k replicaExists reply).Retired := by
  obtain ⟨hstop, hthreads, hitems⟩ := h
  simp only [advance]
  cases ht : s.threads[k]? with
  | none => exact ⟨hstop, hthreads, hitems⟩
  | some t =>
      rcases hthreads t (List.mem_of_getElem? ht) with rfl | rfl
      · -- it looks at the flag now
        refine ⟨hstop, fun t ht => ?_, hitems⟩
        simp only [enter, hstop, Bool.true_or, if_true] at ht
        rcases List.mem_or_eq_of_mem_set ht with hin | rfl
        · exact hthreads t hin
        · exact .inr rfl
      · exact ⟨hstop, fun t ht => hthreads t (List.mem_of_mem_eraseIdx ht), hitems⟩

theorem keeps_advance (k : ℕ) (replicas : ChannelName → Bool) (reply : Reply) :
    Keeps fun s => s.advance k (replicas s.name) reply := by
  refine ⟨fun s => ?_, fun s h => sound_advance k _ reply h, fun s h => retired_advance k _ reply h⟩
  simp only [advance]
  split <;> (try split) <;> rfl

theorem keeps_drain : Keeps drain := by
  refine ⟨fun _ => rfl, fun s h => ?_, fun s h => ⟨h.1, h.2.1, fun i hi => ?_⟩⟩
  · rcases h.item with hi | ⟨i, hi, hc⟩
    · refine ⟨?_, .inl (by simp [drain, hi]), h.publishing⟩
      simpa [drain, hi] using h.thread
    · refine ⟨?_, .inr ⟨if i = .queued then .polled else i, by simp [drain, hi], hc⟩,
        h.publishing⟩
      simpa [drain, hi] using h.thread
  · obtain ⟨j, hj, rfl⟩ := List.mem_map.mp hi
    rw [h.2.2 j hj]
    rfl

theorem keeps_poll (k : ℕ) (fails : Bool) : Keeps (·.poll k fails) := by
  constructor
  · intro s
    simp only [poll]
    split <;> rfl
  · intro s h
    simp only [poll]
    split
    · rename_i hpolled
      rcases h.item with hi | ⟨i, hi, hc⟩
      · simp [hi] at hpolled
      · refine ⟨?_, ?_, h.publishing⟩
        · simpa [hi] using h.thread
        · cases k with
          | zero => exact .inr ⟨.dropped, by simp [hi], hc⟩
          | succ k => simp [hi] at hpolled
    · exact h
  · rintro s ⟨hstop, hthreads, hitems⟩
    simp only [poll]
    split
    · refine ⟨hstop, hthreads, fun i hi => ?_⟩
      rcases List.mem_or_eq_of_mem_set hi with hin | rfl
      · exact hitems i hin
      · rfl
    · exact ⟨hstop, hthreads, hitems⟩

theorem keeps_clear (k : ℕ) : Keeps (·.clear k) := by
  constructor
  · intro s
    simp only [clear]
    split <;> rfl
  · intro s h
    simp only [clear]
    split
    · rename_i hdropped
      rcases h.item with hi | ⟨i, hi, hc⟩
      · simp [hi] at hdropped
      · cases k with
        | succ k => simp [hi] at hdropped
        | zero =>
            refine ⟨?_, .inl (by simp [hi]), fun hp => ?_⟩
            · rcases h.thread with hnil | ⟨t, ht, hest, halone, hpub⟩
              · exact .inl hnil
              · refine .inr ⟨t, ht, hest, fun _ => ⟨rfl, by simp [hi]⟩, fun _ => by simp [hi]⟩
            · -- a thread that publishes has no item to be cleared
              rcases h.thread with hnil | ⟨t, ht, hest, halone, hpub⟩
              · simp [hnil] at hp
              · simp only [ht, List.mem_singleton] at hp
                simp [hpub hp.symm] at hi
    · exact h
  · rintro s ⟨hstop, hthreads, hitems⟩
    simp only [clear]
    split
    · exact ⟨hstop, hthreads, fun i hi => hitems i (List.mem_of_mem_eraseIdx hi)⟩
    · exact ⟨hstop, hthreads, hitems⟩

theorem Sound.writers_le (h : s.Sound) : s.writers ≤ 1 := by
  rcases h.thread with hnil | ⟨t, ht, -, halone, hpub⟩
  · rcases h.item with hi | ⟨i, hi, -⟩
    · simp [writers, hnil, hi]
    · simp only [writers, hnil, hi, List.countP_nil, List.countP_singleton]
      split <;> omega
  · by_cases hw : t.writes = true
    · have hitems : s.items = [] := by
        cases t with
        | probing => exact (halone rfl).2
        | holding => exact (halone rfl).2
        | publishing => exact hpub rfl
        | _ => cases hw
      simp [writers, ht, hitems, hw]
    · rcases h.item with hi | ⟨i, hi, -⟩
      · simp [writers, ht, hi, hw]
      · simp only [writers, ht, hi, List.countP_singleton, if_neg hw]
        split <;> omega

theorem Retired.writers_eq (h : s.Retired) : s.writers = 0 := by
  obtain ⟨-, hthreads, hitems⟩ := h
  have ht : s.threads.countP Establishing.writes = 0 := by
    rw [List.countP_eq_zero]
    intro t ht
    rcases hthreads t ht with rfl | rfl <;> decide
  have hi : s.items.countP PollItem.sinks = 0 := by
    rw [List.countP_eq_zero]
    intro i hi
    rw [hitems i hi]
    decide
  rw [writers, ht, hi]

theorem liveSinks_le_writers (s : Subscription) : s.liveSinks ≤ s.writers := by
  have h : s.threads.countP Establishing.sinks ≤ s.threads.countP Establishing.writes := by
    refine List.countP_mono_left fun t _ ht => ?_
    cases t <;> first | rfl | cases ht
  simp only [liveSinks, writers]
  omega

theorem Sound.liveSinks_of_discarding (h : s.Sound) (hd : .discarding ∈ s.threads) :
    s.liveSinks = 0 := by
  rcases h.thread with hnil | ⟨t, ht, -, halone, -⟩
  · simp [hnil] at hd
  · simp only [ht, List.mem_singleton] at hd
    subst hd
    simp [liveSinks, ht, (halone rfl).2, Establishing.sinks]

end Subscription

/-! ## All subscriptions -/

namespace Machinery

open Subscription

variable {m m' : Machinery}

/-- Of the subscriptions to one name all but the last are retired. -/
structure Tame (m : Machinery) : Prop where
  sound : ∀ s ∈ m.subs, s.Sound
  last : m.subs.Pairwise fun a b => a.name = b.name → a.Retired

theorem Tame.modifySub {f : Subscription → Subscription} (h : Tame m) (i : ℕ) (hf : Keeps f) :
    Tame (m.modifySub i f) := by
  constructor
  · intro s hs
    obtain ⟨c, hc, rfl | rfl⟩ := Sequence.mem_modify hs
    · exact h.sound s hc
    · exact hf.sound c (h.sound c hc)
  · refine Sequence.pairwise_modify i h.last (fun a b hab hn => ?_) fun a b hab hn => ?_
    · rw [hf.name] at hn
      exact hf.retired a (hab hn)
    · rw [hf.name] at hn
      exact hab hn

theorem Tame.congr (h : Tame m) (hsubs : m'.subs = m.subs) : Tame m' :=
  ⟨hsubs ▸ h.sound, hsubs ▸ h.last⟩

theorem Tame.release (h : Tame m) (o : Option ℕ) : Tame (m.release o) := by
  cases o with
  | none => exact h
  | some i => exact h.modifySub i keeps_stop

/-- A subscription for a name all earlier ones of which have been retired. -/
theorem Tame.append_new (h : Tame m) {name : ChannelName}
    (hretired : ∀ s ∈ m.subs, s.name = name → s.Retired)
    (hsubs : m'.subs = m.subs ++ [.new name]) : Tame m' := by
  constructor
  · intro s hs
    rw [hsubs, List.mem_append, List.mem_singleton] at hs
    rcases hs with hs | rfl
    · exact h.sound s hs
    · exact sound_new name
  · rw [hsubs]
    refine List.pairwise_append.mpr ⟨h.last, List.pairwise_singleton _ _, ?_⟩
    intro a ha b hb hn
    rw [List.mem_singleton.mp hb] at hn
    exact hretired a ha hn

theorem Tame.map (h : Tame m) {f : Subscription → Subscription} (hf : Keeps f)
    (hsubs : m'.subs = m.subs.map f) : Tame m' := by
  constructor
  · intro s hs
    rw [hsubs] at hs
    obtain ⟨a, ha, rfl⟩ := List.mem_map.mp hs
    exact hf.sound a (h.sound a ha)
  · rw [hsubs]
    refine List.pairwise_map.mpr (h.last.imp fun {a b} hab hn => ?_)
    rw [hf.name, hf.name] at hn
    exact hf.retired a (hab hn)

theorem Tame.step (h : Tame m) (hstep : Step Exclusive m m') : Tame m' := by
  obtain ⟨cmd, hok, rfl⟩ := hstep
  cases cmd with
  | request name =>
      simp only [perform]
      split
      · exact h
      · exact h.congr rfl
  | giveUp k =>
      simp only [perform]
      split
      · exact h.congr rfl
      · exact h
  | create k =>
      simp only [perform]
      split
      · rename_i name hname
        exact h.append_new (hok name hname) rfl
      · exact h
  | start k due spawned =>
      simp only [perform]
      split
      · rename_i i _
        exact (h.modifySub i (keeps_spawnEstablish due spawned)).congr rfl
      · exact h
  | keep k =>
      simp only [perform]
      split
      · split
        · exact h
        · rename_i s _
          exact (h.release (m.table s.name)).congr rfl
      · exact h
  | unsubscribe name => exact (h.release (m.table name)).congr rfl
  | collect i =>
      simp only [perform]
      split
      · exact h
      · split
        · exact h
        · exact h.congr rfl
  | spawn i due spawned =>
      simp only [perform]
      split
      · exact (h.modifySub i (keeps_spawnEstablish due spawned)).congr rfl
      · exact h
  | advance i k reply => exact (h.modifySub i (keeps_advance k m.replicas reply)).congr rfl
  | drain => exact h.map keeps_drain rfl
  | poll i k fails => exact h.modifySub i (keeps_poll k fails)
  | clear i k => exact h.modifySub i (keeps_clear k)

theorem sum_writers_le {l : List Subscription} (name : ChannelName)
    (hsound : ∀ s ∈ l, s.Sound) (hlast : l.Pairwise fun a b => a.name = b.name → a.Retired) :
    ((l.filter (·.name = name)).map Subscription.writers).sum ≤ 1 := by
  induction l with
  | nil => simp
  | cons a l ih =>
      obtain ⟨ha, hp⟩ := List.pairwise_cons.mp hlast
      have hrest := ih (fun s hs => hsound s (List.mem_cons_of_mem a hs)) hp
      by_cases hn : a.name = name
      · rw [List.filter_cons_of_pos (by simpa using hn), List.map_cons, List.sum_cons]
        cases hl : l.filter (·.name = name) with
        | nil => simpa using (hsound a List.mem_cons_self).writers_le
        | cons b l' =>
            -- a later subscription to the same name: this one is retired
            have hb := List.mem_filter.mp (hl ▸ List.mem_cons_self : b ∈ l.filter (·.name = name))
            have hret : a.Retired := ha b hb.1 (hn.trans (of_decide_eq_true hb.2).symm)
            rw [← hl, hret.writers_eq]
            omega
      · rwa [List.filter_cons_of_neg (by simpa using hn)]

theorem sum_liveSinks_eq {l : List Subscription} {name : ChannelName}
    (hsound : ∀ s ∈ l, s.Sound) (hlast : l.Pairwise fun a b => a.name = b.name → a.Retired)
    (hd : ∃ s ∈ l, s.name = name ∧ .discarding ∈ s.threads) :
    ((l.filter (·.name = name)).map Subscription.liveSinks).sum = 0 := by
  induction l with
  | nil => simp
  | cons a l ih =>
      obtain ⟨ha, hp⟩ := List.pairwise_cons.mp hlast
      have hsound' : ∀ s ∈ l, s.Sound := fun s hs => hsound s (List.mem_cons_of_mem a hs)
      obtain ⟨s, hs, hname, hdisc⟩ := hd
      rcases List.mem_cons.mp hs with rfl | hs
      · -- it is the last one of its name
        have hnone : l.filter (·.name = name) = [] := by
          rw [List.filter_eq_nil_iff]
          intro b hb hbn
          have hret := ha b hb (hname.trans (of_decide_eq_true hbn).symm)
          rcases hret.2.1 _ hdisc with h | h <;> cases h
        rw [List.filter_cons_of_pos (by simpa using hname), hnone]
        simpa using (hsound s List.mem_cons_self).liveSinks_of_discarding hdisc
      · have hrest := ih hsound' hp ⟨s, hs, hname, hdisc⟩
        by_cases hn : a.name = name
        · have hret : a.Retired := ha s hs (hn.trans hname.symm)
          have hzero : a.liveSinks = 0 := by
            have hle := a.liveSinks_le_writers
            rw [hret.writers_eq] at hle
            omega
          rw [List.filter_cons_of_pos (by simpa using hn), List.map_cons, List.sum_cons, hzero,
            hrest]
        · rwa [List.filter_cons_of_neg (by simpa using hn)]

/-- **One writer per replica**, in every run in which a subscription to a name
is made only once all earlier ones to it have let go. At every moment at most
one writer is open on a replica, and a thread that is about to remove a
replica's directory does so with no sink open in it. -/
theorem one_writer_per_replica (h : Run.Reachable Init (Step Exclusive) m) (name : ChannelName) :
    m.writers name ≤ 1 ∧ (m.Discarding name → m.liveSinks name = 0) := by
  have htame : Tame m := by
    refine h.invariant (fun m hm => ?_) fun m m' hm hstep => hm.step hstep
    constructor
    · simp [hm.1]
    · simp [hm.1]
  exact ⟨sum_writers_le name htame.sound htame.last,
    fun hd => sum_liveSinks_eq htame.sound htame.last hd⟩

/-! ## Runs -/

/-- Nothing subscribed, no replicas. -/
def idle : Machinery := ⟨[], fun _ => none, [], [], fun _ => false⟩

theorem init_idle : Init idle := ⟨rfl, rfl, rfl, rfl⟩

/-- A request that makes a subscription and starts its first attempt. -/
def subscribing : List Command := [.request "c", .create 0, .start 0 true true, .keep 0]

/-- A thread of subscription `i` up to its handing over of the sink. The replica
is probed if it is there. -/
def connecting (i : ℕ) (probes : Bool) : List Command :=
  List.replicate (if probes then 7 else 6) (.advance i 0 .ok)

/-- A subscription is stopped, its item dropped by the duty cycle, and then the
name subscribed to again, up to the new sink. -/
theorem one_writer_after_resubscribing :
    ∃ m, Run.Reachable Init (Step Exclusive) m ∧ m.subs.length = 2 ∧ m.writers "c" = 1 := by
  obtain ⟨m, hm, hlen, hpos⟩ :=
    Run.exists_reachable_perform Init (Step Exclusive) perform Exclusive
      (fun _ cmd h => ⟨cmd, h, rfl⟩) idle
      (subscribing ++ connecting 0 false ++
        [.drain, .unsubscribe "c", .poll 0 0 false, .clear 0 0] ++
        subscribing ++ connecting 1 true)
      (fun m => m.subs.length = 2 ∧ 1 ≤ m.writers "c") init_idle (by decide +kernel)
  exact ⟨m, hm, hlen, le_antisymm (one_writer_per_replica hm "c").1 hpos⟩

/-- A subscription is stopped and made again before the duty cycle has come to
the old item. The new thread reads the replica's position, through a writer of
its own; and when the source tells it to rebuild, it removes the directory that
the old sink is writing in. -/
theorem two_writers_after_resubscribing :
    (∃ m, Run.Reachable Init (Step fun _ _ => True) m ∧ m.writers "c" = 2) ∧
    (∃ m, Run.Reachable Init (Step fun _ _ => True) m ∧
      m.Discarding "c" ∧ m.liveSinks "c" = 1) := by
  constructor
  · exact Run.exists_reachable_perform Init _ perform (fun _ _ => True)
      (fun _ cmd h => ⟨cmd, h, rfl⟩) idle
      (subscribing ++ connecting 0 false ++ [.drain, .unsubscribe "c"] ++ subscribing ++
        [.advance 1 0 .ok, .advance 1 0 .ok])
      _ init_idle (by decide +kernel)
  · exact Run.exists_reachable_perform Init _ perform (fun _ _ => True)
      (fun _ cmd h => ⟨cmd, h, rfl⟩) idle
      (subscribing ++ connecting 0 false ++ [.drain, .unsubscribe "c"] ++ subscribing ++
        [.advance 1 0 .ok, .advance 1 0 .ok, .advance 1 0 .ok, .advance 1 0 .rebuild])
      _ init_idle (by decide +kernel)

end Machinery

end XchannelNet
