import XchannelNet.Lib.Run
import XchannelNet.Node.Claim
import XchannelNet.Node.Outlook

/-!
# Reaper — retiring the members of a topic whose owners are dead

A topic may be created with a time after which a member is reaped whose owner
is not live. On every pass `reap_dead_members` looks at the members of these
topics: it stops the clock of one whose owner is live, starts the clock of one
whose owner is not, and tombstones one whose clock has run for long enough. A
clock is kept under the member's name and epoch. A pass that does not look at a
member leaves its clock running, and so does a change of its owner.
-/

namespace XchannelNet.Reaper

/-- A pass: when it was made, and who was live. -/
structure Pass where
  time : Instant
  live : NodeId → Bool

/-- A node with topics. `topicReap` are the topics whose members are reaped,
with the time after which they are; `passes` are those made, latest first. -/
structure State (P A : Type) where
  outlook : Outlook P A
  muxes : ChannelName → Bool
  topicReap : List (ChannelName × Instant)
  deadSince : ChannelName × UInt64 → Option Instant
  passes : List Pass

inductive Action (P A : Type) where
  | news (x : News P A)
  /-- `opened` tells whether the topic's files could be made -/
  | createTopic (nanos : UInt64) (q : ClaimRequest) (memberReapAfter : Instant) (opened : Bool)
  /-- `finished` tells whether the mux could be -/
  | deregisterTopic (topic : ChannelName) (finished : Bool)
  | reapDeadMembers

def Action.isPass {P A : Type} : Action P A → Bool
  | .reapDeadMembers => true
  | _ => false

namespace State

variable {P A : Type}

def init (outlook : Outlook P A) : State P A where
  outlook
  muxes := fun _ => false
  topicReap := []
  deadSince := fun _ => none
  passes := []

def withRegistry (s : State P A) (registry : Registry) : State P A :=
  { s with outlook := { s.outlook with registry } }

def setClock (s : State P A) (key : ChannelName × UInt64) (t : Option Instant) : State P A :=
  { s with deadSince := Function.update s.deadSince key t }

def createTopic (s : State P A) (nanos : UInt64) (q : ClaimRequest) (memberReapAfter : Instant)
    (opened : Bool) : State P A :=
  match s.outlook.registry.claimName s.outlook.selfNode nanos q with
  | (registry, .error _) => s.withRegistry registry
  | (registry, .ok _) =>
    let s := s.withRegistry registry
    if !opened then s
    else
      { s with
        muxes := Function.update s.muxes q.name true
        topicReap :=
          if memberReapAfter = 0 then s.topicReap
          else (q.name, memberReapAfter) :: s.topicReap.filter (·.1 ≠ q.name) }

/-- The clocks of the topic's members are left as they are. -/
def deregisterTopic (s : State P A) (topic : ChannelName) (finished : Bool) : State P A :=
  if !s.muxes topic then s
  else
    let s := { s with muxes := Function.update s.muxes topic false }
    if !finished then s
    else
      { s with topicReap := s.topicReap.filter (·.1 ≠ topic) }.withRegistry
        (s.outlook.registry.deregister topic s.outlook.selfNode).1

/-- The live entries of a topic's members. -/
def membersOf (s : State P A) (topic : ChannelName) : List ChannelIdentity :=
  s.outlook.registry.iter.filter fun id => !id.deleted && id.memberOf = some topic

/-- Look at one member. What is tombstoned is put down, with the time after
which it was. -/
def reapMember (reapAfter : Instant) (x : State P A × List (ChannelIdentity × Instant))
    (m : ChannelIdentity) : State P A × List (ChannelIdentity × Instant) :=
  let s := x.1
  let key := (m.name, m.epoch)
  if m.owner = s.outlook.selfNode || s.outlook.live m.owner then (s.setClock key none, x.2)
  else
    let since := (s.deadSince key).getD s.outlook.now
    if reapAfter ≤ s.outlook.now - since then
      let (registry, tombstone) := s.outlook.registry.reap m.name
      ((s.setClock key none).withRegistry registry, (tombstone.map (·, reapAfter)).toList ++ x.2)
    else (s.setClock key (some since), x.2)

def reapTopic (x : State P A × List (ChannelIdentity × Instant)) (t : ChannelName × Instant) :
    State P A × List (ChannelIdentity × Instant) :=
  (x.1.membersOf t.1).foldl (reapMember t.2) x

def pass (s : State P A) : Pass := ⟨s.outlook.now, s.outlook.live⟩

/-- One pass, and what it tombstones. -/
def reapDeadMembers (s : State P A) : State P A × List (ChannelIdentity × Instant) :=
  s.topicReap.foldl reapTopic ({ s with passes := s.pass :: s.passes }, [])

variable [DecidableEq P] [DecidableEq A]

def perform (s : State P A) : Action P A → State P A
  | .news x => { s with outlook := s.outlook.hear x }
  | .createTopic nanos q memberReapAfter opened => s.createTopic nanos q memberReapAfter opened
  | .deregisterTopic topic finished => s.deregisterTopic topic finished
  | .reapDeadMembers => s.reapDeadMembers.1

end State

/-- Not live at any pass from some pass on, before which there was none after
`start`. -/
def DeadFrom (passes : List Pass) (o : NodeId) (start : Instant) : Prop :=
  ∃ recent older, passes = recent ++ older ∧ (∀ p ∈ recent, p.live o = false) ∧
    ∀ p ∈ older, p.time ≤ start

theorem DeadFrom.of_past {passes : List Pass} {start : Instant}
    (h : ∀ p ∈ passes, p.time ≤ start) (o : NodeId) : DeadFrom passes o start :=
  ⟨[], passes, rfl, nofun, h⟩

theorem DeadFrom.cons {passes : List Pass} {o : NodeId} {start : Instant} {p : Pass}
    (h : DeadFrom passes o start) (hp : p.live o = false) : DeadFrom (p :: passes) o start := by
  obtain ⟨recent, older, rfl, hrecent, holder⟩ := h
  refine ⟨p :: recent, older, rfl, fun q hq => ?_, holder⟩
  rcases List.mem_cons.mp hq with rfl | hq
  · exact hp
  · exact hrecent q hq

/-! ## What a clock tells -/

/-- A clock under `(n, e)` tells something of the live entry of that epoch, if
`n` still has it. The name is at that epoch or past it. -/
def Tells (r : Registry) (n : ChannelName) (e : UInt64) (good : ChannelIdentity → Prop) : Prop :=
  ∃ x, r.getRaw n = some x ∧ e ≤ x.epoch ∧ (x.epoch = e → x.deleted = false → good x)

/-- Entries only give way to larger ones. So the live entry of an epoch that a
name has, if it had one of that epoch before, was live then too. -/
theorem Tells.grows {r r' : Registry} {n : ChannelName} {e : UInt64}
    {good good' : ChannelIdentity → Prop} (h : Tells r n e good) (hgrows : r.keyAt n ≤ r'.keyAt n)
    (hgood : ∀ x x', r.get n = some x → x.epoch = e → r'.get n = some x' → x'.epoch = e →
      good x → good' x') : Tells r' n e good' := by
  obtain ⟨x, hx, hle, hx'⟩ := h
  obtain ⟨x', hget, hkey⟩ := Registry.exists_of_keyAt_le hgrows hx
  obtain ⟨hepoch, hdeleted⟩ := ChannelIdentity.epoch_of_key_le hkey
  refine ⟨x', hget, UInt64.le_trans hle hepoch, fun he hlive => ?_⟩
  have hxe : x.epoch = e := UInt64.le_antisymm (he ▸ hepoch) hle
  have hxlive := hdeleted (hxe.trans he.symm) hlive
  exact hgood x x' (Registry.get_eq_some.mpr ⟨hx, hxlive⟩) hxe
    (Registry.get_eq_some.mpr ⟨hget, hlive⟩) he (hx' hxe hxlive)

variable {P A : Type}

/-- Every clock tells that the owner was not live at any pass since it was
started. -/
structure Timely (s : State P A) : Prop where
  past : ∀ p ∈ s.passes, p.time ≤ s.outlook.now
  clocks : ∀ n e t, s.deadSince (n, e) = some t → t ≤ s.outlook.now ∧
    Tells s.outlook.registry n e fun x => DeadFrom s.passes x.owner t

/-- A member whose clock runs keeps its owner, for as long as it keeps its epoch. -/
def SameOwners (s s' : State P A) : Prop :=
  ∀ cur ∈ s.outlook.registry.iter, cur.deleted = false →
    (s.deadSince (cur.name, cur.epoch)).isSome → ∀ cur' ∈ s'.outlook.registry.get cur.name,
      cur'.epoch = cur.epoch → cur'.owner = cur.owner

/-- Every member whose clock runs is looked at: it is a member of a topic whose
members are reaped. -/
def Watched (s : State P A) : Prop :=
  ∀ cur ∈ s.outlook.registry.iter, cur.deleted = false →
    (s.deadSince (cur.name, cur.epoch)).isSome → ∃ t ∈ s.topicReap, cur.memberOf = some t.1

/-- Whatever leaves the clocks and the passes alone. -/
theorem Timely.keeps {s s' : State P A} (h : Timely s) (howners : SameOwners s s')
    (hclocks : s'.deadSince = s.deadSince) (hpasses : s'.passes = s.passes)
    (hnow : s.outlook.now ≤ s'.outlook.now)
    (hgrows : ∀ n, s.outlook.registry.keyAt n ≤ s'.outlook.registry.keyAt n) : Timely s' := by
  refine ⟨fun p hp => ?_, fun n e t ht => ?_⟩
  · rw [hpasses] at hp
    exact (h.past p hp).trans hnow
  · rw [hclocks] at ht
    obtain ⟨hle, htells⟩ := h.clocks n e t ht
    refine ⟨hle.trans hnow, htells.grows (hgrows n) fun x x' hx hxe hx' he' hdead => ?_⟩
    obtain ⟨hraw, hlive⟩ := Registry.get_eq_some.mp hx
    obtain rfl := Registry.getRaw_name hraw
    rw [howners x (Registry.mem_iter.mpr hraw) hlive (by rw [hxe, ht]; rfl) x' hx'
      (he'.trans hxe.symm), hpasses]
    exact hdead

/-! ## One pass -/

theorem mem_membersOf {s : State P A} {topic : ChannelName} {m : ChannelIdentity} :
    m ∈ s.membersOf topic ↔
      s.outlook.registry.get m.name = some m ∧ m.memberOf = some topic := by
  rw [State.membersOf, List.mem_filter, Registry.mem_iter, Registry.get_eq_some]
  simp [and_assoc]

/-- What looking at a member does: its clock stops, or its owner is not live
and its name is reaped or its clock runs on. -/
theorem reapMember_cases (reapAfter : Instant)
    (x : State P A × List (ChannelIdentity × Instant)) (m : ChannelIdentity) :
    State.reapMember reapAfter x m = (x.1.setClock (m.name, m.epoch) none, x.2) ∨
    x.1.outlook.live m.owner = false ∧ ∃ since,
      since = (x.1.deadSince (m.name, m.epoch)).getD x.1.outlook.now ∧
      (reapAfter ≤ x.1.outlook.now - since ∧ State.reapMember reapAfter x m =
          ((x.1.setClock (m.name, m.epoch) none).withRegistry
              (x.1.outlook.registry.reap m.name).1,
            ((x.1.outlook.registry.reap m.name).2.map (·, reapAfter)).toList ++ x.2) ∨
        State.reapMember reapAfter x m =
          (x.1.setClock (m.name, m.epoch) (some since), x.2)) := by
  unfold State.reapMember
  dsimp only
  split
  · exact .inl rfl
  · rename_i howner
    simp only [Bool.or_eq_true, not_or, Bool.not_eq_true] at howner
    refine .inr ⟨howner.2, _, rfl, ?_⟩
    split
    · exact .inl ⟨‹_›, rfl⟩
    · exact .inr rfl

theorem registry_reapMember (reapAfter : Instant)
    (x : State P A × List (ChannelIdentity × Instant)) (m : ChannelIdentity) :
    (State.reapMember reapAfter x m).1.outlook.registry = x.1.outlook.registry ∨
      (State.reapMember reapAfter x m).1.outlook.registry =
        (x.1.outlook.registry.reap m.name).1 := by
  rcases reapMember_cases reapAfter x m with hx | ⟨-, since, -, ⟨-, hx⟩ | hx⟩ <;> rw [hx]
  · exact .inl rfl
  · exact .inr rfl
  · exact .inl rfl

/-- What a pass from `s` has come to. A clock that runs tells of an owner that is
not live now, or of a member that is still to be looked at. -/
structure Passing (s : State P A) (pending : ChannelIdentity → Prop)
    (x : State P A × List (ChannelIdentity × Instant)) : Prop where
  outlook : x.1.outlook = { s.outlook with registry := x.1.outlook.registry }
  passes : x.1.passes = s.pass :: s.passes
  clocks : ∀ n e t, x.1.deadSince (n, e) = some t → t ≤ s.outlook.now ∧
    Tells x.1.outlook.registry n e fun m => DeadFrom s.passes m.owner t ∧
      (s.outlook.live m.owner = false ∨ pending m)
  reaped : ∀ y ∈ x.2, ∃ start, start + y.2 ≤ s.outlook.now ∧
    s.outlook.live y.1.owner = false ∧ DeadFrom s.passes y.1.owner start

/-- The name has this entry, or its tombstone. -/
def Current (r : Registry) (m : ChannelIdentity) : Prop :=
  r.getRaw m.name = some m ∨ r.getRaw m.name = some { m with deleted := true }

theorem Current.reap {r : Registry} {m : ChannelIdentity} (h : Current r m) (n : ChannelName) :
    Current (r.reap n).1 m := by
  obtain ⟨x, hx, hxm⟩ : ∃ x, r.getRaw m.name = some x ∧
      { x with deleted := true } = { m with deleted := true } := by
    rcases h with h | h <;> exact ⟨_, h, rfl⟩
  rcases r.reap_cases n with hr | ⟨id, hget, -, hr⟩ <;> rw [hr]
  · exact h
  · obtain ⟨y, hy, -⟩ := Registry.exists_of_keyAt_le
      (Registry.keyAt_le_mergeTracked r { id with deleted := true } m.name) hx
    rcases Registry.getRaw_mergeTracked_choice hy with hold | ⟨rfl, hn⟩
    · rcases h with h | h <;> rw [h] at hold <;> cases hold
      · exact .inl hy
      · exact .inr hy
    · -- it is this name that is reaped
      have hid : r.getRaw m.name = some id := by
        rw [← hn, show id.name = n from Registry.getRaw_name hget]
        exact hget
      obtain rfl : x = id := Option.some.inj (hx.symm.trans hid)
      exact .inr (hy.trans (congrArg some hxm))

namespace Passing

variable {s : State P A} {pending pending' : ChannelIdentity → Prop}
  {x : State P A × List (ChannelIdentity × Instant)} {m : ChannelIdentity}

theorem mono (h : Passing s pending x)
    (hp : ∀ m, x.1.outlook.registry.get m.name = some m → pending m → pending' m) :
    Passing s pending' x := by
  refine ⟨h.outlook, h.passes, fun n e t ht => ?_, h.reaped⟩
  obtain ⟨hle, y, hget, he, hy⟩ := h.clocks n e t ht
  refine ⟨hle, y, hget, he, fun hye hlive => ?_⟩
  obtain ⟨hdead, hor⟩ := hy hye hlive
  refine ⟨hdead, hor.imp_right (hp y ?_)⟩
  rw [Registry.get_eq_some, Registry.getRaw_name hget]
  exact ⟨hget, hlive⟩

theorem live (h : Passing s pending x) (o : NodeId) : x.1.outlook.live o = s.outlook.live o := by
  rw [h.outlook]
  rfl

theorem now (h : Passing s pending x) : x.1.outlook.now = s.outlook.now := by
  rw [h.outlook]

/-- A clock other than the one of `m` tells the same after `m` was looked at. -/
theorem others (h : Passing s (fun m' => m' = m ∨ pending m') x) {r : Registry}
    (hgrows : ∀ n, x.1.outlook.registry.keyAt n ≤ r.keyAt n)
    (hr : ∀ n y, r.get n = some y → x.1.outlook.registry.get n = some y) :
    ∀ n e t, (n, e) ≠ (m.name, m.epoch) → x.1.deadSince (n, e) = some t →
      t ≤ s.outlook.now ∧ Tells r n e fun m => DeadFrom s.passes m.owner t ∧
        (s.outlook.live m.owner = false ∨ pending m) := by
  intro n e t hkey ht
  obtain ⟨hle, htells⟩ := h.clocks n e t ht
  refine ⟨hle, htells.grows (hgrows n) fun y y' hy hye hy' _ hgood => ?_⟩
  obtain rfl : y = y' := Option.some.inj (hy.symm.trans (hr n y' hy'))
  refine ⟨hgood.1, hgood.2.imp_right fun hp => hp.resolve_left ?_⟩
  rintro rfl
  exact hkey (Prod.ext (Registry.getRaw_name (Registry.get_eq_some.mp hy).1).symm hye.symm)

theorem since_le (h : Passing s pending x) (key : ChannelName × UInt64) :
    (x.1.deadSince key).getD s.outlook.now ≤ s.outlook.now := by
  cases ht : x.1.deadSince key with
  | none => exact Nat.le_refl _
  | some t => exact (h.clocks _ _ _ ht).1

/-- What the clock of a member that is looked at says of its owner. -/
theorem since (h : Passing s pending x) (hpast : ∀ p ∈ s.passes, p.time ≤ s.outlook.now)
    (hm : x.1.outlook.registry.get m.name = some m) :
    DeadFrom s.passes m.owner ((x.1.deadSince (m.name, m.epoch)).getD s.outlook.now) := by
  cases ht : x.1.deadSince (m.name, m.epoch) with
  | none => exact .of_past hpast _
  | some t =>
      obtain ⟨-, y, hget, -, hy⟩ := h.clocks _ _ _ ht
      obtain ⟨hraw, hlive⟩ := Registry.get_eq_some.mp hm
      obtain rfl : m = y := Option.some.inj (hraw.symm.trans hget)
      exact (hy rfl hlive).1

/-- The clock of `m` is set; what it tells then, it must tell by itself. -/
theorem setClock (h : Passing s (fun m' => m' = m ∨ pending m') x) {c : Option Instant}
    (hc : ∀ t, c = some t → t ≤ s.outlook.now ∧
      Tells x.1.outlook.registry m.name m.epoch fun m => DeadFrom s.passes m.owner t ∧
        (s.outlook.live m.owner = false ∨ pending m)) :
    Passing s pending (x.1.setClock (m.name, m.epoch) c, x.2) := by
  have hsame := h.others (r := x.1.outlook.registry) (fun _ => le_rfl) fun _ _ hy => hy
  refine ⟨h.outlook, h.passes, fun n e t ht => ?_, h.reaped⟩
  simp only [State.setClock, Function.update_apply] at ht
  split at ht
  · rename_i hkey
    obtain ⟨rfl, rfl⟩ := Prod.mk.inj hkey
    exact hc t ht
  · rename_i hkey
    exact hsame n e t hkey ht

/-- A member whose owner has been dead for long enough is reaped. -/
theorem reap (h : Passing s (fun m' => m' = m ∨ pending m') x)
    (hpast : ∀ p ∈ s.passes, p.time ≤ s.outlook.now) (hm : Current x.1.outlook.registry m)
    (hdown : s.outlook.live m.owner = false) {reapAfter : Instant}
    (hlong : reapAfter ≤
      s.outlook.now - (x.1.deadSince (m.name, m.epoch)).getD s.outlook.now) :
    Passing s pending
      ((x.1.setClock (m.name, m.epoch) none).withRegistry (x.1.outlook.registry.reap m.name).1,
        ((x.1.outlook.registry.reap m.name).2.map (·, reapAfter)).toList ++ x.2) := by
  have hrest := h.others (r := (x.1.outlook.registry.reap m.name).1)
    (fun n => Registry.keyAt_le_reap _ _ n) fun n y hy => by
      obtain ⟨hraw, hylive⟩ := Registry.get_eq_some.mp hy
      exact Registry.get_eq_some.mpr ⟨Registry.getRaw_of_reap hraw hylive, hylive⟩
  refine ⟨?_, h.passes, fun n e t ht => ?_, fun y hy => ?_⟩
  · simp only [State.withRegistry, State.setClock]
    rw [h.outlook]
  · simp only [State.withRegistry, State.setClock, Function.update_apply] at ht
    split at ht
    · cases ht
    · rename_i hkey
      exact hrest n e t hkey ht
  · rcases List.mem_append.mp hy with hy | hy
    · obtain ⟨tomb, htomb, rfl⟩ : ∃ tomb, (x.1.outlook.registry.reap m.name).2 = some tomb ∧
          y = (tomb, reapAfter) := by
        simpa [eq_comm] using hy
      obtain ⟨cur, hcur, rfl⟩ := Registry.reap_some htomb
      obtain ⟨hraw, hcurlive⟩ := Registry.get_eq_some.mp hcur
      rcases hm with hm | hm <;> obtain rfl := Option.some.inj (hraw.symm.trans hm)
      · have hdead := h.since hpast hcur
        refine ⟨_, ?_, hdown, hdead⟩
        exact (Nat.add_le_add_left hlong _).trans (Nat.add_sub_of_le (h.since_le _)).le
      · cases hcurlive
    · exact h.reaped y hy

theorem reapMember (h : Passing s (fun m' => m' = m ∨ pending m') x)
    (hpast : ∀ p ∈ s.passes, p.time ≤ s.outlook.now) (hm : Current x.1.outlook.registry m)
    (hlive : m.deleted = false) (reapAfter : Instant) :
    Passing s pending (State.reapMember reapAfter x m) := by
  rcases reapMember_cases reapAfter x m with hx | ⟨hdown, since, rfl, ⟨hlong, hx⟩ | hx⟩ <;> rw [hx]
  · -- the owner is live: its clock stops
    exact h.setClock nofun
  · rw [h.live] at hdown
    rw [h.now] at hlong
    exact h.reap hpast hm hdown hlong
  · rw [h.live] at hdown
    rw [h.now]
    refine h.setClock fun t ht => ?_
    cases ht
    refine ⟨h.since_le _, ?_⟩
    rcases hm with hm | hm
    · exact ⟨m, hm, UInt64.le_refl _, fun _ _ =>
        ⟨h.since hpast (Registry.get_eq_some.mpr ⟨hm, hlive⟩), .inl hdown⟩⟩
    · exact ⟨_, hm, UInt64.le_refl _, fun _ hd => absurd hd (by simp)⟩

theorem reapMembers {later : ChannelIdentity → Prop} (reapAfter : Instant)
    (hpast : ∀ p ∈ s.passes, p.time ≤ s.outlook.now) (ms : List ChannelIdentity)
    (h : Passing s (fun m => m ∈ ms ∨ later m) x)
    (hms : ∀ m ∈ ms, m.deleted = false ∧ Current x.1.outlook.registry m) :
    Passing s later (ms.foldl (State.reapMember reapAfter) x) := by
  induction ms generalizing x with
  | nil => exact h.mono fun _ _ hm => hm.resolve_left (List.not_mem_nil)
  | cons m ms ih =>
      obtain ⟨hlive, hcur⟩ := hms m List.mem_cons_self
      have hfirst : Passing s (fun m' => m' = m ∨ (m' ∈ ms ∨ later m')) x :=
        h.mono fun m' _ hm' => by rwa [List.mem_cons, or_assoc] at hm'
      refine ih (hfirst.reapMember hpast hcur hlive reapAfter) fun m' hm' => ?_
      obtain ⟨hlive', hcur'⟩ := hms m' (List.mem_cons_of_mem _ hm')
      refine ⟨hlive', ?_⟩
      rcases registry_reapMember reapAfter x m with hr | hr <;> rw [hr]
      · exact hcur'
      · exact hcur'.reap m.name

/-- By induction over the topics still to be gone through. -/
theorem reapTopics (hpast : ∀ p ∈ s.passes, p.time ≤ s.outlook.now)
    (ts : List (ChannelName × Instant))
    (h : Passing s (fun m => ∃ t ∈ ts, m.memberOf = some t.1) x) :
    Passing s (fun _ => False) (ts.foldl State.reapTopic x) := by
  induction ts generalizing x with
  | nil =>
      refine h.mono fun m _ hm => ?_
      obtain ⟨t, ht, -⟩ := hm
      cases ht
  | cons t ts ih =>
      refine ih (reapMembers t.2 hpast (x.1.membersOf t.1) (h.mono fun m hm hp => ?_) ?_)
      · obtain ⟨t', ht', hof⟩ := hp
        rcases List.mem_cons.mp ht' with rfl | ht'
        · exact .inl (mem_membersOf.mpr ⟨hm, hof⟩)
        · exact .inr ⟨t', ht', hof⟩
      · intro m hm
        obtain ⟨hraw, hlive⟩ := Registry.get_eq_some.mp (mem_membersOf.mp hm).1
        exact ⟨hlive, .inl hraw⟩

end Passing

/-- A pass that looks at every member whose clock runs. -/
theorem passing_reapDeadMembers {s : State P A} (h : Timely s) (hwatched : Watched s) :
    Passing s (fun _ => False) s.reapDeadMembers := by
  refine Passing.reapTopics h.past s.topicReap ⟨rfl, rfl, fun n e t ht => ?_, nofun⟩
  obtain ⟨hle, x, hget, he, hx⟩ := h.clocks n e t ht
  refine ⟨hle, x, hget, he, fun hxe hlive => ⟨hx hxe hlive, .inr ?_⟩⟩
  obtain rfl := Registry.getRaw_name hget
  exact hwatched x (Registry.mem_iter.mpr hget) hlive (by rw [hxe]; exact Option.isSome_of_mem ht)

theorem Timely.reapDeadMembers {s : State P A} (h : Timely s) (hwatched : Watched s) :
    Timely s.reapDeadMembers.1 := by
  have hpass := passing_reapDeadMembers h hwatched
  refine ⟨fun p hp => ?_, fun n e t ht => ?_⟩ <;> rw [hpass.now]
  · rw [hpass.passes] at hp
    rcases List.mem_cons.mp hp with rfl | hp
    · exact Nat.le_refl _
    · exact h.past p hp
  · obtain ⟨hle, x, hget, he, hx⟩ := hpass.clocks n e t ht
    refine ⟨hle, x, hget, he, fun hxe hlive => ?_⟩
    obtain ⟨hdead, hor⟩ := hx hxe hlive
    rw [hpass.passes]
    exact hdead.cons (hor.resolve_right id)

/-! ## Whole runs -/

variable [DecidableEq P] [DecidableEq A]

omit [DecidableEq P] [DecidableEq A] in
/-- Creating a topic and giving one up leave the clocks and the passes alone. -/
theorem createTopic_keeps (s : State P A) (nanos : UInt64) (q : ClaimRequest)
    (memberReapAfter : Instant) (opened : Bool) :
    let s' := s.createTopic nanos q memberReapAfter opened
    s'.deadSince = s.deadSince ∧ s'.passes = s.passes ∧
      s'.outlook = { s.outlook with registry :=
        (s.outlook.registry.claimName s.outlook.selfNode nanos q).1 } := by
  intro s'
  unfold s' State.createTopic
  split <;> rename_i heq <;> rw [heq]
  · exact ⟨rfl, rfl, rfl⟩
  · dsimp only
    split <;> exact ⟨rfl, rfl, rfl⟩

omit [DecidableEq P] [DecidableEq A] in
theorem deregisterTopic_keeps (s : State P A) (topic : ChannelName) (finished : Bool) :
    let s' := s.deregisterTopic topic finished
    s'.deadSince = s.deadSince ∧ s'.passes = s.passes ∧
      (s'.outlook = s.outlook ∨ s'.outlook = { s.outlook with registry :=
        (s.outlook.registry.deregister topic s.outlook.selfNode).1 }) := by
  intro s'
  unfold s' State.deregisterTopic
  split
  · exact ⟨rfl, rfl, .inl rfl⟩
  · dsimp only
    split
    · exact ⟨rfl, rfl, .inl rfl⟩
    · exact ⟨rfl, rfl, .inr rfl⟩

theorem Timely.perform {s : State P A} (h : Timely s) {a : Action P A}
    (howners : SameOwners s (s.perform a)) (hwatched : a.isPass → Watched s) :
    Timely (s.perform a) := by
  cases a with
  | reapDeadMembers => exact h.reapDeadMembers (hwatched rfl)
  | news x =>
      exact h.keeps howners rfl rfl (Outlook.now_le_hear _ _) (Outlook.keyAt_le_hear _ x)
  | createTopic nanos q memberReapAfter opened =>
      obtain ⟨hclocks, hpasses, hout⟩ := createTopic_keeps s nanos q memberReapAfter opened
      refine h.keeps howners hclocks hpasses (by rw [State.perform, hout]) fun n => ?_
      rw [State.perform, hout]
      dsimp only
      rw [Registry.claimName_fst]
      exact Registry.keyAt_le_mergeTracked _ _ n
  | deregisterTopic topic finished =>
      obtain ⟨hclocks, hpasses, hout⟩ := deregisterTopic_keeps s topic finished
      refine h.keeps howners hclocks hpasses ?_ fun n => ?_ <;>
        rw [State.perform] <;> rcases hout with hout | hout <;> rw [hout]
      exact Registry.keyAt_le_deregister _ _ _ n

/-- Steps that `ok` allows. -/
def Step (ok : State P A → Action P A → State P A → Prop) (s s' : State P A) : Prop :=
  ∃ a, ok s a s' ∧ s' = s.perform a

/-- The states of a node that has started with some registry and no topic. -/
def Reached (ok : State P A → Action P A → State P A → Prop) : State P A → Prop :=
  Run.Reachable (fun s => ∃ o : Outlook P A, s = .init o) (Step ok)

/-- A member whose clock runs keeps its owner, and every pass looks at it. -/
def Attentive (s : State P A) (a : Action P A) (s' : State P A) : Prop :=
  SameOwners s s' ∧ (a.isPass → Watched s)

instance (s : State P A) : Decidable (Watched s) :=
  inferInstanceAs (Decidable (∀ cur ∈ s.outlook.registry.iter, _))

instance (s s' : State P A) : Decidable (SameOwners s s') :=
  inferInstanceAs (Decidable (∀ cur ∈ s.outlook.registry.iter, _))

instance (s : State P A) (a : Action P A) (s' : State P A) : Decidable (Attentive s a s') :=
  inferInstanceAs (Decidable (_ ∧ _))

theorem Reached.timely {s : State P A} (h : Reached Attentive s) : Timely s := by
  refine Run.Reachable.invariant h ?_ ?_
  · rintro _ ⟨o, rfl⟩
    exact ⟨nofun, nofun⟩
  · rintro s _ hs ⟨a, hok, rfl⟩
    exact hs.perform hok.1 hok.2

/-- What a pass tombstones is a member whose owner was not live, now or at any
pass since `start`, which was at least the topic's time ago. -/
theorem reaps_the_dead {s : State P A} (h : Reached Attentive s) (hwatched : Watched s)
    {tomb : ChannelIdentity} {reapAfter : Instant}
    (hreap : (tomb, reapAfter) ∈ s.reapDeadMembers.2) :
    ∃ start, start + reapAfter ≤ s.outlook.now ∧ s.outlook.live tomb.owner = false ∧
      DeadFrom s.passes tomb.owner start :=
  (passing_reapDeadMembers h.timely hwatched).reaped _ hreap

/-- A member of node 2. -/
def member : ChannelIdentity := ⟨"m", 2, 65536, 1500, 0, 7, 0, false, some "t"⟩

/-- The member's topic, whose members are reaped after ten. -/
def topic (nanos : UInt64) : Action ℕ ℕ := .createTopic nanos ⟨"t", 65536, 1500, none⟩ 10 true

/-- Node 1, with a liveness timeout of five. -/
def alone : State ℕ ℕ := .init ⟨.new, .new 1 0 5 fun _ => none, 0, []⟩

theorem reaps_the_dead_member :
    ∃ s : State ℕ ℕ, Reached Attentive s ∧
      s.reapDeadMembers.2 = [({ member with deleted := true }, 10)] ∧
      ∃ start, start + 10 ≤ s.outlook.now ∧ DeadFrom s.passes 2 start := by
  obtain ⟨s, hs, hwatched, hreap⟩ := Run.exists_reachable_perform
    (fun s => ∃ o, s = .init o) (Step Attentive) State.perform
    (fun s a => Attentive s a (s.perform a)) (fun _ a h => ⟨a, h, rfl⟩) alone
    [.news (.merge member), topic 7, .reapDeadMembers, .news (.elapse 4), .reapDeadMembers,
      .news (.elapse 6)]
    (fun s => Watched s ∧ s.reapDeadMembers.2 = [({ member with deleted := true }, 10)])
    ⟨_, rfl⟩ (by decide +kernel)
  obtain ⟨start, hlong, -, hdead⟩ :=
    reaps_the_dead hs hwatched (hreap ▸ List.mem_singleton_self _)
  exact ⟨s, hs, hreap, start, hlong, hdead⟩

/-- The topic is given up and created again. The clock of its member has been
running all the while, and the member is reaped at ten, although its owner was
live at the pass at five. -/
theorem live_owner_reaped :
    ∃ s : State ℕ ℕ, Reached (fun _ _ _ => True) s ∧
      s.reapDeadMembers.2 = [({ member with deleted := true }, 10)] ∧
      ¬ ∃ start, start + 10 ≤ s.outlook.now ∧ DeadFrom s.passes 2 start := by
  obtain ⟨s, hs, hreap, hnow, hpass⟩ := Run.exists_reachable_perform
    (fun s => ∃ o, s = .init o) (Step fun _ _ _ => True) State.perform (fun _ _ => True)
    (fun _ a h => ⟨a, h, rfl⟩) alone
    [.news (.merge member), topic 7, .reapDeadMembers, .deregisterTopic "t" true,
      .news (.elapse 5), .news (.arrive 0 (.heartbeat 2 0 0 "b")), .reapDeadMembers,
      .news (.arrive 0 (.leaving 2)), topic 9, .news (.elapse 5)]
    (fun s => s.reapDeadMembers.2 = [({ member with deleted := true }, 10)] ∧
      s.outlook.now = 10 ∧ s.passes.any (fun p => p.time = 5 && p.live 2) = true)
    ⟨_, rfl⟩ (by decide +kernel)
  refine ⟨s, hs, hreap, ?_⟩
  rintro ⟨start, hlong, recent, older, hsplit, hrecent, holder⟩
  obtain ⟨p, hp, hp'⟩ := List.any_eq_true.mp hpass
  rw [Bool.and_eq_true, decide_eq_true_eq] at hp'
  rw [hsplit, List.mem_append] at hp
  rcases hp with hp | hp
  · exact absurd (hrecent p hp) (by simp [hp'.2])
  · have hle := holder p hp
    rw [hp'.1] at hle
    rw [hnow] at hlong
    exact absurd hlong (by simp only [Instant] at *; omega)

end XchannelNet.Reaper
