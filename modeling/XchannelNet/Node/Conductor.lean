import XchannelNet.Node.Pacing

/-!
# Conductor — when a subscription may be established

Every attempt to establish a subscription goes through one place, whoever wants
it. A caller that asks for it is never held back. The conductor, which comes by
on every tick, and the pass that keeps the replicas of members fresh are: one
attempt for each backoff window of the name.

The state is the machinery of the subscriptions with its `due` no longer left
open, and the penalties by which it is decided.
-/

namespace XchannelNet

/-- Who wants a subscription established. -/
inductive Establish where
  | caller
  | retry
  deriving DecidableEq, Repr

/-- The first gap, in microseconds. -/
def ATTACH_BACKOFF_MIN : Instant := 250000

def ATTACH_BACKOFF_MAX : Instant := 4000000

/-- FNV-1a. -/
def fnv1a (bytes : List UInt8) : UInt64 :=
  bytes.foldl (fun h b => (h ^^^ b.toUInt64) * 0x100000001b3) 0xcbf29ce484222325

/-- A spread over half the gap, by the name. -/
def jitterFor (name : ChannelName) (gap : ℕ) : ℕ :=
  let half := max gap 1 / 2
  (fnv1a name.toUTF8.toList).toNat % max half 1

theorem jitterFor_lt (name : ChannelName) {gap : ℕ} (h : 2 ≤ gap) :
    jitterFor name gap < gap / 2 := by
  have hhalf : max (max gap 1 / 2) 1 = gap / 2 := by omega
  rw [jitterFor, hhalf]
  exact Nat.mod_lt _ (by omega)

def attachLevel (gap : ℕ) : ℕ :=
  if gap = 250000 then 0
  else if gap = 500000 then 2100000
  else if gap = 1000000 then 3950000
  else if gap = 2000000 then 5300000
  else 5650000

/-- Gaps double from a quarter of a second to four. -/
def attachGaps : List ℕ := [250000, 500000, 1000000, 2000000, 4000000]

theorem attachGaps_next (gap elapsed : ℕ) (h : gap ∈ attachGaps) :
    Backoff.next ATTACH_BACKOFF_MIN ATTACH_BACKOFF_MAX gap elapsed ∈ attachGaps := by
  rw [Backoff.next]
  split
  · simp only [attachGaps, List.mem_cons, List.not_mem_nil, or_false] at h
    rcases h with rfl | rfl | rfl | rfl | rfl <;> decide
  · decide

theorem attachLevel_pays (gap elapsed : ℕ) (h : gap ∈ attachGaps) (hle : gap ≤ elapsed) :
    2350000 + attachLevel gap ≤
      elapsed + attachLevel (Backoff.next ATTACH_BACKOFF_MIN ATTACH_BACKOFF_MAX gap elapsed) := by
  rw [Backoff.next, ATTACH_BACKOFF_MAX, ATTACH_BACKOFF_MIN]
  simp only [attachGaps, List.mem_cons, List.not_mem_nil, or_false] at h
  split <;> rcases h with rfl | rfl | rfl | rfl | rfl <;> simp [attachLevel] <;> omega

theorem attachLevel_le (gap : ℕ) (h : gap ∈ attachGaps) : attachLevel gap ≤ 5650000 := by
  simp only [attachGaps, List.mem_cons, List.not_mem_nil, or_false] at h
  rcases h with rfl | rfl | rfl | rfl | rfl <;> decide

def attachPotential :
    Backoff.Potential ATTACH_BACKOFF_MIN ATTACH_BACKOFF_MAX 2350000 5650000 where
  Occurs gap := gap ∈ attachGaps
  level := attachLevel
  occurs_lo := List.mem_cons_self
  occurs_next := attachGaps_next
  pays := attachLevel_pays
  level_le := attachLevel_le

/-- The subscriptions, and what decides when they may be established. -/
structure Conductor where
  machinery : Machinery
  now : Instant
  registry : Registry
  attachBackoff : ChannelName → Option DialPenalty
  /-- the owners that were live at the last pass -/
  lastLiveOwners : Finset NodeId

namespace Conductor

/-- The penalty of an attempt made now. -/
def penalty (c : Conductor) (name : ChannelName) : DialPenalty :=
  let gap :=
    match c.attachBackoff name with
    | some p =>
      if c.now - p.attemptedAt < ATTACH_BACKOFF_MAX * 2 then min (p.gap * 2) ATTACH_BACKOFF_MAX
      else ATTACH_BACKOFF_MIN
    | none => ATTACH_BACKOFF_MIN
  ⟨c.now, c.now + gap + jitterFor name gap, gap⟩

/-- Whether an attempt is due; if it is, it is charged. -/
def attachDue (c : Conductor) (name : ChannelName) : Bool × Conductor :=
  if (c.attachBackoff name).any fun p => c.now < p.next then (false, c)
  else
    (true,
      { c with attachBackoff := Function.update c.attachBackoff name (some (c.penalty name)) })

/-- Forget a name's penalty. -/
def attachNow (c : Conductor) (name : ChannelName) : Conductor :=
  { c with attachBackoff := Function.update c.attachBackoff name none }

/-- The names of owners that were not live at the last pass and are now. -/
def revivedNames (c : Conductor) (liveNow : Finset NodeId) : List ChannelName :=
  (c.registry.iter.filter fun id => id.owner ∈ liveNow \ c.lastLiveOwners).map (·.name)

def liveOwnersNotingRevivals (c : Conductor) (liveNow : Finset NodeId) : Conductor :=
  { c with
    lastLiveOwners := liveNow
    attachBackoff := fun name =>
      if name ∈ c.revivedNames liveNow then none else c.attachBackoff name }

def retireSubscription (c : Conductor) (name : ChannelName) : Conductor :=
  { c.attachNow name with machinery := c.machinery.perform (.unsubscribe name) }

/-- The throttle in `spawn_establish`. It is not asked while another attempt of
the same subscription is under way. -/
def throttle (c : Conductor) (sub : ℕ) (why : Establish) : Bool × Conductor :=
  match c.machinery.subs[sub]? with
  | none => (false, c)
  | some s =>
    match why with
    | .caller => (true, c.attachNow s.name)
    | .retry => if s.establishing then (false, c) else c.attachDue s.name

/-- What happens next. `spawned` says whether there is a thread to be had, and `other` is what
the throttle has no part in. -/
inductive Command where
  | elapse (d : ℕ)
  | gossip (registry : Registry)
  | pass (liveNow : Finset NodeId)
  | retire (name : ChannelName)
  | start (k : ℕ) (why : Establish) (spawned : Bool)
  | spawn (sub : ℕ) (spawned : Bool)
  | advance (sub k : ℕ) (reply : Reply)
  | other (cmd : Machinery.Command)

/-- The commands of the machinery that start or carry on an attempt. -/
def establishes : Machinery.Command → Bool
  | .start _ _ _ | .spawn _ _ _ | .advance _ _ _ => true
  | _ => false

/-- The subscription a caller has made and is about to have established. -/
def created (c : Conductor) (k : ℕ) : Option ℕ :=
  match c.machinery.callers[k]? with
  | some (.created sub) => some sub
  | _ => none

/-- The name of a subscription whose thread is past the flag, and forgets the
penalty before it hands over its item. -/
def publishing (c : Conductor) (sub k : ℕ) : Option ChannelName :=
  (c.machinery.subs[sub]?).bind fun s =>
    if s.threads[k]? = some .publishing then some s.name else none

def perform (c : Conductor) : Command → Conductor
  | .elapse d => { c with now := c.now + d }
  | .gossip registry => { c with registry }
  | .pass liveNow => c.liveOwnersNotingRevivals liveNow
  | .retire name => c.retireSubscription name
  | .start k why spawned =>
    match c.created k with
    | none => c
    | some sub =>
      let (due, c') := c.throttle sub why
      { c' with machinery := c.machinery.perform (.start k due spawned) }
  | .spawn sub spawned =>
    if sub ∈ c.machinery.wanted then
      let (due, c') := c.throttle sub .retry
      { c' with machinery := c.machinery.perform (.spawn sub due spawned) }
    else c
  | .advance sub k reply =>
    let c' := (c.publishing sub k).elim c c.attachNow
    { c' with machinery := c.machinery.perform (.advance sub k reply) }
  | .other cmd =>
    if establishes cmd then c else { c with machinery := c.machinery.perform cmd }

/-- A daemon that has just started. -/
structure Init (c : Conductor) : Prop where
  machinery : c.machinery.Init
  attachBackoff : c.attachBackoff = fun _ => none
  lastLiveOwners : c.lastLiveOwners = ∅

/-! ## What a command does to the penalties -/

/-- The name of a subscription for which a retry would be let through. -/
def retried (c : Conductor) (sub : ℕ) : Option ChannelName :=
  (c.machinery.subs[sub]?).bind fun s =>
    if !s.establishing && (c.attachDue s.name).1 then some s.name else none

/-- The name that a command retries. -/
def attempt (c : Conductor) : Command → Option ChannelName
  | .start k .retry _ => (c.created k).bind c.retried
  | .spawn sub _ => if sub ∈ c.machinery.wanted then c.retried sub else none
  | _ => none

/-- The names whose penalty a command forgets. -/
def forgets (c : Conductor) : Command → List ChannelName
  | .start k .caller _ =>
    ((c.created k).bind fun sub => (c.machinery.subs[sub]?).map Subscription.name).toList
  | .pass liveNow => c.revivedNames liveNow
  | .retire name => [name]
  | .advance sub k _ => (c.publishing sub k).toList
  | _ => []

theorem attachDue_eq (c : Conductor) (name : ChannelName) :
    (c.attachDue name).1 = !(c.attachBackoff name).any (fun p => c.now < p.next) ∧
    (c.attachDue name).2.attachBackoff =
      if (c.attachDue name).1 then
        Function.update c.attachBackoff name (some (c.penalty name))
      else c.attachBackoff := by
  rw [attachDue]
  split <;> simp_all

/-- A retry charges the name if it is let through, and nothing else happens. -/
theorem throttle_retry (c : Conductor) (sub : ℕ) :
    (c.throttle sub .retry).1 = (c.retried sub).isSome ∧
    (c.throttle sub .retry).2.attachBackoff = (c.retried sub).elim c.attachBackoff
      fun name => Function.update c.attachBackoff name (some (c.penalty name)) := by
  rw [throttle, retried]
  cases c.machinery.subs[sub]? with
  | none => exact ⟨rfl, rfl⟩
  | some s =>
      obtain ⟨-, hmap⟩ := c.attachDue_eq s.name
      cases hest : s.establishing with
      | true => simp [hest]
      | false =>
          cases hdue : (c.attachDue s.name).1 with
          | true => simpa [hest, hdue] using hmap
          | false => simpa [hest, hdue] using hmap

/-- **What a command does to the penalties**: some are forgotten, and an attempt
that is let through is charged. -/
theorem attachBackoff_perform (c : Conductor) (cmd : Command) (name : ChannelName) :
    (c.perform cmd).attachBackoff name =
      if name ∈ c.forgets cmd then none
      else if c.attempt cmd = some name then some (c.penalty name)
      else c.attachBackoff name := by
  have hretry : ∀ sub, (c.throttle sub .retry).2.attachBackoff name =
      if c.retried sub = some name then some (c.penalty name) else c.attachBackoff name := by
    intro sub
    rw [(c.throttle_retry sub).2]
    cases c.retried sub with
    | none => simp
    | some name' =>
        by_cases hname : name = name'
        · simp [hname]
        · simp [hname, Ne.symm hname]
  cases cmd with
  | elapse d => simp [perform, forgets, attempt]
  | gossip registry => simp [perform, forgets, attempt]
  | pass liveNow => simp [perform, forgets, attempt, liveOwnersNotingRevivals]
  | retire name' =>
      by_cases hname : name = name'
      · simp [perform, forgets, retireSubscription, attachNow, hname]
      · simp [perform, forgets, attempt, retireSubscription, attachNow, hname]
  | start k why spawned =>
      simp only [perform]
      cases hcreated : c.created k with
      | none => cases why <;> simp [forgets, attempt, hcreated]
      | some sub =>
          cases why with
          | retry => simpa [forgets, attempt, hcreated] using hretry sub
          | caller =>
              cases hsub : c.machinery.subs[sub]? with
              | none => simp [forgets, attempt, hcreated, throttle, hsub]
              | some s =>
                  by_cases hname : name = s.name
                  · simp [forgets, hcreated, throttle, hsub, attachNow, hname]
                  · simp [forgets, attempt, hcreated, throttle, hsub, attachNow, hname]
  | spawn sub spawned =>
      by_cases hwanted : sub ∈ c.machinery.wanted
      · simpa [perform, forgets, attempt, hwanted] using hretry sub
      · simp [perform, forgets, attempt, hwanted]
  | advance sub k reply =>
      cases hpub : c.publishing sub k with
      | none => simp [perform, forgets, attempt, hpub]
      | some name' =>
          by_cases hname : name = name'
          · simp [perform, forgets, hpub, attachNow, hname]
          · simp [perform, forgets, attempt, hpub, attachNow, hname]
  | other cmd =>
      simp only [perform, forgets, attempt]
      split <;> simp

theorem due_of_retried {c : Conductor} {sub : ℕ} {name : ChannelName}
    (h : c.retried sub = some name) : ∀ p, c.attachBackoff name = some p → p.next ≤ c.now := by
  intro p hp
  simp only [retried, Option.bind_eq_some_iff] at h
  obtain ⟨s, -, hs⟩ := h
  split at hs
  · rename_i hdue
    cases hs
    rw [Bool.and_eq_true, (c.attachDue_eq s.name).1, hp] at hdue
    simpa using hdue.2
  · cases hs

/-- Only what is due is tried. -/
theorem due_of_attempt {c : Conductor} {cmd : Command} {name : ChannelName}
    (h : c.attempt cmd = some name) : ∀ p, c.attachBackoff name = some p → p.next ≤ c.now := by
  cases cmd with
  | start k why spawned =>
      cases why with
      | caller => cases h
      | retry =>
          obtain ⟨sub, -, hsub⟩ := Option.bind_eq_some_iff.mp h
          exact due_of_retried hsub
  | spawn sub spawned =>
      simp only [attempt] at h
      split at h
      · exact due_of_retried h
      · cases h
  | _ => cases h

/-! ## Whole runs -/

/-- When the retries of a name were let through since its penalty was last
forgotten, the latest first. -/
def note (c : Conductor) (cmd : Command) (tried : ChannelName → List Instant) :
    ChannelName → List Instant := fun name =>
  if name ∈ c.forgets cmd then []
  else if c.attempt cmd = some name then c.now :: tried name
  else tried name

/-- What a daemon has tried, and where it has come to. -/
inductive Conducts : (ChannelName → List Instant) → Conductor → Prop
  | start {c : Conductor} (h : c.Init) : Conducts (fun _ => []) c
  | step {tried : ChannelName → List Instant} {c : Conductor} (h : Conducts tried c)
      (cmd : Command) : Conducts (c.note cmd tried) (c.perform cmd)

/-- What a name's penalty says of the attempts since it was last forgotten. -/
structure Charged (c : Conductor) (name : ChannelName) (attempts : List (ℕ × ℕ)) : Prop where
  spaced : Backoff.Spaced ATTACH_BACKOFF_MIN ATTACH_BACKOFF_MAX attempts
  penalizes : Penalizes (c.attachBackoff name) attempts
  next : ∀ p, c.attachBackoff name = some p → p.next = p.attemptedAt + p.gap + jitterFor name p.gap

theorem penalty_gap (c : Conductor) (name : ChannelName) :
    (c.penalty name).gap = Backoff.charge ATTACH_BACKOFF_MIN ATTACH_BACKOFF_MAX c.now
      ((c.attachBackoff name).map fun p => (p.attemptedAt, p.gap)) := by
  rw [penalty]
  cases c.attachBackoff name with
  | none => rfl
  | some p => rfl

theorem Charged.attempt {c : Conductor} {name : ChannelName} {attempts : List (ℕ × ℕ)}
    (h : Charged c name attempts) {cmd : Command} (hattempt : c.attempt cmd = some name)
    (hforgets : name ∉ c.forgets cmd) :
    Charged (c.perform cmd) name
      ((c.now, Backoff.charge ATTACH_BACKOFF_MIN ATTACH_BACKOFF_MAX c.now attempts.head?) ::
        attempts) := by
  have hnew : (c.perform cmd).attachBackoff name = some (c.penalty name) := by
    rw [attachBackoff_perform, if_neg hforgets, if_pos hattempt]
  refine ⟨h.spaced.cons (h.penalizes.due (due_of_attempt hattempt)), ⟨?_, ?_⟩, ?_⟩
  · rw [hnew, Option.map_some, penalty_gap, h.penalizes.last]
    rfl
  · rw [hnew]
    rintro p ⟨⟩
    exact Nat.le_add_right _ _
  · rw [hnew]
    rintro p ⟨⟩
    rfl

/-- The attempts of each name keep the ladder. -/
theorem Conducts.charged {tried : ChannelName → List Instant} {c : Conductor}
    (h : Conducts tried c) (name : ChannelName) :
    ∃ attempts, attempts.map Prod.fst = tried name ∧ Charged c name attempts := by
  induction h with
  | start h => exact ⟨[], rfl, .nil, ⟨by rw [h.attachBackoff]; rfl, by simp [h.attachBackoff]⟩,
      by simp [h.attachBackoff]⟩
  | @step tried c _ cmd ih =>
      obtain ⟨attempts, htimes, hcharged⟩ := ih
      have hbackoff := attachBackoff_perform c cmd name
      by_cases hforgets : name ∈ c.forgets cmd
      · rw [if_pos hforgets] at hbackoff
        exact ⟨[], by simp [note, hforgets], .nil, ⟨by rw [hbackoff]; rfl, by simp [hbackoff]⟩,
          by simp [hbackoff]⟩
      · by_cases hattempt : c.attempt cmd = some name
        · refine ⟨_, ?_, hcharged.attempt hattempt hforgets⟩
          simp [note, hforgets, hattempt, htimes]
        · rw [if_neg hforgets, if_neg hattempt] at hbackoff
          refine ⟨attempts, by simp [note, hforgets, hattempt, htimes], hcharged.spaced, ?_, ?_⟩
          · rw [hbackoff]
            exact hcharged.penalizes
          · rw [hbackoff]
            exact hcharged.next

/-! ## One subscription that cannot be established -/

def idle : Conductor := ⟨⟨[], fun _ => none, [], [], fun _ => false⟩, 0, .new, fun _ => none, ∅⟩

/-- Perform commands one after the other, noting the retries. -/
def conduct (cmds : List Command) : (ChannelName → List Instant) × Conductor :=
  cmds.foldl (fun x cmd => (x.2.note cmd x.1, x.2.perform cmd)) (fun _ => [], idle)

theorem conducts_conduct (cmds : List Command) :
    Conducts (conduct cmds).1 (conduct cmds).2 := by
  have hfold : ∀ (x : (ChannelName → List Instant) × Conductor), Conducts x.1 x.2 →
      Conducts (cmds.foldl (fun x cmd => (x.2.note cmd x.1, x.2.perform cmd)) x).1
        (cmds.foldl (fun x cmd => (x.2.note cmd x.1, x.2.perform cmd)) x).2 := by
    induction cmds with
    | nil => exact fun _ h => h
    | cons cmd cmds ih => exact fun x h => ih _ (h.step cmd)
  exact hfold _ (.start ⟨⟨rfl, rfl, rfl, rfl⟩, rfl, rfl⟩)

/-- A member's subscription is made, and its owner does not answer. -/
def unanswered : List Command :=
  [.other (.request "c"), .other (.create 0), .start 0 .retry true, .advance 0 0 .ok,
    .advance 0 0 .fails, .advance 0 0 .ok]

/-- Some time later the conductor finds it wanted. -/
def later (d : ℕ) : List Command := [.elapse d, .other (.collect 0)]

/-- **Retries are rare.** Over any run of the daemon and any stretch of time in
which a name's penalty is not forgotten, at most one retry for every 2.35 s and
3.4 more are let through, however many subscriptions want the name and however
often the conductor comes by. -/
theorem retries_are_rare {tried : ChannelName → List Instant} {c : Conductor}
    (h : Conducts tried c) (name : ChannelName) (a b : Instant) :
    2350000 * (tried name).countP (fun t => a ≤ t ∧ t ≤ b) ≤ 2350000 + (b - a) + 5650000 := by
  obtain ⟨attempts, htimes, hcharged⟩ := h.charged name
  have hcount := hcharged.spaced.countP_le attachPotential a b
  rwa [← htimes, List.countP_map]

theorem retries_are_rare_unanswered :
    (conduct (unanswered ++ later 300000 ++ [.spawn 0 true])).1 "c" = [300000, 0] ∧
      2350000 * [300000, 0].countP (fun t => (0 : ℕ) ≤ t ∧ t ≤ 300000) ≤
        2350000 + (300000 - 0) + 5650000 := by
  have htried : (conduct (unanswered ++ later 300000 ++ [.spawn 0 true])).1 "c" = [300000, 0] := by
    decide +kernel
  refine ⟨htried, ?_⟩
  rw [← htried]
  exact retries_are_rare (conducts_conduct _) "c" 0 300000

theorem wait_lt (name : ChannelName) {gap : ℕ} (h : attachPotential.Occurs gap) :
    gap + jitterFor name gap < 6000000 := by
  have hgap : 2 ≤ gap ∧ gap ≤ 4000000 := by
    simp only [attachPotential, attachGaps, List.mem_cons, List.not_mem_nil, or_false] at h
    omega
  have hjitter := jitterFor_lt name hgap.1
  omega

/-- A penalty is over six seconds after the attempt it is for. -/
theorem Conducts.next_lt {tried : ChannelName → List Instant} {c : Conductor}
    (h : Conducts tried c) {name : ChannelName} {p : DialPenalty}
    (hp : c.attachBackoff name = some p) :
    (tried name).head? = some p.attemptedAt ∧ p.next < p.attemptedAt + 6000000 := by
  obtain ⟨attempts, htimes, hcharged⟩ := h.charged name
  have hhead : attempts.head? = some (p.attemptedAt, p.gap) := by
    rw [← hcharged.penalizes.last, hp]
    rfl
  have hmem := hcharged.spaced.occurs attachPotential _ (List.mem_of_mem_head? hhead)
  refine ⟨by rw [← htimes, List.head?_map, hhead]; rfl, ?_⟩
  rw [hcharged.next p hp, Nat.add_assoc]
  exact Nat.add_lt_add_left (wait_lt name hmem) _

-- the jitter can bring the longest wait past the five seconds a client waits
example : 5000000 < ATTACH_BACKOFF_MAX + jitterFor "a" ATTACH_BACKOFF_MAX := by decide +kernel

theorem retried_of_late {tried : ChannelName → List Instant} {c : Conductor}
    (h : Conducts tried c) {sub : ℕ} {s : Subscription}
    (hsub : c.machinery.subs[sub]? = some s) (hidle : s.establishing = false)
    (hlate : ∀ t ∈ (tried s.name).head?, t + 6000000 ≤ c.now) : c.retried sub = some s.name := by
  have hdue : (c.attachDue s.name).1 = true := by
    rw [(c.attachDue_eq s.name).1]
    cases hp : c.attachBackoff s.name with
    | none => rfl
    | some p =>
        obtain ⟨hhead, hnext⟩ := h.next_lt hp
        simp only [Option.any_some, Bool.not_eq_true', decide_eq_false_iff_not, not_lt]
        exact hnext.le.trans (hlate _ hhead)
  simp [retried, hsub, hidle, hdue]

/-- **No retry is held back for long.** If a wanted subscription has no attempt
under way, and the last retry of its name was six seconds ago or its penalty has
been forgotten since, the conductor lets one through as it comes by: it starts a thread
for it if there is one to be had, and leaves the subscription as it was if not. The
name is charged either way, so that a refused thread costs a backoff window. -/
theorem retry_not_withheld {tried : ChannelName → List Instant} {c : Conductor}
    (h : Conducts tried c) {sub : ℕ} {s : Subscription}
    (hsub : c.machinery.subs[sub]? = some s) (hwanted : sub ∈ c.machinery.wanted)
    (hidle : s.establishing = false)
    (hlate : ∀ t ∈ (tried s.name).head?, t + 6000000 ≤ c.now) (spawned : Bool) :
    (c.perform (.spawn sub spawned)).machinery.subs[sub]? = some (if spawned then
        { s with establishing := true, threads := .spawned :: s.threads } else s) ∧
      c.note (.spawn sub spawned) tried s.name = c.now :: tried s.name := by
  have hretried := retried_of_late h hsub hidle hlate
  have hdue : (c.throttle sub .retry).1 = true := by rw [(c.throttle_retry sub).1, hretried]; rfl
  constructor
  · simp [perform, hwanted, hdue, Machinery.perform, Machinery.modifySub, hsub,
      Subscription.spawnEstablish, hidle]
  · simp [note, forgets, attempt, hwanted, hretried]

/-- No thread is to be had the first time. -/
theorem retry_not_withheld_unanswered :
    ((conduct (unanswered ++ later 6000000)).2.perform (.spawn 0 false)).machinery.subs[0]? =
        some ⟨"c", false, false, false, [], []⟩ ∧
      ((conduct (unanswered ++ later 6000000 ++ [.spawn 0 false] ++ later 6000000)).2.perform
          (.spawn 0 true)).machinery.subs[0]? =
        some ⟨"c", false, false, true, [.spawned], []⟩ :=
  ⟨(retry_not_withheld (s := ⟨"c", false, false, false, [], []⟩) (conducts_conduct _)
      (by decide +kernel) (by decide +kernel) rfl (by decide +kernel) false).1,
    (retry_not_withheld (s := ⟨"c", false, false, false, [], []⟩) (conducts_conduct _)
      (by decide +kernel) (by decide +kernel) rfl (by decide +kernel) true).1⟩

end Conductor

end XchannelNet
