import XchannelNet.Lib.Run
import XchannelNet.Node.Outlook

/-!
# Reclaim — retiring a channel whose owner is gone

`force_deregister` reads the entry of a name, asks whether its owner is live,
asks how long it has been out of reach, and then tombstones whatever the name
stands for by then. Each question takes a lock of its own, and what the node
hears in between may change any of the answers. An owner the node never met is
judged by a clock that the maintenance pass starts and stops, in three steps
with locks of their own.
-/

namespace XchannelNet.Reclaim

/-- How far a call of `force_deregister` has come, and the entry it read. -/
inductive Progress where
  | read (id : ChannelIdentity)
  /-- the owner was not live -/
  | away (id : ChannelIdentity)
  /-- nor was there ever a contact with it -/
  | unmet (id : ChannelIdentity)
  /-- out of reach for long enough: the name is to be reaped -/
  | judged (id : ChannelIdentity)
  deriving DecidableEq, Repr

def Progress.entry : Progress → ChannelIdentity
  | .read id | .away id | .unmet id | .judged id => id

/-- How far `note_unreachable_owners` has come. -/
inductive Sweep where
  | idle
  | owners (owners : List NodeId)
  | live (owners live : List NodeId)
  deriving DecidableEq, Repr

/-- A node, with the calls and the maintenance pass that are going on. `since`
are the running clocks; `noticed` tells of every clock when it was started. -/
structure State (P A : Type) where
  outlook : Outlook P A
  since : NodeId → Option Instant
  noticed : List (Instant × NodeId)
  calls : ℕ → Option Progress
  nextCall : ℕ
  sweep : Sweep

inductive Action (P A : Type) where
  | news (x : News P A)
  | call (name : ChannelName)
  | proceed (k : ℕ)
  | sweep

namespace State

variable {P A : Type}

def init (outlook : Outlook P A) : State P A where
  outlook
  since := fun _ => none
  noticed := []
  calls := fun _ => none
  nextCall := 0
  sweep := .idle

/-- Owners of live entries, this node apart. -/
def owners (s : State P A) : List NodeId :=
  (s.outlook.registry.iter.filter fun i => !i.deleted && i.owner ≠ s.outlook.selfNode).map
    ChannelIdentity.owner

/-- One step of `note_unreachable_owners`: read the owners, read who is live,
stop the clocks of all others and start those that are missing. -/
def noteUnreachableOwners (s : State P A) : State P A :=
  match s.sweep with
  | .idle => { s with sweep := .owners s.owners }
  | .owners owners =>
    { s with sweep := .live owners (s.outlook.dissemination.liveMembers s.outlook.now) }
  | .live owners live =>
    { s with
      since := fun o =>
        if o ∈ owners ∧ o ∉ live then some ((s.since o).getD s.outlook.now) else none
      noticed :=
        (owners.filter fun o => o ∉ live ∧ s.since o = none).map (s.outlook.now, ·) ++ s.noticed
      sweep := .idle }

/-- Start the clock of an owner, if it is not running. -/
def stamp (s : State P A) (owner : NodeId) : State P A :=
  match s.since owner with
  | some _ => s
  | none =>
    { s with
      since := Function.update s.since owner (some s.outlook.now)
      noticed := (s.outlook.now, owner) :: s.noticed }

/-- Begin a call: read the entry. -/
def forceDeregister (s : State P A) (name : ChannelName) : State P A :=
  match s.outlook.registry.get name with
  | none => s
  | some id =>
    if id.owner = s.outlook.selfNode then s
    else { s with calls := Function.update s.calls s.nextCall (some (.read id))
                  nextCall := s.nextCall + 1 }

def moveTo (s : State P A) (k : ℕ) (p : Option Progress) : State P A :=
  { s with calls := Function.update s.calls k p }

/-- The next step of a call. A call that ends is taken out. -/
def proceed (reclaimAfter : Instant) (s : State P A) (k : ℕ) : State P A :=
  match s.calls k with
  | none => s
  | some (.read id) => s.moveTo k (if s.outlook.live id.owner then none else some (.away id))
  | some (.away id) =>
    match s.outlook.silentFor id.owner with
    | some silence => s.moveTo k (if silence < reclaimAfter then none else some (.judged id))
    | none => s.moveTo k (some (.unmet id))
  | some (.unmet id) =>
    let unreachableFor := s.outlook.now - (s.since id.owner).getD s.outlook.now
    (s.stamp id.owner).moveTo k
      (if unreachableFor < reclaimAfter then none else some (.judged id))
  | some (.judged id) =>
    { s.moveTo k none with
      outlook := { s.outlook with registry := (s.outlook.registry.reap id.name).1 } }

variable [DecidableEq P] [DecidableEq A]

def perform (reclaimAfter : Instant) (s : State P A) : Action P A → State P A
  | .news x => { s with outlook := s.outlook.hear x }
  | .call name => s.forceDeregister name
  | .proceed k => s.proceed reclaimAfter k
  | .sweep => s.noteUnreachableOwners

end State

open State

variable {P A : Type}

/-! ## What one step can do -/

/-- How a call that goes on gets from one question to the next. The clock of an owner
that was never met is running from then on. -/
inductive Moves (reclaimAfter : Instant) (s s' : State P A) : Progress → Progress → Prop
  | look {id : ChannelIdentity} (h : s.outlook.live id.owner = false) :
      Moves reclaimAfter s s' (.read id) (.away id)
  | silent {id : ChannelIdentity} {silence : Instant}
      (h : s.outlook.silentFor id.owner = some silence) (hle : reclaimAfter ≤ silence) :
      Moves reclaimAfter s s' (.away id) (.judged id)
  | unmet {id : ChannelIdentity} (h : s.outlook.silentFor id.owner = none) :
      Moves reclaimAfter s s' (.away id) (.unmet id)
  | noticed {id : ChannelIdentity}
      (h : reclaimAfter ≤ s.outlook.now - (s.since id.owner).getD s.outlook.now)
      (hstamp : s'.noticed = (s.stamp id.owner).noticed) :
      Moves reclaimAfter s s' (.unmet id) (.judged id)

variable {reclaimAfter : Instant} {s s' : State P A} {k : ℕ} {p p' : Progress}

theorem Moves.entry (h : Moves reclaimAfter s s' p p') : p'.entry = p.entry := by
  cases h <;> rfl

/-- A call begins, with an entry that is there. -/
structure Begins (s s' : State P A) (k : ℕ) (id : ChannelIdentity) : Prop where
  fresh : k = s.nextCall
  next : s'.nextCall = s.nextCall + 1
  entry : s'.outlook.registry.get id.name = some id
  other : id.owner ≠ s.outlook.selfNode

@[simp] theorem calls_stamp (s : State P A) (owner : NodeId) : (s.stamp owner).calls = s.calls := by
  unfold stamp
  split <;> rfl

theorem calls_moveTo (s : State P A) (j k : ℕ) (p : Option Progress) :
    (s.moveTo j p).calls k = if k = j then p else s.calls k :=
  Function.update_apply ..

/-- Only the call that proceeds moves. -/
theorem calls_proceed {j : ℕ} (h : (s.proceed reclaimAfter j).calls k = some p') :
    s.calls k = some p' ∨
      ∃ p, s.calls k = some p ∧ Moves reclaimAfter s (s.proceed reclaimAfter j) p p' := by
  by_cases hk : k = j
  · subst hk
    right
    unfold proceed at h ⊢
    split at h
    · rename_i hnone
      rw [hnone] at h
      cases h
    · rename_i id hp
      rw [calls_moveTo, if_pos rfl] at h
      split at h
      · cases h
      · rename_i hlive
        cases h
        exact ⟨_, hp, .look (by simpa using hlive)⟩
    · rename_i id hp
      split at h <;> rename_i hs <;> rw [calls_moveTo, if_pos rfl] at h
      · split at h
        · cases h
        · rename_i hlt
          cases h
          exact ⟨_, hp, .silent hs (not_lt.mp hlt)⟩
      · cases h
        exact ⟨_, hp, .unmet hs⟩
    · rename_i id hp
      dsimp only at h
      rw [calls_moveTo, if_pos rfl] at h
      split at h
      · cases h
      · rename_i hlt
        cases h
        exact ⟨_, hp, .noticed (not_lt.mp hlt) rfl⟩
    · dsimp only at h
      rw [calls_moveTo, if_pos rfl] at h
      cases h
  · left
    unfold proceed at h
    split at h
    · exact h
    · rwa [calls_moveTo, if_neg hk] at h
    · split at h <;> rwa [calls_moveTo, if_neg hk] at h
    · dsimp only at h
      rwa [calls_moveTo, if_neg hk, calls_stamp] at h
    · dsimp only at h
      rwa [calls_moveTo, if_neg hk] at h

theorem outlook_forceDeregister (s : State P A) (name : ChannelName) :
    (s.forceDeregister name).outlook = s.outlook := by
  unfold forceDeregister
  split
  · rfl
  · split <;> rfl

theorem calls_noteUnreachableOwners (s : State P A) :
    s.noteUnreachableOwners.calls = s.calls := by
  unfold noteUnreachableOwners
  split <;> rfl

variable [DecidableEq P] [DecidableEq A]

theorem calls_perform {a : Action P A} (h : (s.perform reclaimAfter a).calls k = some p') :
    s.calls k = some p' ∨
      (∃ p, s.calls k = some p ∧ Moves reclaimAfter s (s.perform reclaimAfter a) p p') ∨
      ∃ id, p' = .read id ∧ Begins s (s.perform reclaimAfter a) k id := by
  cases a with
  | news x => exact .inl h
  | sweep => exact .inl (calls_noteUnreachableOwners s ▸ h)
  | proceed j => exact (calls_proceed h).imp_right .inl
  | call name =>
      simp only [perform, forceDeregister] at h
      split at h
      · exact .inl h
      · rename_i id hget
        split at h
        · exact .inl h
        · rename_i hother
          simp only [Function.update_apply] at h
          split at h
          · rename_i hk
            cases h
            refine .inr (.inr ⟨id, rfl, hk, ?_, ?_, hother⟩)
            · simp [perform, forceDeregister, hget, hother]
            · rw [perform, outlook_forceDeregister,
                Registry.getRaw_name (Registry.get_eq_some.mp hget).1]
              exact hget
          · exact .inl h

omit [DecidableEq P] [DecidableEq A] in
theorem outlook_proceed (reclaimAfter : Instant) (s : State P A) (k : ℕ) :
    ∃ r, (s.proceed reclaimAfter k).outlook = { s.outlook with registry := r } ∧
      ∀ n cur, r.get n = some cur → s.outlook.registry.get n = some cur := by
  have hstamp : ∀ o, (s.stamp o).outlook = s.outlook := by
    intro o
    unfold stamp
    split <;> rfl
  unfold proceed
  split
  · exact ⟨_, rfl, fun _ _ => id⟩
  · exact ⟨_, rfl, fun _ _ => id⟩
  · split <;> exact ⟨_, rfl, fun _ _ => id⟩
  · exact ⟨_, hstamp _, fun _ _ => id⟩
  · exact ⟨_, rfl, fun _ _ => Registry.get_of_reap⟩

/-- Only news changes what a node knows, apart from the entries that are reaped. -/
theorem outlook_perform (reclaimAfter : Instant) (s : State P A) (a : Action P A) :
    (∃ x, a = .news x ∧ (s.perform reclaimAfter a).outlook = s.outlook.hear x) ∨
      ∃ r, (s.perform reclaimAfter a).outlook = { s.outlook with registry := r } ∧
        ∀ n cur, r.get n = some cur → s.outlook.registry.get n = some cur := by
  cases a with
  | news x => exact .inl ⟨x, rfl, rfl⟩
  | call name => exact .inr ⟨_, outlook_forceDeregister s name, fun _ _ => id⟩
  | proceed k => exact .inr (outlook_proceed reclaimAfter s k)
  | sweep =>
      right
      simp only [perform, noteUnreachableOwners]
      split <;> exact ⟨_, rfl, fun _ _ => id⟩

theorem now_le_perform (reclaimAfter : Instant) (s : State P A) (a : Action P A) :
    s.outlook.now ≤ (s.perform reclaimAfter a).outlook.now := by
  rcases outlook_perform reclaimAfter s a with ⟨x, -, hx⟩ | ⟨r, hr, -⟩
  · rw [hx]
    exact Outlook.now_le_hear _ _
  · rw [hr]

/-- A clock that runs after a step was running before it, or is started by it,
which is put down. -/
structure Clocks (s s' : State P A) : Prop where
  noticed : s.noticed ⊆ s'.noticed
  since : ∀ o t, s'.since o = some t →
    s.since o = some t ∨ t = s.outlook.now ∧ (t, o) ∈ s'.noticed

namespace Clocks

omit [DecidableEq P] [DecidableEq A]

theorem of_eq (hsince : s'.since = s.since) (hnoticed : s'.noticed = s.noticed) : Clocks s s' :=
  ⟨hnoticed ▸ List.Subset.refl _, fun _ _ h => .inl (hsince ▸ h)⟩

theorem stamp (s : State P A) (owner : NodeId) : Clocks s (s.stamp owner) := by
  unfold State.stamp
  split
  · exact .of_eq rfl rfl
  · refine ⟨List.subset_cons_self _ _, fun o t h => ?_⟩
    dsimp only at h
    rw [Function.update_apply] at h
    split at h
    · rename_i ho
      cases h
      exact .inr ⟨rfl, ho ▸ List.mem_cons_self⟩
    · exact .inl h

theorem sweep (s : State P A) : Clocks s s.noteUnreachableOwners := by
  unfold noteUnreachableOwners
  split
  · exact .of_eq rfl rfl
  · exact .of_eq rfl rfl
  · rename_i owners live _
    refine ⟨List.subset_append_right _ _, fun o t h => ?_⟩
    dsimp only at h ⊢
    split at h
    · rename_i ho
      cases hs : s.since o with
      | some t' =>
          rw [hs] at h
          exact .inl h
      | none =>
          rw [hs] at h
          cases h
          refine .inr ⟨rfl, List.mem_append_left _ (List.mem_map_of_mem ?_)⟩
          simpa [hs] using ho
    · cases h

theorem proceed (reclaimAfter : Instant) (s : State P A) (k : ℕ) :
    Clocks s (s.proceed reclaimAfter k) := by
  unfold State.proceed
  split
  · exact .of_eq rfl rfl
  · exact .of_eq rfl rfl
  · split <;> exact .of_eq rfl rfl
  · rename_i id _
    exact ⟨(stamp s id.owner).noticed, (stamp s id.owner).since⟩
  · exact .of_eq rfl rfl

end Clocks

theorem clocks_perform (reclaimAfter : Instant) (s : State P A) (a : Action P A) :
    Clocks s (s.perform reclaimAfter a) := by
  cases a with
  | news x => exact .of_eq rfl rfl
  | call name =>
      simp only [perform, forceDeregister]
      split
      · exact .of_eq rfl rfl
      · split <;> exact .of_eq rfl rfl
  | proceed k => exact .proceed reclaimAfter s k
  | sweep => exact .sweep s

theorem nextCall_perform (reclaimAfter : Instant) (s : State P A) (a : Action P A) :
    s.nextCall ≤ (s.perform reclaimAfter a).nextCall := by
  have hstamp : ∀ o, (s.stamp o).nextCall = s.nextCall := by
    intro o
    unfold stamp
    split <;> rfl
  cases a with
  | news x => exact Nat.le_refl _
  | call name =>
      simp only [perform, forceDeregister]
      split
      · exact Nat.le_refl _
      · split
        · exact Nat.le_refl _
        · exact Nat.le_succ _
  | proceed k =>
      simp only [perform, State.proceed]
      split
      · exact Nat.le_refl _
      · exact Nat.le_refl _
      · split <;> exact Nat.le_refl _
      · exact (hstamp _).ge
      · exact Nat.le_refl _
  | sweep =>
      simp only [perform, noteUnreachableOwners]
      split <;> exact Nat.le_refl _

/-! ## Whole runs -/

/-- Every step that `ok` allows. -/
def Step (reclaimAfter : Instant) (ok : State P A → Action P A → Prop) (s s' : State P A) : Prop :=
  ∃ a, ok s a ∧ s' = s.perform reclaimAfter a

/-- The states of a node that has started with some registry. -/
def Reached (reclaimAfter : Instant) (ok : State P A → Action P A → Prop) : State P A → Prop :=
  Run.Reachable (fun s => ∃ o : Outlook P A, o.Fresh ∧ s = .init o) (Step reclaimAfter ok)

/-- What holds of every call and every clock. -/
structure Sound (s : State P A) : Prop where
  outlook : s.outlook.Sound
  since : ∀ o t, s.since o = some t → (t, o) ∈ s.noticed ∧ t ≤ s.outlook.now
  started : ∀ k p, s.calls k = some p → k < s.nextCall
  other : ∀ k p, s.calls k = some p → p.entry.owner ≠ s.outlook.selfNode

theorem Sound.perform (h : Sound s) (a : Action P A) : Sound (s.perform reclaimAfter a) := by
  have hclocks := clocks_perform reclaimAfter s a
  have hself : (s.perform reclaimAfter a).outlook.selfNode = s.outlook.selfNode := by
    rcases outlook_perform reclaimAfter s a with ⟨x, -, hx⟩ | ⟨r, hr, -⟩
    · rw [hx, Outlook.selfNode_hear]
    · rw [hr]
      rfl
  have hnow := now_le_perform reclaimAfter s a
  refine ⟨?_, fun o t ht => ?_, fun k p hp => ?_, fun k p hp => ?_⟩
  · rcases outlook_perform reclaimAfter s a with ⟨x, -, hx⟩ | ⟨r, hr, -⟩
    · rw [hx]
      exact h.outlook.hear x
    · rw [hr]
      exact ⟨h.outlook.dissemination, h.outlook.contact, h.outlook.sorted, h.outlook.past⟩
  · rcases hclocks.since o t ht with hold | ⟨rfl, hmem⟩
    · obtain ⟨hmem, hle⟩ := h.since o t hold
      exact ⟨hclocks.noticed hmem, hle.trans hnow⟩
    · exact ⟨hmem, hnow⟩
  · have hnext := nextCall_perform reclaimAfter s a
    rcases calls_perform hp with hold | ⟨p₀, hold, -⟩ | ⟨id, -, hb⟩
    · exact (h.started k p hold).trans_le hnext
    · exact (h.started k p₀ hold).trans_le hnext
    · rw [hb.fresh, hb.next]
      exact Nat.lt_succ_self _
  · rw [hself]
    rcases calls_perform hp with hold | ⟨p₀, hold, hm⟩ | ⟨id, rfl, hb⟩
    · exact h.other k p hold
    · rw [hm.entry]
      exact h.other k p₀ hold
    · exact hb.other

theorem Reached.sound {ok : State P A → Action P A → Prop} (h : Reached reclaimAfter ok s) :
    Sound s := by
  refine Run.Reachable.invariant h ?_ ?_
  · rintro _ ⟨o, ho, rfl⟩
    exact ⟨.of_fresh ho, nofun, nofun, nofun⟩
  · rintro s _ hs ⟨a, -, rfl⟩
    exact hs.perform a

omit [DecidableEq P] [DecidableEq A] in
/-- A clock that is running, or just started, is put down. -/
theorem Sound.noticed_stamp (h : Sound s) (o : NodeId) :
    ((s.since o).getD s.outlook.now, o) ∈ (s.stamp o).noticed ∧
      (s.since o).getD s.outlook.now ≤ s.outlook.now := by
  unfold stamp
  cases ht : s.since o with
  | none => exact ⟨List.mem_cons_self, le_rfl⟩
  | some t => exact h.since o t ht

/-! ## What a judgement rests on -/

/-- What the node hears while a call goes on does not concern it: the name it is about is
not taken over by another owner or at another epoch, and nothing comes from the owner it
is about. -/
def Undisturbed (s : State P A) : Action P A → Prop
  | .news x => ∀ k < s.nextCall, ∀ p ∈ s.calls k,
    (∀ cur ∈ (s.outlook.hear x).registry.get p.entry.name,
      cur.owner = p.entry.owner ∧ cur.epoch = p.entry.epoch) ∧
    ∀ c ∈ (s.outlook.hear x).contacts, c.2 = p.entry.owner → c ∈ s.outlook.contacts
  | _ => True

instance (s : State P A) : DecidablePred (Undisturbed s)
  | .news x => inferInstanceAs (Decidable (∀ k < s.nextCall, ∀ p ∈ s.calls k,
    (∀ cur ∈ (s.outlook.hear x).registry.get p.entry.name,
      cur.owner = p.entry.owner ∧ cur.epoch = p.entry.epoch) ∧
    ∀ c ∈ (s.outlook.hear x).contacts, c.2 = p.entry.owner → c ∈ s.outlook.contacts))
  | .call _ => isTrue trivial
  | .proceed _ => isTrue trivial
  | .sweep => isTrue trivial

section Quiet

variable {a : Action P A} (hsound : Sound s) (hok : Undisturbed s a) (hk : s.calls k = some p)
include hsound hok hk

/-- A step leaves the name to whom it belongs. -/
theorem agrees_perform
    (h : ∀ cur, s.outlook.registry.get p.entry.name = some cur →
      cur.owner = p.entry.owner ∧ cur.epoch = p.entry.epoch) {cur : ChannelIdentity}
    (hcur : (s.perform reclaimAfter a).outlook.registry.get p.entry.name = some cur) :
    cur.owner = p.entry.owner ∧ cur.epoch = p.entry.epoch := by
  rcases outlook_perform reclaimAfter s a with ⟨x, rfl, hx⟩ | ⟨r, hr, hget⟩
  · rw [hx] at hcur
    exact (hok k (hsound.started k p hk) p hk).1 cur hcur
  · rw [hr] at hcur
    exact h cur (hget _ cur hcur)

/-- And there is no contact with the owner. -/
theorem contacts_perform (t : Instant) :
    (t, p.entry.owner) ∈ (s.perform reclaimAfter a).outlook.contacts ↔
      (t, p.entry.owner) ∈ s.outlook.contacts := by
  rcases outlook_perform reclaimAfter s a with ⟨x, rfl, hx⟩ | ⟨r, hr, -⟩
  · rw [hx]
    exact ⟨fun h => (hok k (hsound.started k p hk) p hk).2 _ h rfl,
      fun h => Outlook.contacts_subset_hear _ _ h⟩
  · rw [hr]

end Quiet

/-- There was a contact with `o`, and none for `d`. -/
def Silent (s : State P A) (o : NodeId) (d : Instant) : Prop :=
  (∃ t, (t, o) ∈ s.outlook.contacts) ∧ ∀ t, (t, o) ∈ s.outlook.contacts → t + d ≤ s.outlook.now

/-- There never was a contact with `o`. -/
def NeverMet (s : State P A) (o : NodeId) : Prop := ∀ t, (t, o) ∉ s.outlook.contacts

/-- `o` was noticed as an owner out of reach `d` ago or longer. -/
def Noticed (s : State P A) (o : NodeId) (d : Instant) : Prop :=
  ∃ t, (t, o) ∈ s.noticed ∧ t + d ≤ s.outlook.now

/-- `o` is out of reach for `d`. -/
def Gone (s : State P A) (o : NodeId) (d : Instant) : Prop :=
  Silent s o d ∨ NeverMet s o ∧ Noticed s o d

omit [DecidableEq P] [DecidableEq A] in
/-- An owner out of reach stays so as long as there is no contact with it. -/
theorem Gone.later {o : NodeId} {d : Instant} (h : Gone s o d)
    (hcontacts : ∀ t, (t, o) ∈ s'.outlook.contacts ↔ (t, o) ∈ s.outlook.contacts)
    (hnow : s.outlook.now ≤ s'.outlook.now) (hnoticed : s.noticed ⊆ s'.noticed) :
    Gone s' o d := by
  rcases h with ⟨⟨t, ht⟩, hsilent⟩ | ⟨hnever, t, ht, hle⟩
  · exact .inl ⟨⟨t, (hcontacts t).mpr ht⟩,
      fun t ht => (hsilent t ((hcontacts t).mp ht)).trans hnow⟩
  · exact .inr ⟨fun t ht => hnever t ((hcontacts t).mp ht), t, hnoticed ht, hle.trans hnow⟩

/-- When call `k` asked, the owner was not live. -/
def Looked (reclaimAfter : Instant) (k : ℕ) (id : ChannelIdentity) (s : State P A) : Prop :=
  ∃ s₁, Reached reclaimAfter Undisturbed s₁ ∧
    Relation.ReflTransGen (Step reclaimAfter Undisturbed) s₁ s ∧
    s₁.calls k = some (.read id) ∧ s₁.outlook.live id.owner = false

/-- What call `k` has found out by now. -/
def Grounds (reclaimAfter : Instant) (k : ℕ) (s : State P A) : Progress → Prop
  | .read _ => True
  | .away id => Looked reclaimAfter k id s
  | .unmet id => Looked reclaimAfter k id s ∧ NeverMet s id.owner
  | .judged id => Looked reclaimAfter k id s ∧ Gone s id.owner reclaimAfter

section Grounds

variable {a : Action P A}

theorem Looked.next {id : ChannelIdentity} (h : Looked reclaimAfter k id s)
    (hstep : Step reclaimAfter Undisturbed s s') : Looked reclaimAfter k id s' := by
  obtain ⟨s₁, hs₁, hrun, hx⟩ := h
  exact ⟨s₁, hs₁, hrun.tail hstep, hx⟩

/-- What was found out stays true. -/
theorem Grounds.next (hs : Sound s) (hok : Undisturbed s a) (hk : s.calls k = some p)
    (h : Grounds reclaimAfter k s p) : Grounds reclaimAfter k (s.perform reclaimAfter a) p := by
  have hstep : Step reclaimAfter Undisturbed s (s.perform reclaimAfter a) := ⟨a, hok, rfl⟩
  have hcontacts : ∀ t, (t, p.entry.owner) ∈ (s.perform reclaimAfter a).outlook.contacts ↔
      (t, p.entry.owner) ∈ s.outlook.contacts := contacts_perform hs hok hk
  cases p with
  | read id => trivial
  | away id => exact Looked.next h hstep
  | unmet id => exact ⟨h.1.next hstep, fun t ht => h.2 t ((hcontacts t).mp ht)⟩
  | judged id =>
      exact ⟨h.1.next hstep, h.2.later hcontacts (now_le_perform reclaimAfter s a)
        (clocks_perform reclaimAfter s a).noticed⟩

/-- A question that is answered adds to it. -/
theorem Grounds.moves (hs : Reached reclaimAfter Undisturbed s) (hok : Undisturbed s a)
    (hk : s.calls k = some p) (h : Grounds reclaimAfter k s p)
    (hm : Moves reclaimAfter s (s.perform reclaimAfter a) p p') :
    Grounds reclaimAfter k (s.perform reclaimAfter a) p' := by
  have hsound := hs.sound
  have hstep : Step reclaimAfter Undisturbed s (s.perform reclaimAfter a) := ⟨a, hok, rfl⟩
  have hnext := h.next hsound hok hk
  have hnow := now_le_perform reclaimAfter s a
  have hcontacts : ∀ t, (t, p.entry.owner) ∈ (s.perform reclaimAfter a).outlook.contacts ↔
      (t, p.entry.owner) ∈ s.outlook.contacts := contacts_perform hsound hok hk
  cases hm with
  | look hlive => exact ⟨s, hs, .single hstep, hk, hlive⟩
  | @silent id silence hsilent hle =>
      obtain ⟨⟨t, ht⟩, hsince⟩ := hsound.outlook.silent hsilent
      refine ⟨hnext, .inl ⟨⟨t, (hcontacts t).mpr ht⟩, fun t ht => ?_⟩⟩
      calc t + reclaimAfter ≤ t + silence := Nat.add_le_add_left hle t
        _ ≤ s.outlook.now := hsince t ((hcontacts t).mp ht)
        _ ≤ (s.perform reclaimAfter a).outlook.now := hnow
  | unmet hsilent =>
      exact ⟨hnext, fun t ht => hsound.outlook.unmet hsilent t ((hcontacts t).mp ht)⟩
  | @noticed id hle hstamp =>
      obtain ⟨hmem, hpast⟩ := hsound.noticed_stamp id.owner
      refine ⟨hnext.1, .inr ⟨hnext.2, _, hstamp ▸ hmem, ?_⟩⟩
      exact ((Nat.add_le_add_left hle _).trans (Nat.add_sub_of_le hpast).le).trans hnow

theorem Reached.grounds (h : Reached reclaimAfter Undisturbed s) (hk : s.calls k = some p) :
    Grounds reclaimAfter k s p := by
  induction h generalizing k p with
  | start h =>
      obtain ⟨o, -, rfl⟩ := h
      cases hk
  | next hs hstep ih =>
      obtain ⟨a, hok, rfl⟩ := hstep
      rcases calls_perform hk with hold | ⟨p₀, hold, hm⟩ | ⟨id, rfl, -⟩
      · exact (ih hold).next (Reached.sound hs) hok hold
      · exact (ih hold).moves hs hok hold hm
      · trivial

end Grounds

/-! ## What is tombstoned -/

theorem Reached.agrees (h : Reached reclaimAfter Undisturbed s) (hk : s.calls k = some p)
    {cur : ChannelIdentity} (hcur : s.outlook.registry.get p.entry.name = some cur) :
    cur.owner = p.entry.owner ∧ cur.epoch = p.entry.epoch := by
  induction h generalizing p cur with
  | start h =>
      obtain ⟨o, -, rfl⟩ := h
      cases hk
  | next hs hstep ih =>
      obtain ⟨a, hok, rfl⟩ := hstep
      have hsound := Reached.sound hs
      rcases calls_perform hk with hold | ⟨p₀, hold, hm⟩ | ⟨id, rfl, hb⟩
      · exact agrees_perform hsound hok hold (fun _ => ih hold) hcur
      · rw [hm.entry] at hcur ⊢
        exact agrees_perform hsound hok hold (fun _ => ih hold) hcur
      · obtain rfl : cur = id := Option.some.inj (hcur.symm.trans hb.entry)
        exact ⟨rfl, rfl⟩

/-- What `force_deregister` tombstones is the entry it judged: of another node, which was
not live when the call asked, and which there has been no contact with for `reclaimAfter`,
or never, and then it had been noticed out of reach that long ago. -/
theorem reclaims_what_was_judged (h : Reached reclaimAfter Undisturbed s)
    {id tomb : ChannelIdentity} (hk : s.calls k = some (.judged id))
    (hreap : (s.outlook.registry.reap id.name).2 = some tomb) :
    tomb.owner = id.owner ∧ tomb.epoch = id.epoch ∧ tomb.owner ≠ s.outlook.selfNode ∧
      Looked reclaimAfter k id s ∧ Gone s tomb.owner reclaimAfter := by
  obtain ⟨cur, hcur, rfl⟩ := Registry.reap_some hreap
  obtain ⟨howner, hepoch⟩ := h.agrees hk hcur
  obtain ⟨hlooked, hgone⟩ := h.grounds hk
  dsimp only
  rw [howner]
  exact ⟨rfl, hepoch, h.sound.other k _ hk, hlooked, hgone⟩

/-- An entry of node 2, and one of node 3 that takes the name over. -/
def fed : ChannelIdentity := ⟨"fed", 2, 65536, 1500, 0, 7, 0, false, none⟩

def refed : ChannelIdentity := ⟨"fed", 3, 65536, 1500, 0, 9, 1, false, none⟩

/-- Node 1, which has met nobody. -/
def alone : State ℕ ℕ := .init ⟨.new, .new 1 0 5 fun _ => none, 0, []⟩

theorem starts_alone : ∃ o : Outlook ℕ ℕ, o.Fresh ∧ alone = .init o := ⟨_, ⟨⟨rfl, rfl⟩, rfl⟩, rfl⟩

/-- The entry arrives, its owner's clock is started, and a call finds it out of
reach for ten. -/
def judge : List (Action ℕ ℕ) :=
  [.news (.merge fed), .sweep, .sweep, .sweep, .news (.elapse 10), .call "fed", .proceed 0,
    .proceed 0, .proceed 0]

theorem reclaims_what_was_judged_alone :
    ∃ s : State ℕ ℕ, Reached 10 Undisturbed s ∧ s.calls 0 = some (.judged fed) ∧
      (s.outlook.registry.reap "fed").2 = some { fed with deleted := true } ∧
      Gone s 2 10 := by
  obtain ⟨s, hs, hcall, hreap⟩ := Run.exists_reachable_perform
    (fun s => ∃ o, o.Fresh ∧ s = .init o) (Step 10 Undisturbed) (perform 10) Undisturbed
    (fun _ a h => ⟨a, h, rfl⟩) alone judge
    (fun s => s.calls 0 = some (.judged fed) ∧
      (s.outlook.registry.reap "fed").2 = some { fed with deleted := true }) starts_alone
    (by decide +kernel)
  exact ⟨s, hs, hcall, hreap, (reclaims_what_was_judged hs hcall hreap).2.2.2.2⟩

/-- A call that has judged node 2 tombstones the entry of node 3, which took the
name over in between and is live. And it tombstones the entry of node 2 although
that has been heard from in between. -/
theorem another_is_tombstoned :
    (∃ s : State ℕ ℕ, Reached 10 (fun _ _ => True) s ∧ s.calls 0 = some (.judged fed) ∧
      s.outlook.live 3 = true ∧
      (s.outlook.registry.reap "fed").2 = some { refed with deleted := true }) ∧
    ∃ s : State ℕ ℕ, Reached 10 (fun _ _ => True) s ∧ s.calls 0 = some (.judged fed) ∧
      s.outlook.live 2 = true ∧
      (s.outlook.registry.reap "fed").2 = some { fed with deleted := true } := by
  constructor
  · exact Run.exists_reachable_perform _ _ (perform 10) (fun _ _ => True)
      (fun _ a h => ⟨a, h, rfl⟩) alone
      (judge ++ [.news (.merge refed), .news (.arrive 0 (.heartbeat 3 0 0 "c"))]) _ starts_alone
      (by decide +kernel)
  · exact Run.exists_reachable_perform _ _ (perform 10) (fun _ _ => True)
      (fun _ a h => ⟨a, h, rfl⟩) alone (judge ++ [.news (.arrive 0 (.heartbeat 2 0 0 "b"))]) _
      starts_alone (by decide +kernel)

end XchannelNet.Reclaim
