import XchannelNet.Registry.Basic

/-!
# Claiming a name

`Node::claim_name` builds an identity at the epoch the registry prescribes,
merges it, and rejects the caller when the name now belongs to somebody
else. The identity it returns is the one it BUILT: when this node's own
older registration still stands, that is not the entry in the map.
-/

namespace XchannelNet

/-- The errors of the node's registration paths. -/
inductive NodeError where
  | alreadyExists (message : String)
  deriving DecidableEq, Repr

/-- What a caller asks a name to be registered with. -/
structure ClaimRequest where
  name : ChannelName
  regionSize : UInt32
  mtu : UInt32
  memberOf : Option ChannelName
  deriving DecidableEq, Repr

namespace Registry

/-- The identity a claim registers. -/
def claimIdentity (r : Registry) (self : NodeId) (now : UInt64) (q : ClaimRequest) :
    ChannelIdentity where
  name := q.name
  owner := self
  regionSize := q.regionSize
  mtu := q.mtu
  earliestIndex := 0
  registeredAtNanos := now
  epoch := r.claimEpoch q.name
  deleted := false
  memberOf := q.memberOf

/-- Claim a name: first registrant wins, decided by the merge itself. -/
def claimName (r : Registry) (self : NodeId) (now : UInt64) (q : ClaimRequest) :
    Registry × Except NodeError ChannelIdentity :=
  let identity := r.claimIdentity self now q
  let (r', merged) := r.mergeTracked identity
  let winner := merged.winner
  if winner.owner != self || winner.deleted then
    (r', .error (.alreadyExists ("channel '" ++ q.name ++ "' already registered by node "
      ++ toString winner.owner ++ " — registration rejected")))
  else (r', .ok identity)

theorem claimName_fst (r : Registry) (self : NodeId) (now : UInt64) (q : ClaimRequest) :
    (r.claimName self now q).1 = (r.mergeTracked (r.claimIdentity self now q)).1 := by
  simp only [claimName]
  split <;> rfl

theorem claimName_ok {r : Registry} {self : NodeId} {now : UInt64} {q : ClaimRequest}
    {id : ChannelIdentity} (h : (r.claimName self now q).2 = .ok id) :
    id = r.claimIdentity self now q := by
  simp only [claimName] at h
  split at h
  · cases h
  · cases h
    rfl

/-- A claim that moves the map is never rejected. -/
theorem claimName_ok_of_changed {r : Registry} {self : NodeId} {now : UInt64}
    {q : ClaimRequest}
    (h : (r.mergeTracked (r.claimIdentity self now q)).2.changed = true) :
    (r.claimName self now q).2 = .ok (r.claimIdentity self now q) := by
  have hw : r.winnerOver (r.claimIdentity self now q) = r.claimIdentity self now q :=
    winnerOver_of_lt ((mergeTracked_changed _ _).mp h)
  simp only [claimName, mergeTracked_winner, hw]
  simp [claimIdentity]

/-! ## Who holds a name -/

/-- The name's entry is live, belongs to `self` and is of this epoch. -/
def Holds (r : Registry) (self : NodeId) (n : ChannelName) (e : UInt64) : Prop :=
  ∃ id ∈ r.get n, id.owner = self ∧ id.epoch = e

instance (r : Registry) (self : NodeId) (n : ChannelName) (e : UInt64) :
    Decidable (r.Holds self n e) :=
  inferInstanceAs (Decidable (∃ id ∈ r.get n, id.owner = self ∧ id.epoch = e))

theorem holds_iff {r : Registry} {self : NodeId} {n : ChannelName} {e : UInt64} :
    r.Holds self n e ↔
      ∃ id, r.getRaw n = some id ∧ id.deleted = false ∧ id.owner = self ∧ id.epoch = e := by
  constructor
  · rintro ⟨id, hid, ho, he⟩
    obtain ⟨hraw, hd⟩ := get_eq_some.mp hid
    exact ⟨id, hraw, hd, ho, he⟩
  · rintro ⟨id, hraw, hd, ho, he⟩
    exact ⟨id, get_eq_some.mpr ⟨hraw, hd⟩, ho, he⟩

instance (r : Registry) (self : NodeId) (n : ChannelName) : Decidable (∃ e, r.Holds self n e) :=
  decidable_of_iff (∃ id ∈ r.get n, id.owner = self)
    ⟨fun ⟨id, hid, ho⟩ => ⟨id.epoch, id, hid, ho, rfl⟩, fun ⟨_, id, hid, ho, _⟩ => ⟨id, hid, ho⟩⟩

theorem holds_congr {r r' : Registry} {n : ChannelName} (h : r'.getRaw n = r.getRaw n)
    (self : NodeId) (e : UInt64) : r'.Holds self n e ↔ r.Holds self n e := by
  rw [holds_iff, holds_iff, h]

section Claims

variable {r : Registry} {self : NodeId} {now : UInt64} {q : ClaimRequest} {n : ChannelName}
  {e : UInt64}

/-- A merge leaves the entry that is there or takes the incoming one. -/
theorem winnerOver_choice (r : Registry) (id : ChannelIdentity) :
    r.winnerOver id = id ∨ r.getRaw id.name = some (r.winnerOver id) := by
  by_cases h : r.keyAt id.name < (id.key : WithBot OrderingKey)
  · exact .inl (winnerOver_of_lt h)
  · exact .inr (getRaw_of_not_lt h)

theorem getRaw_claimName_of_ne (h : n ≠ q.name) :
    (r.claimName self now q).1.getRaw n = r.getRaw n := by
  rw [claimName_fst, getRaw_mergeTracked]
  exact if_neg (Ne.symm h)

theorem getRaw_claimName (r : Registry) (self : NodeId) (now : UInt64) (q : ClaimRequest) :
    (r.claimName self now q).1.getRaw q.name =
      some (r.winnerOver (r.claimIdentity self now q)) := by
  rw [claimName_fst]
  exact getRaw_mergeTracked_winner r (r.claimIdentity self now q)

theorem claimEpoch_of_live {id : ChannelIdentity} (h : r.getRaw n = some id)
    (hd : id.deleted = false) : r.claimEpoch n = id.epoch := by
  simp [claimEpoch, h, hd]

/-- Of a live entry and a claim on its name, which are of one generation, the earlier one
is above, and of two at one time that of the lower owner. -/
theorem lt_key_claimIdentity_iff {cur : ChannelIdentity} (hcur : r.get q.name = some cur) :
    cur.key < (r.claimIdentity self now q).key ↔
      now < cur.registeredAtNanos ∨ cur.registeredAtNanos = now ∧ self < cur.owner := by
  obtain ⟨hraw, hlive⟩ := get_eq_some.mp hcur
  have hepoch : r.claimEpoch q.name = cur.epoch := claimEpoch_of_live hraw hlive
  simp [OrderingKey.lt_iff, ChannelIdentity.key, claimIdentity, hepoch, hlive]

theorem winnerOver_claimIdentity {cur : ChannelIdentity} (hcur : r.get q.name = some cur) :
    r.winnerOver (r.claimIdentity self now q) =
      if cur.key < (r.claimIdentity self now q).key then r.claimIdentity self now q else cur := by
  have hraw : r.getRaw (r.claimIdentity self now q).name = some cur := (get_eq_some.mp hcur).1
  rw [winnerOver, hraw]
  exact ChannelIdentity.resolveCollision_eq_pick cur _

/-- Whatever a claim leaves its node holding is of the epoch it claimed at. -/
theorem epoch_of_holds_claimName (h : (r.claimName self now q).1.Holds self q.name e) :
    e = r.claimEpoch q.name := by
  obtain ⟨id, hraw, hd, -, rfl⟩ := holds_iff.mp h
  rw [getRaw_claimName, Option.some.injEq] at hraw
  subst hraw
  rcases winnerOver_choice r (r.claimIdentity self now q) with hw | hw
  · rw [hw]
    rfl
  · exact (claimEpoch_of_live hw hd).symm

/-- A claim that is not rejected leaves its node holding the name. -/
theorem holds_claimName_of_ok {id : ChannelIdentity}
    (h : (r.claimName self now q).2 = .ok id) :
    (r.claimName self now q).1.Holds self q.name (r.claimEpoch q.name) := by
  have hown : (r.winnerOver (r.claimIdentity self now q)).owner = self ∧
      (r.winnerOver (r.claimIdentity self now q)).deleted = false := by
    simp only [claimName] at h
    split at h
    · cases h
    · rename_i hw
      simpa using hw
  have hh : (r.claimName self now q).1.Holds self q.name
      (r.winnerOver (r.claimIdentity self now q)).epoch :=
    holds_iff.mpr ⟨_, getRaw_claimName r self now q, hown.2, hown.1, rfl⟩
  rw [← epoch_of_holds_claimName hh]
  exact hh

/-- And one that leaves its node holding the name is not rejected. -/
theorem claimName_ok_of_holds (h : (r.claimName self now q).1.Holds self q.name e) :
    (r.claimName self now q).2 = .ok (r.claimIdentity self now q) := by
  obtain ⟨id, hraw, hd, ho, -⟩ := holds_iff.mp h
  rw [getRaw_claimName, Option.some.injEq] at hraw
  subst hraw
  simp [claimName, ho, hd]

/-- A node loses nothing it holds to a claim of its own. -/
theorem Holds.claimName (h : r.Holds self n e) (now : UInt64) (q : ClaimRequest) :
    (r.claimName self now q).1.Holds self n e := by
  obtain ⟨id, hraw, hd, ho, rfl⟩ := holds_iff.mp h
  by_cases hn : n = q.name
  · subst hn
    refine holds_iff.mpr ⟨_, getRaw_claimName r self now q, ?_⟩
    rcases winnerOver_choice r (r.claimIdentity self now q) with hw | hw
    · rw [hw]
      exact ⟨rfl, rfl, claimEpoch_of_live hraw hd⟩
    · have hid : id = r.winnerOver (r.claimIdentity self now q) :=
        Option.some.inj (hraw.symm.trans hw)
      rw [← hid]
      exact ⟨hd, ho, rfl⟩
  · exact (holds_congr (getRaw_claimName_of_ne hn) self id.epoch).mpr h

/-- There is something to deregister as long as the name is held. -/
theorem not_holds_of_deregister (h : (r.deregister n self).2 = none) : ¬ r.Holds self n e := by
  intro hheld
  obtain ⟨id, hraw, hd, ho, -⟩ := holds_iff.mp hheld
  simp [deregister, hraw, hd, ho, merge] at h

/-- What is left once a name has been deregistered. -/
theorem holds_deregister {owner : NodeId} {t : ChannelIdentity}
    (h : (r.deregister n owner).2 = some t) {m : ChannelName} :
    (r.deregister n owner).1.Holds self m e ↔ m ≠ n ∧ r.Holds self m e := by
  obtain ⟨hreap, id, hraw, -⟩ := (deregister_cases r n owner).resolve_left (by
    intro hd
    rw [hd] at h
    cases h)
  rw [hreap] at h ⊢
  obtain ⟨id', hraw', hlive, he⟩ := (reap_cases r n).resolve_left (by
    intro hd
    rw [hd] at h
    cases h)
  rw [he]
  have hname : id'.name = n := getRaw_name hraw'
  by_cases hm : m = n
  · subst hm
    have htomb := getRaw_mergeTracked_winner r { id' with deleted := true }
    rw [mergeTracked_winner, winnerOver_tombstone hraw' hlive] at htomb
    subst hname
    simp [holds_iff, htomb]
  · have hother : (r.mergeTracked { id' with deleted := true }).1.getRaw m = r.getRaw m := by
      rw [getRaw_mergeTracked]
      exact if_neg fun hmn => hm (hmn.symm.trans hname)
    rw [holds_congr hother]
    simp [hm]

end Claims

end Registry

end XchannelNet
