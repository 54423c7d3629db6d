import Mathlib
import XchannelNet.Identity

/-!
# Registry — the decentralized channel map

The registry is an ordered map from names to identities; every mutation goes
through `mergeTracked`. Tombstones stay in the map (`getRaw` sees them) and
are hidden by `get`.
-/

namespace XchannelNet

/-- The channel map. An entry is always stored under its own name: the field
`keyed` makes a misfiled entry unrepresentable. -/
@[ext] structure Registry where
  channels : Std.ExtTreeMap ChannelName ChannelIdentity
  keyed : ∀ (n : ChannelName) (id : ChannelIdentity), channels[n]? = some id → id.name = n

/-- What a merge did to the map. -/
structure Merged where
  winner : ChannelIdentity
  changed : Bool
  deriving DecidableEq, Repr

namespace Registry

/-- The empty registry. -/
def new : Registry where
  channels := ∅
  keyed := by simp

/-- The raw entry for a name, tombstones included. -/
def getRaw (r : Registry) (n : ChannelName) : Option ChannelIdentity :=
  r.channels[n]?

/-- The live identity for a name: `none` if unknown or tombstoned. -/
def get (r : Registry) (n : ChannelName) : Option ChannelIdentity :=
  (r.getRaw n).filter (fun id => !id.deleted)

/-- Store an identity under its own name. -/
def put (r : Registry) (id : ChannelIdentity) : Registry where
  channels := r.channels.insert id.name id
  keyed := by
    intro n id' h
    rw [Std.ExtTreeMap.getElem?_insert] at h
    split at h
    · rename_i hn
      rw [Std.LawfulEqCmp.compare_eq_iff_eq] at hn
      cases h
      exact hn
    · exact r.keyed n id' h

/-- The entry that occupies the name once `incoming` has been considered. -/
def winnerOver (r : Registry) (incoming : ChannelIdentity) : ChannelIdentity :=
  match r.getRaw incoming.name with
  | some existing => ChannelIdentity.resolveCollision existing incoming
  | none => incoming

/-- Merge an incoming identity, reporting whether the map changed. -/
def mergeTracked (r : Registry) (incoming : ChannelIdentity) : Registry × Merged :=
  let winner := r.winnerOver incoming
  (r.put winner, ⟨winner, r.getRaw winner.name != some winner⟩)

/-- Merge an incoming identity; the winner now occupies the name. -/
def merge (r : Registry) (incoming : ChannelIdentity) : Registry × ChannelIdentity :=
  let (r', merged) := r.mergeTracked incoming
  (r', merged.winner)

/-- The epoch a fresh local registration uses: `0` for a never-used name, the
current generation for a live one, the next one for a tombstone. -/
def claimEpoch (r : Registry) (n : ChannelName) : UInt64 :=
  match r.getRaw n with
  | some id => if id.deleted then id.epoch + 1 else id.epoch
  | none => 0

/-- Tombstone a live name owned by `owner`; `none` if there is none. -/
def deregister (r : Registry) (n : ChannelName) (owner : NodeId) :
    Registry × Option ChannelIdentity :=
  match r.getRaw n with
  | none => (r, none)
  | some current =>
    if current.deleted || current.owner != owner then (r, none)
    else
      let (r', tombstone) := r.merge { current with deleted := true }
      (r', some tombstone)

/-- Tombstone a live name whoever owns it. -/
def reap (r : Registry) (n : ChannelName) : Registry × Option ChannelIdentity :=
  match r.getRaw n with
  | none => (r, none)
  | some current =>
    if current.deleted then (r, none)
    else
      let (r', tombstone) := r.merge { current with deleted := true }
      (r', some tombstone)

/-- All raw entries in name order, tombstones included. -/
def iter (r : Registry) : List ChannelIdentity :=
  r.channels.toList.map Prod.snd

/-! ## Reading the map back -/

@[simp] theorem getRaw_new (n : ChannelName) : new.getRaw n = none := by
  simp [new, getRaw]

theorem getRaw_name {r : Registry} {n : ChannelName} {id : ChannelIdentity}
    (h : r.getRaw n = some id) : id.name = n :=
  r.keyed n id h

theorem get_eq_some {r : Registry} {n : ChannelName} {id : ChannelIdentity} :
    r.get n = some id ↔ r.getRaw n = some id ∧ id.deleted = false := by
  simp [get, Option.filter_eq_some_iff]

theorem getRaw_put (r : Registry) (id : ChannelIdentity) (n : ChannelName) :
    (r.put id).getRaw n = if id.name = n then some id else r.getRaw n := by
  simp only [put, getRaw, Std.ExtTreeMap.getElem?_insert,
    Std.LawfulEqCmp.compare_eq_iff_eq]

theorem ext_getRaw {r s : Registry} (h : ∀ n, r.getRaw n = s.getRaw n) : r = s :=
  Registry.ext (Std.ExtTreeMap.ext_getElem? (fun {n} => h n))

/-- The snapshot sent at join time lists exactly the entries of the map. -/
theorem mem_iter {r : Registry} {id : ChannelIdentity} :
    id ∈ r.iter ↔ r.getRaw id.name = some id := by
  simp only [iter, List.mem_map, Prod.exists, exists_eq_right,
    Std.ExtTreeMap.mem_toList_iff_getElem?_eq_some]
  constructor
  · rintro ⟨n, h⟩
    rwa [getRaw, r.keyed n id h]
  · intro h
    exact ⟨id.name, h⟩

/-! ## Merging is a key merge at the identity's own name -/

/-- The key a name stands at; an absent name is below every key. -/
def keyAt (r : Registry) (n : ChannelName) : WithBot OrderingKey :=
  KeyMerge.slotKey ChannelIdentity.key (r.getRaw n)

theorem key_le_keyAt_of_mem_iter {r : Registry} {id : ChannelIdentity} (h : id ∈ r.iter) :
    (id.key : WithBot OrderingKey) ≤ r.keyAt id.name := by
  rw [keyAt, mem_iter.mp h]
  exact le_rfl

theorem mergeSlot_getRaw (r : Registry) (id : ChannelIdentity) :
    KeyMerge.mergeSlot ChannelIdentity.key (r.getRaw id.name) id
      = some (r.winnerOver id) := by
  rw [winnerOver]
  cases r.getRaw id.name with
  | none => rfl
  | some existing => simp [KeyMerge.mergeSlot, ChannelIdentity.resolveCollision_eq_pick]

theorem winnerOver_name (r : Registry) (id : ChannelIdentity) :
    (r.winnerOver id).name = id.name := by
  rw [winnerOver]
  cases h : r.getRaw id.name with
  | none => rfl
  | some existing =>
      simp only [ChannelIdentity.resolveCollision_eq_pick]
      rcases KeyMerge.pick_choice ChannelIdentity.key existing id with hp | hp
      · rw [hp]
        exact getRaw_name h
      · rw [hp]

@[simp] theorem mergeTracked_winner (r : Registry) (id : ChannelIdentity) :
    (r.mergeTracked id).2.winner = r.winnerOver id := rfl

/-- **One merge**: the identity's own name takes the key merge, every other
name is untouched. -/
theorem getRaw_mergeTracked (r : Registry) (id : ChannelIdentity) (n : ChannelName) :
    (r.mergeTracked id).1.getRaw n =
      if id.name = n then KeyMerge.mergeSlot ChannelIdentity.key (r.getRaw n) id
      else r.getRaw n := by
  change (r.put (r.winnerOver id)).getRaw n = _
  rw [getRaw_put, winnerOver_name]
  split
  · rename_i hn
    subst hn
    exact (mergeSlot_getRaw r id).symm
  · rfl

/-- An entry that is there after a merge was there before, or is the one merged. -/
theorem getRaw_mergeTracked_choice {r : Registry} {id id' : ChannelIdentity} {n : ChannelName}
    (h : (r.mergeTracked id).1.getRaw n = some id') :
    r.getRaw n = some id' ∨ id' = id ∧ id.name = n := by
  rw [getRaw_mergeTracked] at h
  split at h
  · rename_i hn
    exact (KeyMerge.mergeSlot_choice h).imp_right (⟨·, hn⟩)
  · exact .inl h

/-- A merge reports a change exactly when the incoming key is strictly above
the one held. -/
theorem mergeTracked_changed (r : Registry) (id : ChannelIdentity) :
    (r.mergeTracked id).2.changed = true ↔
      r.keyAt id.name < (id.key : WithBot OrderingKey) := by
  rw [keyAt, ← KeyMerge.mergeSlot_ne_iff, mergeSlot_getRaw]
  change (r.getRaw (r.winnerOver id).name != some (r.winnerOver id)) = true ↔ _
  rw [winnerOver_name, bne_iff_ne]
  exact ne_comm

/-- A strictly larger identity takes the name. -/
theorem winnerOver_of_lt {r : Registry} {id : ChannelIdentity}
    (h : r.keyAt id.name < (id.key : WithBot OrderingKey)) : r.winnerOver id = id := by
  rw [winnerOver]
  cases he : r.getRaw id.name with
  | none => rfl
  | some existing =>
      rw [keyAt, he, KeyMerge.slotKey_some, WithBot.coe_lt_coe] at h
      simp only [ChannelIdentity.resolveCollision_eq_pick, KeyMerge.pick_eq_right_of_lt h]

/-- Anything else leaves the entry already there. -/
theorem getRaw_of_not_lt {r : Registry} {id : ChannelIdentity}
    (h : ¬ r.keyAt id.name < (id.key : WithBot OrderingKey)) :
    r.getRaw id.name = some (r.winnerOver id) := by
  rw [winnerOver]
  cases he : r.getRaw id.name with
  | none => simp [keyAt, he] at h
  | some existing =>
      rw [keyAt, he, KeyMerge.slotKey_some, WithBot.coe_lt_coe, not_lt] at h
      simp only [ChannelIdentity.resolveCollision_eq_pick, KeyMerge.pick_eq_left_of_le h]

theorem keyAt_mergeTracked (r : Registry) (id : ChannelIdentity) (n : ChannelName) :
    (r.mergeTracked id).1.keyAt n =
      if id.name = n then max (r.keyAt n) (id.key : WithBot OrderingKey) else r.keyAt n := by
  rw [keyAt, getRaw_mergeTracked]
  split
  · exact KeyMerge.slotKey_mergeSlot _ _
  · rfl

/-- No merge lowers a key. -/
theorem keyAt_le_mergeTracked (r : Registry) (id : ChannelIdentity) (n : ChannelName) :
    r.keyAt n ≤ (r.mergeTracked id).1.keyAt n := by
  rw [keyAt_mergeTracked]
  split
  · exact le_max_left _ _
  · exact le_rfl

theorem keyAt_mergeTracked_of_not_changed {r : Registry} {id : ChannelIdentity}
    (h : ¬ (r.mergeTracked id).2.changed = true) (n : ChannelName) :
    (r.mergeTracked id).1.keyAt n = r.keyAt n := by
  rw [mergeTracked_changed, not_lt] at h
  rw [keyAt_mergeTracked]
  split
  · rename_i hn
    subst hn
    exact max_eq_left h
  · rfl

/-- A merge that reports no change is none. -/
theorem mergeTracked_of_not_changed {r : Registry} {id : ChannelIdentity}
    (h : ¬ (r.mergeTracked id).2.changed = true) : (r.mergeTracked id).1 = r := by
  rw [mergeTracked_changed] at h
  refine ext_getRaw fun n => ?_
  rw [getRaw_mergeTracked]
  split
  · rename_i hn
    subst hn
    rw [mergeSlot_getRaw, getRaw_of_not_lt h]
  · rfl

/-- The winner is at least the incoming identity. -/
theorem key_le_keyAt_mergeTracked (r : Registry) (id : ChannelIdentity) :
    (id.key : WithBot OrderingKey) ≤ (r.mergeTracked id).1.keyAt id.name := by
  rw [keyAt_mergeTracked, if_pos rfl]
  exact le_max_right _ _

/-- The winner reported is the entry now stored. -/
theorem getRaw_mergeTracked_winner (r : Registry) (id : ChannelIdentity) :
    (r.mergeTracked id).1.getRaw id.name = some (r.mergeTracked id).2.winner := by
  rw [getRaw_mergeTracked, if_pos rfl, mergeSlot_getRaw]
  rfl

theorem key_winner_le (r : Registry) (id : ChannelIdentity) :
    ((r.mergeTracked id).2.winner.key : WithBot OrderingKey) ≤
      (r.mergeTracked id).1.keyAt (r.mergeTracked id).2.winner.name := by
  rw [mergeTracked_winner, winnerOver_name, keyAt, getRaw_mergeTracked_winner]
  exact le_rfl

/-! ## Tombstones -/

/-- The tombstone of a live entry takes its name. -/
theorem winnerOver_tombstone {r : Registry} {n : ChannelName} {id : ChannelIdentity}
    (h : r.getRaw n = some id) (hlive : id.deleted = false) :
    r.winnerOver { id with deleted := true } = { id with deleted := true } := by
  apply winnerOver_of_lt
  have hn : r.getRaw id.name = some id := getRaw_name h ▸ h
  rw [keyAt, hn, KeyMerge.slotKey_some, WithBot.coe_lt_coe, OrderingKey.lt_iff]
  exact .inr ⟨rfl, .inl (by simp [ChannelIdentity.key, hlive])⟩

theorem reap_cases (r : Registry) (n : ChannelName) :
    r.reap n = (r, none) ∨
    ∃ id, r.getRaw n = some id ∧ id.deleted = false ∧
      r.reap n = ((r.mergeTracked { id with deleted := true }).1,
        some { id with deleted := true }) := by
  rw [reap]
  cases h : r.getRaw n with
  | none => exact .inl rfl
  | some id =>
      cases hd : id.deleted with
      | true => exact .inl (by simp [hd])
      | false =>
          refine .inr ⟨id, rfl, hd, ?_⟩
          simp only [hd, merge, mergeTracked_winner, winnerOver_tombstone h hd]
          rfl

/-- A reap tombstones the live entry of the name. -/
theorem reap_some {r : Registry} {n : ChannelName} {tomb : ChannelIdentity}
    (h : (r.reap n).2 = some tomb) :
    ∃ cur, r.get n = some cur ∧ tomb = { cur with deleted := true } := by
  rcases r.reap_cases n with hr | ⟨cur, hget, hlive, hr⟩ <;> rw [hr] at h
  · cases h
  · exact ⟨cur, get_eq_some.mpr ⟨hget, hlive⟩, (Option.some.inj h).symm⟩

/-- What is live after a reap was there before it. -/
theorem getRaw_of_reap {r : Registry} {n m : ChannelName} {id : ChannelIdentity}
    (h : (r.reap n).1.getRaw m = some id) (hlive : id.deleted = false) : r.getRaw m = some id := by
  rcases r.reap_cases n with hr | ⟨id', -, -, hr⟩ <;> rw [hr] at h
  · exact h
  · rcases getRaw_mergeTracked_choice h with hold | ⟨rfl, -⟩
    · exact hold
    · cases hlive

theorem get_of_reap {r : Registry} {n m : ChannelName} {id : ChannelIdentity}
    (h : (r.reap n).1.get m = some id) : r.get m = some id := by
  obtain ⟨hraw, hlive⟩ := get_eq_some.mp h
  exact get_eq_some.mpr ⟨getRaw_of_reap hraw hlive, hlive⟩

theorem keyAt_le_reap (r : Registry) (n m : ChannelName) : r.keyAt m ≤ (r.reap n).1.keyAt m := by
  rcases r.reap_cases n with hr | ⟨id, -, -, hr⟩ <;> rw [hr]
  exact keyAt_le_mergeTracked r _ m

/-- A deregistration by the owner is a reap; by anyone else it is nothing. -/
theorem deregister_cases (r : Registry) (n : ChannelName) (owner : NodeId) :
    r.deregister n owner = (r, none) ∨
    r.deregister n owner = r.reap n ∧ ∃ id, r.getRaw n = some id ∧ id.owner = owner := by
  rw [deregister, reap]
  cases h : r.getRaw n with
  | none => exact .inl rfl
  | some id =>
      by_cases ho : id.owner = owner
      · exact .inr ⟨by simp [ho], id, rfl, ho⟩
      · exact .inl (by simp [ho])

theorem keyAt_le_deregister (r : Registry) (n : ChannelName) (owner : NodeId) (m : ChannelName) :
    r.keyAt m ≤ (r.deregister n owner).1.keyAt m := by
  rcases r.deregister_cases n owner with hr | ⟨hr, -⟩ <;> rw [hr]
  exact keyAt_le_reap r n m

/-- An entry is only ever followed by one of a larger key. -/
theorem exists_of_keyAt_le {r r' : Registry} {n : ChannelName} {id : ChannelIdentity}
    (h : r.keyAt n ≤ r'.keyAt n) (hid : r.getRaw n = some id) :
    ∃ id', r'.getRaw n = some id' ∧ id.key ≤ id'.key := by
  rw [keyAt, keyAt, hid, KeyMerge.slotKey_some] at h
  cases hid' : r'.getRaw n with
  | none => simp [hid'] at h
  | some id' =>
      rw [hid', KeyMerge.slotKey_some, WithBot.coe_le_coe] at h
      exact ⟨id', rfl, h⟩

end Registry

end XchannelNet
