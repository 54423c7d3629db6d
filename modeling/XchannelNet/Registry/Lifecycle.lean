import XchannelNet.Node.Claim
import XchannelNet.Lib.Run

/-!
# Lifecycle — a name is claimed, held, buried and claimed again

A live name is contested in its own generation: the clocks of the two
registrants decide, so a claim is rejected only by a node whose clock is ahead
of the stamp it competes with. A tombstone closes its generation for good. The
next claim opens another one, as long as there is another: epochs are 64 bits
wide, and a peer may send any of them.
-/

namespace XchannelNet

namespace Registry

/-! ## A contested name -/

section Contested

variable {r : Registry} {self : NodeId} {now : UInt64} {q : ClaimRequest} {cur : ChannelIdentity}

/-- The entry `cur` precedes a registration made by `self` at `now`. -/
def Precedes (cur : ChannelIdentity) (self : NodeId) (now : UInt64) : Prop :=
  cur.registeredAtNanos < now ∨ cur.registeredAtNanos = now ∧ cur.owner < self

instance (cur : ChannelIdentity) (self : NodeId) (now : UInt64) :
    Decidable (Precedes cur self now) :=
  inferInstanceAs (Decidable (_ ∨ _))

/-- In a live name's own generation only time and owner are left to compare. -/
theorem key_claimIdentity_lt (hcur : r.get q.name = some cur) (h : Precedes cur self now) :
    (r.claimIdentity self now q).key < cur.key := by
  obtain ⟨hraw, hlive⟩ := get_eq_some.mp hcur
  have hepoch : (r.claimIdentity self now q).epoch = cur.epoch := claimEpoch_of_live hraw hlive
  rw [OrderingKey.lt_iff]
  refine .inr ⟨hepoch, .inr ⟨hlive.symm, ?_⟩⟩
  rcases h with hlt | ⟨heq, hown⟩
  · exact .inl hlt
  · exact .inr ⟨heq.symm, hown⟩

/-- Merging what is below the entry that is there changes nothing. -/
theorem mergeTracked_of_key_lt {id : ChannelIdentity} (hraw : r.getRaw id.name = some cur)
    (h : id.key < cur.key) : r.mergeTracked id = (r, ⟨cur, false⟩) := by
  have hnot : ¬ r.keyAt id.name < (id.key : WithBot OrderingKey) := by
    rw [keyAt, hraw, KeyMerge.slotKey_some, WithBot.coe_lt_coe]
    exact h.not_gt
  have hw : r.winnerOver id = cur := by
    have hstays := getRaw_of_not_lt hnot
    rw [hraw] at hstays
    exact (Option.some.inj hstays).symm
  have hchanged : (r.mergeTracked id).2.changed = false := by
    rw [← Bool.not_eq_true, mergeTracked_changed]
    exact hnot
  refine Prod.ext (mergeTracked_of_not_changed (by simp [hchanged])) ?_
  · change Merged.mk (r.winnerOver id) (r.mergeTracked id).2.changed = _
    rw [hw, hchanged]

/-- And otherwise they are the other way round. -/
theorem lt_key_claimIdentity (hcur : r.get q.name = some cur) (hother : cur.owner ≠ self)
    (h : ¬ Precedes cur self now) : cur.key < (r.claimIdentity self now q).key := by
  rw [Precedes, not_or, not_and] at h
  refine (lt_key_claimIdentity_iff hcur).mpr ?_
  by_cases hstamp : cur.registeredAtNanos = now
  · exact .inr ⟨hstamp, UInt64.lt_of_le_of_ne (UInt64.not_lt.mp (h.2 hstamp)) (Ne.symm hother)⟩
  · exact .inl (UInt64.lt_of_le_of_ne (UInt64.not_lt.mp h.1) (Ne.symm hstamp))

/-- A claim above the live entry of its name is granted and takes its place. -/
theorem claimName_of_lt_key (hcur : r.get q.name = some cur)
    (h : cur.key < (r.claimIdentity self now q).key) :
    (r.claimName self now q).2 = .ok (r.claimIdentity self now q) ∧
      (r.claimName self now q).1.get q.name = some (r.claimIdentity self now q) := by
  have hraw : r.getRaw (r.claimIdentity self now q).name = some cur := (get_eq_some.mp hcur).1
  have hlt : r.keyAt (r.claimIdentity self now q).name <
      ((r.claimIdentity self now q).key : WithBot OrderingKey) := by
    rw [keyAt, hraw, KeyMerge.slotKey_some, WithBot.coe_lt_coe]
    exact h
  refine ⟨claimName_ok_of_changed ((mergeTracked_changed _ _).mpr hlt), get_eq_some.mpr ⟨?_, rfl⟩⟩
  rw [getRaw_claimName, winnerOver_of_lt hlt]

/-- **Who registered first keeps a live name**, as the stamps have it: a claim on another
node's name is rejected, and the registry is as it was, exactly if the entry's stamp
precedes the clock of the claimant. A claimant whose clock is behind the stamp takes
the name. -/
theorem claimName_of_live (hcur : r.get q.name = some cur) (hother : cur.owner ≠ self) :
    (r.claimName self now q =
      (r, .error (.alreadyExists ("channel '" ++ q.name ++ "' already registered by node "
        ++ toString cur.owner ++ " — registration rejected"))) ↔ Precedes cur self now) ∧
    (¬ Precedes cur self now →
      (r.claimName self now q).2 = .ok (r.claimIdentity self now q) ∧
      (r.claimName self now q).1.get q.name = some (r.claimIdentity self now q)) := by
  have htaken : ¬ Precedes cur self now →
      (r.claimName self now q).2 = .ok (r.claimIdentity self now q) ∧
      (r.claimName self now q).1.get q.name = some (r.claimIdentity self now q) :=
    fun h => claimName_of_lt_key hcur (lt_key_claimIdentity hcur hother h)
  refine ⟨⟨fun hrejected => ?_, fun hclock => ?_⟩, htaken⟩
  · by_contra hclock
    have hok := (htaken hclock).1
    rw [hrejected] at hok
    cases hok
  · have hraw : r.getRaw (r.claimIdentity self now q).name = some cur := (get_eq_some.mp hcur).1
    have hmerge := mergeTracked_of_key_lt hraw (key_claimIdentity_lt hcur hclock)
    simp only [claimName, hmerge]
    rw [if_pos]
    simp [hother]

end Contested

/-- A channel that node 2 registered at time 7. -/
def heldAt7 : ChannelIdentity := ⟨"c", 2, 65536, 1500, 0, 7, 0, false, none⟩

theorem claimName_of_live_later :
    (new.mergeTracked heldAt7).1.get "c" = some heldAt7 ∧
    ((new.mergeTracked heldAt7).1.claimName 1 8 ⟨"c", 65536, 1500, none⟩).1 =
      (new.mergeTracked heldAt7).1 := by
  have hcur : (new.mergeTracked heldAt7).1.get "c" = some heldAt7 := by decide +kernel
  refine ⟨hcur, ?_⟩
  rw [(claimName_of_live hcur (by decide)).1.mpr (by decide)]

/-- A node whose clock is behind takes the name of another one: the claim is
granted and the entry replaced. -/
theorem live_name_stolen :
    (new.mergeTracked heldAt7).1.get "c" = some heldAt7 ∧ heldAt7.owner ≠ 1 ∧
    ∃ id, ((new.mergeTracked heldAt7).1.claimName 1 6 ⟨"c", 65536, 1500, none⟩).2 = .ok id ∧
      ((new.mergeTracked heldAt7).1.claimName 1 6 ⟨"c", 65536, 1500, none⟩).1.get "c" = some id ∧
      id.owner = 1 :=
  ⟨by decide +kernel, by decide, ⟨"c", 1, 65536, 1500, 0, 6, 0, false, none⟩, by decide +kernel,
    by decide +kernel, rfl⟩

/-! ## Histories -/

/-- What a node does to its registry. -/
inductive Op where
  | merge (id : ChannelIdentity)
  | deregister (n : ChannelName) (owner : NodeId)
  | reap (n : ChannelName)
  | claim (self : NodeId) (now : UInt64) (q : ClaimRequest)

def perform (r : Registry) : Op → Registry
  | .merge id => (r.merge id).1
  | .deregister n owner => (r.deregister n owner).1
  | .reap n => (r.reap n).1
  | .claim self now q => (r.claimName self now q).1

/-- The registries a node can come to have. -/
def Reached : Registry → Prop := Run.Reachable (· = new) fun r r' => ∃ op, r' = r.perform op

/-- No operation lowers a key. -/
theorem keyAt_le_perform (r : Registry) (op : Op) (n : ChannelName) :
    r.keyAt n ≤ (r.perform op).keyAt n := by
  cases op with
  | merge id => exact keyAt_le_mergeTracked r id n
  | deregister m owner => exact keyAt_le_deregister r m owner n
  | reap m => exact keyAt_le_reap r m n
  | claim self now q =>
      rw [perform, claimName_fst]
      exact keyAt_le_mergeTracked r _ n

/-- An entry that is there after an operation was there before, or is what was
merged or claimed, or is a tombstone of what was there. -/
theorem getRaw_perform {r : Registry} {op : Op} {n : ChannelName} {id' : ChannelIdentity}
    (h : (r.perform op).getRaw n = some id') :
    r.getRaw n = some id' ∨ (∃ id, op = .merge id ∧ id' = id ∧ id.name = n) ∨
      (∃ id, r.getRaw n = some id ∧ id' = { id with deleted := true }) ∨
      ∃ self now q, op = .claim self now q ∧ q.name = n ∧
        id' = r.claimIdentity self now q := by
  have hreap : ∀ m, (r.reap m).1.getRaw n = some id' →
      r.getRaw n = some id' ∨ ∃ id, r.getRaw n = some id ∧ id' = { id with deleted := true } := by
    intro m hm
    rcases r.reap_cases m with hr | ⟨id, hraw, -, hr⟩ <;> rw [hr] at hm
    · exact .inl hm
    · refine (getRaw_mergeTracked_choice hm).imp_right ?_
      rintro ⟨rfl, hn⟩
      exact ⟨id, by rw [← hn, getRaw_name hraw]; exact hraw, rfl⟩
  cases op with
  | merge id =>
      rcases getRaw_mergeTracked_choice h with hold | ⟨rfl, hn⟩
      · exact .inl hold
      · exact .inr (.inl ⟨_, rfl, rfl, hn⟩)
  | deregister m owner =>
      change (r.deregister m owner).1.getRaw n = some id' at h
      rcases r.deregister_cases m owner with hr | ⟨hr, -⟩ <;> rw [hr] at h
      · exact .inl h
      · exact (hreap m h).imp_right fun ht => .inr (.inl ht)
  | reap m => exact (hreap m h).imp_right fun ht => .inr (.inl ht)
  | claim self now q =>
      rw [perform, claimName_fst] at h
      rcases getRaw_mergeTracked_choice h with hold | ⟨rfl, hn⟩
      · exact .inl hold
      · exact .inr (.inr (.inr ⟨self, now, q, rfl, hn, rfl⟩))

/-! ## Buried names -/

/-- The name holds a tombstone of this epoch. -/
def Buried (r : Registry) (n : ChannelName) (e : UInt64) : Prop :=
  ∃ t, r.getRaw n = some t ∧ t.deleted = true ∧ t.epoch = e

/-- An operation that brings nothing of `n` past epoch `e`. -/
def Op.Within (n : ChannelName) (e : UInt64) : Op → Prop
  | .merge id => id.name = n → id.epoch ≤ e
  | .claim _ _ q => q.name ≠ n
  | _ => True

variable {r : Registry} {n : ChannelName} {e : UInt64}

theorem Buried.get (h : r.Buried n e) : r.get n = none := by
  obtain ⟨t, ht, hdel, -⟩ := h
  simp [Registry.get, ht, hdel]

/-- Nothing of its own generation or an older one unearths a name. -/
theorem Buried.perform (h : r.Buried n e) {op : Op} (hop : op.Within n e) :
    (r.perform op).Buried n e := by
  obtain ⟨t, ht, hdel, rfl⟩ := h
  obtain ⟨t', ht', hkey⟩ := exists_of_keyAt_le (keyAt_le_perform r op n) ht
  obtain ⟨hle, hdead⟩ := ChannelIdentity.epoch_of_key_le hkey
  have hepoch : t'.epoch ≤ t.epoch := by
    rcases getRaw_perform ht' with hold | ⟨id, rfl, rfl, hn⟩ | ⟨id, hid, rfl⟩ |
      ⟨self, now, q, rfl, hq, -⟩
    · rw [Option.some.inj (ht.symm.trans hold)]
      exact UInt64.le_refl _
    · exact hop hn
    · rw [Option.some.inj (ht.symm.trans hid)]
      exact UInt64.le_refl _
    · exact absurd hq hop
  have heq : t.epoch = t'.epoch := UInt64.le_antisymm hle hepoch
  refine ⟨t', ht', ?_, heq.symm⟩
  cases hd : t'.deleted with
  | true => rfl
  | false => exact absurd (hdead heq hd) (by simp [hdel])

theorem Buried.performs (h : r.Buried n e) {ops : List Op} (hops : ∀ op ∈ ops, op.Within n e) :
    (ops.foldl Registry.perform r).Buried n e := by
  induction ops generalizing r with
  | nil => exact h
  | cons op ops ih =>
      obtain ⟨hop, hrest⟩ := List.forall_mem_cons.mp hops
      exact ih (h.perform hop) hrest

/-- A fresh identity of the next generation takes a buried name, if there is a
next one. -/
theorem Buried.reclaim (h : r.Buried n e) (hroom : e ≠ 18446744073709551615)
    {id : ChannelIdentity} (hn : id.name = n) (hlive : id.deleted = false)
    (hid : id.epoch = r.claimEpoch n) : (r.merge id).1.get n = some id := by
  obtain ⟨t, ht, hdel, rfl⟩ := h
  subst hn
  have hnext : id.epoch = t.epoch + 1 := by simp [hid, claimEpoch, ht, hdel]
  have hlt : r.keyAt id.name < (id.key : WithBot OrderingKey) := by
    rw [keyAt, ht, KeyMerge.slotKey_some, WithBot.coe_lt_coe, OrderingKey.lt_iff]
    left
    change t.epoch < id.epoch
    have hlast : t.epoch.toNat ≠ 18446744073709551615 := fun h => hroom (UInt64.toNat_inj.mp h)
    have hwide := t.epoch.toNat_lt
    have hone : (1 : UInt64).toNat = 1 := rfl
    rw [hnext, UInt64.lt_iff_toNat_lt, UInt64.toNat_add, hone]
    omega
  refine get_eq_some.mpr ⟨?_, hlive⟩
  change (r.mergeTracked id).1.getRaw id.name = some id
  rw [getRaw_mergeTracked_winner, mergeTracked_winner, winnerOver_of_lt hlt]

/-- **The life cycle of a name**: a tombstone keeps its name dead against
everything of its own generation and older ones, and, unless it is of the last
epoch there is, an identity of the generation a claim opens then takes it. -/
theorem buried_until_reclaimed {t : ChannelIdentity} (ht : r.getRaw n = some t)
    (hdel : t.deleted = true) {ops : List Op} (hops : ∀ op ∈ ops, op.Within n t.epoch) :
    (ops.foldl perform r).get n = none ∧
    (t.epoch ≠ 18446744073709551615 → ∀ id, id.name = n → id.deleted = false →
      id.epoch = (ops.foldl perform r).claimEpoch n →
      ((ops.foldl perform r).merge id).1.get n = some id) := by
  have hburied : (ops.foldl perform r).Buried n t.epoch :=
    Buried.performs ⟨t, ht, hdel, rfl⟩ hops
  exact ⟨hburied.get, fun hroom id => hburied.reclaim hroom⟩

/-- A tombstone of the channel, of some epoch. -/
def tombstone (e : UInt64) : ChannelIdentity := ⟨"c", 2, 65536, 1500, 0, 7, e, true, none⟩

theorem buried_until_reclaimed_zero :
    ((new.perform (.merge (tombstone 0))).perform (.merge heldAt7)).get "c" = none ∧
    (((new.perform (.merge (tombstone 0))).perform (.merge heldAt7)).merge
      { heldAt7 with epoch := 1 }).1.get "c" = some { heldAt7 with epoch := 1 } := by
  have ht : (new.perform (.merge (tombstone 0))).getRaw "c" = some (tombstone 0) := by
    decide +kernel
  have hops : ∀ op ∈ [Op.merge heldAt7], op.Within "c" (tombstone 0).epoch := by
    simp [Op.Within, heldAt7]
  obtain ⟨hdead, hnext⟩ := buried_until_reclaimed ht rfl hops
  exact ⟨hdead, hnext (by decide) _ rfl rfl (by decide +kernel)⟩

/-- A peer's tombstone of the last epoch buries a name for good: the epoch of
the next claim is zero again. -/
theorem buried_for_good : ∃ r, Reached r ∧ r.getRaw "c" = some (tombstone 18446744073709551615) ∧
    heldAt7.epoch = r.claimEpoch "c" ∧ (r.merge heldAt7).1.get "c" = none :=
  ⟨new.perform (.merge (tombstone 18446744073709551615)), .next (.start rfl) ⟨_, rfl⟩,
    by decide +kernel, by decide +kernel, by decide +kernel⟩

end Registry

end XchannelNet
