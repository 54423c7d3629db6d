import Mathlib.Data.Prod.Lex
import Mathlib.Order.OrderDual
import XchannelNet.Lib.KeyMerge

/-!
# Identity — the registry's value and its collision order

`ChannelIdentity` is the record gossiped for one channel. Two identities of
one name are resolved by `resolveCollision`, a cascade of early returns; the
content of this module is that the cascade is `KeyMerge.pick` at the key
`(epoch, deleted, registered_at_nanos, owner)`, with the last two components
ordered downwards and every other field of the record unseen.
-/

namespace XchannelNet

/-- Flat, globally unique channel name. -/
abbrev ChannelName := String

/-- A node's stable identity. -/
abbrev NodeId := UInt64

/-- What every node converges on for one channel name. -/
structure ChannelIdentity where
  name : ChannelName
  owner : NodeId
  regionSize : UInt32
  mtu : UInt32
  earliestIndex : UInt64
  registeredAtNanos : UInt64
  epoch : UInt64
  deleted : Bool
  memberOf : Option ChannelName
  deriving DecidableEq, Repr

namespace ChannelIdentity

/-- Which of two entries occupies a name. -/
def resolveCollision (a b : ChannelIdentity) : ChannelIdentity :=
  match compare a.epoch b.epoch with
  | .gt => a
  | .lt => b
  | .eq =>
    -- same generation: a tombstone dominates a live entry
    match a.deleted, b.deleted with
    | true, false => a
    | false, true => b
    | _, _ =>
      -- same generation and liveness: earliest registration, then lowest id
      match compare a.registeredAtNanos b.registeredAtNanos with
      | .lt => a
      | .gt => b
      | .eq => if a.owner ≤ b.owner then a else b

end ChannelIdentity

/-! ## The ordering key -/

/-- The four fields the merge looks at. -/
structure OrderingKey where
  epoch : UInt64
  deleted : Bool
  registeredAtNanos : UInt64
  owner : NodeId
  deriving DecidableEq, Repr

namespace OrderingKey

/-- The key as a lexicographic tuple: a higher epoch is larger, a tombstone
is larger than a live entry, an EARLIER registration and a LOWER owner are
larger. -/
def rank (k : OrderingKey) : ℕ ×ₗ Bool ×ₗ ℕᵒᵈ ×ₗ ℕᵒᵈ :=
  toLex (k.epoch.toNat, toLex (k.deleted,
    toLex (OrderDual.toDual k.registeredAtNanos.toNat, OrderDual.toDual k.owner.toNat)))

theorem rank_injective : Function.Injective rank := by
  intro a b h
  obtain ⟨ae, ad, ar, ao⟩ := a
  obtain ⟨be, bd, br, bo⟩ := b
  have h' : (ae.toNat, ad, ar.toNat, ao.toNat) = (be.toNat, bd, br.toNat, bo.toNat) := h
  simp only [Prod.mk.injEq, UInt64.toNat_inj] at h'
  obtain ⟨rfl, rfl, rfl, rfl⟩ := h'
  rfl

instance : LinearOrder OrderingKey := LinearOrder.lift' rank rank_injective

/-- The order, field by field. -/
theorem lt_iff (a b : OrderingKey) :
    a < b ↔ a.epoch < b.epoch ∨ a.epoch = b.epoch ∧
      (a.deleted < b.deleted ∨ a.deleted = b.deleted ∧
        (b.registeredAtNanos < a.registeredAtNanos ∨
          a.registeredAtNanos = b.registeredAtNanos ∧ b.owner < a.owner)) := by
  change rank a < rank b ↔ _
  simp only [rank, Prod.Lex.toLex_lt_toLex, OrderDual.toDual_lt_toDual,
    OrderDual.toDual_inj, UInt64.toNat_inj, UInt64.lt_iff_toNat_lt]

end OrderingKey

namespace ChannelIdentity

/-- The key an identity is ordered by. -/
def key (id : ChannelIdentity) : OrderingKey :=
  ⟨id.epoch, id.deleted, id.registeredAtNanos, id.owner⟩

/-- A larger key is of the same epoch or a later one, and of the same epoch only
a tombstone follows a tombstone. -/
theorem epoch_of_key_le {a b : ChannelIdentity} (h : a.key ≤ b.key) :
    a.epoch ≤ b.epoch ∧ (a.epoch = b.epoch → b.deleted = false → a.deleted = false) := by
  rcases h.lt_or_eq with hlt | heq
  · rcases (OrderingKey.lt_iff _ _).mp hlt with he | ⟨he, hd | ⟨hd, -⟩⟩
    · exact ⟨UInt64.le_of_lt he, fun heq => absurd heq (UInt64.ne_of_lt he)⟩
    · refine ⟨UInt64.le_of_eq he, fun _ hb => absurd hd ?_⟩
      simp [key, hb]
    · exact ⟨UInt64.le_of_eq he, fun _ hb => hd.trans hb⟩
  · exact ⟨UInt64.le_of_eq (congrArg OrderingKey.epoch heq),
      fun _ hb => (congrArg OrderingKey.deleted heq).trans hb⟩

theorem compare_uint64_eq (a b : UInt64) :
    compare a b = if a < b then .lt else if a = b then .eq else .gt := rfl

/-- **The cascade is a key merge**: `resolveCollision` returns its second
argument exactly when that has the strictly larger key. -/
theorem resolveCollision_eq_pick (a b : ChannelIdentity) :
    resolveCollision a b = KeyMerge.pick key a b := by
  unfold resolveCollision KeyMerge.pick
  simp only [compare_uint64_eq, OrderingKey.lt_iff, key, UInt64.lt_iff_toNat_lt,
    UInt64.le_iff_toNat_le, ← UInt64.toNat_inj]
  rcases lt_trichotomy a.epoch.toNat b.epoch.toNat with he | he | he
  · simp [he]
  · -- one generation: liveness decides, then time, then owner
    rcases lt_trichotomy a.registeredAtNanos.toNat b.registeredAtNanos.toNat with hr | hr | hr
    · have hr' := hr.not_gt
      have hrn := hr.ne
      cases a.deleted <;> cases b.deleted <;> simp [he, hr, hr', hrn]
    · rcases lt_or_ge b.owner.toNat a.owner.toNat with ho | ho
      · have ho' := ho.not_ge
        cases a.deleted <;> cases b.deleted <;> simp [he, hr, ho, ho']
      · have ho' := ho.not_gt
        cases a.deleted <;> cases b.deleted <;> simp [he, hr, ho, ho']
    · have hr' := hr.not_gt
      have hrn := hr.ne'
      cases a.deleted <;> cases b.deleted <;> simp [he, hr, hr', hrn]
  · have he' := he.not_gt
    have hen := he.ne'
    simp [he', hen]

end ChannelIdentity

end XchannelNet
