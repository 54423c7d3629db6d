import XchannelNet.Registry.Basic

/-!
# Registry convergence

A run of merges, and what it leaves behind. Name by name the run is a
`KeyMerge.mergeList` over the identities of that name, so the key each name
ends at depends on WHICH identities were merged and on nothing else. The
entry itself is determined only as far as the key separates identities: a
tie keeps the first arrival, whatever its other fields say.
-/

namespace XchannelNet

namespace Registry

/-- Merge identities one after another, keeping what each merge reported. -/
def mergeRun (r : Registry) : List ChannelIdentity → Registry × List Merged
  | [] => (r, [])
  | id :: ids =>
    let (r₁, m) := r.mergeTracked id
    let (r₂, ms) := mergeRun r₁ ids
    (r₂, m :: ms)

theorem mergeRun_nil (r : Registry) : r.mergeRun [] = (r, []) := rfl

theorem mergeRun_cons (r : Registry) (id : ChannelIdentity) (ids : List ChannelIdentity) :
    r.mergeRun (id :: ids) =
      (((r.mergeTracked id).1.mergeRun ids).1,
        (r.mergeTracked id).2 :: ((r.mergeTracked id).1.mergeRun ids).2) := rfl

theorem mergeRun_append (r : Registry) (xs ys : List ChannelIdentity) :
    r.mergeRun (xs ++ ys) =
      (((r.mergeRun xs).1.mergeRun ys).1,
        (r.mergeRun xs).2 ++ ((r.mergeRun xs).1.mergeRun ys).2) := by
  induction xs generalizing r with
  | nil => simp [mergeRun_nil]
  | cons id ids ih => simp [mergeRun_cons, ih]

theorem length_mergeRun (r : Registry) (xs : List ChannelIdentity) :
    (r.mergeRun xs).2.length = xs.length := by
  induction xs generalizing r with
  | nil => rfl
  | cons id ids ih => simp [mergeRun_cons, ih]

/-! ## Name by name -/

/-- The identities of one name, in order. -/
def ofName (n : ChannelName) (xs : List ChannelIdentity) : List ChannelIdentity :=
  xs.filter (fun id => id.name = n)

theorem mem_ofName {n : ChannelName} {xs : List ChannelIdentity} {id : ChannelIdentity} :
    id ∈ ofName n xs ↔ id ∈ xs ∧ id.name = n := by
  simp [ofName]

/-- One name of a run sees only the identities of that name. -/
theorem getRaw_mergeRun (r : Registry) (xs : List ChannelIdentity) (n : ChannelName) :
    (r.mergeRun xs).1.getRaw n =
      (ofName n xs).foldl (KeyMerge.mergeSlot ChannelIdentity.key) (r.getRaw n) := by
  induction xs generalizing r with
  | nil => rfl
  | cons id ids ih =>
      rw [mergeRun_cons, ih, getRaw_mergeTracked]
      by_cases hn : id.name = n
      · simp [ofName, hn]
      · simp [ofName, hn]

theorem getRaw_mergeRun_new (xs : List ChannelIdentity) (n : ChannelName) :
    (new.mergeRun xs).1.getRaw n = KeyMerge.mergeList ChannelIdentity.key (ofName n xs) := by
  rw [getRaw_mergeRun, getRaw_new, KeyMerge.mergeList]

/-- Runs over the same identities end at the same key for every name. -/
theorem mergeRun_keys_eq {xs ys : List ChannelIdentity} (h : ∀ id, id ∈ xs ↔ id ∈ ys)
    (n : ChannelName) :
    ((new.mergeRun xs).1.getRaw n).map ChannelIdentity.key =
      ((new.mergeRun ys).1.getRaw n).map ChannelIdentity.key := by
  rw [getRaw_mergeRun_new, getRaw_mergeRun_new, ← KeyMerge.slotKey_inj]
  apply KeyMerge.slotKey_mergeList
  intro id
  rw [mem_ofName, mem_ofName, h]

/-- They end in the same MAP when keys separate the identities of a name. -/
theorem mergeRun_eq_of_keys_separate {xs ys : List ChannelIdentity}
    (h : ∀ id, id ∈ xs ↔ id ∈ ys)
    (hkey : ∀ a ∈ xs, ∀ b ∈ xs, a.name = b.name → a.key = b.key → a = b) :
    (new.mergeRun xs).1 = (new.mergeRun ys).1 := by
  apply ext_getRaw
  intro n
  rw [getRaw_mergeRun_new, getRaw_mergeRun_new]
  apply KeyMerge.mergeList_eq_of_mem_iff
  · intro id
    rw [mem_ofName, mem_ofName, h]
  · intro a ha b hb hab
    obtain ⟨ha, han⟩ := mem_ofName.mp ha
    obtain ⟨hb, hbn⟩ := mem_ofName.mp hb
    exact hkey a ha b hb (han.trans hbn.symm) hab

/-! ## What the merges of a run report -/

theorem keyAt_le_mergeRun (r : Registry) (xs : List ChannelIdentity) (n : ChannelName) :
    r.keyAt n ≤ (r.mergeRun xs).1.keyAt n := by
  induction xs generalizing r with
  | nil => exact le_rfl
  | cons id ids ih => exact (keyAt_le_mergeTracked r id n).trans (ih _)

/-- An identity already merged is at most what its name now stands at. -/
theorem key_le_keyAt_of_mem {r : Registry} {xs : List ChannelIdentity} {id : ChannelIdentity}
    (h : id ∈ xs) : (id.key : WithBot OrderingKey) ≤ (r.mergeRun xs).1.keyAt id.name := by
  induction xs generalizing r with
  | nil => cases h
  | cons x xs ih =>
      rcases List.mem_cons.mp h with rfl | h
      · exact (key_le_keyAt_mergeTracked r id).trans (keyAt_le_mergeRun _ xs _)
      · exact ih h

/-- Merging only what the map already dominates changes nothing. -/
theorem mergeRun_unchanged {r : Registry} {xs : List ChannelIdentity}
    (h : ∀ id ∈ xs, (id.key : WithBot OrderingKey) ≤ r.keyAt id.name) :
    ∀ m ∈ (r.mergeRun xs).2, m.changed = false := by
  induction xs generalizing r with
  | nil => simp [mergeRun_nil]
  | cons id ids ih =>
      rw [mergeRun_cons]
      intro m hm
      rcases List.mem_cons.mp hm with rfl | hm
      · rw [← Bool.not_eq_true, mergeTracked_changed]
        exact not_lt.mpr (h id (by simp))
      · refine ih (fun x hx => ?_) m hm
        exact (h x (by simp [hx])).trans (keyAt_le_mergeTracked r id _)

/-- A change report is a strict improvement of the stored key, or the first
entry of its name. -/
theorem changed_iff_improves (r : Registry) (id : ChannelIdentity) :
    (r.mergeTracked id).2.changed = true ↔
      r.getRaw id.name = none ∨
      ∃ old new', r.getRaw id.name = some old ∧
        (r.mergeTracked id).1.getRaw id.name = some new' ∧ old.key < new'.key := by
  have hafter := keyAt_mergeTracked r id id.name
  rw [if_pos rfl, keyAt, getRaw_mergeTracked_winner, KeyMerge.slotKey_some] at hafter
  rw [mergeTracked_changed, getRaw_mergeTracked_winner]
  cases h : r.getRaw id.name with
  | none => simp [keyAt, h]
  | some old =>
      simp only [keyAt, h, KeyMerge.slotKey_some] at hafter ⊢
      rw [WithBot.coe_lt_coe]
      rw [← WithBot.coe_max, WithBot.coe_inj] at hafter
      constructor
      · intro hlt
        refine .inr ⟨old, _, rfl, rfl, ?_⟩
        rw [hafter]
        exact lt_max_of_lt_right hlt
      · rintro (hnone | ⟨o, w, ho, hw, hlt⟩)
        · cases hnone
        · cases ho
          cases hw
          rw [hafter] at hlt
          exact (lt_max_iff.mp hlt).resolve_left (lt_irrefl _)

/-- The report of the merge at a given position of a run. -/
theorem mergeRun_report_at (r : Registry) (before after : List ChannelIdentity)
    (id : ChannelIdentity) :
    (r.mergeRun (before ++ id :: after)).2[before.length]? =
      some ((r.mergeRun before).1.mergeTracked id).2 := by
  rw [mergeRun_append, mergeRun_cons]
  simp only
  rw [List.getElem?_append_right (by rw [length_mergeRun]), length_mergeRun]
  simp

/-- **Registry convergence.** Two runs over the same set of identities hold
the same names at the same keys, and are the same map when no two distinct
identities of a name share a key. Along a run a merge reports a change
exactly on a strict improvement, so a tail of repeats reports none. -/
theorem registry_converges (xs ys : List ChannelIdentity) (h : ∀ id, id ∈ xs ↔ id ∈ ys) :
    (∀ n, ((new.mergeRun xs).1.getRaw n).map ChannelIdentity.key =
        ((new.mergeRun ys).1.getRaw n).map ChannelIdentity.key) ∧
    ((∀ a ∈ xs, ∀ b ∈ xs, a.name = b.name → a.key = b.key → a = b) →
        (new.mergeRun xs).1 = (new.mergeRun ys).1) ∧
    (∀ before id after, xs = before ++ id :: after →
      ∃ m, (new.mergeRun xs).2[before.length]? = some m ∧
        (m.changed = true ↔
          (new.mergeRun before).1.getRaw id.name = none ∨
          ∃ old new', (new.mergeRun before).1.getRaw id.name = some old ∧
            (new.mergeRun (before ++ [id])).1.getRaw id.name = some new' ∧
            old.key < new'.key)) ∧
    (∀ before tail, xs = before ++ tail → (∀ id ∈ tail, id ∈ before) →
      ∀ m ∈ (new.mergeRun xs).2.drop before.length, m.changed = false) := by
  refine ⟨mergeRun_keys_eq h, mergeRun_eq_of_keys_separate h, ?_, ?_⟩
  · rintro before id after rfl
    refine ⟨_, mergeRun_report_at new before after id, ?_⟩
    rw [mergeRun_append, mergeRun_cons]
    exact changed_iff_improves _ id
  · rintro before tail rfl htail
    rw [mergeRun_append, List.drop_append_of_le_length (by rw [length_mergeRun]),
      ← length_mergeRun new before, List.drop_length, List.nil_append]
    exact mergeRun_unchanged fun id hid => key_le_keyAt_of_mem (htail id hid)

/-- A registration, the tombstone of its generation and the reclaim. -/
def sampleEvents : List ChannelIdentity :=
  let reg : ChannelIdentity :=
    { name := "c", owner := 1, regionSize := 4096, mtu := 0, earliestIndex := 0,
      registeredAtNanos := 100, epoch := 0, deleted := false, memberOf := none }
  [reg, { reg with deleted := true },
    { reg with owner := 3, registeredAtNanos := 300, epoch := 1 }]

theorem registry_converges_reversed :
    (new.mergeRun sampleEvents).1 =
      (new.mergeRun (sampleEvents.reverse ++ sampleEvents)).1 :=
  (registry_converges sampleEvents (sampleEvents.reverse ++ sampleEvents) (by simp)).2.1
    (by decide)

end Registry

end XchannelNet
