import Mathlib.Order.WithBot
import Mathlib.Order.Lattice
import Mathlib.Order.MinMax
import Mathlib.Data.List.Induction

/-!
# KeyMerge — a register merged by a key

A register holds at most one value. Merging a value into it keeps whichever
of the two has the larger key, and keeps the value already held when the
keys tie. The key lives in a linear order; the values may carry any amount
of data the key does not see, so the merge is a join of KEYS and not of
values: `slotKey_mergeList` says which key a run of merges ends with,
`mergeList_eq_of_mem_iff` when the value itself is determined too.
-/

namespace KeyMerge

variable {α κ : Type*} {key : α → κ}

/-- The key a register stands at; an empty one is below every key. -/
def slotKey (key : α → κ) : Option α → WithBot κ
  | none => ⊥
  | some a => key a

@[simp] theorem slotKey_none : slotKey key none = ⊥ := rfl

@[simp] theorem slotKey_some (a : α) : slotKey key (some a) = (key a : WithBot κ) := rfl

theorem slotKey_inj {r r' : Option α} :
    slotKey key r = slotKey key r' ↔ r.map key = r'.map key := by
  cases r <;> cases r' <;> simp

variable [LinearOrder κ]

/-- The larger of two values by key; the first one on a tie. -/
def pick (key : α → κ) (a b : α) : α :=
  if key a < key b then b else a

theorem key_pick (a b : α) : key (pick key a b) = max (key a) (key b) := by
  rw [pick]
  split
  · rename_i h
    exact (max_eq_right h.le).symm
  · rename_i h
    exact (max_eq_left (not_lt.mp h)).symm

theorem pick_choice (key : α → κ) (a b : α) : pick key a b = a ∨ pick key a b = b := by
  rw [pick]
  split
  · exact .inr rfl
  · exact .inl rfl

theorem pick_eq_left_of_le {a b : α} (h : key b ≤ key a) : pick key a b = a :=
  if_neg (not_lt.mpr h)

theorem pick_eq_right_of_lt {a b : α} (h : key a < key b) : pick key a b = b :=
  if_pos h

/-- Merge a value into a register. -/
def mergeSlot (key : α → κ) : Option α → α → Option α
  | none, b => some b
  | some a, b => some (pick key a b)

theorem slotKey_mergeSlot (r : Option α) (b : α) :
    slotKey key (mergeSlot key r b) = max (slotKey key r) (key b : WithBot κ) := by
  cases r with
  | none => simp [mergeSlot]
  | some a => simp [mergeSlot, key_pick]

/-- What a register holds after a merge it held before, or it just came in. -/
theorem mergeSlot_choice {r : Option α} {a b : α} (h : mergeSlot key r b = some a) :
    r = some a ∨ a = b := by
  cases r with
  | none =>
      simp only [mergeSlot, Option.some.injEq] at h
      exact .inr h.symm
  | some c =>
      simp only [mergeSlot, Option.some.injEq] at h
      subst h
      exact (pick_choice key c b).imp (congrArg some ·.symm) id

/-- A merge moves the register exactly when the incoming key is strictly
above the one held: a tie keeps the value already there. -/
theorem mergeSlot_ne_iff (r : Option α) (b : α) :
    mergeSlot key r b ≠ r ↔ slotKey key r < (key b : WithBot κ) := by
  cases r with
  | none => simp [mergeSlot]
  | some a =>
      simp only [mergeSlot, slotKey_some, ne_eq, Option.some.injEq, WithBot.coe_lt_coe]
      constructor
      · intro h
        by_contra hle
        exact h (pick_eq_left_of_le (not_lt.mp hle))
      · intro h heq
        rw [pick_eq_right_of_lt h] at heq
        rw [heq] at h
        exact lt_irrefl _ h

/-- Merge a list of values, left to right, into an empty register. -/
def mergeList (key : α → κ) (l : List α) : Option α :=
  l.foldl (mergeSlot key) none

theorem mergeList_concat (l : List α) (b : α) :
    mergeList key (l ++ [b]) = mergeSlot key (mergeList key l) b := by
  simp [mergeList]

/-- What a run of merges leaves behind came in with it. -/
theorem mergeList_mem {l : List α} {a : α} (h : mergeList key l = some a) : a ∈ l := by
  induction l using List.reverseRecOn generalizing a with
  | nil => simp [mergeList] at h
  | append_singleton l b ih =>
      rw [mergeList_concat] at h
      rcases mergeSlot_choice h with hl | rfl
      · exact List.mem_append_left _ (ih hl)
      · exact List.mem_append_right _ (List.mem_singleton_self a)

/-- The register ends at the largest key merged: it bounds every key of the
list, and is itself one of them (or `⊥`). -/
theorem slotKey_mergeList_le_iff {l : List α} {k : WithBot κ} :
    slotKey key (mergeList key l) ≤ k ↔ ∀ b ∈ l, (key b : WithBot κ) ≤ k := by
  induction l using List.reverseRecOn with
  | nil => simp [mergeList]
  | append_singleton l b ih =>
      rw [mergeList_concat, slotKey_mergeSlot, max_le_iff, ih]
      constructor
      · rintro ⟨hl, hb⟩ c hc
        rcases List.mem_append.mp hc with hc | hc
        · exact hl c hc
        · rw [List.mem_singleton.mp hc]
          exact hb
      · intro h
        exact ⟨fun c hc => h c (List.mem_append_left _ hc), h b (by simp)⟩

/-- **Key convergence**: the key a run of merges ends with depends only on
WHICH values were merged, not on their order or multiplicity. -/
theorem slotKey_mergeList (key : α → κ) {l l' : List α} (h : ∀ a, a ∈ l ↔ a ∈ l') :
    slotKey key (mergeList key l) = slotKey key (mergeList key l') := by
  apply le_antisymm
  · exact slotKey_mergeList_le_iff.mpr fun b hb =>
      slotKey_mergeList_le_iff.mp le_rfl b ((h b).mp hb)
  · exact slotKey_mergeList_le_iff.mpr fun b hb =>
      slotKey_mergeList_le_iff.mp le_rfl b ((h b).mpr hb)

/-- Value convergence needs the key to separate the values merged. -/
theorem mergeList_eq_of_mem_iff {l l' : List α} (h : ∀ a, a ∈ l ↔ a ∈ l')
    (hkey : ∀ a ∈ l, ∀ b ∈ l, key a = key b → a = b) :
    mergeList key l = mergeList key l' := by
  have hk := slotKey_mergeList key h
  cases hl : mergeList key l with
  | none =>
      cases hl' : mergeList key l' with
      | none => rfl
      | some b => simp [hl, hl'] at hk
  | some a =>
      cases hl' : mergeList key l' with
      | none => simp [hl, hl'] at hk
      | some b =>
          simp only [hl, hl', slotKey_some, WithBot.coe_inj] at hk
          exact congrArg some
            (hkey a (mergeList_mem hl) b ((h b).mpr (mergeList_mem hl')) hk)

end KeyMerge
