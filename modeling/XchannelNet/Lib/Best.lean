import Mathlib.Data.List.Induction
import Mathlib.Order.Bounds.Basic
import Mathlib.Order.Lattice

/-!
# Best — the least candidate per key, in one pass

A pass over a list in which every element may stand as a candidate under a
key; per key the lesser candidate is remembered. What the pass remembers is
the least candidate of the key, and nothing if there is none.
-/

namespace Best

variable {ι κ α : Type*} [DecidableEq κ] [LinearOrder α]

/-- One more candidate. -/
def improve (best : κ → Option α) (k : κ) (c : α) : κ → Option α :=
  Function.update best k <|
    match best k with
    | some b => if c < b then some c else some b
    | none => some c

/-- The pass. -/
def winners (cand : ι → Option (κ × α)) (xs : List ι) : κ → Option α :=
  xs.foldl (fun best x =>
    match cand x with
    | some (k, c) => improve best k c
    | none => best) fun _ => none

omit [DecidableEq κ] [LinearOrder α] in
/-- The candidates under a key. -/
def Candidates (cand : ι → Option (κ × α)) (xs : List ι) (k : κ) : Set α :=
  {c | ∃ x ∈ xs, cand x = some (k, c)}

/-- What is remembered under a key, of the candidates seen. -/
def Remembers (o : Option α) (s : Set α) : Prop :=
  match o with
  | some c => IsLeast s c
  | none => s = ∅

omit [DecidableEq κ] [LinearOrder α] in
theorem candidates_append_singleton (cand : ι → Option (κ × α)) (xs : List ι) (x : ι) (k : κ) :
    Candidates cand (xs ++ [x]) k = Candidates cand xs k ∪ {c | cand x = some (k, c)} := by
  ext c
  simp only [Candidates, List.mem_append, List.mem_singleton, Set.mem_ofPred_eq, Set.mem_union]
  constructor
  · rintro ⟨y, hy | rfl, hc⟩
    · exact .inl ⟨y, hy, hc⟩
    · exact .inr hc
  · rintro (⟨y, hy, hc⟩ | hc)
    · exact ⟨y, .inl hy, hc⟩
    · exact ⟨x, .inr rfl, hc⟩

theorem Remembers.improve {o : Option α} {s : Set α} (h : Remembers o s) (c : α) :
    Remembers (match o with | some b => if c < b then some c else some b | none => some c)
      (s ∪ {c}) := by
  cases o with
  | none =>
      rw [h, Set.empty_union]
      exact isLeast_singleton
  | some b =>
      have hmin : IsLeast (s ∪ {c}) (b ⊓ c) := IsLeast.union h isLeast_singleton
      by_cases hlt : c < b
      · simpa [hlt, Remembers, inf_eq_right.mpr hlt.le] using hmin
      · simpa [hlt, Remembers, inf_eq_left.mpr (not_lt.mp hlt)] using hmin

/-- **The pass finds the least candidate** of every key. -/
theorem remembers_winners (cand : ι → Option (κ × α)) (xs : List ι) (k : κ) :
    Remembers (winners cand xs k) (Candidates cand xs k) := by
  induction xs using List.reverseRecOn with
  | nil => simp [Remembers, winners, Candidates]
  | append_singleton xs x ih =>
      rw [candidates_append_singleton, winners, List.foldl_append]
      change Remembers ((match cand x with
        | some (k', c) => Best.improve (winners cand xs) k' c
        | none => winners cand xs) k) _
      cases hx : cand x with
      | none => simpa using ih
      | some kc =>
          obtain ⟨k', c⟩ := kc
          change Remembers (Best.improve (winners cand xs) k' c k) _
          by_cases hk : k' = k
          · subst hk
            have hset : {c' | some (k', c) = some (k', c')} = {c} := by
              ext c'
              simp [eq_comm]
            rw [hset, Best.improve, Function.update_self]
            exact ih.improve c
          · have hset : {c' | some (k', c) = some (k, c')} = ∅ := by
              ext c'
              simp [hk]
            rw [hset, Set.union_empty, Best.improve, Function.update_of_ne (Ne.symm hk)]
            exact ih

/-- An element wins exactly if no candidate under its key is less. -/
theorem winners_eq_some_iff {cand : ι → Option (κ × α)} {xs : List ι} {x : ι} {k : κ} {c : α}
    (hx : x ∈ xs) (hc : cand x = some (k, c)) :
    winners cand xs k = some c ↔ ∀ y ∈ xs, ∀ c', cand y = some (k, c') → c ≤ c' := by
  have hrem := remembers_winners cand xs k
  have hmem : c ∈ Candidates cand xs k := ⟨x, hx, hc⟩
  constructor
  · intro hw y hy c' hc'
    rw [hw] at hrem
    exact hrem.2 ⟨y, hy, hc'⟩
  · intro hall
    cases hw : winners cand xs k with
    | none =>
        rw [hw] at hrem
        exact absurd hmem (by rw [hrem]; exact id)
    | some b =>
        rw [hw] at hrem
        obtain ⟨y, hy, hb⟩ := hrem.1
        rw [le_antisymm (hrem.2 hmem) (hall y hy b hb)]

end Best
