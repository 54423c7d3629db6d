import Mathlib.Logic.Function.Basic
import Mathlib.Data.List.Nodup

/-!
# Assign — a function updated from a list of entries

Inserting a list of keyed values into a map, later entries over earlier ones.
With one entry per key the result reads off the list; a key no entry has is
left alone.
-/

variable {α κ ν : Type*} [DecidableEq κ] (key : α → κ) (val : α → ν)

/-- `g` with the values of `es` at their keys. -/
def assign (g : κ → ν) (es : List α) : κ → ν :=
  es.foldl (fun g e => Function.update g (key e) (val e)) g

variable {key val}

theorem assign_cons (g : κ → ν) (e : α) (es : List α) :
    assign key val g (e :: es) = assign key val (Function.update g (key e) (val e)) es := rfl

theorem assign_of_not_mem {g : κ → ν} {es : List α} {k : κ} (h : ∀ e ∈ es, key e ≠ k) :
    assign key val g es k = g k := by
  induction es generalizing g with
  | nil => rfl
  | cons e es ih =>
      rw [assign_cons, ih fun x hx => h x (List.mem_cons_of_mem _ hx)]
      exact Function.update_of_ne (h e List.mem_cons_self).symm _ _

theorem assign_of_mem (key : α → κ) (val : α → ν) {g : κ → ν} {es : List α}
    (hnd : (es.map key).Nodup) {e : α} (he : e ∈ es) : assign key val g es (key e) = val e := by
  induction es generalizing g with
  | nil => cases he
  | cons x es ih =>
      rw [List.map_cons, List.nodup_cons] at hnd
      rw [assign_cons]
      rcases List.mem_cons.mp he with rfl | he
      · rw [assign_of_not_mem, Function.update_self]
        intro y hy hk
        exact hnd.1 (hk ▸ List.mem_map_of_mem hy)
      · exact ih hnd.2 he

/-- A value that was not there before is some entry's. -/
theorem assign_mem_or (key : α → κ) (val : α → ν) (g : κ → ν) (es : List α) (k : κ) :
    (∃ e ∈ es, key e = k ∧ assign key val g es k = val e) ∨
      (∀ e ∈ es, key e ≠ k) ∧ assign key val g es k = g k := by
  induction es generalizing g with
  | nil => exact .inr ⟨by simp, rfl⟩
  | cons x es ih =>
      rw [assign_cons]
      rcases ih (Function.update g (key x) (val x)) with ⟨e, he, hk, hv⟩ | ⟨hne, hv⟩
      · exact .inl ⟨e, List.mem_cons_of_mem _ he, hk, hv⟩
      · by_cases hk : key x = k
        · exact .inl ⟨x, List.mem_cons_self, hk, by rw [hv, ← hk, Function.update_self]⟩
        · refine .inr ⟨fun e he => ?_, by rw [hv, Function.update_of_ne (Ne.symm hk)]⟩
          rcases List.mem_cons.mp he with rfl | he
          · exact hk
          · exact hne e he

/-- Where an entry has the key, what was there before does not matter. -/
theorem assign_congr (g g' : κ → ν) {es : List α} {k : κ} (h : ∃ e ∈ es, key e = k) :
    assign key val g es k = assign key val g' es k := by
  induction es generalizing g g' with
  | nil =>
      obtain ⟨e, he, -⟩ := h
      cases he
  | cons x es ih =>
      rw [assign_cons, assign_cons]
      by_cases hrest : ∃ e ∈ es, key e = k
      · exact ih _ _ hrest
      · -- the entry with the key is the first one, and nothing after it touches the key
        have hne : ∀ e ∈ es, key e ≠ k := fun e he hk => hrest ⟨e, he, hk⟩
        obtain ⟨e, he, hk⟩ := h
        rcases List.mem_cons.mp he with rfl | he
        · rw [assign_of_not_mem hne, assign_of_not_mem hne, ← hk, Function.update_self,
            Function.update_self]
        · exact absurd hk (hne e he)
