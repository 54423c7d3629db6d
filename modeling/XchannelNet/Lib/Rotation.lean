import Mathlib.Data.List.Range
import Mathlib.Data.Nat.ModEq

/-!
# Rotation — a cursor that goes round a list

A walk starts at the cursor and goes round. How far a place is ahead of the
cursor falls by what the cursor moves, as long as it does not move past the
place. So a cursor that moves by `b` whenever it leaves a place out cannot leave
it out `⌈n / b⌉` times.
-/

namespace Rotation

variable {n : ℕ}

/-- How far `j` is ahead of the cursor, going round. -/
def ahead (n cursor j : ℕ) : ℕ := (j + (n - cursor % n)) % n

theorem ahead_lt (hn : 0 < n) (cursor j : ℕ) : ahead n cursor j < n := Nat.mod_lt _ hn

/-- The place that many steps on. -/
theorem add_ahead_mod {j : ℕ} (hj : j < n) (cursor : ℕ) :
    (cursor % n + ahead n cursor j) % n = j := by
  have hlt : cursor % n < n := Nat.mod_lt _ (by omega)
  rw [ahead, Nat.add_mod_mod]
  have hround : cursor % n + (j + (n - cursor % n)) = j + n := by omega
  rw [hround, Nat.add_mod_right, Nat.mod_eq_of_lt hj]

/-- A place is ahead by less than a round, and by nothing else. -/
theorem ahead_unique {j d : ℕ} (hj : j < n) (cursor : ℕ) (hd : d < n)
    (h : (cursor % n + d) % n = j) : ahead n cursor j = d := by
  have hround : cursor % n + ahead n cursor j ≡ cursor % n + d [MOD n] :=
    (add_ahead_mod hj cursor).trans h.symm
  have hmod := Nat.ModEq.add_left_cancel' _ hround
  rwa [Nat.ModEq, Nat.mod_eq_of_lt (ahead_lt (by omega) _ _), Nat.mod_eq_of_lt hd] at hmod

/-- A cursor that moves, and not past `j`. -/
theorem ahead_advance {j : ℕ} (hj : j < n) {cursor b : ℕ} (hb : b ≤ ahead n cursor j) :
    ahead n (cursor % n + b) j = ahead n cursor j - b := by
  have hlt := ahead_lt (Nat.zero_lt_of_lt hj) cursor j
  refine ahead_unique hj _ (by omega) ?_
  rw [Nat.mod_add_mod, Nat.add_assoc, Nat.add_sub_cancel' hb]
  exact add_ahead_mod hj cursor

/-- **Nobody is left out for long**: a cursor that moves by `b`, and not past
`j`, whenever `j` is not served serves it within `⌈n / b⌉` rounds. -/
theorem served_within {j b : ℕ} (hj : j < n) (hb : 0 < b) (cursor : ℕ → ℕ) {served : ℕ → Prop}
    (hstep : ∀ k, (∀ k' ≤ k, ¬ served k') →
      b ≤ ahead n (cursor k) j ∧ cursor (k + 1) = cursor k % n + b) :
    ∃ k < (n + b - 1) / b, served k := by
  by_contra hnone
  simp only [not_exists, not_and] at hnone
  have hfall : ∀ k ≤ (n + b - 1) / b, ahead n (cursor k) j + k * b ≤ n - 1 := by
    intro k
    induction k with
    | zero =>
        intro _
        have hlt := ahead_lt (Nat.zero_lt_of_lt hj) (cursor 0) j
        omega
    | succ k ih =>
        intro hk
        obtain ⟨hle, hcursor⟩ := hstep k fun k' hk' => hnone k' (by omega)
        have hprev := ih (by omega)
        rw [hcursor, ahead_advance hj hle, Nat.succ_mul]
        omega
  have hlast := hfall _ (Nat.le_refl _)
  have hround : n ≤ (n + b - 1) / b * b := by
    have hdiv := Nat.div_add_mod (n + b - 1) b
    have hmod := Nat.mod_lt (n + b - 1) hb
    rw [Nat.mul_comm] at hdiv
    omega
  omega

/-! ## The first that match -/

variable {p : ℕ → Bool}

/-- A match with fewer than `b` before it is among the first `b`. -/
theorem mem_take_filter_range {d b : ℕ} (hd : d < n) (hp : p d = true)
    (h : ((List.range d).filter p).length < b) : d ∈ ((List.range n).filter p).take b := by
  obtain ⟨rest, hrest⟩ : ∃ rest, List.range n = List.range d ++ d :: rest := by
    obtain ⟨m, rfl⟩ := Nat.exists_eq_add_of_lt hd
    refine ⟨(List.range m).map (d + 1 + ·), ?_⟩
    rw [show d + m + 1 = d + 1 + m by omega, List.range_add, List.range_succ, List.append_assoc,
      List.singleton_append]
  rw [hrest, List.filter_append, List.filter_cons_of_pos hp, List.take_append]
  refine List.mem_append_right _ ?_
  obtain ⟨k, hk⟩ := Nat.exists_eq_add_of_lt h
  rw [show b - ((List.range d).filter p).length = k + 1 by omega, List.take_succ_cons]
  exact List.mem_cons_self

theorem length_filter_range_le {d : ℕ} (hd : d ≤ n) :
    ((List.range d).filter p).length ≤ ((List.range n).filter p).length :=
  ((List.range_sublist.mpr hd).filter p).length_le

end Rotation
