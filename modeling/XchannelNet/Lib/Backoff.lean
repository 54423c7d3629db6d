import Mathlib.Data.List.Basic
import Mathlib.Order.Basic

/-!
# Backoff — attempts ever further apart

After an attempt the next one has to wait out a gap. The gap doubles from one
attempt to the next up to a ceiling, and starts over once the last attempt is
twice the ceiling ago.

How often something is tried in any stretch of time is found by the potential
method. An attempt that comes soon after the last one is paid for by the gap
having grown; the gap falls back only after a long time without attempts, and
that time pays.
-/

namespace Backoff

variable {lo hi : ℕ}

/-- The gap of an attempt made `elapsed` after one with gap `gap`. -/
def next (lo hi gap elapsed : ℕ) : ℕ :=
  if elapsed < hi * 2 then min (gap * 2) hi else lo

/-- The gap of an attempt made now, by when the last one was and its gap. -/
def charge (lo hi now : ℕ) : Option (ℕ × ℕ) → ℕ
  | none => lo
  | some (t, gap) => next lo hi gap (now - t)

/-- Attempts, the latest first: when each was made, and the gap charged for it. -/
inductive Spaced (lo hi : ℕ) : List (ℕ × ℕ) → Prop
  | nil : Spaced lo hi []
  | first (t : ℕ) : Spaced lo hi [(t, lo)]
  | again {t gap t' : ℕ} {l : List (ℕ × ℕ)} (h : Spaced lo hi ((t, gap) :: l))
      (hdue : t + gap ≤ t') :
      Spaced lo hi ((t', next lo hi gap (t' - t)) :: (t, gap) :: l)

/-- An attempt that is due is one more. -/
theorem Spaced.cons {l : List (ℕ × ℕ)} (h : Spaced lo hi l) {now : ℕ}
    (hdue : ∀ x ∈ l.head?, x.1 + x.2 ≤ now) :
    Spaced lo hi ((now, charge lo hi now l.head?) :: l) := by
  cases l with
  | nil => exact .first now
  | cons x l => exact .again h (hdue x rfl)

theorem Spaced.tail {x : ℕ × ℕ} {l : List (ℕ × ℕ)} (h : Spaced lo hi (x :: l)) :
    Spaced lo hi l := by
  cases h with
  | first t => exact .nil
  | again h _ => exact h

/-- No attempt is later than the latest. -/
theorem Spaced.le_head {x : ℕ × ℕ} {l : List (ℕ × ℕ)} (h : Spaced lo hi (x :: l)) :
    ∀ y ∈ l, y.1 ≤ x.1 := by
  induction l generalizing x with
  | nil => simp
  | cons y l ih =>
      cases h with
      | again h hdue =>
          intro z hz
          rcases List.mem_cons.mp hz with rfl | hz
          · exact Nat.le_of_add_right_le hdue
          · exact Nat.le_trans (ih h z hz) (Nat.le_of_add_right_le hdue)

/-- A potential of the gaps that occur: an attempt costs `rate`, which the time
since the last one and the rise of the potential pay for. -/
structure Potential (lo hi rate bound : ℕ) where
  Occurs : ℕ → Prop
  level : ℕ → ℕ
  occurs_lo : Occurs lo
  occurs_next : ∀ gap elapsed, Occurs gap → Occurs (next lo hi gap elapsed)
  pays : ∀ gap elapsed, Occurs gap → gap ≤ elapsed →
    rate + level gap ≤ elapsed + level (next lo hi gap elapsed)
  level_le : ∀ gap, Occurs gap → level gap ≤ bound

variable {rate bound : ℕ}

theorem Spaced.occurs (P : Potential lo hi rate bound) {l : List (ℕ × ℕ)} (h : Spaced lo hi l) :
    ∀ x ∈ l, P.Occurs x.2 := by
  induction h with
  | nil => simp
  | first t => simpa using P.occurs_lo
  | again h hdue ih =>
      intro x hx
      rcases List.mem_cons.mp hx with rfl | hx
      · exact P.occurs_next _ _ (ih _ (.head _))
      · exact ih x hx

/-- Attempts from `a` on, up to the latest one. -/
theorem Spaced.countP_since (P : Potential lo hi rate bound) {t gap : ℕ} {l : List (ℕ × ℕ)}
    (h : Spaced lo hi ((t, gap) :: l)) {a : ℕ} (ha : a ≤ t) :
    rate * l.countP (fun x => decide (a ≤ x.1)) + a ≤ t + P.level gap := by
  induction l generalizing t gap with
  | nil => simpa using Nat.le_add_right_of_le ha
  | cons x l ih =>
      cases h with
      | @again t₀ gap₀ _ _ h hdue =>
          have hpays := P.pays gap₀ (t - t₀) (h.occurs P _ (.head _)) (Nat.le_sub_of_add_le' hdue)
          by_cases ha₀ : a ≤ t₀
          · have hlast := ih h ha₀
            rw [List.countP_cons_of_pos (by simpa using ha₀), Nat.mul_add, Nat.mul_one]
            omega
          · have hnone : ((t₀, gap₀) :: l).countP (fun x => decide (a ≤ x.1)) = 0 := by
              rw [List.countP_eq_zero]
              intro x hx
              have hle : x.1 ≤ t₀ := by
                rcases List.mem_cons.mp hx with rfl | hx
                · exact Nat.le_refl _
                · exact h.le_head x hx
              simp only [decide_eq_true_eq]
              omega
            rw [hnone]
            omega

/-- **Attempts in a stretch of time**: over `b - a`, no more than one, and one for
every `rate` of the time and of what the gaps can pay. -/
theorem Spaced.countP_le (P : Potential lo hi rate bound) {l : List (ℕ × ℕ)}
    (h : Spaced lo hi l) (a b : ℕ) :
    rate * l.countP (fun x => decide (a ≤ x.1 ∧ x.1 ≤ b)) ≤ rate + (b - a) + bound := by
  induction l with
  | nil => simp
  | cons x l ih =>
      obtain ⟨t, gap⟩ := x
      by_cases hin : a ≤ t ∧ t ≤ b
      · have hsince := h.countP_since P hin.1
        have hlevel := P.level_le gap (h.occurs P _ (.head _))
        have hall : l.countP (fun x => decide (a ≤ x.1 ∧ x.1 ≤ b)) =
            l.countP fun x => decide (a ≤ x.1) := by
          refine List.countP_congr fun x hx => ?_
          have := h.le_head x hx
          simp only [decide_eq_true_eq]
          omega
        rw [List.countP_cons_of_pos (by simpa using hin), hall, Nat.mul_add, Nat.mul_one]
        omega
      · rw [List.countP_cons_of_neg (by simpa using hin)]
        exact ih h.tail

end Backoff
