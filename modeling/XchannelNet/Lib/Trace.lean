import Mathlib.Data.List.Basic

/-!
# Trace — a machine driven by a list of events

The state a list of events leads to, and three rules about it. What every
event keeps holds after all of them. A view of the state that moves by a step
of its own moves so along the whole list. And what the view's step ignores can
be deleted from the list: two runs that differ in nothing else look the same.
-/

namespace Trace

variable {σ τ ε : Type*}

/-- The state after the events, in order. -/
def run (step : σ → ε → σ) (s : σ) (es : List ε) : σ := es.foldl step s

@[simp] theorem run_nil (step : σ → ε → σ) (s : σ) : run step s [] = s := rfl

@[simp] theorem run_cons (step : σ → ε → σ) (s : σ) (e : ε) (es : List ε) :
    run step s (e :: es) = run step (step s e) es := rfl

@[simp] theorem run_append (step : σ → ε → σ) (s : σ) (es es' : List ε) :
    run step s (es ++ es') = run step (run step s es) es' := List.foldl_append

variable {step : σ → ε → σ} {astep : τ → ε → τ} {I : σ → Prop} {s : σ}

/-- **Invariant rule.** -/
theorem run_invariant (hstep : ∀ s e, I s → I (step s e)) (h : I s) (es : List ε) :
    I (run step s es) := by
  induction es generalizing s with
  | nil => exact h
  | cons e es ih => exact ih (hstep s e h)

/-- **Simulation rule**: a view that each event moves by `astep`. -/
theorem view_run {view : σ → τ} (hstep : ∀ s e, I s → I (step s e))
    (hview : ∀ s e, I s → view (step s e) = astep (view s) e) (h : I s) (es : List ε) :
    view (run step s es) = run astep (view s) es := by
  induction es generalizing s with
  | nil => rfl
  | cons e es ih => rw [run_cons, ih (hstep s e h), hview s e h, run_cons]

/-- **Deletion rule**: events that change nothing may as well not happen. -/
theorem run_filter {p : ε → Bool} (hskip : ∀ t e, p e = false → astep t e = t) (t : τ)
    (es : List ε) : run astep t (es.filter p) = run astep t es := by
  induction es generalizing t with
  | nil => rfl
  | cons e es ih =>
      cases hp : p e with
      | true => rw [List.filter_cons_of_pos hp, run_cons, run_cons, ih]
      | false => rw [List.filter_cons_of_neg (by simp [hp]), ih, run_cons, hskip t e hp]

end Trace
