import Mathlib.Logic.Relation
import Mathlib.Order.WellFounded

/-!
# Run — reachable states of a step relation

States reachable from a set of initial states, and the one induction every
safety argument goes through. A guarded run is a run of a smaller relation.
Where what happens next can be computed from a command, so can a whole run.
-/

namespace Run

variable {σ : Type*} {init : σ → Prop} {step : σ → σ → Prop}

/-- The states a run from an initial state can be in. -/
inductive Reachable (init : σ → Prop) (step : σ → σ → Prop) : σ → Prop
  | start {s : σ} (h : init s) : Reachable init step s
  | next {s s' : σ} (hs : Reachable init step s) (h : step s s') : Reachable init step s'

/-- **Invariant rule**: what holds initially and is kept by each step holds
in every reachable state. -/
theorem Reachable.invariant {Inv : σ → Prop} {s : σ} (h : Reachable init step s)
    (hinit : ∀ s, init s → Inv s) (hstep : ∀ s s', Inv s → step s s' → Inv s') : Inv s := by
  induction h with
  | start h => exact hinit _ h
  | next _ h ih => exact hstep _ _ ih h

theorem Reachable.steps {s s' : σ} (h : Reachable init step s)
    (hs : Relation.ReflTransGen step s s') : Reachable init step s' := by
  induction hs with
  | refl => exact h
  | tail _ hlast ih => exact ih.next hlast

/-- What is reachable from one state is what its steps lead to. -/
theorem Reachable.reflTransGen {s s' : σ} (h : Reachable (Eq s) step s') :
    Relation.ReflTransGen step s s' :=
  h.invariant (fun _ h => h ▸ .refl) fun _ _ => Relation.ReflTransGen.tail

/-- **Simulation rule**: where every step is matched by some steps of another
system, or by none, so is every run. -/
theorem Reachable.simulated {τ : Type*} {init' : τ → Prop} {step' : τ → τ → Prop}
    {R : σ → τ → Prop} {s : σ} (h : Reachable init step s)
    (hinit : ∀ s, init s → ∃ t, init' t ∧ R s t)
    (hstep : ∀ s s' t, R s t → step s s' →
      ∃ t', Relation.ReflTransGen step' t t' ∧ R s' t') :
    ∃ t, Reachable init' step' t ∧ R s t := by
  induction h with
  | start h =>
      obtain ⟨t, ht, hR⟩ := hinit _ h
      exact ⟨t, .start ht, hR⟩
  | next _ h ih =>
      obtain ⟨t, ht, hR⟩ := ih
      obtain ⟨t', hsteps, hR'⟩ := hstep _ _ t hR h
      exact ⟨t', ht.steps hsteps, hR'⟩

/-! ## Runs that end -/

/-- No run from `s` goes on forever. -/
def Terminates (step : σ → σ → Prop) (s : σ) : Prop :=
  ∀ run : ℕ → σ, run 0 = s → ¬ ∀ i, step (run i) (run (i + 1))

theorem terminates_iff_acc {s : σ} : Terminates step s ↔ Acc (fun s' s => step s s') s := by
  rw [← not_iff_not, not_acc_iff_exists_descending_chain]
  simp [Terminates]

/-- **Measure rule**: an invariant under which every step decreases. -/
theorem terminates_of_measure {α : Type*} [LT α] [WellFoundedLT α] {I : σ → Prop} (m : σ → α)
    (hstep : ∀ s s', I s → step s s' → I s' ∧ m s' < m s) {s : σ} (h : I s) :
    Terminates step s := by
  rw [terminates_iff_acc]
  induction hm : m s using WellFoundedLT.induction generalizing s with
  | ind x ih =>
      subst hm
      refine ⟨s, fun s' hs' => ?_⟩
      obtain ⟨hI, hlt⟩ := hstep s s' h hs'
      exact ih (m s') hlt hI rfl

/-- A way back to where one was can be gone forever. -/
theorem not_terminates_of_cycle {s : σ} (h : Relation.TransGen step s s) :
    ¬ Terminates step s := by
  rw [terminates_iff_acc]
  intro hacc
  have hcycle : Relation.TransGen (fun s' s => step s s') s s := Relation.transGen_swap.mpr h
  exact not_acc_iff_exists_descending_chain.mpr ⟨fun _ => s, rfl, fun _ => hcycle⟩ hacc.transGen

section Computed

variable {κ α : Type*} (perform : σ → κ → Option (α × σ)) (ok : σ → α → σ → Prop)
  [∀ s a s', Decidable (ok s a s')]

/-- Perform commands one after the other, each as long as `ok` allows it. -/
def runs : σ → List κ → Option σ
  | s, [] => some s
  | s, cmd :: cmds =>
    match perform s cmd with
    | none => none
    | some (a, s') => if ok s a s' then runs s' cmds else none

variable {perform ok}

theorem reachable_of_runs
    (hstep : ∀ s cmd a s', perform s cmd = some (a, s') → ok s a s' → step s s')
    {s s' : σ} {cmds : List κ} (hs : Reachable init step s)
    (h : runs perform ok s cmds = some s') : Reachable init step s' := by
  induction cmds generalizing s with
  | nil =>
      cases h
      exact hs
  | cons cmd cmds ih =>
      simp only [runs] at h
      split at h
      · cases h
      · rename_i a s₁ hp
        split at h
        · exact ih (hs.next (hstep s cmd a s₁ hp ‹_›)) h
        · cases h

variable (init step perform ok)

/-- A state with a decidable property that a computed run leads to. -/
theorem exists_reachable
    (hstep : ∀ s cmd a s', perform s cmd = some (a, s') → ok s a s' → step s s')
    (s : σ) (cmds : List κ) (P : σ → Prop) [DecidablePred P] (h₀ : init s)
    (h : (runs perform ok s cmds).any (fun s => decide (P s)) = true) :
    ∃ s', Reachable init step s' ∧ P s' := by
  cases hs : runs perform ok s cmds with
  | none =>
      rw [hs] at h
      cases h
  | some s' =>
      rw [hs] at h
      exact ⟨s', reachable_of_runs hstep (.start h₀) hs, of_decide_eq_true h⟩

/-- The same where whether a command may be given is decided before. -/
theorem exists_reachable_partial (perform : σ → κ → Option σ) (allowed : σ → κ → Prop)
    [∀ s, DecidablePred (allowed s)]
    (hstep : ∀ s cmd s', allowed s cmd → perform s cmd = some s' → step s s')
    (s : σ) (cmds : List κ) (P : σ → Prop) [DecidablePred P] (h₀ : init s)
    (h : (runs (fun s cmd => (perform s cmd).map (cmd, ·)) (fun s cmd _ => allowed s cmd) s
      cmds).any (fun s => decide (P s)) = true) : ∃ s', Reachable init step s' ∧ P s' := by
  refine exists_reachable init step _ _ ?_ s cmds P h₀ h
  intro s cmd a s' hs hok
  obtain ⟨s₁, hs₁, heq⟩ := Option.map_eq_some_iff.mp hs
  cases heq
  exact hstep s cmd s' hok hs₁

/-- And where a command always does something. -/
theorem exists_reachable_perform (perform : σ → κ → σ) (allowed : σ → κ → Prop)
    [∀ s, DecidablePred (allowed s)] (hstep : ∀ s cmd, allowed s cmd → step s (perform s cmd))
    (s : σ) (cmds : List κ) (P : σ → Prop) [DecidablePred P] (h₀ : init s)
    (h : (runs (fun s cmd => some (cmd, perform s cmd)) (fun s cmd _ => allowed s cmd) s cmds).any
      (fun s => decide (P s)) = true) : ∃ s', Reachable init step s' ∧ P s' := by
  refine exists_reachable_partial init step (fun s cmd => some (perform s cmd)) allowed ?_ s cmds P
    h₀ h
  intro s cmd s' hok hs
  cases hs
  exact hstep s cmd hok

/-- A computed run of at least one step. -/
theorem transGen_of_runs
    (hstep : ∀ s cmd a s', perform s cmd = some (a, s') → ok s a s' → step s s')
    (s : σ) (cmds : List κ) {s' : σ} (hne : cmds ≠ []) (h : runs perform ok s cmds = some s') :
    Relation.TransGen step s s' := by
  induction cmds generalizing s with
  | nil => exact absurd rfl hne
  | cons cmd cmds ih =>
      simp only [runs] at h
      split at h
      · cases h
      · rename_i a s₁ hp
        split at h
        · have hfirst := hstep s cmd a s₁ hp ‹_›
          cases cmds with
          | nil =>
              cases h
              exact .single hfirst
          | cons cmd' cmds => exact .head hfirst (ih s₁ (List.cons_ne_nil _ _) h)
        · cases h

end Computed

end Run
