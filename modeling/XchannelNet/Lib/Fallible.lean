import Mathlib.Logic.Relation
import Mathlib.Order.Basic

/-!
# Fallible — computations that keep the state they failed in

A method that mutates its object and returns early on an error leaves the
object as far changed as it had got. That is `ExceptT` over a state monad,
and what such a computation does to an abstract model is a sequence of the
model's steps. If it stopped on an error of the kind that interrupts (a write
that failed), one further, *torn* step may have happened: half of a step of
the model. Nothing comes after it, because the error ends the computation.
-/

/-- Computations on a state `σ` that may stop with an `ε`. -/
abbrev Fallible (ε σ : Type) := ExceptT ε (StateM σ)

namespace Fallible

variable {ε σ α β : Type}

/-- The result of a computation and the state it leaves. -/
def exec (p : Fallible ε σ α) (s : σ) : Except ε α × σ := p.run s

@[simp] theorem exec_pure (a : α) (s : σ) : exec (pure a : Fallible ε σ α) s = (.ok a, s) := rfl

@[simp] theorem exec_throw (e : ε) (s : σ) :
    exec (throw e : Fallible ε σ α) s = (.error e, s) := rfl

@[simp] theorem exec_get (s : σ) : exec (get : Fallible ε σ σ) s = (.ok s, s) := rfl

@[simp] theorem exec_set (s s' : σ) : exec (set s' : Fallible ε σ PUnit) s = (.ok ⟨⟩, s') := rfl

@[simp] theorem exec_modify (f : σ → σ) (s : σ) :
    exec (modify f : Fallible ε σ PUnit) s = (.ok ⟨⟩, f s) := rfl

theorem exec_bind (p : Fallible ε σ α) (q : α → Fallible ε σ β) (s : σ) :
    exec (p >>= q) s = match exec p s with
      | (.ok a, s') => exec (q a) s'
      | (.error e, s') => (.error e, s') := by
  show (ExceptT.bindCont q (p.run s).1).run (p.run s).2 = _
  rcases h : p.run s with ⟨r, s'⟩
  have h' : exec p s = (r, s') := h
  rw [h']
  cases r <;> rfl

theorem exec_bind_ok {p : Fallible ε σ α} {q : α → Fallible ε σ β} {s s' : σ} {a : α}
    (h : exec p s = (.ok a, s')) : exec (p >>= q) s = exec (q a) s' := by
  rw [exec_bind, h]

theorem exec_bind_error {p : Fallible ε σ α} {q : α → Fallible ε σ β} {s s' : σ} {e : ε}
    (h : exec p s = (.error e, s')) : exec (p >>= q) s = (.error e, s') := by
  rw [exec_bind, h]

/-- The second computation ends a sequence, or the first one's error does. -/
theorem exec_bind_cases (p : Fallible ε σ α) (q : α → Fallible ε σ β) (s : σ) :
    (∃ a s', exec p s = (.ok a, s') ∧ exec (p >>= q) s = exec (q a) s') ∨
      ∃ e s', exec p s = (.error e, s') ∧ exec (p >>= q) s = (.error e, s') := by
  rcases h : exec p s with ⟨r, s'⟩
  cases r with
  | ok a => exact .inl ⟨a, s', rfl, exec_bind_ok h⟩
  | error e => exact .inr ⟨e, s', rfl, exec_bind_error h⟩

/-! ## What is true of a sequence -/

/-- Of the state a computation starts from and how it ends: `T` is true of one
that does nothing, and of a sequence if it is of the parts. -/
structure Sequential (T : (α : Type) → σ → Except ε α × σ → Prop) : Prop where
  pure : ∀ {α : Type} (a : α) (s : σ), T α s (.ok a, s)
  bind : ∀ {α β : Type} {p : Fallible ε σ α} {q : α → Fallible ε σ β} {s : σ},
    T α s (exec p s) → (∀ a s', T β s' (exec (q a) s')) → T β s (exec (p >>= q) s)

/-! ## What a computation leaves alone -/

section Leaves

variable {γ δ : Type} {view : σ → γ}

/-- However `p` ends, `view` of the state is what it was. -/
def Leaves (view : σ → γ) (p : Fallible ε σ α) : Prop := ∀ s, view (exec p s).2 = view s

theorem Leaves.pure (a : α) : Leaves view (pure a : Fallible ε σ α) := fun _ => rfl

theorem Leaves.modify {f : σ → σ} (h : ∀ s, view (f s) = view s) :
    Leaves view (modify f : Fallible ε σ PUnit) := h

theorem Leaves.get {q : σ → Fallible ε σ α} (h : ∀ s, view (exec (q s) s).2 = view s) :
    Leaves view (get >>= q) := h

theorem Leaves.sequential (view : σ → γ) :
    Sequential (ε := ε) fun _ s r => view r.2 = view s where
  pure _ _ := rfl
  bind {α β p q s} hp hq := by
    rcases exec_bind_cases p q s with ⟨a, s₁, h, hend⟩ | ⟨e, s₁, h, hend⟩ <;> rw [h] at hp
    · rw [hend, hq a s₁, hp]
    · rw [hend, hp]

theorem Leaves.bind {p : Fallible ε σ α} {q : α → Fallible ε σ β} (hp : Leaves view p)
    (hq : ∀ a, Leaves view (q a)) : Leaves view (p >>= q) :=
  fun s => (Leaves.sequential view).bind (hp s) hq

end Leaves

/-! ## Where a computation leads -/

section Leads

variable {P Q R : σ → Prop}

/-- From a state of `P`, however `p` ends, it leaves a state of `Q`. -/
def Leads (P : σ → Prop) (p : Fallible ε σ α) (Q : σ → Prop) : Prop := ∀ s, P s → Q (exec p s).2

theorem Leads.pure (a : α) : Leads P (pure a : Fallible ε σ α) P := fun _ h => h

theorem Leads.get {q : σ → Fallible ε σ α} (h : ∀ s, P s → Q (exec (q s) s).2) :
    Leads P (get >>= q) Q := h

/-- The second computation may not be run at all. -/
theorem Leads.bind {p : Fallible ε σ α} {q : α → Fallible ε σ β} (hp : Leads P p Q)
    (hq : ∀ a, Leads Q (q a) R) (hQR : ∀ s, Q s → R s) : Leads P (p >>= q) R := by
  intro s hs
  have hs₁ := hp s hs
  rcases exec_bind_cases p q s with ⟨a, s₁, h, hend⟩ | ⟨e, s₁, h, hend⟩ <;>
    rw [h] at hs₁ <;> rw [hend]
  · exact hq a s₁ hs₁
  · exact hQR s₁ hs₁

end Leads

/-! ## What a computation does -/

section Does

variable (step torn : σ → σ → Prop) (interrupts : ε → Prop)

/-- From `s`, a computation that ended with `r` did whole steps, and what it
returned is as `Q` says; or it did a torn one after them and was interrupted. -/
def Does (Q : α → σ → Prop) (s : σ) (r : Except ε α × σ) : Prop :=
  ∃ s₁, Relation.ReflTransGen step s s₁ ∧
    ((r.2 = s₁ ∧ ∀ x, r.1 = .ok x → Q x s₁) ∨ ∃ e, r.1 = .error e ∧ interrupts e ∧ torn s₁ r.2)

variable {step torn interrupts} {Q : α → σ → Prop} {Q' : β → σ → Prop} {s s₁ : σ}
  {p : Fallible ε σ α} {r : Except ε α × σ}

theorem Does.ok {x : α} (h : Q x s) : Does step torn interrupts Q s (.ok x, s) :=
  ⟨s, .refl, .inl ⟨rfl, fun _ hx => Except.ok.inj hx ▸ h⟩⟩

theorem Does.error (e : ε) : Does step torn interrupts Q s (.error e, s) :=
  ⟨s, .refl, .inl ⟨rfl, fun _ hx => by cases hx⟩⟩

theorem Does.broken {e : ε} (he : interrupts e) (h : torn s s₁) :
    Does step torn interrupts Q s (.error e, s₁) :=
  ⟨s, .refl, .inr ⟨e, rfl, he, h⟩⟩

/-- Whole steps before a computation are steps of it. -/
theorem Does.head (h : Relation.ReflTransGen step s s₁)
    (h₁ : Does step torn interrupts Q s₁ r) : Does step torn interrupts Q s r := by
  obtain ⟨s₂, h₂, hend⟩ := h₁
  exact ⟨s₂, h.trans h₂, hend⟩

theorem Does.mono {R : α → σ → Prop} (h : Does step torn interrupts Q s r)
    (hR : ∀ x s', Q x s' → R x s') : Does step torn interrupts R s r := by
  obtain ⟨s₁, h₁, ⟨hs, hQ⟩ | hbroken⟩ := h
  · exact ⟨s₁, h₁, .inl ⟨hs, fun x hx => hR x s₁ (hQ x hx)⟩⟩
  · exact ⟨s₁, h₁, .inr hbroken⟩

/-- **Sequencing**: the second computation starts where the first one got to,
and is not run at all if the first failed. -/
theorem Does.bind {s₀ : σ} {q : α → Fallible ε σ β}
    (hp : Does step torn interrupts Q s (exec p s₀))
    (hq : ∀ x s₁, Q x s₁ → Does step torn interrupts Q' s₁ (exec (q x) s₁)) :
    Does step torn interrupts Q' s (exec (p >>= q) s₀) := by
  obtain ⟨s₁, h₁, hend⟩ := hp
  rcases exec_bind_cases p q s₀ with ⟨x, s₂, h, hbind⟩ | ⟨e, s₂, h, hbind⟩ <;>
    rw [h] at hend <;> rw [hbind]
  · rcases hend with ⟨rfl, hQ⟩ | ⟨e, he, -⟩
    · exact .head h₁ (hq x s₂ (hQ x rfl))
    · cases he
  · rcases hend with ⟨rfl, -⟩ | ⟨e', he, hi, ht⟩
    · exact .head h₁ (.error e)
    · cases he
      exact .head h₁ (.broken hi ht)

theorem Does.discard {s₀ : σ} (h : Does step torn interrupts Q s (exec p s₀)) :
    Does step torn interrupts (fun _ _ => True) s (exec (do let _ ← p; return ()) s₀) :=
  h.bind fun _ _ _ => .ok trivial

theorem Does.sequential (step torn : σ → σ → Prop) (interrupts : ε → Prop) :
    Sequential fun _ s r => Does step torn interrupts (fun _ _ => True) s r where
  pure _ _ := .ok trivial
  bind hp hq := hp.bind fun x s₁ _ => hq x s₁

/-- The same of coarser steps. -/
theorem Does.coarsen {step' torn' : σ → σ → Prop} (h : Does step torn interrupts Q s r)
    (hs : ∀ s s', step s s' → step' s s') (ht : ∀ s s', torn s s' → torn' s s') :
    Does step' torn' interrupts Q s r := by
  obtain ⟨s₁, h₁, hend | ⟨e, he, hi, hbroken⟩⟩ := h
  · exact ⟨s₁, Relation.ReflTransGen.mono hs _ _ h₁, .inl hend⟩
  · exact ⟨s₁, Relation.ReflTransGen.mono hs _ _ h₁, .inr ⟨e, he, hi, ht _ _ hbroken⟩⟩

/-- A result that is not an interruption was reached by whole steps. -/
theorem Does.whole (h : Does step torn interrupts Q s r)
    (hr : ∀ e, r.1 = .error e → ¬ interrupts e) :
    Relation.ReflTransGen step s r.2 ∧ ∀ x, r.1 = .ok x → Q x r.2 := by
  obtain ⟨s₁, h₁, ⟨rfl, hQ⟩ | ⟨e, he, hi, -⟩⟩ := h
  · exact ⟨h₁, hQ⟩
  · exact absurd hi (hr e he)

/-- What steps keep, torn ones too, a computation keeps. -/
theorem Does.keeps {P : σ → Prop} (h : Does step torn interrupts Q s r)
    (hs : ∀ {s s'}, P s → step s s' → P s') (ht : ∀ {s s'}, P s → torn s s' → P s') (h₀ : P s) :
    P r.2 := by
  obtain ⟨s₁, h₁, hend⟩ := h
  have hs₁ : P s₁ := by
    clear hend
    induction h₁ with
    | refl => exact h₀
    | tail _ hstep ih => exact hs ih hstep
  rcases hend with ⟨rfl, -⟩ | ⟨-, -, -, hbroken⟩
  · exact hs₁
  · exact ht hs₁ hbroken

end Does

/-! ## Refinement -/

section Refinement

variable {τ : Type} (rel : σ → τ → Prop) (step torn : τ → τ → Prop) (interrupts : ε → Prop)

/-- From the model state `a`, a computation that ended with `r` did whole
steps, and a torn one only if it was interrupted. -/
def Ends (a : τ) (r : Except ε α × σ) : Prop :=
  ∃ a₁, Relation.ReflTransGen step a a₁ ∧
    (rel r.2 a₁ ∨ ∃ e a₂, r.1 = .error e ∧ interrupts e ∧ torn a₁ a₂ ∧ rel r.2 a₂)

variable {rel step torn interrupts} {a : τ} {s : σ} {r : Except ε α × σ}

theorem Ends.refl (h : rel r.2 a) : Ends rel step torn interrupts a r := ⟨a, .refl, .inl h⟩

theorem Ends.interrupted {a₁ : τ} {e : ε} (he : interrupts e) (h : torn a a₁)
    (hrel : rel s a₁) : Ends rel step torn interrupts a ((.error e, s) : Except ε α × σ) :=
  ⟨a, .refl, .inr ⟨e, a₁, rfl, he, h, hrel⟩⟩

/-- Whole steps before a computation are steps of it. -/
theorem Ends.head {a₁ : τ} (h : Relation.ReflTransGen step a a₁)
    (h₁ : Ends rel step torn interrupts a₁ r) : Ends rel step torn interrupts a r := by
  obtain ⟨a₂, h₂, hend⟩ := h₁
  exact ⟨a₂, h.trans h₂, hend⟩

/-- A result that is not an interruption was reached by whole steps. -/
theorem Ends.whole (h : Ends rel step torn interrupts a r)
    (hr : ∀ e, r.1 = .error e → ¬ interrupts e) :
    ∃ a₁, Relation.ReflTransGen step a a₁ ∧ rel r.2 a₁ := by
  obtain ⟨a₁, h₁, hrel | ⟨e, _, he, hi, _⟩⟩ := h
  · exact ⟨a₁, h₁, hrel⟩
  · exact absurd hi (hr e he)

section Simulation

variable {own broken : σ → σ → Prop} {Q : α → σ → Prop}

/-- A model that can follow one step can follow any number. -/
theorem exists_steps {s' : σ} (h : Relation.ReflTransGen own s s')
    (hs : ∀ {s s' a}, rel s a → own s s' → ∃ a', Relation.ReflTransGen step a a' ∧ rel s' a')
    (h₀ : rel s a) : ∃ a', Relation.ReflTransGen step a a' ∧ rel s' a' := by
  induction h with
  | refl => exact ⟨a, .refl, h₀⟩
  | tail _ hstep ih =>
      obtain ⟨a₁, h₁, hrel⟩ := ih
      obtain ⟨a₂, h₂, hrel'⟩ := hs hrel hstep
      exact ⟨a₂, h₁.trans h₂, hrel'⟩

/-- **Simulation**: a model that follows every step and every torn one follows
the computation. It may take several steps for one, and a torn step may be a
whole one to it, or none. -/
theorem Does.ends (h : Does own broken interrupts Q s r)
    (hs : ∀ {s s' a}, rel s a → own s s' → ∃ a', Relation.ReflTransGen step a a' ∧ rel s' a')
    (ht : ∀ {s s' a}, rel s a → broken s s' → ∃ a₁, Relation.ReflTransGen step a a₁ ∧
      (rel s' a₁ ∨ ∃ a₂, torn a₁ a₂ ∧ rel s' a₂))
    (h₀ : rel s a) : Ends rel step torn interrupts a r := by
  obtain ⟨s₁, h₁, hend⟩ := h
  obtain ⟨a₁, ha₁, hrel⟩ := exists_steps h₁ hs h₀
  rcases hend with ⟨rfl, -⟩ | ⟨e, he, hi, hbroken⟩
  · exact ⟨a₁, ha₁, .inl hrel⟩
  · obtain ⟨a₂, ha₂, hrel' | ⟨a₃, htorn, hrel'⟩⟩ := ht hrel hbroken
    · exact ⟨a₂, ha₁.trans ha₂, .inl hrel'⟩
    · exact ⟨a₂, ha₁.trans ha₂, .inr ⟨e, a₃, he, hi, htorn, hrel'⟩⟩

end Simulation

end Refinement

end Fallible
