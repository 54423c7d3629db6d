import Mathlib.Data.List.Basic

/-!
# Parser — readers of a sequence, front to back

A parser takes what it needs off the front of a sequence and hands on the
rest, or fails. Two properties are what formats are made of, and both come
together from their parts. `Reads p b a`: on `b`, whatever follows it, the
parser takes exactly `b` and returns `a`. `Local p`: whatever the parser takes
and returns does not depend on what follows. A parser that is local, run on a
whole sequence, accepts no proper extension of anything it accepts.
-/

/-- A parser of tokens `τ` with errors `ε`. -/
abbrev Parser (τ ε α : Type) : Type := StateT (List τ) (Except ε) α

namespace Parser

variable {τ ε α β : Type}

/-- Refuse. -/
def fail (e : ε) : Parser τ ε α := fun _ => .error e

/-- Take `n` tokens, or fail with `e` if there are not that many. -/
def take (e : ε) (n : ℕ) : Parser τ ε (List τ) := fun b =>
  if b.length < n then .error e else .ok (b.take n, b.drop n)

/-- Go on with what a value stands for, or fail if it stands for nothing. -/
def orFail (e : ε) : Option α → Parser τ ε α
  | some a => pure a
  | none => fail e

/-- Read `n` values. -/
def count (p : Parser τ ε α) : ℕ → Parser τ ε (List α)
  | 0 => pure []
  | n + 1 => do
    let a ← p
    let as ← count p n
    return a :: as

/-- Read a whole sequence; what is left over is refused with `e`. -/
def accept (e : ε) (p : Parser τ ε α) (b : List τ) : Except ε α :=
  match p b with
  | .error e => .error e
  | .ok (a, []) => .ok a
  | .ok (_, _ :: _) => .error e

/-! ## What a parser does, step by step -/

theorem bind_apply_ok {p : Parser τ ε α} {b rest : List τ} {a : α} (f : α → Parser τ ε β)
    (h : p b = .ok (a, rest)) : (p >>= f) b = f a rest := by
  change (p b >>= fun x => f x.1 x.2) = _
  rw [h]
  rfl

theorem bind_ok {p : Parser τ ε α} {f : α → Parser τ ε β} {b rest : List τ} {c : β}
    (h : (p >>= f) b = .ok (c, rest)) :
    ∃ a mid, p b = .ok (a, mid) ∧ f a mid = .ok (c, rest) := by
  change (p b >>= fun x => f x.1 x.2) = _ at h
  cases hp : p b with
  | error e =>
      rw [hp] at h
      cases h
  | ok x =>
      rw [hp] at h
      exact ⟨x.1, x.2, rfl, h⟩

/-! ## Reading back -/

/-- On `b`, and whatever follows, the parser takes `b` and returns `a`. -/
def Reads (p : Parser τ ε α) (b : List τ) (a : α) : Prop :=
  ∀ rest, p (b ++ rest) = .ok (a, rest)

theorem Reads.pure (a : α) : Reads (pure a : Parser τ ε α) [] a := fun _ => rfl

theorem Reads.bind {p : Parser τ ε α} {f : α → Parser τ ε β} {b b' : List τ} {a : α} {c : β}
    (h : Reads p b a) (h' : Reads (f a) b' c) : Reads (p >>= f) (b ++ b') c := by
  intro rest
  rw [List.append_assoc, bind_apply_ok f (h (b' ++ rest))]
  exact h' rest

/-- A last step that takes nothing. -/
theorem Reads.map {p : Parser τ ε α} {f : α → Parser τ ε β} {b : List τ} {a : α} {c : β}
    (h : Reads p b a) (h' : Reads (f a) [] c) : Reads (p >>= f) b c := by
  have hbind := h.bind h'
  rwa [List.append_nil] at hbind

theorem Reads.take {e : ε} {n : ℕ} {b : List τ} (h : b.length = n) : Reads (take e n) b b := by
  intro rest
  subst h
  simp [Parser.take]

theorem Reads.orFail {e : ε} {o : Option α} {a : α} (h : o = some a) :
    Reads (orFail e o : Parser τ ε α) [] a := by
  subst h
  exact Reads.pure a

theorem Reads.count {p : Parser τ ε α} {enc : α → List τ} {as : List α}
    (h : ∀ a ∈ as, Reads p (enc a) a) : Reads (count p as.length) (as.map enc).flatten as := by
  induction as with
  | nil => exact Reads.pure []
  | cons a as ih =>
      have hrest := ih fun x hx => h x (List.mem_cons_of_mem a hx)
      refine (h a List.mem_cons_self).bind ?_
      rw [← List.append_nil (as.map enc).flatten]
      exact hrest.bind (Reads.pure (a :: as))

theorem Reads.accept {p : Parser τ ε α} {b : List τ} {a : α} (h : Reads p b a) (e : ε) :
    p.accept e b = .ok a := by
  have hb := h []
  rw [List.append_nil] at hb
  rw [Parser.accept, hb]

/-! ## Locality -/

/-- What the parser takes and returns does not depend on what follows. -/
def Local (p : Parser τ ε α) : Prop :=
  ∀ b a rest, p b = .ok (a, rest) → ∃ used, b = used ++ rest ∧ Reads p used a

@[simp] theorem local_pure (a : α) : Local (pure a : Parser τ ε α) := by
  rintro b c rest h
  cases h
  exact ⟨[], rfl, Reads.pure a⟩

@[simp] theorem local_fail (e : ε) : Local (fail e : Parser τ ε α) := by
  intro b a rest h
  cases h

@[simp] theorem local_take (e : ε) (n : ℕ) : Local (take e n : Parser τ ε (List τ)) := by
  intro b a rest h
  simp only [take] at h
  split at h
  · cases h
  · rename_i hn
    cases h
    exact ⟨b.take n, (List.take_append_drop n b).symm, Reads.take (by simp; omega)⟩

@[simp] theorem local_orFail (e : ε) (o : Option α) : Local (orFail e o : Parser τ ε α) := by
  cases o with
  | none => exact local_fail e
  | some a => exact local_pure a

@[simp] theorem local_bind {p : Parser τ ε α} {f : α → Parser τ ε β} (hp : Local p)
    (hf : ∀ a, Local (f a)) : Local (p >>= f) := by
  intro b c rest h
  obtain ⟨a, mid, hpa, hfa⟩ := bind_ok h
  obtain ⟨used, rfl, hreads⟩ := hp b a mid hpa
  obtain ⟨used', rfl, hreads'⟩ := hf a mid c rest hfa
  exact ⟨used ++ used', (List.append_assoc _ _ _).symm, hreads.bind hreads'⟩

@[simp] theorem local_map {p : Parser τ ε α} (f : α → β) (hp : Local p) : Local (f <$> p) := by
  rw [map_eq_pure_bind]
  exact local_bind hp fun a => local_pure (f a)

@[simp] theorem local_ite {c : Prop} [Decidable c] {p q : Parser τ ε α} (hp : Local p)
    (hq : Local q) : Local (if c then p else q) := by
  split
  · exact hp
  · exact hq

@[simp] theorem local_count {p : Parser τ ε α} (hp : Local p) (n : ℕ) : Local (count p n) := by
  induction n with
  | zero => exact local_pure []
  | succ n ih => exact local_bind hp fun a => local_bind ih fun as => local_pure (a :: as)

/-- **Prefix-freeness**: a local parser that accepts a sequence refuses every
proper extension of it. -/
theorem Local.accept_extension {p : Parser τ ε α} {e : ε} {b b' : List τ} {a : α} (hp : Local p)
    (h : p.accept e b = .ok a) (hpre : b <+: b') (hne : b ≠ b') : p.accept e b' = .error e := by
  obtain ⟨extra, rfl⟩ := hpre
  have hextra : extra ≠ [] := by
    rintro rfl
    exact hne (List.append_nil b).symm
  cases hb : p b with
  | error e' =>
      rw [accept, hb] at h
      cases h
  | ok x =>
      obtain ⟨a', rest⟩ := x
      obtain ⟨used, hused, hreads⟩ := hp b a' rest hb
      cases rest with
      | cons t rest =>
          rw [accept, hb] at h
          cases h
      | nil =>
          rw [List.append_nil] at hused
          subst hused
          rw [accept, hreads extra]
          cases extra with
          | nil => exact absurd rfl hextra
          | cons t extra => rfl

end Parser
