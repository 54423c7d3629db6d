import Mathlib.Logic.Function.Basic
import XchannelNet.Lib.Run

/-!
# Locks — threads that take locks, and what they can wait for

A thread is seen as what it does with locks and where it pauses. A guard is held for
the length of a block, so what a thread holds can be read off what it has still to
do. Threads that take locks in ascending order never wait for each other in a ring,
and whatever a thread waits for can be traced to one that can move.
-/

namespace Locks

/-- What a thread does with locks `κ`, and where it pauses for something else. -/
inductive Prog (κ β : Type) where
  | done
  | pause (b : β)
  | andThen (p q : Prog κ β)
  | either (p q : Prog κ β)
  | many (p : Prog κ β)
  | any (p : ℕ → Prog κ β)
  | hold (l : κ) (p : Prog κ β)

namespace Prog

variable {κ β : Type}

/-- One after the other. -/
def seq : List (Prog κ β) → Prog κ β
  | [] => done
  | p :: ps => p.andThen (seq ps)

/-- Perhaps. -/
def maybe (p : Prog κ β) : Prog κ β := done.either p

/-- One after the other, as far as each goes well. -/
def attempt : List (Prog κ β) → Prog κ β
  | [] => done
  | p :: ps => p.andThen (maybe (attempt ps))

def oneOf : List (Prog κ β) → Prog κ β
  | [] => done
  | p :: ps => p.either (oneOf ps)

/-- Take a lock for a moment. -/
def touch (l : κ) : Prog κ β := hold l done

/-! ## Checks -/

/-- Locks are taken in ascending order, from `b` on. -/
def Ascends (rank : κ → ℕ) : ℕ → Prog κ β → Prop
  | _, done => True
  | _, pause _ => True
  | b, andThen p q => p.Ascends rank b ∧ q.Ascends rank b
  | b, either p q => p.Ascends rank b ∧ q.Ascends rank b
  | b, many p => p.Ascends rank b
  | b, any p => ∀ n, (p n).Ascends rank b
  | b, hold l p => b ≤ rank l ∧ p.Ascends rank (rank l + 1)

/-- Whoever pauses holds only what the pause allows, with `held` held already. -/
def Respects (allows : β → κ → Prop) : List κ → Prog κ β → Prop
  | _, done => True
  | held, pause b => ∀ l ∈ held, allows b l
  | held, andThen p q => p.Respects allows held ∧ q.Respects allows held
  | held, either p q => p.Respects allows held ∧ q.Respects allows held
  | held, many p => p.Respects allows held
  | held, any p => ∀ n, (p n).Respects allows held
  | held, hold l p => p.Respects allows (l :: held)

/-- This lock is never taken. -/
def Avoids (l : κ) : Prog κ β → Prop
  | done => True
  | pause _ => True
  | andThen p q => p.Avoids l ∧ q.Avoids l
  | either p q => p.Avoids l ∧ q.Avoids l
  | many p => p.Avoids l
  | any p => ∀ n, (p n).Avoids l
  | hold l' p => l' ≠ l ∧ p.Avoids l

section Checks

variable {rank : κ → ℕ} {allows : β → κ → Prop} {b : ℕ} {held : List κ} {l : κ} {p : Prog κ β}
  {ps : List (Prog κ β)}

/-- A check that asks the same of every part of a program. -/
structure Partwise (check : Prog κ β → Prop) : Prop where
  done : check done
  andThen : ∀ p q, check (p.andThen q) ↔ check p ∧ check q
  either : ∀ p q, check (p.either q) ↔ check p ∧ check q

namespace Partwise

variable {check : Prog κ β → Prop}

theorem seq (h : Partwise check) : check (Prog.seq ps) ↔ ∀ p ∈ ps, check p := by
  induction ps with
  | nil => exact iff_of_true h.done (List.forall_mem_nil _)
  | cons p ps ih => rw [List.forall_mem_cons, ← ih]; exact h.andThen p _

theorem maybe (h : Partwise check) : check (Prog.maybe p) ↔ check p :=
  (h.either _ p).trans (and_iff_right h.done)

theorem attempt (h : Partwise check) : check (Prog.attempt ps) ↔ ∀ p ∈ ps, check p := by
  induction ps with
  | nil => exact iff_of_true h.done (List.forall_mem_nil _)
  | cons p ps ih =>
      rw [List.forall_mem_cons, ← ih]
      exact (h.andThen p _).trans (and_congr_right fun _ => h.maybe)

theorem oneOf (h : Partwise check) : check (Prog.oneOf ps) ↔ ∀ p ∈ ps, check p := by
  induction ps with
  | nil => exact iff_of_true h.done (List.forall_mem_nil _)
  | cons p ps ih => rw [List.forall_mem_cons, ← ih]; exact h.either p _

end Partwise

theorem partwise_ascends : Partwise fun p : Prog κ β => p.Ascends rank b :=
  ⟨trivial, fun _ _ => Iff.rfl, fun _ _ => Iff.rfl⟩

theorem partwise_respects : Partwise fun p : Prog κ β => p.Respects allows held :=
  ⟨trivial, fun _ _ => Iff.rfl, fun _ _ => Iff.rfl⟩

theorem partwise_avoids : Partwise fun p : Prog κ β => p.Avoids l :=
  ⟨trivial, fun _ _ => Iff.rfl, fun _ _ => Iff.rfl⟩

@[simp] theorem ascends_seq : (seq ps).Ascends rank b ↔ ∀ p ∈ ps, p.Ascends rank b :=
  partwise_ascends.seq

@[simp] theorem ascends_maybe : (maybe p).Ascends rank b ↔ p.Ascends rank b :=
  partwise_ascends.maybe

@[simp] theorem ascends_attempt : (attempt ps).Ascends rank b ↔ ∀ p ∈ ps, p.Ascends rank b :=
  partwise_ascends.attempt

@[simp] theorem ascends_oneOf : (oneOf ps).Ascends rank b ↔ ∀ p ∈ ps, p.Ascends rank b :=
  partwise_ascends.oneOf

@[simp] theorem ascends_touch : (touch l : Prog κ β).Ascends rank b ↔ b ≤ rank l :=
  and_iff_left trivial

@[simp] theorem respects_seq :
    (seq ps).Respects allows held ↔ ∀ p ∈ ps, p.Respects allows held :=
  partwise_respects.seq

@[simp] theorem respects_maybe : (maybe p).Respects allows held ↔ p.Respects allows held :=
  partwise_respects.maybe

@[simp] theorem respects_attempt :
    (attempt ps).Respects allows held ↔ ∀ p ∈ ps, p.Respects allows held :=
  partwise_respects.attempt

@[simp] theorem respects_oneOf :
    (oneOf ps).Respects allows held ↔ ∀ p ∈ ps, p.Respects allows held :=
  partwise_respects.oneOf

@[simp] theorem respects_touch : (touch l : Prog κ β).Respects allows held := trivial

@[simp] theorem avoids_seq : (seq ps).Avoids l ↔ ∀ p ∈ ps, p.Avoids l :=
  partwise_avoids.seq

@[simp] theorem avoids_maybe : (maybe p).Avoids l ↔ p.Avoids l :=
  partwise_avoids.maybe

@[simp] theorem avoids_attempt : (attempt ps).Avoids l ↔ ∀ p ∈ ps, p.Avoids l :=
  partwise_avoids.attempt

@[simp] theorem avoids_touch {l' : κ} : (touch l' : Prog κ β).Avoids l ↔ l' ≠ l :=
  and_iff_left trivial

end Checks

end Prog

/-! ## Threads -/

section Threads

variable {κ β τ : Type}

/-- What a thread has still to do, next things first. -/
inductive Frame (κ β : Type) where
  | run (p : Prog κ β)
  | release (l : κ)

/-- The locks a thread holds, the last one taken first. -/
def held : List (Frame κ β) → List κ
  | [] => []
  | .run _ :: k => held k
  | .release l :: k => l :: held k

/-- One move of a thread, if these locks are free. -/
inductive Moves (free : κ → Prop) : List (Frame κ β) → List (Frame κ β) → Prop
  | done (k) : Moves free (.run .done :: k) k
  | pause (b k) : Moves free (.run (.pause b) :: k) k
  | andThen (p q k) : Moves free (.run (.andThen p q) :: k) (.run p :: .run q :: k)
  | left (p q k) : Moves free (.run (.either p q) :: k) (.run p :: k)
  | right (p q k) : Moves free (.run (.either p q) :: k) (.run q :: k)
  | stop (p k) : Moves free (.run (.many p) :: k) k
  | again (p k) : Moves free (.run (.many p) :: k) (.run p :: .run (.many p) :: k)
  | any (p n k) : Moves free (.run (.any p) :: k) (.run (p n) :: k)
  | acquire {l} (p k) (h : free l) :
      Moves free (.run (.hold l p) :: k) (.run p :: .release l :: k)
  | release (l k) : Moves free (.release l :: k) k

/-- All threads there may be. One that has nothing to do is not there. -/
abbrev Threads (τ κ β : Type) := τ → List (Frame κ β)

def Free (s : Threads τ κ β) (l : κ) : Prop := ∀ t, l ∉ held (s t)

/-- The thread is about to take this lock. -/
def Awaits (s : Threads τ κ β) (t : τ) (l : κ) : Prop := ∃ p k, s t = .run (.hold l p) :: k

/-- The thread waits for a lock the other one holds. -/
def Waits (s : Threads τ κ β) (t u : τ) : Prop := ∃ l, Awaits s t l ∧ l ∈ held (s u)

/-- The thread can move. -/
def Ready (s : Threads τ κ β) (t : τ) : Prop := ∃ k, Moves (Free s) (s t) k

/-! ## Order -/

variable (rank : κ → ℕ)

/-- What a thread that holds these locks may take next. -/
def floor : List (Frame κ β) → ℕ
  | [] => 0
  | .run _ :: k => floor k
  | .release l :: _ => rank l + 1

/-- Everything that is still to be done takes locks in ascending order. -/
def Ordered : List (Frame κ β) → Prop
  | [] => True
  | .run p :: k => p.Ascends rank (floor rank k) ∧ Ordered k
  | .release l :: k => floor rank k ≤ rank l ∧ Ordered k

variable {rank} {s : Threads τ κ β}

theorem Ordered.rank_lt {k : List (Frame κ β)} (h : Ordered rank k) {l : κ} (hl : l ∈ held k) :
    rank l < floor rank k := by
  induction k with
  | nil => cases hl
  | cons f k ih =>
      cases f with
      | run p => exact ih h.2 hl
      | release l' =>
          rcases List.mem_cons.mp hl with rfl | hl
          · exact Nat.lt_succ_self _
          · have hbelow := (ih h.2 hl).trans_le h.1
            exact hbelow.trans (Nat.lt_succ_self _)

theorem Ordered.moves {free : κ → Prop} {k k' : List (Frame κ β)} (h : Ordered rank k)
    (hmove : Moves free k k') : Ordered rank k' := by
  cases hmove with
  | done => exact h.2
  | pause => exact h.2
  | andThen p q k => exact ⟨h.1.1, h.1.2, h.2⟩
  | left p q k => exact ⟨h.1.1, h.2⟩
  | right p q k => exact ⟨h.1.2, h.2⟩
  | stop => exact h.2
  | again p k => exact ⟨h.1, h.1, h.2⟩
  | any p n k => exact ⟨h.1 n, h.2⟩
  | acquire p k _ => exact ⟨h.1.2, h.1.1, h.2⟩
  | release => exact h.2

/-- What is held after a move was held before, or was free. -/
theorem held_moves {free : κ → Prop} {k k' : List (Frame κ β)} (hmove : Moves free k k') {l : κ}
    (hl : l ∈ held k') : l ∈ held k ∨ free l := by
  cases hmove with
  | acquire p k h =>
      rcases List.mem_cons.mp hl with rfl | hl
      · exact .inr h
      · exact .inl hl
  | release l' k => exact .inl (List.mem_cons_of_mem _ hl)
  | done => exact .inl hl
  | pause => exact .inl hl
  | andThen => exact .inl hl
  | left => exact .inl hl
  | right => exact .inl hl
  | stop => exact .inl hl
  | again => exact .inl hl
  | any => exact .inl hl

variable (rank) in
/-- Every thread is in order, and no lock has two owners. -/
structure Disciplined (s : Threads τ κ β) : Prop where
  ordered : ∀ t, Ordered rank (s t)
  exclusive : ∀ t u l, l ∈ held (s t) → l ∈ held (s u) → t = u

/-- No one is there yet. -/
def idle : Threads τ κ β := fun _ => []

theorem disciplined_idle : Disciplined rank (idle : Threads τ κ β) :=
  ⟨fun _ => trivial, fun _ _ _ h => by cases h⟩

/-! ## No ring -/

/-- Who holds one lock and awaits another goes up. -/
theorem Disciplined.rank_lt (h : Disciplined rank s) {t : τ} {l l' : κ} (hl : l ∈ held (s t))
    (hawaits : Awaits s t l') : rank l < rank l' := by
  obtain ⟨p, k, hs⟩ := hawaits
  have hordered := h.ordered t
  rw [hs] at hordered hl
  exact (hordered.2.rank_lt hl).trans_le hordered.1.1

/-- **No ring**: threads that take locks in ascending order do not wait for each
other in a circle, nor for themselves. -/
theorem Disciplined.no_ring (h : Disciplined rank s) (t : τ) :
    ¬ Relation.TransGen (Waits s) t t := by
  have hup : ∀ t u, Relation.TransGen (Waits s) t u →
      ∃ l, Awaits s t l ∧ ∀ l', Awaits s u l' → rank l < rank l' := by
    intro t u hwaits
    induction hwaits with
    | single hwait =>
        obtain ⟨l, hawaits, hheld⟩ := hwait
        exact ⟨l, hawaits, fun l' hl' => h.rank_lt hheld hl'⟩
    | tail _ hlast ih =>
        obtain ⟨l, hawaits, hless⟩ := ih
        obtain ⟨l', hl', hheld⟩ := hlast
        exact ⟨l, hawaits, fun l'' hl'' => (hless l' hl').trans (h.rank_lt hheld hl'')⟩
  intro hring
  obtain ⟨l, hawaits, hless⟩ := hup t t hring
  exact lt_irrefl _ (hless l hawaits)

/-- Who has something to do can move, or is about to take a lock that is not free. -/
theorem moves_or_takes (free : κ → Prop) {k : List (Frame κ β)} (hbusy : k ≠ []) :
    (∃ k', Moves free k k') ∨ ∃ l p k', k = .run (.hold l p) :: k' ∧ ¬ free l := by
  cases k with
  | nil => exact absurd rfl hbusy
  | cons f k =>
      cases f with
      | release l => exact .inl ⟨_, .release l k⟩
      | run p =>
          cases p with
          | done => exact .inl ⟨_, .done k⟩
          | pause b => exact .inl ⟨_, .pause b k⟩
          | andThen p q => exact .inl ⟨_, .andThen p q k⟩
          | either p q => exact .inl ⟨_, .left p q k⟩
          | many p => exact .inl ⟨_, .stop p k⟩
          | any p => exact .inl ⟨_, .any p 0 k⟩
          | hold l p =>
              by_cases hfree : free l
              · exact .inl ⟨_, .acquire p k hfree⟩
              · exact .inr ⟨l, p, k, rfl, hfree⟩

theorem ready_or_waits {t : τ} (hbusy : s t ≠ []) : Ready s t ∨ ∃ u, Waits s t u := by
  rcases moves_or_takes (Free s) hbusy with hmoves | ⟨l, p, k, hs, hheld⟩
  · exact .inl hmoves
  · obtain ⟨u, hu⟩ := not_forall_not.mp hheld
    exact .inr ⟨u, l, ⟨p, k, hs⟩, hu⟩

/-- **Every wait ends at someone who can move.** -/
theorem Disciplined.leads_to_ready {bound : ℕ} (hbound : ∀ l, rank l < bound)
    (h : Disciplined rank s) {t : τ} (hbusy : s t ≠ []) :
    ∃ u, Relation.ReflTransGen (Waits s) t u ∧ Ready s u := by
  -- the rank of what is awaited goes up along the way
  have hclimb : ∀ (n : ℕ) (t : τ), s t ≠ [] → (∀ l, Awaits s t l → bound ≤ rank l + n) →
      ∃ u, Relation.ReflTransGen (Waits s) t u ∧ Ready s u := by
    intro n
    induction n with
    | zero =>
        intro t hbusy hlow
        rcases ready_or_waits hbusy with hready | ⟨u, l, hawaits, -⟩
        · exact ⟨t, .refl, hready⟩
        · exact absurd (hlow l hawaits) (by simpa using hbound l)
    | succ n ih =>
        intro t hbusy hlow
        rcases ready_or_waits hbusy with hready | ⟨u, l, hawaits, hheld⟩
        · exact ⟨t, .refl, hready⟩
        · have hbusy' : s u ≠ [] := by
            intro hnil
            rw [hnil] at hheld
            cases hheld
          have hhigher : ∀ l', Awaits s u l' → bound ≤ rank l' + n := by
            intro l' hl'
            have hless := h.rank_lt hheld hl'
            have hpast := hlow l hawaits
            omega
          obtain ⟨v, hwaits, hready⟩ := ih u hbusy' hhigher
          exact ⟨v, .head ⟨l, hawaits, hheld⟩ hwaits, hready⟩
  exact hclimb bound t hbusy fun l _ => Nat.le_add_left _ _

/-! ## Runs -/

variable [DecidableEq τ] {programs : Prog κ β → Prop} {s' : Threads τ κ β}

/-- A thread starts with one of the programs, or one moves. -/
inductive Step (programs : Prog κ β → Prop) (s : Threads τ κ β) : Threads τ κ β → Prop
  | start (t : τ) (p : Prog κ β) (hidle : s t = []) (hp : programs p) :
      Step programs s (Function.update s t [.run p])
  | move (t : τ) (k : List (Frame κ β)) (h : Moves (Free s) (s t) k) :
      Step programs s (Function.update s t k)

theorem Disciplined.step (hprograms : ∀ p, programs p → p.Ascends rank 0)
    (h : Disciplined rank s) (hstep : Step programs s s') : Disciplined rank s' := by
  cases hstep with
  | start t p hidle hp =>
      have hheld : ∀ u, held (Function.update s t [.run p] u) = held (s u) := by
        intro u
        by_cases hu : u = t
        · rw [hu, Function.update_self, hidle]
          rfl
        · rw [Function.update_of_ne hu]
      refine ⟨fun u => ?_, fun u v l hu hv => ?_⟩
      · by_cases hu : u = t
        · rw [hu, Function.update_self]
          exact ⟨hprograms _ hp, trivial⟩
        · rw [Function.update_of_ne hu]
          exact h.ordered u
      · rw [hheld] at hu hv
        exact h.exclusive u v l hu hv
  | move t k hmove =>
      refine ⟨fun u => ?_, fun u v l hu hv => ?_⟩
      · by_cases hu : u = t
        · rw [hu, Function.update_self]
          exact (h.ordered t).moves hmove
        · rw [Function.update_of_ne hu]
          exact h.ordered u
      · -- only the one that moved may hold something new, and that was free
        by_cases hut : u = t
        · by_cases hvt : v = t
          · rw [hut, hvt]
          · rw [hut, Function.update_self] at hu
            rw [Function.update_of_ne hvt] at hv
            rcases held_moves hmove hu with hold | hfree
            · exact hut.trans (h.exclusive t v l hold hv)
            · exact absurd hv (hfree v)
        · rw [Function.update_of_ne hut] at hu
          by_cases hvt : v = t
          · rw [hvt, Function.update_self] at hv
            rcases held_moves hmove hv with hold | hfree
            · exact (h.exclusive u t l hu hold).trans hvt.symm
            · exact absurd hu (hfree u)
          · rw [Function.update_of_ne hvt] at hv
            exact h.exclusive u v l hu hv

theorem disciplined_of_reachable (hprograms : ∀ p, programs p → p.Ascends rank 0)
    (h : Run.Reachable (· = idle) (Step programs) s) : Disciplined rank s :=
  h.invariant (fun _ hs => hs ▸ disciplined_idle) fun _ _ hd hstep => hd.step hprograms hstep

/-! ## Going through a program -/

/-- The thread can get from one thing to do to another, with the others as they are. -/
def Goes (programs : Prog κ β → Prop) (s : Threads τ κ β) (t : τ) (k k' : List (Frame κ β)) :
    Prop :=
  Relation.ReflTransGen (Step programs) (Function.update s t k) (Function.update s t k')

section Goes

variable {t : τ} {k k' k'' : List (Frame κ β)} {p : Prog κ β}

theorem Goes.trans (h : Goes programs s t k k') (h' : Goes programs s t k' k'') :
    Goes programs s t k k'' :=
  Relation.ReflTransGen.trans h h'

/-- A lock is free for the thread if it does not have it, nor has any other. -/
theorem free_update {l : κ} (hown : l ∉ held k) (hothers : ∀ u, u ≠ t → l ∉ held (s u)) :
    Free (Function.update s t k) l := by
  intro u
  by_cases hu : u = t
  · rw [hu, Function.update_self]
    exact hown
  · rw [Function.update_of_ne hu]
    exact hothers u hu

theorem goes_move (h : Moves (Free (Function.update s t k)) k k') : Goes programs s t k k' := by
  have hstep : Step programs (Function.update s t k)
      (Function.update (Function.update s t k) t k') :=
    .move t k' (by rwa [Function.update_self])
  rw [Function.update_idem] at hstep
  exact .single hstep

variable (rank) in
/-- Nothing stops a thread that takes locks in order, and none that another has. -/
theorem goes_through (hordered : Ordered rank (.run p :: k))
    (hothers : ∀ u, u ≠ t → ∀ l ∈ held (s u), p.Avoids l) :
    Goes programs s t (.run p :: k) k := by
  induction p generalizing k with
  | done => exact goes_move (.done k)
  | pause b => exact goes_move (.pause b k)
  | andThen p q ihp ihq =>
      have hfirst : Goes programs s t (.run p :: .run q :: k) (.run q :: k) :=
        ihp ⟨hordered.1.1, hordered.1.2, hordered.2⟩ fun u hu l hl => (hothers u hu l hl).1
      have hsecond : Goes programs s t (.run q :: k) k :=
        ihq ⟨hordered.1.2, hordered.2⟩ fun u hu l hl => (hothers u hu l hl).2
      exact (goes_move (.andThen p q k)).trans (hfirst.trans hsecond)
  | either p q ihp _ =>
      exact (goes_move (.left p q k)).trans
        (ihp ⟨hordered.1.1, hordered.2⟩ fun u hu l hl => (hothers u hu l hl).1)
  | many p _ => exact goes_move (.stop p k)
  | any p ih =>
      exact (goes_move (.any p 0 k)).trans
        (ih 0 ⟨hordered.1 0, hordered.2⟩ fun u hu l hl => hothers u hu l hl 0)
  | hold l p ih =>
      have hown : l ∉ held k := fun hl =>
        absurd (hordered.2.rank_lt hl) (Nat.not_lt.mpr hordered.1.1)
      have hfree : Free (Function.update s t (.run (.hold l p) :: k)) l :=
        free_update hown fun u hu hl => (hothers u hu l hl).1 rfl
      have hinside : Goes programs s t (.run p :: .release l :: k) (.release l :: k) :=
        ih ⟨hordered.1.2, hordered.1.1, hordered.2⟩ fun u hu l hl => (hothers u hu l hl).2
      exact (goes_move (.acquire p k hfree)).trans (hinside.trans (goes_move (.release l k)))

variable (rank) in
/-- The first of several. -/
theorem goes_first {ps : List (Prog κ β)} (hordered : Ordered rank (.run (.seq (p :: ps)) :: k))
    (hothers : ∀ u, u ≠ t → ∀ l ∈ held (s u), p.Avoids l) :
    Goes programs s t (.run (.seq (p :: ps)) :: k) (.run (.seq ps) :: k) :=
  have hmoved : Ordered rank (.run p :: .run (.seq ps) :: k) :=
    ⟨hordered.1.1, hordered.1.2, hordered.2⟩
  (goes_move (.andThen p (.seq ps) k)).trans (goes_through rank hmoved hothers)

end Goes

/-! ## Pauses -/

variable {allows : β → κ → Prop}

variable (allows) in
/-- Everything that is still to be done respects what is held. -/
def Mindful : List (Frame κ β) → Prop
  | [] => True
  | .run p :: k => p.Respects allows (held k) ∧ Mindful k
  | .release _ :: k => Mindful k

theorem Mindful.moves {free : κ → Prop} {k k' : List (Frame κ β)} (h : Mindful allows k)
    (hmove : Moves free k k') : Mindful allows k' := by
  cases hmove with
  | done => exact h.2
  | pause => exact h.2
  | andThen p q k => exact ⟨h.1.1, h.1.2, h.2⟩
  | left p q k => exact ⟨h.1.1, h.2⟩
  | right p q k => exact ⟨h.1.2, h.2⟩
  | stop => exact h.2
  | again p k => exact ⟨h.1, h.1, h.2⟩
  | any p n k => exact ⟨h.1 n, h.2⟩
  | acquire p k _ => exact ⟨h.1, h.2⟩
  | release => exact h

/-- **Whoever pauses holds only what the pause allows.** -/
theorem allows_of_reachable (hprograms : ∀ p, programs p → p.Respects allows [])
    (h : Run.Reachable (· = idle) (Step programs) s) {t : τ} {b : β} {k : List (Frame κ β)}
    (hs : s t = .run (.pause b) :: k) : ∀ l ∈ held (s t), allows b l := by
  have hmindful : ∀ t, Mindful allows (s t) := by
    refine @Run.Reachable.invariant _ _ _ (fun s => ∀ t, Mindful allows (s t)) _ h
      (fun s hs t => ?_) fun s s' hinv hstep u => ?_
    · rw [hs]
      trivial
    · cases hstep with
      | start t p hidle hp =>
          by_cases hu : u = t
          · rw [hu, Function.update_self]
            exact ⟨hprograms _ hp, trivial⟩
          · rw [Function.update_of_ne hu]
            exact hinv u
      | move t k hmove =>
          by_cases hu : u = t
          · rw [hu, Function.update_self]
            exact (hinv t).moves hmove
          · rw [Function.update_of_ne hu]
            exact hinv u
  have hhere := hmindful t
  rw [hs] at hhere ⊢
  exact hhere.1

end Threads

end Locks
