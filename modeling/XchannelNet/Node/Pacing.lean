import XchannelNet.Lib.Backoff
import XchannelNet.Lib.Run
import XchannelNet.Node.Dialing
import XchannelNet.Node.Subscriptions
import XchannelNet.Registry.Basic

/-!
# Pacing — how often what does not succeed is tried again

Two loops repeat on every tick what may never succeed: the dialler, and the
conductor that establishes subscriptions. Both keep a penalty for what they last
tried, with the same ladder of gaps.

The dialler's penalties are never forgotten. The conductor's are: when the
subscription connects, when a caller asks for it, when its owner comes back or
its name is retired. Penalties are by name, so that any number of subscriptions
of one name share one.

Dials are timed in milliseconds, attempts to establish in microseconds.
-/

namespace XchannelNet

/-! ## Dials -/

/-- Gaps double from a second to a minute. -/
def dialLevel (gap : ℕ) : ℕ :=
  if gap = 1000 then 0
  else if gap = 2000 then 24166
  else if gap = 4000 then 47332
  else if gap = 8000 then 68498
  else if gap = 16000 then 85664
  else if gap = 32000 then 94830
  else 87996

def dialPotential : Backoff.Potential DIAL_BACKOFF_MIN DIAL_BACKOFF_MAX 25166 94830 where
  Occurs gap := gap ∈ [1000, 2000, 4000, 8000, 16000, 32000, 60000]
  level := dialLevel
  occurs_lo := by decide
  occurs_next gap elapsed h := by
    rw [Backoff.next]
    split
    · simp only [List.mem_cons, List.not_mem_nil, or_false] at h
      rcases h with rfl | rfl | rfl | rfl | rfl | rfl | rfl <;> decide
    · decide
  pays gap elapsed h hle := by
    rw [Backoff.next, DIAL_BACKOFF_MAX, DIAL_BACKOFF_MIN]
    simp only [List.mem_cons, List.not_mem_nil, or_false] at h
    split <;> rcases h with rfl | rfl | rfl | rfl | rfl | rfl | rfl <;>
      simp [dialLevel] <;> omega
  level_le gap h := by
    simp only [List.mem_cons, List.not_mem_nil, or_false] at h
    rcases h with rfl | rfl | rfl | rfl | rfl | rfl | rfl <;> decide

/-- A penalty is that of the latest of some attempts. -/
structure Penalizes (penalty : Option DialPenalty) (attempts : List (ℕ × ℕ)) : Prop where
  last : penalty.map (fun p => (p.attemptedAt, p.gap)) = attempts.head?
  waits : ∀ p, penalty = some p → p.attemptedAt + p.gap ≤ p.next

/-- The latest attempt was at least its gap ago, if another one may be made. -/
theorem Penalizes.due {penalty : Option DialPenalty} {attempts : List (ℕ × ℕ)}
    (h : Penalizes penalty attempts) {now : Instant} (hdue : ∀ p, penalty = some p → p.next ≤ now) :
    ∀ x ∈ attempts.head?, x.1 + x.2 ≤ now := by
  intro x hx
  rw [← h.last, Option.mem_def, Option.map_eq_some_iff] at hx
  obtain ⟨p, hp, rfl⟩ := hx
  exact (h.waits p hp).trans (hdue p hp)

theorem DialPenalty.charge_gap (now : Instant) (last : Option DialPenalty) :
    (charge now last).gap = Backoff.charge DIAL_BACKOFF_MIN DIAL_BACKOFF_MAX now
      (last.map fun p => (p.attemptedAt, p.gap)) := by
  cases last with
  | none => rfl
  | some p => rfl

/-- What happens while no address is dialled: time goes on, and penalties stay. -/
structure Dialler.Meanwhile {P A : Type} (s s' : Dialler P A) : Prop where
  now : s.now ≤ s'.now
  dialBackoff : s'.dialBackoff = s.dialBackoff

section Dials

variable {P A : Type} [LinearOrder A] {unspecified : A → Bool}

/-- A daemon's dials, the latest first, and where it has come to. -/
inductive Dials (unspecified : A → Bool) : List (A × Instant) → Dialler P A → Prop
  | start {s : Dialler P A} (h : s.dialBackoff = fun _ => none) : Dials unspecified [] s
  | meanwhile {l : List (A × Instant)} {s s' : Dialler P A} (h : Dials unspecified l s)
      (hs : s.Meanwhile s') : Dials unspecified l s'
  | dial {l : List (A × Instant)} {s : Dialler P A} (h : Dials unspecified l s) {addr : A}
      (heligible : s.eligible unspecified addr = true) (outcome : DialOutcome P A) :
      Dials unspecified ((addr, s.now) :: l) (s.dialPeer addr outcome)

/-- When an address was dialled. -/
def dialledAt (addr : A) (l : List (A × Instant)) : List Instant :=
  (l.filter fun x => x.1 = addr).map Prod.snd

theorem Dialler.dialBackoff_dialPeer (s : Dialler P A) (addr : A) (outcome : DialOutcome P A) :
    (s.dialPeer addr outcome).dialBackoff = Function.update s.dialBackoff addr
      (some (.charge s.now (s.dialBackoff addr))) := by
  cases outcome with
  | refused => rfl
  | lost => rfl
  | linked id here there => rfl

theorem Dialler.due_of_eligible {s : Dialler P A} {addr : A}
    (h : s.eligible unspecified addr = true) :
    ∀ p, s.dialBackoff addr = some p → p.next ≤ s.now := by
  intro p hp
  simp only [eligible, Bool.and_eq_true, dialDue, hp, decide_eq_true_eq] at h
  exact h.1.2

/-- The dials of each address keep the ladder. -/
theorem Dials.spaced {l : List (A × Instant)} {s : Dialler P A} (h : Dials unspecified l s)
    (addr : A) : ∃ attempts, Backoff.Spaced DIAL_BACKOFF_MIN DIAL_BACKOFF_MAX attempts ∧
      attempts.map Prod.fst = dialledAt addr l ∧ Penalizes (s.dialBackoff addr) attempts := by
  induction h with
  | start h => exact ⟨[], .nil, rfl, by rw [h]; rfl, by simp [h]⟩
  | meanwhile _ hs ih =>
      rw [hs.dialBackoff]
      exact ih
  | @dial l s _ addr' heligible outcome ih =>
      obtain ⟨attempts, hspaced, htimes, hlast⟩ := ih
      rw [Dialler.dialBackoff_dialPeer]
      by_cases haddr : addr = addr'
      · subst haddr
        refine ⟨_, hspaced.cons (hlast.due (Dialler.due_of_eligible heligible)), ?_, ?_⟩
        · simp [dialledAt, htimes]
        · rw [Function.update_self]
          refine ⟨?_, ?_⟩
          · rw [Option.map_some, List.head?_cons, DialPenalty.charge_gap, hlast.last]
            rfl
          · rintro p ⟨⟩
            exact le_rfl
      · refine ⟨attempts, hspaced, ?_, ?_⟩
        · rw [htimes, dialledAt, dialledAt, List.filter_cons_of_neg]
          simpa using Ne.symm haddr
        · rwa [Function.update_of_ne haddr]

/-- A walk over candidates is a run of dials. -/
theorem Dials.dialLoop {place : ℕ → A} {budget : ℕ} {c : DialCall P A}
    (hmeanwhile : ∀ i s, Dialler.Meanwhile s (c.meanwhile i s)) (is : List ℕ) {spent : ℕ}
    {l : List (A × Instant)} {s : Dialler P A} (h : Dials unspecified l s) :
    ∃ more, Dials unspecified (more ++ l)
        (XchannelNet.dialLoop unspecified place budget c is spent s).2.2 ∧
      more.map Prod.fst =
        (XchannelNet.dialLoop unspecified place budget c is spent s).2.1.reverse := by
  induction is generalizing spent l s with
  | nil => exact ⟨[], h, rfl⟩
  | cons i is ih =>
      rw [XchannelNet.dialLoop]
      split
      · exact ⟨[], h, rfl⟩
      · have h' := h.meanwhile (hmeanwhile i s)
        dsimp only
        split
        · rename_i heligible
          obtain ⟨more, hmore, hdialled⟩ := @ih (spent + 1) _ _ (h'.dial heligible (c.outcome i))
          refine ⟨more ++ [(place i, (c.meanwhile i s).now)], ?_, ?_⟩
          · simpa using hmore
          · simp [hdialled]
        · exact ih h'

/-- So is a call of `dial_some`, whichever list it is for. -/
theorem Dials.dialSome (candidates : List A) (cursor budget : ℕ) {c : DialCall P A}
    (hmeanwhile : ∀ i s, Dialler.Meanwhile s (c.meanwhile i s)) {l : List (A × Instant)}
    (h : Dials unspecified l c.start) :
    ∃ more, Dials unspecified (more ++ l)
        (XchannelNet.dialSome unspecified candidates cursor budget c).2.2 ∧
      more.map Prod.fst =
        (XchannelNet.dialSome unspecified candidates cursor budget c).2.1.reverse := by
  rw [XchannelNet.dialSome]
  split
  · exact h.dialLoop hmeanwhile _
  · exact ⟨[], h, rfl⟩

/-- **Dials of one address are rare.** Over the life of a daemon, from whichever
of its lists an address is dialled and whatever comes of it, it is dialled at most
once for every 25.166 s of any stretch of time, and 4.77 times more. -/
theorem dials_are_rare {l : List (A × Instant)} {s : Dialler P A} (h : Dials unspecified l s)
    (addr : A) (a b : Instant) :
    25166 * (dialledAt addr l).countP (fun t => a ≤ t ∧ t ≤ b) ≤ 25166 + (b - a) + 94830 := by
  obtain ⟨attempts, hspaced, htimes, -⟩ := h.spaced addr
  have hcount := hspaced.countP_le dialPotential a b
  rwa [← htimes, List.countP_map]

end Dials

/-- An address that never answers, dialled as soon as it may be. -/
def redial (s : Dialler ℕ ℕ) (t : Instant) : Dialler ℕ ℕ :=
  { s.dialPeer 7 .refused with now := t }

theorem dials_redial {l : List (ℕ × Instant)} {s : Dialler ℕ ℕ}
    (h : Dials (fun _ => false) l s) {t : Instant} (ht : s.now ≤ t)
    (heligible : s.eligible (fun _ => false) 7 = true) :
    Dials (fun _ => false) ((7, s.now) :: l) (redial s t) :=
  (h.dial heligible .refused).meanwhile ⟨ht, rfl⟩

theorem dials_are_rare_thrice :
    25166 * (dialledAt 7 [(7, 3000), (7, 1000), (7, 0)]).countP (fun t => 0 ≤ t ∧ t ≤ 3000) ≤
      25166 + (3000 - 0) + 94830 := by
  have h0 : Dials (fun _ => false) [] freshDialler := .start rfl
  have h1 := dials_redial h0 (t := 1000) (by decide) (by decide)
  have h2 := dials_redial h1 (t := 3000) (by decide) (by decide)
  have h3 := dials_redial h2 (t := 3000) (by decide) (by decide)
  exact dials_are_rare h3 7 0 3000

end XchannelNet
