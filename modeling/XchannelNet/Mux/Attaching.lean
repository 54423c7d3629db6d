import XchannelNet.Mux.Ledger

/-!
# Attaching — what an attach that fails leaves behind

`add_member` takes a ref, opens the source, attaches the slot, and then writes
the slot table and the mark. It stops at the first step that fails and takes
back nothing. A retired mux and an exhausted ref space are found out before
anything is done; after that every failure has cost a ref, and a failing write
has left the slot attached as well (`addMember_cases`).

Maintenance tries again on every tick, so the costs add up: enough attempts at
a member without a source use up the refs of a session, and a slot table that
does not fit the topic is a member merged without one.
-/

namespace XchannelNet

namespace Mux

open Fallible

variable {φ : Type} {m m' : Mux φ} {e : MuxError}

/-! ## One attempt -/

/-- A mux that takes no one on: it is retired, or there is no ref left. -/
def Closed (m : Mux φ) : Prop := m.finished = true ∨ m.nextRef = 65535

section Attach

variable {files : φ → Log} {name : ChannelName} {epoch : UInt64} {file : Option φ}

/-- **What an attach leaves**: everything as it was, where the member is there already or
the mux is closed; or a ref less; or a ref less and the member attached. -/
theorem addMember_cases {r : Except MuxError Unit}
    (h : exec (addMember files name epoch file) m = (r, m')) :
    (m' = m ∧ (r = .ok () ∧ m.hasMember name epoch = true ∨ m.Closed ∧ ∃ e, r = .error e)) ∨
    (¬ m.Closed ∧ m' = { m with nextRef := m.nextRef + 1 } ∧
      (r = .error .source ∨ r = .error .seekBlocked)) ∨
    (¬ m.Closed ∧ ∃ s : Slot φ, s.member = (name, epoch) ∧ s.memberRef = m.nextRef ∧
      m'.slots = m.slots ++ [s] ∧ m'.nextRef = m.nextRef + 1) := by
  have hadm := addMember_admission files name epoch file m
  rw [h] at hadm
  have hslot : ∀ {s : Slot φ} {mark log}, Admits files m s mark → s.member = (name, epoch) →
      (m.enroll s).Becomes log m' → ¬ m.Closed ∧ ∃ s : Slot φ, s.member = (name, epoch) ∧
        s.memberRef = m.nextRef ∧ m'.slots = m.slots ++ [s] ∧ m'.nextRef = m.nextRef + 1 :=
    fun ha hk hm => ⟨not_or.mpr ⟨by simp [ha.running], ha.space⟩, _, hk, ha.ref,
      hm.slots, hm.nextRef⟩
  cases hadm with
  | present hmem => exact .inl ⟨rfl, .inl ⟨rfl, hmem⟩⟩
  | refused hclosed => exact .inl ⟨rfl, .inr ⟨hclosed, _, rfl⟩⟩
  | unsourced hfin hspace =>
      exact .inr (.inl ⟨not_or.mpr ⟨by simp [hfin], hspace⟩, rfl, .inl rfl⟩)
  | attached ha hk _ hm => exact .inr (.inr (hslot ha hk hm))
  | untabled ha hk _ hm _ => exact .inr (.inr (hslot ha hk hm))
  | unmarked ha hk _ _ hm _ => exact .inr (.inr (hslot ha hk hm))

theorem toNat_succ_ref {r : UInt16} (h : r ≠ 65535) : (r + 1).toNat = r.toNat + 1 := by
  have hlt := r.toNat_lt
  have hne : r.toNat ≠ 65535 := fun h' => h (UInt16.toNat_inj.mp h')
  rw [UInt16.toNat_add, Nat.mod_eq_of_lt]
  · rfl
  · show r.toNat + 1 < 2 ^ 16
    omega

/-- On a closed mux a failure costs nothing, and on any other it costs a ref. -/
theorem addMember_failed (h : exec (addMember files name epoch file) m = (.error e, m')) :
    (m.Closed ∧ m' = m) ∨ (¬ m.Closed ∧ m'.nextRef.toNat = m.nextRef.toNat + 1) := by
  rcases addMember_cases h with
    ⟨rfl, ⟨he, -⟩ | ⟨hclosed, -⟩⟩ | ⟨hopen, rfl, -⟩ | ⟨hopen, s, -, -, -, hnext⟩
  · cases he
  · exact .inl ⟨hclosed, rfl⟩
  · exact .inr ⟨hopen, toNat_succ_ref (not_or.mp hopen).2⟩
  · rw [hnext]
    exact .inr ⟨hopen, toNat_succ_ref (not_or.mp hopen).2⟩

end Attach

/-! ## Who is attached -/

section Attached

variable (files : φ → Log)

/-- An attach adds its member at the end, or nobody. -/
theorem addMember_attached (name : ChannelName) (epoch : UInt64) (file : Option φ) (m : Mux φ) :
    (exec (addMember files name epoch file) m).2.attached = m.attached ∨
      (exec (addMember files name epoch file) m).2.attached = m.attached ++ [(name, epoch)] := by
  rcases addMember_cases (Prod.mk.eta (p := exec (addMember files name epoch file) m)).symm with
    ⟨hm, -⟩ | ⟨-, hm, -⟩ | ⟨-, s, hs, -, hslots, -⟩
  · exact .inl (by rw [hm])
  · exact .inl (by rw [hm]; rfl)
  · exact .inr (by rw [attached, hslots, List.map_append, List.map_singleton, hs]; rfl)

theorem hasMember_iff {name : ChannelName} {epoch : UInt64} :
    m.hasMember name epoch = true ↔ (name, epoch) ∈ m.attached := by
  simp [hasMember, attached, Slot.member]

/-- An attach that succeeds leaves its member attached. -/
theorem mem_attached_of_addMember {name : ChannelName} {epoch : UInt64} {file : Option φ}
    (h : exec (addMember files name epoch file) m = (.ok (), m')) :
    (name, epoch) ∈ m'.attached := by
  rcases addMember_cases h with
    ⟨rfl, ⟨-, hmem⟩ | ⟨-, e, he⟩⟩ | ⟨-, -, he | he⟩ | ⟨-, s, hs, -, hslots, -⟩
  · exact hasMember_iff.mp hmem
  · cases he
  · cases he
  · cases he
  · rw [attached, hslots, List.map_append, List.map_singleton, hs]
    simp

end Attached

/-! ## Attempt after attempt -/

/-- What an attempt is made with: the member, what is in the files then, where its log is
(if anywhere), and what will become of the writes. -/
structure Attempt (φ : Type) where
  name : ChannelName
  epoch : UInt64
  files : φ → Log
  file : Option φ
  outcomes : List WriteOutcome

/-- Attempts that all fail. -/
inductive Failing : Mux φ → List (Attempt φ) → Mux φ → Prop
  | done (m : Mux φ) : Failing m [] m
  | next {m m₁ m₂ : Mux φ} {e : MuxError} (a : Attempt φ) {rest : List (Attempt φ)}
      (h : exec (addMember a.files a.name a.epoch a.file) (m.within a.outcomes) = (.error e, m₁))
      (hrest : Failing m₁ rest m₂) : Failing m (a :: rest) m₂

/-- What an attach is not to change by failing. -/
def Unchanged (m m' : Mux φ) : Prop :=
  m'.slots = m.slots ∧ m'.nextRef = m.nextRef ∧ m'.topic.log = m.topic.log

variable {as : List (Attempt φ)}

theorem Failing.nextRef_le (h : Failing m as m') : m.nextRef.toNat ≤ m'.nextRef.toNat := by
  induction h with
  | done m => exact le_rfl
  | next a h _ ih =>
      rcases addMember_failed h with ⟨-, rfl⟩ | ⟨-, href⟩
      · exact ih
      · exact le_trans (by rw [href]; exact Nat.le_succ _) ih

theorem Failing.unchanged_of_closed (h : Failing m as m') (hclosed : m.Closed) :
    Unchanged m m' := by
  induction h with
  | done m => exact ⟨rfl, rfl, rfl⟩
  | next a h _ ih =>
      rcases addMember_failed h with ⟨-, rfl⟩ | ⟨hopen, -⟩
      · exact ih hclosed
      · exact absurd hclosed hopen

/-- **Failing attempts leave the mux unchanged if and only if** it was retired, or had no
ref left, or there were none: from any state, over any number of attempts, with any
members, any files and any fate of the writes. -/
theorem failing_unchanged_iff (h : Failing m as m') :
    Unchanged m m' ↔ m.finished = true ∨ m.nextRef = 65535 ∨ as = [] := by
  rw [← or_assoc]
  refine ⟨fun hun => ?_, fun hor => hor.elim h.unchanged_of_closed ?_⟩
  · cases h with
    | done m => exact .inr rfl
    | next a h hrest =>
        rcases addMember_failed h with ⟨hclosed, -⟩ | ⟨-, href⟩
        · exact .inl hclosed
        · -- a ref is gone, and none comes back
          have hle := hrest.nextRef_le
          rw [hun.2.1, href] at hle
          exact absurd hle (by simp [within])
  · rintro rfl
    cases h
    exact ⟨rfl, rfl, rfl⟩

/-- On a retired mux. -/
theorem failing_unchanged_iff_retired :
    ∃ m m' : Mux Unit, ∃ a, Failing m [a] m' ∧ Unchanged m m' := by
  obtain ⟨m, hm⟩ : ∃ m : Mux Unit, m.finished = true :=
    ⟨⟨⟨.ofRecords "topic" 0 [], 0, 0, []⟩, ⟨4096, 0, 0, 0⟩, [], 0, 1, fun _ => none, 0, 0, 0, 0,
      true, []⟩, rfl⟩
  let a : Attempt Unit := ⟨"a", 0, fun _ => .ofRecords "a" 0 [], some (), []⟩
  have hstep : exec (addMember a.files a.name a.epoch a.file) (m.within a.outcomes) =
      (.error .retired, m.within a.outcomes) := by
    unfold addMember
    rw [exec_bind_ok (exec_get _), if_pos (by exact hm)]
    rfl
  have hfail : Failing m [a] (m.within a.outcomes) := .next a hstep (.done _)
  exact ⟨m, _, a, hfail, (failing_unchanged_iff hfail).mpr (.inl hm)⟩

/-! ## What it comes to -/

/-- There is no channel where the member's log should be. -/
def sourceless (files : φ → Log) : Attempt φ := ⟨"a", 0, files, none, []⟩

/-- Each such attempt costs a ref. -/
theorem failing_sourceless (files : φ → Log) (hfin : m.finished = false) (hslots : m.slots = [])
    (n : ℕ) (hn : m.nextRef.toNat + n ≤ 65535) :
    ∃ m', Failing m (List.replicate n (sourceless files)) m' ∧
      m'.nextRef.toNat = m.nextRef.toNat + n ∧ m'.finished = false ∧ m'.slots = [] := by
  induction n generalizing m with
  | zero => exact ⟨m, .done m, rfl, hfin, hslots⟩
  | succ n ih =>
      have href : m.nextRef ≠ 65535 := by
        intro h
        rw [h] at hn
        have hmax : (65535 : UInt16).toNat = 65535 := rfl
        omega
      have hstep : exec (addMember files "a" 0 none) (m.within []) =
          (.error .source, { m.within [] with nextRef := m.nextRef + 1 }) := by
        unfold addMember
        rw [exec_bind_ok (exec_get _)]
        simp [within, hfin, hasMember, hslots, href, exec_bind]
      have hnext := toNat_succ_ref href
      obtain ⟨m', hrest, hrefs, hfin', hslots'⟩ :=
        @ih { m.within [] with nextRef := m.nextRef + 1 } hfin hslots (by
          show (m.nextRef + 1).toNat + n ≤ 65535
          omega)
      refine ⟨m', .next (sourceless files) hstep hrest, ?_, hfin', hslots'⟩
      rw [hrefs]
      show (m.nextRef + 1).toNat + n = _
      omega

/-- A new topic that takes records of at most `mtu` bytes. -/
def openWith (mtu : UInt32) : Except MuxError (Mux Unit) :=
  «open» none "topic" ⟨4096, mtu, 0, 0⟩ 1

def loneRecord : Unit → Log := fun _ => .ofRecords "a" 0 [⟨1, 0, [7]⟩]

/-- **Failed attaches use up the refs, and leave members half attached.** After
65535 attempts at a member without a source, no member can be attached. And
where the slot table does not fit the topic, the attach fails, the next poll
merges the member's record, and there is no slot table in the topic. -/
theorem failed_attach_remains :
    (∃ m m' : Mux Unit, openWith 0 = .ok m ∧
      Failing m (List.replicate 65535 (sourceless loneRecord)) m' ∧
      (exec (addMember loneRecord "b" 0 (some ())) m').1 = .error .refSpaceExhausted) ∧
    ∃ m : Mux Unit, openWith 40 = .ok m ∧
      (exec (addMember loneRecord "a" 0 (some ())) m).1 = .error (.write .exceedsMtu) ∧
      ((exec (poll loneRecord) (exec (addMember loneRecord "a" 0 (some ())) m).2).2
        |>.topic.log.records.map Record.msgType) = [1] := by
  constructor
  · obtain ⟨m, hopen, hfin, hslots, href⟩ : ∃ m : Mux Unit, openWith 0 = .ok m ∧
        m.finished = false ∧ m.slots = [] ∧ m.nextRef = 0 := ⟨_, rfl, rfl, rfl, rfl⟩
    have hzero : m.nextRef.toNat = 0 := by
      rw [href]
      rfl
    obtain ⟨m', hfail, hrefs, hfin', hslots'⟩ :=
      failing_sourceless loneRecord hfin hslots 65535 (by omega)
    refine ⟨m, m', hopen, hfail, ?_⟩
    have hmax : m'.nextRef = 65535 := UInt16.toNat_inj.mp (by
      rw [hrefs, hzero]
      rfl)
    unfold addMember
    rw [exec_bind_ok (exec_get _)]
    simp [hfin', hasMember, hslots', hmax]
  · refine ⟨_, rfl, ?_, ?_⟩ <;> decide +kernel

end Mux

end XchannelNet
