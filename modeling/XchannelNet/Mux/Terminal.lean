import XchannelNet.Mux.Control

/-!
# Terminal — the end of a topic

`finish` ends a topic with a terminal record and sets a flag that stops every
later operation of the same mux. While the mux lives nothing follows the
record. The flag is not recovered: a mux opened on a log that has ended starts
as on any other.
-/

namespace XchannelNet

namespace Mux

open Fallible

/-! ## Within a session -/

/-- While the topic goes on there is no terminal record; afterwards it is the
last one, and nobody is attached. -/
structure Ending (l : Ledger) : Prop where
  running : l.finished = false → .terminal ∉ l.emitted
  ended : l.finished = true → l.slots = [] ∧
    ∃ front, l.emitted = front ++ [.terminal] ∧ .terminal ∉ front

namespace Ledger

variable {l l' : Ledger}

/-- A round belongs to a slot, or to a mux that goes on. -/
theorem Act.goes_on (h : Act l l') : l.finished = false ∨ l.slots ≠ [] := by
  have hslot : ∀ {i : ℕ} {e : SlotEntry}, l.slots[i]? = some e → l.slots ≠ [] := fun he =>
    List.ne_nil_of_mem (List.mem_of_getElem? he)
  cases h with
  | pass he cursor => exact .inr (hslot he)
  | merge he hrej cursor => exact .inr (hslot he)
  | refresh he => exact .inr (hslot he)
  | roll he k => exact .inr (hslot he)
  | bump hf hspace => exact .inl hf
  | attach he => exact .inl he.running
  | gap he a b => exact .inr (List.ne_nil_of_mem he)
  | regressed he a b => exact .inr (List.ne_nil_of_mem he)
  | closing he => exact .inr (hslot he)
  | detach he hclosed => exact .inr (hslot he)

/-- No round writes the terminal record. -/
theorem Act.emits (h : Act l l') : ∃ es, l'.emitted = l.emitted ++ es ∧ .terminal ∉ es := by
  cases h with
  | pass he cursor => exact ⟨[], (List.append_nil _).symm, by simp⟩
  | bump hf hspace => exact ⟨[], (List.append_nil _).symm, by simp⟩
  | _ => exact ⟨_, rfl, by simp [table]⟩

theorem Cut.goes_on (h : Cut l l') : l.finished = false ∨ l.slots ≠ [] := by
  cases h with
  | attach he => exact .inl he.running
  | roll he k => exact .inr (List.ne_nil_of_mem (List.mem_of_getElem? he))
  | detach he hclosed => exact .inr (List.ne_nil_of_mem (List.mem_of_getElem? he))

theorem Cut.finished (h : Cut l l') : l'.finished = l.finished := by
  cases h <;> rfl

end Ledger

namespace Ending

variable {l l' : Ledger}

/-- An ended ledger has no slots to act on. -/
theorem goes_on (h : Ending l) (hl : l.finished = false ∨ l.slots ≠ []) : l.finished = false := by
  rcases hl with hf | hs
  · exact hf
  · rw [← Bool.not_eq_true]
    exact fun hf => hs (h.ended hf).1

theorem of_goes_on (h : Ending l) (hl : l.finished = false) {es : List Emission}
    (he : l'.emitted = l.emitted ++ es) (hes : .terminal ∉ es) (hf : l'.finished = l.finished) :
    Ending l' where
  running _ := by
    rw [he, List.mem_append, not_or]
    exact ⟨h.running hl, hes⟩
  ended hf' := by
    rw [hf, hl] at hf'
    cases hf'

theorem step (h : Ending l) (hs : Ledger.Step l l') : Ending l' := by
  cases hs with
  | act ha =>
      obtain ⟨es, he, hes⟩ := ha.emits
      exact h.of_goes_on (h.goes_on ha.goes_on) he hes ha.finished
  | terminate hf hs =>
      refine ⟨fun hf' => ?_, fun _ => ⟨hs, l.emitted, rfl, h.running hf⟩⟩
      cases hf'

theorem steps (h : Ending l) (hs : Relation.ReflTransGen Ledger.Step l l') : Ending l' := by
  induction hs with
  | refl => exact h
  | tail _ hlast ih => exact ih.step hlast

theorem cut (h : Ending l) (hc : Ledger.Cut l l') : Ending l' :=
  h.of_goes_on (h.goes_on hc.goes_on) (hc.emitted.trans (List.append_nil _).symm) (by simp)
    hc.finished

/-- What a session that is opened on a ledger takes over. -/
theorem reopen (he : .terminal ∉ l.emitted) (log : Log) (geometry : TopicGeometry) :
    Ending (l.reopen log geometry) :=
  ⟨fun _ => he, fun hf => by cases hf⟩

theorem turn {φ : Type} {a : Action φ} (h : Ending l) (ht : l.Turn a l')
    (ha : ∀ e ∈ l.emitted, a ≠ .open ∨ e ≠ .terminal) : Ending l' := by
  cases ht with
  | grow => exact h
  | «open» hlog geometry =>
      refine reopen (fun hmem => ?_) _ geometry
      rcases ha _ hmem with ha | ha <;> exact ha rfl
  | op hs => exact h.steps hs
  | cut hs hc => exact (h.steps hs).cut hc
  | kill => exact h

/-- Nothing follows a terminal emission. -/
theorem last (h : Ending l) {a b : List Emission} (he : l.emitted = a ++ .terminal :: b) :
    b = [] := by
  cases hf : l.finished with
  | false => exact absurd (by rw [he]; simp) (h.running hf)
  | true =>
      obtain ⟨-, front, hfront, hnot⟩ := h.ended hf
      rw [hfront] at he
      rcases List.eq_nil_or_concat b with hb | ⟨b', y, rfl⟩
      · exact hb
      · rw [List.concat_eq_append, ← List.cons_append, ← List.append_assoc] at he
        refine absurd ?_ hnot
        rw [(List.append_inj' he rfl).1]
        simp

end Ending

/-! ## Over all sessions -/

variable {φ : Type}

/-- No session is opened on a topic that has ended. -/
def Unended (_ : Setup) (w : World φ) (a : Action φ) : Prop :=
  a = .open → ∀ r ∈ w.records, r.msgType ≠ MSG_TYPE_TERMINAL

instance (c : Setup) (w : World φ) (a : Action φ) : Decidable (Unended c w a) :=
  inferInstanceAs (Decidable (a = .open → ∀ r ∈ w.records, r.msgType ≠ MSG_TYPE_TERMINAL))

/-- A new topic, or one that a restart hosts again: its log names its
geometry. -/
def Rehosted (c : Setup) (w : World φ) (a : Action φ) : Prop :=
  a = .open → w.session = .closed none ∨
    ∃ cfg, topicConfig w.retained = some cfg ∧ c.geometry = cfg.geometry

instance (c : Setup) (w : World φ) (a : Action φ) : Decidable (Rehosted c w a) :=
  inferInstanceAs (Decidable (a = .open → w.session = .closed none ∨
    ∃ cfg ∈ topicConfig w.retained, c.geometry = cfg.geometry))

theorem Emission.Sound.terminal {e : Emission} (h : e.Sound)
    (ht : e.record.msgType = MSG_TYPE_TERMINAL) : e = .terminal := by
  cases e with
  | terminal => rfl
  | data x f =>
      have hc : Mux.isControl f.msgType = false := h
      have ht' : f.msgType = MSG_TYPE_TERMINAL := ht
      rw [ht'] at hc
      cases hc
  | _ => cases ht

theorem Audited.ending [DecidableEq φ] {w : World φ} {l : Ledger} (h : Audited Unended w l) :
    Ending l := by
  refine h.invariant (fun x => Ending x.2) (fun x hx => ?_) fun x y hl hf hx hstep => ?_
  · obtain ⟨-, -, -, hfin, hem⟩ := hx
    refine ⟨fun _ => by simp [hem], fun hf => ?_⟩
    rw [hfin] at hf
    cases hf
  · obtain ⟨c, a, -, ha, ht, -⟩ := hstep
    refine hx.turn ht fun e he => ?_
    by_cases hopen : a = .open
    · refine .inr fun hterm => ha hopen e.record ?_ (by rw [hterm]; rfl)
      rw [hf.records hl]
      exact List.mem_map_of_mem he
    · exact .inl hopen

/-- **Nothing follows the terminal marker**, as long as no restart finds a
topic that has ended. -/
theorem nothing_follows_terminal [DecidableEq φ] {w : World φ}
    (h : Run.Reachable Init (Acting Unended) w) :
    (w.records.filter fun r => r.msgType = MSG_TYPE_TERMINAL).length ≤ 1 ∧
      ∀ a r b, w.records = a ++ r :: b → r.msgType = MSG_TYPE_TERMINAL → b = [] := by
  obtain ⟨l, hl⟩ := exists_audited h
  have hlast : ∀ a r b, w.records = a ++ r :: b → r.msgType = MSG_TYPE_TERMINAL → b = [] := by
    intro a r b hsplit ht
    rw [hl.follows.records hl.sound] at hsplit
    obtain ⟨a', rest, hem, rfl, hrest⟩ := List.map_eq_append_iff.mp hsplit
    obtain ⟨e, b', rfl, rfl, rfl⟩ := List.map_eq_cons_iff.mp hrest
    have he : e = .terminal := (hl.sound.emitted e (by rw [hem]; simp)).terminal ht
    subst he
    rw [hl.ending.last hem]
    rfl
  refine ⟨?_, hlast⟩
  cases hfilter : w.records.filter fun r => r.msgType = MSG_TYPE_TERMINAL with
  | nil => exact Nat.zero_le 1
  | cons r rest =>
      obtain ⟨a, b, hsplit, -, hr, rfl⟩ := List.filter_eq_cons_iff.mp hfilter
      rw [hlast a r b hsplit (by simpa using hr)]
      exact le_refl 1

/-- One member with one record. -/
def oneRecord : Unit → Log := fun _ => .ofRecords "a" 0 [⟨1, 0, []⟩]

theorem bounded_oneRecord : Bounded oneRecord := by
  rintro ⟨⟩
  decide

/-- A topic is killed in the middle of `finish`, hosted again and ended. -/
theorem nothing_follows_terminal_retried :
    ∃ w : World Unit,
      w.records.map Record.msgType = [MSG_TYPE_SLOT_TABLE, 1, MSG_TYPE_MEMBER_CLOSED,
        MSG_TYPE_SLOT_TABLE, MSG_TYPE_MEMBER_CLOSED, MSG_TYPE_SLOT_TABLE, MSG_TYPE_TERMINAL] ∧
      (w.records.filter fun r => r.msgType = MSG_TYPE_TERMINAL).length ≤ 1 := by
  obtain ⟨w, hreach, htypes⟩ := exists_acting Unended ⟨oneRecord, .closed none, []⟩
    ([.open, .op (.addMember "a" 0 (some ())) [], .op .finish [.done 0, .done 0, .killed],
      .open, .op (.addMember "a" 0 (some ())) [], .op .finish [], .op .finish [],
      .op .poll [], .kill].map fun cmd => (plainSetup, cmd))
    (fun w => w.records.map Record.msgType = [MSG_TYPE_SLOT_TABLE, 1, MSG_TYPE_MEMBER_CLOSED,
      MSG_TYPE_SLOT_TABLE, MSG_TYPE_MEMBER_CLOSED, MSG_TYPE_SLOT_TABLE, MSG_TYPE_TERMINAL])
    (init_mk bounded_oneRecord) (by decide +kernel)
  exact ⟨w, htypes, (nothing_follows_terminal hreach).1⟩

/-- **A topic ends twice.** The process is killed after `finish` and before
the topic's directory is removed. The restart finds the slot table that
`finish` left, hosts the topic again, and its next `finish` goes through. -/
theorem terminal_written_twice :
    ∃ w : World Unit, Run.Reachable Init (Acting Rehosted) w ∧
      w.records.map Record.msgType = [MSG_TYPE_SLOT_TABLE, 1, MSG_TYPE_MEMBER_CLOSED,
        MSG_TYPE_SLOT_TABLE, MSG_TYPE_TERMINAL, MSG_TYPE_TERMINAL] :=
  exists_acting Rehosted ⟨oneRecord, .closed none, []⟩
    ([.open, .op (.addMember "a" 0 (some ())) [], .op .finish [], .kill, .open,
      .op .finish []].map fun cmd => (plainSetup, cmd)) _
    (init_mk bounded_oneRecord) (by decide +kernel)

end Mux

end XchannelNet
