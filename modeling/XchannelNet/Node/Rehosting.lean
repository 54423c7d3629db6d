import XchannelNet.Mux.Control
import XchannelNet.Mux.Listing
import XchannelNet.Node.Attach

/-!
# Rehosting — a topic's members over restarts

A restart reads the members of a topic off the last slot table of its log and
attaches them one by one; each attachment writes a table of those attached so
far. Between the first of these tables and the last the log lists only some of
the members. Whether a member is lost to the topic is a matter of whether a
process ever ends there.
-/

namespace XchannelNet

open Mux

namespace TopicHost

variable {φ : Type} [DecidableEq φ] (c : Config)

/-- The histories in question: no write fails but the one the process is
killed at, retention is off, and a topic that exists is opened only to re-host
it. Any `add_member` of a restart may fail. -/
structure Proper (n : TopicHost φ) (a : Option (Mux.Action φ)) (n' : TopicHost φ) : Prop where
  writes : ∀ x, a = some x → NoCommitFails c.setup n.world x
  unpruned : n'.world.retained = n'.world.records
  rehosts : a = some .open → n.world.session = .closed none ∨
    ∃ cfg, topicConfig n.world.retained = some cfg ∧
      n'.rehosting = cfg.members.map fun k => (k, false)

/-- A restart gets through: a member is off the list of those to attach again
only once it is attached, and the process does not end while somebody is still
on it, unless the restart has written nothing yet. -/
structure GetsThrough (n n' : TopicHost φ) : Prop where
  attached : ∀ m opened k b, n'.world.session = .running m opened → (k, b) ∈ n.rehosting →
    (∃ b', (k, b') ∈ n'.rehosting) ∨ k ∈ n'.world.slots.map Slot.member
  killed : ∀ m opened disk, n.world.session = .running m opened →
    n'.world.session = .closed disk → n.rehosting = [] ∨ n'.world.records = opened

/-- Those a restart has not come to yet. -/
def Late (n : TopicHost φ) (k : Incarnation) : Prop := ∃ b, (k, b) ∈ n.rehosting

/-- The session and who is a member. -/
def Accounts (late : Incarnation → Prop) (l : Ledger) : Session φ → Prop
  | .closed _ => Listed l.emitted
  | .running _ opened => Covered late l ∧
      ∃ es, es <+: l.emitted ∧ es.map Emission.record = opened ∧ Listed es

structure Kept (n : TopicHost φ) (l : Ledger) : Prop where
  follows : Follows n.world l
  sound : l.Sound
  filed : Filed (n.world, l)
  unpruned : n.world.retained = n.world.records
  accounts : Accounts n.Late l n.world.session

variable {c} {n n' : TopicHost φ} {l l' : Ledger} {a : Option (Mux.Action φ)}

omit [DecidableEq φ] in
theorem proper_iff : n.Proper c a n' ↔ (∀ x ∈ a, NoCommitFails c.setup n.world x) ∧
    n'.world.retained = n'.world.records ∧
    ((∃ x ∈ a, x = .open) → n.world.session = .closed none ∨
      ∃ cfg ∈ topicConfig n.world.retained,
        n'.rehosting = cfg.members.map fun k => (k, false)) := by
  constructor
  · rintro ⟨hw, hu, ho⟩
    refine ⟨hw, hu, ?_⟩
    rintro ⟨x, hx, rfl⟩
    exact ho hx
  · rintro ⟨hw, hu, ho⟩
    exact ⟨hw, hu, fun ha => ho ⟨_, ha, rfl⟩⟩

instance : Decidable (n.Proper c a n') := decidable_of_iff _ proper_iff.symm

/-- The records a running session found. -/
def opened? (n : TopicHost φ) : Option (List Record) :=
  match n.world.session with
  | .closed _ => none
  | .running _ opened => some opened

omit [DecidableEq φ] in
theorem getsThrough_iff : n.GetsThrough n' ↔
    (n'.opened? = none ∨ ∀ x ∈ n.rehosting,
      (∃ y ∈ n'.rehosting, y.1 = x.1) ∨ ∃ s ∈ n'.world.slots, s.member = x.1) ∧
    ∀ opened ∈ n.opened?, n'.opened?.isSome = true ∨ n.rehosting = [] ∨
      n'.world.records = opened := by
  unfold opened?
  constructor
  · rintro ⟨ha, hk⟩
    constructor
    · cases hs' : n'.world.session with
      | closed disk => exact .inl rfl
      | running m opened =>
          refine .inr fun x hx => ?_
          rcases ha m opened x.1 x.2 hs' hx with ⟨b', hb'⟩ | hk
          · exact .inl ⟨_, hb', rfl⟩
          · exact .inr (List.mem_map.mp hk)
    · intro opened ho
      cases hs : n.world.session with
      | closed disk =>
          rw [hs] at ho
          cases ho
      | running m opened' =>
          rw [hs] at ho
          cases ho
          cases hs' : n'.world.session with
          | closed disk => exact .inr (hk m opened disk hs hs')
          | running m' opened' => exact .inl rfl
  · rintro ⟨ha, hk⟩
    refine ⟨fun m opened k b hs' hb => ?_, fun m opened disk hs hs' => ?_⟩
    · rw [hs'] at ha
      rcases ha.resolve_left (by simp) _ hb with ⟨⟨k', b'⟩, hmem, rfl⟩ | hk
      · exact .inl ⟨b', hmem⟩
      · exact .inr (List.mem_map.mpr hk)
    · rw [hs, hs'] at hk
      exact (hk opened rfl).resolve_left (by simp)

instance : Decidable (n.GetsThrough n') := decidable_of_iff _ getsThrough_iff.symm

omit [DecidableEq φ] in
/-- Whoever is off the list is attached. -/
theorem GetsThrough.covered (h : n.GetsThrough n') (hcov : Covered n.Late l')
    (hf : Follows n'.world l') {m : Mux φ} {opened : List Record}
    (hs : n'.world.session = .running m opened) : Covered n'.Late l' := by
  have hm : Keeps m l' := by
    unfold Follows at hf
    rwa [hs] at hf
  intro k hk
  rcases hcov k hk with hmem | ⟨b, hb⟩
  · exact .inl hmem
  · rcases h.attached m opened k b hs hb with hlate | hslot
    · exact .inr hlate
    · rw [World.slots, hs, hm.members] at hslot
      exact .inl hslot

omit [DecidableEq φ] in
/-- A session goes on, or ends. -/
theorem Kept.goes (h : Kept n l) {x : Mux.Action φ} (ht : l.Turn x l') (hx : x ≠ .open)
    (hg : n.GetsThrough n') (hf : Follows n'.world l') (hsound : l'.Sound) {m : Mux φ}
    {opened : List Record} (hs : n.world.session = .running m opened)
    (hs' : ∀ m' opened', n'.world.session = .running m' opened' → opened' = opened) :
    Accounts n'.Late l' n'.world.session := by
  have hacc := h.accounts
  rw [hs] at hacc
  obtain ⟨hcov, es, hpre, hes, hlisted⟩ := hacc
  have hpre' := hpre.trans ht.emitted
  cases hsess : n'.world.session with
  | running m' opened' =>
      obtain rfl := hs' m' opened' hsess
      exact ⟨hg.covered (hcov.turn ht hx) hf hsess, es, hpre', hes, hlisted⟩
  | closed disk =>
      rcases hg.killed m opened disk hs hsess with hnil | hrec
      · -- nobody is late, so the last table says it all
        have hcov' : Covered (fun _ => False) l := fun k hk => (hcov k hk).imp id fun hlate => by
          obtain ⟨b, hb⟩ := hlate
          rw [hnil] at hb
          cases hb
        have htidy : Tidy l := by
          have hfiled := h.filed
          unfold Filed at hfiled
          rwa [hs] at hfiled
        exact hcov'.listed_turn h.sound htidy ht hx
      · -- nothing was written since the topic was opened
        have hlen : l'.emitted.length = es.length := by
          rw [hf.records hsound, ← hes] at hrec
          simpa using congrArg List.length hrec
        show Listed l'.emitted
        rw [← hpre'.eq_of_length hlen.symm]
        exact hlisted

omit [DecidableEq φ] in
/-- A topic is opened: those its log lists are to be attached. -/
theorem Kept.opens (h : Kept n l) {log : Log} {geometry : TopicGeometry} {m : Mux φ}
    {disk : Option Log} (hlog : log.toSegLog = l.log.toSegLog) (hs : n.world.session = .closed disk)
    (hs' : n'.world.session = .running m m.topic.log.records)
    (hf : Follows n'.world (l.reopen log geometry)) (hp : n.Proper c (some .open) n') :
    Accounts n'.Late (l.reopen log geometry) n'.world.session := by
  have hlisted : Listed l.emitted := by
    have hacc := h.accounts
    rwa [hs] at hacc
  have hsound := h.sound.reopen hlog geometry
  rw [hs']
  refine ⟨fun k hk => .inr ?_, l.emitted, List.prefix_refl _, ?_, hlisted⟩
  · obtain ⟨t, ht, hmem⟩ := hlisted k hk
    rcases hp.rehosts rfl with hnone | ⟨cfg, hcfg, hre⟩
    · -- a topic that does not exist has no members
      have hem := h.follows
      unfold Follows at hem
      rw [hnone] at hem
      rw [hem.2] at ht
      cases ht
    · rw [h.unpruned, h.follows.records h.sound, topicConfig_eq,
        lastTable_records h.sound.emitted, ht, Option.map_some, Option.some.injEq] at hcfg
      refine ⟨false, ?_⟩
      rw [hre, ← hcfg]
      exact List.mem_map_of_mem hmem
  · have hrec := hf.records hsound
    rw [World.records, hs'] at hrec
    exact hrec.symm

/-- **Step lemma.** -/
theorem Kept.step (h : Kept n l) (hstep : n.Step c a n') (hp : n.Proper c a n')
    (hg : n.GetsThrough n') : ∃ l', Kept n' l' := by
  rcases hstep.moves with ⟨-, hw⟩ | ⟨x, rfl, hx⟩
  · refine ⟨l, hw ▸ h.follows, h.sound, ?_, hp.unpruned, ?_⟩
    · rw [hw]
      exact h.filed
    · have hacc := h.accounts
      cases hsess : n'.world.session with
      | closed disk =>
          rw [← hw, hsess] at hacc
          exact hacc
      | running m opened =>
          rw [← hw, hsess] at hacc
          exact ⟨hg.covered hacc.1 (hw ▸ h.follows) hsess, hacc.2⟩
  · obtain ⟨l', ht, hf⟩ := h.follows.step hx
    have hsound := h.sound.turn ht
    have hfiled : Filed (n'.world, l') :=
      h.filed.auditing h.sound ⟨c.setup, x, hx, hp.writes x rfl, ht, hf⟩
    refine ⟨l', hf, hsound, hfiled, hp.unpruned, ?_⟩
    obtain ⟨w', hw', hx'⟩ : ∃ w', n'.world = w' ∧ Mux.Step c.setup n.world x w' := ⟨_, rfl, hx⟩
    cases hx' with
    | grow hgrow hb =>
        have hsess : n'.world.session = n.world.session := by rw [hw']
        rcases hs : n.world.session with disk | ⟨m, opened⟩
        · cases ht
          have hacc := h.accounts
          rw [hs] at hacc
          rw [hsess, hs]
          exact hacc
        · refine h.goes ht (by simp) hg hf hsound hs fun m' opened' hs' => ?_
          rw [hsess, hs] at hs'
          cases hs'
          rfl
    | «open» hs ho =>
        cases ht with
        | «open» hlog geometry => exact h.opens hlog hs (by rw [hw']) hf hp
    | op o outcomes hs hv hr =>
        refine h.goes ht (by simp) hg hf hsound hs fun m' opened' hs' => ?_
        rw [hw'] at hs'
        exact World.opened_settle hs'
    | kill hs =>
        refine h.goes ht (by simp) hg hf hsound hs fun m' opened' hs' => ?_
        rw [hw'] at hs'
        cases hs'

omit [DecidableEq φ] in
theorem Kept.init (h : Init n) : Kept n .blank := by
  have hu : Unwritten (n.world, .blank) := unwritten_blank h.2.2.2.2.2
  refine ⟨hu.follows, hu.sound, hu.filed, ?_, ?_⟩
  · rw [World.retained, World.records, hu.1.1]
  · rw [hu.1.1]
    intro k hk
    cases hk

/-- Whether the process is down. -/
def down (n : TopicHost φ) : Bool :=
  match n.world.session with
  | .closed _ => true
  | .running _ _ => false

end TopicHost

end XchannelNet
