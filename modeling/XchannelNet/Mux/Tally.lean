import XchannelNet.Mux.Sessions

/-!
# Tally — what a session took from its members

The model in which a session's merge is told record by record. A `Line` is a
slot as far as it takes records from its member: its cursor is where it reads
next, and of what it passed over it keeps the number. `out` is what the session
has written, byte for byte, whatever the topic held before it was opened.

Only sessions whose writes all go through are told this way: in such a session
no reader is ever ahead of its cursor between two operations, and a member
that is closed has been drained to its head.
-/

namespace XchannelNet

open Mux

structure Line (φ : Type) where
  memberRef : UInt16
  file : φ
  cursor : ℕ
  rejected : ℕ

namespace Line

variable {φ : Type}

def pass (l : Line φ) : Line φ := { l with cursor := l.cursor + 1 }

/-- Past the record at hand, which is only counted. -/
def skip (l : Line φ) : Line φ := { l.pass with rejected := l.rejected + 1 }

/-- What the mux commits for the record at hand. -/
def data (l : Line φ) (r : Record) : Record :=
  ⟨r.msgType, 0, frameData ⟨l.memberRef, UInt64.ofNat l.cursor, r.userMeta⟩ r.payload⟩

def closed (l : Line φ) : Record :=
  ⟨MSG_TYPE_MEMBER_CLOSED, 0, MemberClosed.toPayload ⟨l.memberRef, UInt64.ofNat l.cursor⟩⟩

end Line

structure Tally (φ : Type) where
  lines : List (Line φ)
  nextRef : UInt16
  out : List Record

/-- A control record other than the close of a member. -/
def Note (r : Record) : Prop := isControl r.msgType = true ∧ r.msgType ≠ MSG_TYPE_MEMBER_CLOSED

namespace Tally

variable {φ : Type}

def write (t : Tally φ) (r : Record) : Tally φ := { t with out := t.out ++ [r] }

def setLine (t : Tally φ) (i : ℕ) (l : Line φ) : Tally φ := { t with lines := t.lines.set i l }

def join (t : Tally φ) (l : Line φ) : Tally φ :=
  { t with lines := t.lines ++ [l], nextRef := t.nextRef + 1 }

def bump (t : Tally φ) : Tally φ := { t with nextRef := t.nextRef + 1 }

def leave (t : Tally φ) (i : ℕ) : Tally φ := { t with lines := t.lines.eraseIdx i }

variable (files : φ → Log) (mtu : UInt32)

/-- Line `i` has record `r` to read next. -/
structure Reads (t : Tally φ) (i : ℕ) (l : Line φ) (r : Record) : Prop where
  line : t.lines[i]? = some l
  record : (files l.file).get? l.cursor = some r

/-- What a mux does other than admitting members. -/
inductive Step : Tally φ → Tally φ → Prop
  | note {t r} (hr : Note r) : Step t (t.write r)
  | reject {t i l r} (h : Reads files t i l r) (hr : rejects mtu r = true) :
      Step t (t.setLine i l.skip)
  | merge {t i l r} (h : Reads files t i l r) (hr : rejects mtu r = false) :
      Step t ((t.setLine i l.pass).write (l.data r))
  | close {t} {i : ℕ} {l : Line φ} (h : t.lines[i]? = some l)
      (hhead : l.cursor = (files l.file).head) : Step t ((t.leave i).write l.closed)

variable {files mtu}

end Tally

namespace Mux

open Fallible

variable {φ : Type}

def Slot.line (s : Slot φ) : Line φ := ⟨s.memberRef, s.file, s.cursor, s.rejected⟩

/-- The tally of a mux that was opened on a topic of the records `base`. -/
structure Counts (base : List Record) (files : φ → Log) (mtu : UInt32) (m : Mux φ)
    (t : Tally φ) : Prop where
  lines : t.lines = m.slots.map Slot.line
  nextRef : t.nextRef = m.nextRef
  records : m.topic.log.records = base ++ t.out
  source : ∀ s ∈ m.slots, s.source.At (files s.file)
  level : ∀ s ∈ m.slots, s.source.nextIndex = s.cursor
  mtu : m.geometry.mtu = mtu

variable {base : List Record} {files : φ → Log} {mtu : UInt32} {m m' : Mux φ} {t : Tally φ}
  {i : ℕ} {s : Slot φ}

theorem note_table (m : Mux φ) : Note m.tableRecord :=
  ⟨rfl, by simp [tableRecord, MSG_TYPE_SLOT_TABLE, MSG_TYPE_MEMBER_CLOSED]⟩

theorem note_mark {memberRef : UInt16} {mark : Mark} :
    ∀ r ∈ mark.records memberRef, Note r := by
  intro r hr
  cases mark with
  | none => cases hr
  | gap a b =>
      cases List.mem_singleton.mp hr
      exact ⟨rfl, by simp [MSG_TYPE_TOPIC_GAP, MSG_TYPE_MEMBER_CLOSED]⟩
  | regressed a b =>
      cases List.mem_singleton.mp hr
      exact ⟨rfl, by simp [MSG_TYPE_MEMBER_REGRESSED, MSG_TYPE_MEMBER_CLOSED]⟩

/-- A reader that finds nothing is at the head. -/
theorem cursor_eq_head {source : ReplicationSource} {l : Log} {cursor : ℕ} (hat : source.At l)
    (hlevel : source.nextIndex = cursor) (hnone : l.get? cursor = none) : cursor = l.head := by
  have hle := hat.valid.index_le
  have hge : l.genesis ≤ cursor := by
    rw [← hlevel, ← hat.index, SegLog.Reader.index, SegLog.segBase]
    omega
  rw [hat.index, hlevel] at hle
  by_contra hne
  obtain ⟨r, hr⟩ := SegLog.get?_isSome_iff.mpr ⟨hge, lt_of_le_of_ne hle hne⟩
  rw [hnone] at hr
  cases hr

namespace Counts

theorem line (h : Counts base files mtu m t) (hs : m.slots[i]? = some s) :
    t.lines[i]? = some s.line := by
  rw [h.lines, List.getElem?_map, hs, Option.map_some]

theorem write (h : Counts base files mtu m t) {log : Log} (hb : m.Becomes log m')
    {out : List Record} (hr : log.records = m.topic.log.records ++ out) :
    Counts base files mtu m' { t with out := t.out ++ out } where
  lines := by rw [hb.slots]; exact h.lines
  nextRef := by rw [hb.nextRef]; exact h.nextRef
  records := by rw [hb.log, hr, h.records, List.append_assoc]
  source := by rw [hb.slots]; exact h.source
  level := by rw [hb.slots]; exact h.level
  mtu := by rw [hb.geometry, h.mtu]

/-- The mux's own counters are not in the tally. -/
theorem frame (h : Counts base files mtu m t) (hb : m.Becomes m.topic.log m') :
    Counts base files mtu m' t := by
  have hm := h.write hb (List.append_nil _).symm
  rwa [List.append_nil] at hm

theorem commit (h : Counts base files mtu m t) {r : Record}
    (hb : m.Becomes (m.topic.log.commit r) m') : Counts base files mtu m' (t.write r) :=
  h.write hb (SegLog.records_append _ _)

theorem setSlot (h : Counts base files mtu m t) (i : ℕ) {s : Slot φ}
    (hat : s.source.At (files s.file)) (hlevel : s.source.nextIndex = s.cursor) :
    Counts base files mtu (m.setSlot i s) (t.setLine i s.line) where
  lines := by
    show t.lines.set i s.line = (m.slots.set i s).map Slot.line
    rw [List.map_set, ← h.lines]
  nextRef := h.nextRef
  records := h.records
  source := Sequence.forall_mem_set h.source _ hat
  level := Sequence.forall_mem_set h.level _ hlevel
  mtu := h.mtu

/-- A frame that is taken off a slot's reader is the record its line is at. -/
theorem reads (h : Counts base files mtu m t) {f : RecordFrame} {source : ReplicationSource}
    (ht : Takes files m i s f source) :
    Tally.Reads files t i s.line f.record ∧ f.index = s.cursor ∧ source.At (files s.file) ∧
      source.nextIndex = s.cursor + 1 := by
  have hmem := List.mem_of_getElem? ht.slot
  obtain ⟨hat, hnext, hidx, hget⟩ := ht.next (h.source s hmem)
  rw [h.level s hmem] at hnext hidx hget
  exact ⟨⟨h.line ht.slot, hget⟩, hidx, hat, hnext⟩

theorem round (h : Counts base files mtu m t) (hr : Round files m m') :
    ∃ t', Relation.ReflTransGen (Tally.Step files mtu) t t' ∧ Counts base files mtu m' t' := by
  cases hr with
  | count hm => exact ⟨t, .refl, h.frame hm⟩
  | @rest i s source m' hs hr hm =>
      have hmem := List.mem_of_getElem? hs
      obtain ⟨hat, hnext, -⟩ := rest_of_none hr (h.source s hmem)
      have hset := @setSlot _ base files mtu m t h i { s with source } hat
        (hnext.trans (h.level s hmem))
      have hsame : t.setLine i ({ s with source } : Slot φ).line = t := by
        obtain ⟨hlt, hl⟩ := List.getElem?_eq_some_iff.mp (h.line hs)
        have hline : t.lines.set i s.line = t.lines := by rw [← hl, List.set_getElem_self]
        exact congrArg (fun lines => { t with lines := lines }) hline
      rw [hsame] at hset
      exact ⟨t, .refl, hset.frame hm⟩
  | @reject i s f source m' ht hrej hm =>
      obtain ⟨hreads, hidx, hat, hnext⟩ := h.reads ht
      rw [h.mtu] at hrej
      have hset := @setSlot _ base files mtu m t h i
        { s.past f source with rejected := s.rejected + 1 } hat
        (hnext.trans (congrArg (· + 1) hidx.symm))
      have hpass : Counts base files mtu (m.passOver i s f source) (t.setLine i s.line.skip) := by
        have hskip : ({ s.past f source with rejected := s.rejected + 1 } : Slot φ).line =
            s.line.skip := by simp [Slot.past, Slot.line, Line.skip, Line.pass, hidx]
        rw [hskip] at hset
        exact { hset with }
      exact ⟨_, .single (.reject hreads hrej), hpass.frame hm⟩
  | @merge i s f source m' ht hrej hm =>
      obtain ⟨hreads, hidx, hat, hnext⟩ := h.reads ht
      rw [h.mtu] at hrej
      have hset := @setSlot _ base files mtu m t h i (s.past f source) hat
        (hnext.trans (congrArg (· + 1) hidx.symm))
      have hpass : (s.past f source).line = s.line.pass := by
        simp [Slot.past, Slot.line, Line.pass, hidx]
      have hdata : s.data f = s.line.data f.record := by rw [Slot.data, hidx]; rfl
      rw [hpass] at hset
      rw [hdata] at hm
      exact ⟨_, .single (.merge hreads hrej), hset.commit hm⟩
  | refresh _ hm => exact ⟨_, .single (.note (note_table m)), h.commit hm⟩
  | roll _ k hm =>
      refine ⟨_, .single (.note (note_table m)), h.write hm ?_⟩
      have hroll : (m.topic.log.rollFile.pruneTo k).records = m.topic.log.records :=
        SegLog.records_roll _
      rw [← hroll]
      exact SegLog.records_append _ _

theorem erase (h : Counts base files mtu m t) (i : ℕ) :
    Counts base files mtu (m.erase i) (t.leave i) where
  lines := by
    show t.lines.eraseIdx i = (m.slots.eraseIdx i).map Slot.line
    rw [h.lines, List.eraseIdx_map]
  nextRef := h.nextRef
  records := h.records
  source s hs := h.source s ((List.eraseIdx_sublist _ _).mem hs)
  level s hs := h.level s ((List.eraseIdx_sublist _ _).mem hs)
  mtu := h.mtu

end Counts

/-! ## Operations -/

/-- From tally `t`, an operation that ended as `r` stopped on a failing write,
or it did whole steps. -/
def Tallies {α : Type} (base : List Record) (files : φ → Log) (mtu : UInt32) (t : Tally φ)
    (r : Except MuxError α × Mux φ) : Prop :=
  (∃ e, r.1 = .error e ∧ Interrupts e) ∨
    ∃ t', Relation.ReflTransGen (Tally.Step files mtu) t t' ∧ Counts base files mtu r.2 t'

theorem Tallies.head {α : Type} {t₁ : Tally φ} {r : Except MuxError α × Mux φ}
    (h : Relation.ReflTransGen (Tally.Step files mtu) t t₁) (h₁ : Tallies base files mtu t₁ r) :
    Tallies base files mtu t r := by
  rcases h₁ with hi | ⟨t₂, h₂, hm⟩
  · exact .inl hi
  · exact .inr ⟨t₂, h.trans h₂, hm⟩

theorem Tallies.sequential (base : List Record) (files : φ → Log) (mtu : UInt32) :
    Sequential fun _ m r => ∀ t, Counts base files mtu m t → Tallies base files mtu t r where
  pure _ _ t h := .inr ⟨t, .refl, h⟩
  bind {α β p q m} hp hq t h := by
    have hp := hp t h
    rcases exec_bind_cases p q m with ⟨x, m₁, hx, hend⟩ | ⟨e, m₁, hx, hend⟩ <;>
      rw [hx] at hp <;> rw [hend]
    · rcases hp with ⟨e, he, -⟩ | ⟨t₁, h₁, hm₁⟩
      · cases he
      · exact .head h₁ (hq x m₁ t₁ hm₁)
    · rcases hp with ⟨e', he, hi⟩ | hwhole
      · cases he
        exact .inl ⟨e, rfl, hi⟩
      · exact .inr hwhole

theorem Counts.tallies (h : Counts base files mtu m t) {α : Type} {Q : α → Mux φ → Prop}
    {r : Except MuxError α × Mux φ}
    (hd : Does (Round files) (Loss files) Interrupts Q m r) : Tallies base files mtu t r := by
  by_cases hi : ∃ e, r.1 = .error e ∧ Interrupts e
  · exact .inl hi
  · exact .inr (exists_steps (hd.whole fun e he hw => hi ⟨e, he, hw⟩).1 Counts.round h)

/-- A removal that succeeds has drained its member. -/
theorem Counts.drained (h : Counts base files mtu m t) {k : Incarnation} {pos : ℕ}
    (hd : Drains files k m pos s (.ok (), m')) {s' : Slot φ} (hs : m'.slots[pos]? = some s')
    (hlevel : s'.source.nextIndex = s'.cursor) : s'.cursor = (files s'.file).head := by
  have hat := h.source s (List.mem_of_getElem? hd.slot)
  have hfuel : (files s.file).head < s.source.nextIndex + s.fuel files := by
    rw [Slot.fuel]
    omega
  have hdone := drain_drained hd.slot hat hfuel
  rw [hd.drain] at hdone
  obtain ⟨s₁, hs₁, hfile, hat₁, hnone⟩ := (hdone.whole (by simp)).2 () rfl
  cases hs.symm.trans hs₁
  rw [if_neg (by simp), hlevel, ← hfile] at hnone
  exact cursor_eq_head (by rwa [hfile]) hlevel hnone

theorem removeMember_tallies (h : Counts base files mtu m t) (name : ChannelName)
    (epoch : UInt64) : Tallies base files mtu t (exec (removeMember files name epoch) m) := by
  have hrem := removeMember_removal files (name, epoch) m
  generalize exec (removeMember files name epoch) m = r at hrem
  cases hrem with
  | absent => exact .inr ⟨t, .refl, h⟩
  | undrained hd =>
      rcases hd.drain ▸ h.tallies (drain_does files _ _ m) with ⟨e', he, hi⟩ | hwhole
      · cases he
        exact .inl ⟨_, rfl, hi⟩
      · exact .inr hwhole
  | unclosed => exact .inl ⟨_, rfl, _, rfl⟩
  | untabled => exact .inl ⟨_, rfl, _, rfl⟩
  | @removed pos s m₁ s₁ m' hd hs hm =>
      rcases hd.drain ▸ h.tallies (drain_does files _ _ m) with ⟨e, he, -⟩ | ⟨t₁, hsteps, hm₁⟩
      · cases he
      · have hhead := h.drained hd hs (hm₁.level s₁ (List.mem_of_getElem? hs))
        have hclosed : Counts base files mtu _ ((t₁.leave pos).write s₁.line.closed) :=
          (hm₁.erase pos).commit (wrote_becomes (m₁.topic.log.commit s₁.closed) (m₁.erase pos))
        exact .inr ⟨_, (hsteps.tail (.close (hm₁.line hs) hhead)).tail
          (.note (note_table (m₁.erase pos))), hclosed.commit (hm.of_wrote _)⟩

theorem finish_tallies (h : Counts base files mtu m t) :
    Tallies base files mtu t (exec (finish files) m) := by
  have hremoved : Tallies base files mtu t (exec (removeMembers files m.attached) m) :=
    removeMembers_sequential (Tallies.sequential base files mtu)
      (fun name epoch _ _ h => removeMember_tallies h name epoch) _ m t h
  have hfin := finish_finishing files m
  generalize exec (finish files) m = r at hfin
  cases hfin with
  | already => exact .inr ⟨t, .refl, h⟩
  | unremoved hr =>
      rw [hr] at hremoved
      exact hremoved
  | unended => exact .inl ⟨_, rfl, _, rfl⟩
  | @ended m₁ m' _ hr hm =>
      rw [hr] at hremoved
      rcases hremoved with ⟨e, he, -⟩ | ⟨t₁, hsteps, hm₁⟩
      · cases he
      · have hend : Counts base files mtu { m₁ with finished := true } t₁ := { hm₁ with }
        exact .inr ⟨_, hsteps.tail (.note ⟨rfl, by simp [MSG_TYPE_TERMINAL,
          MSG_TYPE_MEMBER_CLOSED]⟩), hend.commit hm⟩

/-! ## Joining -/

theorem Counts.enroll (h : Counts base files mtu m t) {mark : Mark} (ha : Admits files m s mark) :
    Counts base files mtu (m.enroll s) (t.join s.line) where
  lines := by
    show t.lines ++ [s.line] = (m.slots ++ [s]).map Slot.line
    rw [List.map_append, List.map_singleton, h.lines]
  nextRef := congrArg (· + 1) h.nextRef
  records := h.records
  source := Sequence.forall_mem_concat h.source ha.place
  level := Sequence.forall_mem_concat h.level ha.position
  mtu := h.mtu

/-- What an attach did to the tally, if its writes went through: nothing, a ref
was used up, or there is one more line and notes to go with it. -/
inductive Joined (t : Tally φ) : Tally φ → Prop
  | unchanged : Joined t t
  | bumped (hspace : t.nextRef ≠ 65535) : Joined t t.bump
  | joined {l : Line φ} {notes : List Record} (href : l.memberRef = t.nextRef)
      (hspace : t.nextRef ≠ 65535) (hrej : l.rejected = 0) (hnotes : ∀ r ∈ notes, Note r) :
      Joined t { t.join l with out := t.out ++ notes }

theorem Joined.out {t t' : Tally φ} (hj : Joined t t') :
    ∃ notes, t'.out = t.out ++ notes ∧ ∀ r ∈ notes, Note r := by
  cases hj with
  | unchanged => exact ⟨[], (List.append_nil _).symm, by simp⟩
  | bumped => exact ⟨[], (List.append_nil _).symm, by simp⟩
  | joined _ _ _ hnotes => exact ⟨_, rfl, hnotes⟩

theorem records_foldl_commit (rs : List Record) (log : Log) :
    (rs.foldl Log.commit log).records = log.records ++ rs := by
  induction rs generalizing log with
  | nil => exact (List.append_nil _).symm
  | cons r rs ih =>
      have hone : (log.commit r).records = log.records ++ [r] := SegLog.records_append _ _
      rw [List.foldl_cons, ih, hone, List.append_assoc]
      rfl

theorem addMember_tallies (h : Counts base files mtu m t) (name : ChannelName) (epoch : UInt64)
    (file : Option φ) :
    (∃ w, (exec (addMember files name epoch file) m).1 = .error (.write w)) ∨
      ∃ t', Joined t t' ∧
        Counts base files mtu (exec (addMember files name epoch file) m).2 t' := by
  have hadm := addMember_admission files name epoch file m
  generalize exec (addMember files name epoch file) m = r at hadm
  cases hadm with
  | present => exact .inr ⟨t, .unchanged, h⟩
  | refused => exact .inr ⟨t, .unchanged, h⟩
  | unsourced _ hspace =>
      exact .inr ⟨t.bump, .bumped (h.nextRef ▸ hspace),
        { h with nextRef := congrArg (· + 1) h.nextRef }⟩
  | untabled => exact .inl ⟨_, rfl⟩
  | unmarked => exact .inl ⟨_, rfl⟩
  | @attached s mark m' ha _ _ hm =>
      have hnotes : ∀ r ∈ (m.enroll s).tableRecord :: mark.records s.memberRef, Note r := by
        intro r hr
        rcases List.mem_cons.mp hr with rfl | hr
        · exact note_table _
        · exact note_mark r hr
      refine .inr ⟨_, .joined (ha.ref.trans h.nextRef.symm) (h.nextRef ▸ ha.space) ha.rejected
        hnotes, (h.enroll ha).write hm ?_⟩
      rw [← List.foldl_cons]
      exact records_foldl_commit _ _

/-! ## Sessions -/

theorem Op.tallies (h : Counts base files mtu m t) {o : Op φ}
    (ho : ∀ name epoch file, o ≠ .addMember name epoch file) :
    Tallies base files mtu t (exec (o.run files) m) := by
  have hseq := Tallies.sequential base files mtu
  cases o with
  | addMember name epoch file => exact absurd rfl (ho name epoch file)
  | mergeOne i => exact h.tallies (mergeOne_does files i m).discard
  | poll => exact h.tallies (poll_does files m).discard
  | removeMember name epoch =>
      exact hseq.bind (fun t h => removeMember_tallies h name epoch) (fun _ => hseq.pure ()) t h
  | finish => exact finish_tallies h

theorem Counts.grow {files' : φ → Log} (h : Counts base files mtu m t)
    (hg : FilesGrow files files') : Counts base files' mtu m t := by
  refine { h with source := fun s hs => ?_ }
  rcases hg s.file with he | hgr
  · rw [he]
    exact h.source s hs
  · exact (h.source s hs).grows hgr

/-- The tally of a running session. -/
structure World.Tallied (c : Setup) (w : World φ) (t : Tally φ) : Prop where
  bounded : Bounded w.files
  session : ∃ m opened, w.session = .running m opened ∧
    Counts opened w.files c.geometry.mtu m t

/-- What an action that goes on with a session does to its tally. -/
inductive Turns (c : Setup) (w : World φ) (t : Tally φ) (w' : World φ) :
    Action φ → Tally φ → Prop
  | grew {f l} (hg : FilesGrow w.files w'.files) : Turns c w t w' (.grow f l) t
  | worked {o outcomes r t'} (hf : w'.files = w.files)
      (h : Relation.ReflTransGen (Tally.Step w.files c.geometry.mtu) t t') :
      Turns c w t w' (.op o outcomes r) t'
  | admitted {name epoch file outcomes r t'} (hf : w'.files = w.files) (h : Joined t t') :
      Turns c w t w' (.op (.addMember name epoch file) outcomes r) t'

/-- The session is neither opened nor ended. -/
def Action.works : Action φ → Bool
  | .grow _ _ => true
  | .op _ _ _ => true
  | .open => false
  | .kill => false

variable {c : Setup} {w w' : World φ}

theorem World.Tallied.slots (h : w.Tallied c t) : t.lines = w.slots.map Slot.line := by
  obtain ⟨m, opened, hs, hm⟩ := h.session
  rw [World.slots, hs]
  exact hm.lines

variable [DecidableEq φ] {a : Action φ}

theorem World.Tallied.open (hb : Bounded w.files) (hs : Step c w .open w') :
    w'.Tallied c ⟨[], 0, []⟩ := by
  cases hs with
  | @«open» disk m hs ho =>
      refine ⟨hb, m, m.topic.log.records, rfl, ?_⟩
      rw [«open»] at ho
      cases hrec : recoverFrom disk with
      | error e =>
          rw [hrec] at ho
          cases ho
      | ok recovered =>
          simp only [hrec, bind, Except.bind] at ho
          split at ho
          · cases ho
          · cases ho
            exact ⟨rfl, rfl, (List.append_nil _).symm, by simp, by simp, rfl⟩

/-- An attach whose writes go through. -/
theorem World.Tallied.attach (h : w.Tallied c t) {name : ChannelName} {epoch : UInt64}
    {file : Option φ} {outcomes : List WriteOutcome} {r : Except MuxError Unit}
    (hs : Step c w (.op (.addMember name epoch file) outcomes r) w')
    (ha : (Action.op (.addMember name epoch file) outcomes r).Completes) :
    ∃ t', w'.Tallied c t' ∧ w'.files = w.files ∧ Joined t t' := by
  obtain ⟨m, opened, hrun, hm⟩ := h.session
  cases hs with
  | @op m' opened' r o outcomes hs hv hr =>
      rw [hrun] at hs
      cases hs
      subst hr
      have hnw := not_write_of_completes ha
      rw [World.settle_running (hnw _)]
      rcases addMember_tallies (hm.frame (within_becomes outcomes m)) name epoch file with
        ⟨e, he⟩ | ⟨t', hj, ht'⟩
      · exact absurd he (hnw e)
      · exact ⟨t', ⟨h.bounded, _, opened, rfl, ht'⟩, rfl, hj⟩

/-- **Step lemma** for a session whose writes all go through. -/
theorem World.Tallied.step (h : w.Tallied c t) (hs : Step c w a w') (ha : a.Completes)
    (hw : a.works = true) : ∃ t', w'.Tallied c t' ∧ Turns c w t w' a t' := by
  obtain ⟨m, opened, hrun, hm⟩ := h.session
  cases hs with
  | @grow f l hg hb =>
      have hgrow : FilesGrow w.files (Function.update w.files f l) := .update hg
      exact ⟨t, ⟨h.bounded.update f hb, m, opened, hrun, hm.grow hgrow⟩, .grew hgrow⟩
  | «open» => cases hw
  | kill => cases hw
  | @op m' opened' r o outcomes hs hv hr =>
      by_cases ho : ∃ name epoch file, o = .addMember name epoch file
      · obtain ⟨name, epoch, file, rfl⟩ := ho
        obtain ⟨t', ht', hf, hj⟩ := h.attach (.op (.addMember name epoch file) outcomes hs hv hr) ha
        exact ⟨t', ht', .admitted hf hj⟩
      · rw [hrun] at hs
        cases hs
        subst hr
        have hnw := not_write_of_completes ha
        rw [World.settle_running (hnw _)]
        rcases Op.tallies (hm.frame (within_becomes outcomes m))
          (fun name epoch file he => ho ⟨name, epoch, file, he⟩) with
          ⟨e, he, e', rfl⟩ | ⟨t', hsteps, ht'⟩
        · exact absurd he (hnw e')
        · exact ⟨t', ⟨h.bounded, _, opened, rfl, ht'⟩, .worked rfl hsteps⟩

end Mux

end XchannelNet
