import XchannelNet.Mux.Sessions

/-!
# Ledger — the mux record by record

What a mux commits, and by which of its writers each record was committed. A
`Ledger` is a mux without its readers and counters, together with the list of
everything written to the topic so far; an `Act` is one round of the engine: a
change of the slots and the records that belong to it. An operation that stops
on a failing write may leave a `Cut` behind, a round that lacks its slot table.

Unlike the `Topic` of the refinement, which knows records by what they mean,
a ledger keeps the files: where a segment ends, what was pruned, and the bytes
of every record.
-/

namespace XchannelNet

namespace Mux

open Fallible

def SlotEntry.member (e : SlotEntry) : Incarnation := (e.name, e.epoch)

/-- A record of the topic, by what writes it. -/
inductive Emission where
  | slotTable (t : SlotTable)
  | topicGap (e : SlotEntry) (fromIndex resumedAt : ℕ)
  | memberRegressed (e : SlotEntry) (expected head : ℕ)
  | memberClosed (e : SlotEntry)
  | terminal
  | data (e : SlotEntry) (f : RecordFrame)

def Emission.record : Emission → Record
  | .slotTable t => ⟨MSG_TYPE_SLOT_TABLE, 0, encodeSlotTable t.geometry t.members⟩
  | .topicGap e fromIndex resumedAt =>
    ⟨MSG_TYPE_TOPIC_GAP, 0,
      TopicGap.toPayload ⟨e.memberRef, UInt64.ofNat fromIndex, UInt64.ofNat resumedAt⟩⟩
  | .memberRegressed e expected head =>
    ⟨MSG_TYPE_MEMBER_REGRESSED, 0,
      MemberRegressed.toPayload ⟨e.memberRef, UInt64.ofNat expected, UInt64.ofNat head⟩⟩
  | .memberClosed e =>
    ⟨MSG_TYPE_MEMBER_CLOSED, 0, MemberClosed.toPayload ⟨e.memberRef, e.cursor⟩⟩
  | .terminal => ⟨MSG_TYPE_TERMINAL, 0, []⟩
  | .data e f =>
    ⟨f.msgType, 0, frameData ⟨e.memberRef, UInt64.ofNat f.index, f.userMeta⟩ f.payload⟩

structure Ledger where
  log : Log
  geometry : TopicGeometry
  slots : List SlotEntry
  nextRef : UInt16
  finished : Bool
  emitted : List Emission

namespace Ledger

def members (l : Ledger) : List Incarnation := l.slots.map SlotEntry.member

/-- The slot table as it stands. -/
def table (l : Ledger) : Emission := .slotTable ⟨l.geometry, l.slots⟩

def emit (l : Ledger) (e : Emission) : Ledger :=
  { l with log := l.log.commit e.record, emitted := l.emitted ++ [e] }

def roll (l : Ledger) (k : ℕ) : Ledger := { l with log := l.log.rollFile.pruneTo k }

def advance (l : Ledger) (i : ℕ) (e : SlotEntry) (cursor : UInt64) : Ledger :=
  { l with slots := l.slots.set i { e with cursor } }

def bump (l : Ledger) : Ledger := { l with nextRef := l.nextRef + 1 }

def push (l : Ledger) (e : SlotEntry) : Ledger := { l.bump with slots := l.slots ++ [e] }

def erase (l : Ledger) (i : ℕ) : Ledger := { l with slots := l.slots.eraseIdx i }

def terminate (l : Ledger) : Ledger := { l.emit .terminal with finished := true }

/-- A slot that `add_member` may take. -/
structure Admits (l : Ledger) (e : SlotEntry) : Prop where
  running : l.finished = false
  ref : e.memberRef = l.nextRef
  space : l.nextRef ≠ 65535
  new : e.member ∉ l.members
  name : (nameBytes e.name).length < 65536

/-- One round of the engine. Whatever it does it does on behalf of a slot, but
for taking a new ref. -/
inductive Act : Ledger → Ledger → Prop
  | pass {l} {i : ℕ} {e} (h : l.slots[i]? = some e) (cursor : UInt64) : Act l (l.advance i e cursor)
  | merge {l} {i : ℕ} {e f} (h : l.slots[i]? = some e)
      (hrej : rejects l.geometry.mtu f.record = false)
      (cursor : UInt64) : Act l ((l.advance i e cursor).emit (.data e f))
  | refresh {l} {i : ℕ} {e} (h : l.slots[i]? = some e) : Act l (l.emit l.table)
  | roll {l} {i : ℕ} {e} (h : l.slots[i]? = some e) (k : ℕ) : Act l ((l.roll k).emit l.table)
  | bump {l} (h : l.finished = false) (hspace : l.nextRef ≠ 65535) : Act l l.bump
  | attach {l e} (h : l.Admits e) : Act l ((l.push e).emit (l.push e).table)
  | gap {l e} (h : e ∈ l.slots) (a b : ℕ) : Act l (l.emit (.topicGap e a b))
  | regressed {l e} (h : e ∈ l.slots) (a b : ℕ) : Act l (l.emit (.memberRegressed e a b))
  | closing {l} {i : ℕ} {e} (h : l.slots[i]? = some e) : Act l (l.emit (.memberClosed e))
  | detach {l} {i : ℕ} {e before} (h : l.slots[i]? = some e)
      (hclosed : l.emitted = before ++ [.memberClosed e]) :
      Act l ((l.erase i).emit (l.erase i).table)

/-- What a mux does: rounds, and the end of the topic. -/
inductive Step : Ledger → Ledger → Prop
  | act {l l'} (h : Act l l') : Step l l'
  | terminate {l} (h : l.finished = false) (hs : l.slots = []) : Step l l.terminate

/-- A round that a failing write broke off before its slot table. -/
inductive Cut : Ledger → Ledger → Prop
  | roll {l} {i : ℕ} {e} (h : l.slots[i]? = some e) (k : ℕ) : Cut l (l.roll k)
  | attach {l e} (h : l.Admits e) : Cut l (l.push e)
  | detach {l} {i : ℕ} {e before} (h : l.slots[i]? = some e)
      (hclosed : l.emitted = before ++ [.memberClosed e]) : Cut l (l.erase i)

/-- A new session on a ledger. -/
def reopen (l : Ledger) (log : Log) (geometry : TopicGeometry) : Ledger :=
  ⟨log, geometry, [], 0, false, l.emitted⟩

/-- What an action does to the ledger. -/
inductive Turn {φ : Type} : Ledger → Action φ → Ledger → Prop
  | grow {l f x} : Turn l (.grow f x) l
  | «open» {l} {log : Log} (hlog : log.toSegLog = l.log.toSegLog) (geometry : TopicGeometry) :
      Turn l .open (l.reopen log geometry)
  | op {l l' o outcomes r} (h : Relation.ReflTransGen Step l l') :
      Turn l (.op o outcomes r) l'
  | cut {l l₁ l₂ o outcomes e} (h : Relation.ReflTransGen Step l l₁)
      (hc : Cut l₁ l₂) : Turn l (.op o outcomes (.error (.write e))) l₂
  | kill {l} : Turn l .kill l

theorem members_advance {l : Ledger} {i : ℕ} {e : SlotEntry} (h : l.slots[i]? = some e)
    (cursor : UInt64) : (l.advance i e cursor).members = l.members :=
  map_set_eq SlotEntry.member h { e with cursor } rfl

theorem Act.finished {l l' : Ledger} (h : Act l l') : l'.finished = l.finished := by
  cases h <;> rfl

theorem Step.emitted {l l' : Ledger} (h : Step l l') : l.emitted <+: l'.emitted := by
  cases h with
  | act ha => cases ha <;> first | exact List.prefix_refl _ | exact List.prefix_append _ _
  | terminate hf hs => exact List.prefix_append _ _

theorem steps_emitted {l l' : Ledger} (h : Relation.ReflTransGen Step l l') :
    l.emitted <+: l'.emitted := by
  induction h with
  | refl => exact List.prefix_refl _
  | tail _ hstep ih => exact ih.trans hstep.emitted

theorem Cut.emitted {l l' : Ledger} (h : Cut l l') : l'.emitted = l.emitted := by
  cases h <;> rfl

end Ledger

/-! ## The engine keeps its ledger -/

variable {φ : Type}

/-- The mux's own entries in the ledger are right. -/
structure Keeps (m : Mux φ) (l : Ledger) : Prop where
  log : m.topic.log = l.log
  geometry : m.geometry = l.geometry
  slots : m.slots.map Slot.entry = l.slots
  nextRef : m.nextRef = l.nextRef
  finished : m.finished = l.finished

/-- From ledger `l`, an operation that ended as `r` went through whole rounds,
the end of the topic among them, and broke one off only if a write failed. -/
abbrev Runs {α : Type} (l : Ledger) (r : Except MuxError α × Mux φ) : Prop :=
  Ends Keeps Ledger.Step Ledger.Cut Interrupts l r

variable {files : φ → Log} {m m' : Mux φ} {l : Ledger} {i : ℕ} {s : Slot φ}

namespace Keeps

theorem write (h : Keeps m l) {log : Log} (hb : m.Becomes log m') (emitted : List Emission) :
    Keeps m' { l with log, emitted } :=
  ⟨hb.log, hb.geometry.trans h.geometry, (congrArg _ hb.slots).trans h.slots,
    hb.nextRef.trans h.nextRef, hb.finished.trans h.finished⟩

/-- The bookkeeping fields are not in the ledger. -/
theorem frame (h : Keeps m l) (hb : m.Becomes m.topic.log m') : Keeps m' l := by
  have hm := h.write hb l.emitted
  rw [h.log] at hm
  exact hm

theorem emit (h : Keeps m l) {r : Record} (hb : m.Becomes (m.topic.log.commit r) m')
    {e : Emission} (he : e.record = r) : Keeps m' (l.emit e) := by
  have hm := h.write hb (l.emitted ++ [e])
  rw [h.log, ← he] at hm
  exact hm

theorem table (h : Keeps m l) : l.table.record = m.tableRecord := by
  rw [tableRecord, slotTable, h.geometry, h.slots]
  rfl

theorem entry (h : Keeps m l) (hs : m.slots[i]? = some s) : l.slots[i]? = some s.entry := by
  rw [← h.slots, List.getElem?_map, hs, Option.map_some]

theorem members (h : Keeps m l) : m.slots.map Slot.member = l.members := by
  rw [Ledger.members, ← h.slots, List.map_map]
  rfl

/-- The reader of a slot is not in the ledger. -/
theorem read (h : Keeps m l) (hs : m.slots[i]? = some s) (source : ReplicationSource) :
    Keeps (m.setSlot i { s with source }) l :=
  { h with slots := (map_set_eq Slot.entry hs { s with source } rfl).trans h.slots }

/-- The cursor of a slot moves on. -/
theorem moved (h : Keeps m l) (s' : Slot φ) {cursor : UInt64}
    (he : s'.entry = { s.entry with cursor }) :
    Keeps (m.setSlot i s') (l.advance i s.entry cursor) :=
  { h with
    slots := by
      show (m.slots.set i s').map Slot.entry = l.slots.set i _
      rw [List.map_set, h.slots, he] }

theorem erase (h : Keeps m l) (pos : ℕ) : Keeps (m.erase pos) (l.erase pos) :=
  { h with
    slots := by
      show (m.slots.eraseIdx pos).map Slot.entry = l.slots.eraseIdx pos
      rw [← List.eraseIdx_map, h.slots] }

theorem round (h : Keeps m l) (hr : Round files m m') :
    ∃ l', Relation.ReflTransGen Ledger.Step l l' ∧ Keeps m' l' := by
  cases hr with
  | count hm => exact ⟨l, .refl, h.frame hm⟩
  | rest hs _ hm => exact ⟨l, .refl, (h.read hs _).frame hm⟩
  | @reject i s f source m' ht _ hm =>
      have hpass : Keeps (m.passOver i s f source) _ :=
        { h.moved { s.past f source with rejected := s.rejected + 1 } rfl with }
      exact ⟨_, .single (.act (.pass (h.entry ht.slot) _)), hpass.frame hm⟩
  | @merge i s f source m' ht hrej hm =>
      rw [h.geometry] at hrej
      exact ⟨_, .single (.act (.merge (h.entry ht.slot) hrej _)),
        (h.moved (s.past f source) rfl).emit hm rfl⟩
  | refresh hs hm => exact ⟨_, .single (.act (.refresh (h.entry hs))), h.emit hm h.table⟩
  | roll hs k hm =>
      rw [h.log, ← h.table] at hm
      exact ⟨_, .single (.act (.roll (h.entry hs) k)), h.write hm _⟩

theorem move (h : Keeps m l) (hm : Move files m m') :
    ∃ l', Relation.ReflTransGen Ledger.Step l l' ∧ Keeps m' l' := by
  cases hm with
  | terminate hfin hslots hm =>
      have hterm := Ledger.Step.terminate (l := l) (h.finished ▸ hfin)
        (by rw [← h.slots, hslots]; rfl)
      rw [h.log] at hm
      exact ⟨_, .single hterm, ⟨hm.log, hm.geometry.trans h.geometry,
        (congrArg _ hm.slots).trans h.slots, hm.nextRef.trans h.nextRef, hm.finished⟩⟩
  | act hact =>
      cases hact with
      | round hr => exact h.round hr
      | detach hs hm =>
          have hclose := Ledger.Step.act (.closing (h.entry hs))
          rw [h.log, ← (h.erase _).table] at hm
          exact ⟨_, .tail (.single hclose) (.act (.detach (h.entry hs) rfl)),
            (h.erase _).write hm _⟩

theorem tear (h : Keeps m l) (ht : Tear files m m') :
    ∃ l₁, Relation.ReflTransGen Ledger.Step l l₁ ∧
      (Keeps m' l₁ ∨ ∃ l₂, Ledger.Cut l₁ l₂ ∧ Keeps m' l₂) := by
  cases ht with
  | drop hs hm =>
      have hclose := Ledger.Step.act (.closing (h.entry hs))
      rw [h.log] at hm
      exact ⟨_, .single hclose, .inr ⟨_, .detach (h.entry hs) rfl, (h.erase _).write hm _⟩⟩
  | loss hl =>
      cases hl with
      | lose ht _ hm => exact ⟨l, .refl, .inl ((h.read ht.slot _).frame hm)⟩
      | rollLose ht _ k hm =>
          rw [h.log] at hm
          exact ⟨l, .refl, .inr ⟨_, .roll (h.entry ht.slot) k, (h.read ht.slot _).write hm _⟩⟩

theorem not_mem_members (h : Keeps m l) {name : ChannelName} {epoch : UInt64}
    (hnew : m.hasMember name epoch = false) : (name, epoch) ∉ l.members := by
  rw [← h.members]
  intro hmem
  obtain ⟨s, hs, hk⟩ := List.mem_map.mp hmem
  rw [hasMember, List.any_eq_false] at hnew
  refine hnew s hs ?_
  rw [Slot.member, Prod.mk.injEq] at hk
  simp [hk.1, hk.2]

theorem admits (h : Keeps m l) {mark : Mark} (ha : Admits files m s mark)
    (hname : (nameBytes s.name).length < 65536) : l.Admits s.entry :=
  ⟨h.finished ▸ ha.running, ha.ref.trans h.nextRef, h.nextRef ▸ ha.space,
    h.not_mem_members ha.new, hname⟩

theorem bump (h : Keeps m l) : Keeps m.bump l.bump :=
  { h with nextRef := congrArg (· + 1) h.nextRef }

theorem enroll (h : Keeps m l) (s : Slot φ) : Keeps (m.enroll s) (l.push s.entry) :=
  { h.bump with
    slots := by
      show (m.slots ++ [s]).map Slot.entry = l.slots ++ [s.entry]
      rw [List.map_append, h.slots]
      rfl }

/-- What a resumption puts into the topic is on the ledger. -/
theorem mark (h : Keeps m l) {e : SlotEntry} (he : e ∈ l.slots) {mark : Mark}
    (hm : m.Becomes ((mark.records e.memberRef).foldl Log.commit m.topic.log) m') :
    ∃ l', Relation.ReflTransGen Ledger.Step l l' ∧ Keeps m' l' := by
  cases mark with
  | none => exact ⟨l, .refl, h.frame hm⟩
  | gap a b => exact ⟨_, .single (.act (.gap he a b)), h.emit hm rfl⟩
  | regressed a b => exact ⟨_, .single (.act (.regressed he a b)), h.emit hm rfl⟩

end Keeps

theorem addMember_runs (h : Keeps m l) {name : ChannelName} (epoch : UInt64) (file : Option φ)
    (hname : (nameBytes name).length < 65536) :
    Runs l (exec (addMember files name epoch file) m) := by
  have hadm := addMember_admission files name epoch file m
  generalize exec (addMember files name epoch file) m = r at hadm
  cases hadm with
  | present => exact .refl h
  | refused => exact .refl h
  | unsourced hfin hspace =>
      exact .head (.single (.act (.bump (h.finished ▸ hfin) (h.nextRef ▸ hspace)))) (.refl h.bump)
  | @attached s mark m' ha hk hf hm =>
      have hadmits := h.admits ha (by cases hk; exact hname)
      have htable := (h.enroll s).emit (wrote_becomes _ (m.enroll s)) (h.enroll s).table
      obtain ⟨l', hsteps, hm'⟩ := htable.mark
        (List.mem_append_right l.slots (List.mem_singleton_self s.entry)) (hm.of_wrote _)
      exact .head (.head (.act (.attach hadmits)) hsteps) (.refl hm')
  | untabled ha hk hf hm _ =>
      exact .interrupted ⟨_, rfl⟩ (.attach (h.admits ha (by cases hk; exact hname)))
        ((h.enroll _).frame hm)
  | unmarked ha hk hf hmark hm _ =>
      have hattach := Ledger.Act.attach (h.admits ha (by cases hk; exact hname))
      exact .head (.single (.act hattach)) (.refl ((h.enroll _).emit hm (h.enroll _).table))

theorem Op.runs (h : Keeps m l) (o : Op φ) (hv : o.Valid) :
    Runs l (exec (o.run files) m) := by
  by_cases ho : ∃ name epoch file, o = .addMember name epoch file
  · obtain ⟨name, epoch, file, rfl⟩ := ho
    exact addMember_runs h epoch file hv
  · exact (Op.does files (fun name epoch file he => ho ⟨name, epoch, file, he⟩) m).ends Keeps.move
      Keeps.tear h

/-! ## Sessions -/

/-- The ledger behind a session. It is carried on from one to the next; when
none runs, only the log in it means anything. -/
def Follows (w : World φ) (l : Ledger) : Prop :=
  match w.session with
  | .closed none => l.log.toSegLog = .empty 0 ∧ l.emitted = []
  | .closed (some log) => l.log = log
  | .running m _ => Keeps m l

/-- A mux opened on a log: no slots, and the log as it was. -/
theorem open_keeps {disk : Option Log} {name : ChannelName} {geometry : TopicGeometry}
    {batch : ℕ} (h : «open» disk name geometry batch = .ok m)
    (hd : ∀ log, disk = some log → l.log = log) (hn : disk = none → l.log.toSegLog = .empty 0) :
    m.topic.log.toSegLog = l.log.toSegLog ∧ Keeps m (l.reopen m.topic.log geometry) := by
  obtain ⟨_, log, -, hlog, rfl⟩ := open_ok h
  refine ⟨?_, rfl, rfl, rfl, rfl, rfl⟩
  cases disk with
  | none =>
      rw [Log.build_none] at hlog
      cases hlog
      exact (hn rfl).symm
  | some log' => rw [Log.build_some hlog, hd log' rfl]

theorem follows_settle {w : World φ} {opened : List Record} {r : Except MuxError Unit × Mux φ}
    (h : Keeps r.2 l) : Follows (w.settle opened r) l := by
  obtain ⟨r, m⟩ := r
  unfold World.settle
  split
  · cases ‹_ = _›
    exact h.log.symm
  · cases ‹_ = _›
    exact h

/-- Every action of a run is on the ledger. -/
theorem Follows.step [DecidableEq φ] {c : Setup} {w w' : World φ} {a : Action φ}
    (h : Follows w l) (hstep : Step c w a w') : ∃ l', l.Turn a l' ∧ Follows w' l' := by
  cases hstep with
  | grow hg hb => exact ⟨l, .grow, h⟩
  | «open» hs ho =>
      unfold Follows at h
      rw [hs] at h
      rename_i disk m
      obtain ⟨hlog, hm⟩ := open_keeps (l := l) ho
        (fun log hd => by subst hd; exact h) (fun hd => by subst hd; exact h.1)
      exact ⟨_, .open hlog c.geometry, hm⟩
  | op o outcomes hs hv hr =>
      rename_i m opened r
      unfold Follows at h
      rw [hs] at h
      have hm : Keeps (m.within outcomes) l := h.frame (within_becomes outcomes m)
      have hruns : Runs l (exec (o.run w.files) (m.within outcomes)) := Op.runs hm o hv
      obtain ⟨l₁, hsteps, hm₁ | ⟨e, l₂, he, ⟨x, rfl⟩, hcut, hm₂⟩⟩ := hruns
      · rw [hr] at hm₁
        exact ⟨l₁, .op hsteps, follows_settle hm₁⟩
      · rw [hr] at he hm₂
        rw [he]
        exact ⟨l₂, .cut hsteps hcut, follows_settle hm₂⟩
  | kill hs =>
      unfold Follows at h
      rw [hs] at h
      exact ⟨l, .kill, h.log.symm⟩

end Mux

end XchannelNet
