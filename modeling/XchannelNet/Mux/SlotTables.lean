import XchannelNet.Lib.Sequence
import XchannelNet.Mux.Attaching

/-!
# SlotTables — what the slot tables of a session say

The encoder writes the number of entries and the length of every name as two
bytes, whatever they are. That no table is cut short by it is a matter of what a
session can get to: refs are given out in order and none twice, so there are at
most as many slots as refs, and names are short. `Sound` says the rest: every
slot is inside its member's log, so its cursor is 64 bits, and the geometry is
the one the topic was opened with.

A write that fails leaves the mux as it was when the write was tried. So the
states in which an operation writes a table are among those it can end in.
-/

namespace XchannelNet

namespace Mux

open Fallible

variable {φ : Type} {files : φ → Log} {g : TopicGeometry}

/-- The refs of the attached slots. -/
def refs (m : Mux φ) : List UInt16 := m.slots.map Slot.memberRef

/-! ## Slots inside their members' logs -/

/-- A slot whose entry in a table says all of it. -/
structure Slot.Fits (files : φ → Log) (s : Slot φ) : Prop where
  name : (nameBytes s.name).length < 65536
  source : s.source.At (files s.file)
  cursor : s.cursor ≤ (files s.file).head

structure Sound (files : φ → Log) (g : TopicGeometry) (m : Mux φ) : Prop where
  geometry : m.geometry = g
  slots : ∀ s ∈ m.slots, s.Fits files

/-- Sound, with attached refs among those that were `given`, in their order. -/
structure Standing (files : φ → Log) (g : TopicGeometry) (given : List UInt16) (next : UInt16)
    (m : Mux φ) : Prop extends Sound files g m where
  refs : m.refs.Sublist given
  nextRef : m.nextRef = next

variable {m m' : Mux φ}

theorem Sound.frame {log : Log} (h : Sound files g m) (hb : m.Becomes log m') :
    Sound files g m' := ⟨hb.geometry.trans h.geometry, hb.slots ▸ h.slots⟩

namespace Standing

variable {given : List UInt16} {next : UInt16} {i : ℕ} {s : Slot φ} {f : RecordFrame}
  {source : ReplicationSource}

theorem frame {log : Log} (h : Standing files g given next m) (hb : m.Becomes log m') :
    Standing files g given next m' :=
  ⟨h.toSound.frame hb, by rw [Mux.refs, hb.slots]; exact h.refs, hb.nextRef.trans h.nextRef⟩

/-- One slot is changed, and keeps its ref. -/
theorem setSlot (h : Standing files g given next m) (hs : m.slots[i]? = some s) {s' : Slot φ}
    (hf : s'.Fits files) (href : s'.memberRef = s.memberRef) :
    Standing files g given next (m.setSlot i s') := by
  refine ⟨⟨h.geometry, Sequence.forall_mem_set h.slots i hf⟩, ?_, h.nextRef⟩
  show ((m.slots.set i s').map Slot.memberRef).Sublist given
  rw [map_set_eq Slot.memberRef hs s' href]
  exact h.refs

theorem erase (h : Standing files g given next m) (pos : ℕ) :
    Standing files g given next (m.erase pos) :=
  ⟨⟨h.geometry, fun s hs => h.slots s ((List.eraseIdx_sublist _ _).mem hs)⟩,
    ((List.eraseIdx_sublist _ _).map _).trans h.refs, h.nextRef⟩

/-- A frame that is read is a frame of the log, so there is room behind it. -/
theorem past (h : Standing files g given next m) (ht : Takes files m i s f source)
    (rejected : ℕ) :
    ({ s with source } : Slot φ).Fits files ∧
      ({ s.past f source with rejected } : Slot φ).Fits files := by
  have hfits := h.slots s (List.mem_of_getElem? ht.slot)
  obtain ⟨hat, -, hidx, hget⟩ := ht.next hfits.source
  have hlt := (SegLog.get?_isSome_iff.mp ⟨_, hget⟩).2
  refine ⟨⟨hfits.name, hat, hfits.cursor⟩, ⟨hfits.name, hat, ?_⟩⟩
  show f.index + 1 ≤ (files s.file).head
  rw [hidx]
  exact hlt

theorem round (h : Standing files g given next m) (hr : Round files m m') :
    Standing files g given next m' := by
  cases hr with
  | count hm => exact h.frame hm
  | @rest i s source m' hs hr hm =>
      have hfits := h.slots s (List.mem_of_getElem? hs)
      have hread : ({ s with source } : Slot φ).Fits files :=
        ⟨hfits.name, (rest_of_none hr hfits.source).1, hfits.cursor⟩
      exact (h.setSlot hs hread rfl).frame hm
  | @reject i s f source m' ht _ hm =>
      have hpass : Standing files g given next (m.passOver i s f source) :=
        { h.setSlot ht.slot (h.past ht (s.rejected + 1)).2 rfl with }
      exact hpass.frame hm
  | @merge i s f source m' ht _ hm =>
      exact (h.setSlot ht.slot (h.past ht s.rejected).2 rfl).frame hm
  | refresh _ hm => exact h.frame hm
  | roll _ _ hm => exact h.frame hm

theorem move (h : Standing files g given next m) (hm : Move files m m') :
    Standing files g given next m' := by
  cases hm with
  | terminate _ _ hm =>
      have hend : Standing files g given next { m with finished := true } := { h with }
      exact hend.frame hm
  | act hact =>
      cases hact with
      | round hr => exact h.round hr
      | detach _ hm => exact (h.erase _).frame hm

theorem tear (h : Standing files g given next m) (ht : Tear files m m') :
    Standing files g given next m' := by
  cases ht with
  | drop _ hm => exact (h.erase _).frame hm
  | loss hl =>
      cases hl with
      | lose ht _ hm => exact (h.setSlot ht.slot (h.past ht 0).1 rfl).frame hm
      | rollLose ht _ _ hm => exact (h.setSlot ht.slot (h.past ht 0).1 rfl).frame hm

end Standing

/-! ## Attaching -/

/-- A new slot starts inside its member's log. -/
theorem Sound.enroll (h : Sound files g m) {s : Slot φ} {mark : Mark} (ha : Admits files m s mark)
    (hname : (nameBytes s.name).length < 65536) : Sound files g (m.enroll s) := by
  refine ⟨h.geometry, fun x hx => ?_⟩
  rcases List.mem_append.mp hx with hx | hx
  · exact h.slots x hx
  · cases List.mem_singleton.mp hx
    exact ⟨hname, ha.place, (resume_bounds (files s.file).earliest_le_head ha.resume).2⟩

theorem addMember_sound {name : ChannelName} (hname : (nameBytes name).length < 65536)
    (epoch : UInt64) (file : Option φ) :
    Leads (Sound files g) (addMember files name epoch file) (Sound files g) := by
  intro m h
  have hadm := addMember_admission files name epoch file m
  generalize exec (addMember files name epoch file) m = r at hadm
  cases hadm with
  | present => exact h
  | refused => exact h
  | unsourced => exact ⟨h.geometry, h.slots⟩
  | attached ha hk _ hm => exact (h.enroll ha (by cases hk; exact hname)).frame hm
  | untabled ha hk _ hm _ => exact (h.enroll ha (by cases hk; exact hname)).frame hm
  | unmarked ha hk _ _ hm _ => exact (h.enroll ha (by cases hk; exact hname)).frame hm

/-- The refs of the slots an operation added. -/
def added (m m' : Mux φ) : List UInt16 := (m'.slots.drop m.slots.length).map Slot.memberRef

/-- What an attach gives out is the next ref, or nothing. -/
theorem addMember_added {name : ChannelName} {epoch : UInt64} {file : Option φ} {m m' : Mux φ}
    {r : Except MuxError Unit} (h : exec (addMember files name epoch file) m = (r, m')) :
    m'.refs = m.refs ++ m.added m' ∧
      (m'.nextRef = m.nextRef ∧ m.added m' = [] ∨
        m.nextRef ≠ 65535 ∧ m'.nextRef = m.nextRef + 1 ∧
          (m.added m' = [] ∨ m.added m' = [m.nextRef])) := by
  rcases addMember_cases h with ⟨rfl, -⟩ | ⟨hopen, rfl, -⟩ |
    ⟨hopen, s, -, href, hslots, hnext⟩
  · simp [added]
  · simp [added, refs, (not_or.mp hopen).2]
  · have hne := (not_or.mp hopen).2
    simp [added, refs, hslots, hnext, href, hne]

/-! ## A session -/

/-- The members' logs, the mux, and the refs of all slots of the session so
far, in the order in which they were attached. -/
structure Life (φ : Type) where
  files : φ → Log
  mux : Mux φ
  given : List UInt16

namespace Life

/-- The mux after an operation, whatever becomes of its writes. -/
def after (x : Life φ) (o : Op φ) (outcomes : List WriteOutcome) : Mux φ :=
  (exec (o.run x.files) (x.mux.within outcomes)).2

/-- A member's log grows, or an operation is run. -/
inductive Step [DecidableEq φ] (x : Life φ) : Life φ → Prop
  | grow {f : φ} {l : Log} (h : (x.files f).Grows l) (hb : l.head < 2 ^ 64) :
      Step x { x with files := Function.update x.files f l }
  | op (o : Op φ) (outcomes : List WriteOutcome) (hv : o.Valid) :
      Step x { x with
        mux := x.after o outcomes
        given := x.given ++ x.mux.added (x.after o outcomes) }

/-- A topic was opened, on any disk. -/
def Init (g : TopicGeometry) (x : Life φ) : Prop :=
  Bounded x.files ∧ x.given = [] ∧
    ∃ disk name maxBatchPerMember, «open» disk name g maxBatchPerMember = .ok x.mux

structure Inv (g : TopicGeometry) (x : Life φ) : Prop where
  bounded : Bounded x.files
  standing : Standing x.files g x.given x.mux.nextRef x.mux
  increasing : x.given.Pairwise (· < ·)
  fresh : ∀ r ∈ x.given, r < x.mux.nextRef

variable {x x' : Life φ}

theorem Inv.init (h : Init g x) : Inv g x := by
  obtain ⟨hb, hgiven, disk, name, batch, hopen⟩ := h
  obtain ⟨_, log, -, -, hmux⟩ := open_ok hopen
  have hslots : x.mux.slots = [] := congrArg Mux.slots hmux
  have hgeometry : x.mux.geometry = g := congrArg Mux.geometry hmux
  refine ⟨hb, ⟨⟨hgeometry, by simp [hslots]⟩, by simp [refs, hslots], rfl⟩, ?_, ?_⟩ <;>
    simp [hgiven]

/-- A log that grew has room for the slots that were in it. -/
theorem Inv.grow [DecidableEq φ] (h : Inv g x) {f : φ} {l : Log} (hg : (x.files f).Grows l)
    (hb : l.head < 2 ^ 64) : Inv g { x with files := Function.update x.files f l } := by
  refine ⟨h.bounded.update f hb, ⟨⟨h.standing.geometry, fun s hs => ?_⟩, h.standing.refs, rfl⟩,
    h.increasing, h.fresh⟩
  have hfits := h.standing.slots s hs
  have hgrow := FilesGrow.update hg
  exact ⟨hfits.name, hgrow.at hfits.source, hfits.cursor.trans (hgrow.head_le s.file)⟩

/-- An operation that keeps the refs gives none out. -/
theorem Inv.keep (h : Inv g x) {m' : Mux φ}
    (hs : ∀ given next, Standing x.files g given next x.mux → Standing x.files g given next m') :
    Inv g { x with mux := m', given := x.given ++ x.mux.added m' } := by
  have hm := hs _ _ h.standing
  have hself := hs x.mux.refs x.mux.nextRef
    ⟨h.standing.toSound, List.Sublist.refl _, rfl⟩
  have hlen : m'.slots.length ≤ x.mux.slots.length := by
    have hle := hself.refs.length_le
    simpa [refs] using hle
  have hadded : x.mux.added m' = [] := by simp [added, hlen]
  rw [hadded, List.append_nil]
  refine ⟨h.bounded, ⟨hm.toSound, hm.refs, rfl⟩, h.increasing, ?_⟩
  rw [hm.nextRef]
  exact h.fresh

theorem Inv.attach (h : Inv g x) {m' : Mux φ} (hsound : Sound x.files g m')
    (hrefs : m'.refs = x.mux.refs ++ x.mux.added m')
    (hadds : m'.nextRef = x.mux.nextRef ∧ x.mux.added m' = [] ∨
      x.mux.nextRef ≠ 65535 ∧ m'.nextRef = x.mux.nextRef + 1 ∧
        (x.mux.added m' = [] ∨ x.mux.added m' = [x.mux.nextRef])) :
    Inv g { x with mux := m', given := x.given ++ x.mux.added m' } := by
  have hsub : m'.refs.Sublist (x.given ++ x.mux.added m') := by
    rw [hrefs]
    exact h.standing.refs.append_right _
  rcases hadds with ⟨hnext, hnone⟩ | ⟨hne, hnext, hadds⟩
  · rw [hnone, List.append_nil] at hsub ⊢
    refine ⟨h.bounded, ⟨hsound, hsub, rfl⟩, h.increasing, ?_⟩
    rw [hnext]
    exact h.fresh
  · have hlt : ∀ r ∈ x.given, r < m'.nextRef := by
      intro r hr
      rw [hnext]
      exact Topic.lt_nextRef_succ hne (UInt16.le_of_lt (h.fresh r hr))
    refine ⟨h.bounded, ⟨hsound, hsub, rfl⟩, ?_, ?_⟩ <;>
      rcases hadds with hadds | hadds <;> rw [hadds]
    · rw [List.append_nil]
      exact h.increasing
    · refine List.pairwise_append.mpr ⟨h.increasing, List.pairwise_singleton _ _, ?_⟩
      intro r hr r' hr'
      rw [List.mem_singleton.mp hr']
      exact h.fresh r hr
    · rw [List.append_nil]
      exact hlt
    · intro r hr
      rcases List.mem_append.mp hr with hr | hr
      · exact hlt r hr
      · rw [List.mem_singleton.mp hr]
        show x.mux.nextRef < m'.nextRef
        rw [hnext]
        exact Topic.lt_nextRef_succ hne (UInt16.le_refl _)

theorem Inv.step [DecidableEq φ] (h : Inv g x) (hs : Step x x') : Inv g x' := by
  cases hs with
  | grow hg hb => exact h.grow hg hb
  | op o outcomes hv =>
      by_cases ho : ∃ name epoch file, o = .addMember name epoch file
      · obtain ⟨name, epoch, file, rfl⟩ := ho
        have hsound := addMember_sound hv epoch file (x.mux.within outcomes)
          (h.standing.toSound.frame (within_becomes outcomes x.mux))
        rcases hr : exec (addMember x.files name epoch file) (x.mux.within outcomes) with ⟨r, m'⟩
        have hafter : x.after (.addMember name epoch file) outcomes = m' := congrArg Prod.snd hr
        rw [hr] at hsound
        obtain ⟨hrefs, hadds⟩ := addMember_added hr
        rw [hafter]
        exact h.attach hsound hrefs hadds
      · have hdoes := Op.does x.files
          (fun name epoch file he => ho ⟨name, epoch, file, he⟩) (x.mux.within outcomes)
        exact h.keep fun given next hm =>
          hdoes.keeps Standing.move Standing.tear (hm.frame (within_becomes outcomes x.mux))

/-! ## What the tables say -/

theorem Inv.nodup (h : Inv g x) : x.given.Nodup :=
  h.increasing.imp fun hlt => UInt16.ne_of_lt hlt

theorem Inv.length_le (h : Inv g x) : x.mux.slots.length ≤ 65535 := by
  have hlen := length_le_of_refs (h.nodup.sublist h.standing.refs) fun r hr =>
    h.fresh r (h.standing.refs.subset hr)
  have hlt := x.mux.nextRef.toNat_lt
  rw [refs, List.length_map] at hlen
  omega

theorem Inv.entries (h : Inv g x) :
    (x.mux.slots.map Slot.entry).length < 65536 ∧
      ∀ e ∈ x.mux.slots.map Slot.entry, (nameBytes e.name).length < 65536 := by
  refine ⟨?_, fun e he => ?_⟩
  · rw [List.length_map]
    exact Nat.lt_succ_of_le h.length_le
  · obtain ⟨s, hs, rfl⟩ := List.mem_map.mp he
    exact (h.standing.slots s hs).name

theorem Inv.decode (h : Inv g x) :
    decodeSlotTable x.mux.slotTable = .ok ⟨g, x.mux.slots.map Slot.entry⟩ := by
  rw [slotTable, h.standing.geometry]
  exact decodeSlotTable_encodeSlotTable g h.entries.1 h.entries.2

end Life

/-- **Slot tables round-trip in every session**: on any disk, over any sequence
of operations and whatever becomes of their writes, refs are given out once,
and the table of the attached slots is read back as they are; no part of it is
read for a whole one, nor a table of another version. -/
theorem slotTable_roundtrip [DecidableEq φ] {x : Life φ}
    (h : Run.Reachable (Life.Init g) Life.Step x) :
    x.mux.refs.Nodup ∧ x.given.Nodup ∧ x.mux.refs.Sublist x.given ∧
    x.mux.slots.length ≤ 65535 ∧
    (∀ outcomes m', exec emitSlotTable (x.mux.within outcomes) = (.ok (), m') →
      m'.topic.log = x.mux.topic.log.commit ⟨MSG_TYPE_SLOT_TABLE, 0, x.mux.slotTable⟩) ∧
    (∃ t, decodeSlotTable x.mux.slotTable = .ok t ∧ t.geometry = g ∧
      t.members.map (fun e => (e.memberRef, e.name, e.epoch, e.cursor.toNat)) =
        x.mux.slots.map fun s => (s.memberRef, s.name, s.epoch, s.cursor)) ∧
    (∀ b, b <+: x.mux.slotTable → b ≠ x.mux.slotTable →
      decodeSlotTable b = .error .truncatedSlotTable) ∧
    ∀ v b, v ≠ SLOT_TABLE_VERSION → decodeSlotTable (v :: b) = .error (.slotTableVersion v) := by
  have hinv : Life.Inv g x := h.invariant (fun _ => .init) fun _ _ hx hs => hx.step hs
  refine ⟨hinv.nodup.sublist hinv.standing.refs, hinv.nodup, hinv.standing.refs, hinv.length_le,
    fun outcomes m' hm => ?_, ⟨_, hinv.decode, rfl, ?_⟩, fun b hb hne => ?_,
    fun v b hv => decodeSlotTable_of_version hv b⟩
  · rcases emitSlotTable_writes (x.mux.within outcomes) with ⟨m₁, hp, h₁, -⟩ | ⟨e, m₁, hp, -⟩ <;>
      cases hm.symm.trans hp
    exact h₁.log
  · rw [List.map_map]
    refine List.map_congr_left fun s hs => ?_
    have hlt := (hinv.standing.slots s hs).cursor.trans_lt (hinv.bounded s.file)
    show (s.memberRef, s.name, s.epoch, (UInt64.ofNat s.cursor).toNat) = _
    rw [toNat_ofNat_of_lt hlt]
  · obtain ⟨t, ht⟩ := hb
    have hcut : t ≠ [] := by
      rintro rfl
      exact hne ((List.append_nil b).symm.trans ht)
    exact decodeSlotTable_of_cut _ hinv.entries.1 hinv.entries.2 hcut ht

/-- An operation of which every write goes through. -/
def Life.perform (x : Life φ) (o : Op φ) : Life φ :=
  { x with mux := x.after o [], given := x.given ++ x.mux.added (x.after o []) }

theorem Life.reachable_perform [DecidableEq φ] (os : List (Op φ)) {x : Life φ}
    (h : Run.Reachable (Life.Init g) Life.Step x) (hv : ∀ o ∈ os, o.Valid) :
    Run.Reachable (Life.Init g) Life.Step (os.foldl Life.perform x) := by
  induction os generalizing x with
  | nil => exact h
  | cons o os ih =>
      exact ih (h.next (.op o [] (hv o (by simp)))) fun o' ho' => hv o' (by simp [ho'])

/-- A member is attached, merged and removed, and then another one attached and
merged: it has another ref. -/
theorem slotTable_roundtrip_second :
    ∃ x : Life Unit, Run.Reachable (Life.Init ⟨4096, 0, 0, 0⟩) Life.Step x ∧
      x.given = [0, 1] ∧ x.mux.refs = [1] ∧ x.mux.refs.Nodup ∧
      ∃ t, decodeSlotTable x.mux.slotTable = .ok t ∧ t.geometry = ⟨4096, 0, 0, 0⟩ ∧
        t.members.map (fun e => (e.memberRef, e.name, e.epoch, e.cursor.toNat)) =
          [(1, "b", 0, 1)] := by
  obtain ⟨m, hopen⟩ : ∃ m : Mux Unit, openWith 0 = .ok m := ⟨_, rfl⟩
  let os : List (Op Unit) := [.addMember "a" 0 (some ()), .poll, .removeMember "a" 0,
    .addMember "b" 0 (some ()), .poll]
  have hbounded : Bounded loneRecord := fun _ => (by decide : (loneRecord ()).head < 2 ^ 64)
  have hreach := Life.reachable_perform os
    (.start ⟨hbounded, rfl, none, "topic", 1, hopen⟩) (x := ⟨loneRecord, m, []⟩) (by decide)
  obtain ⟨hnodup, -, -, -, -, ⟨t, ht, hg, hmembers⟩, -⟩ := slotTable_roundtrip hreach
  cases hopen
  refine ⟨_, hreach, by decide +kernel, by decide +kernel, hnodup, t, ht, hg, ?_⟩
  rw [hmembers]
  decide +kernel

end Mux

end XchannelNet
