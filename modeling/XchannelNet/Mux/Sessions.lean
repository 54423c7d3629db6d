import XchannelNet.Lib.Run
import XchannelNet.Mux.Refinement

/-!
# Sessions — a topic over the lives of its mux

A topic outlives its muxes. A session opens the topic, works on it, and ends
when the process is killed, between two operations or at any write of one; the
next session has nothing but the files. Meanwhile the members' logs grow. The
outcomes of an operation's writes are part of the action, so that a statement
can say which runs it is about.
-/

namespace XchannelNet

namespace Mux

open Fallible

/-- What the topic is opened with, in every session. -/
structure Setup where
  name : ChannelName
  geometry : TopicGeometry
  maxBatchPerMember : ℕ

inductive Op (φ : Type) where
  | addMember (name : ChannelName) (epoch : UInt64) (file : Option φ)
  | mergeOne (i : ℕ)
  | poll
  | removeMember (name : ChannelName) (epoch : UInt64)
  | finish

section

variable {φ : Type}

def Op.run (files : φ → Log) : Op φ → MuxM φ Unit
  | .addMember name epoch file => Mux.addMember files name epoch file
  | .mergeOne i => do
    let _ ← Mux.mergeOne files i
    return ()
  | .poll => do
    let _ ← Mux.poll files
    return ()
  | .removeMember name epoch => do
    let _ ← Mux.removeMember files name epoch
    return ()
  | .finish => Mux.finish files

/-- Channel names are validated before they reach a mux; that they fit a slot
table's two-byte length is all that matters here. -/
def Op.Valid : Op φ → Prop
  | .addMember name _ _ => (nameBytes name).length < 65536
  | _ => True

instance (o : Op φ) : Decidable o.Valid :=
  match o with
  | .addMember name _ _ => inferInstanceAs (Decidable ((nameBytes name).length < 65536))
  | .mergeOne _ => isTrue trivial
  | .poll => isTrue trivial
  | .removeMember _ _ => isTrue trivial
  | .finish => isTrue trivial

/-- A mux with these outcomes in store for its writes. -/
def within (outcomes : List WriteOutcome) (m : Mux φ) : Mux φ :=
  { m with topic := { m.topic with outcomes } }

theorem within_becomes (outcomes : List WriteOutcome) (m : Mux φ) :
    m.Becomes m.topic.log (m.within outcomes) := ⟨rfl, rfl, rfl, rfl, rfl, rfl, rfl⟩

/-- Every operation but `add_member` makes moves, then tears at most one. -/
theorem Op.does (files : φ → Log) {o : Op φ}
    (ho : ∀ name epoch file, o ≠ .addMember name epoch file) (m : Mux φ) :
    Does (Move files) (Tear files) Interrupts (fun _ _ => True) m (exec (o.run files) m) := by
  cases o with
  | addMember name epoch file => exact absurd rfl (ho name epoch file)
  | mergeOne i =>
      exact ((mergeOne_does files i m).coarsen (fun _ _ h => .act (.round h))
        fun _ _ => .loss).discard
  | poll =>
      exact ((poll_does files m).coarsen (fun _ _ h => .act (.round h)) fun _ _ => .loss).discard
  | removeMember name epoch =>
      exact ((removeMember_does files name epoch m).coarsen (fun _ _ => .act)
        fun _ _ h => h).discard
  | finish => exact finish_does files m

end

/-- A session, or the files the last one left. A running one remembers the
records the topic held when it was opened; nothing reads them. -/
inductive Session (φ : Type) where
  | closed (disk : Option Log)
  | running (m : Mux φ) (opened : List Record)

/-- A running mux has room in its slot table for one more entry. -/
def Session.RoomFor {φ : Type} (name : ChannelName) : Session φ → Prop
  | .closed _ => True
  | .running m _ => m.RoomFor name

instance {φ : Type} (name : ChannelName) : DecidablePred (Session.RoomFor (φ := φ) name)
  | .closed _ => isTrue trivial
  | .running m _ => inferInstanceAs (Decidable (m.RoomFor name))

/-- The members' files, the session, and the records that `merge_one`
rejected in the sessions that are over. -/
structure World (φ : Type) where
  files : φ → Log
  session : Session φ
  dropped : List (Incarnation × ℕ)

inductive Action (φ : Type) where
  | grow (f : φ) (l : Log)
  | «open»
  | op (o : Op φ) (outcomes : List WriteOutcome) (result : Except MuxError Unit)
  | kill

namespace World

variable {φ : Type}

/-- The process is gone. -/
def die (w : World φ) (m : Mux φ) : World φ :=
  { w with session := .closed (some m.topic.log), dropped := w.dropped ++ m.dropped }

/-- What an operation leaves: it may be what the process was killed in. -/
def settle (w : World φ) (opened : List Record) : Except MuxError Unit × Mux φ → World φ
  | (.error (.write .killed), m) => w.die m
  | (_, m) => { w with session := .running m opened }

theorem opened_settle {w : World φ} {opened opened' : List Record} {m' : Mux φ}
    {r : Except MuxError Unit × Mux φ}
    (h : (w.settle opened r).session = .running m' opened') : opened' = opened := by
  unfold settle at h
  split at h
  · cases h
  · cases h
    rfl

/-- Every record of the topic, pruned or not. -/
def records (w : World φ) : List Record :=
  match w.session with
  | .closed none => []
  | .closed (some l) => l.records
  | .running m _ => m.topic.log.records

/-- The records the topic retains. -/
def retained (w : World φ) : List Record :=
  match w.session with
  | .closed none => []
  | .closed (some l) => l.contents.map Prod.fst
  | .running m _ => m.topic.log.contents.map Prod.fst

/-- What the topic's whole log says about its members. -/
def view (w : World φ) : View := Mux.view (decoded w.records)

/-- What it said when the session was opened. -/
def openedView (w : World φ) : View :=
  match w.session with
  | .closed _ => w.view
  | .running _ opened => Mux.view (decoded opened)

def slots (w : World φ) : List (Slot φ) :=
  match w.session with
  | .closed _ => []
  | .running m _ => m.slots

/-- An `add_member` of a member that is attached already, or has no log, or that the slot
table has room for. -/
def Accommodates (w : World φ) (k : Incarnation) (file : Option φ) : Prop :=
  (∃ s ∈ w.slots, s.member = k) ∨ file.isNone = true ∨ w.session.RoomFor k.1

instance (w : World φ) (k : Incarnation) (file : Option φ) : Decidable (w.Accommodates k file) :=
  inferInstanceAs (Decidable (_ ∨ _ ∨ _))

/-- Such an `add_member` fails in a write only as was in store for it: for its slot table, and
then nothing is written, or for its marker. -/
theorem Accommodates.write_error {w : World φ} {m m' : Mux φ} {opened : List Record}
    {name : ChannelName} {epoch : UInt64} {file : Option φ} {outcomes : List WriteOutcome}
    {e : WriteError} (h : w.Accommodates (name, epoch) file)
    (hs : w.session = .running m opened)
    (he : exec (addMember w.files name epoch file) (m.within outcomes) = (.error (.write e), m')) :
    (∃ x rest, outcomes = x :: rest ∧ x.error = some e ∧ m'.topic.log = m.topic.log) ∨
      ∃ x y rest, outcomes = x :: y :: rest ∧ x.error = none ∧ y.error = some e := by
  obtain ⟨hnew, hfile, ⟨-, hfull⟩ | hstore⟩ := addMember_write_error he
  · unfold Accommodates slots at h
    rw [hs] at h
    rcases h with ⟨s, hs, hk⟩ | hnone | hroom
    · exact absurd hk (hnew s hs)
    · exact absurd (Option.isNone_iff_eq_none.mp hnone) hfile
    · exact absurd hroom hfull
  · exact hstore

/-- Every record `merge_one` ever rejected, with the member it was of. -/
def rejected (w : World φ) : List (Incarnation × ℕ) :=
  match w.session with
  | .closed _ => w.dropped
  | .running m _ => w.dropped ++ m.dropped

end World

section

variable {φ : Type} [DecidableEq φ] (c : Setup)

inductive Step : World φ → Action φ → World φ → Prop
  | grow {w f l} (h : (w.files f).Grows l) (hb : l.head < 2 ^ 64) :
      Step w (.grow f l) { w with files := Function.update w.files f l }
  | «open» {w disk m} (hs : w.session = .closed disk)
      (h : Mux.open disk c.name c.geometry c.maxBatchPerMember = .ok m) :
      Step w .open { w with session := .running m m.topic.log.records }
  | op {w m opened r} (o : Op φ) (outcomes : List WriteOutcome)
      (hs : w.session = .running m opened) (hv : o.Valid)
      (h : exec (o.run w.files) (m.within outcomes) = r) :
      Step w (.op o outcomes r.1) (w.settle opened r)
  | kill {w m opened} (hs : w.session = .running m opened) : Step w .kill (w.die m)

/-- No topic yet, and members' logs of any content. -/
def Init (w : World φ) : Prop :=
  w.session = .closed none ∧ w.dropped = [] ∧ Bounded w.files

omit [DecidableEq φ] in
theorem init_mk {files : φ → Log} (h : Bounded files) : Init ⟨files, .closed none, []⟩ :=
  ⟨rfl, rfl, h⟩

end

/-! ## Runs that can be computed -/

/-- No rolls, and a poll merges one record of each member. -/
def plainSetup : Setup := ⟨"topic", ⟨4096, 0, 0, 0⟩, 1⟩

def Action.isOpen {φ : Type} : Action φ → Bool
  | .open => true
  | _ => false

theorem Action.isOpen_iff {φ : Type} {a : Action φ} : a.isOpen = true ↔ a = .open := by
  cases a <;> simp [isOpen]

instance {φ : Type} (a : Action φ) : Decidable (a = .open) := decidable_of_iff _ Action.isOpen_iff

/-- No session has been yet. -/
def Session.isNew {φ : Type} : Session φ → Bool
  | .closed none => true
  | _ => false

theorem Session.isNew_iff {φ : Type} {s : Session φ} : s.isNew = true ↔ s = .closed none := by
  rcases s with (_ | _) | _ <;> simp [isNew]

instance {φ : Type} (s : Session φ) : Decidable (s = .closed none) :=
  decidable_of_iff _ Session.isNew_iff

/-- What there is to decide in a run: the rest follows. -/
inductive Command (φ : Type) where
  | append (f : φ) (r : Record)
  | «open»
  | op (o : Op φ) (outcomes : List WriteOutcome)
  | kill

namespace World

variable {φ : Type} [DecidableEq φ]

/-- The action a command amounts to, and the world after it. -/
def perform (c : Setup) (w : World φ) : Command φ → Option (Action φ × World φ)
  | .append f r =>
    let l := (w.files f).commit r
    if l.head < 2 ^ 64 then some (.grow f l, { w with files := Function.update w.files f l })
    else none
  | .open =>
    match w.session with
    | .running _ _ => none
    | .closed disk =>
      match Mux.open disk c.name c.geometry c.maxBatchPerMember with
      | .error _ => none
      | .ok m => some (.open, { w with session := .running m m.topic.log.records })
  | .op o outcomes =>
    match w.session with
    | .closed _ => none
    | .running m opened =>
      let r := exec (o.run w.files) (m.within outcomes)
      if o.Valid then some (.op o outcomes r.1, w.settle opened r) else none
  | .kill =>
    match w.session with
    | .closed _ => none
    | .running m _ => some (.kill, w.die m)

theorem perform_open_fst {c : Setup} {w : World φ} {x : Action φ × World φ}
    (h : w.perform c .open = some x) : x.1 = .open := by
  simp only [perform] at h
  split at h
  · cases h
  · split at h
    · cases h
    · cases h
      rfl

theorem perform_op_fst {c : Setup} {w : World φ} {o : Op φ} {outcomes : List WriteOutcome}
    {x : Action φ × World φ} (h : w.perform c (.op o outcomes) = some x) :
    ∃ r, x.1 = .op o outcomes r := by
  simp only [perform] at h
  split at h
  · cases h
  · split at h
    · cases h
      exact ⟨_, rfl⟩
    · cases h

theorem perform_kill_fst {c : Setup} {w : World φ} {x : Action φ × World φ}
    (h : w.perform c .kill = some x) : x.1 = .kill := by
  simp only [perform] at h
  split at h
  · cases h
  · cases h
    rfl

theorem step_of_perform {c : Setup} {w w' : World φ} {cmd : Command φ} {a : Action φ}
    (h : w.perform c cmd = some (a, w')) : Step c w a w' := by
  cases cmd with
  | append f r =>
      simp only [perform] at h
      split at h
      · cases h
        exact .grow ⟨.append _ _, rfl, rfl, rfl⟩ ‹_›
      · cases h
  | «open» =>
      simp only [perform] at h
      split at h
      · cases h
      · split at h
        · cases h
        · cases h
          exact .open ‹_› ‹_›
  | op o outcomes =>
      simp only [perform] at h
      split at h
      · cases h
      · split at h
        · cases h
          exact .op o outcomes ‹_› ‹_› rfl
        · cases h
  | kill =>
      simp only [perform] at h
      split at h
      · cases h
      · cases h
        exact .kill ‹_›

variable (c : Setup) (guard : World φ → Action φ → World φ → Prop)
  [∀ w a w', Decidable (guard w a w')] (w : World φ) (cmds : List (Command φ))

/-- A computed run is a run. -/
theorem exists_reachable {init : World φ → Prop} (P : World φ → Prop) [DecidablePred P]
    (h₀ : init w) (h : (Run.runs (perform c) guard w cmds).any (fun w => decide (P w)) = true) :
    ∃ w', Run.Reachable init (fun w w' => ∃ a, Step c w a w' ∧ guard w a w') w' ∧ P w' :=
  Run.exists_reachable init _ (perform c) guard
    (fun _ _ a _ hp hok => ⟨a, step_of_perform hp, hok⟩) w cmds P h₀ h

/-- The same with one more step, which need not keep to the guard. -/
theorem exists_reachable_step {init : World φ → Prop} (cmd : Command φ)
    (P : World φ → Action φ → World φ → Prop) [∀ w a w', Decidable (P w a w')] (h₀ : init w)
    (h : (Run.runs (perform c) guard w cmds).any (fun w =>
      decide ((w.perform c cmd).any (fun x => decide (P w x.1 x.2)) = true)) = true) :
    ∃ w a w', Run.Reachable init (fun w w' => ∃ a, Step c w a w' ∧ guard w a w') w ∧
      Step c w a w' ∧ P w a w' := by
  obtain ⟨w', hreach, hp⟩ := exists_reachable c guard w cmds _ h₀ h
  cases hx : w'.perform c cmd with
  | none =>
      rw [hx] at hp
      cases hp
  | some x =>
      rw [hx] at hp
      exact ⟨w', x.1, x.2, hreach, step_of_perform hx, of_decide_eq_true hp⟩

end World

/-! ## Worlds and topics -/

variable {φ : Type} {c : Setup} {w w' : World φ} {t : Topic φ}

/-- The topic behind a session. Between sessions there is only the log, and
what would be recovered from it. -/
def SessionTracks (c : Setup) (files : φ → Log) (t : Topic φ) : Session φ → Prop
  | .closed disk => Stored t.pruned t.kept disk ∧ t = fresh t.pruned t.kept
  | .running m _ => Models files c.geometry.mtu m t

structure Tracks (c : Setup) (w : World φ) (t : Topic φ) : Prop where
  bounded : Bounded w.files
  session : SessionTracks c w.files t w.session

namespace Tracks

theorem running {m : Mux φ} {opened : List Record} (h : Tracks c w t)
    (hs : w.session = .running m opened) : Models w.files c.geometry.mtu m t := by
  have := h.session
  rwa [hs] at this

theorem within {m : Mux φ} {opened : List Record} (h : Tracks c w t)
    (hs : w.session = .running m opened) (outcomes : List WriteOutcome) :
    Models w.files c.geometry.mtu (m.within outcomes) t :=
  (h.running hs).frame (within_becomes outcomes m)

theorem added {m : Mux φ} (h : Tracks c w t) (hm : Models w.files c.geometry.mtu m t)
    {name : ChannelName} {epoch : UInt64} {file : Option φ}
    (hv : (Op.addMember name epoch file).Valid) :
    Added w.files c.geometry.mtu (name, epoch) file t
      (exec (Op.run w.files (.addMember name epoch file)) m) :=
  addMember_models h.bounded hm name epoch file hv

theorem closed {disk : Option Log} (h : Tracks c w t) (hs : w.session = .closed disk) :
    Stored t.pruned t.kept disk ∧ t = fresh t.pruned t.kept := by
  have := h.session
  rwa [hs] at this

theorem init {w : World φ} (h : Init w) : Tracks c w (fresh [] []) := by
  refine ⟨h.2.2, ?_⟩
  rw [h.1]
  exact ⟨⟨rfl, rfl⟩, rfl⟩

theorem records (h : Tracks c w t) : w.records.map event = t.history.map .ok := by
  have hs := h.session
  unfold World.records
  cases hw : w.session with
  | closed disk =>
      rw [hw] at hs
      cases disk with
      | none =>
          obtain ⟨hp, hk⟩ := hs.1
          simp [Topic.history, hp, hk]
      | some l => exact hs.1.1
  | running m opened =>
      rw [hw] at hs
      exact hs.records

theorem view (h : Tracks c w t) : w.view = t.view := by
  rw [World.view, decoded_of_ok h.records]
  rfl

theorem wf (h : Tracks c w t) : t.WF w.files := by
  have hs := h.session
  cases hw : w.session with
  | closed disk =>
      rw [hw] at hs
      rw [hs.2]
      exact fresh_wf _ _
  | running m opened =>
      rw [hw] at hs
      exact hs.wf

theorem retained (h : Tracks c w t) : w.retained.map event = t.kept.map .ok := by
  have hs := h.session
  unfold World.retained
  cases hw : w.session with
  | closed disk =>
      rw [hw] at hs
      cases disk with
      | none => simp [hs.1.2]
      | some l => exact hs.1.retained
  | running m opened =>
      rw [hw] at hs
      exact hs.retained

theorem pruned_eq_nil (h : Tracks c w t) (hp : w.retained = w.records) : t.pruned = [] := by
  have h₁ := congrArg List.length h.records
  have h₂ := congrArg List.length h.retained
  rw [hp] at h₂
  simp only [List.length_map, Topic.history, List.length_append] at h₁ h₂
  exact List.length_eq_zero_iff.mp (by omega)

theorem names (h : Tracks c w t) (k : Incarnation) :
    Names (decoded w.retained) k ↔ Names t.kept k := by
  rw [decoded_of_ok h.retained]

theorem slots (h : Tracks c w t) : t.lanes = w.slots.map Slot.lane := by
  have hs := h.session
  unfold World.slots
  cases hw : w.session with
  | closed disk =>
      rw [hw] at hs
      rw [hs.2]
      rfl
  | running m opened =>
      rw [hw] at hs
      exact hs.lanes

/-- After a kill the topic is its log. -/
theorem die (h : Tracks c w t) {m : Mux φ} (hst : Stored t.pruned t.kept (some m.topic.log)) :
    Tracks c (w.die m) (fresh t.pruned t.kept) :=
  ⟨h.bounded, hst, rfl⟩

theorem grow [DecidableEq φ] (h : Tracks c w t) {f : φ} {l : Log} (hg : (w.files f).Grows l)
    (hb : l.head < 2 ^ 64) : Tracks c { w with files := Function.update w.files f l } t := by
  refine ⟨h.bounded.update f hb, ?_⟩
  have hs := h.session
  cases hw : w.session with
  | closed disk =>
      rw [hw] at hs
      exact hs
  | running m opened =>
      rw [hw] at hs
      exact hs.grow (.update hg)

theorem «open» (h : Tracks c w t) {disk : Option Log} (hs : w.session = .closed disk) {m : Mux φ}
    (ho : Mux.open disk c.name c.geometry c.maxBatchPerMember = .ok m) :
    Tracks c { w with session := .running m m.topic.log.records } t := by
  obtain ⟨hst, ht⟩ := h.closed hs
  refine ⟨h.bounded, ?_⟩
  rw [ht]
  exact open_models ho hst

/-- What `merge_one` rejected in earlier sessions and in this one. -/
theorem rejected (h : Tracks c w t) : w.rejected = w.dropped ++ t.dropped := by
  have hs := h.session
  unfold World.rejected
  cases hw : w.session with
  | closed disk =>
      rw [hw] at hs
      rw [hs.2]
      exact (List.append_nil _).symm
  | running m opened =>
      rw [hw] at hs
      rw [hs.dropped]

/-- An operation leaves a topic, or the log of one if the process was killed
in it. -/
theorem settle (h : Tracks c w t) {r : Except MuxError Unit × Mux φ} {t₁ : Topic φ}
    (opened : List Record) (hm : Models w.files c.geometry.mtu r.2 t₁) :
    Tracks c (w.settle opened r) t₁ ∧ (w.settle opened r).dropped = w.dropped ∨
      Tracks c (w.settle opened r) (fresh t₁.pruned t₁.kept) ∧
        (w.settle opened r).dropped = w.dropped ++ t₁.dropped := by
  obtain ⟨r, m⟩ := r
  unfold World.settle
  split
  · rename_i heq
    cases heq
    exact .inr ⟨⟨h.bounded, hm.stored, rfl⟩, congrArg (w.dropped ++ ·) hm.dropped.symm⟩
  · rename_i heq
    cases heq
    exact .inl ⟨⟨h.bounded, hm⟩, rfl⟩

end Tracks

/-- Every operation but `add_member` does whole steps, then at most one torn
one. -/
theorem Op.refines {files : φ → Log} {mtu : UInt32} {m : Mux φ} (hb : Bounded files)
    (h : Models files mtu m t) {o : Op φ} (ho : ∀ name epoch file, o ≠ .addMember name epoch file) :
    Refines files mtu t (exec (o.run files) m) :=
  (Op.does files ho m).ends (Models.move hb) (Models.tear hb) h

/-! ## Runs in which every write goes through -/

/-- Whether a write failed in an action. -/
def Action.writeFailed : Action φ → Bool
  | .op _ _ (.error (.write _)) => true
  | _ => false

def Action.Completes (a : Action φ) : Prop := a.writeFailed = false

instance (a : Action φ) : Decidable a.Completes := inferInstanceAs (Decidable (_ = false))

theorem not_write_of_completes {o : Op φ} {outcomes : List WriteOutcome}
    {r : Except MuxError Unit} (h : (Action.op o outcomes r).Completes) (e : WriteError) :
    r ≠ .error (.write e) := by
  rintro rfl
  cases h

/-- One step of a run in which every write goes through. -/
def Completed [DecidableEq φ] (c : Setup) (w w' : World φ) : Prop :=
  ∃ a, Step c w a w' ∧ a.Completes

/-- What such an action does to the topic. -/
inductive Advance (mtu : UInt32) (w w' : World φ) (t : Topic φ) : Action φ → Topic φ → Prop
  | idle {a} (hg : FilesGrow w.files w'.files) (ho : w'.openedView = w.openedView) :
      Advance mtu w w' t a t
  | worked {o outcomes r t'} (hf : w'.files = w.files) (ho : w'.openedView = w.openedView)
      (hs : Relation.ReflTransGen (Topic.Step w.files mtu) t t') :
      Advance mtu w w' t (.op o outcomes r) t'
  | bumped {o outcomes r} (hf : w'.files = w.files) (ho : w'.openedView = w.openedView) :
      Advance mtu w w' t (.op o outcomes r) t.bump
  | attached {name epoch file outcomes l mark} (hf : w'.files = w.files)
      (ho : w'.openedView = w.openedView) (hmem : l.member = (name, epoch))
      (hfile : file = some l.file) (hj : Topic.Joins w.files t l mark) :
      Advance mtu w w' t (.op (.addMember name epoch file) outcomes (.ok ())) (t.attach l mark)
  | died (hf : w'.files = w.files) (ho : w'.openedView = t.view) :
      Advance mtu w w' t .kill (fresh t.pruned t.kept)

theorem World.settle_running {r : Except MuxError Unit × Mux φ} {opened : List Record}
    (h : r.1 ≠ .error (.write .killed)) :
    w.settle opened r = { w with session := .running r.2 opened } := by
  obtain ⟨r, m⟩ := r
  unfold World.settle
  split
  · rename_i heq
    cases heq
    exact absurd rfl h
  · rename_i heq
    cases heq
    rfl

theorem Tracks.work (h : Tracks c w t) {m : Mux φ} {opened : List Record}
    (hm : Models w.files c.geometry.mtu m t) {o : Op φ}
    (ho : ∀ name epoch file, o ≠ .addMember name epoch file)
    (hr : ∀ e, (exec (o.run w.files) m).1 ≠ .error (.write e)) :
    ∃ t', Tracks c { w with session := .running (exec (o.run w.files) m).2 opened } t' ∧
      Relation.ReflTransGen (Topic.Step w.files c.geometry.mtu) t t' := by
  obtain ⟨t', hsteps, hm'⟩ := (Op.refines h.bounded hm ho).whole fun e he hi => by
    obtain ⟨e', rfl⟩ := hi
    exact hr e' he
  exact ⟨t', ⟨h.bounded, hm'⟩, hsteps⟩

/-- **Step lemma** for runs in which every write goes through. -/
theorem Tracks.step [DecidableEq φ] {a : Action φ} (h : Tracks c w t) (hs : Step c w a w')
    (ha : a.Completes) : ∃ t', Tracks c w' t' ∧ Advance c.geometry.mtu w w' t a t' := by
  cases hs with
  | grow hg hb => exact ⟨t, h.grow hg hb, .idle (.update hg) rfl⟩
  | @«open» disk m hs ho =>
      have ht' := h.open hs ho
      refine ⟨t, ht', .idle (fun f => .inl rfl) ?_⟩
      have hclosed : w.openedView = w.view := by rw [World.openedView, hs]
      rw [hclosed, h.view, ← ht'.view]
      rfl
  | @kill m opened hs =>
      have ht' := h.die (h.running hs).stored
      exact ⟨_, ht', .died rfl ht'.view⟩
  | @op m opened r o outcomes hs hv hr =>
      subst hr
      have hm := h.within hs outcomes
      have hnw := not_write_of_completes ha
      rw [World.settle_running (hnw _)]
      have hopened : ∀ m' : Mux φ,
          ({ w with session := .running m' opened } : World φ).openedView = w.openedView := by
        intro m'
        rw [World.openedView, World.openedView, hs]
      by_cases ho : ∃ name epoch file, o = .addMember name epoch file
      · obtain ⟨name, epoch, file, rfl⟩ := ho
        have hadd := h.added hm hv
        generalize exec (Op.run w.files (.addMember name epoch file)) (m.within outcomes) = r
          at hadd hnw ⊢
        cases hadd with
        | unchanged _ hm => exact ⟨t, ⟨h.bounded, hm⟩, .worked rfl (hopened _) .refl⟩
        | bumped _ _ hm => exact ⟨t.bump, ⟨h.bounded, hm⟩, .bumped rfl (hopened _)⟩
        | attached hmem hfile hj hm =>
            exact ⟨_, ⟨h.bounded, hm⟩, .attached rfl (hopened _) hmem hfile hj⟩
        | pushed => exact absurd rfl (hnw _)
        | unmarked => exact absurd rfl (hnw _)
      · obtain ⟨t', ht', hsteps⟩ := h.work hm
          (fun name epoch file he => ho ⟨name, epoch, file, he⟩) hnw
        exact ⟨t', ht', .worked rfl (hopened _) hsteps⟩

end Mux

end XchannelNet
