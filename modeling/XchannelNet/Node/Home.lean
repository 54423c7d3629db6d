import Mathlib.Logic.Function.Basic
import XchannelNet.Identity
import XchannelNet.Lib.Run
import XchannelNet.Lib.Text

/-!
# Home — the id of a node, and the directory it is kept in

A node's id is made up once and kept in its data directory, next to the channels
that are registered under it. A daemon reads the file before it takes the lock of
the directory. One that finds its id used by another steps aside if it hosts
nothing: it discards the file and asks to be restarted, and goes on until it is.

A channel's owner is the first id it was announced under: peers keep the earliest
registration. So a daemon must not come up with another id over the channels of a
former one.
-/

namespace XchannelNet

open Text

/-- An operator's view of a node, and what its peers key on. -/
structure NodeIdentity where
  id : NodeId
  createdAtMs : UInt64
  name : String
  /-- made up here, not configured -/
  generated : Bool
  deriving DecidableEq, Repr

namespace NodeIdentity

inductive IdentityError where
  | invalidData
  deriving DecidableEq, Repr

/-- What an identity file says. -/
def render (id : NodeId) (createdAtMs : UInt64) : List Char :=
  "id=".toList ++ decimal id ++
    '\n' :: ("created_at_ms=".toList ++ decimal createdAtMs ++ '\n' :: [])

/-- One line of an identity file. A later line for a key takes the place of an
earlier one, also if there is no number in it. -/
def readLine (found : Option NodeId × UInt64) (line : List Char) : Option NodeId × UInt64 :=
  match splitOnce '=' (trim line) with
  | some (key, value) =>
    if key = "id".toList then (parseU64 (trim value), found.2)
    else if key = "created_at_ms".toList then (found.1, (parseU64 (trim value)).getD 0)
    else found
  | none => found

def readFile : Option (List Char) → Except IdentityError (Option (NodeId × UInt64))
  | none => .ok none
  | some text =>
    match (lines text).foldl readLine (none, 0) with
    | (some id, createdAtMs) => .ok (some (id, createdAtMs))
    | (none, _) => .error .invalidData

/-- What an operator has set. -/
structure Configured where
  id : Option NodeId
  /-- the host's name, if none is given -/
  name : String

/-- `resolve`, up to where an id has to be made up. -/
def resolve (configured : Configured) (file : Option (List Char)) :
    Except IdentityError (Option NodeIdentity) :=
  match configured.id with
  | some id => .ok (some ⟨id, 0, configured.name, false⟩)
  | none =>
    match readFile file with
    | .error e => .error e
    | .ok none => .ok none
    | .ok (some (id, createdAtMs)) => .ok (some ⟨id, createdAtMs, configured.name, true⟩)

/-! ### What is written is read back -/

theorem readLine_key (key : List Char) (hkey : ∀ c ∈ key, isWhiteSpace c = false ∧ c ≠ '=')
    (n : UInt64) (found : Option NodeId × UInt64) :
    readLine found (key ++ '=' :: decimal n) =
      if key = "id".toList then (some n, found.2)
      else if key = "created_at_ms".toList then (found.1, n) else found := by
  have htrim : trim (key ++ '=' :: decimal n) = key ++ '=' :: decimal n := by
    refine trim_of_forall fun c hc => ?_
    rcases List.mem_append.mp hc with hc | hc
    · exact (hkey c hc).1
    · rcases List.mem_cons.mp hc with rfl | hc
      · decide
      · exact isWhiteSpace_of_isDigit (isDigit_of_mem_decimal hc)
  have hsplit : splitOnce '=' (key ++ '=' :: decimal n) = some (key, decimal n) :=
    splitOnce_append (fun hmem => (hkey _ hmem).2 rfl) _
  simp only [readLine, htrim, hsplit, trim_decimal, parseU64_decimal, Option.getD_some]

theorem lines_render (id : NodeId) (createdAtMs : UInt64) :
    lines (render id createdAtMs) =
      ["id".toList ++ '=' :: decimal id, "created_at_ms".toList ++ '=' :: decimal createdAtMs,
        []] := by
  have hline : ∀ (key : List Char) (n : UInt64), '\n' ∉ key → '\n' ∉ key ++ '=' :: decimal n := by
    intro key n hkey hmem
    rcases List.mem_append.mp hmem with hmem | hmem
    · exact hkey hmem
    · rcases List.mem_cons.mp hmem with heq | hmem
      · cases heq
      · exact not_mem_decimal (by decide) n hmem
  have htext : render id createdAtMs = ("id".toList ++ '=' :: decimal id) ++
      '\n' :: (("created_at_ms".toList ++ '=' :: decimal createdAtMs) ++ '\n' :: []) := by
    simp [render]
  rw [htext, lines_cons (hline _ _ (by decide)), lines_cons (hline _ _ (by decide))]
  rfl

theorem readFile_render (id : NodeId) (createdAtMs : UInt64) :
    readFile (some (render id createdAtMs)) = .ok (some (id, createdAtMs)) := by
  have hblank : ∀ found, readLine found [] = found := fun _ => rfl
  have hid := readLine_key "id".toList (by simp [isWhiteSpace]) id
  have hcreated := readLine_key "created_at_ms".toList (by simp [isWhiteSpace]) createdAtMs
  have hother : "created_at_ms".toList ≠ "id".toList := by simp
  simp only [readFile, lines_render, List.foldl_cons, List.foldl_nil, hid, hcreated, hblank,
    if_true, if_neg hother]

end NodeIdentity

/-! ## A daemon that meets its double -/

inductive OnDuplicateIdentity where
  | goOn
  | stepAside
  deriving DecidableEq, Repr

/-- What is written to the log. -/
inductive Notice where
  | twoPeersClaim (node : NodeId)
  | setExplicitly
  | ownsChannels
  | discarded
  | couldNotDiscard
  deriving DecidableEq, Repr

structure Daemon where
  identity : NodeIdentity
  hosted : List ChannelName
  /-- announced to the peers, and not yet in the map of what is hosted -/
  opening : List ChannelName
  dupReported : List NodeId
  notices : List Notice
  /-- a restart has been asked for -/
  leaving : Bool

namespace Daemon

/-- Those that have not been seen, each once, and all that have been seen then. -/
def insertFresh (seen : List NodeId) : List NodeId → List NodeId × List NodeId
  | [] => ([], seen)
  | node :: nodes =>
    if node ∈ seen then insertFresh seen nodes
    else
      let (fresh, seen) := insertFresh (node :: seen) nodes
      (node :: fresh, seen)

/-- `removable` says whether the file can be discarded, which is not tried unless it
comes to that. Only the messages are kept to one per id, not the verdict. -/
def reportDuplicateIdentity (d : Daemon) (conflicts : List NodeId) (removable : Bool) :
    Daemon × OnDuplicateIdentity :=
  let (fresh, dupReported) := insertFresh d.dupReported conflicts
  let d := { d with dupReported, notices := d.notices ++ fresh.map .twoPeersClaim }
  let say (n : Notice) : List Notice := if d.identity.id ∈ fresh then [n] else []
  if d.identity.id ∉ conflicts then (d, .goOn)
  else if d.identity.generated = false then
    ({ d with notices := d.notices ++ say .setExplicitly }, .goOn)
  else if d.hosted ≠ [] then ({ d with notices := d.notices ++ say .ownsChannels }, .goOn)
  else if removable then ({ d with notices := d.notices ++ [.discarded] }, .stepAside)
  else ({ d with notices := d.notices ++ [.couldNotDiscard] }, .goOn)

theorem report_same (d : Daemon) (conflicts : List NodeId) (removable : Bool) :
    (d.reportDuplicateIdentity conflicts removable).1.identity = d.identity ∧
      (d.reportDuplicateIdentity conflicts removable).1.hosted = d.hosted ∧
      (d.reportDuplicateIdentity conflicts removable).1.opening = d.opening ∧
      (d.reportDuplicateIdentity conflicts removable).1.leaving = d.leaving := by
  unfold reportDuplicateIdentity
  dsimp only
  split_ifs <;> exact ⟨rfl, rfl, rfl, rfl⟩

/-- Whoever steps aside has made up its id, and hosts nothing. -/
theorem report_stepAside (d : Daemon) {conflicts : List NodeId} {removable : Bool}
    (h : (d.reportDuplicateIdentity conflicts removable).2 = .stepAside) :
    d.identity.generated = true ∧ d.hosted = [] := by
  unfold reportDuplicateIdentity at h
  dsimp only at h
  split_ifs at h with hid hgenerated hhosted hremovable
  exact ⟨Bool.not_eq_false _ ▸ hgenerated, not_not.mp hhosted⟩

end Daemon

/-! ## The directory -/

/-- How far a process has come. -/
inductive Stage where
  | down
  /-- there was no file; these will be written -/
  | generating (name : String) (id : NodeId) (createdAtMs : UInt64)
  /-- the file has been created or emptied, and is still to be written -/
  | truncated (ino : ℕ) (name : String) (id : NodeId) (createdAtMs : UInt64)
  /-- the id is known, and the lock not taken -/
  | resolved (identity : NodeIdentity)
  | running (d : Daemon)

namespace Stage

/-- It has found no file, and not yet written one. -/
def creating : Stage → Bool
  | .generating _ _ _ | .truncated _ _ _ _ => true
  | _ => false

/-- It has looked, and does not run yet. -/
def starting : Stage → Bool
  | .down | .running _ => false
  | _ => true

def leaving : Stage → Bool
  | .running d => d.leaving
  | _ => false

def isRunning : Stage → Bool
  | .running _ => true
  | _ => false

end Stage

/-- A data directory and the processes that work on it. -/
structure Home where
  /-- the identity file, by its inode -/
  file : Option (ℕ × List Char)
  nextIno : ℕ
  /-- the channels there are, and the id each was first announced under -/
  disk : ChannelName → Option NodeId
  lock : Option ℕ
  procs : ℕ → Stage

namespace Home

open NodeIdentity (Configured render readFile resolve readFile_render)

def fresh : Home := ⟨none, 0, fun _ => none, none, fun _ => .down⟩

inductive Command where
  /-- a process starts, with what its operator has set, and the random bits and the time,
  should they be needed -/
  | look (p : ℕ) (configured : Configured) (id : NodeId) (createdAtMs : UInt64)
  | truncate (p : ℕ)
  | write (p : ℕ)
  /-- take the lock, and host again what can be opened -/
  | lock (p : ℕ) (found : List ChannelName)
  | announce (p : ℕ) (name : ChannelName)
  | host (p : ℕ) (name : ChannelName)
  | deregister (p : ℕ) (name : ChannelName) (removed : Bool)
  | tick (p : ℕ) (conflicts : List NodeId) (removable : Bool)
  /-- killed, or done -/
  | exit (p : ℕ)

def setStage (s : Home) (p : ℕ) (stage : Stage) : Home :=
  { s with procs := Function.update s.procs p stage }

/-- What the file holds. -/
def text (s : Home) : Option (List Char) := s.file.map Prod.snd

def look (s : Home) (p : ℕ) (configured : Configured) (id : NodeId) (createdAtMs : UInt64) :
    Home :=
  match resolve configured s.text with
  | .error _ => s
  | .ok (some identity) => s.setStage p (.resolved identity)
  | .ok none => s.setStage p (.generating configured.name id createdAtMs)

def truncate (s : Home) (p : ℕ) : Home :=
  match s.procs p with
  | .generating name id createdAtMs =>
    match s.file with
    | some (ino, _) =>
      { s with file := some (ino, []) }.setStage p (.truncated ino name id createdAtMs)
    | none =>
      { s with file := some (s.nextIno, []), nextIno := s.nextIno + 1 }.setStage p
        (.truncated s.nextIno name id createdAtMs)
  | _ => s

/-- What is written takes the place of as much of what is there. A file that has been
discarded meanwhile is written all the same, and gone. -/
def write (s : Home) (p : ℕ) : Home :=
  match s.procs p with
  | .truncated ino name id createdAtMs =>
    let written := render id createdAtMs
    let file := s.file.map fun f =>
      if f.1 = ino then (ino, written ++ f.2.drop written.length) else f
    { s with file }.setStage p (.resolved ⟨id, createdAtMs, name, true⟩)
  | _ => s

def takeLock (s : Home) (p : ℕ) (found : List ChannelName) : Home :=
  match s.procs p with
  | .resolved identity =>
    match s.lock with
    | some _ => s.setStage p .down
    | none =>
      let hosted := found.filter fun name => (s.disk name).isSome
      { s with lock := some p }.setStage p (.running ⟨identity, hosted, [], [], [], false⟩)
  | _ => s

/-- The first half of `create_origin`. A directory that is there is used again. -/
def announce (s : Home) (p : ℕ) (name : ChannelName) : Home :=
  match s.procs p with
  | .running d =>
    let owner := (s.disk name).getD d.identity.id
    { s with disk := Function.update s.disk name (some owner) }.setStage p
      (.running { d with opening := name :: d.opening })
  | _ => s

/-- The second half. -/
def host (s : Home) (p : ℕ) (name : ChannelName) : Home :=
  match s.procs p with
  | .running d =>
    if name ∈ d.opening then
      s.setStage p (.running
        { d with hosted := name :: d.hosted, opening := d.opening.filter (· ≠ name) })
    else s
  | _ => s

def deregister (s : Home) (p : ℕ) (name : ChannelName) (removed : Bool) : Home :=
  match s.procs p with
  | .running d =>
    if name ∈ d.hosted then
      { s with disk := if removed then Function.update s.disk name none else s.disk }.setStage p
        (.running { d with hosted := d.hosted.filter (· ≠ name) })
    else s
  | _ => s

def tick (s : Home) (p : ℕ) (conflicts : List NodeId) (removable : Bool) : Home :=
  match s.procs p with
  | .running d =>
    match d.reportDuplicateIdentity conflicts removable with
    | (d, .goOn) => s.setStage p (.running d)
    | (d, .stepAside) =>
      { s with file := none }.setStage p (.running { d with leaving := true })
  | _ => s

def exit (s : Home) (p : ℕ) : Home :=
  { s with lock := if s.lock = some p then none else s.lock }.setStage p .down

def perform (s : Home) : Command → Home
  | .look p configured id createdAtMs => s.look p configured id createdAtMs
  | .truncate p => s.truncate p
  | .write p => s.write p
  | .lock p found => s.takeLock p found
  | .announce p name => s.announce p name
  | .host p name => s.host p name
  | .deregister p name removed => s.deregister p name removed
  | .tick p conflicts removable => s.tick p conflicts removable
  | .exit p => s.exit p

/-! ## What is to be avoided -/

/-- Precautions, none of which the daemon takes itself. -/
structure Care where
  /-- no start overlaps with one that makes up an id, or with a daemon stepping aside -/
  starts : Bool
  /-- nothing is created while the daemon steps aside -/
  creations : Bool
  /-- what is on disk is hosted, and what is deregistered is gone from disk -/
  rehosts : Bool
  /-- the operator sets the same id for every start, or none for any -/
  config : Bool
  deriving DecidableEq, Repr

-- what the operator sets, as far as they are careful
variable (configured : Configured)

def Allowed (care : Care) (s : Home) : Command → Prop
  | .look p given _ _ => s.procs p = .down ∧
      (care.starts = true → ∀ q, (s.procs q).creating = false ∧ (s.procs q).leaving = false) ∧
      (care.config = true → given.id = configured.id)
  | .lock _ found => care.rehosts = true → ∀ name, s.disk name ≠ none → name ∈ found
  | .announce p _ => care.creations = true → (s.procs p).leaving = false
  | .deregister _ _ removed => care.rehosts = true → removed = true
  | .tick p conflicts removable => ∀ d, s.procs p = .running d →
      (d.reportDuplicateIdentity conflicts removable).2 = .stepAside →
      (care.starts = true → ∀ q, (s.procs q).starting = false) ∧
        (care.creations = true → d.opening = [])
  | _ => True

def Step (care : Care) (s s' : Home) : Prop :=
  ∃ cmd, s.Allowed configured care cmd ∧ s' = s.perform cmd

/-! ## What holds with care -/

/-- A start that looked now would come up with this id. -/
def Reads (s : Home) (id : NodeId) : Prop :=
  ∃ identity, resolve configured s.text = .ok (some identity) ∧ identity.id = id

/-- What is known of a process that has come this far. -/
def StageOk (s : Home) : Stage → Prop
  | .down => True
  | .generating _ _ _ => configured.id = none ∧ s.file = none
  | .truncated ino _ _ _ => configured.id = none ∧ s.file = some (ino, [])
  | .resolved identity =>
      s.Reads configured identity.id ∧ identity.generated = configured.id.isNone
  | .running d => d.identity.generated = configured.id.isNone ∧
      if d.leaving then s.file = none ∧ configured.id = none ∧ d.hosted = [] ∧ d.opening = []
      else s.Reads configured d.identity.id ∧
        ∀ name, s.disk name ≠ none → name ∈ d.hosted ∨ name ∈ d.opening

structure Inv (s : Home) : Prop where
  lock : ∀ p, s.lock = some p ↔ (s.procs p).isRunning = true
  alone : ∀ p, (s.procs p).creating = true → ∀ q, q ≠ p →
    (s.procs q).creating = false ∧ (s.procs q).leaving = false
  stage : ∀ p, s.StageOk configured (s.procs p)
  owner : ∀ name owner, s.disk name = some owner → s.Reads configured owner

section Kept

variable {configured} {s : Home}

theorem Reads.unique {id id' : NodeId} (h : s.Reads configured id) (h' : s.Reads configured id') :
    id = id' := by
  obtain ⟨identity, hresolve, rfl⟩ := h
  obtain ⟨identity', hresolve', rfl⟩ := h'
  rw [hresolve] at hresolve'
  cases hresolve'
  rfl

theorem not_reads_none (hid : configured.id = none) (hfile : s.file = none) (id : NodeId) :
    ¬ s.Reads configured id := by
  rintro ⟨identity, hresolve, -⟩
  simp [resolve, hid, text, hfile, readFile] at hresolve

/-- An empty file has no id. -/
theorem readFile_nil : readFile (some []) = .error .invalidData := rfl

theorem not_reads_nil {ino : ℕ} (hid : configured.id = none) (hfile : s.file = some (ino, []))
    (id : NodeId) : ¬ s.Reads configured id := by
  rintro ⟨identity, hresolve, -⟩
  simp [resolve, hid, text, hfile, readFile_nil] at hresolve

/-- Only one process is at work while an id is made up, over an empty directory. -/
theorem Inv.others_down (h : s.Inv configured) {p : ℕ} (hp : (s.procs p).creating = true) :
    (∀ q, q ≠ p → s.procs q = .down) ∧ ∀ name, s.disk name = none := by
  have hreads : ∀ id, ¬ s.Reads configured id := by
    have hstage := h.stage p
    cases hs : s.procs p with
    | generating name id ms =>
        rw [hs] at hstage
        exact not_reads_none hstage.1 hstage.2
    | truncated ino name id ms =>
        rw [hs] at hstage
        exact not_reads_nil hstage.1 hstage.2
    | down => simp [hs, Stage.creating] at hp
    | resolved identity => simp [hs, Stage.creating] at hp
    | running d => simp [hs, Stage.creating] at hp
  refine ⟨fun q hq => ?_, fun name => ?_⟩
  · obtain ⟨hcreating, hleaving⟩ := h.alone p hp q hq
    have hstage := h.stage q
    cases hs : s.procs q with
    | down => rfl
    | generating name id ms => simp [hs, Stage.creating] at hcreating
    | truncated ino name id ms => simp [hs, Stage.creating] at hcreating
    | resolved identity =>
        rw [hs] at hstage
        exact absurd hstage.1 (hreads _)
    | running d =>
        have hstays : d.leaving = false := by simpa [hs, Stage.leaving] using hleaving
        simp only [hs, StageOk, hstays] at hstage
        exact absurd hstage.2.1 (hreads _)
  · cases hdisk : s.disk name with
    | none => rfl
    | some owner => exact absurd (h.owner name owner hdisk) (hreads owner)

/-- Only one daemon runs. -/
theorem Inv.running_unique (h : s.Inv configured) {p q : ℕ} {d d' : Daemon}
    (hp : s.procs p = .running d) (hq : s.procs q = .running d') : p = q := by
  have hlock := (h.lock p).mpr (by rw [hp]; rfl)
  have hlock' := (h.lock q).mpr (by rw [hq]; rfl)
  exact Option.some.inj (hlock.symm.trans hlock')

/-- One process moves on, with the file as it is. -/
theorem Inv.update (h : s.Inv configured) {s' : Home} {p : ℕ} {stage : Stage}
    (hfile : s'.file = s.file) (hprocs : s'.procs = Function.update s.procs p stage)
    (hlock : ∀ q, s'.lock = some q ↔ if q = p then stage.isRunning = true else s.lock = some q)
    (halone : ∀ q, q ≠ p →
      (stage.creating = true → (s.procs q).creating = false ∧ (s.procs q).leaving = false) ∧
      ((s.procs q).creating = true → stage.creating = false ∧ stage.leaving = false))
    (hstage : s'.StageOk configured stage)
    (hdisk : s'.disk = s.disk ∨ ∀ q, q ≠ p → (s.procs q).isRunning = false)
    (howner : ∀ name owner, s'.disk name = some owner → s.Reads configured owner) :
    s'.Inv configured := by
  have hat : ∀ q, s'.procs q = if q = p then stage else s.procs q := fun q => by
    rw [hprocs, Function.update_apply]
  have hreads : ∀ id, s.Reads configured id → s'.Reads configured id := by
    intro id hr
    rwa [Reads, text, hfile]
  refine ⟨fun q => ?_, fun q hq r hr => ?_, fun q => ?_, fun name owner hname => ?_⟩
  · rw [hlock q, hat q]
    split
    · rfl
    · exact h.lock q
  · rw [hat] at hq ⊢
    split at hq
    · rename_i hqp
      rw [if_neg (hqp ▸ hr)]
      exact (halone r (hqp ▸ hr)).1 hq
    · rename_i hqp
      split
      · exact (halone q hqp).2 hq
      · exact h.alone q hq r hr
  · rw [hat]
    split
    · exact hstage
    · rename_i hqp
      have hold := h.stage q
      cases hs : s.procs q with
      | down => trivial
      | generating name id ms =>
          rw [hs] at hold
          exact ⟨hold.1, hfile.trans hold.2⟩
      | truncated ino name id ms =>
          rw [hs] at hold
          exact ⟨hold.1, hfile.trans hold.2⟩
      | resolved identity =>
          rw [hs] at hold
          exact ⟨hreads _ hold.1, hold.2⟩
      | running d =>
          rcases hdisk with hdisk | hnone
          · rw [hs] at hold
            refine ⟨hold.1, ?_⟩
            have hrest := hold.2
            split
            · rename_i hl
              rw [if_pos hl] at hrest
              exact ⟨hfile.trans hrest.1, hrest.2⟩
            · rename_i hl
              rw [if_neg hl] at hrest
              rw [hdisk]
              exact ⟨hreads _ hrest.1, hrest.2⟩
          · have hquiet := hnone q hqp
            rw [hs] at hquiet
            cases hquiet
  · exact hreads _ (howner name owner hname)

/-- There is no other process. -/
theorem Inv.sole {s' : Home} {p : ℕ} (hdown : ∀ q, q ≠ p → s'.procs q = .down)
    (hlock : ∀ q, s'.lock = some q ↔ (s'.procs q).isRunning = true)
    (hstage : s'.StageOk configured (s'.procs p))
    (howner : ∀ name owner, s'.disk name = some owner → s'.Reads configured owner) :
    s'.Inv configured := by
  refine ⟨hlock, fun q hq r hr => ?_, fun q => ?_, howner⟩
  · by_cases hqp : q = p
    · rw [hdown r (hqp ▸ hr)]
      exact ⟨rfl, rfl⟩
    · rw [hdown q hqp] at hq
      cases hq
  · by_cases hqp : q = p
    · rw [hqp]
      exact hstage
    · rw [hdown q hqp]
      trivial

/-! ### Step by step -/

theorem resolve_generated {file : Option (List Char)} {identity : NodeIdentity}
    (h : resolve configured file = .ok (some identity)) :
    identity.generated = configured.id.isNone := by
  unfold resolve at h
  split at h
  · rename_i id hid
    cases h
    simp [hid]
  · rename_i hid
    split at h
    · cases h
    · cases h
    · cases h
      simp [hid]

/-- Another name makes no other id. -/
theorem reads_of_resolve {given : Configured} {identity : NodeIdentity}
    (hid : given.id = configured.id) (h : resolve given s.text = .ok (some identity)) :
    s.Reads configured identity.id := by
  unfold Reads resolve
  unfold resolve at h
  rw [← hid]
  cases hgiven : given.id with
  | some id =>
      rw [hgiven] at h
      cases h
      exact ⟨_, rfl, rfl⟩
  | none =>
      rw [hgiven] at h
      simp only at h ⊢
      split at h
      · cases h
      · cases h
      · cases h
        exact ⟨_, rfl, rfl⟩

/-- An id has to be made up where none is set and there is no file. -/
theorem resolve_eq_none {file : Option (List Char)}
    (h : resolve configured file = .ok none) : configured.id = none ∧ file = none := by
  unfold resolve at h
  split at h
  · cases h
  · rename_i hid
    refine ⟨hid, ?_⟩
    cases file with
    | none => rfl
    | some text =>
        simp only [readFile] at h
        split at h
        · cases h
        · rename_i hread
          split at hread <;> cases hread
        · cases h

theorem Inv.look (h : s.Inv configured) {p : ℕ} (hp : s.procs p = .down)
    (hquiet : ∀ q, (s.procs q).creating = false ∧ (s.procs q).leaving = false)
    {given : Configured} (hgiven : given.id = configured.id) (id : NodeId) (ms : UInt64) :
    (s.look p given id ms).Inv configured := by
  have hlock : ∀ q, s.lock = some q ↔ if q = p then false = true else s.lock = some q := by
    intro q
    split
    · rename_i hqp
      rw [hqp, h.lock p, hp]
      rfl
    · rfl
  unfold Home.look
  split
  · exact h
  · rename_i identity hresolve
    refine h.update rfl rfl hlock (fun q _ => ?_) ⟨reads_of_resolve hgiven hresolve,
      hgiven ▸ resolve_generated hresolve⟩ (.inl rfl) h.owner
    simp [Stage.creating, Stage.leaving]
  · rename_i hresolve
    obtain ⟨hid, hfile⟩ := resolve_eq_none hresolve
    refine h.update rfl rfl hlock (fun q _ => ⟨fun _ => hquiet q, fun hq => ?_⟩)
      ⟨hgiven ▸ hid, Option.map_eq_none_iff.mp hfile⟩ (.inl rfl) h.owner
    rw [(hquiet q).1] at hq
    cases hq

/-- Whoever holds the lock holds it still while one process goes on. -/
theorem Inv.lock_update (h : s.Inv configured) {p : ℕ} {stage : Stage}
    (hstage : stage.isRunning = (s.procs p).isRunning) (q : ℕ) :
    s.lock = some q ↔ (Function.update s.procs p stage q).isRunning = true := by
  rw [h.lock q, Function.update_apply]
  split
  · rename_i hqp
    rw [hqp, hstage]
  · rfl

theorem Inv.truncate (h : s.Inv configured) (p : ℕ) : (s.truncate p).Inv configured := by
  unfold Home.truncate
  split
  · rename_i name id ms hp
    have hcreating : (s.procs p).creating = true := by rw [hp]; rfl
    obtain ⟨hdown, hempty⟩ := h.others_down hcreating
    have hstage := h.stage p
    rw [hp] at hstage
    obtain ⟨hid, hfile⟩ := hstage
    rw [hfile]
    refine Inv.sole (p := p) (fun q hq => ?_) (h.lock_update (by rw [hp]; rfl)) ?_
      fun name owner hname => ?_
    · exact (Function.update_of_ne hq _ _).trans (hdown q hq)
    · simp only [setStage, Function.update_self]
      exact ⟨hid, rfl⟩
    · cases (hempty name).symm.trans hname
  · exact h

theorem Inv.write (h : s.Inv configured) (p : ℕ) : (s.write p).Inv configured := by
  unfold Home.write
  split
  · rename_i ino name id ms hp
    have hcreating : (s.procs p).creating = true := by rw [hp]; rfl
    obtain ⟨hdown, hempty⟩ := h.others_down hcreating
    have hstage := h.stage p
    rw [hp] at hstage
    obtain ⟨hid, hfile⟩ := hstage
    refine Inv.sole (p := p) (fun q hq => ?_) (h.lock_update (by rw [hp]; rfl)) ?_
      fun name owner hname => ?_
    · exact (Function.update_of_ne hq _ _).trans (hdown q hq)
    · simp only [setStage, Function.update_self, StageOk, hid, Option.isNone_none, and_true]
      refine ⟨⟨id, ms, configured.name, true⟩, ?_, rfl⟩
      simp [resolve, hid, text, hfile, readFile_render]
    · cases (hempty name).symm.trans hname
  · exact h

/-- A process that is not running does not hold the lock. -/
theorem Inv.lock_ne (h : s.Inv configured) {p : ℕ} (hp : (s.procs p).isRunning = false) :
    s.lock ≠ some p := by
  intro hlock
  rw [(h.lock p).mp hlock] at hp
  cases hp

/-- A process goes, or never got to run. -/
theorem Inv.down (h : s.Inv configured) {s' : Home} {p : ℕ} (hfile : s'.file = s.file)
    (hprocs : s'.procs = Function.update s.procs p .down) (hdisk : s'.disk = s.disk)
    (hlock : s'.lock = if s.lock = some p then none else s.lock) : s'.Inv configured := by
  refine h.update hfile hprocs (fun q => ?_) (fun q _ => ?_) trivial (.inl hdisk)
    fun name owner hname => h.owner name owner (hdisk ▸ hname)
  · rw [hlock]
    by_cases hqp : q = p
    · rw [if_pos hqp, hqp]
      split
      · simp [Stage.isRunning]
      · rename_i hne
        simp [hne, Stage.isRunning]
    · rw [if_neg hqp]
      split
      · rename_i hheld
        simp [hheld, Ne.symm hqp]
      · rfl
  · simp [Stage.creating, Stage.leaving]

theorem Inv.exit (h : s.Inv configured) (p : ℕ) : (s.exit p).Inv configured :=
  h.down rfl rfl rfl rfl

theorem Inv.takeLock (h : s.Inv configured) (p : ℕ) {found : List ChannelName}
    (hfound : ∀ name, s.disk name ≠ none → name ∈ found) :
    (s.takeLock p found).Inv configured := by
  unfold Home.takeLock
  split
  · rename_i identity hp
    have hstage := h.stage p
    rw [hp] at hstage
    have hfree := h.lock_ne (p := p) (by rw [hp]; rfl)
    split
    · exact h.down rfl rfl rfl (by rw [if_neg hfree]; rfl)
    · rename_i hlock
      refine h.update rfl rfl (fun q => ?_) (fun q _ => ?_) ⟨hstage.2, hstage.1, ?_⟩ (.inl rfl)
        h.owner
      · show some p = some q ↔ _
        split
        · rename_i hqp
          simp [hqp, Stage.isRunning]
        · rename_i hqp
          simp [hlock, Ne.symm hqp]
      · simp [Stage.creating, Stage.leaving]
      · intro name hname
        refine .inl (List.mem_filter.mpr ⟨hfound name hname, ?_⟩)
        exact Option.isSome_iff_ne_none.mpr hname
  · exact h

/-- A daemon does something. -/
theorem Inv.runs (h : s.Inv configured) {p : ℕ} {d d' : Daemon} (hp : s.procs p = .running d)
    {s' : Home} (hfile : s'.file = s.file) (hlock : s'.lock = s.lock)
    (hprocs : s'.procs = Function.update s.procs p (.running d'))
    (hleaving : d'.leaving = d.leaving) (hstage : s'.StageOk configured (.running d'))
    (howner : ∀ name owner, s'.disk name = some owner → s.Reads configured owner) :
    s'.Inv configured := by
  have hheld : s.lock = some p := (h.lock p).mpr (by rw [hp]; rfl)
  refine h.update hfile hprocs (fun q => ?_) (fun q hq => ⟨fun hc => ?_, fun hc => ?_⟩)
    hstage (.inr fun q hq => ?_) howner
  · rw [hlock]
    split
    · rename_i hqp
      simp [hqp, hheld, Stage.isRunning]
    · rfl
  · cases hc
  · have hquiet := (h.alone q hc p (Ne.symm hq)).2
    rw [hp] at hquiet
    exact ⟨rfl, hleaving.trans hquiet⟩
  · cases hs : s.procs q with
    | running d' => exact absurd (h.running_unique hs hp) hq
    | down => rfl
    | generating name id ms => rfl
    | truncated ino name id ms => rfl
    | resolved identity => rfl

/-- A daemon that stays has its own id, and hosts what there is. -/
theorem Inv.stays (h : s.Inv configured) {p : ℕ} {d : Daemon} (hp : s.procs p = .running d)
    (hstays : d.leaving = false) : d.identity.generated = configured.id.isNone ∧
      s.Reads configured d.identity.id ∧
      ∀ name, s.disk name ≠ none → name ∈ d.hosted ∨ name ∈ d.opening := by
  have hstage := h.stage p
  simp only [hp, StageOk, hstays, Bool.false_eq_true, if_false] at hstage
  exact hstage

/-- One that leaves has nothing. -/
theorem Inv.leaves (h : s.Inv configured) {p : ℕ} {d : Daemon} (hp : s.procs p = .running d)
    (hleaves : d.leaving = true) :
    s.file = none ∧ configured.id = none ∧ d.hosted = [] ∧ d.opening = [] := by
  have hstage := h.stage p
  simp only [hp, StageOk, hleaves, if_true] at hstage
  exact hstage.2

/-- A daemon that stays does something with its channels. -/
theorem Inv.goOn (h : s.Inv configured) {p : ℕ} {d d' : Daemon} (hp : s.procs p = .running d)
    (hstays : d.leaving = false) {s' : Home} (hfile : s'.file = s.file) (hlock : s'.lock = s.lock)
    (hprocs : s'.procs = Function.update s.procs p (.running d'))
    (hidentity : d'.identity = d.identity) (hleaving : d'.leaving = d.leaving)
    (hdisk : ∀ name owner, s'.disk name = some owner →
      s.disk name = some owner ∨ owner = d.identity.id)
    (hhosted : ∀ name, s'.disk name ≠ none → name ∈ d'.hosted ∨ name ∈ d'.opening) :
    s'.Inv configured := by
  obtain ⟨hgenerated, hreads, -⟩ := h.stays hp hstays
  refine h.runs hp hfile hlock hprocs hleaving ?_ fun name owner hname => ?_
  · rw [StageOk, hidentity, hleaving, hstays]
    refine ⟨hgenerated, ?_, hhosted⟩
    rwa [Reads, text, hfile]
  · rcases hdisk name owner hname with hold | rfl
    · exact h.owner name owner hold
    · exact hreads

theorem Inv.announce (h : s.Inv configured) {p : ℕ} (hstays : (s.procs p).leaving = false)
    (name : ChannelName) : (s.announce p name).Inv configured := by
  unfold Home.announce
  split
  · rename_i d hp
    have hstays' : d.leaving = false := by simpa [hp, Stage.leaving] using hstays
    refine h.goOn hp hstays' rfl rfl rfl rfl rfl (fun name' owner howner => ?_)
      fun name' hname' => ?_
    · change Function.update s.disk name _ name' = some owner at howner
      rw [Function.update_apply] at howner
      split at howner
      · rename_i heq
        rw [heq]
        cases hdisk : s.disk name with
        | none =>
            rw [hdisk] at howner
            exact .inr (Option.some.inj howner).symm
        | some owner' =>
            rw [hdisk] at howner
            exact .inl howner
      · exact .inl howner
    · change Function.update s.disk name _ name' ≠ none at hname'
      rw [Function.update_apply] at hname'
      split at hname'
      · rename_i heq
        exact .inr (heq ▸ List.mem_cons_self)
      · exact ((h.stays hp hstays').2.2 name' hname').imp_right (List.mem_cons_of_mem _)
  · exact h

theorem Inv.host (h : s.Inv configured) (p : ℕ) (name : ChannelName) :
    (s.host p name).Inv configured := by
  unfold Home.host
  split
  · rename_i d hp
    split
    · rename_i hopening
      have hstays : d.leaving = false := by
        by_contra hleaves
        rw [(h.leaves hp (Bool.not_eq_false _ ▸ hleaves)).2.2.2] at hopening
        cases hopening
      refine h.goOn hp hstays rfl rfl rfl rfl rfl (fun _ _ => .inl) fun name' hname' => ?_
      by_cases heq : name' = name
      · exact .inl (heq ▸ List.mem_cons_self)
      · refine ((h.stays hp hstays).2.2 name' hname').imp (List.mem_cons_of_mem _) fun hmem => ?_
        exact List.mem_filter.mpr ⟨hmem, by simpa using heq⟩
    · exact h
  · exact h

theorem Inv.deregister (h : s.Inv configured) (p : ℕ) (name : ChannelName) :
    (s.deregister p name true).Inv configured := by
  unfold Home.deregister
  split
  · rename_i d hp
    split
    · rename_i hhosted
      have hstays : d.leaving = false := by
        by_contra hleaves
        rw [(h.leaves hp (Bool.not_eq_false _ ▸ hleaves)).2.2.1] at hhosted
        cases hhosted
      refine h.goOn hp hstays rfl rfl rfl rfl rfl (fun name' owner howner => .inl ?_)
        fun name' hname' => ?_
      · change Function.update s.disk name none name' = some owner at howner
        rw [Function.update_apply] at howner
        split at howner
        · cases howner
        · exact howner
      · change Function.update s.disk name none name' ≠ none at hname'
        rw [Function.update_apply] at hname'
        split at hname'
        · exact absurd rfl hname'
        · rename_i heq
          refine ((h.stays hp hstays).2.2 name' hname').imp_left fun hmem => ?_
          exact List.mem_filter.mpr ⟨hmem, by simpa using heq⟩
    · exact h
  · exact h

theorem Inv.tick (h : s.Inv configured) {p : ℕ} {conflicts : List NodeId} {removable : Bool}
    (hcare : ∀ d, s.procs p = .running d →
      (d.reportDuplicateIdentity conflicts removable).2 = .stepAside →
      (∀ q, (s.procs q).starting = false) ∧ d.opening = []) :
    (s.tick p conflicts removable).Inv configured := by
  unfold Home.tick
  split
  · rename_i d hp
    obtain ⟨hidentity, hhosted, hopening, hleaving⟩ := d.report_same conflicts removable
    split
    · rename_i d' hreport
      simp only [hreport] at hidentity hhosted hopening hleaving
      refine h.runs hp rfl rfl rfl hleaving ?_ h.owner
      have hstage := h.stage p
      rw [hp] at hstage
      rw [StageOk, hidentity, hhosted, hopening, hleaving]
      exact hstage
    · rename_i d' hreport
      obtain ⟨hstarting, hnone⟩ := hcare d hp (by rw [hreport])
      obtain ⟨hgenerated, hempty⟩ := d.report_stepAside (by rw [hreport])
      simp only [hreport] at hidentity hhosted hopening
      have hid : configured.id = none := by
        have hstage := h.stage p
        rw [hp] at hstage
        simpa [hgenerated] using hstage.1
      have hdisk : ∀ name, s.disk name = none := by
        intro name
        by_contra hne
        cases hleaves : d.leaving with
        | true =>
            obtain ⟨owner, howner⟩ := Option.ne_none_iff_exists'.mp hne
            exact not_reads_none hid (h.leaves hp hleaves).1 _ (h.owner name owner howner)
        | false => simpa [hempty, hnone] using (h.stays hp hleaves).2.2 name hne
      refine Inv.sole (p := p) (fun q hq => ?_) (h.lock_update (by rw [hp]; rfl)) ?_
        fun name owner hname => ?_
      · refine (Function.update_of_ne hq _ _).trans ?_
        cases hs : s.procs q with
        | down => rfl
        | running d₂ => exact absurd (h.running_unique hs hp) hq
        | generating name id ms => simpa [hs, Stage.starting] using hstarting q
        | truncated ino name id ms => simpa [hs, Stage.starting] using hstarting q
        | resolved identity => simpa [hs, Stage.starting] using hstarting q
      · simp only [setStage, Function.update_self, StageOk, if_true]
        exact ⟨by rw [hidentity, hgenerated, hid]; rfl, trivial, hid, hhosted.trans hempty,
          hopening.trans hnone⟩
      · cases (hdisk name).symm.trans hname
  · exact h

theorem Inv.step (h : s.Inv configured) {s' : Home}
    (hstep : Step configured ⟨true, true, true, true⟩ s s') : s'.Inv configured := by
  obtain ⟨cmd, hallowed, rfl⟩ := hstep
  cases cmd with
  | look p given id ms => exact h.look hallowed.1 (hallowed.2.1 rfl) (hallowed.2.2 rfl) id ms
  | truncate p => exact h.truncate p
  | write p => exact h.write p
  | lock p found => exact h.takeLock p (hallowed rfl)
  | announce p name => exact h.announce (hallowed rfl) name
  | host p name => exact h.host p name
  | deregister p name removed =>
      obtain rfl : removed = true := hallowed rfl
      exact h.deregister p name
  | tick p conflicts removable =>
      exact h.tick fun d hd hr => ⟨(hallowed d hd hr).1 rfl, (hallowed d hd hr).2 rfl⟩
  | exit p => exact h.exit p

theorem inv_fresh : fresh.Inv configured := by
  refine Inv.sole (p := 0) (fun _ _ => rfl) (fun q => ?_) trivial fun name owner hname => ?_
  · simp [fresh, Stage.isRunning]
  · cases hname

theorem inv_of_reachable
    (h : Run.Reachable (· = fresh) (Step configured ⟨true, true, true, true⟩) s) :
    s.Inv configured := by
  refine h.invariant (fun s hs => ?_) fun _ _ hi hstep => hi.step hstep
  rw [hs]
  exact inv_fresh

end Kept

/-! ## Runs -/

section Runs

variable {configured} (care : Care)

/-- Two processes, and no other. -/
def pair (a b : Stage) : ℕ → Stage := fun q => if q = 0 then a else if q = 1 then b else .down

@[simp] theorem pair_zero (a b : Stage) : pair a b 0 = a := rfl

@[simp] theorem pair_one (a b : Stage) : pair a b 1 = b := rfl

@[simp] theorem update_pair_zero (a b c : Stage) : Function.update (pair a b) 0 c = pair c b := by
  funext q
  rw [Function.update_apply, pair]
  split <;> simp_all [pair]

@[simp] theorem update_pair_one (a b c : Stage) : Function.update (pair a b) 1 c = pair a c := by
  funext q
  rw [Function.update_apply, pair]
  split <;> simp_all [pair]

theorem fresh_eq : fresh = ⟨none, 0, fun _ => none, none, pair .down .down⟩ := by
  simp only [fresh, Home.mk.injEq, true_and]
  funext q
  simp [pair]

theorem forall_pair {P : Stage → Prop} {a b : Stage} (ha : P a) (hb : P b) (hdown : P .down)
    (q : ℕ) : P (pair a b q) := by
  unfold pair
  split_ifs
  · exact ha
  · exact hb
  · exact hdown

/-- No one is at work. -/
theorem quiet_down (q : ℕ) :
    (pair .down .down q).creating = false ∧ (pair .down .down q).leaving = false :=
  forall_pair (P := fun stage => stage.creating = false ∧ stage.leaving = false)
    ⟨rfl, rfl⟩ ⟨rfl, rfl⟩ ⟨rfl, rfl⟩ q

variable {n : ℕ} {disk : ChannelName → Option NodeId}

/-- A daemon that has just come up. -/
def begun (configured : Configured) (id : NodeId) (ms : UInt64) (hosted : List ChannelName) :
    Daemon :=
  ⟨⟨id, ms, configured.name, true⟩, hosted, [], [], [], false⟩

/-- A daemon comes up where there is no file. -/
theorem makes_up (hid : configured.id = none) (id : NodeId) (ms : UInt64)
    (found : List ChannelName) (hfound : ∀ name, disk name ≠ none → name ∈ found) :
    Relation.ReflTransGen (Step configured care) ⟨none, n, disk, none, pair .down .down⟩
      ⟨some (n, render id ms), n + 1, disk, some 0,
        pair (.running (begun configured id ms (found.filter fun name => (disk name).isSome)))
          .down⟩ := by
  refine .head (b := ⟨none, n, disk, none, pair (.generating configured.name id ms) .down⟩)
    ⟨.look 0 configured id ms, ⟨rfl, fun _ => quiet_down, fun _ => rfl⟩, ?_⟩ ?_
  · simp [perform, look, resolve, hid, text, readFile, setStage]
  refine .head (b := ⟨some (n, []), n + 1, disk, none,
    pair (.truncated n configured.name id ms) .down⟩) ⟨.truncate 0, trivial, ?_⟩ ?_
  · simp [perform, truncate, setStage]
  refine .head (b := ⟨some (n, render id ms), n + 1, disk, none,
    pair (.resolved ⟨id, ms, configured.name, true⟩) .down⟩) ⟨.write 0, trivial, ?_⟩ ?_
  · simp [perform, write, setStage]
  exact .single ⟨.lock 0 found, fun _ => hfound, by simp [perform, takeLock, setStage, begun]⟩

theorem first_start (hid : configured.id = none) (id : NodeId) :
    Relation.ReflTransGen (Step configured care) fresh
      ⟨some (0, render id 0), 1, fun _ => none, some 0,
        pair (.running (begun configured id 0 [])) .down⟩ := by
  rw [fresh_eq]
  exact makes_up care hid id 0 [] fun _ h => absurd rfl h

/-- A daemon comes up where there is a file, and hosts what it finds. -/
theorem comes_back (hid : configured.id = none) {file : ℕ × List Char} {id : NodeId} {ms : UInt64}
    (hfile : file.2 = render id ms) (found : List ChannelName)
    (hfound : care.rehosts = true → ∀ name, disk name ≠ none → name ∈ found) :
    Relation.ReflTransGen (Step configured care) ⟨some file, n, disk, none, pair .down .down⟩
      ⟨some file, n, disk, some 0,
        pair (.running (begun configured id ms (found.filter fun name => (disk name).isSome)))
          .down⟩ := by
  refine .head (b := ⟨some file, n, disk, none,
    pair (.resolved ⟨id, ms, configured.name, true⟩) .down⟩)
    ⟨.look 0 configured 0 0, ⟨rfl, fun _ => quiet_down, fun _ => rfl⟩, ?_⟩ ?_
  · simp [perform, look, resolve, hid, text, hfile, readFile_render, setStage]
  exact .single ⟨.lock 0 found, hfound, by simp [perform, takeLock, setStage, begun]⟩

theorem goes_down (file : Option (ℕ × List Char)) (d : Daemon) (b : Stage) :
    Relation.ReflTransGen (Step configured care) ⟨file, n, disk, some 0, pair (.running d) b⟩
      ⟨file, n, disk, none, pair .down b⟩ :=
  .single ⟨.exit 0, trivial, by simp [perform, exit, setStage]⟩

theorem announces (file : Option (ℕ × List Char)) {d : Daemon}
    (hcare : care.creations = true → d.leaving = false) (name : ChannelName)
    (hname : disk name = none) (b : Stage) :
    Relation.ReflTransGen (Step configured care) ⟨file, n, disk, some 0, pair (.running d) b⟩
      ⟨file, n, Function.update disk name (some d.identity.id), some 0,
        pair (.running { d with opening := name :: d.opening }) b⟩ :=
  .single ⟨.announce 0 name, hcare, by simp [perform, announce, setStage, hname]⟩

/-- A daemon that has stepped aside. -/
def stepped (configured : Configured) (id : NodeId) (ms : UInt64) : Daemon :=
  ⟨⟨id, ms, configured.name, true⟩, [], [], [id], [.twoPeersClaim id, .discarded], true⟩

/-- A daemon that hosts nothing meets its double. -/
theorem steps_aside (file : Option (ℕ × List Char)) (id : NodeId) (ms : UInt64) :
    Relation.ReflTransGen (Step configured care)
      ⟨file, n, disk, some 0, pair (.running (begun configured id ms [])) .down⟩
      ⟨none, n, disk, some 0, pair (.running (stepped configured id ms)) .down⟩ := by
  refine .single ⟨.tick 0 [id] true, fun d hd _ => ⟨fun _ => ?_, fun _ => ?_⟩, ?_⟩
  · exact forall_pair (P := fun stage => stage.starting = false) rfl rfl rfl
  · obtain rfl : begun configured id ms [] = d := Stage.running.inj hd
    rfl
  · simp [perform, tick, Daemon.reportDuplicateIdentity, Daemon.insertFresh, begun, stepped,
      setStage]

/-- A directory with one channel. -/
def holding (name : ChannelName) (id : NodeId) : ChannelName → Option NodeId :=
  Function.update (fun _ => none) name (some id)

theorem holding_self (name : ChannelName) (id : NodeId) : holding name id name = some id :=
  Function.update_self _ _ _

theorem mem_of_holding {name name' : ChannelName} {id : NodeId} (h : holding name id name' ≠ none) :
    name' ∈ [name] := by
  by_contra hne
  exact h (Function.update_of_ne (by simpa using hne) _ _)

/-- A first daemon announces a channel, and goes. -/
theorem leaves_behind (hid : configured.id = none) (name : ChannelName) (id : NodeId) :
    Relation.ReflTransGen (Step configured care) fresh
      ⟨some (0, render id 0), 1, holding name id, none, pair .down .down⟩ :=
  ((first_start care hid id).trans (announces care _ (fun _ => rfl) name rfl _)).trans
    (goes_down care _ _ _)

variable (configured) in
/-- Some run ends with a daemon under the second id, over a channel that was announced
under the first. -/
def Loses (name : ChannelName) (id id' : NodeId) : Prop :=
  ∃ s p d, Run.Reachable (· = fresh) (Step configured care) s ∧ s.procs p = .running d ∧
    d.leaving = false ∧ d.identity.id = id' ∧ s.disk name = some id

variable {care} {name : ChannelName} {id id' : NodeId}

/-- A run that ends so. -/
theorem loses_of_run {file : Option (ℕ × List Char)} {d : Daemon}
    (h : Relation.ReflTransGen (Step configured care) fresh
      ⟨file, n, holding name id, some 0, pair (.running d) .down⟩)
    (hstays : d.leaving = false) (hd : d.identity.id = id') :
    Loses configured care name id id' :=
  have hstart : Run.Reachable (· = fresh) (Step configured care) fresh := .start rfl
  ⟨_, 0, d, hstart.steps h, rfl, hstays, hd, holding_self name id⟩

/-- The file has another id than the channel. -/
theorem loses_of_file (hid : configured.id = none) {file : ℕ × List Char} {ms' : UInt64}
    (hfile : file.2 = render id' ms')
    (h : Relation.ReflTransGen (Step configured care) fresh
      ⟨some file, n, holding name id, none, pair .down .down⟩) :
    Loses configured care name id id' :=
  loses_of_run (h.trans (comes_back care hid hfile [name] fun _ _ => mem_of_holding)) rfl rfl

/-- The channel is there, and the file is not. -/
theorem loses_of_none (hid : configured.id = none)
    (h : Relation.ReflTransGen (Step configured care) fresh
      ⟨none, n, holding name id, none, pair .down .down⟩) :
    Loses configured care name id id' :=
  loses_of_run (h.trans (makes_up care hid id' 0 [name] fun _ => mem_of_holding)) rfl rfl

/-- Two start at once. -/
theorem loses_starting (hid : configured.id = none) (hcare : care.starts = false) :
    Loses configured care name id id' := by
  have hempty : ∀ name' : ChannelName, (none : Option NodeId) ≠ none → name' ∈ ([] : List _) :=
    fun _ h => absurd rfl h
  have hboth : Relation.ReflTransGen (Step configured care) fresh
      ⟨some (0, render id' 0), 1, fun _ => none, some 0, pair (.running (begun configured id 0 []))
        (.resolved ⟨id', 0, configured.name, true⟩)⟩ := by
    rw [fresh_eq]
    -- neither finds a file
    refine .head (b := ⟨none, 0, fun _ => none, none,
      pair (.generating configured.name id 0) .down⟩)
      ⟨.look 0 configured id 0, ⟨rfl, fun _ => quiet_down, fun _ => rfl⟩, ?_⟩ ?_
    · simp [perform, look, resolve, hid, text, readFile, setStage]
    refine .head (b := ⟨none, 0, fun _ => none, none,
      pair (.generating configured.name id 0) (.generating configured.name id' 0)⟩)
      ⟨.look 1 configured id' 0, ⟨rfl, fun h => ?_, fun _ => rfl⟩, ?_⟩ ?_
    · rw [hcare] at h
      cases h
    · simp [perform, look, resolve, hid, text, readFile, setStage]
    -- and both write one
    refine .head (b := ⟨some (0, []), 1, fun _ => none, none,
      pair (.truncated 0 configured.name id 0) (.generating configured.name id' 0)⟩)
      ⟨.truncate 0, trivial, ?_⟩ ?_
    · simp [perform, truncate, setStage]
    refine .head (b := ⟨some (0, render id 0), 1, fun _ => none, none,
      pair (.resolved ⟨id, 0, configured.name, true⟩) (.generating configured.name id' 0)⟩)
      ⟨.write 0, trivial, ?_⟩ ?_
    · simp [perform, write, setStage]
    refine .head (b := ⟨some (0, []), 1, fun _ => none, none,
      pair (.resolved ⟨id, 0, configured.name, true⟩) (.truncated 0 configured.name id' 0)⟩)
      ⟨.truncate 1, trivial, ?_⟩ ?_
    · simp [perform, truncate, setStage]
    refine .head (b := ⟨some (0, render id' 0), 1, fun _ => none, none,
      pair (.resolved ⟨id, 0, configured.name, true⟩)
        (.resolved ⟨id', 0, configured.name, true⟩)⟩) ⟨.write 1, trivial, ?_⟩ ?_
    · simp [perform, write, setStage]
    exact .single ⟨.lock 0 [], fun _ => hempty, by simp [perform, takeLock, setStage, begun]⟩
  -- the one that wrote last is refused the lock
  have hrefused := hboth.tail
    (c := ⟨some (0, render id' 0), 1, fun _ => none, some 0,
      pair (.running (begun configured id 0 [])) .down⟩)
    ⟨.lock 1 [], fun _ => hempty, by simp [perform, takeLock, setStage]⟩
  have hcreated := hrefused.trans (announces care _ (fun _ => rfl) name rfl _)
  exact loses_of_file hid rfl (hcreated.trans (goes_down care _ _ _))

/-- A channel is created while the daemon steps aside. -/
theorem loses_creating (hid : configured.id = none) (hcare : care.creations = false) :
    Loses configured care name id id' := by
  have haside := (first_start care hid id).trans (steps_aside care _ id 0)
  have hcreated := haside.trans
    (announces care _ (fun h => by rw [hcare] at h; cases h) name rfl _)
  exact loses_of_none hid (hcreated.trans (goes_down care _ _ _))

/-- A channel on disk is not hosted. -/
theorem loses_rehosting (hid : configured.id = none) (hcare : care.rehosts = false) :
    Loses configured care name id id' := by
  have hdown := leaves_behind care hid name id
  have hback := hdown.trans
    (comes_back care hid rfl [] fun h => by rw [hcare] at h; cases h)
  have haside := hback.trans (steps_aside care _ id 0)
  exact loses_of_none hid (haside.trans (goes_down care _ _ _))

/-- An id is set for a later start. -/
theorem loses_configuring (hid : configured.id = none) (hcare : care.config = false) :
    Loses configured care name id id' := by
  have hdown := leaves_behind care hid name id
  have hset := hdown.tail
    (c := ⟨some (0, render id 0), 1, holding name id, none,
      pair (.resolved ⟨id', 0, configured.name, false⟩) .down⟩)
    ⟨.look 0 ⟨some id', configured.name⟩ 0 0,
      ⟨rfl, fun _ => quiet_down, fun h => by rw [hcare] at h; cases h⟩,
      by simp [perform, look, resolve, setStage, holding]⟩
  refine loses_of_run (hset.tail
    (c := ⟨some (0, render id 0), 1, holding name id, some 0,
      pair (.running ⟨⟨id', 0, configured.name, false⟩, [name], [], [], [], false⟩) .down⟩)
    ⟨.lock 0 [name], fun _ _ => mem_of_holding,
      by simp [perform, takeLock, setStage, holding_self]⟩) rfl rfl

end Runs

/-- **With care, the owner comes back.** Whatever starts, is killed, creates, removes and
steps aside over a directory, at most one daemon runs there, under the id its channels
were announced under; and whoever starts next comes up with it. -/
theorem owner_comes_back {s : Home}
    (h : Run.Reachable (· = fresh) (Step configured ⟨true, true, true, true⟩) s) :
    (∀ name owner, s.disk name = some owner → s.Reads configured owner) ∧
      ∀ p d, s.procs p = .running d →
        (∀ q d', s.procs q = .running d' → q = p) ∧
          ∀ name owner, s.disk name = some owner → owner = d.identity.id := by
  have hinv := inv_of_reachable h
  refine ⟨hinv.owner, fun p d hp => ⟨fun q d' hq => hinv.running_unique hq hp, ?_⟩⟩
  intro name owner hname
  have howner := hinv.owner name owner hname
  cases hleaves : d.leaving with
  | true =>
      obtain ⟨hfile, hid, -⟩ := hinv.leaves hp hleaves
      exact absurd howner (not_reads_none hid hfile owner)
  | false => exact howner.unique (hinv.stays hp hleaves).2.1

theorem owner_comes_back_announced : ∃ s d,
    Run.Reachable (· = fresh) (Step ⟨none, "n1"⟩ ⟨true, true, true, true⟩) s ∧
      s.procs 0 = .running d ∧ s.disk "md" = some 7 ∧ s.Reads ⟨none, "n1"⟩ 7 ∧
      7 = d.identity.id := by
  have hstart : Run.Reachable (· = fresh) (Step ⟨none, "n1"⟩ ⟨true, true, true, true⟩) fresh :=
    .start rfl
  have hs := (hstart.steps (first_start _ rfl 7)).steps (announces _ _ (fun _ => rfl) "md" rfl _)
  obtain ⟨hreads, hruns⟩ := owner_comes_back _ hs
  exact ⟨_, _, hs, rfl, rfl, hreads "md" 7 rfl, (hruns 0 _ rfl).2 "md" 7 rfl⟩

/-- **Each precaution is needed.** Where the id is made up and one of the four is not
taken, there is a run after which a daemon hosts a channel under another id than it was
announced under, whatever the channel and the ids: if two start at once in a new
directory, the one that has the lock may not be the one whose file remains; a daemon
that steps aside goes on creating channels; one that could not open its channels
takes itself for one that has none; and one that is given an id does not look at the file. -/
theorem owner_lost (hid : configured.id = none) {care : Care}
    (hcare : care ≠ ⟨true, true, true, true⟩) (name : ChannelName) (id id' : NodeId) :
    Loses configured care name id id' := by
  obtain ⟨starts, creations, rehosts, config⟩ := care
  cases starts with
  | false => exact loses_starting hid rfl
  | true =>
      cases creations with
      | false => exact loses_creating hid rfl
      | true =>
          cases rehosts with
          | false => exact loses_rehosting hid rfl
          | true =>
              cases config with
              | false => exact loses_configuring hid rfl
              | true => exact absurd rfl hcare

theorem owner_lost_market : (Configured.mk none "n1").id = none ∧
    (⟨true, true, false, true⟩ : Care) ≠ ⟨true, true, true, true⟩ ∧
    Loses ⟨none, "n1"⟩ ⟨true, true, false, true⟩ "md" 1 2 :=
  ⟨rfl, by decide, owner_lost _ rfl (by decide) "md" 1 2⟩

/-! ## A file without an id -/

section Torn

variable {configured} {care : Care} {s s' : Home}

/-- No process runs, and the file is this. -/
structure Stuck (s : Home) (text : List Char) : Prop where
  text : s.text = some text
  down : ∀ p, s.procs p = .down

theorem update_down {procs : ℕ → Stage} {p : ℕ} (h : ∀ q, q ≠ p → procs q = .down) (q : ℕ) :
    Function.update procs p .down q = .down := by
  rw [Function.update_apply]
  split
  · rfl
  · exact h q ‹_›

/-- Over a file without an id, no start comes to anything. -/
theorem Stuck.step (hid : configured.id = none) (hcare : care.config = true) {text : List Char}
    (hread : readFile (some text) = .error .invalidData) (h : s.Stuck text)
    (hstep : Step configured care s s') : s'.Stuck text := by
  obtain ⟨cmd, hallowed, rfl⟩ := hstep
  cases cmd with
  | look p given id ms =>
      have hgiven : given.id = none := (hallowed.2.2 hcare).trans hid
      have hresolve : resolve given s.text = .error .invalidData := by
        simp only [resolve, hgiven, h.text, hread]
      simpa only [perform, Home.look, hresolve] using h
  | truncate p => simpa only [perform, Home.truncate, h.down] using h
  | write p => simpa only [perform, Home.write, h.down] using h
  | lock p found => simpa only [perform, Home.takeLock, h.down] using h
  | announce p name => simpa only [perform, Home.announce, h.down] using h
  | host p name => simpa only [perform, Home.host, h.down] using h
  | deregister p name removed => simpa only [perform, Home.deregister, h.down] using h
  | tick p conflicts removable => simpa only [perform, Home.tick, h.down] using h
  | exit p =>
      exact ⟨h.text, update_down fun q _ => h.down q⟩

theorem Stuck.steps (hid : configured.id = none) (hcare : care.config = true) {text : List Char}
    (hread : readFile (some text) = .error .invalidData) (h : s.Stuck text)
    (hsteps : Relation.ReflTransGen (Step configured care) s s') : s'.Stuck text := by
  induction hsteps with
  | refl => exact h
  | tail _ hlast ih => exact ih.step hid hcare hread hlast

/-- A process that is killed before it has written its file leaves it empty, and nobody
else at work. -/
theorem Inv.torn (h : s.Inv configured) {p ino : ℕ} {name : String} {id : NodeId} {ms : UInt64}
    (hp : s.procs p = .truncated ino name id ms) : (s.exit p).Stuck [] := by
  have hstage := h.stage p
  rw [hp] at hstage
  obtain ⟨hdown, -⟩ := h.others_down (p := p) (by rw [hp]; rfl)
  refine ⟨?_, update_down hdown⟩
  show s.file.map Prod.snd = some []
  rw [hstage.2]
  rfl

end Torn

/-- **No id is guessed.** Wherever in a run a process is killed between creating its file and
writing it, the file is left empty, which is not the same as no file: there is no id in
it. From then on, whatever is tried with no id set and with or without the other
precautions, no daemon comes up again over the directory, and the file stays as it is. -/
theorem no_id_guessed (hid : configured.id = none) {s : Home}
    (h : Run.Reachable (· = fresh) (Step configured ⟨true, true, true, true⟩) s)
    {p ino : ℕ} {name : String} {id : NodeId} {ms : UInt64}
    (hp : s.procs p = .truncated ino name id ms) :
    readFile (s.exit p).text = .error .invalidData ∧
      ∀ (care : Care) (s' : Home), care.config = true →
        Relation.ReflTransGen (Step configured care) (s.exit p) s' →
          s'.text = (s.exit p).text ∧ ∀ q, s'.procs q = .down := by
  have hstuck := (inv_of_reachable h).torn hp
  refine ⟨by rw [hstuck.text, readFile_nil], fun care s' hcare hsteps => ?_⟩
  have hstays := hstuck.steps hid hcare readFile_nil hsteps
  exact ⟨by rw [hstays.text, hstuck.text], hstays.down⟩

/-- The first start of all is cut short, and another is tried. -/
theorem no_id_guessed_torn : ∃ s : Home,
    s.procs 0 = .truncated 0 "n1" 7 0 ∧ readFile (s.exit 0).text = .error .invalidData ∧
      ((s.exit 0).look 1 ⟨none, "n1"⟩ 8 0).procs 1 = .down := by
  have hlook : Run.Reachable (· = fresh) (Step ⟨none, "n1"⟩ ⟨true, true, true, true⟩)
      ⟨none, 0, fun _ => none, none, pair (.generating "n1" 7 0) .down⟩ := by
    refine .next (.start fresh_eq.symm)
      ⟨.look 0 ⟨none, "n1"⟩ 7 0, ⟨rfl, fun _ => quiet_down, fun _ => rfl⟩, ?_⟩
    simp [perform, look, resolve, text, readFile, setStage]
  have hcut : Run.Reachable (· = fresh) (Step ⟨none, "n1"⟩ ⟨true, true, true, true⟩)
      ⟨some (0, []), 1, fun _ => none, none, pair (.truncated 0 "n1" 7 0) .down⟩ :=
    hlook.next ⟨.truncate 0, trivial, by simp [perform, truncate, setStage]⟩
  obtain ⟨hread, hnever⟩ := no_id_guessed ⟨none, "n1"⟩ rfl hcut (p := 0) rfl
  refine ⟨_, rfl, hread, (hnever ⟨true, true, true, true⟩ _ rfl (.single ?_)).2 1⟩
  refine ⟨.look 1 ⟨none, "n1"⟩ 8 0, ⟨?_, fun _ q => ?_, fun _ => rfl⟩, rfl⟩
  · simp [exit, setStage]
  · simp only [exit, setStage, update_pair_zero]
    exact quiet_down q

end Home

end XchannelNet
