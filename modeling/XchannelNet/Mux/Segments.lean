import XchannelNet.Mux.Audit

/-!
# Segments — every segment describes itself

A reader resolves the refs of a topic with the last slot table it has seen,
and after retention has pruned the log it starts at the first record of some
segment. It never meets a ref it cannot resolve: every segment starts its own
description over. The invariant is that the slots of the mux are those of the
last table of the segment being written; a table is written whenever either
changes.
-/

namespace XchannelNet

namespace Mux

open Fallible

/-! ## Reading a segment -/

/-- What a slot table says of a slot, but for its cursor. -/
def SlotEntry.seat (e : SlotEntry) : UInt16 × Incarnation := (e.memberRef, e.member)

def SlotTable.member? (t : SlotTable) (memberRef : UInt16) : Option Incarnation :=
  (t.members.map SlotEntry.seat).lookup memberRef

/-- The slot table in force after one more record. -/
def tableAfter (t : Option SlotTable) (r : Record) : Option SlotTable :=
  if r.msgType = MSG_TYPE_SLOT_TABLE then
    match decodeSlotTable r.payload with
    | .ok t' => some t'
    | .error _ => t
  else t

def lastTable (records : List Record) : Option SlotTable := records.foldl tableAfter none

/-- The member a ref stands for after these records. -/
def resolve (records : List Record) (memberRef : UInt16) : Option Incarnation :=
  (lastTable records).bind (·.member? memberRef)

def Emission.tableAfter (t : Option SlotTable) : Emission → Option SlotTable
  | .slotTable t' => some t'
  | _ => t

/-- The last table among emissions. -/
def latest (es : List Emission) : Option SlotTable := es.foldl Emission.tableAfter none

theorem latest_concat (es : List Emission) (e : Emission) :
    latest (es ++ [e]) = e.tableAfter (latest es) := by
  simp [latest]

theorem latest_subject {e : Emission} {x : SlotEntry} (es : List Emission)
    (he : e.subject = some x) : latest (es ++ [e]) = latest es := by
  rw [latest_concat]
  cases e with
  | slotTable t => cases he
  | _ => rfl

/-- A table closer to the end is the last one. -/
theorem latest_append {es : List Emission} {t : SlotTable} (before : List Emission)
    (h : latest es = some t) : latest (before ++ es) = some t := by
  induction es using List.reverseRecOn generalizing t with
  | nil => cases h
  | append_singleton es e ih =>
      rw [← List.append_assoc, latest_concat]
      rw [latest_concat] at h
      cases e with
      | slotTable t' => exact h
      | _ => exact ih h

/-- A reader takes a sound emission for what it is. -/
theorem Emission.Sound.tableAfter {e : Emission} (h : e.Sound) (t : Option SlotTable) :
    Mux.tableAfter t e.record = e.tableAfter t := by
  cases e with
  | slotTable t' =>
      show (match Mux.decodeSlotTable (Emission.slotTable t').record.payload with
        | .ok t' => some t'
        | .error _ => t) = _
      rw [h.decodeSlotTable]
      rfl
  | data x f => exact if_neg (ne_slotTable_of_not_control h)
  | _ => rfl

theorem lastTable_records {es : List Emission} (h : ∀ e ∈ es, e.Sound) :
    lastTable (es.map Emission.record) = latest es := by
  unfold lastTable latest
  generalize (none : Option SlotTable) = t
  induction es generalizing t with
  | nil => rfl
  | cons e es ih =>
      rw [List.map_cons, List.foldl_cons, List.foldl_cons, (h e List.mem_cons_self).tableAfter]
      exact ih (fun x hx => h x (List.mem_cons_of_mem _ hx)) _

/-! ## Described segments -/

/-- After these emissions the ref of `x` stands for its member. -/
def Resolves (es : List Emission) (x : SlotEntry) : Prop :=
  ∃ t, latest es = some t ∧ t.member? x.memberRef = some x.member

/-- Whatever is about a member comes after a table that names it. -/
def Describes (part : List Emission) : Prop :=
  ∀ a e b x, part = a ++ e :: b → e.subject = some x → Resolves a x

theorem Describes.concat {part : List Emission} (h : Describes part) {e : Emission}
    (he : ∀ x, e.subject = some x → Resolves part x) : Describes (part ++ [e]) := by
  intro a e' b x hsplit hx
  rcases List.eq_nil_or_concat b with rfl | ⟨b', y, rfl⟩
  · obtain ⟨rfl, he'⟩ := List.append_inj' hsplit rfl
    cases he'
    exact he x hx
  · rw [List.concat_eq_append, ← List.cons_append, ← List.append_assoc] at hsplit
    exact h a e' b' x (List.append_inj' hsplit rfl).1 hx

/-- The emissions of a ledger, segment by segment. -/
structure Parts (l : Ledger) (closed : List (List Emission)) (current : List Emission) : Prop where
  emitted : closed.flatten ++ current = l.emitted
  closedRecords : closed.map (List.map Emission.record) = l.log.closed
  currentRecords : current.map Emission.record = l.log.current
  describes : ∀ part ∈ closed ++ [current], Describes part

/-- The slots are those of the last table. -/
def Seated (l : Ledger) (current : List Emission) : Prop :=
  l.slots = [] ∨ ∃ t, latest current = some t ∧ t.geometry = l.geometry ∧
    t.members.map SlotEntry.seat = l.slots.map SlotEntry.seat

theorem lookup_of_mem {α β : Type} [BEq α] [LawfulBEq α] {L : List (α × β)}
    (hnd : (L.map Prod.fst).Nodup) {p : α × β} (h : p ∈ L) : L.lookup p.1 = some p.2 := by
  induction L with
  | nil => cases h
  | cons q L ih =>
      rw [List.map_cons, List.nodup_cons] at hnd
      rw [List.lookup_cons]
      rcases List.mem_cons.mp h with rfl | h
      · simp
      · have hne : p.1 ≠ q.1 := fun he => hnd.1 (he ▸ List.mem_map_of_mem h)
        have hb : (p.1 == q.1) = false := by simpa using hne
        simp only [hb]
        exact ih hnd.2 h

section

variable {l l' : Ledger} {closed : List (List Emission)} {current : List Emission}

theorem Seated.resolves (h : Seated l current) (hl : l.Sound) {x : SlotEntry} (hx : x ∈ l.slots) :
    Resolves current x := by
  rcases h with hnil | ⟨t, ht, -, hseats⟩
  · rw [hnil] at hx
    cases hx
  · refine ⟨t, ht, ?_⟩
    have hnd : ((l.slots.map SlotEntry.seat).map Prod.fst).Nodup := by
      rw [List.map_map]
      exact hl.refs
    rw [SlotTable.member?, hseats]
    exact lookup_of_mem hnd (List.mem_map_of_mem (f := SlotEntry.seat) hx)

/-- A table describes the slots it was made of. -/
theorem seated_table (l : Ledger) (es : List Emission) : Seated l (es ++ [l.table]) := by
  refine .inr ⟨⟨l.geometry, l.slots⟩, ?_, rfl, rfl⟩
  rw [latest_concat]
  rfl

theorem Seated.subject (h : Seated l current) {e : Emission} {x : SlotEntry}
    (he : e.subject = some x) : Seated l (current ++ [e]) := by
  unfold Seated
  rw [latest_subject current he]
  exact h

theorem Seated.congr (h : Seated l current) (hg : l'.geometry = l.geometry)
    (hs : l'.slots.map SlotEntry.seat = l.slots.map SlotEntry.seat) : Seated l' current := by
  rcases h with hnil | ⟨t, ht, hgeo, hseats⟩
  · rw [hnil, List.map_nil, List.map_eq_nil_iff] at hs
    exact .inl hs
  · exact .inr ⟨t, ht, hgeo.trans hg.symm, hseats.trans hs.symm⟩

theorem Parts.congr (h : Parts l closed current) (hlog : l'.log.toSegLog = l.log.toSegLog)
    (he : l'.emitted = l.emitted) : Parts l' closed current :=
  ⟨by rw [he, h.emitted], by rw [hlog, h.closedRecords], by rw [hlog, h.currentRecords],
    h.describes⟩

theorem Parts.emit (h : Parts l closed current) {e : Emission}
    (he : ∀ x, e.subject = some x → Resolves current x) :
    Parts (l.emit e) closed (current ++ [e]) where
  emitted := by
    rw [← List.append_assoc, h.emitted]
    rfl
  closedRecords := h.closedRecords
  currentRecords := by
    rw [List.map_append, h.currentRecords]
    rfl
  describes part hp := by
    rcases List.mem_append.mp hp with hp | hp
    · exact h.describes part (List.mem_append_left _ hp)
    · rw [List.mem_singleton.mp hp]
      exact (h.describes current (List.mem_append_right _ List.mem_cons_self)).concat he

theorem Parts.roll (h : Parts l closed current) (k : ℕ) :
    Parts (l.roll k) (closed ++ [current]) [] where
  emitted := by
    rw [List.append_nil, List.flatten_append, List.flatten_singleton, h.emitted]
    rfl
  closedRecords := by
    rw [List.map_append, h.closedRecords, List.map_singleton, h.currentRecords]
    rfl
  currentRecords := rfl
  describes part hp := by
    rcases List.mem_append.mp hp with hp | hp
    · exact h.describes part hp
    · rw [List.mem_singleton.mp hp]
      intro a e b x hsplit
      simp at hsplit

/-- Every segment describes itself. -/
def Segmented (l : Ledger) : Prop := ∃ closed current, Parts l closed current

/-- And the last one describes the slots as they are. -/
def Tidy (l : Ledger) : Prop := ∃ closed current, Parts l closed current ∧ Seated l current

theorem Tidy.segmented (h : Tidy l) : Segmented l := by
  obtain ⟨closed, current, hp, -⟩ := h
  exact ⟨closed, current, hp⟩

/-- A record about a slot. -/
theorem Tidy.emit (h : Tidy l) (hl : l.Sound) {e : Emission} {x : SlotEntry}
    (he : e.subject = some x) (hx : x ∈ l.slots) : Tidy (l.emit e) := by
  obtain ⟨closed, current, hp, hs⟩ := h
  refine ⟨closed, current ++ [e], hp.emit fun y hy => ?_, hs.subject he⟩
  rw [he] at hy
  cases hy
  exact hs.resolves hl hx

/-- A slot table, whatever the slots were before. -/
theorem Segmented.table (h : Segmented l) : Tidy (l.emit l.table) := by
  obtain ⟨closed, current, hp⟩ := h
  exact ⟨closed, current ++ [l.table], hp.emit (fun x hx => by cases hx), seated_table l current⟩

theorem Segmented.congr (h : Segmented l) (hlog : l'.log.toSegLog = l.log.toSegLog)
    (he : l'.emitted = l.emitted) : Segmented l' := by
  obtain ⟨closed, current, hp⟩ := h
  exact ⟨closed, current, hp.congr hlog he⟩

theorem Segmented.roll (h : Segmented l) (k : ℕ) : Segmented (l.roll k) := by
  obtain ⟨closed, current, hp⟩ := h
  exact ⟨closed ++ [current], [], hp.roll k⟩

theorem Tidy.advance (h : Tidy l) {i : ℕ} {e : SlotEntry} (he : l.slots[i]? = some e)
    (cursor : UInt64) : Tidy (l.advance i e cursor) := by
  obtain ⟨closed, current, hp, hs⟩ := h
  exact ⟨closed, current, hp.congr rfl rfl,
    hs.congr rfl (map_set_eq SlotEntry.seat he { e with cursor } rfl)⟩

/-- **Step lemma.** -/
theorem Tidy.act (h : Tidy l) (hl : l.Sound) (ha : Ledger.Act l l') : Tidy l' := by
  cases ha with
  | pass he cursor => exact h.advance he cursor
  | @merge i e f he hrej cursor =>
      -- the record is about the slot as it was before its cursor moved
      obtain ⟨closed, current, hp, hs⟩ := h
      have hp' : Parts (l.advance i e cursor) closed current := hp.congr rfl rfl
      have hs' : Seated (l.advance i e cursor) current :=
        hs.congr rfl (map_set_eq SlotEntry.seat he { e with cursor } rfl)
      refine ⟨closed, current ++ [Emission.data e f], hp'.emit fun x hx => ?_, hs'.subject rfl⟩
      cases hx
      exact hs.resolves hl (List.mem_of_getElem? he)
  | refresh he => exact h.segmented.table
  | roll he k => exact (h.segmented.roll k).table
  | bump hf hspace =>
      obtain ⟨closed, current, hp, hs⟩ := h
      exact ⟨closed, current, hp.congr rfl rfl, hs.congr rfl rfl⟩
  | attach he => exact (h.segmented.congr rfl rfl : Segmented (l.push _)).table
  | gap he a b => exact h.emit hl rfl he
  | regressed he a b => exact h.emit hl rfl he
  | closing he => exact h.emit hl rfl (List.mem_of_getElem? he)
  | detach he hclosed => exact (h.segmented.congr rfl rfl : Segmented (l.erase _)).table

theorem Tidy.step (h : Tidy l) (hl : l.Sound) (hs : Ledger.Step l l') : Tidy l' := by
  cases hs with
  | act ha => exact h.act hl ha
  | terminate hf hs =>
      obtain ⟨closed, current, hp, -⟩ := h
      have hp' : Parts (l.emit .terminal) closed (current ++ [.terminal]) :=
        hp.emit fun x hx => by cases hx
      exact ⟨closed, current ++ [.terminal], (hp'.congr rfl rfl : Parts l.terminate _ _), .inl hs⟩

/-- **Run lemma** within a session. -/
theorem Tidy.steps (h : Tidy l) (hl : l.Sound) (hs : Relation.ReflTransGen Ledger.Step l l') :
    Tidy l' := by
  induction hs with
  | refl => exact h
  | tail hsteps hlast ih => exact ih.step (hl.steps hsteps) hlast

/-- A round broken off leaves its segments described, if not its slots. -/
theorem Tidy.cut (h : Tidy l) (hc : Ledger.Cut l l') : Segmented l' := by
  cases hc with
  | roll he k => exact h.segmented.roll k
  | attach he => exact h.segmented.congr rfl rfl
  | detach he hclosed => exact h.segmented.congr rfl rfl

theorem Segmented.reopen (h : Segmented l) {log : Log} (hlog : log.toSegLog = l.log.toSegLog)
    (geometry : TopicGeometry) : Tidy (l.reopen log geometry) := by
  obtain ⟨closed, current, hp⟩ := h
  exact ⟨closed, current, hp.congr hlog rfl, .inl rfl⟩

end

/-! ## Runs -/

variable {φ : Type}

/-- A commit may be what the process is killed at, but none fails. -/
def NoCommitFails (_ : Setup) (_ : World φ) : Action φ → Prop
  | .op _ _ (.error (.write e)) => e = .killed
  | _ => True

/-- The write an operation failed at. -/
def Action.writeError : Action φ → Option WriteError
  | .op _ _ (.error (.write e)) => some e
  | _ => none

theorem noCommitFails_iff {c : Setup} {w : World φ} {a : Action φ} :
    NoCommitFails c w a ↔ ∀ e ∈ a.writeError, e = .killed := by
  unfold NoCommitFails Action.writeError
  split <;> simp

instance (c : Setup) (w : World φ) (a : Action φ) : Decidable (NoCommitFails c w a) :=
  decidable_of_iff _ noCommitFails_iff.symm

/-- The segments of the topic, oldest first, pruned or not. -/
def World.segments (w : World φ) : List (List Record) :=
  match w.session with
  | .closed none => []
  | .closed (some l) => l.segments
  | .running m _ => m.topic.log.segments

/-- Between operations the ledger is tidy while a mux runs, and segmented
whether or not. -/
def Filed (x : World φ × Ledger) : Prop :=
  match x.1.session with
  | .closed _ => Segmented x.2
  | .running _ _ => Tidy x.2

theorem Filed.segmented {x : World φ × Ledger} (h : Filed x) : Segmented x.2 := by
  unfold Filed at h
  split at h
  · exact h
  · exact h.segmented

theorem filed_of_tidy {x : World φ × Ledger} (h : Tidy x.2) : Filed x := by
  unfold Filed
  split
  · exact h.segmented
  · exact h

theorem Filed.auditing [DecidableEq φ] {x y : World φ × Ledger} (h : Filed x) (hl : x.2.Sound)
    (hstep : Auditing NoCommitFails x y) : Filed y := by
  obtain ⟨w, l⟩ := x
  obtain ⟨w', l'⟩ := y
  obtain ⟨c, a, hs, ha, ht, -⟩ := hstep
  dsimp only at hs ht hl
  cases hs with
  | grow hg hb =>
      cases ht
      exact h
  | «open» hs ho =>
      cases ht with
      | «open» hlog geometry => exact filed_of_tidy (h.segmented.reopen hlog geometry)
  | op o outcomes hs hv hr =>
      have htidy : Tidy l := by
        unfold Filed at h
        rw [hs] at h
        exact h
      rename_i m opened r
      obtain ⟨result, m'⟩ := r
      cases ht with
      | op hsteps => exact filed_of_tidy (htidy.steps hl hsteps)
      | cut hsteps hcut =>
          -- the one write that can have failed is the one the process was killed at
          obtain rfl : _ = WriteError.killed := ha
          exact (htidy.steps hl hsteps).cut hcut
  | kill hs =>
      cases ht
      exact h.segmented

theorem segmented_empty {l : Ledger} (hlog : l.log.toSegLog = .empty 0) (he : l.emitted = []) :
    Segmented l := by
  refine ⟨[], [], by rw [he]; rfl, by rw [hlog]; rfl, by rw [hlog]; rfl, ?_⟩
  intro part hp a e b x hsplit
  rw [List.nil_append, List.mem_singleton] at hp
  rw [hp] at hsplit
  simp at hsplit

theorem Unwritten.filed {x : World φ × Ledger} (h : Unwritten x) : Filed x := by
  unfold Filed
  rw [h.1.1]
  exact segmented_empty h.2.1 h.2.2.2.2

theorem Audited.filed [DecidableEq φ] {w : World φ} {l : Ledger}
    (h : Audited NoCommitFails w l) : Filed (w, l) :=
  h.invariant Filed (fun _ hx => hx.filed) fun _ _ hl _ hx hstep => hx.auditing hl hstep

/-- The segments of the topic are those of its ledger. -/
theorem Segmented.parts {w : World φ} {l : Ledger} (h : Segmented l) (hf : Follows w l) :
    ∃ parts : List (List Emission), parts.flatten = l.emitted ∧
      parts.map (List.map Emission.record) = w.segments ∧ ∀ part ∈ parts, Describes part := by
  obtain ⟨closed, current, hp⟩ := h
  have hflat : (closed ++ [current]).flatten = l.emitted := by
    rw [List.flatten_append, List.flatten_singleton, hp.emitted]
  have hseg : (closed ++ [current]).map (List.map Emission.record) = l.log.segments := by
    rw [List.map_append, hp.closedRecords, List.map_singleton, hp.currentRecords]
    rfl
  unfold Follows at hf
  unfold World.segments
  rcases hs : w.session with (_ | log) | ⟨m, opened⟩ <;> rw [hs] at hf
  · exact ⟨[], by rw [hf.2]; rfl, rfl, by simp⟩
  · exact ⟨closed ++ [current], hflat, hseg.trans (by rw [hf]), hp.describes⟩
  · exact ⟨closed ++ [current], hflat,
      hseg.trans (congrArg (fun x : Log => x.segments) hf.log.symm), hp.describes⟩

theorem resolve_of_resolves {es : List Emission} (he : ∀ e ∈ es, e.Sound) {x : SlotEntry}
    (h : Resolves es x) : resolve (es.map Emission.record) x.memberRef = some x.member := by
  obtain ⟨t, ht, hx⟩ := h
  rw [resolve, lastTable_records he, ht]
  exact hx

theorem Resolves.append {es : List Emission} {x : SlotEntry} (h : Resolves es x)
    (before : List Emission) : Resolves (before ++ es) x := by
  obtain ⟨t, ht, hx⟩ := h
  exact ⟨t, latest_append before ht, hx⟩

/-- **Every retained window is self-describing.** A record that is about a
member comes, in its own segment, after a slot table, and the last one before
it maps the ref it carries to the member the mux was handling. A reader who
starts at the first record of this segment, or of any earlier one, resolves it
so. -/
theorem segments_self_describing [DecidableEq φ] {w : World φ}
    (h : Run.Reachable Init (Acting NoCommitFails) w) :
    ∃ l parts, Audited NoCommitFails w l ∧ parts.flatten = l.emitted ∧
      parts.map (List.map Emission.record) = w.segments ∧
      ∀ older part newer a e b, parts = older ++ part :: newer → part = a ++ e :: b →
        memberRefOf e.record = e.subject.map (·.memberRef) ∧
        ∀ x, e.subject = some x →
          resolve (a.map Emission.record) x.memberRef = some x.member ∧
          ∀ n, resolve (((older.drop n).flatten ++ a).map Emission.record) x.memberRef =
            some x.member := by
  obtain ⟨l, hl⟩ := exists_audited h
  obtain ⟨parts, hflat, hseg, hdesc⟩ := hl.filed.segmented.parts hl.follows
  refine ⟨l, parts, hl, hflat, hseg, ?_⟩
  rintro older part newer a e b rfl rfl
  have hmem : ∀ y ∈ older.flatten ++ (a ++ e :: b), y.Sound := by
    intro y hy
    refine hl.sound.emitted y ?_
    rw [← hflat, List.flatten_append, List.flatten_cons, ← List.append_assoc]
    exact List.mem_append_left _ hy
  refine ⟨(hmem e (by simp)).memberRefOf, fun x hx => ?_⟩
  have hres : Resolves a x := hdesc _ (by simp) a e b x rfl hx
  refine ⟨resolve_of_resolves (fun y hy => hmem y (by simp [hy])) hres, fun n => ?_⟩
  refine resolve_of_resolves (fun y hy => ?_) (hres.append _)
  rcases List.mem_append.mp hy with hy | hy
  · obtain ⟨p, hp, hyp⟩ := List.mem_flatten.mp hy
    exact hmem y (List.mem_append_left _ (List.mem_flatten.mpr ⟨p, List.mem_of_mem_drop hp, hyp⟩))
  · exact hmem y (by simp [hy])

/-- Rolls before every record. -/
def eagerSetup : Setup := ⟨"topic", ⟨4096, 0, 1, 0⟩, 1⟩

/-- The first session is killed as it starts its third segment; the second one
gives its ref to another member. -/
theorem segments_self_describing_killed :
    ∃ w : World Bool, w.segments.length = 4 ∧
      ∃ parts : List (List Emission), parts.map (List.map Emission.record) = w.segments ∧
        ∀ older part newer a e b x, parts = older ++ part :: newer → part = a ++ e :: b →
          e.subject = some x → resolve (a.map Emission.record) x.memberRef = some x.member := by
  obtain ⟨w, hreach, hlen⟩ := exists_acting NoCommitFails
    ⟨fun f => if f then .ofRecords "a" 0 [⟨1, 0, []⟩, ⟨2, 0, []⟩]
        else .ofRecords "b" 0 [⟨3, 0, []⟩], .closed none, []⟩
    ([.open, .op (.addMember "a" 0 (some true)) [], .op (.mergeOne 0) [],
      .op (.mergeOne 0) [.done 0, .killed], .open, .op (.addMember "b" 0 (some false)) [],
      .op .poll []].map fun cmd => (eagerSetup, cmd))
    (fun w => w.segments.length = 4)
    (init_mk fun f => by cases f <;> decide) (by decide +kernel)
  obtain ⟨l, parts, -, -, hseg, hdesc⟩ := segments_self_describing hreach
  refine ⟨w, hlen, parts, hseg, ?_⟩
  intro older part newer a e b x hparts hpart hx
  exact ((hdesc older part newer a e b hparts hpart).2 x hx).1

end Mux

end XchannelNet
