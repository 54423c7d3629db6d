import XchannelNet.Mux.Format
import XchannelNet.Lib.Assign

/-!
# Recovery — what a topic log says about its members

`recover_cursors` replays a topic's retained records: a slot table sets which
incarnation each `member_ref` denotes from there on and overwrites the
listed members' cursors, a data record raises the cursor of the member its
ref denotes at that position. Everything is positional. Refs restart at 0 in
every session, so a ref means nothing without the table in force.

Beside the scan the module gives its meaning: the log as a list of
`TopicEvent`s, and a `View` of it that also keeps, member by member, what the
log says happened to it. `recoverCursors_ok` ties the two together, and
`view_suffix` says what is lost by starting in the middle.
-/

namespace XchannelNet.Mux

/-- A member incarnation, `(name, epoch)`. -/
abbrev Incarnation := ChannelName × UInt64

/-! ## The scan -/

structure Scan where
  active : UInt16 → Option Incarnation
  out : Incarnation → Option ℕ

def Scan.init : Scan := ⟨fun _ => none, fun _ => none⟩

/-- One round of the scan of `recover_cursors`. -/
def scanRecord (s : Scan) (m : Record) : Except MuxError Scan :=
  if m.msgType = MSG_TYPE_SLOT_TABLE then do
    let table ← decodeSlotTable m.payload
    .ok
      { active := assign SlotEntry.memberRef (fun e => some (e.name, e.epoch)) (fun _ => none)
          table.members
        -- overwritten, not maxed: a cursor may go back here, and 0 is "absent"
        out := assign (fun e => (e.name, e.epoch))
          (fun e => if e.cursor = 0 then none else some (e.cursor.toNat - 1)) s.out
          table.members }
  else if !isControl m.msgType then do
    let (prov, _) ← Provenance.split m.payload
    match s.active prov.memberRef with
    | some member =>
      let highest := max ((s.out member).getD 0) prov.memberIndex.toNat
      .ok { s with out := Function.update s.out member (some highest) }
    | none => .ok s
  else .ok s

/-- Highest merged index per member, from a topic's retained records. -/
def recoverCursors (records : List Record) : Except MuxError (Incarnation → Option ℕ) :=
  (records.foldlM scanRecord Scan.init).map Scan.out

/-- What a topic's log says of itself. -/
structure TopicConfig where
  geometry : TopicGeometry
  members : List Incarnation

/-- The last slot table that decodes; a log without one is not a topic. -/
def topicConfig (records : List Record) : Option TopicConfig :=
  records.foldl (fun cfg m =>
    if m.msgType = MSG_TYPE_SLOT_TABLE then
      match decodeSlotTable m.payload with
      | .ok table => some ⟨table.geometry, table.members.map fun e => (e.name, e.epoch)⟩
      | .error _ => cfg
    else cfg) none

/-- The index to resume at: past the highest one merged, or from genesis. -/
def want (recovered : Option ℕ) : ℕ := (recovered.map (· + 1)).getD 0

/-! ## Events -/

/-- A row of a slot table. -/
structure Entry where
  memberRef : UInt16
  member : Incarnation
  cursor : ℕ
  deriving DecidableEq

/-- What one record of a topic says. -/
inductive TopicEvent where
  | table (entries : List Entry)
  | data (memberRef : UInt16) (index : ℕ) (record : Record)
  | gap (memberRef : UInt16) (fromIndex resumedAt : ℕ)
  | regressed (memberRef : UInt16) (expected head : ℕ)
  | closed (memberRef : UInt16) (finalIndex : ℕ)
  | other
  deriving DecidableEq

def SlotEntry.row (e : SlotEntry) : Entry := ⟨e.memberRef, (e.name, e.epoch), e.cursor.toNat⟩

/-- The event of a record. A marker that does not decode says nothing. -/
def event (r : Record) : Except MuxError TopicEvent :=
  if r.msgType = MSG_TYPE_SLOT_TABLE then
    (decodeSlotTable r.payload).map fun t => .table (t.members.map SlotEntry.row)
  else if !isControl r.msgType then
    (Provenance.split r.payload).map fun x =>
      .data x.1.memberRef x.1.memberIndex.toNat ⟨r.msgType, x.1.origUserMeta, x.2⟩
  else if r.msgType = MSG_TYPE_TOPIC_GAP then
    match TopicGap.decode r.payload with
    | .ok g => .ok (.gap g.memberRef g.fromIndex.toNat g.resumedAt.toNat)
    | .error _ => .ok .other
  else if r.msgType = MSG_TYPE_MEMBER_REGRESSED then
    match MemberRegressed.decode r.payload with
    | .ok g => .ok (.regressed g.memberRef g.expected.toNat g.head.toNat)
    | .error _ => .ok .other
  else if r.msgType = MSG_TYPE_MEMBER_CLOSED then
    match MemberClosed.decode r.payload with
    | .ok c => .ok (.closed c.memberRef c.finalIndex.toNat)
    | .error _ => .ok .other
  else .ok .other

/-- What a topic says about one member, in log order. -/
inductive MemberEvent where
  | data (index : ℕ) (record : Record)
  | gap (fromIndex resumedAt : ℕ)
  | regressed (expected head : ℕ)
  | closed (finalIndex : ℕ)
  deriving DecidableEq

namespace MemberEvent

/-- The index of a merged record. -/
def index? : MemberEvent → Option ℕ
  | .data index _ => some index
  | _ => none

/-- The member was closed, or its log found shorter than it had been. -/
def breaks : MemberEvent → Bool
  | .closed _ => true
  | .regressed _ _ => true
  | _ => false

end MemberEvent

/-- The indices merged, in log order. -/
def merged (trace : List MemberEvent) : List ℕ := trace.filterMap MemberEvent.index?

/-- Never closed and never regressed. -/
def Unbroken (trace : List MemberEvent) : Prop := ∀ e ∈ trace, e.breaks = false

instance (trace : List MemberEvent) : Decidable (Unbroken trace) :=
  inferInstanceAs (Decidable (∀ e ∈ trace, _))

/-- The scan, and what it passed on the way. -/
structure View extends Scan where
  trace : Incarnation → List MemberEvent

namespace View

def init : View := ⟨.init, fun _ => []⟩

/-- Attribute an event to the member a ref denotes, if it denotes one. -/
def note (v : View) (memberRef : UInt16) (e : MemberEvent) : View :=
  match v.active memberRef with
  | none => v
  | some k => { v with trace := Function.update v.trace k (v.trace k ++ [e]) }

def step (v : View) : TopicEvent → View
  | .table entries =>
    { active := assign Entry.memberRef (fun e => some e.member) (fun _ => none) entries
      out := assign Entry.member (fun e => if e.cursor = 0 then none else some (e.cursor - 1))
        v.out entries
      trace := v.trace }
  | .data memberRef index record =>
    match v.active memberRef with
    | none => v
    | some k =>
      { active := v.active
        out := Function.update v.out k (some (max ((v.out k).getD 0) index))
        trace := Function.update v.trace k (v.trace k ++ [.data index record]) }
  | .gap memberRef fromIndex resumedAt => v.note memberRef (.gap fromIndex resumedAt)
  | .regressed memberRef expected head => v.note memberRef (.regressed expected head)
  | .closed memberRef finalIndex => v.note memberRef (.closed finalIndex)
  | .other => v

end View

/-- What a list of events says. -/
def view (es : List TopicEvent) : View := es.foldl View.step View.init

@[simp] theorem view_nil : view [] = View.init := rfl

@[simp] theorem view_concat (es : List TopicEvent) (e : TopicEvent) :
    view (es ++ [e]) = (view es).step e := by
  simp [view]

/-- The events of those records that decode. -/
def decoded (records : List Record) : List TopicEvent :=
  records.filterMap fun r => (event r).toOption

theorem decoded_of_ok {records : List Record} {es : List TopicEvent}
    (h : records.map event = es.map .ok) : decoded records = es := by
  have hmap : decoded records = (records.map event).filterMap Except.toOption := by
    rw [List.filterMap_map]
    rfl
  rw [hmap, h, List.filterMap_map]
  exact List.filterMap_some

/-! ## The scan computes the view -/

theorem assign_map_row {κ ν : Type} [DecidableEq κ] (key : Entry → κ) (val : Entry → ν)
    (g : κ → ν) (es : List SlotEntry) :
    assign key val g (es.map SlotEntry.row) =
      assign (fun e => key e.row) (fun e => val e.row) g es := by
  simp [assign, List.foldl_map]

theorem scanRecord_ok {r : Record} {e : TopicEvent} (h : event r = .ok e) (v : View) :
    scanRecord v.toScan r = .ok (v.step e).toScan := by
  by_cases ht : r.msgType = MSG_TYPE_SLOT_TABLE
  · rw [event, if_pos ht] at h
    rw [scanRecord, if_pos ht]
    cases hd : decodeSlotTable r.payload with
    | error err =>
        rw [hd] at h
        cases h
    | ok t =>
        rw [hd] at h
        cases h
        simp only [bind, Except.bind, View.step, assign_map_row, SlotEntry.row]
        have hzero : ∀ e : SlotEntry, e.cursor.toNat = 0 ↔ e.cursor = 0 := fun e => by
          rw [← UInt64.toNat_inj]
          rfl
        simp only [hzero]
  · rw [scanRecord, if_neg ht]
    rw [event, if_neg ht] at h
    by_cases hc : (!isControl r.msgType) = true
    · rw [if_pos hc] at h ⊢
      cases hs : Provenance.split r.payload with
      | error err =>
          rw [hs] at h
          cases h
      | ok x =>
          rw [hs] at h
          cases h
          simp only [bind, Except.bind, View.step]
          cases v.active x.1.memberRef <;> rfl
    · -- a marker leaves the scan alone
      rw [if_neg hc] at h ⊢
      have hnote : ∀ memberRef me, (v.note memberRef me).toScan = v.toScan := by
        intro memberRef me
        unfold View.note
        split <;> rfl
      repeat' split at h
      all_goals
        cases h
        simp [View.step, hnote]

/-- **Recovery computes the view** of a log whose records decode. -/
theorem recoverCursors_ok {records : List Record} {es : List TopicEvent}
    (h : records.map event = es.map .ok) : recoverCursors records = .ok (view es).out := by
  have hscan : ∀ (v : View) (es : List TopicEvent) (records : List Record),
      records.map event = es.map .ok →
      records.foldlM scanRecord v.toScan = .ok (es.foldl View.step v).toScan := by
    intro v es
    induction es generalizing v with
    | nil =>
        intro records h
        rw [List.map_nil, List.map_eq_nil_iff] at h
        subst h
        rfl
    | cons e es ih =>
        intro records h
        obtain ⟨r, records, rfl, hr, hrest⟩ := List.map_eq_cons_iff.mp h
        rw [List.foldlM_cons, scanRecord_ok hr v]
        exact ih (v.step e) records hrest
  show (records.foldlM scanRecord View.init.toScan).map Scan.out = _
  rw [hscan View.init es records h]
  rfl

/-! ## What one event changes -/

/-- The index the log says a member is to be resumed at. -/
def View.next (v : View) (k : Incarnation) : ℕ := want (v.out k)

/-- What an event adds to a member's trace. -/
def View.said (v : View) (e : TopicEvent) (k : Incarnation) : List MemberEvent :=
  match e with
  | .table _ => []
  | .data memberRef index record =>
    if v.active memberRef = some k then [.data index record] else []
  | .gap memberRef fromIndex resumedAt =>
    if v.active memberRef = some k then [.gap fromIndex resumedAt] else []
  | .regressed memberRef expected head =>
    if v.active memberRef = some k then [.regressed expected head] else []
  | .closed memberRef finalIndex =>
    if v.active memberRef = some k then [.closed finalIndex] else []
  | .other => []

/-- The member, by its ref, that an event is about, and what it says of it. -/
def TopicEvent.about : TopicEvent → Option (UInt16 × MemberEvent)
  | .data memberRef index record => some (memberRef, .data index record)
  | .gap memberRef fromIndex resumedAt => some (memberRef, .gap fromIndex resumedAt)
  | .regressed memberRef expected head => some (memberRef, .regressed expected head)
  | .closed memberRef finalIndex => some (memberRef, .closed finalIndex)
  | .table _ => none
  | .other => none

/-- The events that leave the scan alone. -/
def TopicEvent.Marker : TopicEvent → Prop
  | .table _ => False
  | .data _ _ _ => False
  | _ => True

namespace View

variable {v : View} {k : Incarnation}

theorem trace_note (memberRef : UInt16) (me : MemberEvent) :
    (v.note memberRef me).trace k =
      v.trace k ++ if v.active memberRef = some k then [me] else [] := by
  unfold note
  cases h : v.active memberRef with
  | none => simp
  | some k' =>
      by_cases hk : k = k'
      · simp [hk]
      · simp [hk, Ne.symm hk]

theorem trace_step (e : TopicEvent) : (v.step e).trace k = v.trace k ++ v.said e k := by
  cases e with
  | table es => simp [step, said]
  | other => simp [step, said]
  | gap memberRef a b => exact trace_note memberRef _
  | regressed memberRef a b => exact trace_note memberRef _
  | closed memberRef i => exact trace_note memberRef _
  | data memberRef i r =>
      have h := trace_note (v := v) (k := k) memberRef (.data i r)
      unfold note at h
      simp only [step, said]
      rw [← h]
      cases v.active memberRef <;> rfl

/-- An event about the member `k₀` adds to its trace and to no other. -/
theorem trace_about {e : TopicEvent} {memberRef : UInt16} {me : MemberEvent} {k₀ : Incarnation}
    (he : e.about = some (memberRef, me)) (h : v.active memberRef = some k₀) :
    (v.step e).trace k = v.trace k ++ if k = k₀ then [me] else [] := by
  rw [trace_step]
  congr 1
  cases e with
  | table es => cases he
  | other => cases he
  | data ref i r =>
      cases he
      simp [said, h, eq_comm]
  | gap ref a b =>
      cases he
      simp [said, h, eq_comm]
  | regressed ref a b =>
      cases he
      simp [said, h, eq_comm]
  | closed ref i =>
      cases he
      simp [said, h, eq_comm]

theorem trace_about_self {e : TopicEvent} {memberRef : UInt16} {me : MemberEvent}
    (he : e.about = some (memberRef, me)) (h : v.active memberRef = some k) :
    (v.step e).trace k = v.trace k ++ [me] := by
  rw [trace_about he h, if_pos rfl]

theorem trace_about_of_ne {e : TopicEvent} {memberRef : UInt16} {me : MemberEvent}
    {k₀ : Incarnation} (he : e.about = some (memberRef, me)) (h : v.active memberRef = some k₀)
    (hk : k ≠ k₀) : (v.step e).trace k = v.trace k := by
  rw [trace_about he h, if_neg hk, List.append_nil]

/-- What a marker says of a member, if anything, is no data record. -/
theorem said_marker {e : TopicEvent} (he : e.Marker) (k : Incarnation) :
    v.said e k = [] ∨ ∃ me, v.said e k = [me] ∧ me.index? = none := by
  cases e with
  | table es => exact he.elim
  | data ref i r => exact he.elim
  | other => exact .inl rfl
  | gap ref a b =>
      simp only [said]
      split
      · exact .inr ⟨_, rfl, rfl⟩
      · exact .inl rfl
  | regressed ref a b =>
      simp only [said]
      split
      · exact .inr ⟨_, rfl, rfl⟩
      · exact .inl rfl
  | closed ref i =>
      simp only [said]
      split
      · exact .inr ⟨_, rfl, rfl⟩
      · exact .inl rfl

theorem step_marker {e : TopicEvent} (h : e.Marker) : (v.step e).toScan = v.toScan := by
  have hnote : ∀ memberRef me, (v.note memberRef me).toScan = v.toScan := by
    intro memberRef me
    unfold note
    split <;> rfl
  cases e with
  | table es => exact h.elim
  | data memberRef i r => exact h.elim
  | other => rfl
  | gap memberRef a b => exact hnote _ _
  | regressed memberRef a b => exact hnote _ _
  | closed memberRef i => exact hnote _ _

theorem active_data (memberRef : UInt16) (i : ℕ) (r : Record) :
    (v.step (.data memberRef i r)).active = v.active := by
  simp only [step]
  split <;> rfl

/-- A data record raises the cursor of the member its ref denotes. -/
theorem next_data {memberRef : UInt16} (h : v.active memberRef = some k) (i : ℕ) (r : Record) :
    (v.step (.data memberRef i r)).next k = max (v.next k) (i + 1) := by
  simp only [step, h, next, Function.update_self]
  cases v.out k with
  | none => simp [want]
  | some m =>
      simp only [want, Option.getD_some, Option.map_some]
      omega

theorem next_data_of_ne {memberRef : UInt16} {k₀ : Incarnation}
    (h : v.active memberRef = some k₀) (hk : k ≠ k₀) (i : ℕ) (r : Record) :
    (v.step (.data memberRef i r)).next k = v.next k := by
  simp [step, next, h, Function.update_of_ne hk]

theorem active_table {es : List Entry} (hnd : (es.map Entry.memberRef).Nodup) {e : Entry}
    (he : e ∈ es) : (v.step (.table es)).active e.memberRef = some e.member :=
  assign_of_mem Entry.memberRef (fun e => some e.member) hnd he

theorem mem_of_active_table {es : List Entry} {memberRef : UInt16}
    (h : (v.step (.table es)).active memberRef = some k) :
    ∃ e ∈ es, e.memberRef = memberRef ∧ e.member = k := by
  rcases assign_mem_or Entry.memberRef (fun e => some e.member) (fun _ => none) es memberRef with
    ⟨e, he, href, hv⟩ | ⟨-, hv⟩
  · exact ⟨e, he, href, Option.some.inj (hv.symm.trans h)⟩
  · exact absurd (hv.symm.trans h) (by simp)

theorem next_table {es : List Entry} (hnd : (es.map Entry.member).Nodup) {e : Entry}
    (he : e ∈ es) : (v.step (.table es)).next e.member = e.cursor := by
  simp only [step, next]
  rw [assign_of_mem Entry.member _ hnd he]
  split
  · rename_i h
    simp [want, h]
  · simp only [want, Option.map_some, Option.getD_some]
    omega

theorem next_table_of_not_mem {es : List Entry} (h : ∀ e ∈ es, e.member ≠ k) :
    (v.step (.table es)).next k = v.next k := by
  simp only [step, next, assign_of_not_mem h]

end View

/-! ## Starting in the middle -/

/-- Some slot table among the events lists the member. -/
def Names (es : List TopicEvent) (k : Incarnation) : Prop :=
  ∃ entries, .table entries ∈ es ∧ ∃ e ∈ entries, e.member = k

/-- The members a slot table lists. -/
def TopicEvent.members : TopicEvent → List Incarnation
  | .table entries => entries.map Entry.member
  | _ => []

theorem names_iff {es : List TopicEvent} {k : Incarnation} :
    Names es k ↔ k ∈ es.flatMap TopicEvent.members := by
  rw [List.mem_flatMap]
  constructor
  · rintro ⟨entries, hes, hk⟩
    exact ⟨_, hes, List.mem_map.mpr hk⟩
  · rintro ⟨e, he, hk⟩
    cases e with
    | table entries => exact ⟨entries, he, List.mem_map.mp hk⟩
    | _ => cases hk

/-- A scan begun in the middle: it resolves refs as the whole log does from
the first table on, and is right about every member that a table it has
passed lists. -/
structure SuffixOf (v w : View) (es : List TopicEvent) : Prop where
  active : v.active = w.active ∨ ∀ k, ¬ Names es k
  named : ∀ memberRef k, v.active memberRef = some k → Names es k
  out : ∀ k, Names es k → v.out k = w.out k
  unseen : ∀ k, ¬ Names es k → v.out k = none

theorem names_concat {es : List TopicEvent} {e : TopicEvent} {k : Incarnation} :
    Names (es ++ [e]) k ↔ Names es k ∨ Names [e] k := by
  simp only [Names, List.mem_append]
  constructor
  · rintro ⟨t, h | h, hk⟩
    · exact .inl ⟨t, h, hk⟩
    · exact .inr ⟨t, h, hk⟩
  · rintro (⟨t, h, hk⟩ | ⟨t, h, hk⟩)
    · exact ⟨t, .inl h, hk⟩
    · exact ⟨t, .inr h, hk⟩

theorem names_table {entries : List Entry} {k : Incarnation} :
    Names [.table entries] k ↔ ∃ e ∈ entries, e.member = k := by
  simp [Names]

theorem not_names_of_not_table {e : TopicEvent} {k : Incarnation}
    (h : ∀ entries, e ≠ .table entries) : ¬ Names [e] k := by
  rintro ⟨t, ht, -⟩
  exact h t (List.mem_singleton.mp ht).symm

namespace SuffixOf

variable {v w : View} {es : List TopicEvent}

theorem table (h : SuffixOf v w es) (entries : List Entry) :
    SuffixOf (v.step (.table entries)) (w.step (.table entries)) (es ++ [.table entries]) where
  active := .inl rfl
  named := by
    intro memberRef k hk
    obtain ⟨e, he, -, hek⟩ := View.mem_of_active_table hk
    exact names_concat.mpr (.inr (names_table.mpr ⟨e, he, hek⟩))
  out := by
    intro k hk
    by_cases hin : ∃ e ∈ entries, e.member = k
    · exact assign_congr _ _ hin
    · -- not in this table, so some earlier one lists it
      have hne : ∀ e ∈ entries, e.member ≠ k := fun e he hek => hin ⟨e, he, hek⟩
      have hes : Names es k := (names_concat.mp hk).resolve_right fun h => hin (names_table.mp h)
      simp only [View.step, assign_of_not_mem hne]
      exact h.out k hes
  unseen := by
    intro k hk
    have hne : ∀ e ∈ entries, e.member ≠ k := fun e he hek =>
      hk (names_concat.mpr (.inr (names_table.mpr ⟨e, he, hek⟩)))
    simp only [View.step, assign_of_not_mem hne]
    exact h.unseen k fun h => hk (names_concat.mpr (.inl h))

theorem marker (h : SuffixOf v w es) {e : TopicEvent} (he : e.Marker) :
    SuffixOf (v.step e) (w.step e) (es ++ [e]) := by
  have hnames : ∀ k, Names (es ++ [e]) k ↔ Names es k := fun k => by
    rw [names_concat, or_iff_left (not_names_of_not_table (by rintro t rfl; exact he))]
  constructor
  · rw [View.step_marker he, View.step_marker he]
    exact h.active.imp_right fun hn k => mt (hnames k).mp (hn k)
  · intro memberRef k hk
    rw [View.step_marker he] at hk
    exact (hnames k).mpr (h.named memberRef k hk)
  · intro k hk
    rw [View.step_marker he, View.step_marker he]
    exact h.out k ((hnames k).mp hk)
  · intro k hk
    rw [View.step_marker he]
    exact h.unseen k fun hn => hk ((hnames k).mpr hn)

theorem data (h : SuffixOf v w es) (memberRef : UInt16) (i : ℕ) (r : Record) :
    SuffixOf (v.step (.data memberRef i r)) (w.step (.data memberRef i r))
      (es ++ [.data memberRef i r]) := by
  have hnames : ∀ k, Names (es ++ [.data memberRef i r]) k ↔ Names es k := fun k => by
    rw [names_concat, or_iff_left (not_names_of_not_table (by simp))]
  have hout : ∀ (u : View) k, u.active memberRef ≠ some k →
      (u.step (.data memberRef i r)).out k = u.out k := by
    intro u k hk
    simp only [View.step]
    cases hu : u.active memberRef with
    | none => rfl
    | some k' => exact Function.update_of_ne (fun hkk : k = k' => hk (hkk ▸ hu)) _ _
  constructor
  · rw [View.active_data, View.active_data]
    exact h.active.imp_right fun hn k => mt (hnames k).mp (hn k)
  · intro ref k hk
    rw [View.active_data] at hk
    exact (hnames k).mpr (h.named ref k hk)
  · intro k hk
    rw [hnames] at hk
    have hact : v.active = w.active := h.active.resolve_right fun hn => hn k hk
    by_cases hk' : w.active memberRef = some k
    · have hv : v.active memberRef = some k := by rw [hact, hk']
      simp only [View.step, hv, hk', Function.update_self, h.out k hk]
    · rw [hout w k hk', hout v k (by rwa [hact]), h.out k hk]
  · intro k hk
    rw [hnames] at hk
    rw [hout v k fun hv => hk (h.named _ _ hv)]
    exact h.unseen k hk

end SuffixOf

theorem suffixOf_view (before es : List TopicEvent) :
    SuffixOf (view es) (view (before ++ es)) es := by
  induction es using List.reverseRecOn with
  | nil =>
      have hnone : ∀ k, ¬ Names [] k := by
        rintro k ⟨t, ht, -⟩
        cases ht
      exact ⟨.inr hnone, by simp [view, View.init, Scan.init], fun k hk => absurd hk (hnone k),
        fun _ _ => rfl⟩
  | append_singleton es e ih =>
      rw [← List.append_assoc, view_concat, view_concat]
      cases e with
      | table entries => exact ih.table entries
      | data memberRef i r => exact ih.data memberRef i r
      | gap memberRef a b => exact ih.marker trivial
      | regressed memberRef a b => exact ih.marker trivial
      | closed memberRef i => exact ih.marker trivial
      | other => exact ih.marker trivial

/-- **What is lost by starting in the middle**: a member is recovered as from
the whole log if a slot table in the rest lists it, and not at all if none
does. -/
theorem view_suffix (before es : List TopicEvent) (k : Incarnation) :
    Names es k ∧ (view es).next k = (view (before ++ es)).next k ∨
      ¬ Names es k ∧ (view es).next k = 0 := by
  have h := suffixOf_view before es
  by_cases hk : Names es k
  · exact .inl ⟨hk, by rw [View.next, View.next, h.out k hk]⟩
  · exact .inr ⟨hk, by rw [View.next, h.unseen k hk]; rfl⟩

end XchannelNet.Mux
