import XchannelNet.Mux.Tally

/-!
# Faithful — what of a topic is a member's

A topic interleaves its members. `projection` undoes that for one slot: the
data records that carry its ref, split into what the member had written and
where. That it is the member's log from where the slot started to its cursor,
less what was rejected, holds of any interleaving of polls, appends, rolls and
of other members' coming and going: nothing on the right-hand side is about
anybody else.

The session may be opened on any topic, and its own records are those from
there on. Refs start over in every session, so only they are the slot's.
-/

namespace XchannelNet

open Mux

namespace Mux

/-- What a topic record says of the slot `memberRef`, if it is a data record of
that slot: an index, and the record the member has there. -/
def attributed (memberRef : UInt16) (r : Record) : Option (ℕ × Record) :=
  if isControl r.msgType then none
  else
    match Provenance.split r.payload with
    | .error _ => none
    | .ok (p, body) =>
      if p.memberRef = memberRef then
        some (p.memberIndex.toNat, ⟨r.msgType, p.origUserMeta, body⟩)
      else none

def projection (memberRef : UInt16) (records : List Record) : List (ℕ × Record) :=
  records.filterMap (attributed memberRef)

/-- The records of a log from `start` to `stop`, with their indices. -/
def span (l : Log) (start stop : ℕ) : List (ℕ × Record) :=
  (List.range' start (stop - start)).filterMap fun i => (l.get? i).map fun r => (i, r)

/-- Those that a topic of this mtu takes. -/
def accepted (mtu : UInt32) (l : Log) (start stop : ℕ) : List (ℕ × Record) :=
  (span l start stop).filter fun x => !rejects mtu x.2

/-- And those that it does not. -/
def removed (mtu : UInt32) (l : Log) (start stop : ℕ) : List (ℕ × Record) :=
  (span l start stop).filter fun x => rejects mtu x.2

/-- `records` hold, of the slot `memberRef`, the member's log `l` from `start`
to `stop` without what was rejected, and `rejected` is how much that was. -/
structure Faithful (mtu : UInt32) (l : Log) (memberRef : UInt16) (start stop rejected : ℕ)
    (records : List Record) : Prop where
  ordered : start ≤ stop
  present : ∀ i, start ≤ i → i < stop → ∃ r, l.get? i = some r
  projection : projection memberRef records = accepted mtu l start stop
  rejected : rejected = (removed mtu l start stop).length

/-! ## One record at a time -/

section Spans

variable {l l' : Log} {start stop : ℕ} {r : Record}

theorem span_self (l : Log) (k : ℕ) : span l k k = [] := by simp [span]

theorem span_succ (hle : start ≤ stop) (hr : l.get? stop = some r) :
    span l start (stop + 1) = span l start stop ++ [(stop, r)] := by
  have hrange : List.range' start (stop + 1 - start) =
      List.range' start (stop - start) ++ [stop] := by
    rw [Nat.succ_sub hle, List.range'_1_concat, Nat.add_sub_cancel' hle]
  rw [span, hrange, List.filterMap_append]
  simp [span, hr]

/-- The span is what the log says there, and nothing else of it. -/
theorem span_congr (h : ∀ i, start ≤ i → i < stop → l'.get? i = l.get? i) :
    span l' start stop = span l start stop := by
  refine List.filterMap_congr fun i hi => ?_
  obtain ⟨hge, hlt⟩ := List.mem_range'_1.mp hi
  rw [h i hge (by omega)]

end Spans

theorem attributed_of_control {r : Record} (memberRef : UInt16)
    (h : isControl r.msgType = true) : attributed memberRef r = none := by
  rw [attributed, if_pos h]

theorem attributed_data {φ : Type} (l : Line φ) {r : Record} (h : isControl r.msgType = false)
    (memberRef : UInt16) :
    attributed memberRef (l.data r) =
      if l.memberRef = memberRef then some ((UInt64.ofNat l.cursor).toNat, r) else none := by
  simp [attributed, Line.data, h, split_frameData]

theorem projection_append (memberRef : UInt16) (a b : List Record) :
    projection memberRef (a ++ b) = projection memberRef a ++ projection memberRef b :=
  List.filterMap_append

theorem projection_concat_none {memberRef : UInt16} {r : Record}
    (h : attributed memberRef r = none) (records : List Record) :
    projection memberRef (records ++ [r]) = projection memberRef records := by
  simp [projection, h]

namespace Faithful

variable {mtu : UInt32} {l : Log} {memberRef : UInt16} {start stop k : ℕ}
  {records : List Record} {r x : Record}

theorem begin (h : Mux.projection memberRef records = []) :
    Faithful mtu l memberRef start start 0 records where
  ordered := le_rfl
  present i hge hlt := absurd hge (Nat.not_le.mpr hlt)
  projection := by rw [h, accepted, span_self, List.filter_nil]
  rejected := by rw [removed, span_self, List.filter_nil, List.length_nil]

/-- A record of somebody else's. -/
theorem beside (h : Faithful mtu l memberRef start stop k records)
    (hx : attributed memberRef x = none) :
    Faithful mtu l memberRef start stop k (records ++ [x]) :=
  { h with projection := (projection_concat_none hx records).trans h.projection }

theorem present_succ (h : Faithful mtu l memberRef start stop k records)
    (hr : l.get? stop = some r) (i : ℕ) (hge : start ≤ i) (hlt : i < stop + 1) :
    ∃ r, l.get? i = some r := by
  rcases Nat.lt_succ_iff_lt_or_eq.mp hlt with hlt | rfl
  · exact h.present i hge hlt
  · exact ⟨r, hr⟩

/-- The next record is rejected. -/
theorem skip (h : Faithful mtu l memberRef start stop k records) (hr : l.get? stop = some r)
    (hrej : rejects mtu r = true) :
    Faithful mtu l memberRef start (stop + 1) (k + 1) records where
  ordered := Nat.le_succ_of_le h.ordered
  present := h.present_succ hr
  projection := by
    rw [h.projection, accepted, accepted, span_succ h.ordered hr, List.filter_append]
    simp [hrej]
  rejected := by
    rw [h.rejected, removed, removed, span_succ h.ordered hr, List.filter_append]
    simp [hrej]

/-- The next record is merged. -/
theorem take (h : Faithful mtu l memberRef start stop k records) (hr : l.get? stop = some r)
    (hrej : rejects mtu r = false) (hx : attributed memberRef x = some (stop, r)) :
    Faithful mtu l memberRef start (stop + 1) k (records ++ [x]) where
  ordered := Nat.le_succ_of_le h.ordered
  present := h.present_succ hr
  projection := by
    rw [projection_append, h.projection, accepted, accepted, span_succ h.ordered hr,
      List.filter_append]
    simp [Mux.projection, hx, hrej]
  rejected := by
    rw [h.rejected, removed, removed, span_succ h.ordered hr, List.filter_append]
    simp [hrej]

/-- A log that goes on from there tells the same. -/
theorem congr {l' : Log} (h : Faithful mtu l memberRef start stop k records)
    (hl : ∀ i, start ≤ i → i < stop → l'.get? i = l.get? i) :
    Faithful mtu l' memberRef start stop k records where
  ordered := h.ordered
  present i hge hlt := by
    rw [hl i hge hlt]
    exact h.present i hge hlt
  projection := by rw [h.projection, accepted, accepted, span_congr hl]
  rejected := by rw [h.rejected, removed, removed, span_congr hl]

end Faithful

end Mux

/-! ## The tally of one slot -/

namespace Tally

variable {φ : Type} {files : φ → Log} {mtu : UInt32} {t t' : Tally φ} {memberRef : UInt16}

/-- Every line has a ref of its own that was given out, and nothing was written
yet for those that were not. -/
structure WF (t : Tally φ) : Prop where
  refs : (t.lines.map Line.memberRef).Nodup
  given : ∀ l ∈ t.lines, l.memberRef < t.nextRef
  fresh : ∀ ref, t.nextRef ≤ ref → projection ref t.out = []

theorem wf_empty : WF (⟨[], 0, []⟩ : Tally φ) :=
  ⟨List.nodup_nil, by simp, fun _ _ => rfl⟩

theorem ne_of_reads {i : ℕ} {l : Line φ} {r : Record} (h : Reads files t i l r) (hwf : t.WF)
    {ref : UInt16} (href : t.nextRef ≤ ref) : l.memberRef ≠ ref := by
  rintro rfl
  have hlt := hwf.given l (List.mem_of_getElem? h.line)
  exact absurd (UInt16.lt_of_lt_of_le hlt href) (UInt16.lt_irrefl _)

theorem attributed_other {l : Line φ} {r : Record} (hrej : rejects mtu r = false)
    (h : l.memberRef ≠ memberRef) : attributed memberRef (l.data r) = none := by
  rw [attributed_data l (rejects_eq_false hrej), if_neg h]

theorem WF.setLine (h : t.WF) {i : ℕ} {l : Line φ} (hl : t.lines[i]? = some l) (l' : Line φ)
    (href : l'.memberRef = l.memberRef) : (t.setLine i l').WF where
  refs := by
    show ((t.lines.set i l').map _).Nodup
    rw [map_set_eq _ hl l' href]
    exact h.refs
  given := Sequence.forall_mem_set h.given i (href ▸ h.given l (List.mem_of_getElem? hl))
  fresh := h.fresh

theorem WF.write (h : t.WF) {r : Record} (hr : ∀ ref, t.nextRef ≤ ref → attributed ref r = none) :
    (t.write r).WF where
  refs := h.refs
  given := h.given
  fresh ref href := (projection_concat_none (hr ref href) t.out).trans (h.fresh ref href)

theorem WF.leave (h : t.WF) (i : ℕ) : (t.leave i).WF where
  refs := h.refs.sublist ((List.eraseIdx_sublist _ _).map _)
  given l hl := h.given l ((List.eraseIdx_sublist _ _).mem hl)
  fresh := h.fresh

theorem Step.wf (hs : Step files mtu t t') (h : t.WF) : t'.WF := by
  cases hs with
  | note hr => exact h.write fun ref _ => attributed_of_control ref hr.1
  | reject hread _ => exact h.setLine hread.line (Line.skip _) rfl
  | merge hread hrej =>
      exact (h.setLine hread.line (Line.pass _) rfl).write fun ref href =>
        attributed_other hrej (ne_of_reads hread h href)
  | close => exact (h.leave _).write fun ref _ => attributed_of_control ref rfl

theorem projection_notes {notes : List Record} (h : ∀ r ∈ notes, Note r) (memberRef : UInt16) :
    projection memberRef notes = [] :=
  List.filterMap_eq_nil_iff.mpr fun r hr => attributed_of_control memberRef (h r hr).1

theorem WF.bump (h : t.WF) (hspace : t.nextRef ≠ 65535) : t.bump.WF where
  refs := h.refs
  given l hl := Topic.lt_nextRef_succ hspace (UInt16.le_of_lt (h.given l hl))
  fresh ref href := h.fresh ref (UInt16.le_of_lt (UInt16.lt_of_lt_of_le
    (Topic.lt_nextRef_succ hspace (UInt16.le_refl _)) href))

theorem WF.joined (h : t.WF) (hj : Joined t t') : t'.WF := by
  cases hj with
  | unchanged => exact h
  | bumped hspace => exact h.bump hspace
  | @joined l notes href hspace _ hnotes =>
      have hb := h.bump hspace
      refine ⟨?_, ?_, ?_⟩
      · refine Sequence.nodup_map_concat h.refs fun x hx hxl => ?_
        have hlt := h.given x hx
        rw [hxl, href] at hlt
        exact absurd hlt (UInt16.lt_irrefl _)
      · intro x hx
        rcases List.mem_append.mp hx with hx | hx
        · exact hb.given x hx
        · rw [List.mem_singleton.mp hx, href]
          exact Topic.lt_nextRef_succ hspace (UInt16.le_refl _)
      · intro ref hle
        rw [projection_append, projection_notes hnotes, List.append_nil]
        exact hb.fresh ref hle

/-- If the slot `memberRef` is still there, what the tally holds of it is
faithful to its member's `file` from `start` on. -/
structure Tells (files : φ → Log) (mtu : UInt32) (memberRef : UInt16) (file : φ) (start : ℕ)
    (t : Tally φ) : Prop where
  wf : t.WF
  given : memberRef < t.nextRef
  told : ∀ l ∈ t.lines, l.memberRef = memberRef → l.file = file ∧
    Faithful mtu (files file) memberRef start l.cursor l.rejected t.out

variable {file : φ} {start stop : ℕ}

theorem Step.tells (hb : Bounded files) (hs : Step files mtu t t')
    (h : Tells files mtu memberRef file start t) : Tells files mtu memberRef file start t' := by
  have hwf' := hs.wf h.wf
  cases hs with
  | note hr =>
      refine ⟨hwf', h.given, fun x hx href => ?_⟩
      obtain ⟨hfile, hx⟩ := h.told x hx href
      exact ⟨hfile, hx.beside (attributed_of_control memberRef hr.1)⟩
  | @reject i l r hread hrej =>
      refine ⟨hwf', h.given, fun x hx href => ?_⟩
      rcases List.mem_or_eq_of_mem_set hx with hx | rfl
      · exact h.told x hx href
      · obtain ⟨rfl, hl⟩ := h.told l (List.mem_of_getElem? hread.line) href
        exact ⟨rfl, hl.skip hread.record hrej⟩
  | @merge i l r hread hrej =>
      refine ⟨hwf', h.given, fun x hx href => ?_⟩
      have hlt : l.cursor < 2 ^ 64 :=
        lt_trans (SegLog.get?_isSome_iff.mp ⟨r, hread.record⟩).2 (hb l.file)
      rcases Sequence.mem_set_of_nodup h.wf.refs hread.line hx with rfl | ⟨hx, hne⟩
      · obtain ⟨rfl, hl⟩ := h.told l (List.mem_of_getElem? hread.line) href
        refine ⟨rfl, hl.take hread.record hrej ?_⟩
        have href : l.memberRef = memberRef := href
        rw [attributed_data l (rejects_eq_false hrej), if_pos href, toNat_ofNat_of_lt hlt]
      · -- the slot is another one than the record is of
        obtain ⟨hfile, hx⟩ := h.told x hx href
        exact ⟨hfile, hx.beside (attributed_other hrej fun he => hne (href.trans he.symm))⟩
  | close =>
      refine ⟨hwf', h.given, fun x hx href => ?_⟩
      obtain ⟨hfile, hx⟩ := h.told x ((List.eraseIdx_sublist _ _).mem hx) href
      exact ⟨hfile, hx.beside (attributed_of_control memberRef rfl)⟩

theorem Tells.steps (hb : Bounded files) (h : Tells files mtu memberRef file start t)
    (hs : Relation.ReflTransGen (Step files mtu) t t') :
    Tells files mtu memberRef file start t' := by
  induction hs with
  | refl => exact h
  | tail _ hstep ih => exact hstep.tells hb ih

/-- Another member is admitted, under another ref. -/
theorem Tells.joined (h : Tells files mtu memberRef file start t) (hj : Joined t t') :
    Tells files mtu memberRef file start t' := by
  have hwf' := h.wf.joined hj
  cases hj with
  | unchanged => exact h
  | bumped hspace =>
      exact ⟨hwf', Topic.lt_nextRef_succ hspace (UInt16.le_of_lt h.given), h.told⟩
  | @joined l notes href hspace _ hnotes =>
      refine ⟨hwf', Topic.lt_nextRef_succ hspace (UInt16.le_of_lt h.given), fun x hx hxref => ?_⟩
      rcases List.mem_append.mp hx with hx | hx
      · obtain ⟨hfile, hx⟩ := h.told x hx hxref
        refine ⟨hfile, { hx with projection := ?_ }⟩
        rw [projection_append, projection_notes hnotes, List.append_nil, hx.projection]
      · rw [List.mem_singleton.mp hx, href] at hxref
        have hlt := h.given
        rw [← hxref] at hlt
        exact absurd hlt (UInt16.lt_irrefl _)

/-- A member that is admitted starts with nothing. -/
theorem WF.tells (h : t.WF) (hj : Joined t t') {l : Line φ} (hl : l ∈ t'.lines)
    (hnew : ∀ x ∈ t.lines, x.memberRef ≠ l.memberRef) :
    Tells files mtu l.memberRef l.file l.cursor t' := by
  have hwf' := h.joined hj
  cases hj with
  | unchanged => exact absurd rfl (hnew l hl)
  | bumped => exact absurd rfl (hnew l hl)
  | @joined l' notes href hspace hrej hnotes =>
      rcases List.mem_append.mp hl with hl | hl
      · exact absurd rfl (hnew l hl)
      obtain rfl := List.mem_singleton.mp hl
      refine ⟨hwf', ?_, fun x hx hxref => ?_⟩
      · rw [href]
        exact Topic.lt_nextRef_succ hspace (UInt16.le_refl _)
      · rcases List.mem_append.mp hx with hx | hx
        · exact absurd hxref (hnew x hx)
        · rw [List.mem_singleton.mp hx, hrej]
          refine ⟨rfl, .begin ?_⟩
          rw [projection_append, projection_notes hnotes, List.append_nil, href]
          exact h.fresh _ (UInt16.le_refl _)

/-- Growth of the files changes nothing of what was read. -/
theorem Tells.grow {files' : φ → Log} (h : Tells files mtu memberRef file start t)
    (hg : FilesGrow files files') : Tells files' mtu memberRef file start t := by
  refine { h with told := fun l hl href => ?_ }
  obtain ⟨hfile, hl⟩ := h.told l hl href
  refine ⟨hfile, hl.congr fun i hge hlt => ?_⟩
  obtain ⟨r, hr⟩ := hl.present i hge hlt
  rw [hr, hg.get? hr]

theorem Step.refs (hs : Step files mtu t t') :
    t'.lines.map Line.memberRef ⊆ t.lines.map Line.memberRef := by
  cases hs with
  | note => exact List.Subset.refl _
  | @reject i l r hread =>
      show (t.lines.set i l.skip).map _ ⊆ _
      rw [map_set_eq Line.memberRef hread.line l.skip rfl]
      exact List.Subset.refl _
  | @merge i l r hread =>
      show (t.lines.set i l.pass).map _ ⊆ _
      rw [map_set_eq Line.memberRef hread.line l.pass rfl]
      exact List.Subset.refl _
  | close => exact ((List.eraseIdx_sublist _ _).map _).subset

/-- The steps of an operation give no new refs out. -/
theorem refs_steps (hs : Relation.ReflTransGen (Step files mtu) t t') :
    t'.lines.map Line.memberRef ⊆ t.lines.map Line.memberRef := by
  induction hs with
  | refl => exact List.Subset.refl _
  | tail _ hstep ih => exact List.Subset.trans hstep.refs ih

/-! ## The close of a slot -/

/-- The slot is gone, and the topic holds its member's log up to `stop`. -/
structure Gone (files : φ → Log) (mtu : UInt32) (memberRef : UInt16) (file : φ)
    (start stop : ℕ) (t : Tally φ) : Prop where
  gone : ∀ l ∈ t.lines, l.memberRef ≠ memberRef
  projection : projection memberRef t.out = accepted mtu (files file) start stop

theorem Step.gone (hs : Step files mtu t t') (h : Gone files mtu memberRef file start stop t) :
    Gone files mtu memberRef file start stop t' := by
  have hbeside : ∀ {r : Record}, attributed memberRef r = none →
      Mux.projection memberRef (t.out ++ [r]) = accepted mtu (files file) start stop :=
    fun hr => (projection_concat_none hr _).trans h.projection
  have hset : ∀ {i : ℕ} {l l' : Line φ}, t.lines[i]? = some l → l'.memberRef = l.memberRef →
      ∀ x ∈ t.lines.set i l', x.memberRef ≠ memberRef := fun hl href =>
    Sequence.forall_mem_set h.gone _ (href ▸ h.gone _ (List.mem_of_getElem? hl))
  cases hs with
  | note hr => exact ⟨h.gone, hbeside (attributed_of_control _ hr.1)⟩
  | reject hread => exact ⟨hset hread.line rfl, h.projection⟩
  | @merge i l r hread hrej =>
      exact ⟨hset hread.line rfl,
        hbeside (attributed_other hrej (h.gone l (List.mem_of_getElem? hread.line)))⟩
  | close =>
      exact ⟨fun x hx => h.gone x ((List.eraseIdx_sublist _ _).mem hx),
        hbeside (attributed_of_control _ rfl)⟩

/-- What the closes among `records` say of the slot: that it is gone, drained
to the head of its member's log. -/
def Closes (files : φ → Log) (mtu : UInt32) (memberRef : UInt16) (file : φ) (start : ℕ)
    (t : Tally φ) (records : List Record) : Prop :=
  ∀ r ∈ records, r.msgType = MSG_TYPE_MEMBER_CLOSED →
    ∃ mc, MemberClosed.decode r.payload = .ok mc ∧
      (mc.memberRef = memberRef → mc.finalIndex.toNat = (files file).head ∧
        Gone files mtu memberRef file start (files file).head t)

/-- What a step writes; the closes of it are as they should be. -/
theorem Step.closes (hb : Bounded files) (hs : Step files mtu t t')
    (h : Tells files mtu memberRef file start t) :
    ∃ written, t'.out = t.out ++ written ∧ Closes files mtu memberRef file start t' written := by
  cases hs with
  | @note r hr =>
      refine ⟨[r], rfl, fun x hx hclosed => ?_⟩
      rw [List.mem_singleton.mp hx] at hclosed
      exact absurd hclosed hr.2
  | reject => exact ⟨[], (List.append_nil _).symm, fun x hx => by cases hx⟩
  | @merge i l r hread hrej =>
      -- a member's record of that type would have been rejected
      refine ⟨[l.data r], rfl, fun x hx hclosed => ?_⟩
      rw [List.mem_singleton.mp hx] at hclosed
      have hctl := rejects_eq_false hrej
      have hty : r.msgType = MSG_TYPE_MEMBER_CLOSED := hclosed
      rw [hty] at hctl
      cases hctl
  | @close i l hl hhead =>
      refine ⟨[l.closed], rfl, fun x hx _ => ?_⟩
      rw [List.mem_singleton.mp hx]
      refine ⟨_, decode_memberClosed _, fun href => ?_⟩
      have href : l.memberRef = memberRef := href
      obtain ⟨rfl, hfaithful⟩ := h.told l (List.mem_of_getElem? hl) href
      refine ⟨?_, fun x hx => ?_, ?_⟩
      · show (UInt64.ofNat l.cursor).toNat = _
        rw [hhead, toNat_ofNat_of_lt (hb l.file)]
      · rw [← href]
        exact Sequence.ne_of_mem_eraseIdx h.wf.refs hl hx
      · rw [← hhead, ← hfaithful.projection]
        exact projection_concat_none (attributed_of_control memberRef rfl) t.out

/-- **Over any number of steps**: every close of the slot is at the head. -/
theorem Tells.closes (hb : Bounded files) (h : Tells files mtu memberRef file start t)
    (hs : Relation.ReflTransGen (Step files mtu) t t') :
    ∃ written, t'.out = t.out ++ written ∧ Closes files mtu memberRef file start t' written := by
  induction hs with
  | refl => exact ⟨[], (List.append_nil _).symm, fun x hx => by cases hx⟩
  | tail hsteps hstep ih =>
      obtain ⟨written, hout, hclosed⟩ := ih
      obtain ⟨more, hmore, hclosed'⟩ := hstep.closes hb (h.steps hb hsteps)
      refine ⟨written ++ more, by rw [hmore, hout, List.append_assoc], fun r hr htype => ?_⟩
      rcases List.mem_append.mp hr with hr | hr
      · -- closed before this step: the slot is gone and stays so
        obtain ⟨mc, hmc, hgone⟩ := hclosed r hr htype
        exact ⟨mc, hmc, fun href => ⟨(hgone href).1, hstep.gone (hgone href).2⟩⟩
      · exact hclosed' r hr htype

end Tally

/-! ## Sessions -/

namespace Mux

variable {φ : Type}

/-- The records of the session at hand. -/
def World.written (w : World φ) : List Record :=
  match w.session with
  | .closed _ => []
  | .running m opened => m.topic.log.records.drop opened.length

theorem World.Tallied.written {c : Setup} {w : World φ} {t : Tally φ} (h : w.Tallied c t) :
    w.written = t.out := by
  obtain ⟨m, opened, hs, hm⟩ := h.session
  rw [World.written, hs]
  simp only
  rw [hm.records, List.drop_left]

variable [DecidableEq φ]

/-- A session is opened, on any topic there is. -/
def Opens (c : Setup) (w : World φ) : Prop := ∃ w₀, Bounded w₀.files ∧ Step c w₀ .open w

/-- The session goes on by an operation whose writes go through, or a member's
log grows. -/
def Working (c : Setup) (w w' : World φ) : Prop :=
  ∃ a : Action φ, Step c w a w' ∧ a.Completes ∧ a.works = true

/-- An attach whose writes go through leaves the slot `s`, whose ref no slot
had before. -/
def Attaches (c : Setup) (w : World φ) (s : Slot φ) (w' : World φ) : Prop :=
  ∃ name epoch file outcomes r,
    Step c w (.op (.addMember name epoch file) outcomes r) w' ∧
      (Action.op (.addMember name epoch file) outcomes r).Completes ∧
      s ∈ w'.slots ∧ ∀ x ∈ w.slots, x.memberRef ≠ s.memberRef

/-- In a session in `w`, `s` is what has become of the slot that was `s₀` when
it was attached. -/
def Merged (c : Setup) (s₀ : Slot φ) (w : World φ) (s : Slot φ) : Prop :=
  ∃ w₀ w₁ w₂, Opens c w₀ ∧ Relation.ReflTransGen (Working c) w₀ w₁ ∧ Attaches c w₁ s₀ w₂ ∧
    Relation.ReflTransGen (Working c) w₂ w ∧ s ∈ w.slots ∧ s.memberRef = s₀.memberRef

variable {c : Setup} {w w' : World φ} {t : Tally φ}

theorem Working.wf (hs : Working c w w') (h : w.Tallied c t) (hwf : t.WF) :
    ∃ t', w'.Tallied c t' ∧ t'.WF := by
  obtain ⟨a, hstep, ha, hw⟩ := hs
  obtain ⟨t', ht', hturn⟩ := h.step hstep ha hw
  refine ⟨t', ht', ?_⟩
  cases hturn with
  | grew => exact hwf
  | worked _ hsteps =>
      clear ht'
      induction hsteps with
      | refl => exact hwf
      | tail _ hstep ih => exact hstep.wf ih
  | admitted _ hj => exact hwf.joined hj

/-- A session that was opened has a well-formed tally, however it went on. -/
theorem Opens.tallied {w₀ : World φ} (h : Opens c w₀)
    (hs : Relation.ReflTransGen (Working c) w₀ w) : ∃ t, w.Tallied c t ∧ t.WF := by
  induction hs with
  | refl =>
      obtain ⟨w, hb, hopen⟩ := h
      exact ⟨_, .open hb hopen, Tally.wf_empty⟩
  | tail _ hstep ih =>
      obtain ⟨t, ht, hwf⟩ := ih
      exact hstep.wf ht hwf

section

variable {memberRef : UInt16} {file : φ} {start : ℕ}

theorem Working.tells (hs : Working c w w') (h : w.Tallied c t)
    (ht : t.Tells w.files c.geometry.mtu memberRef file start) :
    ∃ t', w'.Tallied c t' ∧ t'.Tells w'.files c.geometry.mtu memberRef file start := by
  obtain ⟨a, hstep, ha, hw⟩ := hs
  obtain ⟨t', ht', hturn⟩ := h.step hstep ha hw
  refine ⟨t', ht', ?_⟩
  cases hturn with
  | grew hg => exact ht.grow hg
  | worked hf hsteps =>
      rw [hf]
      exact ht.steps h.bounded hsteps
  | admitted hf hj =>
      rw [hf]
      exact ht.joined hj

end

/-- **Every slot of a session was attached in it.** -/
theorem exists_merged {w₀ : World φ} (h : Opens c w₀)
    (hs : Relation.ReflTransGen (Working c) w₀ w) {s : Slot φ} (hmem : s ∈ w.slots) :
    ∃ s₀, Merged c s₀ w s := by
  induction hs generalizing s with
  | refl =>
      obtain ⟨w, hb, hopen⟩ := h
      have hlines := (World.Tallied.open hb hopen).slots
      rw [List.map_eq_nil_iff.mp hlines.symm] at hmem
      cases hmem
  | @tail w w' hrun hlast ih =>
      obtain ⟨t, ht, hwf⟩ := h.tallied hrun
      obtain ⟨a, hstep, ha, hw⟩ := hlast
      obtain ⟨t', ht', hturn⟩ := ht.step hstep ha hw
      by_cases hold : ∃ x ∈ w.slots, x.memberRef = s.memberRef
      · -- the slot of before has become this one
        obtain ⟨x, hx, href⟩ := hold
        obtain ⟨s₀, u₀, u₁, u₂, hopen, h₁, hatt, h₂, -, href₀⟩ := ih hx
        exact ⟨s₀, u₀, u₁, u₂, hopen, h₁, hatt, h₂.tail ⟨a, hstep, ha, hw⟩, hmem,
          href.symm.trans href₀⟩
      have hnew : ∀ x ∈ w.slots, x.memberRef ≠ s.memberRef :=
        fun x hx href => hold ⟨x, hx, href⟩
      have hsame : ¬ t'.lines.map Line.memberRef ⊆ t.lines.map Line.memberRef := by
        rw [ht.slots, ht'.slots, List.map_map, List.map_map]
        intro hsub
        obtain ⟨x, hx, href⟩ := List.mem_map.mp (hsub (List.mem_map_of_mem hmem))
        exact hnew x hx href
      cases hturn with
      | grew => exact absurd (List.Subset.refl _) hsame
      | worked _ hsteps => exact absurd (Tally.refs_steps hsteps) hsame
      | admitted =>
          exact ⟨s, _, _, _, h, hrun, ⟨_, _, _, _, _, hstep, ha, hmem, hnew⟩, .refl, hmem, rfl⟩

/-- What is known of a slot of a session. -/
theorem Merged.tells {s₀ s : Slot φ} (h : Merged c s₀ w s) :
    ∃ t, w.Tallied c t ∧ t.Tells w.files c.geometry.mtu s.memberRef s.file s₀.cursor ∧
      s.line ∈ t.lines := by
  obtain ⟨w₀, w₁, w₂, hopen, hrun, ⟨name, epoch, file, outcomes, r, hatt, ha, hs₀, hnew⟩, hrun',
    hs, href⟩ := h
  obtain ⟨t₁, ht₁, hwf⟩ := hopen.tallied hrun
  obtain ⟨t₂, ht₂, hf, hj⟩ := ht₁.attach hatt ha
  have hline : s₀.line ∈ t₂.lines := by
    rw [ht₂.slots]
    exact List.mem_map_of_mem hs₀
  have hfirst : t₂.Tells w₂.files c.geometry.mtu s₀.memberRef s₀.file s₀.cursor := by
    refine hwf.tells hj hline fun x hx => ?_
    rw [ht₁.slots] at hx
    obtain ⟨y, hy, rfl⟩ := List.mem_map.mp hx
    exact hnew y hy
  have hlast : ∃ t, w.Tallied c t ∧
      t.Tells w.files c.geometry.mtu s₀.memberRef s₀.file s₀.cursor := by
    clear hs
    induction hrun' with
    | refl => exact ⟨t₂, ht₂, hfirst⟩
    | tail _ hstep ih =>
        obtain ⟨t, ht, htells⟩ := ih
        exact hstep.tells ht htells
  obtain ⟨t, ht, htells⟩ := hlast
  have hline' : s.line ∈ t.lines := by
    rw [ht.slots]
    exact List.mem_map_of_mem hs
  have hfile : s.file = s₀.file := (htells.told s.line hline' href).1
  rw [href, hfile]
  exact ⟨t, ht, htells, hline'⟩

/-- **The merge is faithful.** In a session whose writes go through, opened on
any topic, after any interleaving of polls, appends, rolls and of members that
come and go, let `s₀` be a slot as it was attached and `s` what has become of it.

* The session's data records under its ref are the member's log from `s₀.cursor`
  to `s.cursor`, less what is rejected: index, message type, user meta and
  payload, in order. `s.rejected` is how many were.
* Another session, on a topic of the same mtu, that took a member up there and
  has read it as far, tells the same if the members' logs say the same in
  between. What else it merged, and when, is not asked.
* Every close of the slot that the next operation writes has the head of the
  member's log for its final index, and the topic then holds all of it. -/
theorem merge_faithful {s₀ s : Slot φ} (h : Merged c s₀ w s) :
    Faithful c.geometry.mtu (w.files s.file) s.memberRef s₀.cursor s.cursor s.rejected
      w.written ∧
    (∀ (c' : Setup) (w' : World φ) (s₀' s' : Slot φ), Merged c' s₀' w' s' →
      c'.geometry.mtu = c.geometry.mtu → s₀'.cursor = s₀.cursor → s'.cursor = s.cursor →
      (∀ i, s₀.cursor ≤ i → i < s.cursor →
        (w'.files s'.file).get? i = (w.files s.file).get? i) →
      projection s'.memberRef w'.written = projection s.memberRef w.written) ∧
    ∀ w', Working c w w' → ∀ r ∈ w'.written.drop w.written.length,
      r.msgType = MSG_TYPE_MEMBER_CLOSED →
      ∃ mc, MemberClosed.decode r.payload = .ok mc ∧
        (mc.memberRef = s.memberRef →
          mc.finalIndex.toNat = (w'.files s.file).head ∧
          projection s.memberRef w'.written =
            accepted c.geometry.mtu (w'.files s.file) s₀.cursor (w'.files s.file).head) := by
  have hfaithful : ∀ {c : Setup} {w : World φ} {s₀ s : Slot φ}, Merged c s₀ w s →
      Faithful c.geometry.mtu (w.files s.file) s.memberRef s₀.cursor s.cursor s.rejected
        w.written := by
    intro c w s₀ s h
    obtain ⟨t, ht, htells, hline⟩ := h.tells
    rw [ht.written]
    exact (htells.told s.line hline rfl).2
  refine ⟨hfaithful h, fun c' w' s₀' s' h' hmtu hstart hstop hsame => ?_, ?_⟩
  · rw [(hfaithful h').projection, (hfaithful h).projection, hmtu, hstart, hstop]
    rw [accepted, accepted, span_congr hsame]
  · rintro w' ⟨a, hstep, ha, hw⟩ r hr htype
    obtain ⟨t, ht, htells, -⟩ := h.tells
    obtain ⟨t', ht', hturn⟩ := ht.step hstep ha hw
    rw [ht.written, ht'.written] at hr
    cases hturn with
    | grew => simp at hr
    | admitted _ hj =>
        obtain ⟨notes, hout, hnotes⟩ := hj.out
        rw [hout, List.drop_left] at hr
        exact absurd htype (hnotes r hr).2
    | worked hf hsteps =>
        obtain ⟨written, hout, hclosed⟩ := htells.closes ht.bounded hsteps
        rw [hout, List.drop_left] at hr
        obtain ⟨mc, hmc, hgone⟩ := hclosed r hr htype
        refine ⟨mc, hmc, fun href => ?_⟩
        rw [hf, ht'.written]
        exact ⟨(hgone href).1, (hgone href).2.projection⟩

/-- A computed session. -/
theorem exists_working (c : Setup) (start : World φ) {disk : Option Log} {m : Mux φ}
    (hb : Bounded start.files) (hs : start.session = .closed disk)
    (ho : Mux.open disk c.name c.geometry c.maxBatchPerMember = .ok m) (cmds : List (Command φ))
    (P : World φ → Prop) [DecidablePred P]
    (h : (Run.runs (World.perform c) (fun _ a _ => a.Completes ∧ a.works = true)
      { start with session := .running m m.topic.log.records } cmds).any
        (fun w => decide (P w)) = true) :
    ∃ w₀ w, Opens c w₀ ∧ Relation.ReflTransGen (Working c) w₀ w ∧ P w := by
  obtain ⟨w, hreach, hP⟩ := World.exists_reachable c (fun _ a _ => a.Completes ∧ a.works = true)
    _ cmds P rfl h
  exact ⟨_, w, ⟨start, hb, .open hs ho⟩, hreach.reflTransGen, hP⟩

/-- Two members, one of which has a record that no topic takes between two
that this one does. -/
def mixed : Bool → Log
  | false => .ofRecords "a" 0 [⟨1, 7, [1]⟩, ⟨MSG_TYPE_TERMINAL, 0, []⟩, ⟨2, 0, [2]⟩]
  | true => .ofRecords "b" 0 [⟨1, 0, [3]⟩]

theorem bounded_mixed : Bounded mixed := by
  rintro ⟨⟩ <;> decide

/-- The two are merged record by record; the other one grows meanwhile, and
leaves. -/
theorem merge_faithful_beside :
    ∃ (w : World Bool) (s₀ s : Slot Bool), Merged plainSetup s₀ w s ∧
      s.cursor = 3 ∧ s.rejected = 1 ∧
      w.written.map Record.msgType = [MSG_TYPE_SLOT_TABLE, MSG_TYPE_SLOT_TABLE, 1, 1, 1, 2,
        MSG_TYPE_MEMBER_CLOSED, MSG_TYPE_SLOT_TABLE] ∧
      projection s.memberRef w.written = [(0, ⟨1, 7, [1]⟩), (2, ⟨2, 0, [2]⟩)] ∧
      projection s.memberRef w.written = accepted 0 (w.files s.file) s₀.cursor 3 := by
  obtain ⟨w₀, w, hopen, hruns, hslots, htypes, hproj⟩ := exists_working plainSetup
    ⟨mixed, .closed none, []⟩ bounded_mixed rfl rfl
    [.op (.addMember "b" 0 (some true)) [], .op (.addMember "a" 0 (some false)) [],
      .op .poll [], .append true ⟨1, 0, [4]⟩, .op .poll [], .op (.removeMember "b" 0) []]
    (fun w => w.slots.map (fun s => (s.memberRef, s.cursor, s.rejected)) = [(1, 3, 1)] ∧
      w.written.map Record.msgType = [MSG_TYPE_SLOT_TABLE, MSG_TYPE_SLOT_TABLE, 1, 1, 1, 2,
        MSG_TYPE_MEMBER_CLOSED, MSG_TYPE_SLOT_TABLE] ∧
      projection 1 w.written = [(0, ⟨1, 7, [1]⟩), (2, ⟨2, 0, [2]⟩)])
    (by decide +kernel)
  obtain ⟨s, hs, hfields⟩ := List.map_eq_singleton_iff.mp hslots
  simp only [Prod.mk.injEq] at hfields
  obtain ⟨href, hcursor, hrej⟩ := hfields
  obtain ⟨s₀, hmerged⟩ := exists_merged hopen hruns (s := s) (by simp [hs])
  refine ⟨w, s₀, s, hmerged, hcursor, hrej, htypes, by rw [href]; exact hproj, ?_⟩
  rw [(merge_faithful hmerged).1.projection, hcursor]
  rfl

end Mux

end XchannelNet
