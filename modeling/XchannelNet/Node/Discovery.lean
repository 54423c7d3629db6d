import Mathlib.Logic.Relation
import XchannelNet.Lib.Run
import XchannelNet.Lib.Sequence
import XchannelNet.Lib.Utf8
import XchannelNet.Mux.Format
import XchannelNet.Node.Claim
import XchannelNet.Wire.Message

/-!
# Discovery — a listing, and the changes that follow it

A node publishes what becomes of each name to a log that its clients read. A
change is two steps of one thread: the registry moves, under its lock, and
later the entry that won is published, under another. A listing is a snapshot
of the registry with the log's head at the same moment. What a client makes of
the two is the registry again, provided that the threads that change one name
publish in the order in which they changed it.
-/

namespace XchannelNet

open Wire Mux

/-! ## The registry's side -/

/-- The name starts with these characters. -/
def startsWith (namePrefix : String) (name : ChannelName) : Bool :=
  namePrefix.toList.isPrefixOf name.toList

/-- The order of names is the order of their bytes. -/
theorem name_lt_iff {a b : ChannelName} : a < b ↔ nameBytes a < nameBytes b :=
  Utf8.toUTF8_lt_toUTF8.symm

theorem startsWith_eq_isPrefixOf (namePrefix : String) (name : ChannelName) :
    startsWith namePrefix name = (nameBytes namePrefix).isPrefixOf (nameBytes name) := by
  rw [Bool.eq_iff_iff, startsWith, List.isPrefixOf_iff_prefix, List.isPrefixOf_iff_prefix]
  exact Utf8.toUTF8_isPrefix_toUTF8.symm

namespace Registry

/-- The live entries of a range of names: from the first that is not below, for
as long as they match. -/
def withPrefix (r : Registry) (namePrefix : String) : List ChannelIdentity :=
  ((r.iter.dropWhile fun id => id.name < namePrefix).takeWhile
    fun id => startsWith namePrefix id.name).filter fun id => !id.deleted

theorem iter_pairwise (r : Registry) : r.iter.Pairwise fun a b => a.name < b.name := by
  rw [iter, List.pairwise_map]
  refine (Std.ExtTreeMap.ordered_keys_toList (t := r.channels)).imp_of_mem ?_
  intro a b ha hb hab
  rw [Std.ExtTreeMap.mem_toList_iff_getElem?_eq_some] at ha hb
  rw [r.keyed _ _ ha, r.keyed _ _ hb]
  exact compare_lt_iff_lt.mp hab

/-- The names that start with others lie together, from those others on: the
scan finds them all. -/
theorem scan_eq_filter (r : Registry) (namePrefix : String) :
    (r.iter.dropWhile fun id => id.name < namePrefix).takeWhile
      (fun id => startsWith namePrefix id.name) =
        r.iter.filter fun id => startsWith namePrefix id.name := by
  refine Sequence.takeWhile_dropWhile_eq_filter r.iter_pairwise ?_ ?_ ?_
  · intro a b hab hb
    exact decide_eq_true (hab.trans (of_decide_eq_true hb))
  · intro a ha
    have hnot := Sequence.not_lt_of_isPrefix (List.isPrefixOf_iff_prefix.mp ha)
    exact decide_eq_false fun hlt => hnot (String.lt_iff_toList_lt.mp hlt)
  · intro a b ha hab hb
    rw [decide_eq_false_iff_not, String.lt_iff_toList_lt] at ha
    exact List.isPrefixOf_iff_prefix.mpr
      (Sequence.isPrefix_of_between ha (String.lt_iff_toList_lt.mp hab)
        (List.isPrefixOf_iff_prefix.mp hb))

/-- A listing has every live entry that matches. -/
theorem mem_withPrefix {r : Registry} {namePrefix : String} {id : ChannelIdentity} :
    id ∈ r.withPrefix namePrefix ↔
      r.get id.name = some id ∧ startsWith namePrefix id.name = true := by
  rw [withPrefix, scan_eq_filter, List.mem_filter, List.mem_filter, mem_iter, get_eq_some]
  simp only [Bool.not_eq_true']
  tauto

/-- A listing is exact, by the bytes of the names: it is the live entries that
match, in order and each once. What stops the scan is not a tombstone, and past
it there is no match. -/
theorem withPrefix_exact (r : Registry) (namePrefix : String) :
    r.withPrefix namePrefix = r.iter.filter (fun id =>
      !id.deleted && (nameBytes namePrefix).isPrefixOf (nameBytes id.name)) ∧
    (∀ id, id ∈ r.withPrefix namePrefix ↔ r.getRaw id.name = some id ∧ id.deleted = false ∧
      nameBytes namePrefix <+: nameBytes id.name) ∧
    (r.withPrefix namePrefix).Pairwise (fun a b => nameBytes a.name < nameBytes b.name) ∧
    (∀ id ∈ (r.iter.dropWhile fun id => id.name < namePrefix).dropWhile
      (fun id => startsWith namePrefix id.name), ¬ nameBytes namePrefix <+: nameBytes id.name) ∧
    r.withPrefix "" = r.iter.filter (fun id => !id.deleted) := by
  have heq : r.withPrefix namePrefix = r.iter.filter (fun id =>
      !id.deleted && (nameBytes namePrefix).isPrefixOf (nameBytes id.name)) := by
    rw [withPrefix, scan_eq_filter, List.filter_filter]
    refine List.filter_congr fun id _ => ?_
    rw [startsWith_eq_isPrefixOf]
  refine ⟨heq, fun id => ?_, ?_, fun id hid => ?_, ?_⟩
  · rw [mem_withPrefix, get_eq_some, and_assoc, startsWith_eq_isPrefixOf,
      List.isPrefixOf_iff_prefix]
  · rw [heq]
    exact (r.iter_pairwise.imp name_lt_iff.mp).filter _
  · rw [← List.isPrefixOf_iff_prefix, ← startsWith_eq_isPrefixOf]
    exact Sequence.not_of_mem_dropWhile (r.scan_eq_filter namePrefix) hid
  · rw [withPrefix, scan_eq_filter, List.filter_filter]
    exact List.filter_congr fun id _ => Bool.and_true _

end Registry

/-- An entry as discovery reports it. -/
def infoOf (id : ChannelIdentity) (ownerLive : Bool) : ChannelInfo where
  name := id.name
  owner := id.owner
  epoch := id.epoch
  ownerLive := ownerLive
  memberOf := id.memberOf
  regionSize := id.regionSize
  mtu := id.mtu
  earliestIndex := id.earliestIndex

/-- The discovery record of an entry. -/
def changeOf (id : ChannelIdentity) (ownerLive : Bool) : ChannelChange :=
  if id.deleted then .removed id.name id.epoch else .upserted (infoOf id ownerLive)

/-- A node's registry, its discovery log, and the entries that threads have
still to publish, in the order in which they changed the registry. -/
structure Discovery where
  registry : Registry
  log : List ChannelChange
  pending : List ChannelIdentity

namespace Discovery

/-- What a thread does next. Whether an owner is live is not up to it. -/
inductive Command where
  | merge (id : ChannelIdentity)
  | claim (now : UInt64) (q : ClaimRequest)
  | deregister (name : ChannelName)
  | reap (name : ChannelName)
  | publish (k : ℕ) (ownerLive : Bool)

variable (self : NodeId)

/-- The first step of `merge_and_publish`, and of `claim_name`. -/
def mergeChange (d : Discovery) (id : ChannelIdentity) : Discovery :=
  let (registry, merged) := d.registry.mergeTracked id
  { d with
    registry
    pending := if merged.changed then d.pending ++ [merged.winner] else d.pending }

/-- The first step of a removal: a tombstone is published whatever it did. -/
def removeChange (d : Discovery) (removal : Registry × Option ChannelIdentity) : Discovery :=
  { d with registry := removal.1, pending := d.pending ++ removal.2.toList }

def perform (d : Discovery) : Command → Discovery
  | .merge id => d.mergeChange id
  | .claim now q => d.mergeChange (d.registry.claimIdentity self now q)
  | .deregister name => d.removeChange (d.registry.deregister name self)
  | .reap name => d.removeChange (d.registry.reap name)
  | .publish k ownerLive =>
    match d.pending[k]? with
    | none => d
    | some id =>
      { d with log := d.log ++ [changeOf id ownerLive], pending := d.pending.eraseIdx k }

/-- One step of a node whose commands are subject to a condition. -/
def Step (allowed : Discovery → Command → Prop) (d d' : Discovery) : Prop :=
  ∃ cmd, allowed d cmd ∧ d' = d.perform self cmd

def Init (d : Discovery) : Prop := d.registry = .new ∧ d.log = [] ∧ d.pending = []

/-- `list_channels`, as the log's head and the listing; `live` are the owners
that are live members. -/
def listChannels (d : Discovery) (namePrefix : String) (live : NodeId → Bool) :
    List ChannelInfo × ℕ :=
  ((d.registry.withPrefix namePrefix).map fun id =>
    infoOf id (id.owner = self || live id.owner), d.log.length)

end Discovery

/-! ## The client's side -/

/-- What a client makes of a listing. -/
def viewOf (channels : List ChannelInfo) : ChannelName → Option ChannelInfo :=
  fun name => channels.find? fun info => info.name = name

namespace ChannelChanges

/-- The name a record is about. -/
def nameOf : ChannelChange → ChannelName
  | .upserted info => info.name
  | .removed name _ => name

/-- What the name is to be. -/
def entryOf : ChannelChange → Option ChannelInfo
  | .upserted info => some info
  | .removed _ _ => none

def apply (view : ChannelName → Option ChannelInfo) (change : ChannelChange) :
    ChannelName → Option ChannelInfo :=
  Function.update view (nameOf change) (entryOf change)

/-- Apply the records from `cursor` on that match. -/
def replay (namePrefix : String) (cursor : ℕ) (log : List ChannelChange)
    (view : ChannelName → Option ChannelInfo) : ChannelName → Option ChannelInfo :=
  ((log.drop cursor).filter fun c => startsWith namePrefix (nameOf c)).foldl apply view

/-- A record without the hint whether the owner is live. -/
def unhinted : ChannelChange → ChannelChange
  | .upserted info => .upserted { info with ownerLive := false }
  | .removed name epoch => .removed name epoch

@[simp] theorem nameOf_unhinted (c : ChannelChange) : nameOf (unhinted c) = nameOf c := by
  cases c <;> rfl

@[simp] theorem nameOf_changeOf (id : ChannelIdentity) (ownerLive : Bool) :
    nameOf (changeOf id ownerLive) = id.name := by
  simp only [changeOf]
  split <;> rfl

@[simp] theorem unhinted_changeOf (id : ChannelIdentity) (ownerLive : Bool) :
    unhinted (changeOf id ownerLive) = changeOf id false := by
  simp only [changeOf]
  split <;> rfl

theorem entryOf_unhinted (c : ChannelChange) :
    entryOf (unhinted c) = (entryOf c).map fun info => { info with ownerLive := false } := by
  cases c <;> rfl

theorem entryOf_changeOf (id : ChannelIdentity) :
    entryOf (changeOf id false) = if id.deleted then none else some (infoOf id false) := by
  simp only [changeOf]
  split <;> rfl

/-- Only the last record of a name counts. -/
theorem foldl_apply (log : List ChannelChange) (view : ChannelName → Option ChannelInfo)
    (name : ChannelName) :
    log.foldl apply view name =
      match (log.filter (nameOf · = name)).getLast? with
      | none => view name
      | some c => entryOf c := by
  induction log using List.reverseRecOn with
  | nil => rfl
  | append_singleton log c ih =>
      rw [List.foldl_append, List.filter_append]
      by_cases hc : nameOf c = name
      · subst hc
        simp [apply]
      · simp only [List.foldl_cons, List.foldl_nil, apply]
        rw [Function.update_of_ne (Ne.symm hc), ih]
        simp [hc]

end ChannelChanges

namespace Discovery

open ChannelChanges

variable {self : NodeId} {d d' : Discovery}

/-! ## The history of a name -/

/-- What has become of a name since the node started: what is published and
what is still to be. -/
def history (d : Discovery) (name : ChannelName) : List ChannelChange :=
  (d.log.map unhinted ++ d.pending.map (changeOf · false)).filter (nameOf · = name)

/-- A publication does not overtake an earlier one of the same name. -/
def InOrder (d : Discovery) : Command → Prop
  | .publish k _ => ∀ j a b, j < k → d.pending[j]? = some a → d.pending[k]? = some b →
      a.name ≠ b.name
  | _ => True

theorem inOrder_publish_iff (d : Discovery) (k : ℕ) (ownerLive : Bool) :
    InOrder d (.publish k ownerLive) ↔
      ∀ b ∈ d.pending[k]?, ∀ a ∈ d.pending.take k, a.name ≠ b.name := by
  constructor
  · intro h b hb a ha
    obtain ⟨j, hj⟩ := List.getElem?_of_mem ha
    rw [List.getElem?_take] at hj
    split at hj
    · exact h j a b ‹_› hj hb
    · cases hj
  · intro h j a b hj ha hb
    exact h b hb a (List.mem_of_getElem? (i := j) (by rw [List.getElem?_take_of_lt hj, ha]))

instance (d : Discovery) : DecidablePred (InOrder d)
  | .publish k ownerLive => decidable_of_iff _ (inOrder_publish_iff d k ownerLive).symm
  | .merge _ | .claim _ _ | .deregister _ | .reap _ => isTrue trivial

/-- The registry holds what each name's history ends with. -/
def Recorded (d : Discovery) : Prop :=
  ∀ name, (d.history name).getLast? = (d.registry.getRaw name).map (changeOf · false)

/-- An entry that has won is put at the end of its name's history. -/
theorem history_append (d : Discovery) (registry : Registry) (id : ChannelIdentity)
    (name : ChannelName) :
    ({ d with registry, pending := d.pending ++ [id] } : Discovery).history name =
      d.history name ++ if id.name = name then [changeOf id false] else [] := by
  simp only [history, List.map_append, List.filter_append, List.append_assoc, List.map_cons,
    List.map_nil]
  by_cases hn : id.name = name <;> simp [hn]

/-- A publication in order leaves every history as it is. -/
theorem history_publish {k : ℕ} {ownerLive : Bool} (hok : InOrder d (.publish k ownerLive))
    (name : ChannelName) :
    (d.perform self (.publish k ownerLive)).history name = d.history name := by
  simp only [perform]
  cases hk : d.pending[k]? with
  | none => rfl
  | some id =>
      have hlt : k < d.pending.length := (List.getElem?_eq_some_iff.mp hk).1
      have hid : d.pending[k] = id := (List.getElem?_eq_some_iff.mp hk).2
      -- nothing before it in the queue is of the same name
      have hbefore : id.name = name →
          ((d.pending.take k).map (changeOf · false)).filter (nameOf · = name) = [] := by
        intro hn
        rw [List.filter_eq_nil_iff]
        intro c hc
        obtain ⟨a, ha, rfl⟩ := List.mem_map.mp hc
        obtain ⟨j, hj, rfl⟩ := List.mem_take_iff_getElem.mp ha
        have hne := hok j d.pending[j] id (by omega) (List.getElem?_eq_getElem _) hk
        simp only [nameOf_changeOf, decide_eq_true_eq]
        exact fun h => hne (h.trans hn.symm)
      have hsplit : d.pending = d.pending.take k ++ id :: d.pending.drop (k + 1) := by
        conv_lhs => rw [← List.take_append_drop k d.pending]
        rw [List.drop_eq_getElem_cons hlt, hid]
      simp only [history, List.eraseIdx_eq_take_drop_succ]
      conv_rhs => rw [hsplit]
      simp only [List.map_append, List.map_cons, List.map_nil, List.filter_append,
        unhinted_changeOf, List.filter_cons, nameOf_changeOf, List.filter_nil]
      by_cases hn : id.name = name
      · rw [hbefore hn]
        simp [hn]
      · simp [hn]

/-- What a step may do: nothing to any history or entry, or one more entry in a
history and in the registry. -/
def Records (d d' : Discovery) : Prop :=
  (∀ name, d'.history name = d.history name ∧
    d'.registry.getRaw name = d.registry.getRaw name) ∨
  ∃ id, ∀ name,
    d'.history name = d.history name ++ (if id.name = name then [changeOf id false] else []) ∧
    d'.registry.getRaw name = if id.name = name then some id else d.registry.getRaw name

theorem mergeChange_records (d : Discovery) (id : ChannelIdentity) :
    Records d (d.mergeChange id) := by
  have hraw : ∀ name, (d.mergeChange id).registry.getRaw name =
      if (d.registry.winnerOver id).name = name then some (d.registry.winnerOver id)
      else d.registry.getRaw name :=
    fun name => Registry.getRaw_put d.registry (d.registry.winnerOver id) name
  cases hc : (d.registry.mergeTracked id).2.changed with
  | true =>
      refine .inr ⟨d.registry.winnerOver id, fun name => ⟨?_, hraw name⟩⟩
      simp only [mergeChange, hc, if_true]
      exact history_append d _ _ name
  | false =>
      -- the winner is the entry that was there
      have hsame : d.registry.getRaw (d.registry.winnerOver id).name =
          some (d.registry.winnerOver id) := by
        simpa [Registry.mergeTracked] using hc
      refine .inl fun name => ⟨?_, ?_⟩
      · simp only [mergeChange, hc]
        rfl
      · rw [hraw]
        split
        · rename_i hn
          rw [← hn, hsame]
        · rfl

theorem reap_records (d : Discovery) (name : ChannelName) :
    Records d (d.removeChange (d.registry.reap name)) := by
  rcases Registry.reap_cases d.registry name with h | ⟨id, hid, hlive, h⟩
  · rw [h]
    exact .inl fun _ => ⟨by simp [removeChange, history], rfl⟩
  · rw [h]
    refine .inr ⟨{ id with deleted := true }, fun other => ⟨history_append d _ _ other, ?_⟩⟩
    have hput := Registry.getRaw_put d.registry
      (d.registry.winnerOver { id with deleted := true }) other
    rw [Registry.winnerOver_tombstone hid hlive] at hput
    change (d.registry.put (d.registry.winnerOver { id with deleted := true })).getRaw other = _
    rw [Registry.winnerOver_tombstone hid hlive, hput]

theorem deregister_records (d : Discovery) (name : ChannelName) :
    Records d (d.removeChange (d.registry.deregister name self)) := by
  rcases Registry.deregister_cases d.registry name self with h | ⟨h, -⟩
  · rw [h]
    exact .inl fun _ => ⟨by simp [removeChange, history], rfl⟩
  · rw [h]
    exact reap_records d name

theorem Step.records (h : Step self InOrder d d') : Records d d' := by
  obtain ⟨cmd, hok, rfl⟩ := h
  cases cmd with
  | merge id => exact mergeChange_records d id
  | claim now q => exact mergeChange_records d _
  | deregister name => exact deregister_records d name
  | reap name => exact reap_records d name
  | publish k ownerLive =>
      refine .inl fun name => ⟨history_publish hok name, ?_⟩
      simp only [perform]
      split <;> rfl

theorem Records.recorded (h : Records d d') (hr : Recorded d) : Recorded d' := by
  intro name
  rcases h with hsame | ⟨id, hid⟩
  · rw [(hsame name).1, (hsame name).2]
    exact hr name
  · rw [(hid name).1, (hid name).2]
    by_cases hn : id.name = name
    · simp [hn]
    · simpa [hn] using hr name

theorem Records.history_grows (h : Records d d') (name : ChannelName) :
    d.history name <+: d'.history name := by
  rcases h with hsame | ⟨id, hid⟩
  · rw [(hsame name).1]
  · rw [(hid name).1]
    exact List.prefix_append _ _

theorem Step.log_grows {allowed : Discovery → Command → Prop} (h : Step self allowed d d') :
    d.log <+: d'.log := by
  obtain ⟨cmd, -, rfl⟩ := h
  cases cmd with
  | publish k ownerLive =>
      simp only [perform]
      split
      · exact List.prefix_rfl
      · exact List.prefix_append _ _
  | _ => exact List.prefix_rfl

theorem recorded_of_reachable (h : Run.Reachable Init (Step self InOrder) d) : Recorded d := by
  refine h.invariant (fun d hd name => ?_) fun d d' hd hstep => hstep.records.recorded hd
  obtain ⟨hr, hl, hp⟩ := hd
  simp [history, hr, hl, hp]

/-- The histories and the log only grow. -/
theorem grows_of_steps (h : Relation.ReflTransGen (Step self InOrder) d d') :
    d.log <+: d'.log ∧ (∀ name, d.history name <+: d'.history name) := by
  induction h with
  | refl => exact ⟨List.prefix_rfl, fun _ => List.prefix_rfl⟩
  | tail _ hs ih =>
      exact ⟨ih.1.trans hs.log_grows, fun name => (ih.2 name).trans (hs.records.history_grows name)⟩

/-! ## What a client ends up with -/

/-- The live entry of a name, as a listing with this prefix reports it. -/
def reported (d : Discovery) (namePrefix : String) (name : ChannelName) : Option ChannelInfo :=
  if startsWith namePrefix name then (d.registry.get name).map (infoOf · false) else none

/-- A listing has the live entries that match. -/
theorem viewOf_listChannels (d : Discovery) (namePrefix : String) (live : NodeId → Bool)
    (name : ChannelName) :
    (viewOf (d.listChannels self namePrefix live).1 name).map
      (fun info => { info with ownerLive := false }) = d.reported namePrefix name := by
  cases hv : viewOf (d.listChannels self namePrefix live).1 name with
  | some info =>
      obtain ⟨id, hid, rfl⟩ := List.mem_map.mp (List.mem_of_find?_eq_some hv)
      have hfound := List.find?_some hv
      have hname : id.name = name := of_decide_eq_true (p := id.name = name) hfound
      obtain ⟨hget, hmatch⟩ := Registry.mem_withPrefix.mp hid
      rw [hname] at hget hmatch
      rw [reported, if_pos hmatch, hget]
      rfl
  | none =>
      rw [reported]
      split
      · rename_i hmatch
        cases hget : d.registry.get name with
        | none => rfl
        | some id =>
            have hname : id.name = name := Registry.getRaw_name (Registry.get_eq_some.mp hget).1
            have hmem := List.find?_eq_none.mp hv _ (List.mem_map_of_mem
              (Registry.mem_withPrefix.mpr ⟨hname.symm ▸ hget, hname.symm ▸ hmatch⟩))
            exact absurd (decide_eq_true hname) hmem
      · rfl

/-- A name's live entry, by the change it would be published as. -/
theorem map_infoOf_get (r : Registry) (name : ChannelName) :
    (r.get name).map (infoOf · false) = ((r.getRaw name).map (changeOf · false)).bind entryOf := by
  rw [Registry.get]
  cases hraw : r.getRaw name with
  | none => rfl
  | some id =>
      rw [Option.map_some, Option.bind_some, entryOf_changeOf]
      cases hd : id.deleted <;> simp [hd]

/-- With nothing left to publish, the last record of a name is its entry. -/
theorem entryOf_last {c : ChannelChange} {name : ChannelName} (hr : Recorded d)
    (hpending : d.pending = []) (hc : (d.log.filter (nameOf · = name)).getLast? = some c) :
    entryOf (unhinted c) = (d.registry.get name).map (infoOf · false) := by
  have hlast := hr name
  have hhist : d.history name = (d.log.filter (nameOf · = name)).map unhinted := by
    simp [history, hpending, List.filter_map, Function.comp_def]
  rw [hhist, List.getLast?_map, hc] at hlast
  rw [map_infoOf_get, ← hlast, Option.map_some, Option.bind_some]

/-- With no record of a name since, and nothing left to publish, its entry is as
it was. -/
theorem reported_of_no_record {name : ChannelName} {new : List ChannelChange}
    (hr : Recorded d) (hr' : Recorded d') (hpending : d'.pending = [])
    (hlog : d.log ++ new = d'.log) (hhist : d.history name <+: d'.history name)
    (hnone : new.filter (nameOf · = name) = []) :
    (d'.registry.get name).map (infoOf · false) = (d.registry.get name).map (infoOf · false) := by
  have hsame : d'.history name = d.history name := by
    refine (hhist.eq_of_length_le ?_).symm
    simp [history, hpending, ← hlog, List.filter_map, Function.comp_def, hnone]
  have hlast := (hr' name).symm.trans ((congrArg List.getLast? hsame).trans (hr name))
  rw [map_infoOf_get, map_infoOf_get, hlast]

/-- What a client with a prefix applies of one name's records: all, or none. -/
theorem filter_applied (namePrefix : String) (name : ChannelName) (cs : List ChannelChange) :
    (cs.filter fun c => startsWith namePrefix (nameOf c)).filter (nameOf · = name) =
      if startsWith namePrefix name then cs.filter (nameOf · = name) else [] := by
  rw [List.filter_filter]
  split
  · rename_i hmatch
    refine List.filter_congr fun c _ => ?_
    by_cases hc : nameOf c = name
    · simp [hc, hmatch]
    · simp [hc]
  · rename_i hmatch
    rw [List.filter_eq_nil_iff]
    intro c _ hc
    simp only [Bool.and_eq_true, decide_eq_true_eq] at hc
    exact hmatch (hc.1 ▸ hc.2)

/-- **A listing and the changes that follow it are the registry**, in every run
in which the publications of one name are made in the order of its changes.
Once nothing is left to publish, a client that has applied the matching records
from its cursor on has exactly the live entries that match, but for the hints
whether their owners are live. -/
theorem replay_eq_registry (h : Run.Reachable Init (Step self InOrder) d)
    (hrun : Relation.ReflTransGen (Step self InOrder) d d') (hpending : d'.pending = [])
    (namePrefix : String) (live : NodeId → Bool) (name : ChannelName) :
    (replay namePrefix (d.listChannels self namePrefix live).2 d'.log
      (viewOf (d.listChannels self namePrefix live).1) name).map
        (fun info => { info with ownerLive := false }) = d'.reported namePrefix name := by
  have hr : Recorded d := recorded_of_reachable h
  have hr' : Recorded d' := recorded_of_reachable (h.steps hrun)
  obtain ⟨⟨new, hlog⟩, hhist⟩ := grows_of_steps hrun
  have hdrop : d'.log.drop (d.listChannels self namePrefix live).2 = new := by
    rw [← hlog]
    exact List.drop_left
  rw [replay, hdrop, foldl_apply, filter_applied]
  by_cases hmatch : startsWith namePrefix name = true
  · rw [if_pos hmatch]
    cases hlast : (new.filter (nameOf · = name)).getLast? with
    | none =>
        rw [List.getLast?_eq_none_iff] at hlast
        simp only [viewOf_listChannels, reported, if_pos hmatch]
        exact (reported_of_no_record hr hr' hpending hlog (hhist name) hlast).symm
    | some c =>
        simp only [← entryOf_unhinted]
        have hc : (d'.log.filter (nameOf · = name)).getLast? = some c := by
          rw [← hlog, List.filter_append, List.getLast?_append, hlast]
          rfl
        rw [entryOf_last hr' hpending hc, reported, if_pos hmatch]
  · -- a name that does not match is in no listing, and no record of it is applied
    rw [if_neg hmatch]
    simp only [List.getLast?_nil, viewOf_listChannels, reported, if_neg hmatch]

/-! ## Runs -/

def empty : Discovery := ⟨.new, [], []⟩

theorem init_empty : Init empty := ⟨rfl, rfl, rfl⟩

/-- Channel `c` is registered and not published yet; then it is deregistered, and
both changes are published. -/
def registered : Discovery := empty.perform 1 (.claim 0 ⟨"c", 4096, 0, none⟩)

def deregistered : Discovery := registered.perform 1 (.deregister "c")

def published : Discovery :=
  (deregistered.perform 1 (.publish 0 true)).perform 1 (.publish 0 true)

/-- A client that listed between the registration and its publication. -/
theorem replay_after_deregistration :
    Run.Reachable Init (Step 1 InOrder) registered ∧
      Relation.ReflTransGen (Step 1 InOrder) registered published ∧
      (viewOf (registered.listChannels 1 "" fun _ => false).1 "c").isSome = true ∧
      (replay "" (registered.listChannels 1 "" fun _ => false).2 published.log
        (viewOf (registered.listChannels 1 "" fun _ => false).1) "c").map
          (fun info => { info with ownerLive := false }) = published.reported "" "c" := by
  have hreach : Run.Reachable Init (Step 1 InOrder) registered :=
    .next (.start init_empty) ⟨.claim 0 ⟨"c", 4096, 0, none⟩, trivial, rfl⟩
  have hrun : Relation.ReflTransGen (Step 1 InOrder) registered published :=
    ((Relation.ReflTransGen.single ⟨.deregister "c", trivial, rfl⟩).tail
      ⟨.publish 0 true, by decide +kernel, rfl⟩).tail ⟨.publish 0 true, by decide +kernel, rfl⟩
  exact ⟨hreach, hrun, by decide +kernel,
    replay_eq_registry hreach hrun (by decide +kernel) "" (fun _ => false) "c"⟩

/-- Two threads change one name and publish in the other order: the registry
has the second registration, and the log ends with the first. A client that
listed before either is left with an entry of the wrong owner. -/
theorem publications_overtake :
    ∃ d, Run.Reachable Init (Step 1 fun _ _ => True) d ∧ d.pending = [] ∧
      (replay "" (empty.listChannels 1 "" fun _ => false).2 d.log
        (viewOf (empty.listChannels 1 "" fun _ => false).1) "c").map ChannelInfo.owner = some 3 ∧
      (d.registry.get "c").map ChannelIdentity.owner = some 2 :=
  Run.exists_reachable_perform Init _ (perform 1) (fun _ _ => True)
    (fun _ cmd h => ⟨cmd, h, rfl⟩) empty
    [.merge ⟨"c", 3, 4096, 0, 0, 7, 0, false, none⟩, .merge ⟨"c", 2, 4096, 0, 0, 5, 0, false, none⟩,
      .publish 1 true, .publish 0 true]
    _ init_empty (by decide +kernel)

end Discovery

end XchannelNet
