import XchannelNet.Lib.Run
import XchannelNet.Node.Hosting

/-!
# Topics — who may write a topic's log

A topic's log has a single writer: the mux of the topic. The node opens a mux
wherever a topic is created or found on disk, and lets go of it in one place,
where the topic is retired. Whether a name that has a mux is still registered
is for the operations on names to respect, and they do not look at muxes.
-/

namespace XchannelNet.Node

open Wire

variable {c : Config} {n n' : Node}

/-- Somebody has this mux of the topic. -/
def HasMux (n : Node) (topic : ChannelName) (mux : ℕ) : Prop :=
  n.muxes topic = some mux ∨ (mux, topic) ∈ n.threads ∨ (mux, topic) ∈ n.opening ∨
    (mux, topic) ∈ n.retiring ∨ (mux, topic) ∈ n.handles

instance (n : Node) (topic : ChannelName) (mux : ℕ) : Decidable (n.HasMux topic mux) :=
  inferInstanceAs (Decidable (_ ∨ _))

/-- A mux of this topic that is not finished: its writer is open on the topic's path. -/
def Open (n : Node) (topic : ChannelName) (mux : ℕ) : Prop :=
  mux ∉ n.retired ∧ n.HasMux topic mux

instance (n : Node) (topic : ChannelName) (mux : ℕ) : Decidable (n.Open topic mux) :=
  inferInstanceAs (Decidable (_ ∧ _))

/-- No call is about to put a mux of this name into the map, and there is none. -/
def Vacant (n : Node) (name : ChannelName) : Prop :=
  n.muxes name = none ∧ ∀ t ∈ n.opening, t.2 ≠ name

instance (n : Node) (name : ChannelName) : Decidable (n.Vacant name) :=
  inferInstanceAs (Decidable (_ ∧ _))

/-- No mux of this name is in use: none is in the map, about to be put there or about to
be retired, and the threads and handles that are left have finished ones. -/
def Unused (n : Node) (name : ChannelName) : Prop :=
  n.Vacant name ∧ (∀ t ∈ n.retiring, t.2 ≠ name) ∧
    ∀ t ∈ n.threads ++ n.handles, t.2 = name → t.1 ∈ n.retired

instance (n : Node) (name : ChannelName) : Decidable (n.Unused name) :=
  inferInstanceAs (Decidable (_ ∧ _))

/-- A topic is created only while no mux of its name is in use. A name with a
mux, in the map or about to be, is given up by `deregister_topic` alone: it is
not deregistered as a plain channel, and no merge takes it away. -/
def Orderly (c : Config) (n : Node) : Command → Prop
  | .createTopic name _ => n.Unused name
  | .deregister name _ => n.Vacant name
  | .merge id =>
    n.Vacant id.name ∨ ∃ e, (n.registry.mergeTracked id).1.Holds c.nodeId id.name e
  | _ => True

instance (c : Config) (n : Node) : DecidablePred (Orderly c n)
  | .createTopic name _ => inferInstanceAs (Decidable (n.Unused name))
  | .deregister name _ => inferInstanceAs (Decidable (n.Vacant name))
  | .merge id => inferInstanceAs (Decidable (n.Vacant id.name ∨
    ∃ e, (n.registry.mergeTracked id).1.Holds c.nodeId id.name e))
  | .create _ _ | .publishToTopic _ _ _ | .insertMux _ _ | .deregisterTopic _
  | .finishMux _ _ _ | .dropTopic _ _ _ | .write _ _ | .threadExit _ _ | .muxOf _
  | .dropHandle _ _ | .restart _ => isTrue trivial

/-- The muxes of a node are in order. -/
structure Tidy (c : Config) (n : Node) : Prop where
  held : ∀ topic, ¬ n.Vacant topic → ∃ e, n.registry.Holds c.nodeId topic e
  single : ∀ topic mux mux', n.Open topic mux → n.Open topic mux' → mux = mux'
  opening : ∀ topic mux mux', (mux, topic) ∈ n.opening →
    n.muxes topic = none ∧ ((mux', topic) ∈ n.opening → mux' = mux)
  retiring : ∀ topic mux, (mux, topic) ∈ n.retiring → n.Vacant topic

/-! ## One operation -/

theorem not_vacant_iff {topic : ChannelName} :
    ¬ n.Vacant topic ↔ (∃ mux, n.muxes topic = some mux) ∨ ∃ mux, (mux, topic) ∈ n.opening := by
  rw [Vacant, not_and_or, ← ne_eq, Option.ne_none_iff_exists']
  refine or_congr_right ?_
  push Not
  constructor
  · rintro ⟨⟨mux, t⟩, ht, rfl⟩
    exact ⟨mux, ht⟩
  · rintro ⟨mux, ht⟩
    exact ⟨_, ht, rfl⟩

theorem Vacant.not_mem {topic : ChannelName} {mux : ℕ} (h : n.Vacant topic) :
    (mux, topic) ∉ n.opening :=
  fun hin => h.2 _ hin rfl

/-- Of a name nobody uses there is no open mux. -/
theorem Unused.not_open {name : ChannelName} {mux : ℕ} (h : n.Unused name) :
    ¬ n.Open name mux := by
  obtain ⟨hvacant, hretiring, hrest⟩ := h
  rintro ⟨hr, hm | hm | hm | hm | hm⟩
  · rw [hvacant.1] at hm
    cases hm
  · exact hr (hrest _ (List.mem_append_left _ hm) rfl)
  · exact hvacant.not_mem hm
  · exact hretiring _ hm rfl
  · exact hr (hrest _ (List.mem_append_right _ hm) rfl)

/-- What a step that opens nothing leaves of the muxes. -/
structure Fewer (n' n : Node) : Prop where
  muxes : ∀ topic mux, n'.muxes topic = some mux → n.muxes topic = some mux
  threads : n'.threads ⊆ n.threads
  opening : n'.opening ⊆ n.opening
  retiring : n'.retiring ⊆ n.retiring
  handles : n'.handles ⊆ n.handles
  retired : n.retired ⊆ n'.retired

theorem Fewer.refl (n : Node) : Fewer n n :=
  ⟨fun _ _ h => h, List.Subset.refl _, List.Subset.refl _, List.Subset.refl _, List.Subset.refl _,
    List.Subset.refl _⟩

/-- What the node has of muxes. -/
def writers (n : Node) :
    (ChannelName → Option ℕ) × List ℕ × List (ℕ × ChannelName) × List (ℕ × ChannelName) ×
      List (ℕ × ChannelName) × List (ℕ × ChannelName) :=
  (n.muxes, n.retired, n.threads, n.opening, n.retiring, n.handles)

theorem Fewer.of_writers (h : n'.writers = n.writers) : Fewer n' n := by
  simp only [writers, Prod.mk.injEq] at h
  obtain ⟨hmuxes, hretired, hthreads, hopening, hretiring, hhandles⟩ := h
  constructor
  · simp [hmuxes]
  all_goals simp [*]

theorem Fewer.open {topic : ChannelName} {mux : ℕ} (h : Fewer n' n) (ho : n'.Open topic mux) :
    n.Open topic mux :=
  ⟨fun hin => ho.1 (h.retired hin), ho.2.imp (h.muxes topic mux) (.imp (h.threads ·)
    (.imp (h.opening ·) (.imp (h.retiring ·) (h.handles ·))))⟩

theorem Fewer.vacant {topic : ChannelName} (h : Fewer n' n) (hv : n.Vacant topic) :
    n'.Vacant topic := by
  refine ⟨Option.eq_none_iff_forall_ne_some.mpr fun mux hm => ?_, fun t ht => hv.2 t (h.opening ht)⟩
  have hold := h.muxes topic mux hm
  rw [hv.1] at hold
  cases hold

/-- A step that opens nothing and loses no name of a topic. -/
theorem Tidy.mono (h : Tidy c n) (hf : Fewer n' n)
    (hheld : ∀ topic e, ¬ n.Vacant topic → n.registry.Holds c.nodeId topic e →
      ∃ e, n'.registry.Holds c.nodeId topic e) : Tidy c n' where
  held topic hv := by
    have hv' : ¬ n.Vacant topic := mt hf.vacant hv
    obtain ⟨e, he⟩ := h.held topic hv'
    exact hheld topic e hv' he
  single topic mux mux' ho ho' := h.single topic mux mux' (hf.open ho) (hf.open ho')
  opening topic mux mux' hm := by
    obtain ⟨hnone, hunique⟩ := h.opening topic mux mux' (hf.opening hm)
    refine ⟨Option.eq_none_iff_forall_ne_some.mpr fun m hm' => ?_,
      fun hm' => hunique (hf.opening hm')⟩
    have hold := hf.muxes topic m hm'
    rw [hnone] at hold
    cases hold
  retiring topic mux hm := hf.vacant (h.retiring topic mux (hf.retiring hm))

/-- A claim by the node opens nothing and loses nothing. -/
theorem Tidy.claim {q : ClaimRequest} (h : Tidy c n) (hf : Fewer n' n)
    (hreg : n'.registry = (n.claim c q).1.registry) : Tidy c n' := by
  refine h.mono hf fun topic e _ he => ?_
  rw [hreg]
  exact ⟨e, he.claimName _ q⟩

theorem Tidy.createOrigin (h : Tidy c n) (name : ChannelName) (options : ChannelOptions)
    (memberOf : Option ChannelName) : Tidy c (n.createOrigin c name options memberOf).1 := by
  set q : ClaimRequest := ⟨name, options.regionSize, options.mtu, memberOf⟩ with hq
  rcases createOrigin_cases (c := c) n name options memberOf with
    he | ⟨e, -, he⟩ | ⟨l, -, he⟩ | ⟨id, log, -, -, he⟩
  · rw [he]
    exact h
  all_goals
    rw [he]
    exact h.claim (q := q) (.of_writers rfl) rfl

theorem holds_of_createOrigin {name : ChannelName} {options : ChannelOptions}
    {memberOf : Option ChannelName} (h : (n.createOrigin c name options memberOf).2 = true) :
    ∃ e, (n.createOrigin c name options memberOf).1.registry.Holds c.nodeId name e := by
  rcases createOrigin_cases (c := c) n name options memberOf with
    he | ⟨e, -, he⟩ | ⟨l, -, he⟩ | ⟨id, log, hclaim, -, he⟩
  · rw [he] at h
    cases h
  · rw [he] at h
    cases h
  · rw [he] at h
    cases h
  · rw [he]
    exact ⟨_, Registry.holds_claimName_of_ok hclaim⟩

theorem createOrigin_unused {topic : ChannelName} (h : n.Unused topic) (name : ChannelName)
    (options : ChannelOptions) (memberOf : Option ChannelName) :
    (n.createOrigin c name options memberOf).1.Unused topic := by
  rcases createOrigin_cases (c := c) n name options memberOf with
    he | ⟨e, -, he⟩ | ⟨l, -, he⟩ | ⟨id, log, -, -, he⟩ <;> rw [he] <;> exact h

/-- A mux is opened for a name that nobody uses. -/
theorem Tidy.opened {name : ChannelName} (h : Tidy c n) (mux : ℕ) (hunused : n.Unused name)
    (hheld : ∃ e, n.registry.Holds c.nodeId name e)
    (hnext : n'.registry = n.registry ∧ n'.retiring = n.retiring)
    (hopen : ∀ topic m, n'.Open topic m → n.Open topic m ∨ topic = name ∧ m = mux)
    (hmuxes : ∀ topic, topic ≠ name → n'.muxes topic = n.muxes topic)
    (hopening : ∀ t ∈ n'.opening, t ∈ n.opening ∨ t = (mux, name) ∧ n'.muxes name = none) :
    Tidy c n' where
  held topic hv := by
    rw [hnext.1]
    by_cases ht : topic = name
    · exact ht ▸ hheld
    · refine h.held topic (mt (fun hold => ⟨(hmuxes topic ht).trans hold.1, fun t hin => ?_⟩) hv)
      rcases hopening t hin with hin | ⟨rfl, -⟩
      · exact hold.2 t hin
      · exact Ne.symm ht
  single topic m m' ho ho' := by
    rcases hopen topic m ho with hold | ⟨rfl, rfl⟩ <;>
      rcases hopen _ m' ho' with hold' | ⟨ht', hm'⟩
    · exact h.single topic m m' hold hold'
    · exact absurd (ht' ▸ hold) hunused.not_open
    · exact absurd hold' hunused.not_open
    · exact hm'.symm
  opening topic m m' hm := by
    rcases hopening _ hm with hold | ⟨heq, hnone⟩
    · have ht : topic ≠ name := fun ht => hunused.1.2 _ hold ht
      obtain ⟨hnone, hunique⟩ := h.opening topic m m' hold
      refine ⟨(hmuxes topic ht).trans hnone, fun hm' => ?_⟩
      rcases hopening _ hm' with hold' | ⟨heq, -⟩
      · exact hunique hold'
      · exact absurd (Prod.mk.inj heq).2 ht
    · obtain ⟨rfl, rfl⟩ := Prod.mk.inj heq
      refine ⟨hnone, fun hm' => ?_⟩
      rcases hopening _ hm' with hold' | ⟨heq', -⟩
      · exact absurd hold' hunused.1.not_mem
      · exact (Prod.mk.inj heq').1
  retiring topic m hm := by
    rw [hnext.2] at hm
    have ht : topic ≠ name := hunused.2.1 _ hm
    have hv := h.retiring topic m hm
    refine ⟨(hmuxes topic ht).trans hv.1, fun t hin => ?_⟩
    rcases hopening t hin with hin | ⟨rfl, -⟩
    · exact hv.2 t hin
    · exact Ne.symm ht

/-- Into the map at once, as at a restart. -/
theorem Tidy.openMux {name : ChannelName} (h : Tidy c n) (geometry : Mux.TopicGeometry)
    (batch : ℕ) (hheld : ∃ e, n.registry.Holds c.nodeId name e) (hunused : n.Unused name) :
    Tidy c (n.openMux c name geometry batch).1 := by
  rcases openMux_cases (c := c) n name geometry batch with he | he
  · rw [he]
    exact h
  rw [he]
  refine h.opened n.nextMux hunused hheld ⟨rfl, rfl⟩ ?_
    (fun topic ht => Function.update_of_ne ht _ _) fun t ht => .inl ht
  rintro topic m ⟨hr, hm | hm | hm⟩
  · by_cases ht : topic = name
    · subst ht
      simp only [Function.update_self, Option.some.injEq] at hm
      exact .inr ⟨rfl, hm.symm⟩
    · exact .inl ⟨hr, .inl ((Function.update_of_ne ht _ _).symm.trans hm)⟩
  · change (m, topic) ∈ if _ then _ else _ at hm
    split at hm
    · rcases List.mem_cons.mp hm with heq | hm
      · exact .inr (Prod.mk.inj heq).symm
      · exact .inl ⟨hr, .inr (.inl hm)⟩
    · exact .inl ⟨hr, .inr (.inl hm)⟩
  · exact .inl ⟨hr, .inr (.inr hm)⟩

/-- Or by a call that has yet to put it there. -/
theorem Tidy.createTopic {name : ChannelName} (h : Tidy c n) (options : TopicOptions)
    (hok : n.Unused name) : Tidy c (n.createTopic c name options) := by
  have hcreate := h.createOrigin name options.channel none
  have hunused := createOrigin_unused (c := c) hok name options.channel none
  rcases createTopic_cases (c := c) n name options with he | ⟨hcreated, he⟩
  · rw [he]
    exact hcreate
  · rw [he]
    set n₁ := (n.createOrigin c name options.channel none).1
    refine hcreate.opened n₁.nextMux hunused (holds_of_createOrigin hcreated) ⟨rfl, rfl⟩ ?_
      (fun _ _ => rfl) fun t ht => (List.mem_cons.mp ht).symm.imp_right (⟨·, hunused.1.1⟩)
    rintro topic m ⟨hr, hm | hm | hm | hm⟩
    · exact .inl ⟨hr, .inl hm⟩
    · exact .inl ⟨hr, .inr (.inl hm)⟩
    · rcases List.mem_cons.mp hm with heq | hm
      · exact .inr (Prod.mk.inj heq).symm
      · exact .inl ⟨hr, .inr (.inr (.inl hm))⟩
    · exact .inl ⟨hr, .inr (.inr (.inr hm))⟩

/-- The call puts its mux into the map. -/
theorem Tidy.insertMux {name : ChannelName} {mux : ℕ} (h : Tidy c n)
    (hin : (mux, name) ∈ n.opening) : Tidy c
      { n.insertMux c mux name with opening := n.opening.filter fun t => t ≠ (mux, name) } := by
  have hvacant : ∀ topic, topic ≠ name → n.Vacant topic → Vacant
      { n.insertMux c mux name with opening := n.opening.filter fun t => t ≠ (mux, name) } topic :=
    fun topic ht hv => ⟨(Function.update_of_ne ht _ _).trans hv.1,
      fun t hin => hv.2 t (List.mem_filter.mp hin).1⟩
  have hopen : ∀ topic m, Open { n.insertMux c mux name with
      opening := n.opening.filter fun t => t ≠ (mux, name) } topic m → n.Open topic m := by
    rintro topic m ⟨hr, hm | hm | hm | hm⟩
    · by_cases ht : topic = name
      · subst ht
        simp only [Node.insertMux, Function.update_self, Option.some.injEq] at hm
        exact ⟨hr, .inr (.inr (.inl (hm ▸ hin)))⟩
      · exact ⟨hr, .inl ((Function.update_of_ne ht _ _).symm.trans hm)⟩
    · change (m, topic) ∈ if _ then _ else _ at hm
      split at hm
      · rcases List.mem_cons.mp hm with heq | hm
        · exact ⟨hr, .inr (.inr (.inl (heq ▸ hin)))⟩
        · exact ⟨hr, .inr (.inl hm)⟩
      · exact ⟨hr, .inr (.inl hm)⟩
    · exact ⟨hr, .inr (.inr (.inl (List.mem_filter.mp hm).1))⟩
    · exact ⟨hr, .inr (.inr (.inr hm))⟩
  refine ⟨fun topic hv => ?_, fun topic m m' ho ho' => ?_, fun topic m m' hm => ?_,
    fun topic m hm => ?_⟩
  · by_cases ht : topic = name
    · exact h.held topic fun hv' => (ht ▸ hv').not_mem hin
    · exact h.held topic (mt (hvacant topic ht) hv)
  · exact h.single topic m m' (hopen topic m ho) (hopen topic m' ho')
  · obtain ⟨hmem, hne⟩ := List.mem_filter.mp hm
    have ht : topic ≠ name := by
      -- of this name it was the only one
      rintro rfl
      have heq := (h.opening topic mux m hin).2 hmem
      simp [heq] at hne
    obtain ⟨hnone, hunique⟩ := h.opening topic m m' hmem
    exact ⟨(Function.update_of_ne ht _ _).trans hnone,
      fun hm' => hunique (List.mem_filter.mp hm').1⟩
  · have hv := h.retiring topic m hm
    exact hvacant topic (fun ht => (ht ▸ hv).not_mem hin) hv

theorem Tidy.deregister {name : ChannelName} (h : Tidy c n) (removed : Bool)
    (hok : n.Vacant name) : Tidy c (n.deregister c name removed) := by
  rcases deregister_cases (c := c) n name removed with he | ⟨t, ht, he⟩
  · rw [he]
    exact h
  rw [he]
  refine h.mono ?_ fun topic e hv hheld => ⟨e, ?_⟩
  · constructor <;> simp
  · rw [removeDir_registry]
    refine (Registry.holds_deregister ht).mpr ⟨?_, hheld⟩
    rintro rfl
    exact hv hok

/-- The mux is out of the map, and the call has it. -/
theorem Tidy.deregisterTopic (h : Tidy c n) (topic : ChannelName) :
    Tidy c (n.deregisterTopic topic) := by
  rw [Node.deregisterTopic]
  split
  · exact h
  rename_i mux hmux
  have hmap : ∀ other m, Function.update n.muxes topic none other = some m →
      n.muxes other = some m := by
    intro other m hm
    by_cases ht : other = topic
    · rw [ht, Function.update_self] at hm
      cases hm
    · exact (Function.update_of_ne ht _ _).symm.trans hm
  -- but for the call that has it now, there is less than before
  have hless : Fewer { n with muxes := Function.update n.muxes topic none } n :=
    ⟨hmap, List.Subset.refl _, List.Subset.refl _, List.Subset.refl _, List.Subset.refl _,
      List.Subset.refl _⟩
  have hbase := h.mono hless fun _ e _ he => ⟨e, he⟩
  refine ⟨hbase.held, fun other m m' ho ho' => ?_, hbase.opening, fun other m hm => ?_⟩
  · have hopen : ∀ m, Open { n with
        muxes := Function.update n.muxes topic none
        retiring := (mux, topic) :: n.retiring } other m → n.Open other m := by
      rintro m ⟨hr, hm | hm | hm | hm | hm⟩
      · exact ⟨hr, .inl (hmap other m hm)⟩
      · exact ⟨hr, .inr (.inl hm)⟩
      · exact ⟨hr, .inr (.inr (.inl hm))⟩
      · rcases List.mem_cons.mp hm with heq | hm
        · obtain ⟨rfl, rfl⟩ := Prod.mk.inj heq
          exact ⟨hr, .inl hmux⟩
        · exact ⟨hr, .inr (.inr (.inr (.inl hm)))⟩
      · exact ⟨hr, .inr (.inr (.inr (.inr hm)))⟩
    exact h.single other m m' (hopen m ho) (hopen m' ho')
  · rcases List.mem_cons.mp hm with heq | hm
    · obtain ⟨rfl, rfl⟩ := Prod.mk.inj heq
      refine ⟨Function.update_self _ _ _, fun t hin ht => ?_⟩
      have hnone := (h.opening other t.1 t.1 (ht ▸ hin)).1
      rw [hmux] at hnone
      cases hnone
    · exact hbase.retiring other m hm

theorem Tidy.finishMux (h : Tidy c n) (mux : ℕ) (topic : ChannelName) (finishes : Bool) :
    Tidy c (n.finishMux mux topic finishes) := by
  have hfewer : Fewer (n.finishMux mux topic finishes) n := by
    rw [Node.finishMux]
    split
    · exact { Fewer.refl n with retired := List.subset_cons_self _ _ }
    · exact { Fewer.refl n with retiring := List.filter_subset_self _ }
  refine h.mono hfewer fun other e _ he => ⟨e, ?_⟩
  rw [Node.finishMux]
  split <;> exact he

/-- The name goes once nothing of it is in the map. -/
theorem Tidy.dropTopic {mux : ℕ} {topic : ChannelName} (h : Tidy c n)
    (hin : (mux, topic) ∈ n.retiring) (removed : Bool) :
    Tidy c (n.dropTopic c mux topic removed) := by
  rcases dropTopic_cases (c := c) n mux topic removed with ⟨-, he⟩ | ⟨t, ht, he⟩
  · rw [he]
    refine h.mono ?_ fun other e _ hheld => ⟨e, by simpa using hheld⟩
    constructor <;> simp
  · rw [he]
    refine h.mono ?_ fun other e hv hheld => ⟨e, ?_⟩
    · constructor <;> simp
    · rw [removeDir_registry]
      refine (Registry.holds_deregister ht).mpr ⟨?_, hheld⟩
      rintro rfl
      exact hv (h.retiring other mux hin)

/-- A handle is of a mux that is in the map. -/
theorem Tidy.muxOf (h : Tidy c n) (topic : ChannelName) : Tidy c (n.perform c (.muxOf topic)) := by
  simp only [perform]
  split
  · exact h
  rename_i mux hmux
  refine ⟨h.held, fun other m m' ho ho' => ?_, h.opening, h.retiring⟩
  have hopen : ∀ m, Open { n with handles := (mux, topic) :: n.handles } other m →
      n.Open other m := by
    rintro m ⟨hr, hm | hm | hm | hm | hm⟩
    · exact ⟨hr, .inl hm⟩
    · exact ⟨hr, .inr (.inl hm)⟩
    · exact ⟨hr, .inr (.inr (.inl hm))⟩
    · exact ⟨hr, .inr (.inr (.inr (.inl hm)))⟩
    · rcases List.mem_cons.mp hm with heq | hm
      · obtain ⟨rfl, rfl⟩ := Prod.mk.inj heq
        exact ⟨hr, .inl hmux⟩
      · exact ⟨hr, .inr (.inr (.inr (.inr hm)))⟩
  exact h.single other m m' (hopen m ho) (hopen m' ho')

theorem Tidy.merge {id : ChannelIdentity} (h : Tidy c n) (hok : Orderly c n (.merge id)) :
    Tidy c (n.perform c (.merge id)) := by
  refine h.mono (.of_writers rfl) fun topic e hv hheld => ?_
  by_cases ht : topic = id.name
  · subst ht
    exact hok.resolve_left hv
  · have hraw : (n.registry.mergeTracked id).1.getRaw topic = n.registry.getRaw topic := by
      rw [Registry.getRaw_mergeTracked, if_neg (Ne.symm ht)]
    exact ⟨e, (Registry.holds_congr hraw c.nodeId e).mpr hheld⟩

/-! ## A restart -/

/-- Before the first call, each thread runs on the mux that the map has for its topic. -/
structure Quiet (n : Node) : Prop where
  opening : n.opening = []
  retiring : n.retiring = []
  handles : n.handles = []
  threads : ∀ t ∈ n.threads, n.muxes t.2 = some t.1

theorem Quiet.unused {name : ChannelName} (h : Quiet n) (hnone : n.muxes name = none) :
    n.Unused name := by
  refine ⟨⟨hnone, ?_⟩, ?_, ?_⟩
  · simp [h.opening]
  · simp [h.retiring]
  · rw [h.handles, List.append_nil]
    rintro t ht rfl
    have hmapped := h.threads t ht
    rw [hnone] at hmapped
    cases hmapped

theorem Quiet.openMux {name : ChannelName} (h : Quiet n)
    (hnone : n.muxes name = none) (geometry : Mux.TopicGeometry) (batch : ℕ) :
    Quiet (n.openMux c name geometry batch).1 := by
  rcases openMux_cases (c := c) n name geometry batch with he | he
  · rw [he]
    exact h
  rw [he]
  have hold : ∀ t ∈ n.threads,
      Function.update n.muxes name (some n.nextMux) t.2 = some t.1 := by
    intro t ht
    have hne : t.2 ≠ name := by
      intro heq
      have hmapped := h.threads t ht
      rw [heq, hnone] at hmapped
      cases hmapped
    rw [Function.update_of_ne hne]
    exact h.threads t ht
  refine ⟨h.opening, h.retiring, h.handles, fun t ht => ?_⟩
  change t ∈ if _ then _ else _ at ht
  split at ht
  · rcases List.mem_cons.mp ht with rfl | hin
    · exact Function.update_self _ _ _
    · exact hold t hin
  · exact hold t ht

theorem tidy_boot (c : Config) (n : Node) : Tidy c n.boot := by
  have hvacant : ∀ topic, n.boot.Vacant topic := fun topic => ⟨rfl, fun t ht => by cases ht⟩
  refine ⟨fun topic hv => absurd (hvacant topic) hv, ?_, fun topic m m' hm => (by cases hm),
    fun topic m hm => (by cases hm)⟩
  rintro topic mux mux' ⟨-, hm | hm | hm | hm | hm⟩
  all_goals cases hm

theorem tidy_restart (found : List ChannelName) :
    Tidy c (n.boot.reconstructFromDisk c found) := by
  have hboth : Tidy c (n.boot.reconstructFromDisk c found) ∧
      Quiet (n.boot.reconstructFromDisk c found) := by
    refine reconstructFromDisk_induction (I := fun n => Tidy c n ∧ Quiet n) ?_ ?_
      ⟨tidy_boot c n, ⟨rfl, rfl, rfl, fun t ht => by cases ht⟩⟩ found
    · rintro n q l ⟨hn, ht⟩ -
      rcases reclaim_cases (c := c) n q with ⟨e, -, he⟩ | ⟨id, -, he⟩
      all_goals
        rw [he]
        exact ⟨hn.claim (q := q) (.of_writers rfl) rfl,
          ⟨ht.opening, ht.retiring, ht.handles, ht.threads⟩⟩
    · rintro n name geometry batch ⟨hn, ht⟩ hnone hheld
      exact ⟨hn.openMux geometry batch hheld (ht.unused hnone), ht.openMux hnone geometry batch⟩
  exact hboth.1

/-! ## Whole runs -/

theorem Tidy.step (h : Tidy c n) (hstep : Step c (Orderly c) n n') : Tidy c n' := by
  obtain ⟨cmd, hok, rfl⟩ := hstep
  cases cmd with
  | create name options => exact h.createOrigin name options none
  | publishToTopic topic member options => exact h.createOrigin member options (some topic)
  | createTopic name options => exact h.createTopic options hok
  | insertMux mux name =>
      simp only [perform]
      split
      · exact h.insertMux ‹_›
      · exact h
  | deregister name removed => exact h.deregister removed hok
  | deregisterTopic topic => exact h.deregisterTopic topic
  | finishMux mux topic finishes =>
      simp only [perform]
      split
      · exact h.finishMux mux topic finishes
      · exact h
  | dropTopic mux topic removed =>
      simp only [perform]
      split
      · exact h.dropTopic (And.left ‹_›) removed
      · exact h
  | muxOf topic => exact h.muxOf topic
  | dropHandle mux topic =>
      exact h.mono { Fewer.refl n with handles := List.filter_subset_self _ }
        fun _ e _ hheld => ⟨e, hheld⟩
  | merge id => exact h.merge hok
  | write name growth => exact h.mono (.of_writers rfl) fun _ e _ hheld => ⟨e, hheld⟩
  | threadExit mux topic =>
      simp only [perform]
      split
      · exact h
      · exact h.mono { Fewer.refl n with threads := List.filter_subset_self _ }
          fun _ e _ hheld => ⟨e, hheld⟩
  | restart found => exact tidy_restart found

/-- **One mux per topic, and only while the topic is registered**, in every run
in which a topic is not created while a mux of its name is in use, and a name
with a mux is given up only by retiring the topic. -/
theorem one_mux_per_registered_topic (h : Run.Reachable Init (Step c (Orderly c)) n) :
    (∀ topic mux mux', n.Open topic mux → n.Open topic mux' → mux = mux') ∧
      ∀ topic mux, n.muxes topic = some mux →
        ∃ id, n.registry.get topic = some id ∧ id.owner = c.nodeId := by
  have htidy : Tidy c n := by
    refine h.invariant (fun n hn => ?_) fun n n' hn hstep => hn.step hstep
    rw [← hn]
    exact tidy_boot c n
  refine ⟨htidy.single, fun topic mux hm => ?_⟩
  obtain ⟨e, id, hid, hown, -⟩ := htidy.held topic (not_vacant_iff.mpr (.inl ⟨mux, hm⟩))
  exact ⟨id, hid, hown⟩

/-- A promoted topic that is created, retired and created again, with the thread
of its first mux still there, and somebody with a handle. -/
theorem one_mux_after_recreation :
    ∃ n, Run.Reachable Init (Step (plainConfig (· = "t")) (Orderly (plainConfig (· = "t")))) n ∧
      n.muxes "t" = some 1 ∧ n.threads = [(1, "t"), (0, "t")] ∧ n.handles = [(0, "t")] ∧
        (∀ mux, n.Open "t" mux → mux = 1) ∧
        ∃ id, n.registry.get "t" = some id ∧ id.owner = (plainConfig (· = "t")).nodeId := by
  obtain ⟨n, hn, hmux, hthreads, hhandles, hretired⟩ :=
    Run.exists_reachable_perform Init
      (Step (plainConfig (· = "t")) (Orderly (plainConfig (· = "t"))))
      (perform (plainConfig (· = "t"))) (Orderly (plainConfig (· = "t")))
      (fun _ cmd h => ⟨cmd, h, rfl⟩) fresh
      [.createTopic "t" plainTopic, .insertMux 0 "t", .muxOf "t", .deregisterTopic "t",
        .finishMux 0 "t" true, .dropTopic 0 "t" true, .createTopic "t" plainTopic,
        .insertMux 1 "t"]
      (fun n => n.muxes "t" = some 1 ∧ n.threads = [(1, "t"), (0, "t")] ∧
        n.handles = [(0, "t")] ∧ 1 ∉ n.retired)
      init_fresh (by decide +kernel)
  obtain ⟨hsingle, hheld⟩ := one_mux_per_registered_topic hn
  exact ⟨n, hn, hmux, hthreads, hhandles,
    fun mux ho => hsingle "t" mux 1 ho ⟨hretired, .inl hmux⟩, hheld "t" 1 hmux⟩

/-- A topic created a second time has two muxes from the moment the second one
is opened, and until whoever has the first one lets go of it: here the thread of
a promoted topic, and for any other a handle of `poll_muxes`. A topic
deregistered as a plain channel keeps its mux. -/
theorem mux_left_behind :
    (∃ n, Run.Reachable Init (Step (plainConfig (· = "t")) fun _ _ => True) n ∧
      n.muxes "t" = some 1 ∧ n.Open "t" 0 ∧ n.Open "t" 1) ∧
    (∃ n, Run.Reachable Init (Step (plainConfig (· = "t")) fun _ _ => True) n ∧
      n.muxes "u" = some 1 ∧ n.Open "u" 0 ∧ n.Open "u" 1) ∧
    (∃ n, Run.Reachable Init (Step (plainConfig (· = "t")) fun _ _ => True) n ∧
      n.muxes "u" = some 0 ∧ 0 ∉ n.retired ∧ n.registry.get "u" = none) := by
  refine ⟨?_, ?_, ?_⟩
  · exact Run.exists_reachable_perform Init _ (perform (plainConfig (· = "t"))) (fun _ _ => True)
      (fun _ cmd h => ⟨cmd, h, rfl⟩) fresh
      [.createTopic "t" plainTopic, .insertMux 0 "t", .createTopic "t" plainTopic,
        .insertMux 1 "t"]
      _ init_fresh (by decide +kernel)
  · exact Run.exists_reachable_perform Init _ (perform (plainConfig (· = "t"))) (fun _ _ => True)
      (fun _ cmd h => ⟨cmd, h, rfl⟩) fresh
      [.createTopic "u" plainTopic, .insertMux 0 "u", .muxOf "u", .createTopic "u" plainTopic,
        .insertMux 1 "u"]
      _ init_fresh (by decide +kernel)
  · exact Run.exists_reachable_perform Init _ (perform (plainConfig (· = "t"))) (fun _ _ => True)
      (fun _ cmd h => ⟨cmd, h, rfl⟩) fresh
      [.createTopic "u" plainTopic, .insertMux 0 "u", .deregister "u" true]
      _ init_fresh (by decide +kernel)

end XchannelNet.Node
